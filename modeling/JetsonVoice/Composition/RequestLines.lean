import JetsonVoice.Composition.AsrFraming
import JetsonVoice.Foundation.JsonAscii
import JetsonVoice.Server.PythonJson

/-!
# The lines a client writes, as a worker reads them

Every write of the client is one JSON text and a newline, under the lock of stdin.
Whatever texts the payloads hold, no newline gets into a line, so a worker reads the
payloads back one by one, in order, however the pipe cuts the bytes.

## Implementation notes

Payloads are written with `ensure_ascii=False`, cancel lines without it. A worker's
parser is a parameter of its loop; here a line is read as JSON is.
-/

namespace JetsonVoice.Composition

open Foundation JsonText

/-- What the client writes on a line. -/
inductive Sent where
  | request (payload : Json)
  | cancel (reqId : String)

namespace Sent

def payload : Sent → Json
  | .request payload => payload
  | .cancel reqId => .obj [("type", .str "cancel"), ("id", .str reqId)]

def text (F : Floats) : Sent → List Char
  | .request payload => dumps F payload
  | .cancel reqId => asciiObject [("type", "cancel"), ("id", reqId)]

/-- The bytes of a line in front of its newline. -/
def line (F : Floats) (s : Sent) : List UInt8 := (s.text F).flatMap String.utf8EncodeChar

end Sent

/-- The bytes that the writes of a client put on the pipe. -/
def written (F : Floats) (sent : List Sent) : List UInt8 :=
  sent.flatMap fun s => (s.text F ++ ['\n']).flatMap String.utf8EncodeChar

/-- The lines of `std::getline`; the last one may end without a newline. -/
def getlines (s : List UInt8) : List (List UInt8) :=
  let parts := s.splitOn newline
  if parts.getLast? = some [] then parts.dropLast else parts

/-- The value of a line in UTF-8. -/
def lineValue (F : Floats) (lim : Limits) (line : List UInt8) : Option Json :=
  (String.fromUTF8? line.toByteArray).bind fun text => (loads F lim text.toList).toOption

section Newlines
variable {F : Floats} {digits d : Nat} {v : Json} {texts : List (List Char)}

theorem newline_of_mem_utf8 {c : Char} (h : newline ∈ String.utf8EncodeChar c) : c = '\n' := by
  have hne {n : Nat} (hlo : 10 < n) (hhi : n < 256) : newline ≠ UInt8.ofNat n := by
    intro heq
    have := congrArg UInt8.toNat heq
    rw [UInt8.toNat_ofNat_of_lt' hhi] at this
    exact absurd this hlo.ne
  unfold String.utf8EncodeChar at h
  dsimp only at h
  split_ifs at h with hone
  · rw [List.mem_singleton] at h
    have := congrArg UInt8.toNat h
    rw [UInt8.toNat_ofNat_of_lt' (Nat.lt_of_le_of_lt hone (by decide))] at this
    exact Char.toNat_inj.mp this.symm
  -- Every byte of a longer code is above ASCII.
  all_goals simp only [List.mem_cons, List.not_mem_nil, or_false] at h
  · rcases h with h | h <;> exact absurd h (hne (by omega) (by omega))
  · rcases h with h | h | h <;> exact absurd h (hne (by omega) (by omega))
  · rcases h with h | h | h | h <;> exact absurd h (hne (by omega) (by omega))

theorem newline_not_mem_joinTexts (h : ∀ text ∈ texts, '\n' ∉ text) : '\n' ∉ joinTexts texts := by
  induction texts with
  | nil => exact List.not_mem_nil
  | cons text texts ih =>
      have htext := h text List.mem_cons_self
      cases texts with
      | nil => exact htext
      | cons text' texts =>
          have hrest := ih fun t ht => h t (List.mem_cons_of_mem text ht)
          simp only [joinTexts, List.mem_append, not_or]
          exact ⟨⟨htext, by decide⟩, hrest⟩

theorem newline_not_mem_digitChar {n : Nat} (hn : n < 16) : '\n' ≠ Nat.digitChar n := by
  interval_cases n <;> decide

theorem newline_not_mem_escapeChar (c : Char) : '\n' ∉ escapeChar c := by
  intro h
  rcases escapeChar_cases c with ⟨e, -, he, heq⟩ | ⟨hlow, heq⟩ | ⟨-, -, hhigh, heq⟩
  · rw [heq] at h
    obtain rfl : '\n' = e := by simpa using h
    exact absurd he (by simp [simpleEscape])
  · rw [heq] at h
    simp only [List.mem_cons, List.not_mem_nil, or_false] at h
    rcases h with h | h | h | h | h | h
    · exact absurd h (by decide)
    · exact absurd h (by decide)
    · exact absurd h (by decide)
    · exact absurd h (by decide)
    · exact newline_not_mem_digitChar (by omega) h
    · exact newline_not_mem_digitChar (by omega) h
  · rw [heq] at h
    obtain rfl := List.mem_singleton.mp h
    exact absurd hhigh (by decide)

theorem newline_not_mem_asciiEscape (c : Char) : '\n' ∉ asciiEscape c := by
  unfold asciiEscape
  split
  · exact newline_not_mem_escapeChar c
  · intro h
    obtain ⟨n, hn, h⟩ := List.mem_flatMap.mp h
    have hlt := utf16Units_lt hn
    simp only [unitEscape, List.mem_cons, List.not_mem_nil, or_false] at h
    rcases h with h | h | h | h | h | h
    · exact absurd h (by decide)
    · exact absurd h (by decide)
    all_goals exact newline_not_mem_digitChar (by omega) h

/-- A string between quotes has no newline when no character is written with one. -/
theorem newline_not_mem_quoted {escape : Char → List Char} (h : ∀ c, '\n' ∉ escape c)
    (s : List Char) : '\n' ∉ '"' :: s.flatMap escape ++ ['"'] := by
  simp only [List.mem_append, List.mem_cons, List.mem_flatMap, List.not_mem_nil, or_false, not_or,
    not_exists, not_and]
  exact ⟨⟨by decide, fun c _ => h c⟩, by decide⟩

theorem newline_not_mem_scalar (digits : Nat) {token : List Char} (h : ScalarText F digits token v) :
    '\n' ∉ token := fun hmem => absurd (h.chars.2 _ hmem) (by decide)

/-- No value is written with a newline. -/
theorem newline_not_mem_dumps (h : Readable F digits d v) : '\n' ∉ dumps F v := by
  induction h with
  | null => exact (by decide : '\n' ∉ nullWord)
  | bool b =>
      cases b with
      | true => exact (by decide : '\n' ∉ trueWord)
      | false => exact (by decide : '\n' ∉ falseWord)
  | int hdigits => exact newline_not_mem_scalar digits (intText_scalarText (F := F) hdigits)
  | float text => exact newline_not_mem_scalar digits (write_scalarText text)
  | str s => exact newline_not_mem_quoted newline_not_mem_escapeChar s.toList
  | @arr d items h ih =>
      have hitems : '\n' ∉ joinTexts (items.map (dumps F)) :=
        newline_not_mem_joinTexts (List.forall_mem_map.mpr ih)
      simp only [dumps, dumpsItems_eq, List.mem_append, List.mem_cons, List.not_mem_nil, or_false,
        not_or]
      exact ⟨⟨by decide, hitems⟩, by decide⟩
  | @obj d fields hkeys h ih =>
      have hfields : '\n' ∉ joinTexts (fields.map (memberText F)) := by
        refine newline_not_mem_joinTexts (List.forall_mem_map.mpr fun field hfield => ?_)
        simp only [memberText, List.mem_append, not_or]
        exact ⟨⟨newline_not_mem_quoted newline_not_mem_escapeChar _, by decide⟩, ih field hfield⟩
      simp only [dumps, dumpsFields_eq, List.mem_append, List.mem_cons, List.not_mem_nil, or_false,
        not_or]
      exact ⟨⟨by decide, hfields⟩, by decide⟩

theorem newline_not_mem_asciiObject (fields : List (String × String)) :
    '\n' ∉ asciiObject fields := by
  have hfields : '\n' ∉ joinTexts (fields.map fun field =>
      quoteAscii field.1 ++ [':', ' '] ++ quoteAscii field.2) := by
    refine newline_not_mem_joinTexts (List.forall_mem_map.mpr fun field _ => ?_)
    simp only [List.mem_append, not_or]
    exact ⟨⟨newline_not_mem_quoted newline_not_mem_asciiEscape _, by decide⟩,
      newline_not_mem_quoted newline_not_mem_asciiEscape _⟩
  simp only [asciiObject, List.mem_append, List.mem_cons, List.not_mem_nil, or_false, not_or]
  exact ⟨⟨by decide, hfields⟩, by decide⟩

end Newlines

section Lines
variable {F : Floats} {lim : Limits} {sent : List Sent} {s : Sent}

theorem Sent.newline_not_mem (h : Readable F lim.digits lim.depth s.payload) :
    '\n' ∉ s.text F := by
  cases s with
  | request payload => exact newline_not_mem_dumps h
  | cancel reqId => exact newline_not_mem_asciiObject _

theorem Sent.newline_not_mem_line (h : Readable F lim.digits lim.depth s.payload) :
    newline ∉ s.line F := by
  intro hmem
  obtain ⟨c, hc, hin⟩ := List.mem_flatMap.mp hmem
  exact s.newline_not_mem h (newline_of_mem_utf8 hin ▸ hc)

theorem Sent.loads_text (h : Readable F lim.digits lim.depth s.payload) :
    loads F lim (s.text F) = .ok s.payload := by
  cases s with
  | request payload => exact loads_dumps h
  | cancel reqId =>
      have hdepth : 0 < lim.depth := by
        by_contra hzero
        rw [Nat.eq_zero_of_not_pos hzero] at h
        cases h
      have hkeys : ([("type", "cancel"), ("id", reqId)].map Prod.fst).Nodup :=
        (by decide : ["type", "id"].Nodup)
      exact loads_asciiObject hkeys hdepth

/-- A line decodes to its text, and the text to its payload. -/
theorem Sent.lineValue_line (h : Readable F lim.digits lim.depth s.payload) :
    lineValue F lim (s.line F) = some s.payload := by
  have hutf8 : String.fromUTF8? (s.line F).toByteArray = some (String.ofList (s.text F)) :=
    dif_pos ⟨s.text F, rfl⟩
  rw [lineValue, hutf8, Option.bind_some, String.toList_ofList, s.loads_text h]
  rfl

theorem Sent.line_ne_nil (h : Readable F lim.digits lim.depth s.payload) : s.line F ≠ [] := by
  obtain ⟨c, rest, htext⟩ : ∃ c rest, s.text F = c :: rest := by
    cases s with
    | request payload =>
        obtain ⟨c, rest, htext, -⟩ := h.starts
        exact ⟨c, rest, htext⟩
    | cancel reqId => exact ⟨'\x7b', _, rfl⟩
  rw [Sent.line, htext, List.flatMap_cons]
  exact List.append_ne_nil_of_left_ne_nil String.utf8EncodeChar_ne_nil _

theorem written_cons (s : Sent) (sent : List Sent) :
    written F (s :: sent) = s.line F ++ newline :: written F sent := by
  rw [written, List.flatMap_cons, List.flatMap_append, List.append_assoc]
  rfl

theorem terminatedLines_written (h : ∀ s ∈ sent, Readable F lim.digits lim.depth s.payload) :
    terminatedLines newline (written F sent) = sent.map (Sent.line F) := by
  induction sent with
  | nil => rfl
  | cons s sent ih =>
      have hs := h s List.mem_cons_self
      rw [written_cons, terminatedLines_line (Sent.newline_not_mem_line hs),
        ih fun t ht => h t (List.mem_cons_of_mem s ht), if_neg (by simpa using Sent.line_ne_nil hs),
        List.map_cons]
      rfl

theorem splitOn_written (h : ∀ s ∈ sent, Readable F lim.digits lim.depth s.payload) :
    (written F sent).splitOn newline = sent.map (Sent.line F) ++ [[]] := by
  induction sent with
  | nil => rfl
  | cons s sent ih =>
      rw [written_cons, List.splitOn_append_cons_self_of_not_mem
        (Sent.newline_not_mem_line (h s List.mem_cons_self)),
        ih fun t ht => h t (List.mem_cons_of_mem s ht), List.map_cons, List.cons_append]

end Lines

/-- A request whose text has a line break, and a cancel of an id beyond ASCII. -/
def twoLines : List Sent :=
  [.request (.obj [("id", .str "a"), ("text", .str "one\ntwo")]), .cancel "é𝄞"]

end JetsonVoice.Composition
