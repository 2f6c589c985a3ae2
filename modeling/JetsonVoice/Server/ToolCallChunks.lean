import JetsonVoice.Server.ToolCallStream

/-!
# Feeding a tool-call parser in pieces

Between two calls of `feed` the parser keeps the last characters of what it has
not used, enough for a tag, and drops the rest. What it would hold if it dropped
nothing is its state after one call with all the text so far.
-/

namespace JetsonVoice.Server

open Foundation Scanner

namespace ToolCallStreamParser

/-- The rest of the buffer has been dropped behind the name of a bare call. -/
def Dropped (p : ToolCallStreamParser) : Prop :=
  p.state = .text ∧ p.buf = [] ∧ p.inXmlWrapper = false

instance (p : ToolCallStreamParser) : Decidable p.Dropped :=
  inferInstanceAs (Decidable (_ ∧ _ ∧ _))

/-- The parser that has read a text in one call and keeps all it has not used. -/
def reading (py : Python) (text : List Char) : ToolCallStreamParser :=
  ((scanner py).scan (2 * text.length + 2) { buf := text }).2

/-- A parser `p` that was fed the text `seen` loses nothing it needs for the next
piece: with what it kept of the unused text it finds the opening, or the key, that
it finds with all of that text; a backslash it took for a character of the name is
not an escape; and no call follows the bare call behind which text was dropped. -/
def Harmless (py : Python) (seen : List Char) (p : ToolCallStreamParser) (text : List Char) :
    Prop :=
  let q := reading py seen
  if seen ≠ [] ∧ q.Dropped then openCall (p.buf ++ text) = none
  else
    match q.state with
    | .text => openCall (p.buf ++ text) = openCall (q.buf ++ text)
    | .inToolBody =>
        (searchName (p.buf ++ text)).map Prod.snd = (searchName (q.buf ++ text)).map Prod.snd
    | .inNameString =>
        scanName (q.buf ++ text) = ((scanName q.buf).1 ++ (scanName text).1, (scanName text).2)
    | .nameEmitted => True

/-- Every piece that is not empty is harmless after the ones before it. -/
def Lossless (py : Python) : List Char → ToolCallStreamParser → List (List Char) → Prop
  | _, _, [] => True
  | seen, p, text :: texts =>
      (text = [] ∨ Harmless py seen p text) ∧ Lossless py (seen ++ text) (p.feed py text).2 texts

instance (py : Python) (seen : List Char) (p : ToolCallStreamParser) (text : List Char) :
    Decidable (Harmless py seen p text) :=
  if h : seen ≠ [] ∧ (reading py seen).Dropped then
    decidable_of_iff (openCall (p.buf ++ text) = none) (by simp only [Harmless, if_pos h])
  else
    match hs : (reading py seen).state with
    | .text =>
        decidable_of_iff (openCall (p.buf ++ text) = openCall ((reading py seen).buf ++ text))
          (by simp only [Harmless, if_neg h, hs])
    | .inToolBody =>
        decidable_of_iff ((searchName (p.buf ++ text)).map Prod.snd =
            (searchName ((reading py seen).buf ++ text)).map Prod.snd)
          (by simp only [Harmless, if_neg h, hs])
    | .inNameString =>
        decidable_of_iff (scanName ((reading py seen).buf ++ text) =
            ((scanName (reading py seen).buf).1 ++ (scanName text).1, (scanName text).2))
          (by simp only [Harmless, if_neg h, hs])
    | .nameEmitted => isTrue (by simp only [Harmless, if_neg h, hs])

instance decidableLossless (py : Python) : ∀ seen p texts, Decidable (Lossless py seen p texts)
  | _, _, [] => isTrue trivial
  | _, _, _ :: _ => @instDecidableAnd _ _ inferInstance (decidableLossless py _ _ _)

variable {py : Python} {p q q' : ToolCallStreamParser} {seen text : List Char}
  {os os' : List NameDelta}

@[simp] theorem push_buf (p : ToolCallStreamParser) (text : List Char) :
    (p.push text).buf = p.buf ++ text := rfl

@[simp] theorem push_state (p : ToolCallStreamParser) (text : List Char) :
    (p.push text).state = p.state := rfl

/-- Input that is added stays behind what a round leaves, unless the round drops it. -/
theorem drops : (scanner py).Drops Dropped where
  stopped {s} h := by
    change advance py s = none
    have hnone : openCall [] = none := by rfl
    rw [advance_text _ h.1, h.2.1, hnone]
    rfl
  keeps {s t os} text h ht := by
    change advance py s = some (os, t) at h
    change advance py (s.push text) = some (os, t.push text)
    cases hstate : s.state with
    | text =>
        rw [advance_text _ hstate] at h
        obtain ⟨⟨xml, rest⟩, hopen, heq⟩ := Option.map_eq_some_iff.mp h
        cases heq
        rw [advance_text _ (by exact hstate), push_buf, openCall_append hopen]
        rfl
    | inToolBody =>
        rw [advance_body _ hstate] at h
        obtain ⟨⟨before, after⟩, hsearch, heq⟩ := Option.map_eq_some_iff.mp h
        cases heq
        rw [advance_body _ (by exact hstate), push_buf, searchName_append hsearch]
        rfl
    | inNameString =>
        rw [advance_name _ hstate] at h
        obtain ⟨rest, hscan, heq⟩ := Option.map_eq_some_iff.mp h
        cases heq
        rw [advance_name _ (by exact hstate), push_buf, scanName_append (Prod.ext rfl hscan)]
        rfl
    | nameEmitted =>
        cases hxml : s.inXmlWrapper with
        | true =>
            rw [advance_emitted _ hstate hxml] at h
            obtain ⟨⟨before, after⟩, hclose, heq⟩ := Option.map_eq_some_iff.mp h
            cases heq
            rw [advance_emitted _ (by exact hstate) (by exact hxml), push_buf,
              breakOn_append (by decide) hclose]
            rfl
        | false =>
            rw [advance_bare _ hstate hxml] at h
            cases h
            exact absurd ⟨rfl, rfl, hxml⟩ ht
  drops {s t os} text h ht := by
    change advance py s = some (os, t) at h
    change advance py (s.push text) = some (os, t)
    obtain ⟨htext, hbuf, hdropped⟩ := ht
    cases hstate : s.state with
    | text =>
        rw [advance_text _ hstate] at h
        obtain ⟨⟨xml, rest⟩, -, heq⟩ := Option.map_eq_some_iff.mp h
        cases heq
        cases htext
    | inToolBody =>
        rw [advance_body _ hstate] at h
        obtain ⟨⟨before, after⟩, -, heq⟩ := Option.map_eq_some_iff.mp h
        cases heq
        cases htext
    | inNameString =>
        rw [advance_name _ hstate] at h
        obtain ⟨rest, -, heq⟩ := Option.map_eq_some_iff.mp h
        cases heq
        cases htext
    | nameEmitted =>
        cases hxml : s.inXmlWrapper with
        | true =>
            rw [advance_emitted _ hstate hxml] at h
            obtain ⟨⟨before, after⟩, -, heq⟩ := Option.map_eq_some_iff.mp h
            cases heq
            rw [show s.inXmlWrapper = false from hdropped] at hxml
            cases hxml
        | false =>
            rw [advance_bare _ hstate hxml] at h
            cases h
            rw [advance_bare _ (by exact hstate) (by exact hxml)]
            rfl

/-- The end of a text that was searched in vain is as good as the text. -/
theorem breakOn_keepLast {lit text more : List Char} (hlit : lit ≠ [])
    (h : breakOn lit text = none) :
    (breakOn lit (keepLast (lit.length - 1) text ++ more)).map Prod.snd =
      (breakOn lit (text ++ more)).map Prod.snd := by
  have hpos := List.length_pos_iff.mpr hlit
  induction text with
  | nil => simp [keepLast]
  | cons c text ih =>
      by_cases hshort : (c :: text).length ≤ lit.length - 1
      · rw [keepLast, Nat.sub_eq_zero_of_le hshort, List.drop_zero]
      rw [breakOn] at h
      split at h
      · cases h
      · rename_i hpre
        have hrest := Option.map_eq_none_iff.mp h
        have hlate : ¬ lit.isPrefixOf (c :: (text ++ more)) = true := by
          intro hlate
          rw [List.isPrefixOf_iff_prefix] at hlate hpre
          refine hpre (List.prefix_of_prefix_length_le hlate
            (by rw [← List.cons_append]; exact List.prefix_append _ _) ?_)
          omega
        have hkeep : keepLast (lit.length - 1) (c :: text) = keepLast (lit.length - 1) text := by
          have hlen : (c :: text).length - (lit.length - 1) =
              text.length - (lit.length - 1) + 1 := by
            simp only [List.length_cons] at hshort ⊢
            omega
          rw [keepLast, hlen, List.drop_succ_cons, keepLast]
        rw [hkeep, ih hrest, List.cons_append, breakOn, if_neg hlate, Option.map_map]
        rfl

theorem keepLast_keepLast (n : Nat) (text more : List Char) :
    keepLast n (keepLast n text ++ more) = keepLast n (text ++ more) := by
  have hle : text.length - n ≤ text.length := Nat.sub_le _ _
  have hkeep : keepLast n text ++ more = (text ++ more).drop (text.length - n) :=
    (List.drop_append_of_le_length hle).symm
  rw [keepLast, hkeep, List.drop_drop, keepLast, List.length_drop, List.length_append]
  congr 1
  omega

section Pieces

theorem reading_eq_of_scans (h : (scanner py).Scans { buf := seen } os q) :
    reading py seen = q := by
  have hrounds : (({ buf := seen } : ToolCallStreamParser)).rounds < 2 * seen.length + 2 := by
    simp [rounds]
  exact (h.unique (scans_scan (P := scanner py) rounds_lt hrounds)).2.symm

/-- After a harmless piece the parser that keeps little and the one that keeps
all have put out the same, and keep the same. -/
theorem settled_scan (hstop : q.advance py = none) (hdropped : ¬ (seen ≠ [] ∧ q.Dropped))
    (hq : reading py seen = q) (h : Harmless py seen q.settle text)
    (hscan : (scanner py).Scans (q.push text) os q') :
    ∃ r, (scanner py).Scans (q.settle.push text) os r ∧ r.settle = q'.settle := by
  have hdone (hadv : (q.settle.push text).advance py = (q.push text).advance py)
      (hkeep : (q.settle.push text).settle = (q.push text).settle) :
      ∃ r, (scanner py).Scans (q.settle.push text) os r ∧ r.settle = q'.settle := by
    cases hnext : (q.push text).advance py with
    | some r => exact ⟨q', hscan.congr hadv (Option.isSome_of_eq_some hnext), rfl⟩
    | none =>
        obtain ⟨rfl, rfl⟩ := hscan.of_stopped hnext
        exact ⟨_, .stop (hadv.trans hnext), hkeep⟩
  simp only [Harmless, hq, if_neg hdropped] at h
  cases hstate : q.state with
  | text =>
      have hbuf : q.settle = { q with buf := keepLast (toolCallOpen.length - 1) q.buf } := by
        simp only [settle, hstate]
      simp only [hstate] at h
      have hadv : (q.settle.push text).advance py = (q.push text).advance py := by
        rw [advance_text _ (by rw [hbuf]; exact hstate), advance_text _ (by exact hstate),
          push_buf, h, hbuf]
        rfl
      refine hdone hadv ?_
      rw [hbuf]
      simp only [settle, push, hstate, keepLast_keepLast]
  | inToolBody =>
      have hbuf : q.settle = { q with buf := keepLast 16 q.buf } := by simp only [settle, hstate]
      simp only [hstate] at h
      have hadv : (q.settle.push text).advance py = (q.push text).advance py := by
        have hmap (t : ToolCallStreamParser) (o : Option (List Char × List Char)) :
            o.map (fun r => (([] : List NameDelta),
              { t with buf := r.2, state := .inNameString })) =
            (o.map Prod.snd).map fun rest =>
              ([], { t with buf := rest, state := .inNameString }) := by
          rw [Option.map_map]
          rfl
        rw [advance_body _ (by rw [hbuf]; exact hstate), advance_body _ (by exact hstate), hmap,
          push_buf, h, hmap, hbuf]
        rfl
      refine hdone hadv ?_
      rw [hbuf]
      simp only [settle, push, hstate, keepLast_keepLast]
  | inNameString =>
      have hbuf : q.settle =
          { q with buf := [], nameChars := q.nameChars ++ (scanName q.buf).1 } := by
        simp only [settle, hstate]
      simp only [hstate] at h
      have hadv : (q.settle.push text).advance py = (q.push text).advance py := by
        rw [advance_name _ (by rw [hbuf]; exact hstate), advance_name _ (by exact hstate), push_buf,
          push_buf, h, hbuf]
        simp [push]
      refine hdone hadv ?_
      rw [hbuf]
      simp [settle, push, hstate, h]
  | nameEmitted =>
      have hbuf : q.settle = { q with buf := keepLast (toolCallClose.length - 1) q.buf } := by
        simp only [settle, hstate]
      cases hxml : q.inXmlWrapper with
      | false =>
          rw [q.advance_bare hstate hxml] at hstop
          cases hstop
      | true =>
          rw [q.advance_emitted hstate hxml] at hstop
          have hadv : (q.settle.push text).advance py = (q.push text).advance py := by
            have hmap (t : ToolCallStreamParser) (o : Option (List Char × List Char)) :
                o.map (fun r => (([] : List NameDelta), { t with buf := r.2, state := .text })) =
                (o.map Prod.snd).map fun rest => ([], { t with buf := rest, state := .text }) := by
              rw [Option.map_map]
              rfl
            rw [advance_emitted _ (by rw [hbuf]; exact hstate) (by rw [hbuf]; exact hxml),
              advance_emitted _ (by exact hstate) (by exact hxml), hmap, hmap, hbuf, push_buf,
              push_buf, breakOn_keepLast (by decide) (Option.map_eq_none_iff.mp hstop)]
            rfl
          refine hdone hadv ?_
          rw [hbuf]
          simp only [settle, push, hstate, keepLast_keepLast]

/-- The parser that was fed a text in pieces: it has settled on what one call would
hold, or one call would have dropped the rest of the text and it looks for calls. -/
def Follows (p q : ToolCallStreamParser) (seen : List Char) : Prop :=
  if seen ≠ [] ∧ q.Dropped then p.state = .text else p = q.settle

/-- A harmless piece is read as one call reads it behind the text before it. -/
theorem feed_follows (hseen : (scanner py).Scans { buf := seen } os q) (hp : p.Follows q seen)
    (htext : text ≠ []) (h : Harmless py seen p text) :
    ∃ q', (scanner py).Scans { buf := seen ++ text } (os ++ (p.feed py text).1) q' ∧
      (p.feed py text).2.Follows q' (seen ++ text) := by
  have hreading := reading_eq_of_scans hseen
  have hbuf : ({ buf := seen ++ text } : ToolCallStreamParser) =
      ({ buf := seen } : ToolCallStreamParser).push text := rfl
  have hne : seen ++ text ≠ [] := by simp [htext]
  by_cases hdropped : seen ≠ [] ∧ q.Dropped
  · rw [Follows, if_pos hdropped] at hp
    simp only [Harmless, hreading, if_pos hdropped] at h
    have hadv : (p.push text).advance py = none := by
      rw [advance_text _ (by exact hp), push_buf, h]
      rfl
    have hstart : ¬ ({ buf := seen } : ToolCallStreamParser).Dropped := fun hd =>
      hdropped.1 hd.2.1
    rw [feed_eq_of_scans htext (.stop hadv), List.append_nil]
    refine ⟨q, hbuf ▸ hseen.push_dropped drops hstart hdropped.2, ?_⟩
    rw [Follows, if_pos ⟨hne, hdropped.2⟩]
    simp [settle, hp]
  · rw [Follows, if_neg hdropped] at hp
    obtain ⟨os', q', hscan⟩ := exists_scans py (q.push text)
    have hwhole : (scanner py).Scans { buf := seen ++ text } (os ++ os') q' := by
      by_cases hq : q.Dropped
      · have hnil : seen = [] := by
          by_contra hne
          exact hdropped ⟨hne, hq⟩
        obtain ⟨hos, hstart⟩ := hseen.of_stopped (by rw [hnil]; rfl)
        rw [hos, hbuf, ← hstart]
        exact hscan
      · exact hbuf ▸ hseen.push drops hq hscan
    obtain ⟨r, hr, hsettle⟩ := settled_scan hseen.stopped hdropped hreading (hp ▸ h) hscan
    rw [hp, feed_eq_of_scans htext hr]
    refine ⟨q', hwhole, ?_⟩
    rw [Follows]
    split
    · rename_i hd
      rw [hsettle]
      simp [settle, hd.2.1]
    · exact hsettle

theorem feedAll_follows {texts : List (List Char)}
    (hseen : (scanner py).Scans { buf := seen } os q) (hp : p.Follows q seen)
    (h : Lossless py seen p texts) :
    ∃ q', (scanner py).Scans { buf := seen ++ texts.flatten } (os ++ feedAll py p texts) q' := by
  induction texts generalizing seen p os q with
  | nil => exact ⟨q, by simpa [feedAll] using hseen⟩
  | cons text texts ih =>
      obtain ⟨hharmless, hrest⟩ := h
      by_cases htext : text = []
      · subst htext
        have hfeed : p.feed py [] = ([], p) := if_pos rfl
        rw [hfeed, List.append_nil] at hrest
        obtain ⟨q', hq'⟩ := ih hseen hp hrest
        exact ⟨q', by simpa [feedAll, hfeed] using hq'⟩
      · obtain ⟨q₁, hq₁, hp₁⟩ := feed_follows hseen hp htext (hharmless.resolve_left htext)
        obtain ⟨q', hq'⟩ := ih hq₁ hp₁ hrest
        exact ⟨q', by simpa [feedAll, List.append_assoc] using hq'⟩

end Pieces

/-- In every run of calls none of which loses text it needs, the names put out are
those of one call with the whole text. -/
theorem feedAll_eq_feed (py : Python) {texts : List (List Char)} (h : Lossless py [] {} texts) :
    feedAll py {} texts = (feed py {} texts.flatten).1 := by
  have hstart : (scanner py).Scans ({ buf := [] } : ToolCallStreamParser) [] {} := .stop rfl
  have hfollows : ({} : ToolCallStreamParser).Follows {} [] := rfl
  obtain ⟨q, hq⟩ := feedAll_follows hstart hfollows h
  rw [List.nil_append, List.nil_append] at hq
  by_cases hflat : texts.flatten = []
  · rw [hflat] at hq ⊢
    exact (hq.of_stopped rfl).1
  · rw [feed_eq_of_scans (p := {}) hflat hq]

/-- Literals in which only quotes are escaped. -/
def readQuotes : List Char → List Char
  | '\\' :: '"' :: rest => '"' :: readQuotes rest
  | c :: rest => c :: readQuotes rest
  | [] => []

/-- Python as far as the texts below go. -/
def literalPython : Python where
  loads text :=
    match scanName text.tail with
    | (chars, some []) => .value (.str (String.ofList (readQuotes chars)))
    | _ => .decodeError
  dumps _ := "\x7b\x7d"
  callId _ := "call_0"

theorem feedAll_eq_feed_waveHand :
    feedAll literalPython {} (["<tool_", "call>\n\x7b\"", "name\"", ": \"wave", "_hand\"",
      ", \"arguments\"", ": \x7b\"reps\": 3\x7d", "\x7d\n</tool_call>"].map String.toList) =
    [(0, "wave_hand".toList)] := by
  rw [feedAll_eq_feed literalPython (by decide)]
  decide

/-- A piece ends behind the backslash of an escaped quote: the next one ends the name. -/
theorem escape_split : ∃ texts, feedAll literalPython {} texts = [(0, "a\\".toList)] ∧
    (feed literalPython {} texts.flatten).1 = [(0, "a\"b".toList)] :=
  ⟨["<tool_call>\x7b\"name\":\"a\\".toList, "\"b\"\x7d".toList], by decide⟩

end ToolCallStreamParser

end JetsonVoice.Server
