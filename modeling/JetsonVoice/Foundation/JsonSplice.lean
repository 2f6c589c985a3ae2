import JetsonVoice.Foundation.Collections
import JetsonVoice.Foundation.JsonReading

/-!
# Text spliced into JSON

A text stands, as it is, where a string of an object should stand, in front of the
last member of that object. Whatever the text is made of, what starts in it ends in
it, at the quote behind it, or with the object; and a string that starts in it is
shorter than it.
-/

namespace JetsonVoice.Foundation.JsonText

variable {A : Type} {F : Floats} {digits d n b : Nat} {tail text r r₀ : List Char} {close : Char}
  {a : A} {as : List A} {v : Json} {elem : List Char → Parse A} {P : Prop} {Q : A → Prop}

/-- The text behind the spliced one: `key": value}`, without the opening quote of the key. -/
structure LastMember (F : Floats) (digits : Nat) (tail : List Char) (key : String) : Prop where
  /-- The key is not mistaken for what follows an element or a key. -/
  head : ∀ c rest, skipWs tail = c :: rest → c ∉ [',', ':', ']', '\x7d']
  /-- A key is no element of an array. -/
  items : ∀ d n r, series (parseValue F digits d) ']' n ('"' :: tail) ≠ .ok r
  /-- Behind the member the text ends. -/
  fields : ∀ d n fields r,
    series (parseMember (parseValue F digits d)) '\x7d' n ('"' :: tail) = .ok (fields, r) →
      r = [] ∧ ∀ field ∈ fields, field.1 = key

/-- The rest is a later part of the spliced text and all that stands behind it. -/
def Before (tail text r : List Char) : Prop :=
  ∃ behind, r = behind ++ nextString tail ∧ behind.length < text.length

/-- Where something ends that starts in the spliced text; `P` holds of it unless it
takes the quote of the last key, or the end of the object, for its own. -/
def Crossed (tail text r : List Char) (P : Prop) : Prop :=
  r = tail ∨ r = [] ∨ (r = ',' :: ' ' :: '"' :: tail ∨ Before tail text r) ∧ P

theorem Before.mono {text' : List Char} (h : Before tail text r)
    (hle : text.length ≤ text'.length) : Before tail text' r := by
  obtain ⟨behind, rfl, hlt⟩ := h
  exact ⟨behind, rfl, by omega⟩

theorem Crossed.mono {text' : List Char} {P' : Prop} (h : Crossed tail text r P)
    (hle : text.length ≤ text'.length) (hP : P → P') : Crossed tail text' r P' :=
  h.imp_right (·.imp_right fun h => ⟨h.1.imp_right (·.mono hle), hP h.2⟩)

theorem skipWs_nextString (tail text : List Char) :
    skipWs (text ++ nextString tail) = skipWs text ++ nextString tail := by
  rw [skipWs, List.dropWhile_append]
  split
  · rename_i h
    rw [skipWs, List.isEmpty_iff.mp h]
    rfl
  · rfl

theorem length_skipWs_le (text : List Char) : (skipWs text).length ≤ text.length :=
  (List.dropWhile_sublist _).length_le

/-- What stands behind an element that starts in the spliced text. -/
theorem separated_crossed {key : String} (htail : LastMember F digits tail key)
    (hclose : close = ']' ∨ close = '\x7d') {more : List Char → Parse (List A)}
    (hlast : ∀ {as r}, more ('"' :: tail) = .ok (as, r) → r = [] ∧ ∀ a ∈ as, Q a)
    (hmore : ∀ {text' as r}, text'.length < text.length →
      more (text' ++ nextString tail) = .ok (as, r) →
        (r = [] ∨ Before tail text' r) ∧ ∀ a ∈ as, Q a)
    (hr : Crossed tail text r₀ P) (h : separated more close r₀ = .ok (as, r)) :
    P ∧ (r = [] ∨ Before tail text r) ∧ ∀ a ∈ as, Q a := by
  have hquote : '"' ≠ close := by rcases hclose with rfl | rfl <;> decide
  have hcomma : ',' ≠ close := by rcases hclose with rfl | rfl <;> decide
  rw [separated] at h
  split at h
  · cases h
  · rename_i c rest hskip
    rcases hr with rfl | rfl | ⟨rfl | ⟨behind, rfl, hlt⟩, hP⟩
    · have hc := htail.head c rest hskip
      simp only [List.mem_cons, List.not_mem_nil, or_false, not_or] at hc
      rw [if_neg (by rcases hclose with rfl | rfl; exacts [hc.2.2.1, hc.2.2.2]), if_neg hc.1] at h
      cases h
    · cases hskip
    · cases hskip
      rw [if_neg hcomma, if_pos rfl] at h
      obtain ⟨rfl, hQ⟩ := hlast h
      exact ⟨hP, .inl rfl, hQ⟩
    · have hshorter := length_skipWs_le behind
      rw [skipWs_nextString] at hskip
      cases hbehind : skipWs behind with
      | nil =>
          rw [hbehind] at hskip
          cases hskip
          rw [if_neg hquote, if_neg (by decide)] at h
          cases h
      | cons c' behind' =>
          rw [hbehind, List.cons_append] at hskip
          obtain ⟨rfl, rfl⟩ := List.cons.inj hskip
          rw [hbehind, List.length_cons] at hshorter
          split at h
          · cases h
            exact ⟨hP, .inr ⟨behind', rfl, by omega⟩, by simp⟩
          · split at h
            · have hlen := length_skipWs_le behind'
              rw [skipWs_nextString] at h
              obtain ⟨hrest, hQ⟩ := hmore (by omega) h
              exact ⟨hP, hrest.imp_right (·.mono (by omega)), hQ⟩
            · cases h

theorem series_crossed {key : String} (htail : LastMember F digits tail key)
    (hclose : close = ']' ∨ close = '\x7d')
    (helem : ∀ {text a r}, text.length ≤ b → elem (text ++ nextString tail) = .ok (a, r) →
      Crossed tail text r (Q a))
    (hlast : ∀ {n as r}, series elem close n ('"' :: tail) = .ok (as, r) → r = [] ∧ ∀ a ∈ as, Q a)
    (hb : text.length ≤ b) (h : series elem close n (text ++ nextString tail) = .ok (as, r)) :
    (r = [] ∨ Before tail text r) ∧ ∀ a ∈ as, Q a := by
  induction n generalizing text as r with
  | zero => cases h
  | succ n ih =>
      simp only [series] at h
      split at h
      · cases h
      · rename_i a r₀ ha
        obtain ⟨⟨as', r'⟩, hsep, heq⟩ := map_eq_ok.mp h
        cases heq
        obtain ⟨hQ, hrest, hQs⟩ := separated_crossed htail hclose hlast
          (fun hlt => ih (by omega)) (helem hb ha) hsep
        exact ⟨hrest, List.forall_mem_cons.mpr ⟨hQ, hQs⟩⟩

theorem bracketed_crossed {key : String} (htail : LastMember F digits tail key)
    (hclose : close = ']' ∨ close = '\x7d')
    (helem : ∀ {text a r}, text.length ≤ b → elem (text ++ nextString tail) = .ok (a, r) →
      Crossed tail text r (Q a))
    (hlast : ∀ {n as r}, series elem close n ('"' :: tail) = .ok (as, r) → r = [] ∧ ∀ a ∈ as, Q a)
    (hb : text.length ≤ b) (h : bracketed elem close (text ++ nextString tail) = .ok (as, r)) :
    (r = [] ∨ Before tail text r) ∧ ∀ a ∈ as, Q a := by
  have hlen := length_skipWs_le text
  rw [bracketed, skipWs_nextString] at h
  cases htext : skipWs text with
  | nil =>
      rw [htext] at h
      simp only [List.nil_append, nextString] at h
      rw [if_neg (by rcases hclose with rfl | rfl <;> decide)] at h
      have hnil : ([] : List Char).length ≤ b := Nat.zero_le b
      obtain ⟨hrest, hQ⟩ := series_crossed htail hclose helem hlast hnil h
      exact ⟨hrest.imp_right (·.mono (by simp)), hQ⟩
  | cons c behind =>
      rw [htext] at h hlen
      simp only [List.cons_append] at h
      split at h
      · cases h
        exact ⟨.inr ⟨behind, rfl, by simpa using hlen⟩, by simp⟩
      · have hcons : (c :: behind).length ≤ b := hlen.trans hb
        obtain ⟨hrest, hQ⟩ := series_crossed htail hclose helem hlast hcons h
        exact ⟨hrest.imp_right (·.mono hlen), hQ⟩

/-- The quote behind the spliced text starts a string that ends at the next one. -/
theorem scanString_next (tail : List Char) :
    scanString (',' :: ' ' :: '"' :: tail) = some ([',', ' '], tail) := rfl

theorem parseMember_crossed {key : String} (htail : LastMember F digits tail key)
    {value : List Char → Parse Json} {field : String × Json}
    (hvalue : ∀ {text v r}, value (text ++ nextString tail) = .ok (v, r) →
      Crossed tail text r (∀ s, v = .str s → s.length < text.length))
    (h : parseMember value (text ++ nextString tail) = .ok (field, r)) :
    Crossed tail text r (∀ s, field.2 = .str s → s.length < text.length) := by
  unfold parseMember at h
  split at h
  · rename_i text' htext
    split at h
    · cases h
    · rename_i key' behind hkey
      split at h
      · rename_i rest hskip
        obtain ⟨⟨v, r'⟩, hv, heq⟩ := map_eq_ok.mp h
        cases heq
        have hnot : skipWs tail ≠ ':' :: rest := fun hcolon =>
          absurd (htail.head _ _ hcolon) (by simp)
        cases text with
        | nil =>
            cases htext
            rw [scanString_next] at hkey
            cases hkey
            exact absurd hskip hnot
        | cons c text =>
            obtain ⟨-, rfl⟩ := List.cons.inj htext
            -- Only a key that ends in the spliced text has a colon behind it.
            rcases scanString_nextString hkey with ⟨behind', rfl, hlt⟩ | ⟨rfl, -⟩ | rfl
            · rw [skipWs_nextString] at hskip
              have hshorter := length_skipWs_le behind'
              cases hbehind : skipWs behind' with
              | nil =>
                  rw [hbehind] at hskip
                  cases hskip
              | cons c' text' =>
                  rw [hbehind, List.cons_append] at hskip
                  obtain ⟨rfl, rfl⟩ := List.cons.inj hskip
                  rw [hbehind, List.length_cons] at hshorter
                  have hlen := length_skipWs_le text'
                  rw [skipWs_nextString] at hv
                  refine (hvalue hv).mono (by simp only [List.length_cons]; omega)
                    fun hs s heq => ?_
                  have := hs s heq
                  simp only [List.length_cons]
                  omega
            · cases hskip
            · exact absurd hskip hnot
      · cases h
  · cases h

/-- A string that starts in the spliced text. -/
theorem parseWith_string_crossed {inner : Option (List Char → Parse Json)}
    (h : parseWith F digits inner ('"' :: (text ++ nextString tail)) = .ok (v, r)) :
    Crossed tail ('"' :: text) r (∀ s, v = .str s → s.length < text.length + 1) := by
  simp only [parseWith] at h
  split at h
  · rename_i s behind hs
    cases h
    have hstr (h : s.length ≤ text.length) : ∀ s', Json.str (String.ofList s) = .str s' →
        s'.length < text.length + 1 := by
      intro s' heq
      cases heq
      rw [String.length_ofList]
      omega
    rcases scanString_nextString hs with ⟨behind', rfl, hlt⟩ | ⟨rfl, heq | hlt⟩ | rfl
    · exact .inr (.inr ⟨.inr ⟨behind', rfl, by simp only [List.length_cons]; omega⟩,
        hstr (by omega)⟩)
    · exact .inr (.inr ⟨.inl rfl, hstr (by rw [heq.1])⟩)
    · exact .inr (.inr ⟨.inl rfl, hstr (by omega)⟩)
    · exact .inl rfl
  · cases h

/-- Where a value ends that starts in the spliced text. -/
theorem parseValue_crossed {key : String} (htail : LastMember F digits tail key)
    (h : parseValue F digits d (text ++ nextString tail) = .ok (v, r)) :
    Crossed tail text r (∀ s, v = .str s → s.length < text.length) := by
  induction d using Nat.strongRecOn generalizing text v r with
  | ind d ih =>
      rw [parseValue_eq] at h
      cases text with
      | nil =>
          simp only [List.nil_append, nextString, parseWith, scanString_next] at h
          cases h
          exact .inl rfl
      | cons c text =>
          have hcontainer {v : Json} (hv : ∀ s, v ≠ .str s) (hr : r = [] ∨ Before tail text r) :
              Crossed tail (c :: text) r (∀ s, v = .str s → s.length < (c :: text).length) :=
            .inr (hr.imp_right fun hr => ⟨.inr (hr.mono (by simp)), fun s hs => absurd hs (hv s)⟩)
          by_cases hstr : c = '"'
          · subst hstr
            exact parseWith_string_crossed h
          by_cases hobj : c = '\x7b'
          · subst hobj
            cases d with
            | zero => cases h
            | succ d =>
                obtain ⟨⟨fields, r'⟩, hfields, heq⟩ := map_eq_ok.mp h
                cases heq
                refine hcontainer (by simp) (bracketed_crossed (b := text.length)
                  (Q := fun _ => True) htail (.inr rfl) ?_ ?_ le_rfl hfields).1
                · intro text' field r' _ hfield
                  exact (parseMember_crossed htail (ih d (by omega)) hfield).mono le_rfl
                    fun _ => trivial
                · intro n fields r hlast
                  exact ⟨(htail.fields d n fields r hlast).1, fun _ _ => trivial⟩
          by_cases harr : c = '['
          · subst harr
            cases d with
            | zero => cases h
            | succ d =>
                obtain ⟨⟨items, r'⟩, hitems, heq⟩ := map_eq_ok.mp h
                cases heq
                refine hcontainer (by simp) (bracketed_crossed (b := text.length)
                  (Q := fun _ => True) htail (.inl rfl) ?_ ?_ le_rfl hitems).1
                · intro text' item r' _ hitem
                  exact (ih d (by omega) hitem).mono le_rfl fun _ => trivial
                · intro n items r hlast
                  exact absurd hlast (htail.items d n (items, r))
          · rw [List.cons_append, parseWith_scalar _ hstr hobj harr] at h
            obtain ⟨token, htoken, hscalar⟩ := parseScalar_ok h
            have hquote : '"' ∉ token := fun hmem => absurd (hscalar.chars.2 _ hmem) (by decide)
            obtain ⟨behind, hsplit⟩ := prefix_of_notMem (u := c :: text) htoken hquote
            have hr : r = behind ++ nextString tail := by
              rw [← List.cons_append, ← hsplit, List.append_assoc] at htoken
              exact (List.append_cancel_left htoken).symm
            have hlen : behind.length < (c :: text).length := by
              have := List.length_pos_iff.mpr hscalar.chars.1
              rw [← hsplit, List.length_append]
              omega
            exact .inr (.inr ⟨.inr ⟨behind, hr, hlen⟩, fun s hs => absurd hs (hscalar.ne_str s)⟩)

end JetsonVoice.Foundation.JsonText
