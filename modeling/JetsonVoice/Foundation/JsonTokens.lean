import JetsonVoice.Foundation.JsonText
import Mathlib.Data.Char
import Mathlib.Data.Nat.Digits.Lemmas
import Mathlib.Tactic.IntervalCases

/-!
# Strings and numbers in JSON texts

A string that is written is read back, and so is a text without characters that
need an escape. Text that needs one and is put between quotes as it is reads as a
shorter string, or its quotes are not where they seem to be.
-/

namespace JetsonVoice.Foundation.JsonText

/-- Nothing in the text needs an escape. -/
def Plain (text : List Char) : Prop := ∀ c ∈ text, c ≠ '"' ∧ c ≠ '\\' ∧ 32 ≤ c.toNat

-- Named, for there is also an instance that goes through all characters.
instance (text : List Char) : Decidable (Plain text) := List.decidableBAll _ text

variable {text raw rest after : List Char} {s : List Char}

section Raw

theorem rawString_cons {c : Char} (hquote : c ≠ '"') (hescape : c ≠ '\\') (text : List Char) :
    rawString (c :: text) = (rawString text).map fun (raw, after) => (c :: raw, after) := by
  rw [rawString]
  · exact hquote
  · rintro d rest rfl rfl
    exact hescape rfl

theorem codeUnits_cons {c : Char} (hescape : c ≠ '\\') (hcontrol : 32 ≤ c.toNat)
    (text : List Char) : codeUnits (c :: text) = (codeUnits text).map (c.toNat :: ·) := by
  rw [codeUnits, if_neg (by simp [hescape]; omega)]
  · rintro a b c' d rest rfl rfl
    exact hescape rfl
  · rintro d rest rfl rfl
    exact hescape rfl

/-- A character is written as a short escape, by its number or as it is. -/
theorem escapeChar_cases (c : Char) :
    (∃ d, d ≠ 'u' ∧ simpleEscape d = some c.toNat ∧ escapeChar c = ['\\', d]) ∨
    (c.toNat < 32 ∧ escapeChar c = ['\\', 'u', '0', '0', Nat.digitChar (c.toNat / 16),
      Nat.digitChar (c.toNat % 16)]) ∨
    (c ≠ '"' ∧ c ≠ '\\' ∧ 32 ≤ c.toNat ∧ escapeChar c = [c]) := by
  generalize hwritten : escapeChar c = written
  unfold escapeChar at hwritten
  split_ifs at hwritten with h₁ h₂ h₃ h₄ h₅ h₆ h₇ h₈ <;> subst hwritten
  · exact .inl ⟨'"', by decide, by rw [h₁]; rfl, rfl⟩
  · exact .inl ⟨'\\', by decide, by rw [h₂]; rfl, rfl⟩
  · exact .inl ⟨'n', by decide, by rw [h₃]; rfl, rfl⟩
  · exact .inl ⟨'r', by decide, by rw [h₄]; rfl, rfl⟩
  · exact .inl ⟨'t', by decide, by rw [h₅]; rfl, rfl⟩
  · exact .inl ⟨'b', by decide, by rw [h₆]; rfl, rfl⟩
  · exact .inl ⟨'f', by decide, by rw [h₇]; rfl, rfl⟩
  · exact .inr (.inl ⟨h₈, rfl⟩)
  · exact .inr (.inr ⟨h₁, h₂, by omega, rfl⟩)

/-- An escaped character stands between quotes as it is. -/
theorem rawString_escapeChar (c : Char) (text : List Char) :
    rawString (escapeChar c ++ text) =
      (rawString text).map fun (raw, after) => (escapeChar c ++ raw, after) := by
  have hdigit {n : Nat} (hn : n < 16) : Nat.digitChar n ≠ '"' ∧ Nat.digitChar n ≠ '\\' := by
    interval_cases n <;> decide
  rcases escapeChar_cases c with ⟨d, -, -, h⟩ | ⟨hlow, h⟩ | ⟨hquote, hescape, -, h⟩
  · rw [h]
    rfl
  · obtain ⟨hq, hb⟩ := hdigit (show c.toNat / 16 < 16 by omega)
    obtain ⟨hq', hb'⟩ := hdigit (show c.toNat % 16 < 16 by omega)
    rw [h]
    simp only [List.cons_append, List.nil_append, rawString]
    rw [rawString_cons (by decide) (by decide), rawString_cons (by decide) (by decide),
      rawString_cons hq hb, rawString_cons hq' hb']
    simp only [Option.map_map]
    rfl
  · rw [h]
    exact rawString_cons hquote hescape text

theorem hexValue_digitChar {n : Nat} (h : n < 16) : hexValue (Nat.digitChar n) = some n := by
  interval_cases n <;> decide

theorem codeUnits_escapeChar (c : Char) (text : List Char) :
    codeUnits (escapeChar c ++ text) = (codeUnits text).map (c.toNat :: ·) := by
  rcases escapeChar_cases c with ⟨d, hu, hd, h⟩ | ⟨hlow, h⟩ | ⟨-, hescape, hhigh, h⟩
  · rw [h, List.cons_append, List.cons_append, List.nil_append, codeUnits, hd]
    · cases codeUnits text <;> rfl
    · rintro a b c' d' rest rfl rfl
      exact hu rfl
  · have hunit : hexUnit '0' '0' (Nat.digitChar (c.toNat / 16)) (Nat.digitChar (c.toNat % 16)) =
        some c.toNat := by
      have hzero : hexValue '0' = some 0 := by decide
      simp only [hexUnit, hzero, hexValue_digitChar (show c.toNat / 16 < 16 by omega),
        hexValue_digitChar (show c.toNat % 16 < 16 by omega), bind, Option.bind_some, pure,
        Option.some.injEq]
      omega
    rw [h]
    simp only [List.cons_append, List.nil_append, codeUnits, hunit]
    cases codeUnits text <;> rfl
  · rw [h]
    exact codeUnits_cons hescape hhigh text

theorem charOf_toNat (c : Char) : charOf c.toNat = c := by
  have hvalid : c.toNat.isValidChar := c.valid
  rw [charOf, if_pos hvalid, Char.ofNat_toNat]

theorem joinUnits_map_toNat (s : List Char) : joinUnits (s.map Char.toNat) = s := by
  induction s with
  | nil => rfl
  | cons c s ih =>
      have hnot : isHigh c.toNat = false := by
        have hvalid : c.toNat.isValidChar := c.valid
        simp only [isHigh, Bool.and_eq_false_iff, decide_eq_false_iff_not]
        unfold Nat.isValidChar at hvalid
        omega
      cases s with
      | nil => simp [joinUnits, charOf_toNat]
      | cons d s =>
          simp only [List.map_cons] at ih ⊢
          rw [joinUnits, hnot, Bool.false_and, if_neg (by simp), charOf_toNat, ih]

end Raw

/-- A string that was written is read back. -/
theorem scanString_escaped (s rest : List Char) :
    scanString (s.flatMap escapeChar ++ '"' :: rest) = some (s, rest) := by
  have hraw : rawString (s.flatMap escapeChar ++ '"' :: rest) =
      some (s.flatMap escapeChar, rest) := by
    induction s with
    | nil => rfl
    | cons c s ih =>
        rw [List.flatMap_cons, List.append_assoc, rawString_escapeChar, ih]
        rfl
  have hunits : codeUnits (s.flatMap escapeChar) = some (s.map Char.toNat) := by
    clear hraw
    induction s with
    | nil => rfl
    | cons c s ih =>
        rw [List.flatMap_cons, codeUnits_escapeChar, ih]
        rfl
  simp only [scanString, hraw, hunits, bind, Option.bind_some, pure, joinUnits_map_toNat]

theorem escapeChar_of_plain {c : Char} (h : c ≠ '"' ∧ c ≠ '\\' ∧ 32 ≤ c.toNat) :
    escapeChar c = [c] := by
  have hne {d : Char} (hd : d.toNat < 32) : c ≠ d := by
    rintro rfl
    omega
  obtain ⟨hquote, hescape, hcontrol⟩ := h
  simp only [escapeChar, hquote, hescape, hne (show ('\n').toNat < 32 by decide),
    hne (show ('\r').toNat < 32 by decide), hne (show ('\t').toNat < 32 by decide), if_false]
  rw [if_neg (by omega), if_neg (by omega), if_neg (by omega)]

theorem flatMap_escapeChar_of_plain (h : Plain text) : text.flatMap escapeChar = text := by
  induction text with
  | nil => rfl
  | cons c text ih =>
      rw [List.flatMap_cons, escapeChar_of_plain (h c List.mem_cons_self),
        ih fun d hd => h d (List.mem_cons_of_mem _ hd)]
      rfl

/-- A text in which nothing needs an escape is read as it is. -/
theorem scanString_plain (h : Plain text) (rest : List Char) :
    scanString (text ++ '"' :: rest) = some (text, rest) := by
  have := scanString_escaped text rest
  rwa [flatMap_escapeChar_of_plain h] at this

section Splices

/-- The end of a string and the start of the next one. -/
def nextString (tail : List Char) : List Char := '"' :: ',' :: ' ' :: '"' :: tail

variable {tail : List Char}

/-- Where a string ends that starts in a text in front of another string: in the
text, where it seems to, or only at the quote of the other string. -/
theorem rawString_nextString (h : rawString (text ++ nextString tail) = some (raw, rest)) :
    (∃ behind, rest = behind ++ nextString tail ∧ raw.length + behind.length < text.length) ∨
      (rest = ',' :: ' ' :: '"' :: tail ∧ raw = text ∧ ('\\' ∈ text ∨ '"' ∉ text)) ∨
      rest = tail := by
  induction text using rawString.induct generalizing raw with
  | case1 =>
      cases h
      exact .inr (.inl ⟨rfl, rfl, .inr (by simp)⟩)
  | case2 behind =>
      cases h
      exact .inl ⟨behind, rfl, by simp⟩
  | case3 c text ih =>
      rw [List.cons_append, List.cons_append, rawString] at h
      obtain ⟨⟨raw', rest'⟩, hraw, heq⟩ := Option.map_eq_some_iff.mp h
      cases heq
      rcases ih hraw with ⟨behind, hbehind, hlen⟩ | ⟨hrest, rfl, -⟩ | hrest
      · exact .inl ⟨behind, hbehind, by simp only [List.length_cons]; omega⟩
      · exact .inr (.inl ⟨hrest, rfl, .inl (by simp)⟩)
      · exact .inr (.inr hrest)
  | case4 c text hquote hescape ih =>
      by_cases hc : c = '\\'
      · subst hc
        cases text with
        | nil =>
            cases h
            exact .inr (.inr rfl)
        | cons d text => exact absurd rfl (hescape d text rfl)
      · rw [List.cons_append, rawString_cons hquote hc] at h
        obtain ⟨⟨raw', rest'⟩, hraw, heq⟩ := Option.map_eq_some_iff.mp h
        cases heq
        rcases ih hraw with ⟨behind, hbehind, hlen⟩ | ⟨hrest, rfl, hplain⟩ | hrest
        · exact .inl ⟨behind, hbehind, by simp only [List.length_cons]; omega⟩
        · refine .inr (.inl ⟨hrest, rfl, ?_⟩)
          exact hplain.imp (List.mem_cons_of_mem c) fun hnot => by simp [hnot, Ne.symm hquote]
        · exact .inr (.inr hrest)

/-- The code units are the characters, or there are fewer of them. -/
theorem codeUnits_length {units : List Nat} (h : codeUnits raw = some units) :
    (units = raw.map Char.toNat ∧ ∀ c ∈ raw, c ≠ '\\' ∧ 32 ≤ c.toNat) ∨
      units.length < raw.length := by
  have hle {raw : List Char} {units : List Nat}
      (h : (units = raw.map Char.toNat ∧ ∀ c ∈ raw, c ≠ '\\' ∧ 32 ≤ c.toNat) ∨
        units.length < raw.length) : units.length ≤ raw.length := by
    rcases h with ⟨rfl, -⟩ | hlt
    · simp
    · omega
  induction raw using codeUnits.induct generalizing units with
  | case1 =>
      cases h
      exact .inl ⟨rfl, by simp⟩
  | case2 a b c d raw ih =>
      rw [codeUnits] at h
      obtain ⟨unit, -, h⟩ := Option.bind_eq_some_iff.mp h
      obtain ⟨units', hunits, h⟩ := Option.bind_eq_some_iff.mp h
      cases h
      have hlen := hle (ih hunits)
      exact .inr (by simp only [List.length_cons]; omega)
  | case3 c raw hu ih =>
      rw [codeUnits] at h
      · obtain ⟨unit, -, h⟩ := Option.bind_eq_some_iff.mp h
        obtain ⟨units', hunits, h⟩ := Option.bind_eq_some_iff.mp h
        cases h
        have hlen := hle (ih hunits)
        exact .inr (by simp only [List.length_cons]; omega)
      · exact hu
  | case4 c raw hu hescape hc =>
      rw [codeUnits, if_pos hc] at h
      · cases h
      · exact hu
      · exact hescape
  | case5 c raw hu hescape hc ih =>
      rw [codeUnits, if_neg hc] at h
      · obtain ⟨units', hunits, rfl⟩ := Option.map_eq_some_iff.mp h
        simp only [not_or, Nat.not_lt] at hc
        rcases ih hunits with ⟨rfl, hchars⟩ | hlt
        · exact .inl ⟨rfl, List.forall_mem_cons.mpr ⟨⟨hc.2, hc.1⟩, hchars⟩⟩
        · exact .inr (by simp only [List.length_cons]; omega)
      · exact hu
      · exact hescape

theorem joinUnits_length (units : List Nat) : (joinUnits units).length ≤ units.length := by
  induction units using joinUnits.induct with
  | case1 => simp [joinUnits]
  | case2 n => simp [joinUnits]
  | case3 hi lo rest hpair ih =>
      rw [joinUnits, if_pos hpair]
      simp only [List.length_cons]
      omega
  | case4 hi lo rest hpair ih =>
      rw [joinUnits, if_neg hpair]
      simp only [List.length_cons] at ih ⊢
      omega

/-- A text put between quotes as it is reads as itself if nothing in it needs an
escape; otherwise what is read is shorter, or the quotes are not what they seem. -/
theorem scanString_nextString (h : scanString (text ++ nextString tail) = some (s, rest)) :
    (∃ behind, rest = behind ++ nextString tail ∧ s.length + behind.length < text.length) ∨
      (rest = ',' :: ' ' :: '"' :: tail ∧ (s = text ∧ Plain text ∨ s.length < text.length)) ∨
      rest = tail := by
  obtain ⟨⟨raw, after⟩, hraw, h⟩ := Option.bind_eq_some_iff.mp h
  obtain ⟨units, hunits, h⟩ := Option.bind_eq_some_iff.mp h
  cases h
  have hjoin := joinUnits_length units
  have hle : units.length ≤ raw.length := by
    rcases codeUnits_length hunits with ⟨rfl, -⟩ | hlt
    · simp
    · omega
  rcases rawString_nextString hraw with ⟨behind, hbehind, hlen⟩ | ⟨hrest, rfl, hquote⟩ | hrest
  · exact .inl ⟨behind, hbehind, by omega⟩
  · refine .inr (.inl ⟨hrest, ?_⟩)
    rcases codeUnits_length hunits with ⟨rfl, hchars⟩ | hlt
    · refine .inl ⟨joinUnits_map_toNat raw, fun c hc => ⟨?_, (hchars c hc).1, (hchars c hc).2⟩⟩
      have hnot := hquote.resolve_left fun hmem => (hchars _ hmem).1 rfl
      rintro rfl
      exact hnot hc
    · exact .inr (by omega)
  · exact .inr (.inr hrest)

end Splices

section Numbers

/-- A nonempty run of digits. -/
def Digits (text : List Char) : Prop := text ≠ [] ∧ ∀ c ∈ text, isDigit c = true

/-- The text does not go on with a digit. -/
def EndsDigits (text : List Char) : Prop := text.takeWhile isDigit = []

/-- An integer without a leading zero. -/
def WholeNumber (text : List Char) : Prop := text = ['0'] ∨ Digits text ∧ text.head? ≠ some '0'

/-- A fraction, or nothing. -/
def FractionText (text : List Char) : Prop :=
  text = [] ∨ ∃ digits, Digits digits ∧ text = '.' :: digits

/-- An exponent, or nothing. -/
def ExponentText (text : List Char) : Prop :=
  text = [] ∨ ∃ e sign digits, (e = 'e' ∨ e = 'E') ∧ sign ∈ [[], ['-'], ['+']] ∧
    Digits digits ∧ text = e :: sign ++ digits

/-- What the expression for numbers matches. -/
structure NumberText.WellFormed (n : NumberText) : Prop where
  whole : WholeNumber n.whole
  fraction : FractionText n.fraction
  exponent : ExponentText n.exponent

variable {n : NumberText} {digits whole fraction exponent : List Char}

theorem endsDigits_cons {c : Char} (h : isDigit c = false) (text : List Char) :
    EndsDigits (c :: text) := by
  simp [EndsDigits, h]

theorem EndsNumber.endsDigits (h : EndsNumber rest) : EndsDigits rest := by
  cases rest with
  | nil => rfl
  | cons c rest => exact endsDigits_cons h.1 rest

theorem scanDigits_append (h : Digits digits) (hrest : EndsDigits rest) :
    scanDigits (digits ++ rest) = some (digits, rest) := by
  have htake : (digits ++ rest).takeWhile isDigit = digits := by
    rw [List.takeWhile_append_of_pos h.2, hrest, List.append_nil]
  have hdrop : (digits ++ rest).dropWhile isDigit = rest := by
    have hsplit := List.takeWhile_append_dropWhile (p := isDigit) (l := digits ++ rest)
    rw [htake] at hsplit
    exact List.append_cancel_left hsplit
  rw [scanDigits, htake, hdrop, if_neg h.1]

theorem scanDigits_some (h : scanDigits text = some (digits, rest)) :
    Digits digits ∧ text = digits ++ rest := by
  rw [scanDigits] at h
  split at h
  · cases h
  · rename_i hne
    cases h
    exact ⟨⟨hne, fun c hc => List.mem_takeWhile_imp hc⟩, List.takeWhile_append_dropWhile.symm⟩

theorem scanDigits_none (h : EndsDigits rest) : scanDigits rest = none := if_pos h

theorem scanWhole_append (h : WholeNumber whole) (hrest : EndsDigits rest) :
    scanWhole (whole ++ rest) = some (whole, rest) := by
  rcases h with rfl | ⟨hdigits, hzero⟩
  · rfl
  · obtain ⟨c, whole, rfl⟩ := List.exists_cons_of_ne_nil hdigits.1
    rw [List.cons_append, scanWhole, ← List.cons_append, scanDigits_append hdigits hrest]
    intro rest' hsame
    cases hsame
    exact hzero rfl

theorem scanWhole_some (h : scanWhole text = some (whole, rest)) :
    WholeNumber whole ∧ text = whole ++ rest := by
  unfold scanWhole at h
  split at h
  · cases h
    exact ⟨.inl rfl, rfl⟩
  · rename_i hzero
    obtain ⟨hdigits, rfl⟩ := scanDigits_some h
    refine ⟨.inr ⟨hdigits, fun hhead => ?_⟩, rfl⟩
    obtain ⟨c, whole, rfl⟩ := List.exists_cons_of_ne_nil hdigits.1
    obtain rfl : c = '0' := by simpa using hhead
    exact hzero (whole ++ rest) rfl

theorem scanFraction_append (h : FractionText fraction) (hrest : EndsDigits rest)
    (hdot : rest.head? ≠ some '.') : scanFraction (fraction ++ rest) = (fraction, rest) := by
  rcases h with rfl | ⟨digits, hdigits, rfl⟩
  · rw [List.nil_append]
    unfold scanFraction
    split
    · exact absurd rfl hdot
    · rfl
  · rw [List.cons_append, scanFraction, scanDigits_append hdigits hrest]

theorem scanFraction_spec (text : List Char) :
    FractionText (scanFraction text).1 ∧ text = (scanFraction text).1 ++ (scanFraction text).2 := by
  unfold scanFraction
  split
  · cases hdigits : scanDigits _ with
    | none => exact ⟨.inl rfl, rfl⟩
    | some r =>
        obtain ⟨hds, rfl⟩ := scanDigits_some hdigits
        exact ⟨.inr ⟨_, hds, rfl⟩, rfl⟩
  · exact ⟨.inl rfl, rfl⟩

theorem scanPlusMinus_append {sign : List Char} (h : sign ∈ [[], ['-'], ['+']])
    (hdigits : Digits digits) (rest : List Char) :
    scanPlusMinus (sign ++ (digits ++ rest)) = (sign, digits ++ rest) := by
  obtain ⟨d, digits, rfl⟩ := List.exists_cons_of_ne_nil hdigits.1
  have hd : isDigit d = true := hdigits.2 d List.mem_cons_self
  simp only [List.mem_cons, List.not_mem_nil, or_false] at h
  rcases h with rfl | rfl | rfl
  · rw [List.nil_append, List.cons_append, scanPlusMinus]
    · intro rest' hsame
      cases hsame
      exact absurd hd (by decide)
    · intro rest' hsame
      cases hsame
      exact absurd hd (by decide)
  · rfl
  · rfl

theorem scanExponent_append (h : ExponentText exponent) (hrest : EndsNumber rest) :
    scanExponent (exponent ++ rest) = (exponent, rest) := by
  rcases h with rfl | ⟨e, sign, digits, he, hsign, hdigits, rfl⟩
  · cases rest with
    | nil => rfl
    | cons c rest => simp [scanExponent, hrest.2.2.1, hrest.2.2.2]
  · have hdigits' := scanDigits_append hdigits hrest.endsDigits
    simp only [List.cons_append, List.append_assoc, scanExponent, if_pos he,
      scanPlusMinus_append hsign hdigits, hdigits']

theorem scanExponent_spec (text : List Char) :
    ExponentText (scanExponent text).1 ∧ text = (scanExponent text).1 ++ (scanExponent text).2 := by
  cases text with
  | nil => exact ⟨.inl rfl, rfl⟩
  | cons e text =>
      simp only [scanExponent]
      split
      · rename_i he
        have hsign : (scanPlusMinus text).1 ∈ [[], ['-'], ['+']] ∧
            text = (scanPlusMinus text).1 ++ (scanPlusMinus text).2 := by
          unfold scanPlusMinus
          split <;> simp
        cases hdigits : scanDigits (scanPlusMinus text).2 with
        | none => exact ⟨.inl rfl, rfl⟩
        | some r =>
            obtain ⟨hds, hbehind⟩ := scanDigits_some hdigits
            refine ⟨.inr ⟨e, _, _, he, hsign.1, hds, rfl⟩, ?_⟩
            simp only [List.cons_append, List.append_assoc, List.cons.injEq, true_and]
            rw [← hbehind]
            exact hsign.2
      · exact ⟨.inl rfl, rfl⟩

/-- An exponent and what ends a number are neither digits nor a fraction. -/
theorem ExponentText.ends (h : ExponentText exponent) (hrest : EndsNumber rest) :
    EndsDigits (exponent ++ rest) ∧ (exponent ++ rest).head? ≠ some '.' := by
  rcases h with rfl | ⟨e, sign, digits, rfl | rfl, -, -, rfl⟩
  · refine ⟨hrest.endsDigits, ?_⟩
    cases rest with
    | nil => simp
    | cons c rest => simpa using hrest.2.1
  · exact ⟨endsDigits_cons (by decide) _, by simp⟩
  · exact ⟨endsDigits_cons (by decide) _, by simp⟩

theorem scanSign_append (negative : Bool) (h : WholeNumber whole) (rest : List Char) :
    scanSign ((if negative then ['-'] else []) ++ (whole ++ rest)) = (negative, whole ++ rest) := by
  cases negative with
  | true => rfl
  | false =>
      simp only [Bool.false_eq_true, if_false, List.nil_append]
      unfold scanSign
      split
      · rename_i rest' hminus
        rcases h with rfl | ⟨hdigits, -⟩
        · cases hminus
        · obtain ⟨d, whole, rfl⟩ := List.exists_cons_of_ne_nil hdigits.1
          cases hminus
          exact absurd (hdigits.2 _ List.mem_cons_self) (by decide)
      · rfl

theorem scanSign_spec (text : List Char) :
    text = (if (scanSign text).1 then ['-'] else []) ++ (scanSign text).2 := by
  unfold scanSign
  split <;> rfl

/-- The scan takes the whole text of a number that ends there. -/
theorem scanNumber_text (h : n.WellFormed) (hrest : EndsNumber rest) :
    scanNumber (n.text ++ rest) = some (n, rest) := by
  obtain ⟨hends, hdot⟩ := h.exponent.ends hrest
  have hbehind : EndsDigits (n.fraction ++ (n.exponent ++ rest)) := by
    rcases h.fraction with hnil | ⟨digits, -, hfraction⟩
    · rw [hnil]
      exact hends
    · rw [hfraction]
      exact endsDigits_cons (by decide) _
  have htext : n.text ++ rest = (if n.negative then ['-'] else []) ++
      (n.whole ++ (n.fraction ++ (n.exponent ++ rest))) := by
    simp only [NumberText.text, List.append_assoc]
  simp only [scanNumber, htext, scanSign_append n.negative h.whole,
    scanWhole_append h.whole hbehind, Option.map_some,
    scanFraction_append h.fraction hends hdot, scanExponent_append h.exponent hrest]

/-- A number that is scanned is what the expression matches in front of the rest. -/
theorem scanNumber_some (h : scanNumber text = some (n, rest)) :
    n.WellFormed ∧ text = n.text ++ rest := by
  obtain ⟨⟨whole, behind⟩, hscan, heq⟩ := Option.map_eq_some_iff.mp h
  obtain ⟨hwhole, hsplit⟩ := scanWhole_some hscan
  obtain ⟨rfl, rfl⟩ := Prod.mk.inj heq
  obtain ⟨hfraction, hfractionSplit⟩ := scanFraction_spec behind
  obtain ⟨hexponent, hexponentSplit⟩ := scanExponent_spec (scanFraction behind).2
  refine ⟨⟨hwhole, hfraction, hexponent⟩, ?_⟩
  have hall := scanSign_spec text
  rw [hsplit, hfractionSplit, hexponentSplit] at hall
  simpa only [NumberText.text, List.append_assoc] using hall

end Numbers

section Integers

theorem isDigit_digitChar {d : Nat} (h : d < 10) : isDigit (Nat.digitChar d) = true := by
  interval_cases d <;> decide

theorem toNat_digitChar {d : Nat} (h : d < 10) : (Nat.digitChar d).toNat - 48 = d := by
  interval_cases d <;> decide

theorem digitChar_toNat {c : Char} (h : isDigit c = true) : Nat.digitChar (c.toNat - 48) = c := by
  obtain ⟨hlow, hhigh⟩ : '0' ≤ c ∧ c ≤ '9' := by simpa [isDigit] using h
  have hlow' : 48 ≤ c.toNat := hlow
  have hhigh' : c.toNat ≤ 57 := hhigh
  obtain ⟨k, hk, hc⟩ : ∃ k < 10, c.toNat = 48 + k := ⟨c.toNat - 48, by omega, by omega⟩
  have hchar : c = Char.ofNat (48 + k) := by rw [← hc, Char.ofNat_toNat]
  rw [hchar]
  interval_cases k <;> decide

theorem toNat_lt {c : Char} (h : isDigit c = true) : c.toNat - 48 < 10 := by
  obtain ⟨-, hhigh⟩ : '0' ≤ c ∧ c ≤ '9' := by simpa [isDigit] using h
  have hhigh' : c.toNat ≤ 57 := hhigh
  omega

theorem natOf_natText (n : Nat) : natOf (natText n) = n := by
  rw [natText]
  split
  · rename_i hzero
    rw [hzero]
    decide
  · have hdigits : ∀ d ∈ Nat.digits 10 n, ((fun c => c.toNat - 48) ∘ Nat.digitChar) d = d :=
      fun d hd => toNat_digitChar (Nat.digits_lt_base (by decide) hd)
    rw [natOf, ← List.map_reverse, List.reverse_reverse, List.map_map,
      List.map_congr_left hdigits, List.map_id', Nat.ofDigits_digits]

theorem wholeNumber_natText (n : Nat) : WholeNumber (natText n) := by
  rw [natText]
  split
  · exact .inl rfl
  · rename_i hpos
    have hne : Nat.digits 10 n ≠ [] := Nat.digits_ne_nil_iff_ne_zero.mpr hpos
    refine .inr ⟨⟨by simpa using hne, fun c hc => ?_⟩, fun hhead => ?_⟩
    · obtain ⟨d, hd, rfl⟩ := List.mem_map.mp hc
      exact isDigit_digitChar (Nat.digits_lt_base (by decide) (List.mem_reverse.mp hd))
    · rw [List.head?_map, List.head?_reverse, List.getLast?_eq_some_getLast hne,
        Option.map_some, Option.some.injEq] at hhead
      have hlast := toNat_digitChar (Nat.digits_lt_base (by decide) (List.getLast_mem hne))
      rw [hhead] at hlast
      exact Nat.getLast_digit_ne_zero 10 hpos hlast.symm

theorem natText_natOf (h : WholeNumber whole) : natText (natOf whole) = whole := by
  rcases h with rfl | ⟨⟨hne, hdigits⟩, hzero⟩
  · decide
  · have hlt : ∀ d ∈ whole.reverse.map fun c => c.toNat - 48, d < 10 := by
      intro d hd
      obtain ⟨c, hc, rfl⟩ := List.mem_map.mp hd
      exact toNat_lt (hdigits c (List.mem_reverse.mp hc))
    have hvalues : Nat.digits 10 (natOf whole) = whole.reverse.map fun c => c.toNat - 48 := by
      refine Nat.digits_ofDigits 10 (by decide) _ hlt fun hlist hlast => hzero ?_
      have hlast' := List.getLast?_eq_some_getLast hlist
      rw [hlast, List.getLast?_map, List.getLast?_reverse] at hlast'
      obtain ⟨c, hc, hvalue⟩ := Option.map_eq_some_iff.mp hlast'
      have hchar := digitChar_toNat (hdigits c (List.mem_of_mem_head? hc))
      rw [hvalue] at hchar
      rw [hc, ← hchar]
      rfl
    have hpos : natOf whole ≠ 0 := by
      rw [← Nat.digits_ne_nil_iff_ne_zero (b := 10), hvalues]
      simpa using hne
    rw [natText, if_neg hpos, hvalues, ← List.map_reverse, List.reverse_reverse, List.map_map]
    refine (List.map_congr_left fun c hc => ?_).trans (List.map_id' whole)
    exact digitChar_toNat (hdigits c hc)

end Integers

end JetsonVoice.Foundation.JsonText
