import JetsonVoice.Foundation.JsonRoundTrip

/-!
# JSON texts in ASCII

Without `ensure_ascii=False`, Python's `json.dumps` escapes every character outside of
ASCII by its UTF-16 code units. A string written so is read back, also beyond the
basic plane.
-/

namespace JetsonVoice.Foundation.JsonText

/-- The UTF-16 code units of a character. -/
def utf16Units (c : Char) : List Nat :=
  if c.toNat < 0x10000 then [c.toNat]
  else [0xD800 + (c.toNat - 0x10000) / 1024 % 1024, 0xDC00 + (c.toNat - 0x10000) % 1024]

/-- A code unit behind `\u`. -/
def unitEscape (n : Nat) : List Char :=
  ['\\', 'u', Nat.digitChar (n / 4096), Nat.digitChar (n / 256 % 16), Nat.digitChar (n / 16 % 16),
    Nat.digitChar (n % 16)]

/-- One character of a string as it is written in ASCII. -/
def asciiEscape (c : Char) : List Char :=
  if c.toNat < 127 then escapeChar c else (utf16Units c).flatMap unitEscape

def quoteAscii (s : String) : List Char := '"' :: s.toList.flatMap asciiEscape ++ ['"']

/-- `json.dumps` of a dictionary of strings. -/
def asciiObject (fields : List (String × String)) : List Char :=
  '\x7b' :: joinTexts (fields.map fun field =>
    quoteAscii field.1 ++ [':', ' '] ++ quoteAscii field.2) ++ ['\x7d']

section Units
variable {n : Nat} {c : Char} {text : List Char}

theorem utf16Units_lt (h : n ∈ utf16Units c) : n < 0x10000 := by
  unfold utf16Units at h
  split at h
  · rw [List.mem_singleton.mp h]
    assumption
  · simp only [List.mem_cons, List.not_mem_nil, or_false] at h
    omega

theorem rawString_unitEscape (hn : n < 0x10000) (text : List Char) :
    rawString (unitEscape n ++ text) =
      (rawString text).map fun (raw, after) => (unitEscape n ++ raw, after) := by
  have hdigit {k : Nat} (hk : k < 16) : Nat.digitChar k ≠ '"' ∧ Nat.digitChar k ≠ '\\' := by
    interval_cases k <;> decide
  obtain ⟨h3, h3'⟩ := hdigit (show n / 4096 < 16 by omega)
  obtain ⟨h2, h2'⟩ := hdigit (show n / 256 % 16 < 16 by omega)
  obtain ⟨h1, h1'⟩ := hdigit (show n / 16 % 16 < 16 by omega)
  obtain ⟨h0, h0'⟩ := hdigit (show n % 16 < 16 by omega)
  simp only [unitEscape, List.cons_append, List.nil_append, rawString]
  rw [rawString_cons h3 h3', rawString_cons h2 h2', rawString_cons h1 h1', rawString_cons h0 h0']
  simp only [Option.map_map]
  rfl

theorem codeUnits_unitEscape (hn : n < 0x10000) (text : List Char) :
    codeUnits (unitEscape n ++ text) = (codeUnits text).map (n :: ·) := by
  have hunit : hexUnit (Nat.digitChar (n / 4096)) (Nat.digitChar (n / 256 % 16))
      (Nat.digitChar (n / 16 % 16)) (Nat.digitChar (n % 16)) = some n := by
    simp only [hexUnit, hexValue_digitChar (show n / 4096 < 16 by omega),
      hexValue_digitChar (show n / 256 % 16 < 16 by omega),
      hexValue_digitChar (show n / 16 % 16 < 16 by omega),
      hexValue_digitChar (show n % 16 < 16 by omega), bind, Option.bind_some, pure,
      Option.some.injEq]
    omega
  simp only [unitEscape, List.cons_append, List.nil_append, codeUnits, hunit]
  cases codeUnits text <;> rfl

theorem utf16Units_of_low (h : c.toNat < 127) : utf16Units c = [c.toNat] := if_pos (by omega)

theorem rawString_asciiEscape (c : Char) (text : List Char) :
    rawString (asciiEscape c ++ text) =
      (rawString text).map fun (raw, after) => (asciiEscape c ++ raw, after) := by
  unfold asciiEscape
  split
  · exact rawString_escapeChar c text
  · have hunits := fun n => utf16Units_lt (n := n) (c := c)
    generalize utf16Units c = units at hunits
    induction units with
    | nil => cases h : rawString text <;> simp [h]
    | cons n units ih =>
        rw [List.flatMap_cons, List.append_assoc, rawString_unitEscape (hunits n List.mem_cons_self),
          ih fun m hm => hunits m (List.mem_cons_of_mem n hm), Option.map_map]
        simp [Function.comp_def]

theorem codeUnits_asciiEscape (c : Char) (text : List Char) :
    codeUnits (asciiEscape c ++ text) = (codeUnits text).map (utf16Units c ++ ·) := by
  unfold asciiEscape
  split
  · rename_i h
    rw [codeUnits_escapeChar, utf16Units_of_low h]
    rfl
  · have hunits := fun n => utf16Units_lt (n := n) (c := c)
    generalize utf16Units c = units at hunits
    induction units with
    | nil => cases h : codeUnits text <;> simp [h]
    | cons n units ih =>
        rw [List.flatMap_cons, List.append_assoc, codeUnits_unitEscape (hunits n List.mem_cons_self),
          ih fun m hm => hunits m (List.mem_cons_of_mem n hm), Option.map_map]
        simp [Function.comp_def]

/-- The code units of a text are joined to its characters. -/
theorem joinUnits_utf16 (s : List Char) : joinUnits (s.flatMap utf16Units) = s := by
  induction s with
  | nil => rfl
  | cons c s ih =>
      have hvalid : c.toNat.isValidChar := c.valid
      unfold Nat.isValidChar at hvalid
      rw [List.flatMap_cons]
      by_cases hplane : c.toNat < 0x10000
      · -- A unit of its own is no surrogate.
        have hunits : utf16Units c = [c.toNat] := if_pos hplane
        have hnot : isHigh c.toNat = false := by
          simp only [isHigh, Bool.and_eq_false_iff, decide_eq_false_iff_not]
          omega
        rw [hunits, List.singleton_append]
        cases hs : s.flatMap utf16Units with
        | nil =>
            rw [hs] at ih
            rw [joinUnits, charOf_toNat, ← ih, joinUnits]
        | cons n units =>
            rw [joinUnits, hnot, Bool.false_and, if_neg (by simp), charOf_toNat, ← hs, ih]
      · have hunits : utf16Units c = [0xD800 + (c.toNat - 0x10000) / 1024 % 1024,
            0xDC00 + (c.toNat - 0x10000) % 1024] := if_neg hplane
        have hhigh : isHigh (0xD800 + (c.toNat - 0x10000) / 1024 % 1024) = true := by
          simp only [isHigh, Bool.and_eq_true, decide_eq_true_eq]
          omega
        have hlow : isLow (0xDC00 + (c.toNat - 0x10000) % 1024) = true := by
          simp only [isLow, Bool.and_eq_true, decide_eq_true_eq]
          omega
        have hjoined : 0x10000 + (0xD800 + (c.toNat - 0x10000) / 1024 % 1024 - 0xD800) * 1024 +
            (0xDC00 + (c.toNat - 0x10000) % 1024 - 0xDC00) = c.toNat := by omega
        rw [hunits, List.cons_append, List.cons_append, List.nil_append, joinUnits, hhigh, hlow,
          Bool.and_self, if_pos rfl, hjoined, charOf_toNat, ih]

end Units

section Reading
variable {F : Floats} {lim : Limits} {n d : Nat} {fields : List (String × String)}

/-- A string that was written in ASCII is read back. -/
theorem scanString_asciiEscaped (s rest : List Char) :
    scanString (s.flatMap asciiEscape ++ '"' :: rest) = some (s, rest) := by
  have hraw : rawString (s.flatMap asciiEscape ++ '"' :: rest) =
      some (s.flatMap asciiEscape, rest) := by
    induction s with
    | nil => rfl
    | cons c s ih =>
        rw [List.flatMap_cons, List.append_assoc, rawString_asciiEscape, ih]
        rfl
  have hunits : codeUnits (s.flatMap asciiEscape) = some (s.flatMap utf16Units) := by
    clear hraw
    induction s with
    | nil => rfl
    | cons c s ih =>
        rw [List.flatMap_cons, codeUnits_asciiEscape, ih]
        rfl
  simp only [scanString, hraw, hunits, bind, Option.bind_some, pure, joinUnits_utf16]

/-- A member whose value is a string. -/
theorem parseMember_quoteAscii (key s : String) (rest : List Char) :
    parseMember (parseValue F n d) (quoteAscii key ++ [':', ' '] ++ quoteAscii s ++ rest) =
      .ok ((key, .str s), rest) := by
  have hvalue : parseValue F n d (quoteAscii s ++ rest) = .ok (.str s, rest) := by
    simp only [quoteAscii, List.cons_append, List.append_assoc, List.nil_append, parseValue_eq,
      parseWith, scanString_asciiEscaped, String.ofList_toList]
  have hkey := scanString_asciiEscaped key.toList (':' :: ' ' :: (quoteAscii s ++ rest))
  have hblank : skipWs (' ' :: (quoteAscii s ++ rest)) = quoteAscii s ++ rest := rfl
  have htext : quoteAscii key ++ [':', ' '] ++ quoteAscii s ++ rest =
      '"' :: (key.toList.flatMap asciiEscape ++ '"' :: ':' :: ' ' :: (quoteAscii s ++ rest)) := by
    simp only [quoteAscii, List.cons_append, List.append_assoc, List.nil_append]
  simp only [htext, parseMember, hkey, skipWs_of_head (show isWs ':' = false by decide), hblank,
    hvalue, String.ofList_toList]
  rfl

/-- The text of a value, if it is a string. -/
def stringText : Json → List Char
  | .str s => quoteAscii s
  | _ => []

/-- A dictionary of strings that was written in ASCII is read back. -/
theorem loads_asciiObject (hkeys : (fields.map Prod.fst).Nodup) (hdepth : 0 < lim.depth) :
    loads F lim (asciiObject fields) =
      .ok (.obj (fields.map fun field => (field.1, .str field.2))) := by
  obtain ⟨d, hd⟩ := Nat.exists_eq_succ_of_ne_zero hdepth.ne'
  let write (field : String × Json) : List Char :=
    quoteAscii field.1 ++ [':', ' '] ++ stringText field.2
  let members := fields.map fun field => (field.1, Json.str field.2)
  have htexts : fields.map (fun field => quoteAscii field.1 ++ [':', ' '] ++ quoteAscii field.2) =
      members.map write := by
    rw [List.map_map]
    rfl
  have hmember : ∀ member ∈ members, ∀ rest, EndsNumber rest →
      parseMember (parseValue F lim.digits d) (write member ++ rest) = .ok (member, rest) := by
    intro member hmem rest _
    obtain ⟨⟨key, s⟩, -, rfl⟩ := List.mem_map.mp hmem
    exact parseMember_quoteAscii key s rest
  have hbracketed : bracketed (parseMember (parseValue F lim.digits d)) '\x7d'
      (joinTexts (members.map write) ++ ['\x7d']) = .ok (members, []) :=
    bracketed_joinTexts (by decide) (by decide) (by decide) hmember
      (fun member _ => ⟨'"', _, rfl, by decide, by decide⟩) []
  have hinsert : members.foldl insertField [] = members :=
    foldl_insertField (by simpa [members, Function.comp_def] using hkeys)
  rw [loads, asciiObject, htexts, List.cons_append, skipWs_of_head (by decide), hd]
  simp only [parseValue, parseWith, hbracketed, Except.map, hinsert]
  rfl

end Reading

end JetsonVoice.Foundation.JsonText
