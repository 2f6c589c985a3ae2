import JetsonVoice.Foundation.JsonReading

/-!
# Writing JSON values and reading them back

What is read is a value of bounded depth whose objects have each key once, and
such a value is written as a text that is read as it.
-/

namespace JetsonVoice.Foundation.JsonText

variable {A : Type} {F : Floats} {lim : Limits} {text rest : List Char} {a : A} {as : List A}
  {close : Char} {p : List Char → Parse A} {v : Json} {d n digits : Nat}

/-- A value of so many nested containers at most, whose integers have few enough
digits, whose other numbers can be read, and whose objects have each key once. -/
inductive Readable (F : Floats) (digits : Nat) : Nat → Json → Prop
  | null {d : Nat} : Readable F digits d .null
  | bool {d : Nat} (b : Bool) : Readable F digits d (.bool b)
  | int {d : Nat} {i : Int} (h : (natText i.natAbs).length ≤ digits) : Readable F digits d (.int i)
  | float {d : Nat} (text : List Char) : Readable F digits d (float (F.read text))
  | str {d : Nat} (s : String) : Readable F digits d (.str s)
  | arr {d : Nat} {items : List Json} (h : ∀ v ∈ items, Readable F digits d v) :
      Readable F digits (d + 1) (.arr items)
  | obj {d : Nat} {fields : List (String × Json)} (hkeys : (fields.map Prod.fst).Nodup)
      (h : ∀ field ∈ fields, Readable F digits d field.2) : Readable F digits (d + 1) (.obj fields)

section Fields
variable {fields acc : List (String × Json)} {field : String × Json}

theorem map_fst_insertField (acc : List (String × Json)) (field : String × Json) :
    (insertField acc field).map Prod.fst =
      if field.1 ∈ acc.map Prod.fst then acc.map Prod.fst else acc.map Prod.fst ++ [field.1] := by
  have hany : (acc.any fun p => p.1 == field.1) = true ↔ field.1 ∈ acc.map Prod.fst := by
    simp only [List.any_eq_true, beq_iff_eq, List.mem_map]
  rw [insertField]
  by_cases hmem : field.1 ∈ acc.map Prod.fst
  · rw [if_pos (hany.mpr hmem), if_pos hmem, List.map_map]
    refine List.map_congr_left fun p _ => ?_
    by_cases hp : p.1 = field.1
    · simp [hp]
    · simp [hp]
  · rw [if_neg (mt hany.mp hmem), if_neg hmem, List.map_append]
    rfl

theorem nodup_foldl_insertField (h : (acc.map Prod.fst).Nodup) :
    ((fields.foldl insertField acc).map Prod.fst).Nodup := by
  induction fields generalizing acc with
  | nil => exact h
  | cons field fields ih =>
      refine ih ?_
      rw [map_fst_insertField]
      split
      · exact h
      · rename_i hmem
        refine List.nodup_append.mpr ⟨h, List.nodup_singleton _, ?_⟩
        rintro a ha b hb rfl
        exact hmem (List.mem_singleton.mp hb ▸ ha)

theorem mem_insertField {p : String × Json} (h : p ∈ insertField acc field) :
    p ∈ acc ∨ p = field := by
  rw [insertField] at h
  split at h
  · obtain ⟨p', hp', rfl⟩ := List.mem_map.mp h
    split
    · exact .inr rfl
    · exact .inl hp'
  · simpa using h

/-- What an object holds was among the members it is made of. -/
theorem mem_foldl_insertField {p : String × Json} (h : p ∈ fields.foldl insertField acc) :
    p ∈ acc ∨ p ∈ fields := by
  induction fields generalizing acc with
  | nil => exact .inl h
  | cons field fields ih =>
      rcases ih h with hacc | hfields
      · rcases mem_insertField hacc with hacc | rfl
        · exact .inl hacc
        · exact .inr List.mem_cons_self
      · exact .inr (List.mem_cons_of_mem _ hfields)

/-- Members with different keys are the fields of the object. -/
theorem foldl_insertField (h : ((acc ++ fields).map Prod.fst).Nodup) :
    fields.foldl insertField acc = acc ++ fields := by
  induction fields generalizing acc with
  | nil => simp
  | cons field fields ih =>
      have hnew : insertField acc field = acc ++ [field] := by
        rw [insertField, if_neg]
        intro hany
        obtain ⟨p, hp, heq⟩ := List.any_eq_true.mp hany
        rw [List.map_append, List.map_cons] at h
        have hdisjoint := (List.nodup_append.mp h).2.2 p.1 (List.mem_map_of_mem hp) field.1
          List.mem_cons_self
        exact hdisjoint (by simpa using heq)
      rw [List.foldl_cons, hnew, ih (by simpa using h), List.append_assoc]
      rfl

end Fields

section Read

/-- Every element of a series was read by itself. -/
theorem mem_series (h : series p close n text = .ok (as, rest)) (ha : a ∈ as) :
    ∃ text rest, p text = .ok (a, rest) := by
  induction n generalizing text as rest with
  | zero => cases h
  | succ n ih =>
      simp only [series] at h
      split at h
      · cases h
      · rename_i a' behind helem
        obtain ⟨⟨as', rest'⟩, hsep, heq⟩ := map_eq_ok.mp h
        cases heq
        rcases List.mem_cons.mp ha with rfl | ha
        · exact ⟨text, behind, helem⟩
        · rw [separated] at hsep
          split at hsep
          · cases hsep
          · split at hsep
            · cases hsep
              cases ha
            · split at hsep
              · exact ih hsep ha
              · cases hsep

theorem mem_bracketed (h : bracketed p close text = .ok (as, rest)) (ha : a ∈ as) :
    ∃ text rest, p text = .ok (a, rest) := by
  rw [bracketed] at h
  split at h
  · cases h
  · split at h
    · cases h
      cases ha
    · exact mem_series h ha

theorem value_of_parseMember {value : List Char → Parse Json} {field : String × Json}
    (h : parseMember value text = .ok (field, rest)) :
    ∃ text rest, value text = .ok (field.2, rest) := by
  unfold parseMember at h
  split at h
  · split at h
    · cases h
    · split at h
      · obtain ⟨⟨v, rest'⟩, hvalue, heq⟩ := map_eq_ok.mp h
        cases heq
        exact ⟨_, _, hvalue⟩
      · cases h
  · cases h

theorem ScalarText.readable {token : List Char} (h : ScalarText F digits token v) :
    Readable F digits d v := by
  cases h with
  | word hw =>
      simp only [words, List.mem_cons, List.not_mem_nil, or_false] at hw
      rcases hw with rfl | rfl | rfl | rfl | rfl | rfl
      · exact .null
      · exact .bool true
      · exact .bool false
      · exact .float _
      · exact .float _
      · exact .float _
  | float => exact .float _
  | @int t ht hfloat hdigits =>
      refine .int ?_
      have habs : t.toInt.natAbs = natOf t.whole := by
        rw [NumberText.toInt]
        cases t.negative <;> simp
      rw [habs, natText_natOf ht.whole]
      exact hdigits

/-- What is read is a value that can be read. -/
theorem readable_of_parseValue (h : parseValue F digits d text = .ok (v, rest)) :
    Readable F digits d v := by
  induction d using Nat.strongRecOn generalizing text v rest with
  | ind d ih =>
      rw [parseValue_eq] at h
      unfold parseWith at h
      split at h
      · split at h
        · cases h
          exact .str _
        · cases h
      · cases d with
        | zero => cases h
        | succ d =>
            obtain ⟨⟨fields, rest'⟩, hfields, heq⟩ := map_eq_ok.mp h
            cases heq
            refine .obj (nodup_foldl_insertField (by simp)) fun field hfield => ?_
            have hmem := (mem_foldl_insertField hfield).resolve_left (by simp)
            obtain ⟨text, rest, hmember⟩ := mem_bracketed hfields hmem
            obtain ⟨text, rest, hvalue⟩ := value_of_parseMember hmember
            exact ih d (by omega) hvalue
      · cases d with
        | zero => cases h
        | succ d =>
            obtain ⟨⟨items, rest'⟩, hitems, heq⟩ := map_eq_ok.mp h
            cases heq
            refine .arr fun v hv => ?_
            obtain ⟨text, rest, hvalue⟩ := mem_bracketed hitems hv
            exact ih d (by omega) hvalue
      · obtain ⟨token, -, htoken⟩ := parseScalar_ok h
        exact htoken.readable

end Read

section Write
variable {write : A → List Char}

theorem dumpsItems_eq (items : List Json) : dumpsItems F items = items.map (dumps F) := by
  induction items with
  | nil => rfl
  | cons item items ih => rw [dumpsItems, ih, List.map_cons]

/-- A member as it is written. -/
def memberText (F : Floats) (field : String × Json) : List Char :=
  quote field.1 ++ [':', ' '] ++ dumps F field.2

theorem dumpsFields_eq (fields : List (String × Json)) :
    dumpsFields F fields = fields.map (memberText F) := by
  induction fields with
  | nil => rfl
  | cons field fields ih =>
      obtain ⟨key, v⟩ := field
      rw [dumpsFields, ih, List.map_cons]
      rfl

/-- The text is not empty, and neither white space nor a closing bracket comes first. -/
def Starts (close : Char) (text : List Char) : Prop :=
  ∃ c rest, text = c :: rest ∧ isWs c = false ∧ c ≠ close

theorem Starts.skipWs (h : Starts close text) (rest : List Char) :
    skipWs (text ++ rest) = text ++ rest := by
  obtain ⟨c, text, rfl, hws, -⟩ := h
  exact skipWs_of_head hws (text ++ rest)

theorem joinTexts_starts {texts : List (List Char)} (h : ∀ text ∈ texts, Starts close text)
    (hne : texts ≠ []) : Starts close (joinTexts texts) := by
  cases texts with
  | nil => exact absurd rfl hne
  | cons text texts =>
      obtain ⟨c, behind, rfl, hc⟩ := h text List.mem_cons_self
      cases texts with
      | nil => exact ⟨c, behind, rfl, hc⟩
      | cons text' texts => exact ⟨c, _, rfl, hc⟩

theorem length_le_joinTexts {texts : List (List Char)} (h : ∀ text ∈ texts, Starts close text) :
    texts.length ≤ (joinTexts texts).length := by
  induction texts with
  | nil => exact Nat.zero_le _
  | cons text texts ih =>
      obtain ⟨c, behind, rfl, -⟩ := h text List.mem_cons_self
      have hrest := ih fun t ht => h t (List.mem_cons_of_mem _ ht)
      cases texts with
      | nil => simp [joinTexts]
      | cons text' texts =>
          simp only [joinTexts, List.length_append, List.length_cons, List.length_nil] at hrest ⊢
          omega

/-- Elements written with commas between them are read as a series. -/
theorem series_joinTexts (hclose : EndsNumber [close]) (hws : isWs close = false)
    (hcomma : ',' ≠ close)
    (hread : ∀ a ∈ as, ∀ rest, EndsNumber rest → p (write a ++ rest) = .ok (a, rest))
    (hstarts : ∀ a ∈ as, Starts close (write a)) (hne : as ≠ []) (hn : as.length ≤ n)
    (rest : List Char) :
    series p close n (joinTexts (as.map write) ++ close :: rest) = .ok (as, rest) := by
  induction as generalizing n with
  | nil => exact absurd rfl hne
  | cons a as ih =>
      obtain ⟨n, rfl⟩ : ∃ k, n = k + 1 := ⟨n - 1, by rw [List.length_cons] at hn; omega⟩
      have hsame := hread a List.mem_cons_self
      cases as with
      | nil =>
          have hsep : separated (series p close n) close (close :: rest) = .ok ([], rest) := by
            simp only [separated, skipWs_of_head hws, if_true]
          simp only [List.map_cons, List.map_nil, joinTexts, series,
            hsame (close :: rest) (endsNumber_cons hclose rest), hsep]
          rfl
      | cons b as =>
          have hrest := ih (n := n) (fun a ha => hread a (List.mem_cons_of_mem _ ha))
            (fun a ha => hstarts a (List.mem_cons_of_mem _ ha)) (by simp)
            (by simpa using hn)
          have htexts : ∀ text ∈ (b :: as).map write, Starts close text := by
            rintro text htext
            obtain ⟨a, ha, rfl⟩ := List.mem_map.mp htext
            exact hstarts a (List.mem_cons_of_mem _ ha)
          have hskip := (joinTexts_starts htexts (by simp)).skipWs (close :: rest)
          have hblank (text : List Char) : skipWs (' ' :: text) = skipWs text := rfl
          have hsep : separated (series p close n) close
              (',' :: ' ' :: (joinTexts ((b :: as).map write) ++ close :: rest)) =
              .ok (b :: as, rest) := by
            simp only [separated, skipWs_of_head (show isWs ',' = false by decide), if_neg hcomma,
              if_true, hblank, hskip, hrest]
          simp only [List.map_cons, joinTexts, List.append_assoc, List.cons_append,
            List.nil_append, series] at hsep ⊢
          rw [hsame _ (endsNumber_cons (by decide) _)]
          simp only [hsep]
          rfl

theorem bracketed_joinTexts (hclose : EndsNumber [close]) (hws : isWs close = false)
    (hcomma : ',' ≠ close)
    (hread : ∀ a ∈ as, ∀ rest, EndsNumber rest → p (write a ++ rest) = .ok (a, rest))
    (hstarts : ∀ a ∈ as, Starts close (write a)) (rest : List Char) :
    bracketed p close (joinTexts (as.map write) ++ close :: rest) = .ok (as, rest) := by
  by_cases hne : as = []
  · subst hne
    simp only [List.map_nil, joinTexts, List.nil_append, bracketed, skipWs_of_head hws, if_true]
  · have htexts : ∀ text ∈ as.map write, Starts close text := by
      rintro text htext
      obtain ⟨a, ha, rfl⟩ := List.mem_map.mp htext
      exact hstarts a ha
    obtain ⟨c, behind, htext, hc, hother⟩ := joinTexts_starts htexts (by simpa using hne)
    have hlen : as.length ≤ (joinTexts (as.map write) ++ close :: rest).length := by
      have := length_le_joinTexts htexts
      rw [List.length_map] at this
      rw [List.length_append]
      omega
    have hseries := series_joinTexts hclose hws hcomma hread hstarts hne hlen rest
    rw [htext] at hseries ⊢
    simp only [bracketed, List.cons_append, skipWs_of_head hc, if_neg hother]
    exact hseries

theorem parseMember_memberText {value : List Char → Parse Json} {field : String × Json}
    (hvalue : value (dumps F field.2 ++ rest) = .ok (field.2, rest))
    (hstarts : Starts ']' (dumps F field.2)) :
    parseMember value (memberText F field ++ rest) = .ok (field, rest) := by
  have hblank : skipWs (' ' :: (dumps F field.2 ++ rest)) = dumps F field.2 ++ rest :=
    hstarts.skipWs rest
  have hkey := scanString_escaped field.1.toList (':' :: ' ' :: (dumps F field.2 ++ rest))
  simp only [memberText, quote, List.cons_append, List.append_assoc, List.nil_append, parseMember,
    hkey, skipWs_of_head (show isWs ':' = false by decide), hblank, hvalue, String.ofList_toList]
  rfl

end Write

section RoundTrip

theorem ScalarText.starts {token : List Char} (h : ScalarText F digits token v) :
    ∃ c behind, token = c :: behind ∧ isPunctuation c = false := by
  obtain ⟨c, behind, rfl⟩ := List.exists_cons_of_ne_nil h.chars.1
  exact ⟨c, behind, rfl, h.chars.2 c List.mem_cons_self⟩

theorem intText_scalarText {i : Int} (h : (natText i.natAbs).length ≤ digits) :
    ScalarText F digits (intText i) (.int i) := by
  have hwhole := wholeNumber_natText i.natAbs
  have htext : NumberText.text ⟨decide (i < 0), natText i.natAbs, [], []⟩ = intText i := by
    rw [NumberText.text, intText]
    by_cases hi : i < 0 <;> simp [hi]
  have hint : NumberText.toInt ⟨decide (i < 0), natText i.natAbs, [], []⟩ = i := by
    simp only [NumberText.toInt, natOf_natText]
    by_cases hi : i < 0
    · simp only [hi, decide_true, if_true]
      omega
    · simp only [hi, decide_false, Bool.false_eq_true, if_false]
      omega
  have hscalar := ScalarText.int (F := F) (t := ⟨decide (i < 0), natText i.natAbs, [], []⟩)
    ⟨hwhole, .inl rfl, .inl rfl⟩ rfl h
  rwa [htext, hint] at hscalar

theorem write_scalarText (text : List Char) :
    ScalarText F digits (F.write (F.read text)) (float (F.read text)) := by
  have hback := F.read_write text
  rcases F.write_read text with hword | hnumber
  · have hmem : (F.write (F.read text), float (F.read (F.write (F.read text)))) ∈ words F := by
      simp only [List.mem_cons, List.not_mem_nil, or_false] at hword
      rcases hword with h | h | h <;> simp [words, h]
    rw [hback] at hmem
    exact .word hmem
  · obtain ⟨t, hscan, hfloat⟩ := hnumber [] trivial
    obtain ⟨hwf, htext⟩ := scanNumber_some hscan
    rw [List.append_nil, List.append_nil] at htext
    have hscalar : ScalarText F digits t.text (float (F.read t.text)) := .float hwf hfloat
    rwa [← htext, hback] at hscalar

/-- What a value is written as does not start with white space or a closing bracket. -/
theorem Readable.starts (h : Readable F digits d v) : Starts ']' (dumps F v) := by
  have hscalar {token : List Char} {v : Json} (h : ScalarText F digits token v) :
      Starts ']' token := by
    obtain ⟨c, behind, rfl, hc⟩ := h.starts
    simp only [isPunctuation, Bool.or_eq_false_iff] at hc
    refine ⟨c, behind, rfl, hc.1, ?_⟩
    rintro rfl
    exact absurd hc.2 (by decide)
  cases h with
  | null => exact ⟨'n', _, rfl, by decide, by decide⟩
  | bool b =>
      cases b with
      | true => exact ⟨'t', _, rfl, by decide, by decide⟩
      | false => exact ⟨'f', _, rfl, by decide, by decide⟩
  | int hdigits => exact hscalar (intText_scalarText (F := F) hdigits)
  | float text => exact hscalar (write_scalarText text)
  | str s => exact ⟨'"', _, rfl, by decide, by decide⟩
  | arr => exact ⟨'[', _, rfl, by decide, by decide⟩
  | obj => exact ⟨'\x7b', _, rfl, by decide, by decide⟩

theorem parseValue_token {token : List Char} (h : ScalarText F digits token v)
    (hrest : EndsNumber rest) : parseValue F digits d (token ++ rest) = .ok (v, rest) := by
  have hread := parseScalar_token h hrest
  obtain ⟨c, behind, rfl, hc⟩ := h.starts
  have hne {c' : Char} (hc' : isPunctuation c' = true) : c ≠ c' := by
    rintro rfl
    rw [hc] at hc'
    cases hc'
  rw [List.cons_append] at hread ⊢
  rw [parseValue_eq, parseWith_scalar _ (hne (by decide)) (hne (by decide)) (hne (by decide)),
    hread]

/-- A value that can be read is written as a text that is read as it. -/
theorem parseValue_dumps (h : Readable F digits d v) (hrest : EndsNumber rest) :
    parseValue F digits d (dumps F v ++ rest) = .ok (v, rest) := by
  induction h generalizing rest with
  | null => exact parseValue_token (.word (w := (nullWord, .null)) (by simp [words])) hrest
  | bool b =>
      cases b with
      | true =>
          exact parseValue_token (.word (w := (trueWord, .bool true)) (by simp [words])) hrest
      | false =>
          exact parseValue_token (.word (w := (falseWord, .bool false)) (by simp [words])) hrest
  | int hdigits => exact parseValue_token (intText_scalarText hdigits) hrest
  | float text => exact parseValue_token (write_scalarText text) hrest
  | str s =>
      have hs := scanString_escaped s.toList rest
      simp only [parseValue_eq, dumps, quote, List.cons_append, List.append_assoc, List.nil_append,
        parseWith, hs, String.ofList_toList]
  | @arr d items h ih =>
      have hitems : bracketed (parseValue F digits d) ']'
          (joinTexts (items.map (dumps F)) ++ ']' :: rest) = .ok (items, rest) :=
        bracketed_joinTexts (by decide) (by decide) (by decide)
          (fun v hv rest hrest => ih v hv hrest) (fun v hv => (h v hv).starts) rest
      simp only [dumps, dumpsItems_eq, List.cons_append, List.append_assoc, List.nil_append,
        parseValue, parseWith, hitems]
      rfl
  | @obj d fields hkeys h ih =>
      have hfields : bracketed (parseMember (parseValue F digits d)) '\x7d'
          (joinTexts (fields.map (memberText F)) ++ '\x7d' :: rest) = .ok (fields, rest) :=
        bracketed_joinTexts (by decide) (by decide) (by decide)
          (fun field hfield rest hrest =>
            parseMember_memberText (ih field hfield hrest) (h field hfield).starts)
          (fun field hfield => ⟨'"', _, rfl, by decide, by decide⟩) rest
      have hinsert : fields.foldl insertField [] = fields := foldl_insertField hkeys
      simp only [dumps, dumpsFields_eq, List.cons_append, List.append_assoc, List.nil_append,
        parseValue, parseWith, hfields, Except.map, hinsert]

theorem Readable.succ (h : Readable F digits d v) : Readable F digits (d + 1) v := by
  induction h with
  | null => exact .null
  | bool b => exact .bool b
  | int hdigits => exact .int hdigits
  | float text => exact .float text
  | str s => exact .str s
  | arr _ ih => exact .arr ih
  | obj hkeys _ ih => exact .obj hkeys ih

theorem readable_of_loads (h : loads F lim text = .ok v) : Readable F lim.digits lim.depth v := by
  rw [loads] at h
  split at h
  · cases h
  · rename_i v' rest hvalue
    split at h
    · cases h
      exact readable_of_parseValue hvalue
    · cases h

theorem loads_dumps (h : Readable F lim.digits lim.depth v) : loads F lim (dumps F v) = .ok v := by
  have hback : parseValue F lim.digits lim.depth (dumps F v ++ []) = .ok (v, []) :=
    parseValue_dumps h trivial
  have hskip := h.starts.skipWs []
  rw [List.append_nil] at hback hskip
  rw [loads, hskip, hback]
  rfl

end RoundTrip

end JetsonVoice.Foundation.JsonText
