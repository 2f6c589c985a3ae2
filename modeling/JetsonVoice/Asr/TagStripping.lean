import Mathlib.Data.Bool.Basic
import Mathlib.Data.List.TakeWhile
import JetsonVoice.Asr.Transcript

/-!
# Stripping the head tag

What the worker strips is described by rules on texts (`HeadTag`): the words
`language` and a known name, the white space after it and the marker if it is
there, or the marker right after `language`. The stripping takes off one tag.

## Implementation notes

The marker is compared without regard to case by `stripLangTag`, and exactly by
`parseAsrText`.
-/

namespace JetsonVoice.Asr

open Foundation

/-- Only the letters are folded. -/
theorem eq_of_asciiLower {c : Char} (h : asciiLower c = '<') : c = '<' := by
  unfold asciiLower at h
  split_ifs at h with hc
  · have hlow : 65 ≤ c.toNat := hc.1
    have hhigh : c.toNat ≤ 90 := hc.2
    have hcases : c.toNat ∈ List.range 91 := List.mem_range.mpr (by omega)
    have hfold : ∀ n ∈ List.range 91, 65 ≤ n → Char.ofNat (n + 32) ≠ '<' := by decide
    exact absurd h (hfold _ hcases hlow)
  · exact h

/-- Two texts that differ in the case of ASCII letters only. -/
def SameLetters (l lit : List Char) : Prop := l.map asciiLower = lit.map asciiLower

theorem SameLetters.refl (l : List Char) : SameLetters l l := rfl

theorem SameLetters.length_eq {l lit : List Char} (h : SameLetters l lit) :
    l.length = lit.length := by
  simpa using congrArg List.length h

/-- The comparison succeeds when the text begins with the letters of the literal. -/
theorem asciiIPrefix_iff {s lit : List Char} :
    asciiIPrefix s lit = true ↔ ∃ l rest, s = l ++ rest ∧ SameLetters l lit := by
  induction lit generalizing s with
  | nil => simp [asciiIPrefix, SameLetters]
  | cons b lit ih =>
      cases s with
      | nil => simp [asciiIPrefix, SameLetters]
      | cons a s =>
          simp only [asciiIPrefix, Bool.and_eq_true, beq_iff_eq, ih]
          constructor
          · rintro ⟨hab, l, rest, rfl, hl⟩
            exact ⟨a :: l, rest, rfl, congrArg₂ List.cons hab hl⟩
          · rintro ⟨l, rest, hs, hl⟩
            cases l with
            | nil => cases hl
            | cons a' l =>
                obtain ⟨rfl, rfl⟩ := List.cons_eq_cons.mp hs
                obtain ⟨hab, hl⟩ := List.cons_eq_cons.mp hl
                exact ⟨hab, l, rest, rfl, hl⟩

theorem asciiIPrefix_append {l lit rest : List Char} (h : SameLetters l lit) :
    asciiIPrefix (l ++ rest) lit = true :=
  asciiIPrefix_iff.mpr ⟨l, rest, rfl, h⟩

theorem knownAsrLanguagePrefixLen_drop (s : List Char) (pos : Nat) :
    knownAsrLanguagePrefixLen s pos = knownAsrLanguagePrefixLen (s.drop pos) 0 :=
  rfl

section LongestName
variable {s : List Char}

/-- A scan for the longest literal that passes a test finds one, if there is any. -/
theorem foldl_longest {test : List Char → Bool} {langs : List String} {best : Nat} :
    let n := langs.foldl (fun best lang =>
      let n := lang.toList.length
      if best < n ∧ test lang.toList then n else best) best
    best ≤ n ∧ (∀ lang ∈ langs, test lang.toList = true → lang.toList.length ≤ n) ∧
      (n = best ∨ ∃ lang ∈ langs, test lang.toList = true ∧ lang.toList.length = n) := by
  induction langs generalizing best with
  | nil => exact ⟨le_rfl, by simp, .inl rfl⟩
  | cons lang langs ih =>
      simp only [List.foldl_cons]
      split_ifs with h
      · obtain ⟨hle, hall, hfound⟩ := @ih lang.toList.length
        refine ⟨h.1.le.trans hle, ?_, .inr ?_⟩
        · simpa using ⟨fun _ => hle, hall⟩
        · rcases hfound with hn | ⟨lang', hmem, hfits, hn⟩
          · exact ⟨lang, List.mem_cons_self, h.2, hn.symm⟩
          · exact ⟨lang', List.mem_cons_of_mem _ hmem, hfits, hn⟩
      · obtain ⟨hle, hall, hfound⟩ := @ih best
        refine ⟨hle, ?_, ?_⟩
        · intro lang' hmem hfits
          rcases List.mem_cons.mp hmem with rfl | hmem
          · exact (not_lt.mp fun hlt => h ⟨hlt, hfits⟩).trans hle
          · exact hall lang' hmem hfits
        · rcases hfound with hn | ⟨lang', hmem, hfits, hn⟩
          · exact .inl hn
          · exact .inr ⟨lang', List.mem_cons_of_mem _ hmem, hfits, hn⟩

/-- No known name is longer than the one found. -/
theorem length_le_knownLen {lang : String} (hmem : lang ∈ kLanguages)
    (h : asciiIPrefix s lang.toList = true) :
    lang.toList.length ≤ knownAsrLanguagePrefixLen s 0 :=
  (@foldl_longest (asciiIEqualsAt s 0) kLanguages 0).2.1 lang hmem
    (by simpa [asciiIEqualsAt] using h)

/-- The text begins with the letters of a known name, the longest that fits. -/
theorem exists_of_knownLen (h : knownAsrLanguagePrefixLen s 0 ≠ 0) :
    ∃ lang ∈ kLanguages, ∃ name rest, s = name ++ rest ∧ SameLetters name lang.toList ∧
      name.length = knownAsrLanguagePrefixLen s 0 := by
  rcases (@foldl_longest (asciiIEqualsAt s 0) kLanguages 0).2.2 with
    hn | ⟨lang, hmem, hfits, hn⟩
  · exact absurd hn h
  · rw [asciiIEqualsAt, List.drop_zero] at hfits
    obtain ⟨name, rest, hs, hname⟩ := asciiIPrefix_iff.mp hfits
    exact ⟨lang, hmem, name, rest, hs, hname, hname.length_eq.trans hn⟩

theorem knownLen_le_length (s : List Char) : knownAsrLanguagePrefixLen s 0 ≤ s.length := by
  by_cases h : knownAsrLanguagePrefixLen s 0 = 0
  · omega
  · obtain ⟨lang, -, name, rest, hs, -, hlen⟩ := exists_of_knownLen h
    rw [← hlen, hs, List.length_append]
    omega

/-- The characters of a name are letters. -/
theorem isLower_of_mem_name {lang : String} (hmem : lang ∈ kLanguages) {name : List Char}
    (h : SameLetters name lang.toList) {c : Char} (hc : c ∈ name) :
    (asciiLower c).isLower = true := by
  have hlangs : (kLanguages.all fun lang => (lang.toList.map asciiLower).all Char.isLower) = true :=
    by decide
  have hlang := List.all_eq_true.mp hlangs lang hmem
  exact List.all_eq_true.mp hlang _ (h ▸ List.mem_map_of_mem hc)

end LongestName

/-- What stands between a known name and the text: white space, and the marker if
it is there. -/
def Gap (gap rest : List Char) : Prop :=
  ∃ space mark, gap = space ++ mark ∧ (∀ c ∈ space, isTagSpace c = true) ∧
    (SameLetters mark kAsrTextTag ∨ mark = [] ∧ asciiIPrefix rest kAsrTextTag = false ∧
      ∀ c ∈ rest.head?, isTagSpace c = false)

/-- `tag` is the head tag of the text `tag ++ rest`. -/
inductive HeadTag : (tag rest : List Char) → Prop
  | marked {word mark rest : List Char} (hword : SameLetters word kTag)
      (hmark : SameLetters mark kAsrTextTag) : HeadTag (word ++ mark) rest
  | named {word name gap rest : List Char} (hword : SameLetters word kTag) (hne : name ≠ [])
      (hname : knownAsrLanguagePrefixLen (name ++ (gap ++ rest)) 0 = name.length)
      (hgap : Gap gap rest) : HeadTag (word ++ (name ++ gap)) rest

/-- The text has a head tag. -/
def Tagged (s : List Char) : Prop := ∃ tag rest, s = tag ++ rest ∧ HeadTag tag rest

theorem HeadTag.ne_nil {tag rest : List Char} (h : HeadTag tag rest) : tag ≠ [] := by
  have hword {word tail : List Char} (hword : SameLetters word kTag) : word ++ tail ≠ [] := by
    intro hnil
    obtain ⟨rfl, -⟩ := List.append_eq_nil_iff.mp hnil
    cases hword
  cases h with
  | marked h => exact hword h
  | named h => exact hword h

section Strip
variable {s word rest : List Char}

theorem isTagSpace_not_lower {c : Char} (h : isTagSpace c = true) :
    (asciiLower c).isLower = false := by
  simp only [isTagSpace, Bool.or_eq_true, beq_iff_eq, or_assoc] at h
  rcases h with rfl | rfl | rfl | rfl <;> decide

theorem mark_cons {mark : List Char} (h : SameLetters mark kAsrTextTag) :
    ∃ tail, mark = '<' :: tail := by
  cases mark with
  | nil => cases h
  | cons c tail =>
      have hc : asciiLower c = '<' := (List.cons_eq_cons.mp h).1
      exact ⟨tail, congrArg (· :: tail) (eq_of_asciiLower hc)⟩

/-- A marker begins with no white space and no letter. -/
theorem mark_head {mark : List Char} (h : SameLetters mark kAsrTextTag) :
    ∃ c tail, mark = c :: tail ∧ isTagSpace c = false ∧ (asciiLower c).isLower = false := by
  obtain ⟨tail, rfl⟩ := mark_cons h
  exact ⟨'<', tail, rfl, by decide, by decide⟩

theorem kTag_def : kTag = "language ".toList := rfl

theorem kAsrTextTag_def : kAsrTextTag = "<asr_text>".toList := rfl

theorem kTag_ne_nil : kTag ≠ [] := by
  decide

/-- What begins with a known name does not begin with the marker. -/
theorem not_marked_of_known (h : knownAsrLanguagePrefixLen s 0 ≠ 0) :
    asciiIPrefix s kAsrTextTag = false := by
  obtain ⟨lang, hmem, name, rest, rfl, hname, hlen⟩ := exists_of_knownLen h
  apply Bool.eq_false_of_not_eq_true
  intro hmark
  obtain ⟨mark, rest', hs, hmark⟩ := asciiIPrefix_iff.mp hmark
  obtain ⟨c, tail, rfl, -, hc⟩ := mark_head hmark
  cases name with
  | nil => exact h hlen.symm
  | cons d name =>
      obtain ⟨rfl, -⟩ := List.cons_eq_cons.mp hs
      rw [isLower_of_mem_name hmem hname List.mem_cons_self] at hc
      cases hc

/-- What the function takes off behind a known name. -/
def afterName (s : List Char) : List Char :=
  let rest := s.dropWhile isTagSpace
  if asciiIEqualsAt rest 0 kAsrTextTag then rest.drop kAsrTextTag.length else rest

/-- The function on a text that begins with `language`. -/
theorem stripLangTagChars_word (h : SameLetters word kTag) :
    stripLangTagChars (word ++ rest) =
      if asciiIPrefix rest kAsrTextTag then rest.drop kAsrTextTag.length
      else if knownAsrLanguagePrefixLen rest 0 = 0 then word ++ rest
      else afterName (rest.drop (knownAsrLanguagePrefixLen rest 0)) := by
  have hlen : ¬ (word ++ rest).length < kTag.length := by
    rw [List.length_append, h.length_eq]
    omega
  have hdrop (n : Nat) : (word ++ rest).drop (kTag.length + n) = rest.drop n := by
    rw [← h.length_eq, List.drop_append]
    simp
  have hzero : (word ++ rest).drop kTag.length = rest := hdrop 0
  have hword : asciiIEqualsAt (word ++ rest) 0 kTag = true := asciiIPrefix_append h
  rw [stripLangTagChars, if_neg hlen, hword, asciiIEqualsAt, hzero, knownAsrLanguagePrefixLen_drop,
    hzero]
  simp only [Bool.not_true, Bool.false_eq_true, if_false, hdrop, afterName]

theorem stripLangTagChars_of_not_word (h : asciiIPrefix s kTag = false) :
    stripLangTagChars s = s := by
  simp [stripLangTagChars, asciiIEqualsAt, h]

/-- Between a known name and what is left there is a gap. -/
theorem afterName_spec (s : List Char) : ∃ gap, s = gap ++ afterName s ∧ Gap gap (afterName s) := by
  have hspace : ∀ c ∈ s.takeWhile isTagSpace, isTagSpace c = true := fun c hc =>
    List.mem_takeWhile_imp hc
  simp only [afterName]
  split_ifs with h
  · obtain ⟨mark, rest, hrest, hmark⟩ := asciiIPrefix_iff.mp h
    rw [List.drop_zero] at hrest
    refine ⟨s.takeWhile isTagSpace ++ mark, ?_, s.takeWhile isTagSpace, mark, rfl, hspace,
      .inl hmark⟩
    rw [hrest, ← hmark.length_eq, List.drop_left, List.append_assoc, ← hrest,
      List.takeWhile_append_dropWhile]
  · refine ⟨s.takeWhile isTagSpace, List.takeWhile_append_dropWhile.symm, _, [],
      (List.append_nil _).symm, hspace, .inr ⟨rfl, by simpa [asciiIEqualsAt] using h, ?_⟩⟩
    intro c hc
    have hhead := List.head?_dropWhile_not isTagSpace s
    rw [Option.mem_def.mp hc] at hhead
    simpa using hhead

theorem afterName_append {gap rest : List Char} (h : Gap gap rest) :
    afterName (gap ++ rest) = rest := by
  obtain ⟨space, mark, rfl, hspace, h⟩ := h
  have hdrop (tail : List Char) (htail : ∀ c ∈ tail.head?, isTagSpace c = false) :
      (space ++ tail).dropWhile isTagSpace = tail := by
    rw [List.dropWhile_append_of_pos hspace]
    cases tail with
    | nil => rfl
    | cons c tail => exact List.dropWhile_cons_of_neg (by simp [htail c rfl])
  rcases h with hmark | ⟨rfl, hnot, hhead⟩
  · obtain ⟨c, tail, rfl, hc, -⟩ := mark_head hmark
    have htail := hdrop (c :: tail ++ rest) (by simpa using hc)
    have hfits : asciiIEqualsAt (c :: tail ++ rest) 0 kAsrTextTag = true :=
      asciiIPrefix_append hmark
    rw [afterName, List.append_assoc, htail, if_pos hfits, ← hmark.length_eq, List.drop_left]
  · have hfits : ¬ asciiIEqualsAt rest 0 kAsrTextTag = true := by
      simpa [asciiIEqualsAt] using hnot
    rw [afterName, List.append_nil, hdrop rest hhead]
    exact if_neg hfits

/-- The function takes off the head tag. -/
theorem stripLangTagChars_of_headTag {tag rest : List Char} (h : HeadTag tag rest) :
    stripLangTagChars (tag ++ rest) = rest := by
  cases h with
  | marked hword hmark =>
      rw [List.append_assoc, stripLangTagChars_word hword, if_pos (asciiIPrefix_append hmark),
        ← hmark.length_eq, List.drop_left]
  | @named word name gap rest hword hne hname hgap =>
      have hpos : knownAsrLanguagePrefixLen (name ++ (gap ++ rest)) 0 ≠ 0 := by
        rw [hname]
        exact fun h => hne (List.eq_nil_of_length_eq_zero h)
      rw [List.append_assoc, List.append_assoc, stripLangTagChars_word hword,
        not_marked_of_known hpos, if_neg hpos, hname, List.drop_left]
      exact afterName_append hgap

/-- A text has a head tag, which the function takes off, or it is left as it is. -/
theorem stripLangTagChars_cases (s : List Char) :
    (¬ Tagged s ∧ stripLangTagChars s = s) ∨
      ∃ tag, s = tag ++ stripLangTagChars s ∧ HeadTag tag (stripLangTagChars s) := by
  by_cases hs : asciiIPrefix s kTag = true
  · obtain ⟨word, rest, rfl, hword⟩ := asciiIPrefix_iff.mp hs
    by_cases hmarked : asciiIPrefix rest kAsrTextTag = true
    · obtain ⟨mark, rest, rfl, hmark⟩ := asciiIPrefix_iff.mp hmarked
      have htag : HeadTag (word ++ mark) rest := .marked hword hmark
      have hstrip := stripLangTagChars_of_headTag htag
      rw [List.append_assoc] at hstrip
      rw [hstrip]
      exact .inr ⟨_, (List.append_assoc ..).symm, htag⟩
    · by_cases hknown : knownAsrLanguagePrefixLen rest 0 = 0
      · have hstrip : stripLangTagChars (word ++ rest) = word ++ rest := by
          rw [stripLangTagChars_word hword, if_neg hmarked, if_pos hknown]
        refine .inl ⟨?_, hstrip⟩
        rintro ⟨tag, rest', heq, htag⟩
        have hsame := stripLangTagChars_of_headTag htag
        rw [← heq, hstrip] at hsame
        have hself : tag ++ rest' = rest' := heq.symm.trans hsame
        exact htag.ne_nil (by simpa using hself)
      · obtain ⟨lang, hmem, name, tail, rfl, -, hlen⟩ := exists_of_knownLen hknown
        obtain ⟨gap, htail, hgap⟩ := afterName_spec tail
        have hne : name ≠ [] := by
          rintro rfl
          exact hknown hlen.symm
        have htag : HeadTag (word ++ (name ++ gap)) (afterName tail) :=
          .named hword hne (by rw [← htail, hlen]) hgap
        have hstrip := stripLangTagChars_of_headTag htag
        rw [List.append_assoc, List.append_assoc, ← htail] at hstrip
        rw [hstrip]
        exact .inr ⟨_, by rw [List.append_assoc, List.append_assoc, ← htail], htag⟩
  · have hstrip := stripLangTagChars_of_not_word (Bool.eq_false_of_not_eq_true hs)
    refine .inl ⟨?_, hstrip⟩
    rintro ⟨tag, rest, rfl, htag⟩
    cases htag with
    | marked hword =>
        rw [List.append_assoc] at hs
        exact hs (asciiIPrefix_append hword)
    | named hword =>
        rw [List.append_assoc] at hs
        exact hs (asciiIPrefix_append hword)

end Strip

section Idempotence
variable {s : List Char}

theorem stripLangTagChars_eq_self_iff : stripLangTagChars s = s ↔ ¬ Tagged s := by
  constructor
  · rintro hself ⟨tag, rest, rfl, htag⟩
    rw [stripLangTagChars_of_headTag htag] at hself
    exact htag.ne_nil (by simpa using hself)
  · intro h
    rcases stripLangTagChars_cases s with ⟨-, hself⟩ | ⟨tag, hs, htag⟩
    · exact hself
    · exact absurd ⟨tag, _, hs, htag⟩ h

/-- A text with two head tags, one behind the other. -/
def TaggedTwice (s : List Char) : Prop :=
  ∃ tag rest, s = tag ++ rest ∧ HeadTag tag rest ∧ Tagged rest

theorem taggedTwice_iff : TaggedTwice s ↔ Tagged (stripLangTagChars s) := by
  constructor
  · rintro ⟨tag, rest, rfl, htag, hrest⟩
    rwa [stripLangTagChars_of_headTag htag]
  · intro h
    rcases stripLangTagChars_cases s with ⟨hnot, hself⟩ | ⟨tag, hs, htag⟩
    · exact absurd (hself ▸ h) hnot
    · exact ⟨tag, _, hs, htag, h⟩

theorem toList_stripLangTag (s : String) :
    (stripLangTag s).toList = stripLangTagChars s.toList :=
  String.toList_ofList

/-- To strip a text again changes nothing if and only if the text does not begin
with two head tags. -/
theorem stripLangTag_idempotent_iff (s : String) :
    stripLangTag (stripLangTag s) = stripLangTag s ↔ ¬ TaggedTwice s.toList := by
  rw [taggedTwice_iff, ← stripLangTagChars_eq_self_iff, ← String.toList_inj, toList_stripLangTag,
    toList_stripLangTag]

theorem second_tag_stripped :
    stripLangTag (stripLangTag "language English language FrenchBonjour") ≠
      stripLangTag "language English language FrenchBonjour" := by
  decide +kernel

end Idempotence

section Paths

/-- The place of the first occurrence of a literal. -/
def find (lit : List Char) : List Char → Option Nat
  | [] => if lit.isEmpty then some 0 else none
  | c :: s => if lit.isPrefixOf (c :: s) then some 0 else (find lit s).map (· + 1)

/-- Strip everything up to the marker, or the head tag if there is no marker. -/
def parseAsrTextChars (raw : List Char) : List Char :=
  match find kAsrTextTag raw with
  | some tagPos => raw.drop (tagPos + kAsrTextTag.length)
  | none => stripLangTagChars raw

def parseAsrText (raw : String) : String := String.ofList (parseAsrTextChars raw.toList)

/-- The output text of a core result. -/
def outputText? (core : Json) : Option String :=
  (firstResponse? core).bind (Json.str? · "output_text")

theorem transcriptFromCore_eq {core : Json} {raw : String} (h : outputText? core = some raw) :
    transcriptFromCore core = stripLangTag raw := by
  obtain ⟨r0, hr0, hraw⟩ := Option.bind_eq_some_iff.mp h
  simp [transcriptFromCore, hr0, hraw]

/-- A known language name, with any case of its letters. -/
def KnownName (name : List Char) : Prop := ∃ lang ∈ kLanguages, SameLetters name lang.toList

variable {w t name tail : List Char}

/-- The marker is found behind a text without its first character. -/
theorem find_mark (hw : '<' ∉ w) : find kAsrTextTag (w ++ (kAsrTextTag ++ t)) = some w.length := by
  induction w with
  | nil => rfl
  | cons c w ih =>
      have hc : ¬ kAsrTextTag.isPrefixOf (c :: (w ++ (kAsrTextTag ++ t))) = true := by
        intro hpre
        obtain ⟨tail, htail⟩ := List.isPrefixOf_iff_prefix.mp hpre
        exact hw ((List.cons_eq_cons.mp htail).1 ▸ List.mem_cons_self)
      rw [List.cons_append, find, if_neg hc, ih fun hmem => hw (List.mem_cons_of_mem _ hmem)]
      rfl

theorem parseAsrTextChars_mark (hw : '<' ∉ w) :
    parseAsrTextChars (kTag ++ (w ++ (kAsrTextTag ++ t))) = t := by
  have hword : '<' ∉ kTag ++ w := by
    rw [List.mem_append]
    rintro (h | h)
    · exact absurd h (by decide)
    · exact hw h
  rw [parseAsrTextChars, ← List.append_assoc, find_mark hword]
  simp only [← List.append_assoc]
  rw [← List.length_append, List.drop_left]

/-- A known name in front of something that is no letter is the longest that fits. -/
theorem knownLen_append (hname : KnownName name)
    (htail : ∀ c ∈ tail.head?, (asciiLower c).isLower = false) :
    knownAsrLanguagePrefixLen (name ++ tail) 0 = name.length := by
  obtain ⟨lang, hmem, hlang⟩ := hname
  have hle : name.length ≤ knownAsrLanguagePrefixLen (name ++ tail) 0 :=
    hlang.length_eq ▸ length_le_knownLen hmem (asciiIPrefix_append hlang)
  refine le_antisymm (not_lt.mp fun hlt => ?_) hle
  obtain ⟨lang', hmem', name', rest, hs, hlang', hlen⟩ :=
    exists_of_knownLen (s := name ++ tail) (by omega)
  obtain ⟨more, rfl, htail'⟩ : ∃ more, name' = name ++ more ∧ tail = more ++ rest := by
    rcases List.append_eq_append_iff.mp hs with ⟨more, hname', htail'⟩ | ⟨less, hname', -⟩
    · exact ⟨more, hname', htail'⟩
    · have hshort := congrArg List.length hname'
      rw [List.length_append] at hshort
      omega
  cases more with
  | nil =>
      rw [List.append_nil] at hlen
      omega
  | cons c more =>
      have hc := isLower_of_mem_name hmem' hlang' (c := c) (by simp)
      rw [htail c (by rw [htail']; rfl)] at hc
      cases hc

theorem KnownName.ne_nil (h : KnownName name) : name ≠ [] := by
  rintro rfl
  obtain ⟨lang, hmem, hlang⟩ := h
  have hlangs : ∀ lang ∈ kLanguages, lang.toList.length ≠ 0 := by decide
  exact hlangs lang hmem hlang.length_eq.symm

/-- A known name, with white space behind it. -/
def KnownWord (w : List Char) : Prop :=
  ∃ name space, w = name ++ space ∧ KnownName name ∧ ∀ c ∈ space, isTagSpace c = true

theorem stripLangTagChars_knownWord (h : KnownWord w) :
    stripLangTagChars (kTag ++ (w ++ (kAsrTextTag ++ t))) = t := by
  obtain ⟨name, space, rfl, hname, hspace⟩ := h
  have hlen : knownAsrLanguagePrefixLen (name ++ ((space ++ kAsrTextTag) ++ t)) 0 =
      name.length := by
    refine knownLen_append hname fun c hc => ?_
    cases space with
    | nil =>
        obtain ⟨d, mark, hmark, -, hd⟩ := mark_head (.refl kAsrTextTag)
        rw [hmark] at hc
        obtain rfl : d = c := by simpa using hc
        exact hd
    | cons d space =>
        obtain rfl : d = c := by simpa using hc
        exact isTagSpace_not_lower (hspace d List.mem_cons_self)
  have htag : HeadTag (kTag ++ (name ++ (space ++ kAsrTextTag))) t :=
    .named (.refl _) hname.ne_nil hlen ⟨space, kAsrTextTag, rfl, hspace, .inl (.refl _)⟩
  simpa using stripLangTagChars_of_headTag htag

/-- With the marker in the text the function finds the transcript behind a known
word only. -/
theorem stripLangTagChars_mark_iff (hw : '<' ∉ w) :
    stripLangTagChars (kTag ++ (w ++ (kAsrTextTag ++ t))) = t ↔ w = [] ∨ KnownWord w := by
  constructor
  · intro h
    rw [stripLangTagChars_word (.refl _)] at h
    split_ifs at h with hmark hknown
    · left
      obtain ⟨mark, rest, hs, hmark⟩ := asciiIPrefix_iff.mp hmark
      obtain ⟨mark, rfl⟩ := mark_cons hmark
      cases w with
      | nil => rfl
      | cons c w =>
          obtain ⟨rfl, -⟩ := List.cons_eq_cons.mp hs
          exact absurd List.mem_cons_self hw
    · have hlen := congrArg List.length h
      rw [List.length_append, List.length_append, List.length_append] at hlen
      have hpos := List.length_pos_iff.mpr kTag_ne_nil
      omega
    · right
      obtain ⟨lang, hmem, name, tail, hs, hlang, hlen⟩ := exists_of_knownLen hknown
      obtain ⟨w', rfl, rfl⟩ : ∃ w', w = name ++ w' ∧ tail = w' ++ (kAsrTextTag ++ t) := by
        rcases List.append_eq_append_iff.mp hs with ⟨more, rfl, hmark⟩ | ⟨w', hw', htail⟩
        · cases more with
          | nil =>
              rw [List.nil_append] at hmark
              exact ⟨[], by rw [List.append_nil, List.append_nil], hmark.symm⟩
          | cons c more =>
              obtain ⟨d, mark, hhead, -, hd⟩ := mark_head (.refl kAsrTextTag)
              rw [hhead] at hmark
              obtain ⟨rfl, -⟩ := List.cons_eq_cons.mp hmark
              rw [isLower_of_mem_name hmem hlang (by simp)] at hd
              cases hd
        · exact ⟨w', hw', htail⟩
      rw [← hlen, hs, List.drop_left] at h
      obtain ⟨gap, hgap, hshape⟩ := afterName_spec (w' ++ (kAsrTextTag ++ t))
      rw [h] at hgap hshape
      obtain rfl : w' ++ kAsrTextTag = gap := by
        rw [← List.append_assoc] at hgap
        exact List.append_cancel_right hgap
      obtain ⟨space, mark, heq, hspace, hmark | ⟨rfl, -⟩⟩ := hshape
      · obtain ⟨rfl, -⟩ := List.append_inj' heq hmark.length_eq.symm
        exact ⟨name, w', rfl, ⟨lang, hmem, hlang⟩, hspace⟩
      · obtain ⟨c, mark, hhead, hc, -⟩ := mark_head (.refl kAsrTextTag)
        have hmem : c ∈ space := by
          rw [← List.append_nil space, ← heq, hhead]
          exact List.mem_append_right _ List.mem_cons_self
        rw [hspace c hmem] at hc
        cases hc
  · rintro (rfl | hw)
    · have htag : HeadTag (kTag ++ kAsrTextTag) t := .marked (.refl _) (.refl _)
      simpa using stripLangTagChars_of_headTag htag
    · exact stripLangTagChars_knownWord hw

/-- What stands behind a name is kept if it begins with neither white space nor
the marker. -/
theorem afterName_eq_self_iff : afterName t = t ↔
    (∀ c ∈ t.head?, isTagSpace c = false) ∧ asciiIPrefix t kAsrTextTag = false := by
  constructor
  · intro h
    obtain ⟨gap, hgap, space, mark, rfl, hspace, hmark⟩ := afterName_spec t
    rw [h] at hgap hmark
    have hnil : space ++ mark = [] := List.self_eq_append_left.mp hgap
    obtain ⟨-, rfl⟩ := List.append_eq_nil_iff.mp hnil
    rcases hmark with hmark | ⟨-, hnot, hhead⟩
    · obtain ⟨tail, htail⟩ := mark_cons hmark
      cases htail
    · exact ⟨hhead, hnot⟩
  · rintro ⟨hhead, hnot⟩
    exact @afterName_append [] t ⟨[], [], rfl, by simp, .inr ⟨rfl, hnot, hhead⟩⟩

theorem length_afterName_le (s : List Char) : (afterName s).length ≤ s.length := by
  obtain ⟨gap, hs, -⟩ := afterName_spec s
  have hlen := congrArg List.length hs
  rw [List.length_append] at hlen
  omega

/-- No known name longer than `n` fits. -/
def LongestFit (s : List Char) (n : Nat) : Prop :=
  ∀ lang ∈ kLanguages, asciiIPrefix s lang.toList = true → lang.toList.length ≤ n

/-- Without the marker the transcript is found behind a known name if the name is
the longest one that fits, and the transcript is not taken for the gap. -/
theorem stripLangTagChars_name_iff (hname : KnownName name) :
    stripLangTagChars (kTag ++ (name ++ t)) = t ↔ LongestFit (name ++ t) name.length ∧
      (∀ c ∈ t.head?, isTagSpace c = false) ∧ asciiIPrefix t kAsrTextTag = false := by
  have hpos := List.length_pos_iff.mpr hname.ne_nil
  obtain ⟨lang, hmem, hlang⟩ := hname
  have hle : name.length ≤ knownAsrLanguagePrefixLen (name ++ t) 0 :=
    hlang.length_eq ▸ length_le_knownLen hmem (asciiIPrefix_append hlang)
  have hknown : knownAsrLanguagePrefixLen (name ++ t) 0 ≠ 0 := by omega
  have hfit : LongestFit (name ++ t) name.length ↔
      knownAsrLanguagePrefixLen (name ++ t) 0 = name.length := by
    constructor
    · intro hfit
      obtain ⟨lang', hmem', name', rest, hs, hlang', hlen⟩ := exists_of_knownLen hknown
      have hshort := hfit lang' hmem' (hs ▸ asciiIPrefix_append hlang')
      exact le_antisymm (hlen ▸ hlang'.length_eq ▸ hshort) hle
    · intro hlen lang' hmem' hfits
      exact hlen ▸ length_le_knownLen hmem' hfits
  rw [stripLangTagChars_word (.refl _), not_marked_of_known hknown, if_neg Bool.false_ne_true,
    if_neg hknown, hfit, ← afterName_eq_self_iff]
  constructor
  · intro h
    have hlen : knownAsrLanguagePrefixLen (name ++ t) 0 = name.length := by
      have hfront := knownLen_le_length (name ++ t)
      have hcut := length_afterName_le
        ((name ++ t).drop (knownAsrLanguagePrefixLen (name ++ t) 0))
      rw [h, List.length_drop, List.length_append] at hcut
      rw [List.length_append] at hfront
      omega
    rw [hlen, List.drop_left] at h
    exact ⟨hlen, h⟩
  · rintro ⟨hlen, h⟩
    rw [hlen, List.drop_left]
    exact h

/-- With the marker in the text, both paths find the transcript if and only if the
word is empty or a known name with white space, and the transcript itself has no
head tag. Without the marker, the transcript is found behind a known name if and
only if no longer name fits and the transcript begins with neither white space
nor the marker. -/
theorem tag_paths_agree_iff :
    (∀ (w t : String) (core : Json), '<' ∉ w.toList →
      outputText? core = some ("language " ++ w ++ "<asr_text>" ++ t) →
      ((transcriptFromCore core = t ∧
          stripLangTag (parseAsrText ("language " ++ w ++ "<asr_text>" ++ t)) = t) ↔
        (w.toList = [] ∨ KnownWord w.toList) ∧ ¬ Tagged t.toList)) ∧
    ∀ w t : String, KnownName w.toList →
      (stripLangTag ("language " ++ w ++ t) = t ↔
        LongestFit (w.toList ++ t.toList) w.toList.length ∧
          (∀ c ∈ t.toList.head?, isTagSpace c = false) ∧
          asciiIPrefix t.toList kAsrTextTag = false) := by
  constructor
  · intro w t core hw hcore
    have hraw : ("language " ++ w ++ "<asr_text>" ++ t).toList =
        kTag ++ (w.toList ++ (kAsrTextTag ++ t.toList)) := by
      rw [String.toList_append, String.toList_append, String.toList_append, ← kTag_def,
        ← kAsrTextTag_def, List.append_assoc, List.append_assoc]
    have hparse : parseAsrText ("language " ++ w ++ "<asr_text>" ++ t) = t := by
      rw [parseAsrText, hraw, parseAsrTextChars_mark hw, String.ofList_toList]
    rw [transcriptFromCore_eq hcore, hparse, ← String.toList_inj, ← String.toList_inj,
      toList_stripLangTag, toList_stripLangTag, hraw, stripLangTagChars_mark_iff hw,
      stripLangTagChars_eq_self_iff]
  · intro w t hw
    have hraw : ("language " ++ w ++ t).toList = kTag ++ (w.toList ++ t.toList) := by
      rw [String.toList_append, String.toList_append, ← kTag_def, List.append_assoc]
    rw [← String.toList_inj, toList_stripLangTag, hraw, stripLangTagChars_name_iff hw]

/-- A core result with one response. -/
def coreOf (raw : String) : Json :=
  .obj [("responses", .arr [.obj [("output_text", .str raw)]])]

theorem tag_paths_agree_iff_english :
    ((transcriptFromCore (coreOf "language English<asr_text>Go home.") = "Go home." ∧
        stripLangTag (parseAsrText ("language " ++ "English" ++ "<asr_text>" ++ "Go home.")) =
          "Go home.") ↔
      ("English".toList = [] ∨ KnownWord "English".toList) ∧ ¬ Tagged "Go home.".toList) ∧
    (stripLangTag ("language " ++ "English" ++ "Go home.") = "Go home." ↔
      LongestFit ("English".toList ++ "Go home.".toList) "English".toList.length ∧
        (∀ c ∈ "Go home.".toList.head?, isTagSpace c = false) ∧
        asciiIPrefix "Go home.".toList kAsrTextTag = false) :=
  ⟨tag_paths_agree_iff.1 "English" "Go home." _ (by decide) (by decide),
    tag_paths_agree_iff.2 "English" "Go home." ⟨"English", by decide, .refl _⟩⟩

/-- An unknown word is kept, and a name that another name begins with is taken for
the other. -/
theorem tag_paths_differ :
    '<' ∉ "Klingon".toList ∧
    outputText? (coreOf "language Klingon<asr_text>hello") =
      some ("language " ++ "Klingon" ++ "<asr_text>" ++ "hello") ∧
    stripLangTag (parseAsrText ("language " ++ "Klingon" ++ "<asr_text>" ++ "hello")) = "hello" ∧
    transcriptFromCore (coreOf "language Klingon<asr_text>hello") ≠ "hello" ∧
    "Malay" ∈ kLanguages ∧
    stripLangTag ("language " ++ "Malay" ++ "alam tidur") ≠ "alam tidur" := by
  decide +kernel

end Paths

end JetsonVoice.Asr
