import JetsonVoice.Foundation.JsonTokens

/-!
# Reading JSON texts

Whether a text that is read at some limits is read at others depends on the text
alone, not on what stands behind it. What is read is written as a text that reads as it.
-/

namespace JetsonVoice.Foundation.JsonText

variable {A : Type} {F : Floats} {digits digits' : Nat} {text rest more : List Char} {a : A}
  {as : List A} {c close : Char} {p q : List Char → Parse A} {v : Json} {d d' m n : Nat}

section White

theorem skipWs_append (h : skipWs text = c :: rest) (more : List Char) :
    skipWs (text ++ more) = c :: (rest ++ more) := by
  rw [skipWs] at h ⊢
  rw [List.dropWhile_append, h]
  rfl

theorem skipWs_of_head (h : isWs c = false) (rest : List Char) :
    skipWs (c :: rest) = c :: rest := by
  rw [skipWs, List.dropWhile_cons, if_neg (by simp [h])]

theorem isWs_of_skipWs (h : skipWs text = c :: rest) : isWs c = false := by
  have hhead := List.head?_dropWhile_not isWs text
  rw [← skipWs, h] at hhead
  simpa using hhead

theorem endsNumber_cons (h : EndsNumber [c]) (rest : List Char) : EndsNumber (c :: rest) := h

/-- More text follows, and a number ends in front of it. -/
def Ends (rest : List Char) : Prop := rest ≠ [] ∧ EndsNumber rest

theorem Ends.append (h : Ends rest) (more : List Char) : EndsNumber (rest ++ more) := by
  obtain ⟨c, rest, rfl⟩ := List.exists_cons_of_ne_nil h.1
  exact h.2

theorem ends_of_skipWs (h : skipWs text = c :: rest) (hc : EndsNumber [c]) : Ends text := by
  cases text with
  | nil => cases h
  | cons c' text =>
      refine ⟨by simp, ?_⟩
      by_cases hws : isWs c' = true
      · simp only [isWs, Bool.or_eq_true, beq_iff_eq] at hws
        rcases hws with ((rfl | rfl) | rfl) | rfl <;>
          exact endsNumber_cons (by decide) text
      · rw [skipWs_of_head (by simpa using hws)] at h
        cases h
        exact hc

end White

/-- A text that was read: `q` reads it the same way, or meets a limit in it, and
what follows does not matter. -/
def Settled (q : List Char → Parse A) (text : List Char) (a : A) (rest : List Char) : Prop :=
  (∀ more, q (text ++ more) = .ok (a, rest ++ more)) ∨ ∀ more, q (text ++ more) = .error .limit

theorem map_eq_ok {ε α β : Type} {x : Except ε α} {f : α → β} {b : β} :
    x.map f = .ok b ↔ ∃ a, x = .ok a ∧ f a = b := by
  cases x <;> simp [Except.map]

/-- Reading a text behind another one and putting the results together. -/
theorem Settled.of_eq {B : Type} {r : List Char → Parse B} {b : B} {text' rest' : List Char}
    (h : Settled q text a rest)
    (hok : ∀ more, q (text ++ more) = .ok (a, rest ++ more) →
      r (text' ++ more) = .ok (b, rest' ++ more))
    (hlimit : ∀ more, q (text ++ more) = .error .limit → r (text' ++ more) = .error .limit) :
    Settled r text' b rest' :=
  h.imp (fun h more => hok more (h more)) fun h more => hlimit more (h more)

section Brackets

theorem separated_settled {p q : List Char → Parse (List A)}
    (hpq : ∀ {text as rest}, p text = .ok (as, rest) → Settled q text as rest)
    (hnil : ∀ r, p [] ≠ .ok r) (h : separated p close text = .ok (as, rest)) :
    Settled (separated q close) text as rest := by
  rw [separated] at h
  cases hskip : skipWs text with
  | nil =>
      rw [hskip] at h
      cases h
  | cons c behind =>
      simp only [hskip] at h
      have hmore (more : List Char) := skipWs_append hskip more
      split at h
      · rename_i hclose
        cases h
        refine .inl fun more => ?_
        simp only [separated, hmore, if_pos hclose]
      · rename_i hclose
        split at h
        · rename_i hcomma
          obtain ⟨d, behind', hbehind⟩ : ∃ d behind', skipWs behind = d :: behind' := by
            refine List.exists_cons_of_ne_nil fun hempty => ?_
            rw [hempty] at h
            exact hnil _ h
          have hsame (more : List Char) : separated q close (text ++ more) =
              q (skipWs behind ++ more) := by
            simp only [separated, hmore, if_neg hclose, if_pos hcomma,
              skipWs_append hbehind more, hbehind, List.cons_append]
          exact (hpq h).of_eq (fun more => (hsame more).trans) fun more => (hsame more).trans
        · cases h

theorem series_nil (hnil : ∀ r, p [] ≠ .ok r) (n : Nat) (r : List A × List Char) :
    series p close n [] ≠ .ok r := by
  cases n with
  | zero => nofun
  | succ n =>
      simp only [series]
      cases helem : p [] with
      | error e => nofun
      | ok r => exact absurd helem (hnil r)

/-- What stands behind an element ends a number. -/
theorem ends_of_separated {p : List Char → Parse (List A)} (hclose : EndsNumber [close])
    (h : separated p close text = .ok (as, rest)) : Ends text := by
  rw [separated] at h
  split at h
  · cases h
  · rename_i c behind hskip
    split at h
    · rename_i hc
      exact ends_of_skipWs hskip (hc ▸ hclose)
    · split at h
      · rename_i hc
        exact ends_of_skipWs hskip (hc ▸ by decide)
      · cases h

theorem series_settled
    (hpq : ∀ {text a rest}, p text = .ok (a, rest) → Ends rest → Settled q text a rest)
    (hnil : ∀ r, p [] ≠ .ok r) (hclose : EndsNumber [close])
    (h : series p close n text = .ok (as, rest)) : Settled (series q close n) text as rest := by
  induction n generalizing text as rest with
  | zero => cases h
  | succ n ih =>
      simp only [series] at h
      split at h
      · cases h
      · rename_i a behind helem
        obtain ⟨⟨as', rest'⟩, hsep, heq⟩ := map_eq_ok.mp h
        cases heq
        rcases hpq helem (ends_of_separated hclose hsep) with hok | hlimit
        · refine (separated_settled ih (series_nil hnil n) hsep).of_eq ?_ ?_
          · intro more hmore
            simp only [series, hok, hmore]
            rfl
          · intro more hmore
            simp only [series, hok, hmore]
            rfl
        · refine .inr fun more => ?_
          simp only [series, hlimit]

/-- More fuel does not change what is read, nor a limit that is met. -/
theorem series_fuel (hnm : n ≤ m) (h : series p close n text ≠ .error .malformed) :
    series p close m text = series p close n text := by
  induction n generalizing text m with
  | zero => exact absurd rfl h
  | succ n ih =>
      obtain ⟨m, rfl⟩ : ∃ k, m = k + 1 := ⟨m - 1, by omega⟩
      simp only [series] at h ⊢
      cases helem : p text with
      | error e => rfl
      | ok r =>
          obtain ⟨a, behind⟩ := r
          simp only [helem] at h ⊢
          congr 1
          simp only [separated] at h ⊢
          split
          · rfl
          · rename_i c rest hskip
            simp only [hskip] at h
            split
            · rfl
            · rename_i hc
              rw [if_neg hc] at h
              split
              · rename_i hcomma
                rw [if_pos hcomma] at h
                refine ih (by omega) fun hmal => h ?_
                rw [hmal]
                rfl
              · rfl

theorem bracketed_settled
    (hpq : ∀ {text a rest}, p text = .ok (a, rest) → Ends rest → Settled q text a rest)
    (hnil : ∀ r, p [] ≠ .ok r) (hclose : EndsNumber [close])
    (h : bracketed p close text = .ok (as, rest)) : Settled (bracketed q close) text as rest := by
  rw [bracketed] at h
  split at h
  · cases h
  · rename_i c behind hskip
    have hmore (more : List Char) := skipWs_append hskip more
    split at h
    · rename_i hc
      cases h
      refine .inl fun more => ?_
      simp only [bracketed, hmore, if_pos hc]
    · rename_i hc
      have hsame (more : List Char)
          (hne : series q close text.length (c :: behind ++ more) ≠ .error .malformed) :
          bracketed q close (text ++ more) = series q close text.length (c :: behind ++ more) := by
        have hlen : text.length ≤ (text ++ more).length := by
          rw [List.length_append]
          omega
        rw [← series_fuel hlen hne]
        simp only [bracketed, hmore, if_neg hc, List.cons_append]
      refine (series_settled hpq hnil hclose h).of_eq ?_ ?_
      · intro more hok
        rw [hsame more (by rw [hok]; nofun), hok]
      · intro more hlimit
        rw [hsame more (by rw [hlimit]; nofun), hlimit]

end Brackets

section Scalars
variable {t : NumberText} {token : List Char}

/-- The text of a word or a number, and its value. -/
inductive ScalarText (F : Floats) (digits : Nat) : List Char → Json → Prop
  | word {w : List Char × Json} (h : w ∈ words F) : ScalarText F digits w.1 w.2
  | float {t : NumberText} (h : t.WellFormed) (hfloat : t.isFloat = true) :
      ScalarText F digits t.text (float (F.read t.text))
  | int {t : NumberText} (h : t.WellFormed) (hfloat : t.isFloat = false)
      (hdigits : t.whole.length ≤ digits) : ScalarText F digits t.text (.int t.toInt)

theorem parseScalar_word {w : List Char × Json} (h : w ∈ words F) (rest : List Char) :
    parseScalar F digits (w.1 ++ rest) = .ok (w.2, rest) := by
  simp only [words, List.mem_cons, List.not_mem_nil, or_false] at h
  rcases h with rfl | rfl | rfl | rfl | rfl | rfl <;> rfl

theorem parseScalar_number (h : t.WellFormed) (hrest : EndsNumber rest) :
    parseScalar F digits (t.text ++ rest) =
      if t.isFloat then .ok (float (F.read t.text), rest)
      else if digits < t.whole.length then .error .limit
      else .ok (.int t.toInt, rest) := by
  rw [parseScalar, scanNumber_text h hrest]

theorem parseScalar_token (h : ScalarText F digits token v) (hrest : EndsNumber rest) :
    parseScalar F digits (token ++ rest) = .ok (v, rest) := by
  cases h with
  | word hw => exact parseScalar_word hw rest
  | float ht hfloat => rw [parseScalar_number ht hrest, if_pos hfloat]
  | int ht hfloat hdigits =>
      rw [parseScalar_number ht hrest, if_neg (by simp [hfloat]), if_neg (by omega)]

/-- A scalar that is read is a word, or a number within the limit of the digits. -/
theorem parseScalar_ok (h : parseScalar F digits text = .ok (v, rest)) :
    ∃ token, text = token ++ rest ∧ ScalarText F digits token v := by
  rw [parseScalar] at h
  split at h
  · rename_i t rest' hscan
    obtain ⟨hwf, rfl⟩ := scanNumber_some hscan
    split at h
    · rename_i hfloat
      cases h
      exact ⟨_, rfl, .float hwf hfloat⟩
    · rename_i hfloat
      split at h
      · cases h
      · rename_i hdigits
        cases h
        exact ⟨_, rfl, .int hwf (by simpa using hfloat) (by omega)⟩
  · split at h
    · rename_i word v' hfind
      cases h
      have hpre : word.isPrefixOf text = true := by simpa using List.find?_some hfind
      obtain ⟨behind, rfl⟩ := List.isPrefixOf_iff_prefix.mp hpre
      rw [List.drop_left]
      exact ⟨_, rfl, .word (List.mem_of_find?_eq_some hfind)⟩
    · cases h

theorem ScalarText.isObject (h : ScalarText F digits token v) : v.isObject = false := by
  cases h with
  | word hw =>
      simp only [words, List.mem_cons, List.not_mem_nil, or_false] at hw
      rcases hw with rfl | rfl | rfl | rfl | rfl | rfl <;> rfl
  | float => rfl
  | int => rfl

theorem ScalarText.ne_str (h : ScalarText F digits token v) (s : String) : v ≠ .str s := by
  intro hv
  cases h with
  | word hw =>
      simp only [words, List.mem_cons, List.not_mem_nil, or_false] at hw
      rcases hw with rfl | rfl | rfl | rfl | rfl | rfl <;> cases hv
  | float => cases hv
  | int => cases hv

/-- A digit, or one of the other characters numbers have. -/
def isNumberChar (c : Char) : Bool := isDigit c || ['-', '+', '.', 'e', 'E'].contains c

theorem NumberText.WellFormed.chars (h : t.WellFormed) : ∀ c ∈ t.text, isNumberChar c = true := by
  have hdigits {ds : List Char} (hds : Digits ds) : ∀ c ∈ ds, isNumberChar c = true :=
    fun c hc => by simp [isNumberChar, hds.2 c hc]
  have hwhole : ∀ c ∈ t.whole, isNumberChar c = true := by
    rcases h.whole with hzero | ⟨hds, -⟩
    · rw [hzero]
      exact List.forall_mem_singleton.mpr rfl
    · exact hdigits hds
  have hfraction : ∀ c ∈ t.fraction, isNumberChar c = true := by
    rcases h.fraction with hnil | ⟨ds, hds, heq⟩
    · simp [hnil]
    · rw [heq, List.forall_mem_cons]
      exact ⟨by decide, hdigits hds⟩
  have hexponent : ∀ c ∈ t.exponent, isNumberChar c = true := by
    rcases h.exponent with hnil | ⟨e, sign, ds, he, hsign, hds, heq⟩
    · simp [hnil]
    · rw [heq, List.cons_append, List.forall_mem_cons, List.forall_mem_append]
      refine ⟨by rcases he with rfl | rfl <;> decide, ?_, hdigits hds⟩
      simp only [List.mem_cons, List.not_mem_nil, or_false] at hsign
      rcases hsign with rfl | rfl | rfl
      · exact List.forall_mem_nil _
      · exact List.forall_mem_singleton.mpr rfl
      · exact List.forall_mem_singleton.mpr rfl
  have hminus : ∀ c ∈ (if t.negative then ['-'] else []), isNumberChar c = true := by
    cases t.negative
    · exact List.forall_mem_nil _
    · exact List.forall_mem_singleton.mpr rfl
  simp only [NumberText.text, List.forall_mem_append]
  exact ⟨⟨⟨hminus, hwhole⟩, hfraction⟩, hexponent⟩

/-- White space, a quote or a bracket. -/
def isPunctuation (c : Char) : Bool := isWs c || ['"', '[', ']', '\x7b', '\x7d'].contains c

theorem isPunctuation_of_isNumberChar (h : isNumberChar c = true) : isPunctuation c = false := by
  by_contra hp
  simp only [Bool.not_eq_false, isPunctuation, isWs, Bool.or_eq_true, beq_iff_eq,
    List.contains_eq_mem, List.mem_cons, List.not_mem_nil, or_false, decide_eq_true_eq] at hp
  rcases hp with (((rfl | rfl) | rfl) | rfl) | rfl | rfl | rfl | rfl | rfl <;>
    exact absurd h (by decide)

/-- The text of a scalar has characters, none of which is white space, a quote or a bracket. -/
theorem ScalarText.chars (h : ScalarText F digits token v) :
    token ≠ [] ∧ ∀ c ∈ token, isPunctuation c = false := by
  have hnumber {t : NumberText} (ht : t.WellFormed) :
      t.text ≠ [] ∧ ∀ c ∈ t.text, isPunctuation c = false := by
    refine ⟨fun hnil => ?_, fun c hc => isPunctuation_of_isNumberChar (ht.chars c hc)⟩
    simp only [NumberText.text, List.append_eq_nil_iff] at hnil
    rcases ht.whole with hzero | ⟨hds, -⟩
    · rw [hzero] at hnil
      cases hnil.1.1.2
    · exact hds.1 hnil.1.1.2
  cases h with
  | word hw =>
      have hword {word : List Char} (hne : word ≠ [])
          (hall : word.all (! isPunctuation ·) = true) :
          word ≠ [] ∧ ∀ c ∈ word, isPunctuation c = false :=
        ⟨hne, fun c hc => by simpa using List.all_eq_true.mp hall c hc⟩
      simp only [words, List.mem_cons, List.not_mem_nil, or_false] at hw
      rcases hw with rfl | rfl | rfl | rfl | rfl | rfl <;> dsimp only <;>
        exact hword (by decide) (by decide)
  | float ht => exact hnumber ht
  | int ht => exact hnumber ht

theorem parseScalar_settled (h : parseScalar F digits' text = .ok (v, rest)) (hends : Ends rest) :
    Settled (parseScalar F digits) text v rest := by
  obtain ⟨token, rfl, htoken⟩ := parseScalar_ok h
  simp only [Settled, List.append_assoc]
  cases htoken with
  | word hw => exact .inl fun more => parseScalar_word hw (rest ++ more)
  | float ht hfloat =>
      refine .inl fun more => ?_
      rw [parseScalar_number ht (hends.append more), if_pos hfloat]
  | @int t ht hfloat hdigits' =>
      have hnot : ¬ t.isFloat = true := by simp [hfloat]
      simp only [parseScalar_number ht (hends.append _), if_neg hnot]
      by_cases hdigits : digits < t.whole.length
      · exact .inr fun more => if_pos hdigits
      · exact .inl fun more => if_neg hdigits

end Scalars

section Values

theorem rawString_append {raw : List Char} (h : rawString text = some (raw, rest))
    (more : List Char) : rawString (text ++ more) = some (raw, rest ++ more) := by
  induction text using rawString.induct generalizing raw with
  | case1 => cases h
  | case2 rest' =>
      cases h
      rfl
  | case3 c rest' ih =>
      rw [rawString] at h
      obtain ⟨⟨raw', rest''⟩, hraw, heq⟩ := Option.map_eq_some_iff.mp h
      cases heq
      rw [List.cons_append, List.cons_append, rawString, ih hraw]
      rfl
  | case4 c rest' hquote hescape ih =>
      have hne : c ≠ '\\' := by
        rintro rfl
        cases rest' with
        | nil => cases h
        | cons d rest'' => exact hescape d rest'' rfl rfl
      rw [rawString_cons hquote hne] at h
      obtain ⟨⟨raw', rest''⟩, hraw, heq⟩ := Option.map_eq_some_iff.mp h
      cases heq
      rw [List.cons_append, rawString_cons hquote hne, ih hraw]
      rfl

theorem scanString_append {s : List Char} (h : scanString text = some (s, rest))
    (more : List Char) : scanString (text ++ more) = some (s, rest ++ more) := by
  obtain ⟨⟨raw, after⟩, hraw, h⟩ := Option.bind_eq_some_iff.mp h
  obtain ⟨units, hunits, h⟩ := Option.bind_eq_some_iff.mp h
  cases h
  simp only [scanString, rawString_append hraw more, bind, Option.bind_some, hunits, pure]

theorem parseMember_settled {p q : List Char → Parse Json} {field : String × Json}
    (hpq : ∀ {text v rest}, p text = .ok (v, rest) → Ends rest → Settled q text v rest)
    (hnil : ∀ r, p [] ≠ .ok r) (h : parseMember p text = .ok (field, rest)) (hends : Ends rest) :
    Settled (parseMember q) text field rest := by
  unfold parseMember at h
  split at h
  · rename_i text
    split at h
    · cases h
    · rename_i key behind hkey
      split at h
      · rename_i value hcolon
        obtain ⟨⟨v, rest'⟩, hvalue, heq⟩ := map_eq_ok.mp h
        cases heq
        obtain ⟨c, value', hc⟩ : ∃ c value', skipWs value = c :: value' := by
          refine List.exists_cons_of_ne_nil fun hempty => ?_
          rw [hempty] at hvalue
          exact hnil _ hvalue
        have hsame (more : List Char) : parseMember q ('"' :: text ++ more) =
            (q (skipWs value ++ more)).map fun r => ((String.ofList key, r.1), r.2) := by
          rw [List.cons_append]
          simp only [parseMember, scanString_append hkey more, skipWs_append hcolon more,
            skipWs_append hc more, hc, List.cons_append]
        refine (hpq hvalue hends).of_eq ?_ ?_
        · intro more hmore
          rw [hsame, hmore]
          rfl
        · intro more hmore
          rw [hsame, hmore]
          rfl
      · cases h
  · cases h

theorem parseMember_nil (p : List Char → Parse Json) (r : (String × Json) × List Char) :
    parseMember p [] ≠ .ok r := by
  rw [parseMember]
  · nofun
  · nofun

theorem parseWith_nil (inner : Option (List Char → Parse Json)) (r : Json × List Char) :
    parseWith F digits inner [] ≠ .ok r := by
  have hscalar : parseWith F digits inner [] = .error .malformed := rfl
  rw [hscalar]
  nofun

/-- A value that is neither a string nor in brackets. -/
theorem parseWith_scalar (inner : Option (List Char → Parse Json)) (hstr : c ≠ '"')
    (hobj : c ≠ '\x7b') (harr : c ≠ '[') (text : List Char) :
    parseWith F digits inner (c :: text) = parseScalar F digits (c :: text) := by
  unfold parseWith
  split
  · rename_i h
    cases h
    exact absurd rfl hstr
  · rename_i h
    cases h
    exact absurd rfl hobj
  · rename_i h
    cases h
    exact absurd rfl harr
  · rfl

/-- What reads the values inside a container. -/
def inside (F : Floats) (digits : Nat) : Nat → Option (List Char → Parse Json)
  | 0 => none
  | d + 1 => some (parseValue F digits d)

theorem parseValue_eq (d : Nat) :
    parseValue F digits d = parseWith F digits (inside F digits d) := by
  cases d <;> rfl

theorem parseValue_nil (d : Nat) (r : Json × List Char) : parseValue F digits d [] ≠ .ok r := by
  rw [parseValue_eq]
  exact parseWith_nil _ r

/-- The text of an object, or of a value in front of more text: whether it is read at
other limits does not depend on what follows. -/
theorem parseValue_settled (h : parseValue F digits' d' text = .ok (v, rest))
    (hends : v.isObject = true ∨ Ends rest) : Settled (parseValue F digits d) text v rest := by
  induction d' using Nat.strongRecOn generalizing d text v rest with
  | ind d' ih =>
      rw [parseValue_eq] at h ⊢
      unfold parseWith at h
      split at h
      · split at h
        · rename_i s rest' hs
          cases h
          refine .inl fun more => ?_
          simp only [List.cons_append, parseWith, scanString_append hs more]
        · cases h
      · rename_i text
        cases d' with
        | zero => cases h
        | succ d' =>
            simp only [inside] at h
            obtain ⟨⟨fields, rest'⟩, hfields, heq⟩ := map_eq_ok.mp h
            cases heq
            cases d with
            | zero => exact .inr fun more => rfl
            | succ d =>
                have hmember {text field rest}
                    (h : parseMember (parseValue F digits' d') text = .ok (field, rest))
                    (hends : Ends rest) :=
                  parseMember_settled (q := parseValue F digits d)
                    (fun h hends => ih d' (by omega) h (.inr hends)) (parseValue_nil d') h hends
                refine (bracketed_settled hmember (parseMember_nil _)
                  (by decide) hfields).of_eq ?_ ?_
                · intro more hmore
                  simp only [List.cons_append, parseWith, inside, hmore]
                  rfl
                · intro more hmore
                  simp only [List.cons_append, parseWith, inside, hmore]
                  rfl
      · rename_i text
        cases d' with
        | zero => cases h
        | succ d' =>
            simp only [inside] at h
            obtain ⟨⟨items, rest'⟩, hitems, heq⟩ := map_eq_ok.mp h
            cases heq
            cases d with
            | zero => exact .inr fun more => rfl
            | succ d =>
                refine (bracketed_settled (q := parseValue F digits d)
                  (fun h hends => ih d' (by omega) h (.inr hends)) (parseValue_nil d')
                  (by decide) hitems).of_eq ?_ ?_
                · intro more hmore
                  simp only [List.cons_append, parseWith, inside, hmore]
                  rfl
                · intro more hmore
                  simp only [List.cons_append, parseWith, inside, hmore]
                  rfl
      · rename_i hstr hobj harr
        have hends' : Ends rest := hends.resolve_left fun hobject => by
          obtain ⟨token, -, htoken⟩ := parseScalar_ok h
          rw [htoken.isObject] at hobject
          cases hobject
        cases text with
        | nil => cases h
        | cons c text =>
            have hstr' : c ≠ '"' := fun hc => hstr text (by rw [hc])
            have hobj' : c ≠ '\x7b' := fun hc => hobj text (by rw [hc])
            have harr' : c ≠ '[' := fun hc => harr text (by rw [hc])
            simp only [Settled, List.cons_append, parseWith_scalar _ hstr' hobj' harr']
            exact parseScalar_settled h hends'

/-- A text that is read as an object at some limits: in front of any text the object is
read from it at other limits, too, unless one of them is met. -/
theorem loads_settled {lim : Limits} (h : loads F lim text = .ok v) (hobj : v.isObject = true)
    (digits d : Nat) :
    (∃ rest, skipWs rest = [] ∧ ∀ more, parseValue F digits d (skipWs text ++ more) =
        .ok (v, rest ++ more)) ∨
      ∀ more, parseValue F digits d (skipWs text ++ more) = .error .limit := by
  rw [loads] at h
  split at h
  · cases h
  · rename_i v' rest hvalue
    split at h
    · rename_i hrest
      cases h
      exact (parseValue_settled hvalue (.inl hobj)).imp_left fun hok => ⟨rest, hrest, hok⟩
    · cases h

/-- The limits do not change what is read. -/
theorem loads_unique {lim lim' : Limits} {v' : Json} (h : loads F lim text = .ok v)
    (hobj : v.isObject = true) (h' : loads F lim' text = .ok v') : v' = v := by
  rcases loads_settled h hobj lim'.digits lim'.depth with ⟨rest, hrest, hok⟩ | hlimit
  · have hread := hok []
    rw [List.append_nil, List.append_nil] at hread
    rw [loads, hread] at h'
    simp only [hrest, if_true] at h'
    cases h'
    rfl
  · have hread := hlimit []
    rw [List.append_nil] at hread
    rw [loads, hread] at h'
    cases h'

end Values

end JetsonVoice.Foundation.JsonText
