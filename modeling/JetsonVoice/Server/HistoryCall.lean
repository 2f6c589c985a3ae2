import JetsonVoice.Foundation.JsonRoundTrip
import JetsonVoice.Foundation.JsonSplice

/-!
# A call of the history as JSON

A call is written into the history with its name between quotes as it is and the
text of its arguments behind the name. That text is an object with this name if and
only if nothing in the name needs an escape, and if the arguments can be read one
container deeper.
-/

namespace JetsonVoice.Server.History

open Foundation JsonText

/-- The text of a call behind the opening quote of its second key. -/
def argumentsTail (args : List Char) : List Char :=
  ['a', 'r', 'g', 'u', 'm', 'e', 'n', 't', 's', '"', ':', ' '] ++ args ++ ['\x7d']

/-- The text of a call between its tags. -/
def callBody (name args : List Char) : List Char :=
  ['\x7b', '"', 'n', 'a', 'm', 'e', '"', ':', ' ', '"'] ++ name ++ nextString (argumentsTail args)

variable {F : Floats} {lim lim' : Limits} {digits d n : Nat} {name args rest : List Char} {v : Json}

section Members

theorem parseMember_name (value : List Char → Parse Json) (rest : List Char) :
    parseMember value (['"', 'n', 'a', 'm', 'e', '"', ':', ' ', '"'] ++ rest) =
      (value ('"' :: rest)).map fun (v, rest) => (("name", v), rest) := rfl

theorem scanString_arguments (args : List Char) :
    scanString (argumentsTail args) =
      some (['a', 'r', 'g', 'u', 'm', 'e', 'n', 't', 's'], ':' :: ' ' :: (args ++ ['\x7d'])) := rfl

theorem skipWs_args (h : loads F lim args = .ok v) (more : List Char) :
    skipWs (args ++ more) = skipWs args ++ more := by
  cases hskip : skipWs args with
  | nil =>
      rw [loads, hskip] at h
      split at h
      · cases h
      · rename_i hvalue
        exact absurd hvalue (parseValue_nil _ _)
  | cons c rest => exact skipWs_append hskip more

theorem parseMember_arguments (h : loads F lim args = .ok v) (value : List Char → Parse Json) :
    parseMember value ('"' :: argumentsTail args) =
      (value (skipWs args ++ ['\x7d'])).map fun (v, rest) => (("arguments", v), rest) := by
  have hskip : skipWs (' ' :: (args ++ ['\x7d'])) = skipWs args ++ ['\x7d'] :=
    skipWs_args h ['\x7d']
  simp only [parseMember, scanString_arguments, skipWs_of_head (show isWs ':' = false by decide),
    hskip]

theorem skipWs_brace (h : skipWs rest = []) : skipWs (rest ++ ['\x7d']) = ['\x7d'] := by
  rw [skipWs] at h ⊢
  rw [List.dropWhile_append, h]
  rfl

theorem separated_arguments (h : loads F lim' args = .ok v) (hobj : v.isObject = true)
    (digits d n : Nat) :
    series (parseMember (parseValue F digits d)) '\x7d' (n + 1) ('"' :: argumentsTail args) =
      (loads F ⟨d, digits⟩ args).map fun v => ([("arguments", v)], []) := by
  have hargs := parseMember_arguments h (parseValue F digits d)
  rcases loads_settled h hobj digits d with ⟨rest, hrest, hok⟩ | hlimit
  · have hnil := hok []
    rw [List.append_nil, List.append_nil] at hnil
    have hsep (more : List Char → Parse (List (String × Json))) :
        separated more '\x7d' (rest ++ ['\x7d']) = .ok ([], []) := by
      simp only [separated, skipWs_brace hrest, if_true]
    rw [hok] at hargs
    simp only [series, hargs, Except.map, hsep, loads, hnil, hrest, if_true]
  · have hnil := hlimit []
    rw [List.append_nil] at hnil
    rw [hlimit] at hargs
    simp only [series, hargs, Except.map, loads, hnil]

/-- Behind the name of a call its text is as the splicing of the name expects it. -/
theorem lastMember_arguments (h : loads F lim' args = .ok v) (hobj : v.isObject = true)
    (digits : Nat) : LastMember F digits (argumentsTail args) "arguments" where
  head c rest hskip := by
    cases hskip
    decide
  items d n r := by
    cases n with
    | zero =>
        intro hitems
        cases hitems
    | succ n =>
        simp only [series, parseValue_eq, parseWith, scanString_arguments, separated,
          skipWs_of_head (show isWs ':' = false by decide)]
        intro hitems
        cases hitems
  fields d n fields r hfields := by
    cases n with
    | zero => cases hfields
    | succ n =>
        rw [separated_arguments h hobj] at hfields
        obtain ⟨v, -, heq⟩ := map_eq_ok.mp hfields
        cases heq
        exact ⟨rfl, by simp⟩

/-- The members of a call: its name, and what stands behind it. -/
theorem bracketed_name (value : List Char → Parse Json) (rest : List Char) :
    ∃ n, bracketed (parseMember value) '\x7d'
      (['"', 'n', 'a', 'm', 'e', '"', ':', ' ', '"'] ++ rest) =
        match value ('"' :: rest) with
        | .error e => .error e
        | .ok (v, rest) => (separated (series (parseMember value) '\x7d' (n + 1)) '\x7d' rest).map
            fun (fields, rest) => (("name", v) :: fields, rest) := by
  refine ⟨rest.length + 7, ?_⟩
  have hname := parseMember_name value rest
  have hlen : (['"', 'n', 'a', 'm', 'e', '"', ':', ' ', '"'] ++ rest).length =
      rest.length + 8 + 1 := by
    simp only [List.length_append, List.length_cons, List.length_nil]
    omega
  rw [bracketed, hlen]
  simp only [List.cons_append, List.nil_append, skipWs_of_head (show isWs '"' = false by decide)]
    at hname ⊢
  rw [if_neg (by decide), series, hname]
  cases value ('"' :: rest) with
  | error e => rfl
  | ok r => rfl

end Members

theorem parseValue_callBody (hdepth : lim.depth = d + 1) :
    loads F lim (callBody name args) =
      match bracketed (parseMember (parseValue F lim.digits d)) '\x7d'
        (['"', 'n', 'a', 'm', 'e', '"', ':', ' ', '"'] ++
          (name ++ nextString (argumentsTail args))) with
      | .error e => .error e
      | .ok (fields, rest) =>
          if skipWs rest = [] then .ok (.obj (fields.foldl insertField []))
          else .error .malformed := by
  have hskip : skipWs (callBody name args) = callBody name args := rfl
  have hbody : callBody name args = '\x7b' ::
      (['"', 'n', 'a', 'm', 'e', '"', ':', ' ', '"'] ++
        (name ++ nextString (argumentsTail args))) := by
    simp only [callBody, List.cons_append, List.nil_append]
  rw [loads, hskip, hdepth, hbody, parseValue]
  simp only [parseWith]
  cases bracketed (parseMember (parseValue F lim.digits d)) '\x7d'
    (['"', 'n', 'a', 'm', 'e', '"', ':', ' ', '"'] ++
      (name ++ nextString (argumentsTail args))) <;> rfl

/-- A name in which nothing needs an escape is read, and the arguments are read in
one container less. -/
theorem loads_callBody (hplain : Plain name) (hargs : loads F lim' args = .ok v)
    (hobj : v.isObject = true) (hdepth : lim.depth = d + 1) :
    loads F lim (callBody name args) = (loads F ⟨d, lim.digits⟩ args).map fun v =>
      .obj [("name", .str (String.ofList name)), ("arguments", v)] := by
  obtain ⟨n, hn⟩ := bracketed_name (parseValue F lim.digits d)
    (name ++ nextString (argumentsTail args))
  have hname : parseValue F lim.digits d ('"' :: (name ++ nextString (argumentsTail args))) =
      .ok (.str (String.ofList name), ',' :: ' ' :: '"' :: argumentsTail args) := by
    rw [parseValue_eq]
    simp only [parseWith, nextString, scanString_plain hplain]
  have hsep : separated (series (parseMember (parseValue F lim.digits d)) '\x7d' (n + 1)) '\x7d'
      (',' :: ' ' :: '"' :: argumentsTail args) =
      (loads F ⟨d, lim.digits⟩ args).map fun v => ([("arguments", v)], []) :=
    separated_arguments hargs hobj lim.digits d n
  rw [parseValue_callBody hdepth, hn, hname]
  simp only [hsep]
  cases loads F ⟨d, lim.digits⟩ args <;> rfl

theorem loads_callBody_zero (hdepth : lim.depth = 0) :
    loads F lim (callBody name args) = .error .limit := by
  have hskip : skipWs (callBody name args) = callBody name args := rfl
  rw [loads, hskip, hdepth]
  rfl

/-- The string that starts with the name: it is the name only if the name is plain. -/
theorem name_crossed {tail : List Char}
    (h : parseValue F digits d ('"' :: (name ++ nextString tail)) = .ok (v, rest)) :
    Crossed tail name rest (v = .str (String.ofList name) → Plain name) := by
  rw [parseValue_eq] at h
  simp only [parseWith] at h
  split at h
  · rename_i s rest' hs
    cases h
    have hne (hlt : s.length < name.length) :
        Json.str (String.ofList s) = .str (String.ofList name) → Plain name := by
      intro heq
      obtain rfl := String.ofList_injective (Json.str.inj heq)
      omega
    rcases scanString_nextString hs with ⟨behind, rfl, hlt⟩ | ⟨rfl, ⟨-, hplain⟩ | hlt⟩ | rfl
    · exact .inr (.inr ⟨.inr ⟨behind, rfl, by omega⟩, hne (by omega)⟩)
    · exact .inr (.inr ⟨.inl rfl, fun _ => hplain⟩)
    · exact .inr (.inr ⟨.inl rfl, hne hlt⟩)
    · exact .inl rfl
  · cases h

/-- No member of a call but the first has its name, whatever the name is made of. -/
theorem plain_of_members {fields : List (String × Json)} (hargs : loads F lim' args = .ok v)
    (hobj : v.isObject = true)
    (h : bracketed (parseMember (parseValue F digits d)) '\x7d'
      (['"', 'n', 'a', 'm', 'e', '"', ':', ' ', '"'] ++ (name ++ nextString (argumentsTail args))) =
        .ok (fields, rest))
    (hname : ("name", .str (String.ofList name)) ∈ fields) : Plain name := by
  have htail := lastMember_arguments hargs hobj digits
  obtain ⟨n, hn⟩ := bracketed_name (parseValue F digits d) (name ++ nextString (argumentsTail args))
  rw [hn] at h
  split at h
  · cases h
  · rename_i v₀ r₀ hvalue
    obtain ⟨⟨fields', rest'⟩, hsep, heq⟩ := map_eq_ok.mp h
    cases heq
    have helem {text : List Char} {field : String × Json} {r : List Char}
        (hlen : text.length ≤ name.length)
        (hfield : parseMember (parseValue F digits d) (text ++ nextString (argumentsTail args)) =
          .ok (field, r)) : Crossed (argumentsTail args) text r
            (field = ("name", .str (String.ofList name)) → Plain name) := by
      refine (parseMember_crossed htail (parseValue_crossed htail) hfield).mono le_rfl ?_
      rintro hshort rfl
      have := hshort _ rfl
      rw [String.length_ofList] at this
      omega
    have hlast {n : Nat} {fields : List (String × Json)} {r : List Char}
        (hseries : series (parseMember (parseValue F digits d)) '\x7d' n
          ('"' :: argumentsTail args) = .ok (fields, r)) :
        r = [] ∧ ∀ field ∈ fields, field = ("name", .str (String.ofList name)) → Plain name := by
      obtain ⟨hr, hkeys⟩ := htail.fields d n fields r hseries
      refine ⟨hr, ?_⟩
      rintro field hfield rfl
      exact absurd (hkeys _ hfield) (by simp)
    obtain ⟨hfirst, -, hmembers⟩ := separated_crossed htail (.inr rfl) hlast
      (fun hlt => series_crossed htail (.inr rfl) helem hlast (Nat.le_of_lt hlt))
      (name_crossed hvalue) hsep
    rcases List.mem_cons.mp hname with heq | hmem
    · exact hfirst (Prod.mk.inj heq).2.symm
    · exact hmembers _ hmem rfl

/-- A call whose text is read with its own name has a name in which nothing needs an escape. -/
theorem plain_of_loads {j : Json} (hargs : loads F lim' args = .ok v) (hobj : v.isObject = true)
    (h : loads F lim (callBody name args) = .ok j)
    (hname : j.str? "name" = some (String.ofList name)) : Plain name := by
  cases hdepth : lim.depth with
  | zero =>
      rw [loads_callBody_zero hdepth] at h
      cases h
  | succ d =>
      rw [parseValue_callBody hdepth] at h
      split at h
      · cases h
      · rename_i fields rest hfields
        split at h
        · cases h
          have hfield : ("name", Json.str (String.ofList name)) ∈ fields.foldl insertField [] := by
            rw [Json.str?] at hname
            split at hname
            · rename_i s hs
              cases hname
              obtain ⟨before, after, hsplit, -⟩ := List.lookup_eq_some_iff.mp hs
              rw [hsplit]
              exact List.mem_append_right before List.mem_cons_self
            · cases hname
          exact plain_of_members hargs hobj hfields
            ((mem_foldl_insertField hfield).resolve_left (by simp))
        · cases h

end JetsonVoice.Server.History
