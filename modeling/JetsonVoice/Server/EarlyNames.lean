import JetsonVoice.Server.PythonJson
import JetsonVoice.Server.ToolCallChunks

/-!
# Early names and the calls of the whole text

While a response streams, the parser sends the names of the calls it sees; at the
end the calls are extracted from the whole text. A name sent early is the name of
the call extracted under its index when name keys stand where calls stand.
-/

namespace JetsonVoice.Server

open Foundation Scanner ToolCallStreamParser

/-- The name of the call a block holds, if it holds one. -/
def blockName? (py : Python) (body : List Char) : Option String :=
  (py.tryLoads (strip body)).bind fun obj => (toolCallFromJsonObj py obj 0).map ToolCall.name

/-- The first name key of a text introduces a literal that spells the name. -/
def NamesItself (py : Python) (body : List Char) (name : String) : Prop :=
  ∃ before after chars rest, searchName body = some (before, after) ∧
    scanName after = (chars, some rest) ∧ unescapeName py chars = name.toList

/-- Name keys occur only in blocks that hold a call, and the first one in such a
block introduces the name of the call. -/
inductive KeysInCalls (py : Python) : List Char → Prop
  | prose {text : List Char} (hblock : firstBlock text = none) (hkeys : searchName text = none) :
      KeysInCalls py text
  | call {text before body after : List Char} {name : String}
      (hblock : firstBlock text = some (before, body, after)) (hprose : searchName before = none)
      (hcall : blockName? py body = some name) (hname : NamesItself py body name)
      (hafter : KeysInCalls py after) : KeysInCalls py text
  | malformed {text before body after : List Char}
      (hblock : firstBlock text = some (before, body, after)) (hprose : searchName before = none)
      (hcall : blockName? py body = none) (hkeys : searchName body = none)
      (hafter : KeysInCalls py after) : KeysInCalls py text

/-- The text is one bare call, and its first key is its name. -/
structure BareCall (py : Python) (text : List Char) (name : String) : Prop where
  block : firstBlock text = none
  braced : isBraced (strip text) = true
  call : blockName? py text = some name
  first : posBare text = some (text.takeWhile isSpace)
  names : NamesItself py text name

/-- A text in front of which nothing changes what is searched for behind it. -/
def Keyless (front : List Char) : Prop :=
  ∀ text, (searchName (front ++ text)).map Prod.snd = (searchName text).map Prod.snd

variable {py : Python} {text front before body after : List Char}

section Search

theorem Keyless.append {front' : List Char} (h : Keyless front) (h' : Keyless front') :
    Keyless (front ++ front') := fun text => by
  rw [List.append_assoc, h, h']

theorem searchName_cons_of_ne {c : Char} (hc : c ≠ '"') (text : List Char) :
    (searchName (c :: text)).map Prod.snd = (searchName text).map Prod.snd := by
  have hnone : nameKeyAt (c :: text) = none := by
    by_contra hsome
    obtain ⟨after, hat⟩ := Option.ne_none_iff_exists'.mp hsome
    obtain ⟨key, ⟨w, w', -, -, rfl⟩, heq⟩ := nameKeyAt_eq_some_iff.mp hat
    exact hc (List.cons.inj heq).1
  rw [searchName, hnone, Option.map_map]
  rfl

theorem keyless_of_notMem (h : '"' ∉ front) : Keyless front := by
  intro text
  induction front with
  | nil => rfl
  | cons c front ih =>
      simp only [List.mem_cons, not_or] at h
      rw [List.cons_append, searchName_cons_of_ne (Ne.symm h.1), ih h.2]

/-- No key reaches across a tag. -/
theorem keyless_of_tag {tag : List Char} (h : searchName front = none) (htag : '"' ∉ tag) :
    Keyless (front ++ '<' :: tag) := by
  intro text
  induction front with
  | nil =>
      have hno : '"' ∉ '<' :: tag := by simpa using htag
      exact keyless_of_notMem hno text
  | cons c front ih =>
      simp only [searchName] at h
      split at h
      · cases h
      · rename_i hhere
        have hnone : nameKeyAt (c :: (front ++ '<' :: tag ++ text)) = none := by
          by_contra hsome
          obtain ⟨after, hat⟩ := Option.ne_none_iff_exists'.mp hsome
          obtain ⟨key, hkey, heq⟩ := nameKeyAt_eq_some_iff.mp hat
          have hsplit : (c :: front) ++ '<' :: (tag ++ text) = key ++ after := by
            rw [← heq]
            simp
          obtain ⟨rest, hrest⟩ := prefix_of_notMem hsplit hkey.notMem
          rw [nameKeyAt_eq_some_iff.mpr ⟨key, hkey, hrest.symm⟩] at hhere
          cases hhere
        have hsearch := ih (Option.map_eq_none_iff.mp h)
        rw [List.cons_append, List.cons_append, searchName, hnone, Option.map_map]
        exact hsearch

theorem searchName_suffix (h : searchName (front ++ text) = none) : searchName text = none := by
  by_contra hsome
  obtain ⟨⟨before, after⟩, hsearch⟩ := Option.ne_none_iff_exists'.mp hsome
  obtain ⟨key, hkey, rfl⟩ := searchName_some hsearch
  have hfound : (searchName ((front ++ before) ++ (key ++ after))).isSome = true :=
    searchName_isSome hkey
  rw [List.append_assoc, h] at hfound
  cases hfound

end Search

section Blocks

/-- The text up to a first occurrence has its first occurrence there, too. -/
theorem breakOn_cut {lit : List Char} (hlit : lit ≠ [])
    (h : breakOn lit text = some (before, after)) :
    breakOn lit (before ++ lit) = some (before, []) := by
  have hsome := breakOn_isSome hlit before []
  rw [List.append_nil] at hsome
  obtain ⟨⟨before', after'⟩, hcut⟩ := Option.isSome_iff_exists.mp hsome
  have hwhole := breakOn_append hlit hcut after
  rw [List.append_assoc, ← eq_of_breakOn h, h] at hwhole
  obtain ⟨rfl, hafter⟩ := Prod.mk.inj (Option.some.inj hwhole)
  rw [hcut, List.self_eq_append_left.mp hafter]

theorem breakOn_of_append {lit before' : List Char}
    (h : breakOn lit (front ++ text) = some (front ++ before', after)) :
    breakOn lit text = some (before', after) := by
  induction front with
  | nil => exact h
  | cons c front ih =>
      rw [List.cons_append, breakOn] at h
      split at h
      · cases h
      · obtain ⟨⟨before₁, after₁⟩, hbreak, heq⟩ := Option.map_eq_some_iff.mp h
        simp only [List.cons_append, Prod.mk.injEq, List.cons.injEq, true_and] at heq
        obtain ⟨rfl, rfl⟩ := heq
        exact ih hbreak

theorem firstBlock_some (h : firstBlock text = some (before, body, after)) :
    breakOn toolCallOpen text = some (before, body ++ (toolCallClose ++ after)) ∧
      breakOn toolCallClose (body ++ (toolCallClose ++ after)) = some (body, after) := by
  obtain ⟨⟨before', inner⟩, hopen, h⟩ := Option.bind_eq_some_iff.mp h
  obtain ⟨⟨body', after'⟩, hclose, heq⟩ := Option.map_eq_some_iff.mp h
  cases heq
  rw [← eq_of_breakOn hclose]
  exact ⟨hopen, hclose⟩

theorem keyless_open (h : searchName front = none) : Keyless (front ++ toolCallOpen) :=
  keyless_of_tag h (by decide)

theorem keyless_close (h : searchName front = none) : Keyless (front ++ toolCallClose) :=
  keyless_of_tag h (by decide)

theorem Keyless.searchName_eq_none (h : Keyless front) : searchName front = none := by
  have hnil := h []
  rw [List.append_nil] at hnil
  exact Option.map_eq_none_iff.mp (hnil.trans rfl)

/-- Behind prose without keys the tag of the first block opens a call. -/
theorem openCall_of_firstBlock (h : firstBlock text = some (before, body, after))
    (hprose : searchName before = none) :
    openCall text = some (true, body ++ (toolCallClose ++ after)) := by
  obtain ⟨hopen, -⟩ := firstBlock_some h
  have htext : text = (before ++ toolCallOpen) ++ (body ++ (toolCallClose ++ after)) := by
    rw [eq_of_breakOn hopen, List.append_assoc]
  have hnone : posBare (before ++ toolCallOpen) = none := by
    rw [posBare, (keyless_open hprose).searchName_eq_none]
    rfl
  rw [openCall, hopen]
  cases hbare : posBare text with
  | none => rfl
  | some outside =>
      rw [htext] at hbare
      simp only [if_pos (tag_before_bare (breakOn_cut toolCallOpen_ne_nil hopen) hnone hbare)]

theorem scanName_suffix {chars rest : List Char} (h : scanName text = (chars, some rest)) :
    ∃ literal, text = literal ++ rest := by
  induction text using scanName.induct generalizing chars with
  | case1 => cases h
  | case2 rest' =>
      rw [scanName] at h
      cases h
      exact ⟨['"'], rfl⟩
  | case3 c rest' ih =>
      rw [scanName] at h
      obtain ⟨literal, rfl⟩ := ih (Prod.ext rfl (Prod.mk.inj h).2)
      exact ⟨'\\' :: c :: literal, rfl⟩
  | case4 c rest' hquote hescape ih =>
      rw [scanName] at h
      · obtain ⟨literal, rfl⟩ := ih (Prod.ext rfl (Prod.mk.inj h).2)
        exact ⟨c :: literal, rfl⟩
      · exact hquote
      · exact hescape

end Blocks

section Scan
variable {p : ToolCallStreamParser} {name : String}

theorem nameDelta_of_ne {idx : Int} {chars : List Char} (h : unescapeName py chars = name.toList)
    (hne : name ≠ "") : nameDelta py idx chars = [(idx, name.toList)] := by
  have hnil : name.toList ≠ [] := by simpa using hne
  simp only [nameDelta, h, if_neg hnil]

/-- In front of a key that introduces its own name the parser puts the name out
and goes on behind the literal. -/
theorem name_round {idx : Int} {xml : Bool} {ps : List NameDelta} {q : ToolCallStreamParser}
    {after chars rest more : List Char}
    (hsearch : (searchName p.buf).map Prod.snd = some (after ++ more))
    (hscan : scanName after = (chars, some rest)) (hname : unescapeName py chars = name.toList)
    (hne : name ≠ "") (hp : p = ⟨.inToolBody, p.buf, idx, [], xml⟩)
    (hq : (scanner py).Scans ⟨.nameEmitted, rest ++ more, idx, chars, xml⟩ ps q) :
    (scanner py).Scans p ((idx, name.toList) :: ps) q := by
  obtain ⟨⟨before, after'⟩, hfound, hafter⟩ := Option.map_eq_some_iff.mp hsearch
  have hbody : p.advance py = some ([], ⟨.inNameString, after ++ more, idx, [], xml⟩) := by
    rw [p.advance_body (by rw [hp]), hfound, Option.map_some, hp]
    simp only [← hafter]
  have hstring : (⟨.inNameString, after ++ more, idx, [], xml⟩ : ToolCallStreamParser).advance py =
      some ([(idx, name.toList)], ⟨.nameEmitted, rest ++ more, idx, chars, xml⟩) := by
    rw [advance_name _ rfl]
    simp only [scanName_append hscan, Option.map_some, List.nil_append,
      nameDelta_of_ne hname hne]
  exact .silent hbody (.emit hstring hq)

/-- The parser has `k` calls behind it and the rest of a text before it: outside a
block, or in a malformed one, whose end it does not see. -/
inductive Ready (k : Nat) (text : List Char) : ToolCallStreamParser → Prop
  | outside (chars : List Char) (xml : Bool) : Ready k text ⟨.text, text, k - 1, chars, xml⟩
  | inside {front : List Char} (h : Keyless front) :
      Ready k text ⟨.inToolBody, front ++ text, k, [], true⟩

/-- In front of a block the parser enters it, or is in one already. -/
theorem Ready.enter {k : Nat} (h : Ready k text p)
    (hblock : firstBlock text = some (before, body, after)) (hprose : searchName before = none) :
    ∃ front, Keyless front ∧ ∀ {os q},
      (scanner py).Scans
        ⟨.inToolBody, front ++ (body ++ (toolCallClose ++ after)), k, [], true⟩ os q →
      (scanner py).Scans p os q := by
  cases h with
  | outside chars xml =>
      refine ⟨[], fun _ => rfl, fun {os q} hscan => ?_⟩
      have hadv : (⟨.text, text, k - 1, chars, xml⟩ : ToolCallStreamParser).advance py =
          some ([], ⟨.inToolBody, body ++ (toolCallClose ++ after), k, [], true⟩) := by
        rw [advance_text _ rfl, openCall_of_firstBlock hblock hprose]
        simp
      exact .silent hadv hscan
  | @inside front hfront =>
      refine ⟨front ++ (before ++ toolCallOpen), hfront.append (keyless_open hprose),
        fun {os q} hscan => ?_⟩
      rw [eq_of_firstBlock hblock]
      simpa [List.append_assoc] using hscan

/-- Without a key in front of it the parser puts nothing out. -/
theorem Ready.silent {k : Nat} (h : Ready k text p) (hkeys : searchName text = none) :
    ∃ q, (scanner py).Scans p [] q := by
  have hbody {buf : List Char} (idx : Int) (hnone : searchName buf = none) :
      (scanner py).Scans ⟨.inToolBody, buf, idx, [], true⟩ []
        ⟨.inToolBody, buf, idx, [], true⟩ := by
    refine .stop ?_
    rw [scanner_advance, advance_body _ rfl, hnone]
    rfl
  cases h with
  | outside chars xml =>
      have hbare : posBare text = none := by
        rw [posBare, hkeys]
        rfl
      cases hopen : breakOn toolCallOpen text with
      | none =>
          refine ⟨_, .stop ?_⟩
          rw [scanner_advance, advance_text _ rfl, openCall, hopen, hbare]
          rfl
      | some r =>
          obtain ⟨before, after⟩ := r
          have hafter : searchName after = none := by
            rw [eq_of_breakOn hopen, ← List.append_assoc] at hkeys
            exact searchName_suffix hkeys
          refine ⟨_, .silent ?_ (hbody (k - 1 + 1) hafter)⟩
          rw [scanner_advance, advance_text _ rfl, openCall, hopen, hbare]
          rfl
  | inside hfront =>
      refine ⟨_, hbody k ?_⟩
      have hsearch := hfront text
      rw [hkeys] at hsearch
      exact Option.map_eq_none_iff.mp hsearch

theorem blockName?_some (h : blockName? py body = some name) (idx : Nat) :
    ∃ obj call, py.tryLoads (strip body) = some obj ∧
      toolCallFromJsonObj py obj idx = some call ∧ call.index = idx ∧ call.name = name ∧
      name ≠ "" := by
  obtain ⟨obj, hobj, h⟩ := Option.bind_eq_some_iff.mp h
  rw [← toolCallFromJsonObj_name py obj idx] at h
  obtain ⟨call, hcall, rfl⟩ := Option.map_eq_some_iff.mp h
  obtain ⟨hidx, hne⟩ := toolCallFromJsonObj_spec hcall
  exact ⟨obj, call, hobj, hcall, hidx, rfl, hne⟩

/-- The loop over the blocks finds the calls whose names the parser puts out. -/
theorem scans_of_keysInCalls (h : KeysInCalls py text) {fuel : Nat} {calls found : List ToolCall}
    {cleaned parts : List Char} (hfuel : text.length ≤ fuel)
    (hblocks : scanBlocks py fuel text calls cleaned = some (found, parts))
    (hp : Ready calls.length text p) :
    ∃ more q, found = calls ++ more ∧ (scanner py).Scans p
      (more.map fun call => ((call.index : Int), call.name.toList)) q := by
  induction h generalizing fuel calls cleaned p with
  | prose hblock hkeys =>
      rename_i text
      have hfound : found = calls := by
        cases fuel with
        | zero => simpa [scanBlocks] using (congrArg Prod.fst (Option.some.inj hblocks)).symm
        | succ fuel =>
            simp only [scanBlocks, hblock, Option.some.injEq, Prod.mk.injEq] at hblocks
            exact hblocks.1.symm
      obtain ⟨q, hq⟩ := hp.silent hkeys
      exact ⟨[], q, by rw [hfound, List.append_nil], hq⟩
  | call hblock hprose hcall hname hafter ih =>
      rename_i text before body after name
      obtain ⟨fuel, rfl⟩ : ∃ n, fuel = n + 1 :=
        ⟨fuel - 1, by have := length_after_lt hblock; omega⟩
      obtain ⟨obj, call, hobj, hcallJson, hidx, hcallName, hne⟩ :=
        blockName?_some hcall calls.length
      simp only [scanBlocks, hblock, hobj, Option.bind_some, hcallJson] at hblocks
      have hfuel' : after.length ≤ fuel := by
        have := length_after_lt hblock
        omega
      obtain ⟨front, hfront, henter⟩ := hp.enter hblock hprose
      obtain ⟨pre, key, chars, rest, hsearch, hscan, hspelt⟩ := hname
      have hready : Ready (calls ++ [call]).length after
          ⟨.text, after, calls.length, chars, true⟩ := by
        have hk : ((calls ++ [call]).length : Int) - 1 = calls.length := by simp
        rw [← hk]
        exact .outside chars true
      obtain ⟨more, q, rfl, hq⟩ := ih hfuel' hblocks hready
      refine ⟨call :: more, q, by simp, henter ?_⟩
      have hkey : (searchName (front ++ (body ++ (toolCallClose ++ after)))).map Prod.snd =
          some (key ++ (toolCallClose ++ after)) := by
        rw [hfront, searchName_append hsearch]
        rfl
      have hclosed :
          breakOn toolCallClose (rest ++ (toolCallClose ++ after)) = some (rest, after) := by
        obtain ⟨k, -, hbody⟩ := searchName_some hsearch
        obtain ⟨literal, hliteral⟩ := scanName_suffix hscan
        have hfirst := (firstBlock_some hblock).2
        have hshape : body = (pre ++ (k ++ literal)) ++ rest := by
          rw [hbody, hliteral]
          simp [List.append_assoc]
        rw [hshape, List.append_assoc] at hfirst
        exact breakOn_of_append hfirst
      have hemitted : (⟨.nameEmitted, rest ++ (toolCallClose ++ after), calls.length, chars, true⟩ :
          ToolCallStreamParser).advance py =
          some ([], ⟨.text, after, calls.length, chars, true⟩) := by
        rw [advance_emitted _ rfl rfl, hclosed]
        rfl
      rw [List.map_cons, hidx, hcallName]
      exact name_round hkey hscan hspelt hne rfl (.silent hemitted hq)
  | malformed hblock hprose hcall hkeys hafter ih =>
      rename_i text before body after
      obtain ⟨fuel, rfl⟩ : ∃ n, fuel = n + 1 :=
        ⟨fuel - 1, by have := length_after_lt hblock; omega⟩
      simp only [scanBlocks, hblock] at hblocks
      obtain ⟨obj, hobj, hblocks⟩ := Option.bind_eq_some_iff.mp hblocks
      have hnone : toolCallFromJsonObj py obj calls.length = none := by
        rw [blockName?, hobj, Option.bind_some,
          ← toolCallFromJsonObj_name py obj calls.length] at hcall
        exact Option.map_eq_none_iff.mp hcall
      simp only [hnone] at hblocks
      have hfuel' : after.length ≤ fuel := by
        have := length_after_lt hblock
        omega
      obtain ⟨front, hfront, henter⟩ := hp.enter hblock hprose
      have hready : Ready calls.length after
          ⟨.inToolBody, (front ++ (body ++ toolCallClose)) ++ after, calls.length, [], true⟩ :=
        .inside (hfront.append (keyless_close hkeys))
      obtain ⟨more, q, hfound, hq⟩ := ih hfuel' hblocks hready
      refine ⟨more, q, hfound, henter ?_⟩
      simpa [List.append_assoc] using hq

/-- Behind white space the brace of a bare call opens it. -/
theorem openCall_of_bare {outside between key : List Char} (hbare : posBare text = some outside)
    (hspace : ∀ c ∈ outside, isSpace c = true)
    (htext : text = outside ++ '\x7b' :: (between ++ key)) :
    openCall text = some (false, between ++ key) := by
  have hdrop : text.drop (outside.length + 1) = between ++ key := by
    rw [htext, List.drop_length_add_append]
    rfl
  rw [openCall, hbare]
  cases htag : breakOn toolCallOpen text with
  | none => simp only [hdrop]
  | some r =>
      obtain ⟨front, behind⟩ := r
      have hno : '<' ∉ outside ++ ['\x7b'] := by
        simp only [List.mem_append, List.mem_singleton, not_or]
        exact ⟨fun h => absurd (hspace _ h) (by decide), by decide⟩
      have hsplit : front ++ '<' :: (toolCallOpen.tail ++ behind) =
          (outside ++ ['\x7b']) ++ (between ++ key) := by
        have hfront : text = front ++ '<' :: (toolCallOpen.tail ++ behind) := eq_of_breakOn htag
        rw [← hfront, htext]
        simp
      have hlen := (prefix_of_notMem hsplit hno).length_le
      rw [List.length_append, List.length_singleton] at hlen
      simp only [if_neg (show ¬ front.length ≤ outside.length by omega), hdrop]

theorem scans_of_bareCall (h : BareCall py text name) :
    ∃ q, (scanner py).Scans { buf := text } [(0, name.toList)] q := by
  obtain ⟨pre, after, chars, rest, hsearch, hscan, hspelt⟩ := h.names
  obtain ⟨before, after', between, hsearch', hbrace, hstrip⟩ := posBare_some h.first
  obtain ⟨rfl, rfl⟩ := Prod.mk.inj (Option.some.inj (hsearch.symm.trans hsearch'))
  obtain ⟨-, -, -, -, -, -, hne⟩ := blockName?_some h.call 0
  obtain ⟨key, hkey, htext⟩ := searchName_some hsearch
  rw [eq_of_breakLastBrace hbrace, List.append_assoc, List.cons_append] at htext
  have hopen := openCall_of_bare h.first (fun c hc => List.mem_takeWhile_imp hc) htext
  have hadv : ({ buf := text } : ToolCallStreamParser).advance py =
      some ([], ⟨.inToolBody, between ++ (key ++ after), 0, [], false⟩) := by
    rw [advance_text _ rfl, hopen]
    rfl
  have hfound : (searchName (between ++ (key ++ after))).map Prod.snd = some (after ++ []) := by
    have hno : '"' ∉ between := fun hmem =>
      absurd (isSpace_of_strip_eq_nil hstrip _ hmem) (by decide)
    rw [keyless_of_notMem hno, searchName_key hkey, List.append_nil]
    rfl
  have hdropped : (⟨.nameEmitted, rest ++ [], 0, chars, false⟩ : ToolCallStreamParser).advance py =
      some ([], ⟨.text, [], 0, chars, false⟩) := advance_bare _ rfl rfl
  have hstop : (⟨.text, [], 0, chars, false⟩ : ToolCallStreamParser).advance py = none :=
    advance_text _ rfl
  exact ⟨_, .silent hadv
    (name_round hfound hscan hspelt hne rfl (.silent hdropped (.stop hstop)))⟩

theorem extractToolCalls_of_bareCall (h : BareCall py text name) :
    ∃ call, extractToolCalls py text = some ([call], []) ∧ call.index = 0 ∧ call.name = name := by
  obtain ⟨obj, call, hobj, hcall, hidx, hname, -⟩ := blockName?_some h.call 0
  have hscan : scanBlocks py text.length text [] [] = some ([], text) := by
    cases hlen : text.length with
    | zero => rfl
    | succ n => simp [scanBlocks, h.block]
  refine ⟨call, ?_, hidx, hname⟩
  simp only [extractToolCalls, hscan, Option.bind_some, List.isEmpty_nil, Bool.true_and, h.braced,
    if_true, hobj, Option.map_some, hcall]

end Scan

/-- A call, whose arguments have a name key, too, and a malformed block. -/
def waveThenOops : List Char :=
  ("On it. <tool_call>\x7b\"name\": \"wave\", " ++
    "\"arguments\": \x7b\"name\": \"left\"\x7d\x7d</tool_call>" ++
    " and <tool_call>oops</tool_call>.").toList

theorem keysInCalls_waveThenOops : KeysInCalls samplePython waveThenOops := by
  have hwave : firstBlock waveThenOops = some ("On it. ".toList,
      "\x7b\"name\": \"wave\", \"arguments\": \x7b\"name\": \"left\"\x7d\x7d".toList,
      " and <tool_call>oops</tool_call>.".toList) := by decide
  have hname : NamesItself samplePython
      "\x7b\"name\": \"wave\", \"arguments\": \x7b\"name\": \"left\"\x7d\x7d".toList "wave" :=
    ⟨['\x7b'], "wave\", \"arguments\": \x7b\"name\": \"left\"\x7d\x7d".toList, "wave".toList,
      ", \"arguments\": \x7b\"name\": \"left\"\x7d\x7d".toList, by decide⟩
  have hoops : firstBlock " and <tool_call>oops</tool_call>.".toList =
      some (" and ".toList, "oops".toList, ".".toList) := by decide
  refine .call hwave (by decide) (by decide +kernel) hname ?_
  refine .malformed hoops (by decide) (by decide) (by decide) ?_
  exact .prose (by decide) (by decide)

end JetsonVoice.Server
