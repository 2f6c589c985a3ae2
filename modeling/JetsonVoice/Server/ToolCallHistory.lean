import JetsonVoice.Server.ChatTemplate
import JetsonVoice.Server.HistoryBlocks
import JetsonVoice.Server.HistoryCall
import JetsonVoice.Server.PythonJson
import Mathlib.Data.List.Forall2

/-!
# The calls of the history and the calls in its text

An assistant message with calls is rewritten as text for the runtime. The calls
that are extracted from that text are those of the message if and only if no name
has to be escaped, no name and no arguments close a tag, and the arguments can be
read one container deeper than they are.
-/

namespace JetsonVoice.Server.History

open Foundation JsonText Prompt

/-- Python with the JSON texts of the library. -/
def jsonPyText (F : Floats) (str : Json → String) (hstr : ∀ s, str (.str s) = s) : PyText where
  str := str
  dumps j := String.ofList (dumps F j)
  str_text := hstr

/-- The text of a call's arguments. -/
def argsText (F : Floats) : Json → List Char
  | .str s => s.toList
  | args => dumps F args

/-- Arguments are given as an object, or as a text that holds one. -/
inductive Holds (F : Floats) : Json → Json → Prop
  | object {lim : Limits} {text : List Char} {v : Json} (h : loads F lim text = .ok v)
      (hobj : v.isObject = true) : Holds F v v
  | text {lim : Limits} {s : String} {v : Json} (h : loads F lim s.toList = .ok v)
      (hobj : v.isObject = true) : Holds F (.str s) v

/-- A call of the history: its name, its arguments as they are given, and the object
they are. -/
structure PastCall where
  name : String
  args : Json
  value : Json

/-- An entry of `tool_calls` is the call. -/
structure PastCall.Entry (F : Floats) (call : PastCall) (entry : Json) : Prop where
  object : entry.isObject = true
  function : (getD entry "function" entry).isObject = true
  name : (getD entry "function" entry).str? "name" = some call.name
  name_ne : call.name ≠ ""
  args : (getD entry "function" entry).field? "arguments" = some call.args
  holds : Holds F call.args call.value

/-- An assistant message with calls, and with a text or nothing for its content. -/
structure AssistantMessage (F : Floats) (msg : Json) (content : String) (calls : List PastCall) :
    Prop where
  object : msg.isObject = true
  role : get msg "role" = .str "assistant"
  given : get msg "content" = .str content ∨ get msg "content" = .null ∧ content = ""
  no_open : ¬ toolCallOpen <:+: content.toList
  no_close : ¬ toolCallClose <:+: content.toList
  entries : ∃ entries, get msg "tool_calls" = .arr entries ∧
    calls.Forall₂ (PastCall.Entry F) entries
  calls_ne : calls ≠ []

/-- The call that is extracted has the name and the arguments of the call. -/
def PastCall.Returns (F : Floats) (lim : Limits) (call : PastCall) (found : ToolCall) : Prop :=
  found.name = call.name ∧ loads F lim found.arguments.toList = .ok call.value

/-- The calls of a message and its content come back from its text. -/
def RoundTrip (F : Floats) (lim : Limits) (callId : Nat → String) (py : PyText) (msg : Json)
    (content : String) (calls : List PastCall) : Prop :=
  ∃ flat text found, flattenMessageForRuntime? py msg = some flat ∧
    get flat "content" = .str text ∧
    extractToolCalls (jsonPython F lim callId) text.toList = some (found, strip content.toList) ∧
    calls.Forall₂ (PastCall.Returns F lim) found

/-- Nothing in the name needs an escape, no tag is closed in the call, and its
arguments are read in one container less. -/
structure PastCall.Faithful (F : Floats) (lim : Limits) (call : PastCall) : Prop where
  plain : Plain call.name.toList
  name_open : ¬ toolCallClose <:+: call.name.toList
  args_open : ¬ toolCallClose <:+: argsText F call.args
  nested : ∃ d, lim.depth = d + 1 ∧ loads F ⟨d, lim.digits⟩ (argsText F call.args) = .ok call.value

/-- The text of the call between its tags. -/
def PastCall.body (F : Floats) (call : PastCall) : List Char :=
  callBody call.name.toList (argsText F call.args)

variable {F : Floats} {lim : Limits} {callId : Nat → String} {str : Json → String}
  {hstr : ∀ s, str (.str s) = s} {msg : Json} {content : String} {call : PastCall}
  {calls : List PastCall} {found : ToolCall}

section Text

theorem Holds.loads {args v : Json} (h : Holds F args v) :
    ∃ lim, loads F lim (argsText F args) = .ok v := by
  cases h with
  | @object lim text args h hobj =>
      refine ⟨lim, ?_⟩
      have hargs : argsText F args = dumps F args := by
        cases args <;> first | rfl | cases hobj
      rw [hargs]
      exact loads_dumps (readable_of_loads h)
  | text h => exact ⟨_, h⟩

theorem Holds.isObject {args v : Json} (h : Holds F args v) : v.isObject = true := by
  cases h with
  | object _ hobj => exact hobj
  | text _ hobj => exact hobj

theorem field?_of_str? {j : Json} {key s : String} (h : j.str? key = some s) :
    j.field? key = some (.str s) := by
  rw [Json.str?] at h
  split at h
  · rename_i s' hfield
    cases h
    exact hfield
  · cases h

variable (str hstr)

/-- The text of an entry of `tool_calls`. -/
theorem toolCallText?_eq {entry : Json} (h : call.Entry F entry) :
    ∃ text, toolCallText? (jsonPyText F str hstr) entry = some text ∧
      text.toList = block (call.body F) := by
  have hname : getD (getD entry "function" entry) "name" (.str "") = .str call.name := by
    rw [getD, field?_of_str? h.name]
    rfl
  have hargs : getD (getD entry "function" entry) "arguments" (.str "") = call.args := by
    rw [getD, h.args]
    rfl
  have hopen : "<tool_call>\n\x7b\"name\": \"".toList = toolCallOpen ++
      ['\n', '\x7b', '"', 'n', 'a', 'm', 'e', '"', ':', ' ', '"'] := by decide
  have hnext : "\", \"arguments\": ".toList = ['"', ',', ' ', '"', 'a', 'r', 'g', 'u', 'm', 'e',
      'n', 't', 's', '"', ':', ' '] := by decide
  have hclose : "\x7d\n</tool_call>".toList = '\x7d' :: '\n' :: toolCallClose := by decide
  have hpy : (jsonPyText F str hstr).str (.str call.name) = call.name := hstr call.name
  refine ⟨"<tool_call>\n\x7b\"name\": \"" ++ call.name ++ "\", \"arguments\": " ++
    String.ofList (argsText F call.args) ++ "\x7d\n</tool_call>", ?_, ?_⟩
  · simp only [toolCallText?, h.object, if_true, h.function, hname, hargs, hpy]
    cases call.args with
    | str s => simp only [argsText, String.ofList_toList]
    | _ => rfl
  · simp only [String.toList_append, hopen, hnext, hclose, String.toList_ofList, block,
      PastCall.body, callBody, nextString, argumentsTail, List.append_assoc, List.cons_append, List.nil_append]

/-- The texts of the entries, one a line. -/
theorem toList_intercalate_blocks {texts : List String} {bodies : List (List Char)}
    (h : texts.Forall₂ (fun text body => text.toList = block body) bodies) :
    ("\n".intercalate texts).toList = blocksText [] bodies := by
  induction h with
  | nil => simp [blocksText]
  | @cons text body texts bodies hhere hrest ih =>
      cases hrest with
      | nil => simp [blocksText, hhere]
      | cons =>
          rw [String.intercalate_cons_cons, String.toList_append, String.toList_append, ih, hhere]
          simp [blocksText]

theorem mapM_toolCallText? {entries : List Json} (h : calls.Forall₂ (PastCall.Entry F) entries) :
    ∃ texts, entries.mapM (toolCallText? (jsonPyText F str hstr)) = some texts ∧
      texts.Forall₂ (fun text body => text.toList = block body) (calls.map (PastCall.body F)) := by
  induction h with
  | nil => exact ⟨[], rfl, .nil⟩
  | cons hentry _ ih =>
      obtain ⟨text, htext, hbody⟩ := toolCallText?_eq str hstr hentry
      obtain ⟨texts, htexts, hbodies⟩ := ih
      exact ⟨text :: texts, by rw [List.mapM_cons, htext, htexts]; rfl, .cons hbody hbodies⟩

/-- The line of the content in front of the calls. -/
def lead (content : String) : List Char := if content = "" then [] else content.toList ++ ['\n']

/-- The text of a message: its content, and its calls behind it. -/
theorem flatten_eq (h : AssistantMessage F msg content calls) :
    ∃ flat text, flattenMessageForRuntime? (jsonPyText F str hstr) msg = some flat ∧
      get flat "content" = .str text ∧
      text.toList = blocksText (lead content) (calls.map (PastCall.body F)) := by
  obtain ⟨entries, hentries, hcalls⟩ := h.entries
  obtain ⟨texts, htexts, hbodies⟩ := mapM_toolCallText? str hstr hcalls
  have htruthy : truthy (get msg "tool_calls") = true := by
    rw [hentries]
    cases hcalls with
    | nil => exact absurd rfl h.calls_ne
    | cons => rfl
  have hrole : ¬ get msg "role" = .str "tool" := by
    rw [h.role]
    simp
  have hpart : contentPart (get msg "content") = if content = "" then [] else [content] := by
    rcases h.given with hstr | ⟨hnull, rfl⟩
    · rw [hstr]
      rfl
    · rw [hnull]
      rfl
  have hflat : flattenMessageForRuntime? (jsonPyText F str hstr) msg =
      some (.obj [("role", .str "assistant"), ("content",
        .str ("\n".intercalate (contentPart (get msg "content") ++ texts)))]) := by
    rw [flattenMessageForRuntime?, if_pos h.object, if_neg hrole, if_pos ⟨h.role, htruthy⟩,
      hentries]
    simp only [iterItems?, Option.bind_eq_bind, Option.bind_some, htexts]
  refine ⟨_, _, hflat, by rw [Prompt.get, content_obj], ?_⟩
  have hblocks := toList_intercalate_blocks hbodies
  rw [hpart, lead]
  split
  · exact hblocks
  · obtain ⟨call, calls', hcons⟩ := List.exists_cons_of_ne_nil h.calls_ne
    have hne : texts ≠ [] := by
      rintro rfl
      rw [hcons] at hbodies
      cases hbodies
    rw [List.singleton_append, String.intercalate_cons_of_ne_nil hne, String.toList_append,
      String.toList_append, hblocks, hcons]
    simp [blocksText, List.append_assoc]

end Text

section Calls

theorem closers_call (call : PastCall) :
    closers (call.body F) = closers call.name.toList + closers (argsText F call.args) := by
  have hbody : call.body F = ['\x7b', '"', 'n', 'a', 'm', 'e', '"', ':', ' '] ++ '"' ::
      (call.name.toList ++ '"' ::
        ([',', ' ', '"', 'a', 'r', 'g', 'u', 'm', 'e', 'n', 't', 's', '"', ':'] ++
          ' ' :: (argsText F call.args ++ '\x7d' :: []))) := by
    simp only [PastCall.body, callBody, nextString, argumentsTail, List.cons_append,
      List.nil_append]
  rw [hbody, closers_append_cons (by decide), closers_append_cons (by decide),
    closers_append_cons (by decide), closers_append_cons (by decide)]
  have hhead : closers ['\x7b', '"', 'n', 'a', 'm', 'e', '"', ':', ' '] = 0 := by decide
  have hkey :
      closers [',', ' ', '"', 'a', 'r', 'g', 'u', 'm', 'e', 'n', 't', 's', '"', ':'] = 0 := by
    decide
  have hnil : closers [] = 0 := rfl
  omega

theorem braced_call (call : PastCall) : Braced (call.body F) := by
  refine ⟨['"', 'n', 'a', 'm', 'e', '"', ':', ' ', '"'] ++
    (call.name.toList ++ '"' :: ',' :: ' ' :: '"' ::
    (['a', 'r', 'g', 'u', 'm', 'e', 'n', 't', 's', '"', ':', ' '] ++ argsText F call.args)), ?_⟩
  simp only [PastCall.body, callBody, nextString, argumentsTail, List.cons_append, List.nil_append,
    List.append_assoc]

theorem tryLoads_jsonPython {text : List Char} {j : Json} :
    (jsonPython F lim callId).tryLoads text = some (some j) ↔ loads F lim text = .ok j := by
  simp only [Python.tryLoads, jsonPython]
  cases loads F lim text with
  | error e => cases e <;> simp
  | ok j' => simp

/-- The call that is made of an object with a name and arguments. -/
theorem toolCallFromJsonObj_call {name : String} {v : Json} (hname : name ≠ "")
    (hobj : v.isObject = true) (idx : Nat) :
    toolCallFromJsonObj (jsonPython F lim callId)
      (some (.obj [("name", .str name), ("arguments", v)])) idx =
        some ⟨callId idx, idx, name, String.ofList (dumps F v)⟩ := by
  cases v with
  | obj fields =>
      simp [toolCallFromJsonObj, Json.str?, Json.field?, argsObj?, List.lookup_cons, hname, jsonPython]
  | _ => cases hobj

/-- What the block of a faithful call is read as. -/
theorem PastCall.Faithful.tryLoads (h : call.Faithful F lim)
    (hholds : Holds F call.args call.value) :
    (jsonPython F lim callId).tryLoads (call.body F) =
      some (some (.obj [("name", .str call.name), ("arguments", call.value)])) := by
  obtain ⟨d, hdepth, hargs⟩ := h.nested
  rw [tryLoads_jsonPython, PastCall.body, loads_callBody h.plain hargs hholds.isObject hdepth,
    hargs, String.ofList_toList]
  rfl

theorem PastCall.Faithful.accepts (h : call.Faithful F lim) (hholds : Holds F call.args call.value)
    (hname : call.name ≠ "") (idx : Nat) :
    ∃ found : ToolCall, found.index = idx ∧
      Accepts (jsonPython F lim callId) (call.body F) found :=
  ⟨⟨callId idx, idx, call.name, String.ofList (dumps F call.value)⟩, rfl, _, h.tryLoads hholds,
    toolCallFromJsonObj_call hname hholds.isObject idx⟩

theorem PastCall.Faithful.returns (h : call.Faithful F lim) (hholds : Holds F call.args call.value)
    (hname : call.name ≠ "") (hfound : Accepts (jsonPython F lim callId) (call.body F) found) :
    call.Returns F lim found := by
  obtain ⟨obj, hobj, hjson⟩ := hfound
  rw [h.tryLoads hholds] at hobj
  cases hobj
  rw [toolCallFromJsonObj_call hname hholds.isObject] at hjson
  obtain ⟨d, hdepth, hargs⟩ := h.nested
  have hreadable : Readable F lim.digits lim.depth call.value := by
    rw [hdepth]
    exact (readable_of_loads hargs).succ
  rw [← Option.some.inj hjson]
  exact ⟨rfl, by rw [String.toList_ofList]; exact loads_dumps hreadable⟩

/-- A call whose block is accepted under its own name is faithful, if no tag is closed in it. -/
theorem faithful_of_accepts (hholds : Holds F call.args call.value)
    (hclosers : closers (call.body F) = 0)
    (hfound : Accepts (jsonPython F lim callId) (call.body F) found)
    (hname : found.name = call.name) : call.Faithful F lim := by
  obtain ⟨lim', hargs⟩ := hholds.loads
  have hobject := hholds.isObject
  rw [closers_call, Nat.add_eq_zero_iff, closers_eq_zero_iff, closers_eq_zero_iff] at hclosers
  obtain ⟨j, hj, hjname⟩ : ∃ j, loads F lim (call.body F) = .ok j ∧
      j.str? "name" = some call.name := by
    obtain ⟨obj, hobj, hjson⟩ := hfound
    simp only [toolCallFromJsonObj, bind, Option.bind_eq_some_iff] at hjson
    obtain ⟨j, rfl, name, hstr, hjson⟩ := hjson
    refine ⟨j, tryLoads_jsonPython.mp hobj, ?_⟩
    split at hjson
    · cases hjson
    · obtain ⟨args, -, hcall⟩ := Option.bind_eq_some_iff.mp hjson
      rw [hstr, ← hname, ← Option.some.inj hcall]
  have hplain : Plain call.name.toList :=
    plain_of_loads hargs hobject hj (by rw [hjname, String.ofList_toList])
  refine ⟨hplain, hclosers.1, hclosers.2, ?_⟩
  cases hdepth : lim.depth with
  | zero =>
      rw [PastCall.body, loads_callBody_zero hdepth] at hj
      cases hj
  | succ d =>
      rw [PastCall.body, loads_callBody hplain hargs hobject hdepth] at hj
      obtain ⟨v, hv, -⟩ := map_eq_ok.mp hj
      exact ⟨d, rfl, loads_unique hargs hobject hv ▸ hv⟩

end Calls

section RoundTrip

/-- A text that ends with a tag is not taken for one bare object. -/
theorem not_braced (lead : List Char) {bodies : List (List Char)} (hne : bodies ≠ []) :
    isBraced (strip (blocksText lead bodies)) = false := by
  have hlast : ∃ front, blocksText lead bodies = front ++ ['>'] := by
    induction bodies generalizing lead with
    | nil => exact absurd rfl hne
    | cons body bodies ih =>
        cases bodies with
        | nil =>
            refine ⟨lead ++ (toolCallOpen ++
              ('\n' :: (body ++ '\n' :: toolCallClose.dropLast))), ?_⟩
            have hclose : toolCallClose = toolCallClose.dropLast ++ ['>'] := by decide
            rw [blocksText, blocksText, List.append_nil, block]
            conv_lhs => rw [hclose]
            simp [List.append_assoc]
        | cons body' bodies =>
            obtain ⟨front, hfront⟩ := ih ['\n'] (by simp)
            exact ⟨lead ++ (block body ++ front), by rw [blocksText, hfront]; simp⟩
  obtain ⟨front, hfront⟩ := hlast
  obtain ⟨front', hstrip⟩ := strip_append_singleton (by decide : isSpace '>' = false) front
  rw [hfront, hstrip, isBraced, List.getLast?_concat]
  simp

theorem lead_no_open (h : ¬ toolCallOpen <:+: content.toList) :
    ¬ toolCallOpen <:+: lead content := by
  rw [lead]
  split
  · decide
  · have hcount : occurrences toolCallOpen (content.toList ++ ['\n']) =
        occurrences toolCallOpen content.toList + occurrences toolCallOpen [] :=
      occurrences_append_cons (by decide) (by decide) content.toList []
    rw [← occurrences_eq_zero_iff (by decide)] at h ⊢
    rw [hcount, h]
    rfl

theorem strip_lead (content : String) {gaps : List Char} (h : ∀ c ∈ gaps, isSpace c = true) :
    strip (lead content ++ gaps) = strip content.toList := by
  rw [strip_append_spaces h, lead]
  split
  · rename_i hempty
    rw [hempty]
    rfl
  · exact strip_append_spaces (List.forall_mem_singleton.mpr rfl) _

theorem closers_blocksText (calls : List PastCall) (lead : List Char) :
    calls.length + (calls.map fun call => closers (call.body F)).sum ≤
      closers (blocksText lead (calls.map (PastCall.body F))) := by
  induction calls generalizing lead with
  | nil => simp
  | cons call calls ih =>
      have hrest := ih ['\n']
      have hfront := closers_append_le lead
        (block (call.body F) ++ blocksText ['\n'] (calls.map (PastCall.body F)))
      have hblock := closers_append_le (block (call.body F))
        (blocksText ['\n'] (calls.map (PastCall.body F)))
      rw [closers_block] at hblock
      simp only [List.map_cons, List.sum_cons, List.length_cons, blocksText]
      omega

/-- A text has no fewer characters than blocks. -/
theorem length_le_blocksText (lead : List Char) (bodies : List (List Char)) :
    bodies.length ≤ (blocksText lead bodies).length := by
  induction bodies generalizing lead with
  | nil => exact Nat.zero_le _
  | cons body bodies ih =>
      have hrest := ih ['\n']
      simp only [blocksText, block, List.length_append, List.length_cons]
      omega

theorem AssistantMessage.holds (h : AssistantMessage F msg content calls) :
    ∀ call ∈ calls, Holds F call.args call.value ∧ call.name ≠ "" := by
  obtain ⟨entries, -, hcalls⟩ := h.entries
  clear h
  induction hcalls with
  | nil => simp
  | cons hentry _ ih => exact List.forall_mem_cons.mpr ⟨⟨hentry.holds, hentry.name_ne⟩, ih⟩

/-- The calls of a message all of whose calls are faithful come back. -/
theorem extract_faithful (callId : Nat → String) (h : AssistantMessage F msg content calls)
    (hfaithful : ∀ call ∈ calls, call.Faithful F lim) :
    ∃ found, extractToolCalls (jsonPython F lim callId)
        (blocksText (lead content) (calls.map (PastCall.body F))) =
        some (found, strip content.toList) ∧ calls.Forall₂ (PastCall.Returns F lim) found := by
  have hbodies : ∀ body ∈ calls.map (PastCall.body F), Braced body ∧ closers body = 0 := by
    simp only [List.forall_mem_map]
    intro call hcall
    have hopen := hfaithful call hcall
    refine ⟨braced_call call, ?_⟩
    rw [closers_call, closers_eq_zero_iff.mpr hopen.name_open,
      closers_eq_zero_iff.mpr hopen.args_open]
  have haccepts : ∀ body ∈ calls.map (PastCall.body F), ∀ idx,
      ∃ found : ToolCall, found.index = idx ∧ Accepts (jsonPython F lim callId) body found := by
    simp only [List.forall_mem_map]
    intro call hcall
    exact (hfaithful call hcall).accepts (h.holds call hcall).1 (h.holds call hcall).2
  obtain ⟨found, gaps, hgaps, hfound, hscan⟩ := scanBlocks_of_accepts hbodies
    (by simpa using h.calls_ne) (lead_no_open h.no_open)
    (length_le_blocksText (lead content) (calls.map (PastCall.body F))) haccepts [] []
  rw [List.forall₂_map_left_iff] at hfound
  have hne : found.isEmpty = false := by
    rw [List.isEmpty_eq_false_iff, ← List.length_pos_iff, ← hfound.length_eq, List.length_pos_iff]
    exact h.calls_ne
  refine ⟨found, ?_, ?_⟩
  · rw [extractToolCalls, hscan]
    simp only [Option.bind_some, List.nil_append, hne, Bool.false_and, Bool.false_eq_true, if_false,
      strip_lead content hgaps]
  · have hall := (List.forall₂_and_left calls found).mpr ⟨fun call hcall => hcall, hfound⟩
    exact hall.imp fun call found hcall =>
      (hfaithful call hcall.1).returns (h.holds call hcall.1).1 (h.holds call hcall.1).2 hcall.2

theorem exists_of_forall₂ {α β : Type} {R S : α → β → Prop} {l : List α} {u : List β}
    (hR : l.Forall₂ R u) (hS : l.Forall₂ S u) : ∀ a ∈ l, ∃ b, R a b ∧ S a b := by
  induction hR with
  | nil => simp
  | @cons a b l u hab _ ih =>
      cases hS with
      | cons hab' hS => exact List.forall_mem_cons.mpr ⟨⟨b, hab, hab'⟩, ih hS⟩

/-- The calls of a message that come back are faithful. -/
theorem faithful_of_extract (h : AssistantMessage F msg content calls) {found : List ToolCall}
    (hextract : extractToolCalls (jsonPython F lim callId)
      (blocksText (lead content) (calls.map (PastCall.body F))) =
        some (found, strip content.toList))
    (hnames : calls.Forall₂ (fun call found => found.name = call.name) found) :
    ∀ call ∈ calls, call.Faithful F lim := by
  have hne : calls.map (PastCall.body F) ≠ [] := by simpa using h.calls_ne
  rw [extractToolCalls] at hextract
  obtain ⟨⟨scanned, parts⟩, hscan, hresult⟩ := Option.bind_eq_some_iff.mp hextract
  obtain ⟨more, left, hmore, hleft, hcount, hnone⟩ := closers_le_of_scanBlocks hscan
  rw [List.nil_append] at hmore hleft
  subst hmore hleft
  have hbare : (scanned.isEmpty && isBraced (strip parts)) = false := by
    cases hempty : scanned with
    | nil => rw [hnone hempty, not_braced (lead content) hne, Bool.and_false]
    | cons => rfl
  simp only [hbare, Bool.false_eq_true, if_false, Option.some.injEq, Prod.mk.injEq] at hresult
  obtain ⟨rfl, hstrip⟩ := hresult
  -- No tag is closed in a call: each closing tag of the text ends a call that was found.
  have hclosed : ∀ call ∈ calls, closers (call.body F) = 0 := by
    have hleft : closers parts = 0 := by
      rw [← closers_strip, hstrip, closers_strip]
      exact closers_eq_zero_iff.mpr h.no_close
    have hlength := hnames.length_eq
    have hsum := closers_blocksText (F := F) calls (lead content)
    have hzero : (calls.map fun call => closers (call.body F)).sum = 0 := by omega
    intro call hcall
    exact List.sum_eq_zero_iff_forall_eq_nat.mp hzero _ (List.mem_map_of_mem hcall)
  have hbodies : ∀ body ∈ calls.map (PastCall.body F), Braced body ∧ closers body = 0 := by
    simp only [List.forall_mem_map]
    exact fun call hcall => ⟨braced_call call, hclosed call hcall⟩
  obtain ⟨more', hmore', -, haccepts⟩ := accepts_of_scanBlocks hbodies (lead_no_open h.no_open)
    (length_le_blocksText (lead content) (calls.map (PastCall.body F))) hscan
  rw [List.nil_append] at hmore'
  subst hmore'
  have hfound := haccepts (by rw [List.length_map, hnames.length_eq])
  rw [List.forall₂_map_left_iff] at hfound
  intro call hcall
  obtain ⟨found, hfound, hname⟩ := exists_of_forall₂ hfound hnames call hcall
  exact faithful_of_accepts (h.holds call hcall).1 (hclosed call hcall) hfound hname

end RoundTrip

/-- The calls of a message come back from its text if and only if each of them is
faithful. -/
theorem history_round_trip_iff (h : AssistantMessage F msg content calls) :
    RoundTrip F lim callId (jsonPyText F str hstr) msg content calls ↔
      ∀ call ∈ calls, call.Faithful F lim := by
  obtain ⟨flat, text, hflat, hcontent, htext⟩ := flatten_eq str hstr h
  constructor
  · rintro ⟨flat', text', found, hflat', hcontent', hextract, hreturns⟩
    cases hflat.symm.trans hflat'
    cases hcontent.symm.trans hcontent'
    rw [htext] at hextract
    exact faithful_of_extract h hextract (hreturns.imp fun _ _ hreturn => hreturn.1)
  · intro hfaithful
    obtain ⟨found, hextract, hreturns⟩ := extract_faithful callId h hfaithful
    exact ⟨flat, text, found, hflat, hcontent, htext ▸ hextract, hreturns⟩

/-- `str` as far as it is used below: of strings. -/
def samplePyText : PyText :=
  jsonPyText zeroFloats (fun j => match j with | .str s => s | _ => "") fun s => (rfl : s = s)

/-- Two calls: one has an object for its arguments, the other a text. -/
def waveThenGo : Json :=
  .obj [("role", .str "assistant"), ("content", .str "On it. "), ("tool_calls", .arr
    [.obj [("function", .obj [("name", .str "wave"), ("arguments", .obj [("reps", .int 3)])])],
      .obj [("name", .str "go"), ("arguments", .str "\x7b\"to\": \x7b\x7d\x7d ")]])]

def waveThenGoCalls : List PastCall :=
  [⟨"wave", .obj [("reps", .int 3)], .obj [("reps", .int 3)]⟩,
    ⟨"go", .str "\x7b\"to\": \x7b\x7d\x7d ", .obj [("to", .obj [])]⟩]

theorem assistantMessage_waveThenGo :
    AssistantMessage zeroFloats waveThenGo "On it. " waveThenGoCalls where
  object := rfl
  role := by decide
  given := .inl (by decide)
  no_open := by decide
  no_close := by decide
  entries := by
    have hwave : loads zeroFloats ⟨8, 20⟩ "\x7b\"reps\": 3\x7d".toList =
        .ok (.obj [("reps", .int 3)]) := by decide +kernel
    have hgo : loads zeroFloats ⟨8, 20⟩ "\x7b\"to\": \x7b\x7d\x7d ".toList =
        .ok (.obj [("to", .obj [])]) := by decide +kernel
    exact ⟨_, rfl, .cons ⟨rfl, rfl, by decide, by decide, rfl, .object hwave rfl⟩
      (.cons ⟨rfl, rfl, by decide, by decide, rfl, .text hgo rfl⟩ .nil)⟩
  calls_ne := by simp [waveThenGoCalls]

theorem history_round_trip_waveThenGo :
    RoundTrip zeroFloats ⟨8, 20⟩ (fun _ => "call_0") samplePyText waveThenGo "On it. "
      waveThenGoCalls := by
  refine (history_round_trip_iff assistantMessage_waveThenGo).mpr ?_
  refine List.forall_mem_cons.mpr ⟨?_, List.forall_mem_cons.mpr ⟨?_, by simp⟩⟩
  · exact ⟨by decide, by decide, by decide, 7, rfl, by decide⟩
  · exact ⟨by decide, by decide, by decide, 7, rfl, by decide +kernel⟩

/-- A call whose name has a quote in it. -/
def quotedName : Json :=
  .obj [("role", .str "assistant"), ("tool_calls", .arr
    [.obj [("function", .obj [("name", .str "a\"b"), ("arguments", .obj [])])]])]

theorem assistantMessage_quotedName :
    AssistantMessage zeroFloats quotedName "" [⟨"a\"b", .obj [], .obj []⟩] where
  object := rfl
  role := by decide
  given := .inr ⟨by decide, rfl⟩
  no_open := by decide
  no_close := by decide
  entries := by
    have hempty : loads zeroFloats ⟨8, 20⟩ "\x7b\x7d".toList = .ok (.obj []) := by decide
    exact ⟨_, rfl, .cons ⟨rfl, rfl, by decide, by decide, rfl, .object hempty rfl⟩ .nil⟩
  calls_ne := by simp

/-- The quote in a name ends the name: the block is not JSON, and no call comes back. -/
theorem quoted_name_lost :
    AssistantMessage zeroFloats quotedName "" [⟨"a\"b", .obj [], .obj []⟩] ∧
      ¬ RoundTrip zeroFloats ⟨8, 20⟩ (fun _ => "call_0") samplePyText quotedName ""
        [⟨"a\"b", .obj [], .obj []⟩] := by
  refine ⟨assistantMessage_quotedName, ?_⟩
  rintro ⟨flat, text, found, hflat, htext, hextract, hreturns⟩
  have hblock : flattenMessageForRuntime? samplePyText quotedName = some (.obj
      [("role", .str "assistant"), ("content", .str
        "<tool_call>\n\x7b\"name\": \"a\"b\", \"arguments\": \x7b\x7d\x7d\n</tool_call>")]) := by
    decide
  cases hblock.symm.trans hflat
  have hlost : (extractToolCalls (jsonPython zeroFloats ⟨8, 20⟩ fun _ => "call_0")
      "<tool_call>\n\x7b\"name\": \"a\"b\", \"arguments\": \x7b\x7d\x7d\n</tool_call>".toList).map
        Prod.fst = some [] := by decide +kernel
  rw [Prompt.get, content_obj] at htext
  cases htext
  rw [hextract] at hlost
  cases hlost
  cases hreturns

end JetsonVoice.Server.History
