import JetsonVoice.Foundation.Json

/-!
# Chat templates and the messages they format

Messages reach the server as JSON objects. It rewrites tool calls and tool
results into plain text, writes the tools into the system message, and joins
what each message says between the texts its role has in the chat template.

## Implementation notes

`str` and `json.dumps` are parameters; `str` of a string is the string. `none`
stands for any Python exception. The parsed template has strings as its texts,
and a text it does not have is empty, as the code reads it.
-/

namespace JetsonVoice.Server.Prompt

open Foundation

/-- What the server uses of Python to turn a value into text. -/
structure PyText where
  str : Json → String
  /-- `json.dumps(…, ensure_ascii=False)`. -/
  dumps : Json → String
  str_text : ∀ s, str (.str s) = s

/-- `bool(j)`. -/
def truthy : Json → Bool
  | .null => false
  | .bool b => b
  | .int n => n != 0
  | .decimal m _ => m != 0
  | .str s => s != ""
  | .arr items => !items.isEmpty
  | .obj fields => !fields.isEmpty

/-- `j.get(key, default)` of a dictionary. -/
def getD (j : Json) (key : String) (d : Json) : Json := (j.field? key).getD d

/-- `j.get(key)` of a dictionary. -/
def get (j : Json) (key : String) : Json := getD j key .null

/-- The items a `for` loop takes from a value. -/
def iterItems? : Json → Option (List Json)
  | .arr items => some items
  | .obj fields => some (fields.map fun p => .str p.1)
  | .str s => some (s.toList.map fun c => .str (String.singleton c))
  | _ => none

/-- `"".join`. -/
def concat : List String → String
  | [] => ""
  | s :: ss => s ++ concat ss

/-- The texts around a message of a role. -/
structure RoleTemplate where
  rolePrefix : String
  roleSuffix : String
  deriving DecidableEq

/-- `processed_chat_template.json`. -/
structure ChatTemplate where
  roles : List (String × RoleTemplate)
  generationPrompt : String
  generationPromptThinking : String

section Tools

/-- The text of a system block in front of the tools. -/
@[irreducible] def toolsHeader : String :=
  "# Tools\n\nYou may call one or more functions to assist with the user query." ++
  "\n\nYou are provided with function signatures within <tools></tools> XML tags:\n<tools>"

/-- The text of a system block behind the tools. -/
@[irreducible] def toolsFooter : String :=
  "\n</tools>\n\nFor each function call, return a json object with function name and " ++
  "arguments within <tool_call></tool_call> XML tags:\n<tool_call>\n" ++
  "\x7b\"name\": <function-name>, \"arguments\": <args-json-object>\x7d\n</tool_call>"

def renderToolsSystemBlock? (py : PyText) (tools : Json) (existingSystem : String) :
    Option String := do
  let items ← iterItems? tools
  some ((if existingSystem = "" then "" else existingSystem ++ "\n\n") ++ toolsHeader ++
    concat (items.map fun tool => "\n" ++ py.dumps tool) ++ toolsFooter)

/-- The text of one entry of `tool_calls`. -/
def toolCallText? (py : PyText) (tc : Json) : Option String :=
  let fn := if tc.isObject then getD tc "function" tc else .obj []
  if fn.isObject then
    let args :=
      match getD fn "arguments" (.str "") with
      | .str s => s
      | j => py.dumps j
    some ("<tool_call>\n\x7b\"name\": \"" ++ py.str (getD fn "name" (.str "")) ++
      "\", \"arguments\": " ++ args ++ "\x7d\n</tool_call>")
  else none

/-- The content of an assistant message in front of its calls. -/
def contentPart : Json → List String
  | .str s => if s = "" then [] else [s]
  | _ => []

def flattenMessageForRuntime? (py : PyText) (msg : Json) : Option Json :=
  if msg.isObject then
    if get msg "role" = .str "tool" then
      some (.obj [("role", .str "user"),
        ("content", .str ("<tool_response>\n" ++ py.str (getD msg "content" (.str "")) ++
          "\n</tool_response>"))])
    else if get msg "role" = .str "assistant" ∧ truthy (get msg "tool_calls") then do
      let calls ← iterItems? (get msg "tool_calls")
      let texts ← calls.mapM (toolCallText? py)
      some (.obj [("role", .str "assistant"),
        ("content", .str ("\n".intercalate (contentPart (get msg "content") ++ texts)))])
    else some msg
  else none

/-- What one item of a system message's content adds in front of the tools. -/
def existingItem? (py : PyText) (p : Json) : Option String :=
  match p with
  | .obj _ =>
      match getD p "text" (.str "") with
      | .str s => some s
      | _ => none
  | _ => some (py.str p)

/-- The text of a system message's content that is kept in front of the tools. -/
def existingSystem? (py : PyText) : Json → Option String
  | .str s => some s
  | .arr items => (items.mapM (existingItem? py)).map concat
  | _ => some ""

/-- A system message with a text of the server's. -/
def systemMessage (text : String) : Json :=
  .obj [("role", .str "system"), ("content", .str text)]

def injectToolsAndNormalize? (py : PyText) (messages : List Json) (tools : Json) :
    Option (List Json) := do
  let flat ← messages.mapM (flattenMessageForRuntime? py)
  if truthy tools then
    match flat with
    | first :: rest =>
        if get first "role" = .str "system" then do
          let existing ← existingSystem? py (getD first "content" (.str ""))
          let rendered ← renderToolsSystemBlock? py tools existing
          some (systemMessage rendered :: rest)
        else do
          let rendered ← renderToolsSystemBlock? py tools ""
          some (systemMessage rendered :: first :: rest)
    | [] => do
        let rendered ← renderToolsSystemBlock? py tools ""
        some [systemMessage rendered]
  else some flat

end Tools

section Formatting

/-- The text of one item of a message's content. -/
def contentItemText? (item : Json) : Option String :=
  match item with
  | .str s => some s
  | .obj _ =>
      if getD item "type" (.str "text") = .str "text" then
        match getD item "text" (.str "") with
        | .str s => some s
        | _ => none
      else none
  | _ => none

/-- `_message_content_to_text` of the content. -/
def contentText? : Json → Option String
  | .str s => some s
  | .arr items => (items.mapM contentItemText?).map concat
  | _ => none

def messageContentToText? (message : Json) : Option String :=
  contentText? (getD message "content" (.str ""))

/-- The texts around a message, if the template knows its role. -/
def ChatTemplate.roleOf? (T : ChatTemplate) (message : Json) : Option RoleTemplate :=
  match getD message "role" (.str "") with
  | .str role => T.roles.lookup role
  | _ => none

/-- One message between the texts of its role. -/
def ChatTemplate.formatMessage? (T : ChatTemplate) (message : Json) : Option String :=
  if message.isObject then do
    let role ← T.roleOf? message
    let text ← messageContentToText? message
    some (role.rolePrefix ++ text ++ role.roleSuffix)
  else none

def ChatTemplate.generation (T : ChatTemplate) (enableThinking : Bool) : String :=
  if enableThinking && T.generationPromptThinking != "" then T.generationPromptThinking
  else T.generationPrompt

def ChatTemplate.formatMessages? (T : ChatTemplate) (messages : List Json)
    (addGenerationPrompt enableThinking : Bool) : Option String := do
  let chunks ← messages.mapM T.formatMessage?
  some (concat chunks ++ if addGenerationPrompt then T.generation enableThinking else "")

/-- The texts around a system prompt; both are empty without the role. -/
def ChatTemplate.systemRole (T : ChatTemplate) : RoleTemplate :=
  (T.roles.lookup "system").getD ⟨"", ""⟩

def ChatTemplate.formatSystemPrompt (T : ChatTemplate) (systemPrompt : String) : String :=
  T.systemRole.rolePrefix ++ systemPrompt ++ T.systemRole.roleSuffix

/-- What one item of a system message's content adds to a bare system prompt:
only items whose type is given as text count. -/
def typedItemText? (item : Json) : Option String :=
  match item with
  | .str s => some s
  | .obj _ =>
      if get item "type" = .str "text" then
        match getD item "text" (.str "") with
        | .str s => some s
        | _ => none
      else some ""
  | _ => some ""

/-- The system prompt read from a leading system message. -/
def systemPromptOf? : Json → Option String
  | .str s => some s
  | .arr items => (items.mapM typedItemText?).map concat
  | _ => some ""

def ChatTemplate.formatSystemPromptFromMessages? (T : ChatTemplate) (messages : List Json) :
    Option String :=
  match messages with
  | [] => some ""
  | m :: _ =>
      if m.isObject then
        if get m "role" = .str "system" then
          (systemPromptOf? (getD m "content" (.str ""))).map T.formatSystemPrompt
        else some ""
      else none

/-- The two texts of a request for the prefix cache. -/
structure FormattedRequest where
  formattedSystemPrompt : String
  formattedCompleteRequest : String
  deriving DecidableEq

def ChatTemplate.makePrefixFormattedRequest? (T : ChatTemplate)
    (prefixMessages suffixMessages : List Json) (enableThinking : Bool) :
    Option FormattedRequest := do
  let formattedPrefix ← T.formatMessages? prefixMessages false enableThinking
  let formattedSuffix ← T.formatMessages? suffixMessages true enableThinking
  some ⟨formattedPrefix, formattedPrefix ++ formattedSuffix⟩

end Formatting

section Lemmas
variable {py : PyText} {T : ChatTemplate}

@[simp] theorem concat_append (a b : List String) : concat (a ++ b) = concat a ++ concat b := by
  induction a with
  | nil => simp [concat]
  | cons s ss ih => simp [concat, ih, String.append_assoc]

/-- Mapping a fallible function over two lists in a row. -/
theorem mapM_append_eq_some {α β : Type} {f : α → Option β} {a b : List α} {r : List β} :
    (a ++ b).mapM f = some r ↔
      ∃ x y, a.mapM f = some x ∧ b.mapM f = some y ∧ r = x ++ y := by
  rw [List.mapM_append]
  cases a.mapM f with
  | none => simp
  | some x => cases b.mapM f <;> simp [eq_comm]

/-- A message is formatted only when the template knows its role. -/
theorem formatMessage?_eq_some {m : Json} {s : String} :
    T.formatMessage? m = some s ↔ m.isObject = true ∧ ∃ role text, T.roleOf? m = some role ∧
      messageContentToText? m = some text ∧ s = role.rolePrefix ++ text ++ role.roleSuffix := by
  rw [ChatTemplate.formatMessage?]
  by_cases hm : m.isObject
  · rw [if_pos hm]
    cases T.roleOf? m with
    | none => simp
    | some role => cases messageContentToText? m <;> simp [hm, eq_comm]
  · rw [if_neg hm]
    simp [hm]

theorem formatMessages?_eq_some {messages : List Json} {add thinking : Bool} {s : String} :
    T.formatMessages? messages add thinking = some s ↔
      ∃ chunks, messages.mapM T.formatMessage? = some chunks ∧
        s = concat chunks ++ if add then T.generation thinking else "" := by
  rw [ChatTemplate.formatMessages?]
  cases messages.mapM T.formatMessage? <;> simp [eq_comm]

/-- Formatting two lists of messages in a row joins their texts. -/
theorem formatMessages?_append (thinking' : Bool) {a b : List Json} {add thinking : Bool}
    {s : String} :
    T.formatMessages? (a ++ b) add thinking = some s ↔
      ∃ x y, T.formatMessages? a false thinking' = some x ∧
        T.formatMessages? b add thinking = some y ∧ s = x ++ y := by
  simp only [formatMessages?_eq_some, mapM_append_eq_some]
  constructor
  · rintro ⟨_, ⟨x, y, hx, hy, rfl⟩, rfl⟩
    exact ⟨_, _, ⟨x, hx, rfl⟩, ⟨y, hy, rfl⟩, by simp [String.append_assoc]⟩
  · rintro ⟨_, _, ⟨x, hx, rfl⟩, ⟨y, hy, rfl⟩, rfl⟩
    exact ⟨_, ⟨x, y, hx, hy, rfl⟩, by simp [String.append_assoc]⟩

theorem formatMessages?_singleton (thinking : Bool) {m : Json} {s : String} :
    T.formatMessages? [m] false thinking = some s ↔ T.formatMessage? m = some s := by
  rw [ChatTemplate.formatMessages?, List.mapM_cons, List.mapM_nil]
  cases T.formatMessage? m <;> simp [concat]

/-- The complete request is the formatting of both lists with the generation prompt. -/
theorem makePrefixFormattedRequest?_eq_some {a b : List Json} {thinking : Bool}
    {r : FormattedRequest} :
    T.makePrefixFormattedRequest? a b thinking = some r ↔
      T.formatMessages? a false thinking = some r.formattedSystemPrompt ∧
      ∃ s, T.formatMessages? b true thinking = some s ∧
        r.formattedCompleteRequest = r.formattedSystemPrompt ++ s := by
  rw [ChatTemplate.makePrefixFormattedRequest?]
  cases T.formatMessages? a false thinking with
  | none => simp
  | some x =>
      obtain ⟨p, c⟩ := r
      cases T.formatMessages? b true thinking with
      | none => simp
      | some y =>
          simp only [Option.bind_eq_bind, Option.bind_some, Option.some.injEq,
            FormattedRequest.mk.injEq, exists_eq_left']
          constructor
          · rintro ⟨rfl, rfl⟩
            exact ⟨rfl, rfl⟩
          · rintro ⟨rfl, rfl⟩
            exact ⟨rfl, rfl⟩

@[simp] theorem role_obj (role content : Json) :
    get (.obj [("role", role), ("content", content)]) "role" = role := by
  simp [get, getD, Json.field?]

@[simp] theorem content_obj (role content d : Json) :
    getD (.obj [("role", role), ("content", content)]) "content" d = content := by
  simp [getD, Json.field?, List.lookup_cons]

/-- A value that is given and not null is what `get` with any default returns. -/
theorem getD_of_get {j : Json} {key : String} (d : Json) (h : get j key ≠ .null) :
    getD j key d = get j key := by
  rw [get, getD, getD]
  cases hf : j.field? key with
  | none => simp [get, getD, hf] at h
  | some v => rfl

theorem roleOf?_of_system {m : Json} (hr : get m "role" = .str "system") :
    T.roleOf? m = T.roles.lookup "system" := by
  rw [ChatTemplate.roleOf?, getD_of_get _ (by simp [hr]), hr]

/-- A system message is not rewritten for the runtime. -/
theorem flatten_of_system {m : Json} (hm : m.isObject = true)
    (hr : get m "role" = .str "system") : flattenMessageForRuntime? py m = some m := by
  rw [flattenMessageForRuntime?, if_pos hm, hr]
  simp

/-- A message that is rewritten is an object, and only a system message becomes one. -/
theorem role_of_flatten {m m' : Json} (h : flattenMessageForRuntime? py m = some m') :
    m.isObject = true ∧ (get m' "role" = .str "system" → m' = m) := by
  rw [flattenMessageForRuntime?] at h
  split at h
  · rename_i hobj
    refine ⟨hobj, ?_⟩
    split at h
    · cases h
      simp
    · split at h
      · obtain ⟨calls, -, h⟩ := Option.bind_eq_some_iff.mp h
        obtain ⟨texts, -, h⟩ := Option.bind_eq_some_iff.mp h
        cases h
        simp
      · cases h
        exact fun _ => rfl
  · cases h

end Lemmas

end JetsonVoice.Server.Prompt
