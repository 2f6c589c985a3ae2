import JetsonVoice.Server.ChatTemplate

/-!
# Prompts warmed up for the prefix cache

`/v1/cache/system_prompt` formats a prompt and caches its state in the runtime;
`/v1/chat/completions` formats a conversation and hits the cache when the cached
prompt is a prefix of it. The warm-up builds its prompt in one of several ways.

## Implementation notes

`none` stands for a request that is answered with an error. The converse
direction separates two texts by a template that ends a system message with a
character at which they differ.
-/

namespace JetsonVoice.Server.Prompt

open Foundation

section Endpoints

/-- `body.get("tools") or None`. -/
def toolsOf (body : Json) : Json :=
  if truthy (get body "tools") then get body "tools" else .null

/-- The messages of a request that sends a list of them. -/
def messageList (body : Json) : List Json :=
  match get body "messages" with
  | .arr ms => ms
  | _ => []

/-- Messages ready for the runtime, as both endpoints prepare them. -/
def runtimeMessages? (py : PyText) (tools : Json) (messages : List Json) : Option (List Json) :=
  if truthy tools then injectToolsAndNormalize? py messages tools
  else messages.mapM (flattenMessageForRuntime? py)

/-- A caller's text; the runtime takes strings only. -/
def callerText? : Json → Option String
  | .str s => some s
  | _ => none

def buildPrefixFormattedRequest? (T : ChatTemplate) (body : Json) (messages : List Json)
    (enableThinking : Bool) : Option FormattedRequest :=
  if truthy (get body "formatted_prefix") && truthy (get body "formatted_complete_request") then do
    let p ← callerText? (get body "formatted_prefix")
    let c ← callerText? (get body "formatted_complete_request")
    some ⟨p, c⟩
  else if get body "prefix_messages" ≠ .null then
    match get body "prefix_messages" with
    | .arr prefixMessages => T.makePrefixFormattedRequest? prefixMessages messages enableThinking
    | _ => none
  else if messages.length < 2 then none
  else
    T.makePrefixFormattedRequest? messages.dropLast (messages.drop (messages.length - 1))
      enableThinking

/-- The branch for two or more messages. -/
def promptOfMessages? (py : PyText) (T : ChatTemplate) (body : Json) : Option String := do
  let msgs ← runtimeMessages? py (toolsOf body) (messageList body)
  let formatted ← buildPrefixFormattedRequest? T body msgs (truthy (get body "enable_thinking"))
  some formatted.formattedSystemPrompt

/-- `body.get("system_prompt", "") or ""`. -/
def systemText (body : Json) : Json :=
  if truthy (getD body "system_prompt" (.str "")) then getD body "system_prompt" (.str "")
  else .str ""

/-- The branch for a system prompt, for tools, or for both. -/
def promptOfSystemPrompt? (py : PyText) (T : ChatTemplate) (body : Json) : Option String :=
  if truthy (toolsOf body) then do
    let injected ← injectToolsAndNormalize? py
      [.obj [("role", .str "system"), ("content", systemText body)]] (toolsOf body)
    T.formatMessages? injected false false
  else some (T.formatSystemPrompt (py.str (getD body "system_prompt" (.str ""))))

/-- The leading system block of prepared messages, or all of them without one. -/
def leadingBlock : List Json → List Json
  | m :: ms => if get m "role" = .str "system" then [m] else m :: ms
  | [] => []

/-- The branch for a shorter list of messages. Its case for tools is never
reached, since the branch before it takes every request with tools. -/
def promptOfShortMessages? (py : PyText) (T : ChatTemplate) (body : Json) : Option String :=
  match get body "messages" with
  | .arr messages =>
      if truthy (toolsOf body) then do
        let injected ← injectToolsAndNormalize? py messages (toolsOf body)
        T.formatMessages? (leadingBlock injected) false false
      else T.formatSystemPromptFromMessages? messages
  | _ => none

/-- The prompt of a warm-up; it is empty when the request has nothing to build it from. -/
def warmUpPrompt? (py : PyText) (T : ChatTemplate) (body : Json) : Option String :=
  if truthy (get body "formatted_system_prompt") then
    callerText? (get body "formatted_system_prompt")
  else if truthy (get body "formatted_prefix") then callerText? (get body "formatted_prefix")
  else if truthy (get body "prompt") then callerText? (get body "prompt")
  else if 2 ≤ (messageList body).length then promptOfMessages? py T body
  else if get body "system_prompt" ≠ .null ∨ truthy (toolsOf body) then
    promptOfSystemPrompt? py T body
  else if truthy (get body "messages") then promptOfShortMessages? py T body
  else some ""

/-- The prompt that `/v1/cache/system_prompt` hands to the runtime's cache. -/
def cacheSystemPrompt? (py : PyText) (T : ChatTemplate) (body : Json) : Option String := do
  let prompt ← warmUpPrompt? py T body
  if prompt = "" then none else some prompt

/-- `prefix_cache`, which follows `save_prefix_cache` when it is not given. -/
def prefixCacheOn (body : Json) : Bool :=
  truthy (getD body "prefix_cache" (getD body "save_prefix_cache" (.bool false)))

/-- The texts `/v1/chat/completions` formats for the prefix cache. -/
def chatFormattedRequest? (py : PyText) (T : ChatTemplate) (body : Json) :
    Option FormattedRequest :=
  match messageList body with
  | [] => none
  | m :: ms => do
      let messages ← runtimeMessages? py (toolsOf body) (m :: ms)
      if prefixCacheOn body then
        buildPrefixFormattedRequest? T body messages (truthy (get body "enable_thinking"))
      else some ⟨"", ""⟩

end Endpoints

section Specification

/-- The warm-up builds its prompt itself: nothing formatted comes from the caller. -/
structure BuildsItself (body : Json) : Prop where
  noSystemPrompt : truthy (get body "formatted_system_prompt") = false
  noPrefix : truthy (get body "formatted_prefix") = false
  noPrompt : truthy (get body "prompt") = false
  noPrefixMessages : get body "prefix_messages" = .null

/-- A conversation formatted for the prefix cache from its messages alone. -/
structure PlainChat (body : Json) : Prop where
  on : prefixCacheOn body = true
  noFormatted : (truthy (get body "formatted_prefix") &&
    truthy (get body "formatted_complete_request")) = false
  noPrefixMessages : get body "prefix_messages" = .null

/-- The leading system message of a request. -/
def leadingSystem? (body : Json) : Option Json :=
  match messageList body with
  | m :: _ => if get m "role" = .str "system" then some m else none
  | [] => none

/-- The conversation begins with what was warmed up: all but the last of two or
more messages, a system message with the system prompt, the same leading system
message, or none with text when the warm-up had none. -/
def SameStart (body chat : Json) : Prop :=
  if 2 ≤ (messageList body).length then (messageList body).dropLast <+: messageList chat
  else if get body "system_prompt" ≠ .null then
    ∃ m, leadingSystem? chat = some m ∧ getD m "content" (.str "") = get body "system_prompt"
  else
    match leadingSystem? body with
    | some m => leadingSystem? chat = some m
    | none => ∀ m, leadingSystem? chat = some m → getD m "content" (.str "") = .str ""

/-- A later conversation for which the warm-up was made. -/
structure Continues (body chat : Json) : Prop where
  plain : PlainChat chat
  sameTools : toolsOf chat = toolsOf body
  sameStart : SameStart body chat

/-- Whatever the template, the cached prompt is a prefix of every conversation
that continues the warm-up. -/
def Serves (py : PyText) (body : Json) : Prop :=
  ∀ T chat cached r, Continues body chat → cacheSystemPrompt? py T body = some cached →
    chatFormattedRequest? py T chat = some r → ∃ rest, r.formattedCompleteRequest = cached ++ rest

/-- The complete request is the formatting of the prepared conversation. -/
def FormatsWhole (py : PyText) (chat : Json) : Prop :=
  ∀ T r, chatFormattedRequest? py T chat = some r →
    ∃ ms, runtimeMessages? py (toolsOf chat) (messageList chat) = some ms ∧
      T.formatMessages? ms true (truthy (get chat "enable_thinking")) =
        some r.formattedCompleteRequest

/-- The items of a message's content, when it is a list. -/
def contentItems (m : Json) : List Json :=
  match getD m "content" (.str "") with
  | .arr items => items
  | _ => []

/-- An object without a type adds no text. -/
def TypedOrSilent (item : Json) : Prop :=
  item.isObject = true → item.contains "type" = true ∨ getD item "text" (.str "") = .str ""

/-- What the warm-up has to read the way the conversation does. -/
def ReadAlike (py : PyText) (body : Json) : Prop :=
  if 2 ≤ (messageList body).length then True
  else if get body "system_prompt" ≠ .null then
    truthy (toolsOf body) = true ∨ ∀ text, contentText? (get body "system_prompt") = some text →
      text = py.str (get body "system_prompt")
  else
    ∀ m, leadingSystem? body = some m →
      if truthy (toolsOf body) then
        (iterItems? (toolsOf body)).isSome = true →
          ∀ text, existingSystem? py (getD m "content" (.str "")) = some text → text = ""
      else (messageContentToText? m).isSome = true → ∀ item ∈ contentItems m, TypedOrSilent item

end Specification

section Preparation
variable {py : PyText} {T : ChatTemplate} {tools : Json}

/-- What the first message of a list becomes, with the tools' block in front of it
or in its place. -/
def preparedHead? (py : PyText) (tools m : Json) : Option (List Json) := do
  let first ← flattenMessageForRuntime? py m
  if truthy tools then
    if get first "role" = .str "system" then do
      let existing ← existingSystem? py (getD first "content" (.str ""))
      let rendered ← renderToolsSystemBlock? py tools existing
      some [systemMessage rendered]
    else do
      let rendered ← renderToolsSystemBlock? py tools ""
      some [systemMessage rendered, first]
  else some [first]

/-- Only the first message is prepared in its own way. -/
theorem inject_cons {m : Json} {ms r : List Json} :
    injectToolsAndNormalize? py (m :: ms) tools = some r ↔
      ∃ head rest, preparedHead? py tools m = some head ∧
        ms.mapM (flattenMessageForRuntime? py) = some rest ∧ r = head ++ rest := by
  rw [injectToolsAndNormalize?, preparedHead?, List.mapM_cons]
  cases flattenMessageForRuntime? py m with
  | none => simp
  | some first =>
      cases ms.mapM (flattenMessageForRuntime? py) with
      | none => simp
      | some rest =>
          by_cases ht : truthy tools = true
          · by_cases hr : get first "role" = .str "system"
            · cases he : existingSystem? py (getD first "content" (.str "")) with
              | none => simp [ht, hr, he]
              | some existing =>
                  cases hx : renderToolsSystemBlock? py tools existing <;>
                    simp [ht, hr, he, hx, eq_comm]
            · cases renderToolsSystemBlock? py tools "" with
              | none => simp [ht, hr]
              | some rendered =>
                  simp [ht, hr]
                  exact eq_comm
          · simp [ht, eq_comm]

/-- Without tools both ways to prepare messages are the same. -/
theorem runtimeMessages?_eq (py : PyText) (tools : Json) (messages : List Json) :
    runtimeMessages? py tools messages = injectToolsAndNormalize? py messages tools := by
  rw [runtimeMessages?]
  split
  · rfl
  · rename_i ht
    rw [injectToolsAndNormalize?]
    cases messages.mapM (flattenMessageForRuntime? py) <;> simp [ht]

theorem runtimeMessages?_cons {m : Json} {ms r : List Json} :
    runtimeMessages? py tools (m :: ms) = some r ↔
      ∃ head rest, preparedHead? py tools m = some head ∧
        ms.mapM (flattenMessageForRuntime? py) = some rest ∧ r = head ++ rest := by
  rw [runtimeMessages?_eq, inject_cons]

/-- More messages at the end are flattened one by one. -/
theorem runtimeMessages?_append {m : Json} {ms more r : List Json} :
    runtimeMessages? py tools (m :: ms ++ more) = some r ↔
      ∃ a b, runtimeMessages? py tools (m :: ms) = some a ∧
        more.mapM (flattenMessageForRuntime? py) = some b ∧ r = a ++ b := by
  rw [List.cons_append, runtimeMessages?_cons]
  simp only [runtimeMessages?_cons, mapM_append_eq_some]
  constructor
  · rintro ⟨head, _, hh, ⟨x, y, hx, hy, rfl⟩, rfl⟩
    exact ⟨head ++ x, y, ⟨head, x, hh, hx, rfl⟩, hy, by simp⟩
  · rintro ⟨_, y, ⟨head, x, hh, hx, rfl⟩, hy, rfl⟩
    exact ⟨head, x ++ y, hh, ⟨x, y, hx, hy, rfl⟩, by simp⟩

/-- A leading system message keeps its place; its text goes in front of the tools. -/
theorem preparedHead?_of_system {m : Json} {head : List Json} (hm : m.isObject = true)
    (hr : get m "role" = .str "system") :
    preparedHead? py tools m = some head ↔
      if truthy tools then
        ∃ existing rendered, existingSystem? py (getD m "content" (.str "")) = some existing ∧
          renderToolsSystemBlock? py tools existing = some rendered ∧
          head = [systemMessage rendered]
      else head = [m] := by
  rw [preparedHead?, flatten_of_system hm hr]
  split
  · cases he : existingSystem? py (getD m "content" (.str "")) with
    | none => simp [hr, he]
    | some existing =>
        cases hx : renderToolsSystemBlock? py tools existing <;> simp [hr, he, hx, eq_comm]
  · simp [eq_comm]

/-- Without text of a system message, the tools' block alone comes first. -/
theorem preparedHead?_of_silent {m : Json} {head : List Json} (ht : truthy tools = true)
    (hm : get m "role" = .str "system" → getD m "content" (.str "") = .str "")
    (h : preparedHead? py tools m = some head) :
    ∃ rendered more, renderToolsSystemBlock? py tools "" = some rendered ∧
      head = systemMessage rendered :: more := by
  rw [preparedHead?] at h
  obtain ⟨first, hf, h⟩ := Option.bind_eq_some_iff.mp h
  rw [if_pos ht] at h
  split at h
  · rename_i hr
    have hfm := (role_of_flatten hf).2 hr
    obtain ⟨existing, he, hrest⟩ := Option.bind_eq_some_iff.mp h
    obtain ⟨rendered, hx, hhead⟩ := Option.bind_eq_some_iff.mp hrest
    rw [hfm, hm (hfm ▸ hr)] at he
    cases he
    cases hhead
    exact ⟨rendered, [], hx, rfl⟩
  · obtain ⟨rendered, hx, h⟩ := Option.bind_eq_some_iff.mp h
    cases h
    exact ⟨rendered, [first], hx, rfl⟩

end Preparation

section Chat
variable {py : PyText} {T : ChatTemplate} {chat : Json} {r : FormattedRequest}

/-- A plain conversation's messages are cut before the last one. -/
theorem chatFormattedRequest?_eq (hp : PlainChat chat) {m : Json} {ms : List Json}
    (hm : messageList chat = m :: ms) :
    chatFormattedRequest? py T chat =
      (runtimeMessages? py (toolsOf chat) (m :: ms)).bind fun prepared =>
        if prepared.length < 2 then none
        else T.makePrefixFormattedRequest? prepared.dropLast
          (prepared.drop (prepared.length - 1)) (truthy (get chat "enable_thinking")) := by
  have hbuild (prepared : List Json) :
      buildPrefixFormattedRequest? T chat prepared (truthy (get chat "enable_thinking")) =
        if prepared.length < 2 then none
        else T.makePrefixFormattedRequest? prepared.dropLast
          (prepared.drop (prepared.length - 1)) (truthy (get chat "enable_thinking")) := by
    rw [buildPrefixFormattedRequest?, hp.noFormatted, if_neg (by simp),
      if_neg (by simp [hp.noPrefixMessages])]
  rw [chatFormattedRequest?, hm]
  simp only [hp.on, if_true, hbuild]
  rfl

theorem dropLast_append_drop {α : Type} (l : List α) : l.dropLast ++ l.drop (l.length - 1) = l := by
  rw [List.dropLast_eq_take, List.take_append_drop]

/-- The complete request of a plain conversation is its formatting as a whole. -/
theorem complete_of_chat (hp : PlainChat chat) (h : chatFormattedRequest? py T chat = some r) :
    ∃ m ms prepared, messageList chat = m :: ms ∧
      runtimeMessages? py (toolsOf chat) (m :: ms) = some prepared ∧
      T.formatMessages? prepared true (truthy (get chat "enable_thinking")) =
        some r.formattedCompleteRequest := by
  cases hm : messageList chat with
  | nil => simp [chatFormattedRequest?, hm] at h
  | cons m ms =>
      rw [chatFormattedRequest?_eq hp hm] at h
      obtain ⟨prepared, hprep, h⟩ := Option.bind_eq_some_iff.mp h
      split at h
      · cases h
      · obtain ⟨hp, s, hs, hr⟩ := makePrefixFormattedRequest?_eq_some.mp h
        refine ⟨m, ms, prepared, rfl, hprep, ?_⟩
        rw [← dropLast_append_drop prepared]
        exact (formatMessages?_append _).mpr ⟨_, s, hp, hs, hr⟩

/-- A conversation of at least two prepared messages that can be formatted is. -/
theorem chat_of_complete (hp : PlainChat chat) {m : Json} {ms prepared : List Json} {c : String}
    (hm : messageList chat = m :: ms)
    (hprep : runtimeMessages? py (toolsOf chat) (m :: ms) = some prepared)
    (hlen : 2 ≤ prepared.length)
    (hc : T.formatMessages? prepared true (truthy (get chat "enable_thinking")) = some c) :
    ∃ r, chatFormattedRequest? py T chat = some r ∧ r.formattedCompleteRequest = c := by
  rw [← dropLast_append_drop prepared] at hc
  obtain ⟨x, y, hx, hy, rfl⟩ :=
    (formatMessages?_append (truthy (get chat "enable_thinking"))).mp hc
  refine ⟨⟨x, x ++ y⟩, ?_, rfl⟩
  rw [chatFormattedRequest?_eq hp hm, hprep, Option.bind_some, if_neg (by omega)]
  exact makePrefixFormattedRequest?_eq_some.mpr ⟨hx, y, hy, rfl⟩

/-- A system prompt, the cached one or the first message, in front of a conversation. -/
theorem complete_of_append {a b : List Json} {cached : String} {thinking thinking' : Bool}
    (hc : T.formatMessages? a false thinking' = some cached)
    (h : T.formatMessages? (a ++ b) true thinking = some r.formattedCompleteRequest) :
    ∃ rest, r.formattedCompleteRequest = cached ++ rest := by
  obtain ⟨x, y, hx, -, hr⟩ := (formatMessages?_append _).mp h
  rw [hc] at hx
  cases hx
  exact ⟨y, hr⟩

end Chat

section WarmUp
variable {py : PyText} {T : ChatTemplate} {body : Json} {cached : String}

/-- The branches of a warm-up that builds its prompt itself. -/
theorem warmUpPrompt?_eq (hb : BuildsItself body) :
    warmUpPrompt? py T body =
      if 2 ≤ (messageList body).length then promptOfMessages? py T body
      else if get body "system_prompt" ≠ .null ∨ truthy (toolsOf body) then
        promptOfSystemPrompt? py T body
      else if truthy (get body "messages") then promptOfShortMessages? py T body
      else some "" := by
  rw [warmUpPrompt?, hb.noSystemPrompt, hb.noPrefix, hb.noPrompt]
  simp

theorem cacheSystemPrompt?_eq_some :
    cacheSystemPrompt? py T body = some cached ↔
      warmUpPrompt? py T body = some cached ∧ cached ≠ "" := by
  rw [cacheSystemPrompt?]
  cases warmUpPrompt? py T body with
  | none => simp
  | some prompt =>
      by_cases hp : prompt = ""
      · simp [hp]
      · simp [hp]
        rintro rfl
        exact hp

/-- The prompt made from messages is the formatting of all of them but the last. -/
theorem formatted_of_promptOfMessages? (hb : BuildsItself body)
    (h : promptOfMessages? py T body = some cached) :
    ∃ msgs thinking, runtimeMessages? py (toolsOf body) (messageList body) = some msgs ∧
      T.formatMessages? msgs.dropLast false thinking = some cached := by
  obtain ⟨msgs, hmsgs, h⟩ := Option.bind_eq_some_iff.mp h
  obtain ⟨r, hr, h⟩ := Option.bind_eq_some_iff.mp h
  refine ⟨msgs, truthy (get body "enable_thinking"), hmsgs, ?_⟩
  rw [buildPrefixFormattedRequest?, hb.noPrefix, if_neg (by simp),
    if_neg (by simp [hb.noPrefixMessages])] at hr
  split at hr
  · cases hr
  · rw [(makePrefixFormattedRequest?_eq_some.mp hr).1]
    exact h

theorem truthy_of_toolsOf (body : Json) :
    truthy (toolsOf body) = truthy (get body "tools") := by
  rw [toolsOf]
  split
  · rfl
  · rename_i h
    simpa [truthy] using h

/-- A system prompt that counts as nothing has no text, and neither has a message with it. -/
theorem existingSystem?_systemText (h : get body "system_prompt" ≠ .null) :
    existingSystem? py (systemText body) = existingSystem? py (get body "system_prompt") := by
  rw [systemText, getD_of_get _ h]
  split
  · rfl
  · rename_i ht
    cases hs : get body "system_prompt" with
    | str s =>
        have hs' : s = "" := by simpa [truthy, hs] using ht
        rw [hs']
    | arr items =>
        have hi : items = [] := by simpa [truthy, hs] using ht
        rw [hi]
        simp [existingSystem?, concat]
    | _ => rfl

/-- Without a system prompt there is no text in front of the tools. -/
theorem existingSystem?_of_null (h : get body "system_prompt" = .null) :
    existingSystem? py (systemText body) = some "" := by
  have hnull : truthy (getD body "system_prompt" (.str "")) = false := by
    rw [getD]
    cases hf : body.field? "system_prompt" with
    | none => rfl
    | some v =>
        have hv : v = .null := by simpa [get, getD, hf] using h
        rw [hv]
        rfl
  rw [systemText, if_neg (by simp [hnull])]
  rfl

/-- The system block made for a warm-up with tools. -/
theorem formatted_of_promptOfSystemPrompt? (ht : truthy (toolsOf body) = true)
    (h : promptOfSystemPrompt? py T body = some cached) :
    ∃ existing rendered, existingSystem? py (systemText body) = some existing ∧
      renderToolsSystemBlock? py (toolsOf body) existing = some rendered ∧
      T.formatMessages? [systemMessage rendered] false false = some cached := by
  rw [promptOfSystemPrompt?, if_pos ht] at h
  obtain ⟨injected, hi, h⟩ := Option.bind_eq_some_iff.mp h
  obtain ⟨head, rest, hh, hrest, rfl⟩ := inject_cons.mp hi
  rw [preparedHead?_of_system rfl (role_obj _ _), if_pos ht] at hh
  obtain ⟨existing, rendered, he, hr, rfl⟩ := hh
  cases hrest
  exact ⟨existing, rendered, by rwa [content_obj] at he, hr, h⟩

/-- The prompt made from one message is its system prompt. -/
theorem formatted_of_promptOfShortMessages? (ht : truthy (toolsOf body) = false)
    (hne : cached ≠ "") (h : promptOfShortMessages? py T body = some cached) :
    ∃ m typed, leadingSystem? body = some m ∧
      systemPromptOf? (getD m "content" (.str "")) = some typed ∧
      cached = T.formatSystemPrompt typed := by
  rw [promptOfShortMessages?, ht] at h
  rw [leadingSystem?, messageList]
  cases hm : get body "messages" with
  | arr messages =>
      rw [hm] at h
      change T.formatSystemPromptFromMessages? messages = some cached at h
      cases messages with
      | nil =>
          cases h
          exact absurd rfl hne
      | cons m ms =>
          rw [ChatTemplate.formatSystemPromptFromMessages?] at h
          split at h
          · split at h
            · rename_i hr
              obtain ⟨typed, htyped, rfl⟩ := Option.map_eq_some_iff.mp h
              exact ⟨m, typed, if_pos hr, htyped, rfl⟩
            · cases h
              exact absurd rfl hne
          · cases h
  | _ =>
      rw [hm] at h
      cases h

end WarmUp

section Serving
variable {py : PyText} {T : ChatTemplate} {body chat : Json} {cached : String}
  {r : FormattedRequest}

theorem messageList_of_leadingSystem? {m : Json} (h : leadingSystem? body = some m) :
    ∃ ms, messageList body = m :: ms ∧ get m "role" = .str "system" ∧ m.isObject = true := by
  rw [leadingSystem?] at h
  split at h
  · rename_i m' ms hms
    split at h
    · rename_i hr
      cases h
      refine ⟨ms, hms, hr, ?_⟩
      cases m with
      | obj fields => rfl
      | _ => simp [get, getD, Json.field?] at hr
    · cases h
  · cases h

theorem systemRole_of_roleOf? {m : Json} {role : RoleTemplate}
    (hr : get m "role" = .str "system") (h : T.roleOf? m = some role) : T.systemRole = role := by
  rw [roleOf?_of_system hr] at h
  simp [ChatTemplate.systemRole, h]

/-- All but the last of the warm-up's messages, continued. -/
theorem serves_of_messages (hb : BuildsItself body) (hlen : 2 ≤ (messageList body).length)
    (hc : Continues body chat) (hcached : promptOfMessages? py T body = some cached)
    (h : chatFormattedRequest? py T chat = some r) :
    ∃ rest, r.formattedCompleteRequest = cached ++ rest := by
  obtain ⟨msgs, thinking, hmsgs, hfmt⟩ := formatted_of_promptOfMessages? hb hcached
  obtain ⟨m, ms, prepared, hlist, hprep, hcomplete⟩ := complete_of_chat hc.plain h
  have hstart := hc.sameStart
  rw [SameStart, if_pos hlen] at hstart
  obtain ⟨more, hmore⟩ := hstart
  obtain ⟨first, ws, last, hws⟩ :
      ∃ first ws last, messageList body = first :: ws ++ [last] := by
    cases hw : messageList body with
    | nil => simp [hw] at hlen
    | cons first rest =>
        rcases List.eq_nil_or_concat rest with rfl | ⟨ws, last, rfl⟩
        · simp [hw] at hlen
        · exact ⟨first, ws, last, by simp⟩
  have hdrop : (first :: ws ++ [last]).dropLast = first :: ws := List.dropLast_concat
  rw [hws, hdrop] at hmore
  rw [hws] at hmsgs
  obtain ⟨warm, b, hwarm, hb, rfl⟩ := runtimeMessages?_append.mp hmsgs
  rw [hc.sameTools, ← hlist, ← hmore] at hprep
  obtain ⟨warm', b', hwarm', -, rfl⟩ := runtimeMessages?_append.mp hprep
  rw [hwarm] at hwarm'
  cases hwarm'
  obtain ⟨l, rfl⟩ : ∃ l, b = [l] := by
    rw [List.mapM_cons, List.mapM_nil] at hb
    cases hl : flattenMessageForRuntime? py last with
    | none => simp [hl] at hb
    | some l =>
        rw [hl] at hb
        cases hb
        exact ⟨l, rfl⟩
  rw [List.dropLast_concat] at hfmt
  exact complete_of_append hfmt hcomplete

/-- The tools' block with a text in front of it leads the conversation that has them. -/
theorem serves_of_block {existing rendered : String} (hp : PlainChat chat)
    (ht : truthy (toolsOf chat) = true)
    (hr : renderToolsSystemBlock? py (toolsOf chat) existing = some rendered)
    (hcached : T.formatMessages? [systemMessage rendered] false false = some cached)
    (hstart : (∃ m, leadingSystem? chat = some m ∧
        ∀ text, existingSystem? py (getD m "content" (.str "")) = some text → text = existing) ∨
      existing = "" ∧ ∀ m, leadingSystem? chat = some m →
        getD m "content" (.str "") = .str "")
    (h : chatFormattedRequest? py T chat = some r) :
    ∃ rest, r.formattedCompleteRequest = cached ++ rest := by
  obtain ⟨m, ms, prepared, hlist, hprep, hcomplete⟩ := complete_of_chat hp h
  obtain ⟨head, tail, hhead, -, rfl⟩ := runtimeMessages?_cons.mp hprep
  obtain ⟨more, rfl⟩ : ∃ more, head = systemMessage rendered :: more := by
    obtain ⟨m', hm', he⟩ | ⟨rfl, hsilent⟩ := hstart
    · obtain ⟨ms', hlist', hrole, hobj⟩ := messageList_of_leadingSystem? hm'
      obtain ⟨rfl, -⟩ := List.cons.inj (hlist.symm.trans hlist')
      rw [preparedHead?_of_system hobj hrole, if_pos ht] at hhead
      obtain ⟨existing', rendered', he', hr', rfl⟩ := hhead
      rw [he existing' he', hr] at hr'
      cases hr'
      exact ⟨[], rfl⟩
    · have hm (hrole : get m "role" = .str "system") : getD m "content" (.str "") = .str "" :=
        hsilent m (by rw [leadingSystem?, hlist]; exact if_pos hrole)
      obtain ⟨rendered', more, hr', rfl⟩ := preparedHead?_of_silent ht hm hhead
      rw [hr] at hr'
      cases hr'
      exact ⟨more, rfl⟩
  rw [List.cons_append, ← List.singleton_append] at hcomplete
  exact complete_of_append hcached hcomplete

/-- A bare system prompt leads the conversation whose system message says the same. -/
theorem serves_of_prompt {m : Json} {text : String} (hp : PlainChat chat)
    (ht : truthy (toolsOf chat) = false) (hm : leadingSystem? chat = some m)
    (htext : ∀ text', messageContentToText? m = some text' → text' = text)
    (h : chatFormattedRequest? py T chat = some r) :
    ∃ rest, r.formattedCompleteRequest = T.formatSystemPrompt text ++ rest := by
  obtain ⟨m', ms, prepared, hlist, hprep, hcomplete⟩ := complete_of_chat hp h
  obtain ⟨head, tail, hhead, -, rfl⟩ := runtimeMessages?_cons.mp hprep
  obtain ⟨ms', hlist', hrole, hobj⟩ := messageList_of_leadingSystem? hm
  obtain ⟨rfl, -⟩ := List.cons.inj (hlist.symm.trans hlist')
  rw [preparedHead?_of_system hobj hrole, ht, if_neg (by simp)] at hhead
  obtain rfl := hhead
  obtain ⟨x, y, hx, -, hr⟩ := (formatMessages?_append false).mp hcomplete
  obtain ⟨-, role, text', hrole', htext', rfl⟩ :=
    formatMessage?_eq_some.mp ((formatMessages?_singleton _).mp hx)
  refine ⟨y, ?_⟩
  rw [hr, htext text' htext', ChatTemplate.formatSystemPrompt, systemRole_of_roleOf? hrole hrole']

/-- An item the conversation reads is read by the warm-up as the same text, or as no
text when its type is not given. -/
theorem typedItemText?_of_contentItemText? {item : Json} {text : String}
    (h : contentItemText? item = some text) :
    ∃ typed, typedItemText? item = some typed ∧ (typed = text ∨ typed = "") ∧
      (typed = text ↔ TypedOrSilent item) := by
  cases item with
  | str s => exact ⟨text, h, Or.inl rfl, by simp [TypedOrSilent, Json.isObject]⟩
  | obj fields =>
      rw [contentItemText?] at h
      split at h
      · rename_i htype
        cases htext : getD (.obj fields) "text" (.str "") with
        | str s =>
            rw [htext] at h
            cases h
            cases hf : (Json.obj fields).field? "type" with
            | some v =>
                have hv : get (.obj fields) "type" = .str "text" := by
                  simpa [get, getD, hf] using htype
                refine ⟨text, by simp [typedItemText?, hv, htext], Or.inl rfl, ?_⟩
                simp [TypedOrSilent, Json.contains, hf]
            | none =>
                have hv : get (.obj fields) "type" = .null := by simp [get, getD, hf]
                refine ⟨"", by simp [typedItemText?, hv], Or.inr rfl, ?_⟩
                simp [TypedOrSilent, Json.contains, hf, htext, Json.isObject, eq_comm]
        | _ => simp [htext] at h
      · cases h
  | _ => cases h

/-- Typed or silent items alone are read alike; an untyped text is missing in the warm-up. -/
theorem typedTexts_eq_iff {items : List Json} {texts : List String}
    (h : items.mapM contentItemText? = some texts) :
    ∃ typed, items.mapM typedItemText? = some typed ∧
      (concat typed).length ≤ (concat texts).length ∧
      (concat typed = concat texts ↔ ∀ item ∈ items, TypedOrSilent item) := by
  induction items generalizing texts with
  | nil =>
      cases h
      exact ⟨[], rfl, le_rfl, by simp⟩
  | cons item items ih =>
      rw [List.mapM_cons] at h
      obtain ⟨text, hitem, h⟩ := Option.bind_eq_some_iff.mp h
      obtain ⟨rest, hrest, h⟩ := Option.bind_eq_some_iff.mp h
      cases h
      obtain ⟨typed, htyped, hlen, hiff⟩ := ih hrest
      obtain ⟨t, ht, hcases, hitemiff⟩ := typedItemText?_of_contentItemText? hitem
      have hle : t.length ≤ text.length := by
        rcases hcases with rfl | rfl
        · exact le_rfl
        · simp
      refine ⟨t :: typed, by simp [List.mapM_cons, ht, htyped], ?_, ?_⟩
      · simp only [concat, String.length_append]
        omega
      · rw [List.forall_mem_cons, ← hiff, ← hitemiff, concat, concat]
        constructor
        · intro heq
          have hl := congrArg String.length heq
          simp only [String.length_append] at hl
          have ht : t = text := by
            rcases hcases with rfl | rfl
            · rfl
            · have h0 : text.length = 0 := by
                simp only [String.length_empty] at hl
                omega
              exact (String.length_eq_zero_iff.mp h0).symm
          subst ht
          exact ⟨rfl, String.append_right_inj _ |>.mp heq⟩
        · rintro ⟨rfl, heq⟩
          rw [heq]

/-- The system prompt the warm-up reads from a message is that of the conversation
exactly when its items are typed or silent. -/
theorem systemPromptOf?_eq_iff {m : Json} {text : String}
    (h : messageContentToText? m = some text) :
    ∃ typed, systemPromptOf? (getD m "content" (.str "")) = some typed ∧
      (typed = text ↔ ∀ item ∈ contentItems m, TypedOrSilent item) := by
  rw [messageContentToText?] at h
  rw [contentItems]
  cases hc : getD m "content" (.str "") with
  | str s =>
      rw [hc] at h
      exact ⟨text, h, by simp⟩
  | arr items =>
      rw [hc] at h
      obtain ⟨texts, htexts, rfl⟩ := Option.map_eq_some_iff.mp h
      obtain ⟨typed, htyped, -, hiff⟩ := typedTexts_eq_iff htexts
      exact ⟨concat typed, by simp [systemPromptOf?, htyped], hiff⟩
  | _ =>
      rw [hc] at h
      cases h

/-- The warm-up serves every conversation it was made for when it reads its
material the way the conversation does. -/
theorem serves_of_readAlike (hb : BuildsItself body) (hread : ReadAlike py body) :
    Serves py body := by
  intro T chat cached r hc hcached h
  obtain ⟨hwarm, hne⟩ := cacheSystemPrompt?_eq_some.mp hcached
  rw [warmUpPrompt?_eq hb] at hwarm
  have hstart := hc.sameStart
  rw [SameStart] at hstart
  rw [ReadAlike] at hread
  split at hwarm
  · rename_i hlen
    exact serves_of_messages hb hlen hc hwarm h
  · rename_i hlen
    rw [if_neg hlen] at hstart hread
    by_cases hsp : get body "system_prompt" = .null
    · rw [if_neg (by simp [hsp])] at hstart hread
      cases ht : truthy (toolsOf body) with
      | true =>
          rw [if_pos (Or.inr ht)] at hwarm
          obtain ⟨existing, rendered, he, hr, hfmt⟩ := formatted_of_promptOfSystemPrompt? ht hwarm
          rw [existingSystem?_of_null hsp] at he
          cases he
          have hitems : (iterItems? (toolsOf body)).isSome = true := by
            obtain ⟨items, hitems, -⟩ := Option.bind_eq_some_iff.mp hr
            simp [hitems]
          rw [← hc.sameTools] at ht hr
          apply serves_of_block hc.plain ht hr hfmt _ h
          cases hm : leadingSystem? body with
          | none =>
              rw [hm] at hstart
              exact Or.inr ⟨rfl, hstart⟩
          | some m =>
              rw [hm] at hstart
              have hsilent := hread m hm
              rw [← hc.sameTools, if_pos ht, hc.sameTools] at hsilent
              exact Or.inl ⟨m, hstart, hsilent hitems⟩
      | false =>
          rw [if_neg (by simp [hsp, ht])] at hwarm
          split at hwarm
          · obtain ⟨m, typed, hm, htyped, rfl⟩ :=
              formatted_of_promptOfShortMessages? ht hne hwarm
            rw [hm] at hstart
            have halike := hread m hm
            rw [if_neg (by simp [ht])] at halike
            rw [← hc.sameTools] at ht
            apply serves_of_prompt hc.plain ht hstart _ h
            intro text' htext'
            obtain ⟨typed', htyped', hiff⟩ := systemPromptOf?_eq_iff htext'
            rw [htyped] at htyped'
            cases htyped'
            exact (hiff.mpr (halike (by simp [htext']))).symm
          · cases hwarm
            exact absurd rfl hne
    · rw [if_pos hsp] at hstart hread
      obtain ⟨m, hm, hcontent⟩ := hstart
      rw [if_pos (Or.inl hsp)] at hwarm
      cases ht : truthy (toolsOf body) with
      | true =>
          obtain ⟨existing, rendered, he, hr, hfmt⟩ := formatted_of_promptOfSystemPrompt? ht hwarm
          rw [existingSystem?_systemText hsp, ← hcontent] at he
          rw [← hc.sameTools] at ht hr
          refine serves_of_block hc.plain ht hr hfmt (Or.inl ⟨m, hm, ?_⟩) h
          intro text htext
          rw [he] at htext
          exact (Option.some.inj htext).symm
      | false =>
          rw [promptOfSystemPrompt?, if_neg (by simp [ht]), getD_of_get _ hsp] at hwarm
          cases hwarm
          rw [← hc.sameTools] at ht
          apply serves_of_prompt hc.plain ht hm _ h
          intro text' htext'
          rw [messageContentToText?, hcontent] at htext'
          exact (hread.resolve_left (by simp [← hc.sameTools, ht])) text' htext'

end Serving

section Converse
variable {py : PyText} {body : Json}

/-- Texts that stay one a prefix of the other whatever character is put behind both
are the same. -/
theorem eq_of_marked {a b : String}
    (h : ∀ y : Char, ∃ rest, b ++ String.singleton y = a ++ String.singleton y ++ rest) :
    b = a := by
  have hl (y : Char) : ∃ rest, b.toList ++ [y] = a.toList ++ y :: rest := by
    obtain ⟨rest, hrest⟩ := h y
    refine ⟨rest.toList, ?_⟩
    have := congrArg String.toList hrest
    simpa using this
  rw [← String.toList_inj]
  rcases Nat.lt_or_ge a.toList.length b.toList.length with hlt | hge
  · -- The character behind `a` in `b` differs from one of two marks.
    have hat (y : Char) : b.toList[a.toList.length] = y := by
      obtain ⟨rest, hrest⟩ := hl y
      have hget := congrArg (fun l => l[a.toList.length]?) hrest
      simp only [List.getElem?_append_left hlt, List.getElem?_append_right (le_refl _)] at hget
      simpa [List.getElem?_eq_getElem hlt] using hget
    have := (hat 'a').symm.trans (hat 'b')
    simp at this
  · obtain ⟨rest, hrest⟩ := hl 'a'
    have hlen := congrArg List.length hrest
    simp only [List.length_append, List.length_cons, List.length_nil] at hlen
    exact (List.append_inj hrest (by omega)).1

/-- A template whose system messages end in a mark and whose other texts are empty. -/
def marked (y : Char) : ChatTemplate :=
  { roles := [("system", ⟨"", String.singleton y⟩), ("user", ⟨"", ""⟩)]
    generationPrompt := ""
    generationPromptThinking := "" }

/-- A user's message without text. -/
def emptyTurn : Json := .obj [("role", .str "user"), ("content", .str "")]

/-- A conversation of a system message and an empty turn, with the warm-up's tools. -/
def continuation (body m : Json) : Json :=
  .obj [("messages", .arr [m, emptyTurn]), ("tools", toolsOf body), ("prefix_cache", .bool true)]

theorem messageList_continuation (m : Json) :
    messageList (continuation body m) = [m, emptyTurn] := by
  simp [messageList, continuation, get, getD, Json.field?]

theorem toolsOf_continuation (m : Json) : toolsOf (continuation body m) = toolsOf body := by
  have ht : get (continuation body m) "tools" = toolsOf body := by
    simp [continuation, get, getD, Json.field?, List.lookup_cons]
  rw [toolsOf, ht]
  split
  · rfl
  · rename_i h
    rw [truthy_of_toolsOf] at h
    rw [toolsOf, if_neg h]

theorem plainChat_continuation (m : Json) : PlainChat (continuation body m) where
  on := by simp [prefixCacheOn, continuation, getD, Json.field?, List.lookup_cons, truthy]
  noFormatted := by simp [continuation, get, getD, Json.field?, List.lookup_cons, truthy]
  noPrefixMessages := by simp [continuation, get, getD, Json.field?, List.lookup_cons]

theorem leadingSystem?_continuation {m : Json} (hr : get m "role" = .str "system") :
    leadingSystem? (continuation body m) = some m := by
  rw [leadingSystem?, messageList_continuation]
  exact if_pos hr

theorem formatMessage?_marked {y : Char} {m : Json} {text : String} (hm : m.isObject = true)
    (hr : get m "role" = .str "system") (ht : messageContentToText? m = some text) :
    (marked y).formatMessage? m = some (text ++ String.singleton y) := by
  refine formatMessage?_eq_some.mpr ⟨hm, ⟨"", String.singleton y⟩, text, ?_, ht, by simp⟩
  rw [roleOf?_of_system hr]
  simp [marked]

/-- The conversation's complete request under a mark. -/
theorem chat_continuation {m m' : Json} {text : String} (y : Char)
    (hhead : preparedHead? py (toolsOf body) m = some [m']) (hm : m'.isObject = true)
    (hr : get m' "role" = .str "system") (ht : messageContentToText? m' = some text) :
    ∃ r, chatFormattedRequest? py (marked y) (continuation body m) = some r ∧
      r.formattedCompleteRequest = text ++ String.singleton y := by
  have hturn : [emptyTurn].mapM (flattenMessageForRuntime? py) = some [emptyTurn] := by
    simp [emptyTurn, flattenMessageForRuntime?, Json.isObject]
  have hprep : runtimeMessages? py (toolsOf (continuation body m)) (m :: [emptyTurn]) =
      some ([m'] ++ [emptyTurn]) :=
    runtimeMessages?_cons.mpr ⟨_, _, by rwa [toolsOf_continuation], hturn, rfl⟩
  refine chat_of_complete (plainChat_continuation m) (messageList_continuation m) hprep
    (by simp) ((formatMessages?_append false).mpr ⟨_, "", ?_, ?_, String.append_empty.symm⟩)
  · exact (formatMessages?_singleton false).mpr (formatMessage?_marked hm hr ht)
  · have hempty : (marked y).formatMessage? emptyTurn = some "" := by
      refine formatMessage?_eq_some.mpr ⟨rfl, ⟨"", ""⟩, "", ?_, ?_, by simp⟩
      · simp [ChatTemplate.roleOf?, marked, emptyTurn, getD, Json.field?, List.lookup_cons]
      · simp [messageContentToText?, emptyTurn, contentText?]
    refine formatMessages?_eq_some.mpr ⟨[""], by simp [hempty], ?_⟩
    simp [concat, ChatTemplate.generation, marked]

/-- What a served warm-up caches is what its conversation says. -/
theorem text_eq_of_serves (hs : Serves py body) {m m' : Json} {text text' : String}
    (hstart : SameStart body (continuation body m))
    (hhead : preparedHead? py (toolsOf body) m = some [m']) (hm : m'.isObject = true)
    (hr : get m' "role" = .str "system") (ht : messageContentToText? m' = some text)
    (hwarm : ∀ y, warmUpPrompt? py (marked y) body = some (text' ++ String.singleton y)) :
    text = text' := by
  apply eq_of_marked
  intro y
  obtain ⟨r, hr, hcomplete⟩ := chat_continuation y hhead hm hr ht
  rw [← hcomplete]
  refine hs (marked y) (continuation body m) _ r
    ⟨plainChat_continuation m, toolsOf_continuation m, hstart⟩ ?_ hr
  refine cacheSystemPrompt?_eq_some.mpr ⟨hwarm y, ?_⟩
  intro h
  have := congrArg String.length h
  simp at this

theorem formatSystemPrompt_marked (y : Char) (text : String) :
    (marked y).formatSystemPrompt text = text ++ String.singleton y := by
  have hrole : (marked y).systemRole = ⟨"", String.singleton y⟩ := by
    simp [ChatTemplate.systemRole, marked]
  simp [ChatTemplate.formatSystemPrompt, hrole]

/-- A text in front of the tools makes another block. -/
theorem eq_empty_of_block_eq {tools : Json} {text rendered : String}
    (h : renderToolsSystemBlock? py tools text = some rendered)
    (h' : renderToolsSystemBlock? py tools "" = some rendered) : text = "" := by
  obtain ⟨items, hitems, heq⟩ := Option.bind_eq_some_iff.mp h
  obtain ⟨items', hitems', heq'⟩ := Option.bind_eq_some_iff.mp h'
  rw [hitems] at hitems'
  cases hitems'
  by_contra hne
  rw [if_neg hne] at heq
  rw [if_pos rfl] at heq'
  have hlen := congrArg String.length (Option.some.inj (heq.trans heq'.symm))
  simp only [String.length_append] at hlen
  have hpos : 0 < text.length := Nat.pos_of_ne_zero fun h0 => hne (String.length_eq_zero_iff.mp h0)
  have hempty : ("" : String).length = 0 := rfl
  omega

theorem renderToolsSystemBlock?_isSome {tools : Json} (h : (iterItems? tools).isSome = true)
    (text : String) : ∃ rendered, renderToolsSystemBlock? py tools text = some rendered := by
  obtain ⟨items, hitems⟩ := Option.isSome_iff_exists.mp h
  rw [renderToolsSystemBlock?, hitems]
  exact ⟨_, rfl⟩

/-- Without a system prompt the tools are cached with no text in front of them. -/
theorem warmUpPrompt?_of_tools (hb : BuildsItself body)
    (hlen : ¬ 2 ≤ (messageList body).length) (hsp : get body "system_prompt" = .null)
    (ht : truthy (toolsOf body) = true) {rendered : String}
    (hr : renderToolsSystemBlock? py (toolsOf body) "" = some rendered) (y : Char) :
    warmUpPrompt? py (marked y) body = some (rendered ++ String.singleton y) := by
  rw [warmUpPrompt?_eq hb, if_neg hlen, if_pos (Or.inr ht), promptOfSystemPrompt?, if_pos ht]
  have hinj : injectToolsAndNormalize? py
      [.obj [("role", .str "system"), ("content", systemText body)]] (toolsOf body) =
        some ([systemMessage rendered] ++ []) := by
    refine inject_cons.mpr ⟨_, [], ?_, by simp, rfl⟩
    rw [preparedHead?_of_system rfl (role_obj _ _), if_pos ht]
    exact ⟨"", rendered, by rw [content_obj]; exact existingSystem?_of_null hsp, hr, rfl⟩
  rw [hinj]
  change (marked y).formatMessages? [systemMessage rendered] false false = _
  refine (formatMessages?_singleton false).mpr (formatMessage?_marked rfl (role_obj _ _) ?_)
  rw [messageContentToText?, systemMessage, content_obj]
  rfl

/-- With neither tools nor a system prompt the leading system message is cached. -/
theorem warmUpPrompt?_of_leading (hb : BuildsItself body)
    (hlen : ¬ 2 ≤ (messageList body).length) (hsp : get body "system_prompt" = .null)
    (ht : truthy (toolsOf body) = false) {m : Json} (hm : leadingSystem? body = some m)
    {typed : String} (htyped : systemPromptOf? (getD m "content" (.str "")) = some typed)
    (y : Char) :
    warmUpPrompt? py (marked y) body = some (typed ++ String.singleton y) := by
  obtain ⟨ms, hlist, hr, hobj⟩ := messageList_of_leadingSystem? hm
  have hms : get body "messages" = .arr (m :: ms) := by
    rw [messageList] at hlist
    split at hlist
    · rename_i hget
      rw [hget, hlist]
    · cases hlist
  rw [warmUpPrompt?_eq hb, if_neg hlen, if_neg (by simp [hsp, ht]), hms,
    if_pos (show truthy (.arr (m :: ms)) = true from rfl), promptOfShortMessages?, hms, ht]
  change (marked y).formatSystemPromptFromMessages? (m :: ms) = _
  rw [ChatTemplate.formatSystemPromptFromMessages?, if_pos hobj, if_pos hr, htyped,
    Option.map_some, formatSystemPrompt_marked]

/-- A warm-up that serves its conversations reads its material the way they do. -/
theorem readAlike_of_serves (hb : BuildsItself body) (hs : Serves py body) :
    ReadAlike py body := by
  rw [ReadAlike]
  split
  · trivial
  · rename_i hlen
    split
    · rename_i hsp
      cases ht : truthy (toolsOf body) with
      | true => exact Or.inl rfl
      | false =>
          refine Or.inr fun text htext => ?_
          let m : Json := .obj [("role", .str "system"), ("content", get body "system_prompt")]
          have hstart : SameStart body (continuation body m) := by
            rw [SameStart, if_neg hlen, if_pos hsp]
            exact ⟨m, leadingSystem?_continuation (role_obj _ _), content_obj _ _ _⟩
          have hhead : preparedHead? py (toolsOf body) m = some [m] := by
            rw [preparedHead?_of_system rfl (role_obj _ _), if_neg (by simp [ht])]
          have htext' : messageContentToText? m = some text := by
            rwa [messageContentToText?, content_obj]
          refine text_eq_of_serves hs hstart hhead rfl (role_obj _ _) htext' fun y => ?_
          rw [warmUpPrompt?_eq hb, if_neg hlen, if_pos (Or.inl hsp), promptOfSystemPrompt?,
            if_neg (by simp [ht]), getD_of_get _ hsp, formatSystemPrompt_marked]
    · rename_i hsp
      intro m hm
      have hnull : get body "system_prompt" = .null := by simpa using hsp
      obtain ⟨ms, -, hr, hobj⟩ := messageList_of_leadingSystem? hm
      have hstart : SameStart body (continuation body m) := by
        rw [SameStart, if_neg hlen, if_neg hsp, hm]
        exact leadingSystem?_continuation hr
      split
      · rename_i ht
        intro hitems text htext
        obtain ⟨rendered, hrendered⟩ :
            ∃ s, renderToolsSystemBlock? py (toolsOf body) text = some s :=
          renderToolsSystemBlock?_isSome hitems text
        obtain ⟨bare, hbare⟩ : ∃ s, renderToolsSystemBlock? py (toolsOf body) "" = some s :=
          renderToolsSystemBlock?_isSome hitems ""
        have hhead : preparedHead? py (toolsOf body) m = some [systemMessage rendered] := by
          rw [preparedHead?_of_system hobj hr, if_pos ht]
          exact ⟨text, rendered, htext, hrendered, rfl⟩
        have htext' : messageContentToText? (systemMessage rendered) = some rendered := by
          rw [messageContentToText?, systemMessage, content_obj]
          rfl
        have heq := text_eq_of_serves hs hstart hhead rfl (role_obj _ _) htext'
          (warmUpPrompt?_of_tools hb hlen hnull ht hbare)
        exact eq_empty_of_block_eq hrendered (heq ▸ hbare)
      · rename_i ht
        intro hsome
        obtain ⟨text, htext⟩ := Option.isSome_iff_exists.mp hsome
        obtain ⟨typed, htyped, hiff⟩ := systemPromptOf?_eq_iff htext
        have ht' : truthy (toolsOf body) = false := by simpa using ht
        have hhead : preparedHead? py (toolsOf body) m = some [m] := by
          rw [preparedHead?_of_system hobj hr, if_neg ht]
        have heq := text_eq_of_serves hs hstart hhead hobj hr htext
          (warmUpPrompt?_of_leading hb hlen hnull ht' hm htyped)
        exact hiff.mp heq.symm

end Converse

section Results
variable {py : PyText}

/-- A warm-up that builds its prompt itself serves every conversation it was made
for exactly when it reads its material the way the conversation does; and the
complete request of a plain conversation is always the formatting of the whole. -/
theorem cached_prompt_served_iff {body : Json} (hb : BuildsItself body) :
    (Serves py body ↔ ReadAlike py body) ∧ ∀ chat, PlainChat chat → FormatsWhole py chat := by
  refine ⟨⟨readAlike_of_serves hb, serves_of_readAlike hb⟩, ?_⟩
  intro chat hp T r h
  obtain ⟨m, ms, prepared, hlist, hprep, hcomplete⟩ := complete_of_chat hp h
  exact ⟨prepared, by rwa [hlist], hcomplete⟩

theorem buildsItself_of_absent {fields : List (String × Json)}
    (h : ∀ key ∈ ["formatted_system_prompt", "formatted_prefix", "prompt", "prefix_messages"],
      fields.lookup key = none) : BuildsItself (.obj fields) := by
  have hget (key : String) (hkey : fields.lookup key = none) : get (.obj fields) key = .null := by
    simp [get, getD, Json.field?, hkey]
  refine ⟨?_, ?_, ?_, hget _ (h _ (by simp))⟩ <;>
    rw [hget _ (h _ (by simp))] <;> rfl

/-- A tool as a client describes it. -/
def waveHand : Json :=
  .obj [("type", .str "function"), ("function", .obj [("name", .str "wave_hand")])]

/-- Python's texts of strings and of `waveHand`. -/
def demoText : PyText where
  str j := match j with
    | .str s => s
    | _ => ""
  dumps _ := "\x7b\"type\": \"function\", \"function\": \x7b\"name\": \"wave_hand\"\x7d\x7d"
  str_text _ := rfl

/-- A warm-up with a bare system prompt. -/
def briefPrompt : Json := .obj [("system_prompt", .str "Be brief.")]

theorem cached_prompt_served_iff_brief : Serves demoText briefPrompt := by
  have hb : BuildsItself briefPrompt := buildsItself_of_absent (by simp [List.lookup_cons])
  refine (cached_prompt_served_iff hb).1.mpr ?_
  simp [ReadAlike, messageList, briefPrompt, get, getD, Json.field?, contentText?, demoText]

/-- A warm-up with one system message and a tool. -/
def briefMessage : Json :=
  .obj [("messages", .arr [systemMessage "Be brief."]), ("tools", .arr [waveHand])]

/-- The system message is missing from the cached prompt when there are tools. -/
theorem system_message_not_cached : ¬ Serves demoText briefMessage := by
  have hb : BuildsItself briefMessage := buildsItself_of_absent (by simp [List.lookup_cons])
  intro hs
  have hread := readAlike_of_serves hb hs
  have htools : toolsOf briefMessage = .arr [waveHand] := by
    simp [toolsOf, briefMessage, get, getD, Json.field?, List.lookup_cons, truthy]
  have hlist : messageList briefMessage = [systemMessage "Be brief."] := by
    simp [messageList, briefMessage, get, getD, Json.field?]
  have hsp : get briefMessage "system_prompt" = .null := by
    simp [briefMessage, get, getD, Json.field?, List.lookup_cons]
  have hm : leadingSystem? briefMessage = some (systemMessage "Be brief.") := by
    rw [leadingSystem?, hlist]
    exact if_pos (role_obj _ _)
  rw [ReadAlike, if_neg (by simp [hlist]), if_neg (by simp [hsp])] at hread
  have hsilent := hread _ hm
  rw [htools, if_pos (show truthy (.arr [waveHand]) = true from rfl), systemMessage,
    content_obj] at hsilent
  have := hsilent rfl "Be brief." rfl
  simp at this

end Results

end JetsonVoice.Server.Prompt
