import JetsonVoice.Foundation.Json

/-!
# Tool calls in a model's output

The server looks for `<tool_call>` blocks in the text of a response, and for a
bare JSON object when it finds none, and rebuilds the calls they describe. The
text outside the blocks is what is left of the content.

## Implementation notes

`json.loads` and `json.dumps` are parameters. `loads` answers with a value, with
a `JSONDecodeError`, or with another exception: a `RecursionError` on a text
nested too deeply, a `ValueError` on an integer of too many digits.
-/

namespace JetsonVoice.Server

open Foundation

/-- How a call of `json.loads` ends. -/
inductive Loaded where
  | value (j : Json)
  | decodeError
  | raised
  deriving DecidableEq

/-- What the server uses of Python's `json` and `uuid`. -/
structure Python where
  loads : List Char → Loaded
  /-- `json.dumps(…, ensure_ascii=False)`. -/
  dumps : Json → String
  /-- The identifiers `uuid.uuid4` gives out. -/
  callId : Nat → String

/-- `str.isspace` of one character. -/
def isSpace (c : Char) : Bool :=
  let n := c.toNat
  (9 ≤ n && n ≤ 13) || (28 ≤ n && n ≤ 32) || n == 0x85 || n == 0xA0 || n == 0x1680 ||
    (0x2000 ≤ n && n ≤ 0x200A) || n == 0x2028 || n == 0x2029 || n == 0x202F || n == 0x205F ||
    n == 0x3000

/-- `str.strip`. -/
def strip (s : List Char) : List Char := (s.dropWhile isSpace).reverse.dropWhile isSpace |>.reverse

def toolCallOpen : List Char := "<tool_call>".toList

def toolCallClose : List Char := "</tool_call>".toList

/-- The text before and behind the first occurrence of a literal. -/
def breakOn (lit : List Char) : List Char → Option (List Char × List Char)
  | [] => if lit.isEmpty then some ([], []) else none
  | c :: s =>
      if lit.isPrefixOf (c :: s) then some ([], (c :: s).drop lit.length)
      else (breakOn lit s).map fun (before, after) => (c :: before, after)

/-- The first match of the expression for a block: the text before it, what stands
between its tags, and the text behind it. -/
def firstBlock (text : List Char) : Option (List Char × List Char × List Char) :=
  (breakOn toolCallOpen text).bind fun (before, inner) =>
    (breakOn toolCallClose inner).map fun (body, after) => (before, body, after)

/-- An entry of `tool_calls`. -/
structure ToolCall where
  id : String
  index : Nat
  name : String
  arguments : String
  deriving DecidableEq

/-- The arguments of a call, if the object has any. -/
def argsObj? (obj : Json) : Option Json :=
  (obj.field? "arguments").or (obj.field? "parameters")

def toolCallFromJsonObj (py : Python) (obj : Option Json) (idx : Nat) : Option ToolCall := do
  let obj ← obj
  let name ← obj.str? "name"
  if name = "" then none
  else
    let args ← argsObj? obj
    let arguments := match args with
      | .str s => s
      | args => py.dumps args
    some ⟨py.callId idx, idx, name, arguments⟩

/-- The object a text describes, if it is JSON; `none` when an exception escapes. -/
def Python.tryLoads (py : Python) (text : List Char) : Option (Option Json) :=
  match py.loads text with
  | .value j => some (some j)
  | .decodeError => some none
  | .raised => none

/-- The loop over the blocks, with the calls and the parts of the text found so
far. It is given as many rounds as the text has characters. -/
def scanBlocks (py : Python) : Nat → List Char → List ToolCall → List Char →
    Option (List ToolCall × List Char)
  | 0, text, calls, cleaned => some (calls, cleaned ++ text)
  | fuel + 1, text, calls, cleaned =>
      match firstBlock text with
      | none => some (calls, cleaned ++ text)
      | some (before, body, after) =>
          (py.tryLoads (strip body)).bind fun obj =>
            match toolCallFromJsonObj py obj calls.length with
            | some call => scanBlocks py fuel after (calls ++ [call]) (cleaned ++ before)
            | none =>
                -- The raw text of a malformed block is kept.
                scanBlocks py fuel after calls
                  (cleaned ++ before ++ toolCallOpen ++ body ++ toolCallClose)

/-- A text that may be one bare object. -/
def isBraced (text : List Char) : Bool :=
  text.head? == some '\x7b' && text.getLast? == some '\x7d'

/-- `_extract_tool_calls`: the calls and the text that is left; `none` when an
exception escapes. -/
def extractToolCalls (py : Python) (text : List Char) : Option (List ToolCall × List Char) :=
  (scanBlocks py text.length text [] []).bind fun (calls, parts) =>
    let cleaned := strip parts
    if calls.isEmpty && isBraced cleaned then
      (py.tryLoads cleaned).map fun obj =>
        match toolCallFromJsonObj py obj 0 with
        | some call => ([call], [])
        | none => ([], cleaned)
    else some (calls, cleaned)

/-- The texts of the blocks, as they are given to `json.loads`. -/
def blockBodies : Nat → List Char → List (List Char)
  | 0, _ => []
  | fuel + 1, text =>
      match firstBlock text with
      | none => []
      | some (_, body, after) => strip body :: blockBodies fuel after

/-- No exception escapes `json.loads` on the blocks of a text, nor on the text when
it is tried as a bare object. -/
def JsonReadable (py : Python) (text : List Char) : Prop :=
  (∀ body ∈ blockBodies text.length text, py.loads body ≠ .raised) ∧
    ∀ parts, scanBlocks py text.length text [] [] = some ([], parts) →
      isBraced (strip parts) = true → py.loads (strip parts) ≠ .raised

variable {py : Python} {text before body after : List Char}

theorem eq_of_breakOn {lit : List Char} (h : breakOn lit text = some (before, after)) :
    text = before ++ (lit ++ after) := by
  induction text generalizing before with
  | nil =>
      simp only [breakOn] at h
      split_ifs at h with hlit
      cases h
      simp [List.isEmpty_iff.mp hlit]
  | cons c text ih =>
      simp only [breakOn] at h
      split_ifs at h with hpre
      · cases h
        obtain ⟨rest, hrest⟩ := List.isPrefixOf_iff_prefix.mp hpre
        rw [← hrest, List.drop_left]
        rfl
      · obtain ⟨⟨before', after'⟩, hbreak, heq⟩ := Option.map_eq_some_iff.mp h
        cases heq
        exact congrArg (c :: ·) (ih hbreak)

/-- A block and what stands around it make up the text. -/
theorem eq_of_firstBlock (h : firstBlock text = some (before, body, after)) :
    text = before ++ (toolCallOpen ++ (body ++ (toolCallClose ++ after))) := by
  obtain ⟨⟨before', inner⟩, hopen, h⟩ := Option.bind_eq_some_iff.mp h
  obtain ⟨⟨body', after'⟩, hclose, heq⟩ := Option.map_eq_some_iff.mp h
  cases heq
  rw [eq_of_breakOn hopen, eq_of_breakOn hclose]

theorem length_after_lt (h : firstBlock text = some (before, body, after)) :
    after.length < text.length := by
  have hopen : 0 < toolCallOpen.length := by decide
  rw [eq_of_firstBlock h]
  simp only [List.length_append]
  omega

/-- As many rounds as the text has characters are enough. -/
theorem scanBlocks_of_le {calls : List ToolCall} {cleaned : List Char} {fuel : Nat}
    (h : text.length ≤ fuel) :
    scanBlocks py fuel text calls cleaned = scanBlocks py text.length text calls cleaned := by
  induction fuel using Nat.strongRecOn generalizing text calls cleaned with
  | ind fuel ih =>
      cases fuel with
      | zero => rw [Nat.le_zero.mp h]
      | succ fuel =>
          cases hblock : firstBlock text with
          | none =>
              cases text with
              | nil => simp [scanBlocks, hblock]
              | cons c text => simp [scanBlocks, hblock]
          | some block =>
              obtain ⟨before, body, after⟩ := block
              have hlt := length_after_lt hblock
              obtain ⟨n, hn⟩ : ∃ n, text.length = n + 1 := ⟨text.length - 1, by omega⟩
              have hrest (calls : List ToolCall) (cleaned : List Char) :
                  scanBlocks py fuel after calls cleaned = scanBlocks py n after calls cleaned := by
                rw [ih fuel (by omega) (by omega), ← ih n (by omega) (by omega)]
              simp only [hn, scanBlocks, hblock, hrest]

theorem toolCallFromJsonObj_spec {obj : Option Json} {idx : Nat} {call : ToolCall}
    (h : toolCallFromJsonObj py obj idx = some call) :
    call.index = idx ∧ call.name ≠ "" := by
  simp only [toolCallFromJsonObj, bind, Option.bind_eq_some_iff] at h
  obtain ⟨j, -, name, -, h⟩ := h
  split at h
  · cases h
  · rename_i hname
    obtain ⟨args, -, h⟩ := Option.bind_eq_some_iff.mp h
    cases h
    exact ⟨rfl, hname⟩

theorem toolCallFromJsonObj_name (py : Python) (obj : Option Json) (idx : Nat) :
    (toolCallFromJsonObj py obj idx).map ToolCall.name =
      (toolCallFromJsonObj py obj 0).map ToolCall.name := by
  simp only [toolCallFromJsonObj, bind]
  cases obj with
  | none => rfl
  | some j =>
      simp only [Option.bind_some]
      cases j.str? "name" with
      | none => rfl
      | some name =>
          simp only [Option.bind_some]
          split
          · rfl
          · cases argsObj? j <;> rfl

theorem tryLoads_eq_none_iff : py.tryLoads text = none ↔ py.loads text = .raised := by
  unfold Python.tryLoads
  cases py.loads text <;> simp

/-- The scan fails if and only if an exception escapes on one of the blocks. -/
theorem scanBlocks_isSome_iff {calls : List ToolCall} {cleaned : List Char} {fuel : Nat} :
    (scanBlocks py fuel text calls cleaned).isSome = true ↔
      ∀ body ∈ blockBodies fuel text, py.loads body ≠ .raised := by
  induction fuel generalizing text calls cleaned with
  | zero => simp [scanBlocks, blockBodies]
  | succ fuel ih =>
      simp only [scanBlocks, blockBodies]
      cases firstBlock text with
      | none => simp
      | some block =>
          obtain ⟨before, body, after⟩ := block
          simp only [List.forall_mem_cons]
          cases hobj : py.tryLoads (strip body) with
          | none => simp [tryLoads_eq_none_iff.mp hobj]
          | some obj =>
              have hloads : py.loads (strip body) ≠ .raised := fun hraised => by
                rw [tryLoads_eq_none_iff.mpr hraised] at hobj
                cases hobj
              simp only [Option.bind_some, hloads, ne_eq, not_false_eq_true, true_and]
              split
              · exact ih
              · exact ih

/-- The calls are found if and only if no exception escapes `json.loads`. -/
theorem extractToolCalls_isSome_iff :
    (extractToolCalls py text).isSome = true ↔ JsonReadable py text := by
  rw [JsonReadable, ← @scanBlocks_isSome_iff py text [] [], extractToolCalls]
  cases hscan : scanBlocks py text.length text [] [] with
  | none => simp
  | some found =>
      obtain ⟨calls, parts⟩ := found
      cases hbare : calls.isEmpty && isBraced (strip parts) with
      | true =>
          obtain ⟨hcalls, hbraced⟩ := Bool.and_eq_true_iff.mp hbare
          obtain rfl := List.isEmpty_iff.mp hcalls
          simp [hbraced, Option.isSome_iff_ne_none, tryLoads_eq_none_iff]
      | false =>
          simp only [Option.bind_some, hbare, Bool.false_eq_true, if_false, Option.isSome_some,
            true_and, true_iff]
          rintro parts' hparts hbraced
          cases hparts
          simp [hbraced] at hbare

end JetsonVoice.Server
