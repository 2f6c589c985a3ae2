import JetsonVoice.Foundation.JsonTokens
import JetsonVoice.Server.ToolCalls

/-!
# Python's JSON in the server

What the server asks of `json`, answered by the JSON texts of the library: a text
that is not JSON is a `JSONDecodeError`, a limit that is met is another exception.
-/

namespace JetsonVoice.Server

open Foundation JsonText

/-- `json.loads` and `json.dumps(…, ensure_ascii=False)`. -/
def jsonPython (F : Floats) (lim : Limits) (callId : Nat → String) : Python where
  loads text :=
    match loads F lim text with
    | .ok j => .value j
    | .error .malformed => .decodeError
    | .error .limit => .raised
  dumps j := String.ofList (dumps F j)
  callId := callId

/-- Floating-point numbers of which only zero is used. -/
def zeroFloats : Floats where
  read _ := (0, 0)
  write _ := ['0', '.', '0']
  write_read _ := .inr fun rest hrest =>
    ⟨⟨false, ['0'], ['.', '0'], []⟩, scanNumber_text (n := ⟨false, ['0'], ['.', '0'], []⟩)
      ⟨.inl rfl, .inr ⟨['0'], ⟨by decide, List.forall_mem_singleton.mpr rfl⟩, rfl⟩, .inl rfl⟩ hrest, rfl⟩
  read_write _ := rfl

/-- Python as far as texts without decimal numbers go. -/
def samplePython : Python := jsonPython zeroFloats ⟨8, 20⟩ fun n =>
  if n = 0 then "call_0" else "call_1"

end JetsonVoice.Server
