import JetsonVoice.Foundation.Json

/-!
# The events a worker writes

Every line a synthesis worker writes to stdout is an object whose `event` field
names it. A request ends with one of three terminal events.
-/

namespace JetsonVoice.Protocol

open Foundation

/-- An event with its further fields. -/
def event (name : String) (fields : List (String × Json)) : Json :=
  .obj (("event", .str name) :: fields)

/-- The name of an event. -/
def eventName (e : Json) : String := (e.str? "event").getD ""

/-- The events that end a request. -/
def isTerminal (e : Json) : Bool := eventName e ∈ ["done", "cancelled", "error"]

/-- An error event. -/
def errorEvent (id error : String) (rest : List (String × Json)) : Json :=
  event "error" ([("id", .str id), ("ok", .bool false), ("error", .str error)] ++ rest)

/-- A typed field of a request, with the text of the exception it throws. -/
def read {α : Type} (r : Except Json.TypeError α) : Except String α := r.mapError Json.TypeError.what

@[simp] theorem eventName_event (name : String) (fields : List (String × Json)) :
    eventName (event name fields) = name := by
  simp [eventName, event, Json.str?, Json.field?]

@[simp] theorem isTerminal_event (name : String) (fields : List (String × Json)) :
    isTerminal (event name fields) = decide (name ∈ ["done", "cancelled", "error"]) := by
  simp [isTerminal]

@[simp] theorem eventName_errorEvent (id error : String) (rest : List (String × Json)) :
    eventName (errorEvent id error rest) = "error" := eventName_event _ _

@[simp] theorem isTerminal_errorEvent (id error : String) (rest : List (String × Json)) :
    isTerminal (errorEvent id error rest) = true := by
  simp [errorEvent]

end JetsonVoice.Protocol
