import JetsonVoice.Foundation.TransitionSystem
import JetsonVoice.Server.ToolCalls
import Mathlib.Data.List.Infix

/-!
# Streamed chat completions

A thread drains the engine's generator into a queue, a watcher asks whether the
client is still there, and the response generator takes the deltas off the queue
and yields frames. The three share a stop flag.

## Implementation notes

The machine that splits thinking from content and the incremental parser of tool
calls only turn texts into frames, so they are parameters. The frames of a delta
are made when it is taken. A response can be closed wherever it is suspended at a
`yield`, and be cancelled wherever it awaits; a `get` it no longer awaits still
takes an item off the queue.
-/

namespace JetsonVoice.Server.Sse

open Foundation TransitionSystem

/-- What the engine's generator yields. -/
structure Delta where
  text : String
  finished : Bool
  finishReason : Option String
  deriving DecidableEq

/-- What the response sends. -/
inductive Frame where
  | role
  | field (name text : String)
  | partialCall (delta : Json)
  | toolCall (call : ToolCall)
  | finish (reason : String) (cacheMetrics : Option Json)
  | done
  deriving DecidableEq

/-- What a response is written with. -/
structure Writer where
  Think : Type
  think : Think
  feed : Think → String → List (String × String) × Think
  flush : Think → List (String × String)
  Parser : Type
  parser : Parser
  parse : Parser → String → List Json × Parser
  py : Python
  toolsEnabled : Bool
  cacheMetrics : Option Json

/-- The local variables the frames are made from. -/
structure Draft (W : Writer) where
  think : W.Think
  parser : W.Parser
  contentBuf : List Char
  finishReason : Option String

namespace Draft
variable {W : Writer}

def init (W : Writer) : Draft W := ⟨W.think, W.parser, [], none⟩

/-- One field of a text: content is kept back when tools are enabled. -/
def field (d : Draft W) (name text : String) : Draft W × List Frame :=
  if W.toolsEnabled && name == "content" then
    let (partials, parser) := W.parse d.parser text
    ({ d with parser, contentBuf := d.contentBuf ++ text.toList }, partials.map .partialCall)
  else (d, [.field name text])

def fields (d : Draft W) : List (String × String) → Draft W × List Frame
  | [] => (d, [])
  | (name, text) :: rest =>
      let (d, frames) := d.field name text
      let (d, more) := fields d rest
      (d, frames ++ more)

/-- The frames of a delta. -/
def take (d : Draft W) (delta : Delta) : Draft W × List Frame :=
  if delta.text = "" then (d, [])
  else
    let (found, think) := W.feed d.think delta.text
    { d with think }.fields found

/-- Python's `reason or "stop"`. -/
def orStop (reason : Option String) : String :=
  match reason with
  | some reason => if reason = "" then "stop" else reason
  | none => "stop"

/-- What is noted behind the frames of a delta. -/
def note (d : Draft W) (delta : Delta) : Draft W :=
  if delta.finished then { d with finishReason := some (orStop delta.finishReason) } else d

/-- The frames at the end, when the tool calls and what is left of the content are
known. -/
def close (d : Draft W) (calls : List ToolCall) (cleaned : List Char) : List Frame :=
  let content (text : List Char) : List Frame :=
    if text.isEmpty then [] else [.field "content" (String.ofList text)]
  let reason :=
    if !calls.isEmpty && (d.finishReason == none || d.finishReason == some "stop") then
      some "tool_calls"
    else d.finishReason
  (if !W.toolsEnabled then []
    else if calls.isEmpty then content d.contentBuf
    else calls.map .toolCall ++ content cleaned) ++
  [.finish (orStop reason) W.cacheMetrics, .done]

/-- The trailing frames, and whether an exception ends them. -/
def trailing (d : Draft W) (disconnected : Bool) : List Frame × Bool :=
  let d := if disconnected && d.finishReason == none then
    { d with finishReason := some "cancelled" } else d
  let (d, frames) := d.fields (W.flush d.think)
  if !W.toolsEnabled then (frames ++ d.close [] [], false)
  else
    match extractToolCalls W.py d.contentBuf with
    | some (calls, cleaned) => (frames ++ d.close calls cleaned, false)
    | none => (frames, true)

end Draft

/-- An item of the queue. -/
inductive Item where
  | delta (d : Delta)
  | error
  | done
  deriving DecidableEq

def Item.delta? : Item → Option Delta
  | .delta d => some d
  | _ => none

/-- Where the drain thread is: in the generator, at the first look at the stop flag,
at the queue, at the second look, in the `except` block, and in the `finally` before
the `close` and before its last put. -/
inductive Draining where
  | notStarted
  | advancing
  | pulled (d : Delta)
  | checked (d : Delta)
  | handed
  | failing
  | closing
  | finishing
  | ended
  deriving DecidableEq

/-- How the generator's `next` ends. An exception that is no `Exception` passes the
`except` block by. -/
inductive Next where
  | yields (d : Delta)
  | returns
  | raises
  | crashes
  deriving DecidableEq

/-- Where the watcher is: about to look at the stop flag, or in a probe. -/
inductive Watcher where
  | absent
  | ready
  | probing
  | ended
  deriving DecidableEq

/-- What a probe finds. -/
inductive Probe where
  | connected
  | disconnected
  | networkError
  | otherError
  deriving DecidableEq

/-- Why the response leaves its loop. -/
inductive Exit where
  | broke
  | raised
  | closed
  deriving DecidableEq

inductive End where
  | completed
  | raised
  | closed
  deriving DecidableEq

/-- Where the response generator is. With the frames still to be yielded, it is
suspended at the `yield` of the one before. -/
inductive Reply where
  | opening
  | getting (fetched : Option Item)
  | sending (d : Delta) (rest : List Frame)
  /-- In the `finally` block, which awaits the watcher. -/
  | tearing (exit : Exit)
  | trailing (rest : List Frame) (raises : Bool)
  | ended (e : End)
  deriving DecidableEq

/-- A streamed response, with the deltas the engine has yielded and those the
response has taken. -/
structure Response (W : Writer) where
  drain : Draining := .notStarted
  closes : Nat := 0
  queue : List Item := []
  /-- A `get` nobody awaits any more. -/
  orphan : Bool := false
  stopFlag : Bool := false
  disconnected : Bool := false
  watcher : Watcher := .absent
  watcherCancelled : Bool := false
  reply : Reply := .opening
  draft : Draft W := .init W
  sent : List Frame := [.role]
  produced : List Delta := []
  consumed : List Delta := []

/-- What happens next. -/
inductive Label where
  /-- The generator's `next` ends. -/
  | next (r : Next)
  /-- The drain thread takes a step outside the generator. -/
  | drain
  /-- The executor's `get` takes an item. -/
  | get
  /-- The watcher goes on. -/
  | look
  | probe (p : Probe)
  /-- The cancellation reaches the watcher. -/
  | watcherStops
  /-- The response goes on. -/
  | resume
  /-- What the response awaits raises: it is cancelled, or the executor is gone. -/
  | interrupt
  /-- The response is closed at a `yield`. -/
  | close
  deriving DecidableEq

namespace Response
variable {W : Writer}

section Steps
variable (s : Response W)

/-- `for delta in gen` up to the generator's next answer. -/
def nextStep (r : Next) : Option (Response W) :=
  if s.drain = .advancing then
    match r with
    | .yields d => some { s with drain := .pulled d, produced := s.produced ++ [d] }
    | .returns => some { s with drain := .closing }
    | .raises => some { s with drain := .failing }
    | .crashes => some { s with drain := .closing }
  else none

/-- The steps of `_drain` outside the generator. -/
def drainStep : Option (Response W) :=
  match s.drain with
  | .pulled d => some { s with drain := if s.stopFlag then .closing else .checked d }
  | .checked d => some { s with drain := .handed, queue := s.queue ++ [.delta d] }
  | .handed => some { s with drain := if s.stopFlag then .closing else .advancing }
  | .failing => some { s with drain := .closing, queue := s.queue ++ [.error] }
  | .closing => some { s with drain := .finishing, closes := s.closes + 1 }
  | .finishing => some { s with drain := .ended, queue := s.queue ++ [.done] }
  | _ => none

/-- The executor's thread takes an item, for the response or for nobody. -/
def getStep : Option (Response W) :=
  match s.queue with
  | [] => none
  | item :: queue =>
      if s.orphan then some { s with orphan := false, queue }
      else if s.reply = .getting none then some { s with reply := .getting (some item), queue }
      else none

def lookStep : Option (Response W) :=
  if s.watcher = .ready then
    some { s with watcher := if s.stopFlag then .ended else .probing }
  else none

def probeStep (p : Probe) : Option (Response W) :=
  if s.watcher = .probing then
    match p with
    | .connected => some { s with watcher := .ready }
    | .disconnected | .networkError =>
        some { s with watcher := .ended, disconnected := true, stopFlag := true }
    | .otherError => some { s with watcher := .ended }
  else none

def watcherStopsStep : Option (Response W) :=
  if s.watcherCancelled ∧ s.watcher ≠ .ended then some { s with watcher := .ended } else none

/-- Into the `finally` block. -/
def tear (e : Exit) : Response W :=
  { s with stopFlag := true, watcherCancelled := true, reply := .tearing e }

/-- Yield the frames of a delta in turn, note what it says and go on. -/
def send (d : Delta) : List Frame → Response W
  | f :: rest => { s with sent := s.sent ++ [f], reply := .sending d rest }
  | [] =>
      let s := { s with draft := s.draft.note d }
      if s.disconnected then s.tear .broke else { s with reply := .getting none }

/-- Yield the trailing frames in turn. -/
def trail (raises : Bool) : List Frame → Response W
  | f :: rest => { s with sent := s.sent ++ [f], reply := .trailing rest raises }
  | [] => { s with reply := .ended (if raises then .raised else .completed) }

/-- Behind the `finally` block. -/
def leave : Exit → Response W
  | .broke =>
      let (frames, raises) := s.draft.trailing s.disconnected
      s.trail raises frames
  | .raised => { s with reply := .ended .raised }
  | .closed => { s with reply := .ended .closed }

/-- What the response does with an item. -/
def handle : Item → Response W
  | .delta d =>
      let (draft, frames) := s.draft.take d
      { s with draft, consumed := s.consumed ++ [d] }.send d frames
  | .error => { s with draft := { s.draft with finishReason := some "error" } }.tear .broke
  | .done => s.tear .broke

def resumeStep : Option (Response W) :=
  match s.reply with
  | .opening =>
      some { s with drain := .advancing, watcher := .ready, reply := .getting none }
  | .getting (some item) => some (s.handle item)
  | .sending d rest => some (s.send d rest)
  | .tearing e => if s.watcher = .ended then some (s.leave e) else none
  | .trailing rest raises => some (s.trail raises rest)
  | _ => none

/-- The `finally` block swallows a cancellation while it awaits the watcher. -/
def interruptStep : Option (Response W) :=
  match s.reply with
  | .getting fetched => some ({ s with orphan := fetched.isNone }.tear .raised)
  | .tearing e => some (s.leave e)
  | _ => none

def closeStep : Option (Response W) :=
  match s.reply with
  | .opening | .trailing _ _ => some { s with reply := .ended .closed }
  | .sending _ _ => some (s.tear .closed)
  | _ => none

end Steps

/-- A streamed response, its drain thread and its watcher, in any order of steps. -/
def system (W : Writer) : TransitionSystem (Response W) Label where
  start := {}
  step s
    | .next r => s.nextStep r
    | .drain => s.drainStep
    | .get => s.getStep
    | .look => s.lookStep
    | .probe p => s.probeStep p
    | .watcherStops => s.watcherStopsStep
    | .resume => s.resumeStep
    | .interrupt => s.interruptStep
    | .close => s.closeStep

end Response

end JetsonVoice.Server.Sse
