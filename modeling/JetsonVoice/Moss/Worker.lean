import JetsonVoice.Foundation.Collections
import JetsonVoice.Foundation.TransitionSystem
import JetsonVoice.Moss.Request

/-!
# The MOSS worker

The dispatch thread reads stdin, registers requests in `controls` and queues
them; `max_slots` worker threads take them off the queue and handle them.

## Implementation notes

A `RequestControl` is allocated on a heap, so that a map entry and a task share
it by its index. An event in `out` is tagged with the control of the request
whose handling wrote it; cancel acknowledgements and the rejections written by
the dispatch thread are untagged. `accepted` is a history variable.
-/

namespace JetsonVoice.Moss

open Foundation Protocol

/-- A request taken over by the dispatcher, with its `RequestControl`. -/
structure Task where
  item : Json
  control : Nat
  deriving DecidableEq, Repr

/-- The dispatch thread between its shared accesses. -/
inductive Main where
  | reading
  /-- Registered, not yet on the queue. -/
  | enqueue (task : Task)
  /-- The flag was set or not found; about to emit the acknowledgement. -/
  | ack (id : String) (tripped : Bool)
  /-- `stopping` is set; waiting for the worker threads. -/
  | joining
  | joined
  deriving DecidableEq, Repr

/-- A worker thread. -/
inductive Thread where
  /-- At `queueCv.wait`. -/
  | waiting
  | running (task : Task) (id : String) (requestStart : Int) (phase : Phase)
  | exited
  deriving DecidableEq, Repr

/-- The state of the process. -/
structure Worker where
  controls : Table String Nat
  /-- `RequestControl::cancelled`, by control. -/
  cancelled : List Bool
  queue : List Task
  stopping : Bool
  main : Main
  threads : List Thread
  /-- `mFreeSlots`; the last one is taken first. -/
  freeSlots : List Nat
  /-- Slots popped by an acquire that then threw. -/
  lostSlots : Nat
  out : List (Option Nat × Json)
  accepted : List Task
  deriving DecidableEq

def Worker.init (c : Config) : Worker where
  controls := ∅
  cancelled := []
  queue := []
  stopping := false
  main := .reading
  threads := List.replicate c.maxSlots .waiting
  freeSlots := List.range c.maxSlots
  lostSlots := 0
  out := []
  accepted := []

namespace Worker

variable (w : Worker)

/-- A line of the dispatch thread. -/
def emit (e : Json) : Worker := { w with out := w.out ++ [(none, e)] }

def isCancelled (control : Nat) : Bool := w.cancelled[control]?.getD false

def setThread (i : Nat) (t : Thread) : Worker := { w with threads := w.threads.set i t }

/-- The shared part of one step of a request. -/
def apply (control : Nat) : Effect → Worker
  | .none => w
  | .emit e => { w with out := w.out ++ [(some control, e)] }
  | .take => { w with freeSlots := w.freeSlots.dropLast }
  | .lose => { w with freeSlots := w.freeSlots.dropLast, lostSlots := w.lostSlots + 1 }
  | .release slot => { w with freeSlots := w.freeSlots ++ [slot] }

end Worker

/-- `item.is_object() && item.value("type", "") == "cancel"`. -/
def isCancelLine (item : Json) : Except Json.TypeError Bool :=
  if item.isObject then (item.valueStr "type" "").map (· == "cancel") else .ok false

/-- Set the flag registered under an id, if there is one. -/
def trip (w : Worker) (id : String) : Worker :=
  match w.controls.lookup id with
  | some control =>
      { w with cancelled := w.cancelled.set control true, main := .ack id true }
  | none => { w with main := .ack id false }

/-- Enter a request with a new control in the map, to be queued next. -/
def register (w : Worker) (id : String) (item : Json) : Worker :=
  let task : Task := ⟨item, w.cancelled.length⟩
  { w with
    cancelled := w.cancelled ++ [false]
    controls := w.controls.insert id task.control
    accepted := w.accepted ++ [task]
    main := .enqueue task }

/-- Register a request, or reject it under the lock of the map. A rejected one
has allocated its control. -/
def accept (c : Config) (w : Worker) (id : String) (item : Json) : Worker :=
  if (w.controls.lookup id).isSome then
    { w with cancelled := w.cancelled ++ [false] }.emit
      (errorEvent id "duplicate_request_id" [("status", .int 409)])
  else if c.maxSlots ≤ w.controls.size then
    { w with cancelled := w.cancelled ++ [false] }.emit
      (errorEvent id "pool_saturated" [("status", .int 4429), ("max_slots", .int c.maxSlots)])
  else register w id item

/-- The dispatch of one line; a line that does not parse carries the text of the
exception. -/
def readLine (c : Config) (w : Worker) : Except String Json → Worker
  | .error what => w.emit (errorEvent "__worker__" what [])
  | .ok item =>
      match item.valueStr "id" "__worker__" with
      | .error e => w.emit (errorEvent "__worker__" e.what [])
      | .ok id =>
          match isCancelLine item with
          | .error e => w.emit (errorEvent id e.what [])
          | .ok true => trip w id
          | .ok false => accept c w id item

def cancelAck (id : String) (tripped : Bool) : Json :=
  event "cancel_ack" [("id", .str id), ("tripped", .bool tripped)]

/-- The next action of the dispatch thread that needs no input. -/
def mainStep (w : Worker) : Option Worker :=
  match w.main with
  | .reading | .joined => none
  | .enqueue task => some { w with queue := w.queue ++ [task], main := .reading }
  | .ack id tripped => some { w.emit (cancelAck id tripped) with main := .reading }
  | .joining => if w.threads.all (· = .exited) then some { w with main := .joined } else none

/-- A worker thread at the queue: take the first task, or return once stopping. -/
def pickUp (w : Worker) (i : Nat) (a : Answer) : Option Worker :=
  match w.queue with
  | task :: queue =>
      match task.item.valueStr "id" "__request__" with
      | .ok id => some ({ w with queue := queue }.setThread i (.running task id a.now .start))
      | .error _ => none
  | [] => if w.stopping then some (w.setThread i .exited) else none

/-- Take a finished request out of the map, unless the entry is another's. -/
def unregister (w : Worker) (id : String) (control : Nat) : Worker :=
  if w.controls.lookup id = some control then { w with controls := w.controls.erase id } else w

/-- The next action of a worker thread. -/
def threadStep (c : Config) (w : Worker) (i : Nat) (a : Answer) : Option Worker :=
  match w.threads[i]? with
  | none | some .exited => none
  | some .waiting => pickUp w i a
  | some (.running task id _ .finish) =>
      some ((unregister w id task.control).setThread i .waiting)
  | some (.running task id t0 phase) =>
      (handle c task.item id t0 (w.isCancelled task.control) w.freeSlots.getLast? a phase).map
        fun next => (w.apply task.control next.2).setThread i (.running task id t0 next.1)

/-- What happens next: a line or the end of stdin reaches the dispatch thread,
or one of the threads moves on. -/
inductive Label where
  | line (parsed : Except String Json)
  | eof
  | main
  | thread (i : Nat) (a : Answer)

/-- The MOSS worker with all interleavings of its threads. -/
def system (c : Config) : TransitionSystem Worker Label where
  start := .init c
  step w
    | .line parsed => if w.main = .reading then some (readLine c w parsed) else none
    | .eof => if w.main = .reading then some { w with stopping := true, main := .joining } else none
    | .main => mainStep w
    | .thread i a => threadStep c w i a

/-- Every way the worker can take a step, with the state it leads to. -/
inductive Step (c : Config) (w : Worker) : Label → Worker → Prop
  /-- A line is answered at once. -/
  | refuse {parsed : Except String Json} {alloc : List Bool} {e : Json}
      (reading : w.main = .reading) (unset : ∀ b ∈ alloc, b = false) :
      Step c w (.line parsed)
        { w with cancelled := w.cancelled ++ alloc, out := w.out ++ [(none, e)] }
  | trip {item : Json} {id : String} (reading : w.main = .reading)
      (hid : item.valueStr "id" "__worker__" = .ok id) (hc : isCancelLine item = .ok true) :
      Step c w (.line (.ok item)) (trip w id)
  | enrol {item : Json} {id : String} (reading : w.main = .reading)
      (hid : item.valueStr "id" "__worker__" = .ok id) (hc : isCancelLine item = .ok false)
      (fresh : w.controls.lookup id = none) (room : w.controls.size < c.maxSlots) :
      Step c w (.line (.ok item)) (register w id item)
  | eof (reading : w.main = .reading) : Step c w .eof { w with stopping := true, main := .joining }
  | enqueue {task : Task} (hm : w.main = .enqueue task) :
      Step c w .main { w with queue := w.queue ++ [task], main := .reading }
  | ack {id : String} {tripped : Bool} (hm : w.main = .ack id tripped) :
      Step c w .main { w.emit (cancelAck id tripped) with main := .reading }
  | join (hm : w.main = .joining) (hall : ∀ t ∈ w.threads, t = .exited) :
      Step c w .main { w with main := .joined }
  | pickUp {i : Nat} {a : Answer} {task : Task} {queue : List Task} {id : String}
      (hi : w.threads[i]? = some .waiting) (hq : w.queue = task :: queue)
      (hid : task.item.valueStr "id" "__request__" = .ok id) :
      Step c w (.thread i a)
        ({ w with queue := queue }.setThread i (.running task id a.now .start))
  | exit {i : Nat} {a : Answer} (hi : w.threads[i]? = some .waiting) (hq : w.queue = [])
      (stopping : w.stopping = true) : Step c w (.thread i a) (w.setThread i .exited)
  | finish {i : Nat} {a : Answer} {task : Task} {id : String} {t0 : Int}
      (hi : w.threads[i]? = some (.running task id t0 .finish)) :
      Step c w (.thread i a) ((unregister w id task.control).setThread i .waiting)
  | handle {i : Nat} {a : Answer} {task : Task} {id : String} {t0 : Int} {phase next : Phase}
      {effect : Effect} (hi : w.threads[i]? = some (.running task id t0 phase))
      (hh : handle c task.item id t0 (w.isCancelled task.control) w.freeSlots.getLast? a phase
        = some (next, effect)) :
      Step c w (.thread i a) ((w.apply task.control effect).setThread i (.running task id t0 next))

section Inversion
variable {c : Config} {w w' : Worker}

theorem readLine_cases {parsed : Except String Json} (reading : w.main = .reading) :
    Step c w (.line parsed) (readLine c w parsed) := by
  have answer (parsed : Except String Json) (e : Json) :
      Step c w (.line parsed) (w.emit e) := by
    have h : Step c w (.line parsed)
        { w with cancelled := w.cancelled ++ [], out := w.out ++ [(none, e)] } :=
      .refuse reading (by simp)
    simpa [Worker.emit] using h
  cases parsed with
  | error what => exact answer _ _
  | ok item =>
      simp only [readLine]
      split
      · exact answer _ _
      · rename_i id hid
        split
        · exact answer _ _
        · rename_i hc
          exact .trip reading hid hc
        · rename_i hc
          simp only [accept]
          split
          · exact .refuse reading (by simp)
          · rename_i hdup
            split
            · exact .refuse reading (by simp)
            · rename_i hfull
              exact .enrol reading hid hc (by simpa using hdup) (by simpa using hfull)

/-- A step of the system is one of the listed ways. -/
theorem step_cases {l : Label} (h : (system c).step w l = some w') : Step c w l w' := by
  cases l with
  | line parsed =>
      simp only [system] at h
      split at h
      · rename_i hm
        cases h
        exact readLine_cases hm
      · cases h
  | eof =>
      simp only [system] at h
      split at h
      · rename_i hm
        cases h
        exact .eof hm
      · cases h
  | main =>
      simp only [system, mainStep] at h
      split at h
      · cases h
      · cases h
      · rename_i hm
        cases h
        exact .enqueue hm
      · rename_i hm
        cases h
        exact .ack hm
      · rename_i hm
        split at h
        · rename_i hall
          cases h
          exact .join hm (by simpa using hall)
        · cases h
  | thread i a =>
      simp only [system, threadStep] at h
      split at h
      · cases h
      · cases h
      · rename_i hi
        simp only [Moss.pickUp] at h
        split at h
        · rename_i hq
          split at h
          · rename_i hid
            cases h
            exact .pickUp hi hq hid
          · cases h
        · rename_i hq
          split at h
          · rename_i hs
            cases h
            exact .exit hi hq hs
          · cases h
      · rename_i hi
        cases h
        exact .finish hi
      · rename_i hi
        obtain ⟨⟨next, effect⟩, hh, rfl⟩ := Option.map_eq_some_iff.mp h
        exact .handle hi hh

end Inversion

end JetsonVoice.Moss
