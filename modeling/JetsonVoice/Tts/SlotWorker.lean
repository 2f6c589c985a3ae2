import JetsonVoice.Foundation.TransitionSystem
import JetsonVoice.Protocol.Events
import JetsonVoice.Tts.SlotPool

/-!
# Workers with one thread for each slot

The Qwen3-TTS and the Spark worker share one design. The main thread reads
stdin, claims a slot for a request and puts it on the slot's job queue; the
slot's thread takes it off, makes its cancel flag reachable through the cancel
map, synthesises, and gives the slot back. The two differ in what happens
between the registration and the terminal event, which is the `Engine`.

## Implementation notes

A worker thread steps between its accesses to what the threads share: the claim
flags, the cancel map, the flag of a slot, stdout. The flag of a Qwen3-TTS slot
is a member of the slot; that of a Spark slot belongs to the channel of the
request in flight, so it is `none` without one. Looking a channel up and
cancelling it is one step: only the decision of the terminal event reads the
flag afterwards, and a decision made in between is made before both.

An event in `out` is tagged with the request whose processing wrote it. A line
whose dispatch throws ends the process, so it has no successor state.
-/

namespace JetsonVoice.Tts

open Foundation Protocol

/-- What a step inside `processRequest` does to the state the threads share. -/
inductive Action where
  | none
  | emit (e : Json)
  /-- The request cancels its own channel. -/
  | raise
  /-- A Code2Wav call returned `false`; recorded in a history variable. -/
  | note
  deriving DecidableEq

/-- The part of `processRequest` between the registration and the cleanup. -/
structure Engine where
  State : Type
  Input : Type
  /-- The fields that carry a request's id in its events. -/
  tag : String → List (String × Json)
  /-- Whether the cancel flag lives on a channel made for each request. -/
  channel : Bool
  start : State
  /-- One step, given the cancel flag as it is and what the calls return. -/
  step : (item : Json) → (id : String) → (cancelled : Bool) → Input → State →
    Option (State × Action)
  /-- Synthesis has begun. -/
  began : State → Bool
  /-- The terminal event has been decided. -/
  decided : State → Bool
  /-- The terminal event has been emitted. -/
  finished : State → Bool

/-- A request on a job queue; `token` tells requests with one id apart. -/
structure Work where
  item : Json
  token : Nat
  deriving DecidableEq

/-- A slot's thread, between its shared accesses. -/
inductive SlotThread (E : Engine) where
  /-- At `queueCv.wait`. -/
  | waiting
  /-- About to reset the flag, or to make the channel. -/
  | arming (work : Work) (id : String)
  | registering (work : Work) (id : String)
  | running (work : Work) (id : String) (state : E.State)
  | unregistering (work : Work) (id : String)
  /-- About to unbind the session, or to drop the channel. -/
  | cleaning (work : Work) (id : String)
  | releasing (work : Work) (id : String)
  | exited

structure Slot (E : Engine) where
  /-- The cancel flag a cancel of this slot reaches. -/
  flag : Option Bool
  shutdown : Bool
  queue : List Work
  thread : SlotThread E

/-- The main thread, between its shared accesses. -/
inductive Main where
  | reading
  | ack (id : String) (tripped : Bool)
  /-- The pool was saturated. -/
  | reject (id : String)
  | bind (id : String) (slotId : Nat) (work : Work)
  | enqueue (id : String) (slotId : Nat) (work : Work)
  /-- Stdin ended; the slots before `next` are told to shut down. -/
  | stopping (next : Nat)
  | joining
  | joined
  deriving DecidableEq

/-- The claim the main thread has made and not yet put on a queue. -/
def Main.claim? : Main → Option (String × Nat × Work)
  | .bind id slotId work | .enqueue id slotId work => some (id, slotId, work)
  | _ => none

structure Worker (E : Engine) where
  pool : SlotPool
  cancelMap : Table String Nat
  slots : List (Slot E)
  main : Main
  out : List (Option Nat × Json)
  nextToken : Nat
  /-- History: the requests put on a queue, and those with a failed Code2Wav call. -/
  accepted : List Nat
  noted : List Nat

/-- What happens next: a line or the end of stdin reaches the main thread, or
one of the threads moves on. -/
inductive Label (E : Engine) where
  | line (parsed : Except String Json)
  | eof
  | main
  | slot (i : Nat) (input : Option E.Input)

namespace Worker

variable {E : Engine}

def init (E : Engine) (maxSlots : Nat) : Worker E where
  pool := .create maxSlots
  cancelMap := ∅
  slots := List.replicate maxSlots
    { flag := if E.channel then none else some false, shutdown := false, queue := [],
      thread := .waiting }
  main := .reading
  out := []
  nextToken := 0
  accepted := []
  noted := []

variable (w : Worker E)

/-- A line of the main thread. -/
def emit (e : Json) : Worker E := { w with out := w.out ++ [(none, e)] }

def setSlot (i : Nat) (s : Slot E) : Worker E := { w with slots := w.slots.set i s }

/-- `tripCancel`: set the flag found through the cancel map. -/
def tripCancel (id : String) : Worker E × Bool :=
  match w.cancelMap.lookup id with
  | none => (w, false)
  | some i =>
      match w.slots[i]? with
      | none => (w, false)
      | some s =>
          if s.flag.isSome then (w.setSlot i { s with flag := some true }, true) else (w, false)

/-- The shared part of a step inside `processRequest`. -/
def apply (i : Nat) (s : Slot E) (token : Nat) : Action → Worker E
  | .none => w.setSlot i s
  | .emit e => { w.setSlot i s with out := w.out ++ [(some token, e)] }
  | .raise => w.setSlot i { s with flag := s.flag.map fun _ => true }
  | .note => { w.setSlot i s with noted := w.noted ++ [token] }

end Worker

variable {E : Engine}

/-- `item.is_object() && item.value("type", "") == "cancel"`; `none` when it throws. -/
def isCancelLine (item : Json) : Option Bool :=
  if item.isObject then (item.valueStr "type" "").toOption.map (· == "cancel") else some false

/-- The main thread's dispatch of one line. -/
def readLine (w : Worker E) : Except String Json → Option (Worker E)
  | .error what => some (w.emit (event "error"
      [("ok", .bool false), ("error", .str ("invalid JSON: " ++ what))]))
  | .ok item => do
      let isCancel ← isCancelLine item
      let id ← (item.valueStr "id" "").toOption
      if isCancel then
        let (w, tripped) := w.tripCancel id
        return { w with main := .ack id tripped }
      else
        match w.pool.acquireFree with
        | none => return { w with main := .reject id }
        | some (slotId, pool) =>
            return { w with
              pool := pool
              nextToken := w.nextToken + 1
              main := .bind id slotId ⟨item, w.nextToken⟩ }

def cancelAck (E : Engine) (id : String) (tripped : Bool) : Json :=
  event "cancel_ack" (E.tag id ++ [("tripped", .bool tripped)])

def saturatedEvent (E : Engine) (id : String) (maxSlots : Nat) : Json :=
  event "error" ([("ok", .bool false), ("error", .str "pool_saturated"), ("status", .int 4429),
    ("max_slots", .int maxSlots)] ++ if id = "" then [] else E.tag id)

/-- The next action of the main thread that needs no input. -/
def mainStep (w : Worker E) : Option (Worker E) :=
  match w.main with
  | .reading | .joined => none
  | .ack id tripped => some { w.emit (cancelAck E id tripped) with main := .reading }
  | .reject id => some { w.emit (saturatedEvent E id w.slots.length) with main := .reading }
  | .bind id slotId work => some { w with
      pool := if id = "" then w.pool else w.pool.bind id slotId
      main := .enqueue id slotId work }
  | .enqueue _ slotId work =>
      w.slots[slotId]?.map fun s =>
        { w.setSlot slotId { s with queue := s.queue ++ [work] } with
          main := .reading
          accepted := w.accepted ++ [work.token] }
  | .stopping next =>
      match w.slots[next]? with
      | some s => some { w.setSlot next { s with shutdown := true } with main := .stopping (next + 1) }
      | none => some { w with main := .joining }
  | .joining =>
      if w.slots.all (fun s => match s.thread with | .exited => true | _ => false) then
        some { w with main := .joined }
      else none

/-- The next action of a slot's thread. Inside `processRequest` the calls of the
engine answer with an input. -/
def slotStep (w : Worker E) (i : Nat) (s : Slot E) (input : Option E.Input) : Option (Worker E) :=
  match s.thread with
  | .exited => none
  | .waiting =>
      match s.queue with
      | work :: queue =>
          match work.item.valueStr "id" "" with
          | .ok id => some (w.setSlot i { s with queue := queue, thread := .arming work id })
          | .error _ => none
      | [] => if s.shutdown then some (w.setSlot i { s with thread := .exited }) else none
  | .arming work id =>
      some (w.setSlot i { s with flag := some false, thread := .registering work id })
  | .registering work id => some { w.setSlot i { s with thread := .running work id E.start } with
      cancelMap := if id = "" then w.cancelMap else w.cancelMap.insert id i }
  | .running work id state =>
      if E.finished state then some (w.setSlot i { s with thread := .unregistering work id })
      else do
        let input ← input
        let (next, action) ← E.step work.item id (s.flag.getD false) input state
        return w.apply i { s with thread := .running work id next } work.token action
  | .unregistering work id => some { w.setSlot i { s with thread := .cleaning work id } with
      cancelMap := if id = "" then w.cancelMap else w.cancelMap.erase id }
  | .cleaning work id =>
      if E.channel then some (w.setSlot i { s with flag := none, thread := .releasing work id })
      else some { w.setSlot i { s with thread := .releasing work id } with
        pool := if id = "" then w.pool else w.pool.unbind id }
  | .releasing _ _ =>
      some { w.setSlot i { s with thread := .waiting } with pool := w.pool.release i }

/-- A worker of one thread for each slot, with all interleavings of its threads. -/
def slotSystem (E : Engine) (maxSlots : Nat) : TransitionSystem (Worker E) (Label E) where
  start := .init E maxSlots
  step w
    | .line parsed => if w.main = .reading then readLine w parsed else none
    | .eof => if w.main = .reading then some { w with main := .stopping 0 } else none
    | .main => mainStep w
    | .slot i input =>
        match w.slots[i]? with
        | some s => slotStep w i s input
        | none => none

/-- Every way a worker can take a step, with the state it leads to. -/
inductive Step (w : Worker E) : Label E → Worker E → Prop
  | answer {what : String} {e : Json} (reading : w.main = .reading) :
      Step w (.line (.error what)) (w.emit e)
  | miss {item : Json} {id : String} (reading : w.main = .reading)
      (hc : isCancelLine item = some true) (hid : item.valueStr "id" "" = .ok id)
      (hmiss : ∀ {i s}, w.cancelMap.lookup id = some i → w.slots[i]? = some s → s.flag = none) :
      Step w (.line (.ok item)) { w with main := .ack id false }
  | trip {item : Json} {id : String} {i : Nat} {s : Slot E} (reading : w.main = .reading)
      (hc : isCancelLine item = some true) (hid : item.valueStr "id" "" = .ok id)
      (hmap : w.cancelMap.lookup id = some i) (hi : w.slots[i]? = some s)
      (hflag : s.flag.isSome = true) :
      Step w (.line (.ok item))
        { w.setSlot i { s with flag := some true } with main := .ack id true }
  | saturated {item : Json} {id : String} (reading : w.main = .reading)
      (hc : isCancelLine item = some false) (hid : item.valueStr "id" "" = .ok id)
      (full : w.pool.acquireFree = none) :
      Step w (.line (.ok item)) { w with main := .reject id }
  | claim {item : Json} {id : String} {slotId : Nat} {pool : SlotPool} (reading : w.main = .reading)
      (hc : isCancelLine item = some false) (hid : item.valueStr "id" "" = .ok id)
      (free : w.pool.acquireFree = some (slotId, pool)) :
      Step w (.line (.ok item)) { w with
        pool := pool
        nextToken := w.nextToken + 1
        main := .bind id slotId ⟨item, w.nextToken⟩ }
  | eof (reading : w.main = .reading) : Step w .eof { w with main := .stopping 0 }
  | ack {id : String} {tripped : Bool} (hm : w.main = .ack id tripped) :
      Step w .main { w.emit (cancelAck E id tripped) with main := .reading }
  | reject {id : String} (hm : w.main = .reject id) :
      Step w .main { w.emit (saturatedEvent E id w.slots.length) with main := .reading }
  | bind {id : String} {slotId : Nat} {work : Work} {pool : SlotPool}
      (hm : w.main = .bind id slotId work) (inUse : pool.inUse = w.pool.inUse) :
      Step w .main { w with pool := pool, main := .enqueue id slotId work }
  | enqueue {id : String} {slotId : Nat} {work : Work} {s : Slot E}
      (hm : w.main = .enqueue id slotId work) (hi : w.slots[slotId]? = some s) :
      Step w .main { w.setSlot slotId { s with queue := s.queue ++ [work] } with
        main := .reading
        accepted := w.accepted ++ [work.token] }
  | shutdown {next : Nat} {s : Slot E} (hm : w.main = .stopping next)
      (hi : w.slots[next]? = some s) :
      Step w .main { w.setSlot next { s with shutdown := true } with main := .stopping (next + 1) }
  | stopped {next : Nat} (hm : w.main = .stopping next) (hi : w.slots[next]? = none) :
      Step w .main { w with main := .joining }
  | join (hm : w.main = .joining) : Step w .main { w with main := .joined }
  | pickUp {i : Nat} {input : Option E.Input} {s : Slot E} {work : Work} {queue : List Work}
      {id : String} (hi : w.slots[i]? = some s) (ht : s.thread = .waiting)
      (hq : s.queue = work :: queue) (hid : work.item.valueStr "id" "" = .ok id) :
      Step w (.slot i input) (w.setSlot i { s with queue := queue, thread := .arming work id })
  | exit {i : Nat} {input : Option E.Input} {s : Slot E} (hi : w.slots[i]? = some s)
      (ht : s.thread = .waiting) (hq : s.queue = []) (hs : s.shutdown = true) :
      Step w (.slot i input) (w.setSlot i { s with thread := .exited })
  | arm {i : Nat} {input : Option E.Input} {s : Slot E} {work : Work} {id : String}
      (hi : w.slots[i]? = some s) (ht : s.thread = .arming work id) :
      Step w (.slot i input)
        (w.setSlot i { s with flag := some false, thread := .registering work id })
  | register {i : Nat} {input : Option E.Input} {s : Slot E} {work : Work} {id : String}
      (hi : w.slots[i]? = some s) (ht : s.thread = .registering work id) :
      Step w (.slot i input) { w.setSlot i { s with thread := .running work id E.start } with
        cancelMap := if id = "" then w.cancelMap else w.cancelMap.insert id i }
  | leave {i : Nat} {input : Option E.Input} {s : Slot E} {work : Work} {id : String}
      {state : E.State} (hi : w.slots[i]? = some s) (ht : s.thread = .running work id state)
      (hf : E.finished state = true) :
      Step w (.slot i input) (w.setSlot i { s with thread := .unregistering work id })
  | engine {i : Nat} {input : E.Input} {s : Slot E} {work : Work} {id : String}
      {state next : E.State} {action : Action} (hi : w.slots[i]? = some s)
      (ht : s.thread = .running work id state) (hf : E.finished state = false)
      (hs : E.step work.item id (s.flag.getD false) input state = some (next, action)) :
      Step w (.slot i (some input))
        (w.apply i { s with thread := .running work id next } work.token action)
  | unregister {i : Nat} {input : Option E.Input} {s : Slot E} {work : Work} {id : String}
      (hi : w.slots[i]? = some s) (ht : s.thread = .unregistering work id) :
      Step w (.slot i input) { w.setSlot i { s with thread := .cleaning work id } with
        cancelMap := if id = "" then w.cancelMap else w.cancelMap.erase id }
  | clean {i : Nat} {input : Option E.Input} {s : Slot E} {work : Work} {id : String}
      {flag : Option Bool} {pool : SlotPool} (hi : w.slots[i]? = some s)
      (ht : s.thread = .cleaning work id) (hflag : E.channel = false → flag = s.flag)
      (inUse : pool.inUse = w.pool.inUse) :
      Step w (.slot i input)
        { w.setSlot i { s with flag := flag, thread := .releasing work id } with pool := pool }
  | release {i : Nat} {input : Option E.Input} {s : Slot E} {work : Work} {id : String}
      (hi : w.slots[i]? = some s) (ht : s.thread = .releasing work id) :
      Step w (.slot i input)
        { w.setSlot i { s with thread := .waiting } with pool := w.pool.release i }

section Inversion
variable {maxSlots : Nat} {w w' : Worker E}

theorem tripCancel_cases {item : Json} {id : String} (reading : w.main = .reading)
    (hc : isCancelLine item = some true) (hid : item.valueStr "id" "" = .ok id) :
    Step w (.line (.ok item)) { (w.tripCancel id).1 with main := .ack id (w.tripCancel id).2 } := by
  rw [Worker.tripCancel]
  split
  · rename_i hmap
    exact .miss reading hc hid (by simp [hmap])
  · rename_i i hmap
    split
    · rename_i hi
      refine .miss reading hc hid fun hmap' hi' => ?_
      cases hmap.symm.trans hmap'
      cases hi.symm.trans hi'
    · rename_i s hi
      split
      · rename_i hflag
        exact .trip reading hc hid hmap hi hflag
      · rename_i hflag
        refine .miss reading hc hid fun hmap' hi' => ?_
        cases hmap.symm.trans hmap'
        cases hi.symm.trans hi'
        simpa using hflag

theorem readLine_cases {parsed : Except String Json} (reading : w.main = .reading)
    (h : readLine w parsed = some w') : Step w (.line parsed) w' := by
  cases parsed with
  | error what =>
      cases h
      exact .answer reading
  | ok item =>
      simp only [readLine, bind, pure] at h
      obtain ⟨isCancel, hc, h⟩ := Option.bind_eq_some_iff.mp h
      obtain ⟨id, hid', h⟩ := Option.bind_eq_some_iff.mp h
      have hid : item.valueStr "id" "" = .ok id := by
        cases hv : item.valueStr "id" "" with
        | error e => simp [hv, Except.toOption] at hid'
        | ok v => simpa [hv, Except.toOption] using hid'
      cases isCancel with
      | true =>
          cases h
          exact tripCancel_cases reading hc hid
      | false =>
          simp only [Bool.false_eq_true, if_false] at h
          split at h
          · rename_i full
            cases h
            exact .saturated reading hc hid full
          · rename_i free
            cases h
            exact .claim reading hc hid free

theorem mainStep_cases (h : mainStep w = some w') : Step w .main w' := by
  simp only [mainStep] at h
  split at h
  · cases h
  · cases h
  · rename_i hm
    cases h
    exact .ack hm
  · rename_i hm
    cases h
    exact .reject hm
  · rename_i hm
    cases h
    exact .bind hm (by split <;> rfl)
  · rename_i hm
    obtain ⟨s, hi, rfl⟩ := Option.map_eq_some_iff.mp h
    exact .enqueue hm hi
  · rename_i hm
    split at h
    · rename_i hi
      cases h
      exact .shutdown hm hi
    · rename_i hi
      cases h
      exact .stopped hm hi
  · rename_i hm
    split at h
    · cases h
      exact .join hm
    · cases h

theorem slotStep_cases {i : Nat} {s : Slot E} {input : Option E.Input}
    (hi : w.slots[i]? = some s) (h : slotStep w i s input = some w') :
    Step w (.slot i input) w' := by
  simp only [slotStep] at h
  split at h
  · cases h
  · rename_i ht
    split at h
    · rename_i hq
      split at h
      · rename_i hid
        cases h
        exact .pickUp hi ht hq hid
      · cases h
    · rename_i hq
      split at h
      · rename_i hs
        cases h
        exact .exit hi ht hq hs
      · cases h
  · rename_i ht
    cases h
    exact .arm hi ht
  · rename_i ht
    cases h
    exact .register hi ht
  · rename_i ht
    split at h
    · rename_i hf
      cases h
      exact .leave hi ht hf
    · rename_i hf
      cases input with
      | none => cases h
      | some input =>
          simp only [bind, pure, Option.bind_some] at h
          obtain ⟨⟨next, action⟩, hs, h⟩ := Option.bind_eq_some_iff.mp h
          cases h
          exact .engine hi ht (by simpa using hf) hs
  · rename_i ht
    cases h
    exact .unregister hi ht
  · rename_i ht
    split at h
    · rename_i hc
      cases h
      exact .clean hi ht (by simp [hc]) rfl
    · cases h
      exact .clean hi ht (fun _ => rfl) (by split <;> rfl)
  · rename_i ht
    cases h
    exact .release hi ht

/-- A step of the system is one of the listed ways. -/
theorem step_cases {l : Label E} (h : (slotSystem E maxSlots).step w l = some w') :
    Step w l w' := by
  cases l with
  | line parsed =>
      simp only [slotSystem] at h
      split at h
      · rename_i hm
        exact readLine_cases hm h
      · cases h
  | eof =>
      simp only [slotSystem] at h
      split at h
      · rename_i hm
        cases h
        exact .eof hm
      · cases h
  | main => exact mainStep_cases h
  | slot i input =>
      simp only [slotSystem] at h
      split at h
      · rename_i hi
        exact slotStep_cases hi h
      · cases h

/-- A step of the engine is a step of the worker. -/
theorem step_engine {i : Nat} {s : Slot E} {work : Work} {id : String} {state next : E.State}
    {input : E.Input} {action : Action} (hi : w.slots[i]? = some s)
    (ht : s.thread = .running work id state) (hf : E.finished state = false)
    (hs : E.step work.item id (s.flag.getD false) input state = some (next, action)) :
    (slotSystem E maxSlots).step w (.slot i (some input)) =
      some (w.apply i { s with thread := .running work id next } work.token action) := by
  simp [slotSystem, hi, slotStep, ht, hf, hs, bind, pure]

end Inversion

@[simp] theorem Worker.apply_main (w : Worker E) (i : Nat) (s : Slot E) (token : Nat)
    (action : Action) : (w.apply i s token action).main = w.main := by
  cases action <;> rfl

/-- A claim of the main thread was there before the step, or a request line made it. -/
theorem Step.claim_cases {w w' : Worker E} {l : Label E} (h : Step w l w') {id : String} {i : Nat}
    {work : Work} (hm : w'.main.claim? = some (id, i, work)) :
    w.main.claim? = some (id, i, work) ∨
    ∃ item pool, l = .line (.ok item) ∧ w.main = .reading ∧ isCancelLine item = some false ∧
      item.valueStr "id" "" = .ok id ∧ w.pool.acquireFree = some (i, pool) ∧
      work = ⟨item, w.nextToken⟩ := by
  cases h with
  | claim reading hc hid free =>
      cases hm
      exact .inr ⟨_, _, rfl, reading, hc, hid, free, rfl⟩
  | bind hm' _ => exact .inl (hm' ▸ hm)
  | engine _ _ _ _ => exact .inl (by simpa using hm)
  | trip | saturated | miss | eof | ack | reject | enqueue | shutdown | stopped | join =>
      cases hm
  | _ => exact .inl hm

/-- What one step can do to a slot. -/
inductive SlotMove (w : Worker E) (i : Nat) (s : Slot E) : Slot E → Prop
  | stay : SlotMove w i s s
  | trip {id : String} (hmap : w.cancelMap.lookup id = some i) :
      SlotMove w i s { s with flag := some true }
  | enqueue {id : String} {work : Work} (hm : w.main = .enqueue id i work) :
      SlotMove w i s { s with queue := s.queue ++ [work] }
  | shutdown (hm : w.main = .stopping i) : SlotMove w i s { s with shutdown := true }
  | pickUp {work : Work} {queue : List Work} {id : String} (ht : s.thread = .waiting)
      (hq : s.queue = work :: queue) (hid : work.item.valueStr "id" "" = .ok id) :
      SlotMove w i s { s with queue := queue, thread := .arming work id }
  | exit (ht : s.thread = .waiting) (hq : s.queue = []) (hs : s.shutdown = true) :
      SlotMove w i s { s with thread := .exited }
  | arm {work : Work} {id : String} (ht : s.thread = .arming work id) :
      SlotMove w i s { s with flag := some false, thread := .registering work id }
  | register {work : Work} {id : String} (ht : s.thread = .registering work id) :
      SlotMove w i s { s with thread := .running work id E.start }
  | leave {work : Work} {id : String} {state : E.State} (ht : s.thread = .running work id state)
      (hf : E.finished state = true) : SlotMove w i s { s with thread := .unregistering work id }
  | engine {work : Work} {id : String} {state next : E.State} {input : E.Input} {action : Action}
      {flag : Option Bool} (ht : s.thread = .running work id state)
      (hf : E.finished state = false)
      (hs : E.step work.item id (s.flag.getD false) input state = some (next, action))
      (hflag : flag = s.flag ∨ flag = s.flag.map fun _ => true) :
      SlotMove w i s { s with flag := flag, thread := .running work id next }
  | unregister {work : Work} {id : String} (ht : s.thread = .unregistering work id) :
      SlotMove w i s { s with thread := .cleaning work id }
  | clean {work : Work} {id : String} {flag : Option Bool} (ht : s.thread = .cleaning work id) :
      SlotMove w i s { s with flag := flag, thread := .releasing work id }
  | release {work : Work} {id : String} (ht : s.thread = .releasing work id) :
      SlotMove w i s { s with thread := .waiting }

section Move
variable {w w' : Worker E} {l : Label E} {i j : Nat} {s s' : Slot E}

theorem move_setSlot (hi : w.slots[i]? = some s) (hm : SlotMove w i s s') {t : Slot E}
    (hj : (w.setSlot i s').slots[j]? = some t) :
    ∃ t₀, w.slots[j]? = some t₀ ∧ SlotMove w j t₀ t := by
  rcases getElem?_set_cases hj with ⟨rfl, rfl, -⟩ | ⟨-, hj'⟩
  · exact ⟨s, hi, hm⟩
  · exact ⟨t, hj', .stay⟩

/-- The slots after a step, each with the move it made. -/
theorem Step.move (h : Step w l w') {t : Slot E} (hj : w'.slots[j]? = some t) :
    ∃ t₀, w.slots[j]? = some t₀ ∧ SlotMove w j t₀ t := by
  cases h with
  | trip _ _ _ hmap hi _ => exact move_setSlot hi (.trip hmap) hj
  | enqueue hm hi => exact move_setSlot hi (.enqueue hm) hj
  | shutdown hm hi => exact move_setSlot hi (.shutdown hm) hj
  | pickUp hi ht hq hid => exact move_setSlot hi (.pickUp ht hq hid) hj
  | exit hi ht hq hs => exact move_setSlot hi (.exit ht hq hs) hj
  | arm hi ht => exact move_setSlot hi (.arm ht) hj
  | register hi ht => exact move_setSlot hi (.register ht) hj
  | leave hi ht hf => exact move_setSlot hi (.leave ht hf) hj
  | @engine i _ s _ _ _ _ action hi ht hf hs =>
      cases action with
      | raise => exact move_setSlot hi (.engine ht hf hs (.inr rfl)) hj
      | _ => exact move_setSlot hi (.engine ht hf hs (.inl rfl)) hj
  | unregister hi ht => exact move_setSlot hi (.unregister ht) hj
  | clean hi ht _ _ => exact move_setSlot hi (.clean ht) hj
  | release hi ht => exact move_setSlot hi (.release ht) hj
  | _ => exact ⟨t, hj, .stay⟩

end Move

end JetsonVoice.Tts
