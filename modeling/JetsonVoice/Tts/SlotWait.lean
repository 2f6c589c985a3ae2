import JetsonVoice.Tts.RequestLog

/-!
# Where a slot's thread waits

`slotSystem` takes `queueCv.wait` as one step. This is the wait as a condition
variable performs it: take the mutex of the queue, test the predicate, block and
give up the mutex in one, and start over once notified. The main thread notifies
after it has put a request on a queue, which it does under the mutex, and after
it has set a shutdown flag, which is an atomic and written without it.

## Implementation notes

The mutex is held from the test of the predicate to the block, or to the end of
the scope that takes a request off the queue. Taking and giving it up around the
push of the main thread is one step with the push. Every step is a step of the
worker of `slotSystem` or leaves that worker alone.
-/

namespace JetsonVoice.Tts

open Foundation Protocol TransitionSystem

variable {E : Engine}

/-- Where a slot's thread is in `queueCv.wait`. -/
inductive Wait where
  /-- Not in it, or about to take the mutex. -/
  | arriving
  /-- About to test the predicate. -/
  | testing
  /-- The predicate was false, and the thread is about to block. -/
  | parking
  | blocked
  /-- The predicate was true. -/
  | passed
  deriving DecidableEq

/-- The thread has the mutex of its queue. -/
def Wait.locked : Wait → Bool
  | .testing | .parking | .passed => true
  | .arriving | .blocked => false

/-- A worker, with where its threads are in their waits. -/
structure Waiting (E : Engine) where
  worker : Worker E
  wait : Nat → Wait
  /-- The slot the main thread has yet to notify. -/
  notice : Option Nat

/-- A step of the worker's threads, or a wake-up without a notification. -/
inductive WaitLabel (E : Engine) where
  | act (l : Label E)
  | spurious (i : Nat)

/-- The predicate of `queueCv.wait`. -/
def Slot.ready (slot : Slot E) : Bool := !slot.queue.isEmpty || slot.shutdown

/-- The slot the main thread notifies after its next step. -/
def Worker.notifies (w : Worker E) : Option Nat :=
  match w.main with
  | .enqueue _ slotId _ => some slotId
  | .stopping next => if next < w.slots.length then some next else none
  | _ => none

namespace Waiting

def init (E : Engine) (maxSlots : Nat) : Waiting E :=
  ⟨.init E maxSlots, fun _ => .arriving, none⟩

variable (s : Waiting E)

def setWait (i : Nat) (p : Wait) : Waiting E := { s with wait := Function.update s.wait i p }

/-- `notify_one` or `notify_all`: one thread at most is blocked on the condition variable. -/
def notify (i : Nat) : Waiting E :=
  { s with
    wait := if s.wait i = .blocked then Function.update s.wait i .arriving else s.wait
    notice := none }

/-- The next step of the main thread waits for a mutex. -/
def excluded : Bool :=
  match s.worker.main with
  | .enqueue _ slotId _ => (s.wait slotId).locked
  | _ => false

/-- A step of the worker, as `slotSystem` has it. -/
def follow (l : Label E) : Option (Waiting E) :=
  ((slotSystem E s.worker.slots.length).step s.worker l).map fun w => { s with worker := w }

def mainAct : Option (Waiting E) :=
  match s.notice with
  | some i => some (s.notify i)
  | none =>
      if s.excluded then none
      else (s.follow .main).map fun t => { t with notice := s.worker.notifies }

def slotAct (i : Nat) (slot : Slot E) (input : Option E.Input) : Option (Waiting E) :=
  match slot.thread with
  | .waiting =>
      match s.wait i with
      | .arriving => some (s.setWait i .testing)
      | .testing => some (s.setWait i (if slot.ready then .passed else .parking))
      | .parking => some (s.setWait i .blocked)
      | .blocked => none
      | .passed => (s.follow (.slot i input)).map (·.setWait i .arriving)
  | _ => s.follow (.slot i input)

end Waiting

/-- A worker of one thread for each slot, with the waits of its threads. -/
def waitSystem (E : Engine) (maxSlots : Nat) : TransitionSystem (Waiting E) (WaitLabel E) where
  start := .init E maxSlots
  step s
    | .spurious i => if s.wait i = .blocked then some (s.setWait i .arriving) else none
    | .act .main => s.mainAct
    | .act (.slot i input) =>
        match s.worker.slots[i]? with
        | some slot => s.slotAct i slot input
        | none => none
    | .act l => if s.notice = none then s.follow l else none

/-- Every way a step can be taken, with the state it leads to. -/
inductive WaitStep (maxSlots : Nat) (s : Waiting E) : WaitLabel E → Waiting E → Prop
  | spurious {i : Nat} (hw : s.wait i = .blocked) :
      WaitStep maxSlots s (.spurious i) (s.setWait i .arriving)
  | notify {i : Nat} (hn : s.notice = some i) : WaitStep maxSlots s (.act .main) (s.notify i)
  | main {w : Worker E} (hn : s.notice = none) (hx : s.excluded = false)
      (hs : (slotSystem E maxSlots).step s.worker .main = some w) :
      WaitStep maxSlots s (.act .main) { s with worker := w, notice := s.worker.notifies }
  | line {parsed : Except String Json} {w : Worker E} (hn : s.notice = none)
      (hs : (slotSystem E maxSlots).step s.worker (.line parsed) = some w) :
      WaitStep maxSlots s (.act (.line parsed)) { s with worker := w }
  | eof {w : Worker E} (hn : s.notice = none)
      (hs : (slotSystem E maxSlots).step s.worker .eof = some w) :
      WaitStep maxSlots s (.act .eof) { s with worker := w }
  | arrive {i : Nat} {input : Option E.Input} {slot : Slot E}
      (hi : s.worker.slots[i]? = some slot) (ht : slot.thread = .waiting)
      (hw : s.wait i = .arriving) :
      WaitStep maxSlots s (.act (.slot i input)) (s.setWait i .testing)
  | pass {i : Nat} {input : Option E.Input} {slot : Slot E}
      (hi : s.worker.slots[i]? = some slot) (ht : slot.thread = .waiting)
      (hw : s.wait i = .testing) (hr : slot.ready = true) :
      WaitStep maxSlots s (.act (.slot i input)) (s.setWait i .passed)
  | park {i : Nat} {input : Option E.Input} {slot : Slot E}
      (hi : s.worker.slots[i]? = some slot) (ht : slot.thread = .waiting)
      (hw : s.wait i = .testing) (hr : slot.ready = false) :
      WaitStep maxSlots s (.act (.slot i input)) (s.setWait i .parking)
  | block {i : Nat} {input : Option E.Input} {slot : Slot E}
      (hi : s.worker.slots[i]? = some slot) (ht : slot.thread = .waiting)
      (hw : s.wait i = .parking) :
      WaitStep maxSlots s (.act (.slot i input)) (s.setWait i .blocked)
  | leave {i : Nat} {input : Option E.Input} {slot : Slot E} {w : Worker E}
      (hi : s.worker.slots[i]? = some slot) (ht : slot.thread = .waiting)
      (hw : s.wait i = .passed)
      (hs : (slotSystem E maxSlots).step s.worker (.slot i input) = some w) :
      WaitStep maxSlots s (.act (.slot i input)) ({ s with worker := w }.setWait i .arriving)
  | work {i : Nat} {input : Option E.Input} {slot : Slot E} {w : Worker E}
      (hi : s.worker.slots[i]? = some slot) (ht : slot.thread ≠ .waiting)
      (hs : (slotSystem E maxSlots).step s.worker (.slot i input) = some w) :
      WaitStep maxSlots s (.act (.slot i input)) { s with worker := w }

section Inversion
variable {maxSlots : Nat} {s t : Waiting E}

theorem follow_eq_some {l : Label E} (h : s.follow l = some t) :
    ∃ w, (∀ n, (slotSystem E n).step s.worker l = some w) ∧ t = { s with worker := w } := by
  obtain ⟨w, hs, rfl⟩ := Option.map_eq_some_iff.mp h
  exact ⟨w, fun _ => hs, rfl⟩

theorem mainAct_cases (h : s.mainAct = some t) : WaitStep maxSlots s (.act .main) t := by
  unfold Waiting.mainAct at h
  split at h
  · rename_i hn
    cases h
    exact .notify hn
  · rename_i hn
    split at h
    · cases h
    · rename_i hx
      obtain ⟨t', hf, rfl⟩ := Option.map_eq_some_iff.mp h
      obtain ⟨w, hs, rfl⟩ := follow_eq_some hf
      exact .main hn (by simpa using hx) (hs maxSlots)

theorem slotAct_cases {i : Nat} {slot : Slot E} {input : Option E.Input}
    (hi : s.worker.slots[i]? = some slot) (h : s.slotAct i slot input = some t) :
    WaitStep maxSlots s (.act (.slot i input)) t := by
  unfold Waiting.slotAct at h
  split at h
  · rename_i ht
    split at h
    · rename_i hw
      cases h
      exact .arrive hi ht hw
    · rename_i hw
      cases h
      cases hr : slot.ready with
      | true => exact .pass hi ht hw hr
      | false => exact .park hi ht hw hr
    · rename_i hw
      cases h
      exact .block hi ht hw
    · cases h
    · rename_i hw
      obtain ⟨t', hf, rfl⟩ := Option.map_eq_some_iff.mp h
      obtain ⟨w, hs, rfl⟩ := follow_eq_some hf
      exact .leave hi ht hw (hs maxSlots)
  · rename_i ht
    obtain ⟨w, hs, rfl⟩ := follow_eq_some h
    exact .work hi ht (hs maxSlots)

/-- A step of the system is one of the listed ways. -/
theorem waitStep_cases {l : WaitLabel E} (h : (waitSystem E maxSlots).step s l = some t) :
    WaitStep maxSlots s l t := by
  cases l with
  | spurious i =>
      simp only [waitSystem] at h
      split at h
      · rename_i hw
        cases h
        exact .spurious hw
      · cases h
  | act l =>
      cases l with
      | main => exact mainAct_cases h
      | slot i input =>
          simp only [waitSystem] at h
          split at h
          · rename_i hi
            exact slotAct_cases hi h
          · cases h
      | line parsed =>
          simp only [waitSystem] at h
          split at h
          · rename_i hn
            obtain ⟨w, hs, rfl⟩ := follow_eq_some h
            exact .line hn (hs maxSlots)
          · cases h
      | eof =>
          simp only [waitSystem] at h
          split at h
          · rename_i hn
            obtain ⟨w, hs, rfl⟩ := follow_eq_some h
            exact .eof hn (hs maxSlots)
          · cases h

/-- The worker of a run with waits is in a run of `slotSystem`. -/
theorem wait_simulation (E : Engine) (maxSlots : Nat) :
    Simulation (waitSystem E maxSlots) (slotSystem E maxSlots) Waiting.worker where
  start := rfl
  step _ h := by
    cases waitStep_cases h with
    | main _ _ hs => exact .inr ⟨_, hs⟩
    | line _ hs => exact .inr ⟨_, hs⟩
    | eof _ hs => exact .inr ⟨_, hs⟩
    | leave _ _ _ hs => exact .inr ⟨_, hs⟩
    | work _ _ hs => exact .inr ⟨_, hs⟩
    | _ => exact .inl rfl

theorem step_notify {i : Nat} (hn : s.notice = some i) :
    (waitSystem E maxSlots).step s (.act .main) = some (s.notify i) := by
  simp [waitSystem, Waiting.mainAct, hn]

/-- A step of the worker's main thread, as a step with the waits. -/
theorem step_main {w : Worker E} (hn : s.notice = none) (hx : s.excluded = false)
    (hs : (slotSystem E maxSlots).step s.worker .main = some w) :
    (waitSystem E maxSlots).step s (.act .main) =
      some { s with worker := w, notice := s.worker.notifies } := by
  have hfollow : s.follow .main = some { s with worker := w } :=
    Option.map_eq_some_iff.mpr ⟨w, hs, rfl⟩
  simp [waitSystem, Waiting.mainAct, hn, hx, hfollow]

/-- A step of the worker on a slot, as a step with the waits. -/
theorem step_slot {i : Nat} {slot : Slot E} {input : Option E.Input} {w : Worker E}
    (hi : s.worker.slots[i]? = some slot) (ht : slot.thread = .waiting → s.wait i = .passed)
    (hs : (slotSystem E maxSlots).step s.worker (.slot i input) = some w) :
    ∃ t, (waitSystem E maxSlots).step s (.act (.slot i input)) = some t := by
  have hfollow : s.follow (.slot i input) = some { s with worker := w } :=
    Option.map_eq_some_iff.mpr ⟨w, hs, rfl⟩
  simp only [waitSystem, hi, Waiting.slotAct]
  split
  · rename_i hwait
    rw [ht hwait]
    exact ⟨_, Option.map_eq_some_iff.mpr ⟨_, hfollow, rfl⟩⟩
  · exact ⟨_, hfollow⟩

end Inversion

section Frame
variable {w w' : Worker E} {i : Nat} {input : Option E.Input}

/-- A slot's thread leaves the main thread where it is. -/
theorem Step.main_of_slot (h : Step w (.slot i input) w') : w'.main = w.main := by
  cases h with
  | engine => simp
  | _ => rfl

/-- A slot's thread leaves the other slots alone. -/
theorem Step.slot_other (h : Step w (.slot i input) w') {j : Nat} (hj : j ≠ i) :
    w'.slots[j]? = w.slots[j]? := by
  cases h with
  | @engine _ _ _ _ _ _ _ action =>
      cases action <;> exact getElem?_set_other hj
  | _ => exact getElem?_set_other hj

end Frame

/-- What a slot's thread does to its slot while it has a request. -/
inductive WorkMove (slot : Slot E) : Slot E → Prop
  | arm {work : Work} {id : String} (ht : slot.thread = .arming work id) :
      WorkMove slot { slot with flag := some false, thread := .registering work id }
  | register {work : Work} {id : String} (ht : slot.thread = .registering work id) :
      WorkMove slot { slot with thread := .running work id E.start }
  | engine {work : Work} {id : String} {state next : E.State} {flag : Option Bool}
      (ht : slot.thread = .running work id state) (hf : E.finished state = false) :
      WorkMove slot { slot with flag := flag, thread := .running work id next }
  | leave {work : Work} {id : String} {state : E.State}
      (ht : slot.thread = .running work id state) (hf : E.finished state = true) :
      WorkMove slot { slot with thread := .unregistering work id }
  | unregister {work : Work} {id : String} (ht : slot.thread = .unregistering work id) :
      WorkMove slot { slot with thread := .cleaning work id }
  | clean {work : Work} {id : String} {flag : Option Bool} (ht : slot.thread = .cleaning work id) :
      WorkMove slot { slot with flag := flag, thread := .releasing work id }
  | release {work : Work} {id : String} (ht : slot.thread = .releasing work id) :
      WorkMove slot { slot with thread := .waiting }

section Own
variable {w w' : Worker E} {i : Nat} {input : Option E.Input} {slot slot' new : Slot E}

theorem slot_of_set (hi : w.slots[i]? = some slot) (hs : w'.slots = w.slots.set i new)
    (hi' : w'.slots[i]? = some slot') : slot' = new := by
  rw [hs, getElem?_set_same hi] at hi'
  exact (Option.some.inj hi').symm

/-- A step of a slot's thread out of its wait. -/
theorem Step.left (h : Step w (.slot i input) w') (hi : w.slots[i]? = some slot)
    (ht : slot.thread = .waiting) (hi' : w'.slots[i]? = some slot') :
    (∃ work queue id, slot.queue = work :: queue ∧
      slot' = { slot with queue := queue, thread := .arming work id }) ∨
    slot.queue = [] ∧ slot' = { slot with thread := .exited } := by
  cases h with
  | pickUp hj ht' hq _ =>
      cases hj.symm.trans hi
      exact .inl ⟨_, _, _, hq, slot_of_set hi rfl hi'⟩
  | exit hj ht' hq _ =>
      cases hj.symm.trans hi
      exact .inr ⟨hq, slot_of_set hi rfl hi'⟩
  | arm hj ht' | register hj ht' | leave hj ht' | engine hj ht' | unregister hj ht'
  | clean hj ht' | release hj ht' =>
      cases hj.symm.trans hi
      cases ht.symm.trans ht'

/-- A step of a slot's thread that is not in its wait. -/
theorem Step.work (h : Step w (.slot i input) w') (hi : w.slots[i]? = some slot)
    (ht : slot.thread ≠ .waiting) (hi' : w'.slots[i]? = some slot') : WorkMove slot slot' := by
  cases h with
  | pickUp hj ht' | exit hj ht' =>
      cases hj.symm.trans hi
      exact absurd ht' ht
  | arm hj ht' =>
      cases hj.symm.trans hi
      exact slot_of_set hi rfl hi' ▸ .arm ht'
  | register hj ht' =>
      cases hj.symm.trans hi
      exact slot_of_set hi rfl hi' ▸ .register ht'
  | leave hj ht' hf =>
      cases hj.symm.trans hi
      exact slot_of_set hi rfl hi' ▸ .leave ht' hf
  | @engine _ _ _ _ _ _ _ action hj ht' hf =>
      cases hj.symm.trans hi
      cases action <;> exact slot_of_set hi rfl hi' ▸ .engine ht' hf
  | unregister hj ht' =>
      cases hj.symm.trans hi
      exact slot_of_set hi rfl hi' ▸ .unregister ht'
  | clean hj ht' =>
      cases hj.symm.trans hi
      exact slot_of_set hi rfl hi' ▸ .clean ht'
  | release hj ht' =>
      cases hj.symm.trans hi
      exact slot_of_set hi rfl hi' ▸ .release ht'

end Own

/-- What one step can do to a slot and to the wait of its thread. -/
inductive WaitMove (s t : Waiting E) (i : Nat) (slot : Slot E) : Slot E → Wait → Prop
  | stay {flag : Option Bool} : WaitMove s t i slot { slot with flag := flag } (s.wait i)
  | enqueue {id : String} {work : Work} (hm : s.worker.main = .enqueue id i work)
      (hw : (s.wait i).locked = false) (hn : t.notice = some i) :
      WaitMove s t i slot { slot with queue := slot.queue ++ [work] } (s.wait i)
  | shutdown (hm : s.worker.main = .stopping i) (hn : t.notice = some i) :
      WaitMove s t i slot { slot with shutdown := true } (s.wait i)
  | wake (hw : s.wait i = .blocked) : WaitMove s t i slot slot .arriving
  | arrive (ht : slot.thread = .waiting) (hw : s.wait i = .arriving) :
      WaitMove s t i slot slot .testing
  | pass (ht : slot.thread = .waiting) (hw : s.wait i = .testing) (hr : slot.ready = true) :
      WaitMove s t i slot slot .passed
  | park (ht : slot.thread = .waiting) (hw : s.wait i = .testing) (hr : slot.ready = false) :
      WaitMove s t i slot slot .parking
  | block (ht : slot.thread = .waiting) (hw : s.wait i = .parking) :
      WaitMove s t i slot slot .blocked
  | pickUp {work : Work} {queue : List Work} {id : String} (ht : slot.thread = .waiting)
      (hw : s.wait i = .passed) (hq : slot.queue = work :: queue) :
      WaitMove s t i slot { slot with queue := queue, thread := .arming work id } .arriving
  | exit (ht : slot.thread = .waiting) (hw : s.wait i = .passed) (hq : slot.queue = []) :
      WaitMove s t i slot { slot with thread := .exited } .arriving
  | work {slot' : Slot E} (ht : slot.thread ≠ .waiting) (hm : WorkMove slot slot') :
      WaitMove s t i slot slot' (s.wait i)

section Moves
variable {maxSlots : Nat} {s t : Waiting E} {l : WaitLabel E} {i : Nat} {slot' : Slot E}

@[simp] theorem wait_setWait_self (s : Waiting E) (i : Nat) (p : Wait) :
    (s.setWait i p).wait i = p := Function.update_self ..

theorem wait_setWait_of_ne {j : Nat} (hj : j ≠ i) (p : Wait) :
    (s.setWait i p).wait j = s.wait j := Function.update_of_ne hj ..

/-- A step that changes one wait and no slot. -/
theorem move_setWait {j : Nat} {p : Wait}
    (hi : (s.setWait j p).worker.slots[i]? = some slot')
    (hp : i = j → WaitMove s (s.setWait j p) i slot' slot' p) :
    ∃ slot, s.worker.slots[i]? = some slot ∧
      WaitMove s (s.setWait j p) i slot slot' ((s.setWait j p).wait i) := by
  refine ⟨slot', hi, ?_⟩
  by_cases hij : i = j
  · subst hij
    simpa using hp rfl
  · rw [wait_setWait_of_ne hij]
    exact .stay

/-- The slots after a step, each with the move it and its thread's wait made. -/
theorem WaitStep.move (h : WaitStep maxSlots s l t) (hi : t.worker.slots[i]? = some slot') :
    ∃ slot, s.worker.slots[i]? = some slot ∧ WaitMove s t i slot slot' (t.wait i) := by
  cases h with
  | spurious hw => exact move_setWait hi fun hij => .wake (hij ▸ hw)
  | @notify j hn =>
      refine ⟨slot', hi, ?_⟩
      by_cases hw : s.wait j = .blocked
      · by_cases hij : i = j
        · subst hij
          simpa [Waiting.notify, hw] using WaitMove.wake hw
        · simpa [Waiting.notify, hw, hij] using WaitMove.stay
      · simpa [Waiting.notify, hw] using WaitMove.stay
  | arrive hj ht hw =>
      refine move_setWait hi fun hij => ?_
      subst hij
      cases hj.symm.trans hi
      exact .arrive ht hw
  | pass hj ht hw hr =>
      refine move_setWait hi fun hij => ?_
      subst hij
      cases hj.symm.trans hi
      exact .pass ht hw hr
  | park hj ht hw hr =>
      refine move_setWait hi fun hij => ?_
      subst hij
      cases hj.symm.trans hi
      exact .park ht hw hr
  | block hj ht hw =>
      refine move_setWait hi fun hij => ?_
      subst hij
      cases hj.symm.trans hi
      exact .block ht hw
  | main hn hx hs =>
      cases step_cases hs with
      | @enqueue id slotId work slot hm hj =>
          have hnotice : s.worker.notifies = some slotId := by simp [Worker.notifies, hm]
          rcases getElem?_set_cases hi with ⟨rfl, rfl, -⟩ | ⟨-, hi⟩
          · exact ⟨slot, hj, .enqueue hm (by simpa [Waiting.excluded, hm] using hx) hnotice⟩
          · exact ⟨slot', hi, .stay⟩
      | @shutdown next slot hm hj =>
          have hnotice : s.worker.notifies = some next := by
            simp [Worker.notifies, hm, lt_of_getElem? hj]
          rcases getElem?_set_cases hi with ⟨rfl, rfl, -⟩ | ⟨-, hi⟩
          · exact ⟨slot, hj, .shutdown hm hnotice⟩
          · exact ⟨slot', hi, .stay⟩
      | _ => exact ⟨slot', hi, .stay⟩
  | line hn hs =>
      cases step_cases hs with
      | @trip item id j slot _ _ _ _ hj _ =>
          rcases getElem?_set_cases hi with ⟨rfl, rfl, -⟩ | ⟨-, hi⟩
          · exact ⟨slot, hj, .stay⟩
          · exact ⟨slot', hi, .stay⟩
      | _ => exact ⟨slot', hi, .stay⟩
  | eof hn hs =>
      cases step_cases hs
      exact ⟨slot', hi, .stay⟩
  | @leave j input slot w hj ht hw hs =>
      by_cases hij : i = j
      · subst hij
        refine ⟨slot, hj, ?_⟩
        rw [wait_setWait_self]
        rcases (step_cases hs).left hj ht hi with ⟨work, queue, id, hq, rfl⟩ | ⟨hq, rfl⟩
        · exact .pickUp ht hw hq
        · exact .exit ht hw hq
      · refine ⟨slot', ((step_cases hs).slot_other hij).symm.trans hi, ?_⟩
        rw [wait_setWait_of_ne hij]
        exact .stay
  | @work j input slot w hj ht hs =>
      by_cases hij : i = j
      · subst hij
        exact ⟨slot, hj, .work ht ((step_cases hs).work hj ht hi)⟩
      · exact ⟨slot', ((step_cases hs).slot_other hij).symm.trans hi, .stay⟩

end Moves

/-- The main thread has set the shutdown flag of slot `i`. -/
def Main.past (m : Main) (i : Nat) : Bool :=
  match m with
  | .stopping next => i < next
  | .joining | .joined => true
  | _ => false

/-- The shutdown flags are those the main thread has set. -/
def Signalled (w : Worker E) : Prop :=
  ∀ i slot, w.slots[i]? = some slot → slot.shutdown = w.main.past i

section Signalled
variable {w w' : Worker E} {l : Label E}

theorem Signalled.set (hf : Signalled w) {i : Nat} {slot new : Slot E} (hi : w.slots[i]? = some slot)
    (hs : w'.slots = w.slots.set i new) (hk : new.shutdown = slot.shutdown)
    (hm : w'.main.past = w.main.past) : Signalled w' := by
  intro j slot' hj
  rw [hm]
  rcases getElem?_set_cases (hs ▸ hj) with ⟨rfl, rfl, -⟩ | ⟨-, hj⟩
  · exact hk.trans (hf _ _ hi)
  · exact hf _ _ hj

theorem Signalled.same (hf : Signalled w) (hs : w'.slots = w.slots)
    (hm : w'.main.past = w.main.past) : Signalled w' := by
  intro j slot hj
  rw [hm]
  exact hf _ _ (hs ▸ hj)

theorem Signalled.step (hf : Signalled w) (h : Step w l w') : Signalled w' := by
  cases h with
  | answer => exact hf
  | miss reading | saturated reading | claim reading =>
      exact hf.same rfl (by rw [reading]; rfl)
  | trip reading _ _ _ hi => exact hf.set hi rfl rfl (by rw [reading]; rfl)
  | eof reading =>
      refine hf.same rfl ?_
      funext i
      simp [Main.past, reading]
  | ack hm | reject hm | bind hm => exact hf.same rfl (by rw [hm]; rfl)
  | enqueue hm hi => exact hf.set hi rfl rfl (by rw [hm]; rfl)
  | @shutdown next slot hm hi =>
      intro j slot' hj
      rcases getElem?_set_cases hj with ⟨rfl, rfl, -⟩ | ⟨hne, hj⟩
      · simp [Main.past]
      · have hj := hf _ _ hj
        rw [hm] at hj
        simp only [Main.past] at hj ⊢
        rw [hj]
        exact decide_eq_decide.mpr (by omega)
  | @stopped next hm hi =>
      intro j slot hj
      have hlt : j < w.slots.length := lt_of_getElem? hj
      have hle := List.getElem?_eq_none_iff.mp hi
      have hj := hf _ _ hj
      rw [hm] at hj
      simp only [Main.past] at hj ⊢
      exact hj.trans (decide_eq_true (by omega))
  | join hm => exact hf.same rfl (by rw [hm]; rfl)
  | @engine _ _ _ _ _ _ _ action hi =>
      cases action <;> exact hf.set hi rfl rfl rfl
  | pickUp hi | exit hi | arm hi | register hi | leave hi | unregister hi | clean hi
  | release hi => exact hf.set hi rfl rfl rfl

theorem signalled_invariant (E : Engine) (maxSlots : Nat) :
    (slotSystem E maxSlots).Invariant Signalled where
  start := by
    intro i slot hi
    obtain rfl := List.eq_of_mem_replicate (List.mem_of_getElem? hi)
    rfl
  step hf hs := hf.step (step_cases hs)

end Signalled

/-- The joins return only after every thread has. -/
def Joined (w : Worker E) : Prop :=
  w.main = .joined → ∀ (i : Nat) (slot : Slot E), w.slots[i]? = some slot → slot.thread = .exited

section Joined
variable {maxSlots : Nat} {w w' : Worker E}

theorem exited_of_join (hm : w.main = .joining)
    (h : (slotSystem E maxSlots).step w .main = some w') :
    w' = { w with main := .joined } ∧
      ∀ (i : Nat) (slot : Slot E), w.slots[i]? = some slot → slot.thread = .exited := by
  simp only [slotSystem, mainStep, hm] at h
  split at h
  · rename_i hall
    cases h
    refine ⟨rfl, fun i slot hi => ?_⟩
    have hexit := List.all_eq_true.mp hall slot (List.mem_of_getElem? hi)
    generalize slot.thread = thread at hexit
    cases thread with
    | exited => rfl
    | _ => cases hexit
  · cases h

theorem join_enabled (hm : w.main = .joining)
    (hx : ∀ (i : Nat) (slot : Slot E), w.slots[i]? = some slot → slot.thread = .exited) :
    (slotSystem E maxSlots).step w .main = some { w with main := .joined } := by
  simp only [slotSystem, mainStep, hm]
  refine if_pos (List.all_eq_true.mpr fun slot hmem => ?_)
  obtain ⟨i, hi⟩ := List.mem_iff_getElem?.mp hmem
  rw [hx i slot hi]

theorem Joined.step {l : Label E} (hj : Joined w)
    (h : (slotSystem E maxSlots).step w l = some w') : Joined w' := by
  intro hm
  cases step_cases h with
  | join hm' =>
      obtain ⟨heq, hx⟩ := exited_of_join hm' h
      exact hx
  | answer hm' => cases hm'.symm.trans hm
  | miss | trip | saturated | claim | eof | ack | reject | bind | enqueue | shutdown
  | stopped => cases hm
  | engine hi ht | pickUp hi ht | exit hi ht | arm hi ht | register hi ht | leave hi ht
  | unregister hi ht | clean hi ht | release hi ht =>
      -- Nobody steps any more once the main thread has joined them all.
      have hexit := hj (by simpa [Worker.setSlot] using hm) _ _ hi
      cases hexit.symm.trans ht

theorem joined_invariant (E : Engine) (maxSlots : Nat) :
    (slotSystem E maxSlots).Invariant Joined :=
  ⟨nofun, fun hj h => hj.step h⟩

end Joined

/-- What is known of a thread from where it is in its wait, and of the slot the
main thread has yet to notify. -/
structure Seated (s : Waiting E) : Prop where
  working : ∀ {i : Nat} {slot : Slot E}, s.worker.slots[i]? = some slot →
    slot.thread ≠ .waiting → s.wait i = .arriving
  parking : ∀ {i : Nat} {slot : Slot E}, s.worker.slots[i]? = some slot →
    s.wait i = .parking → slot.queue = []
  passed : ∀ {i : Nat} {slot : Slot E}, s.worker.slots[i]? = some slot →
    s.wait i = .passed → slot.ready = true
  /-- No thread sleeps on a request: the push under the mutex loses no wake-up. -/
  blocked : ∀ {i : Nat} {slot : Slot E}, s.worker.slots[i]? = some slot →
    s.wait i = .blocked → slot.queue ≠ [] → s.notice = some i
  notice : ∀ {i : Nat}, s.notice = some i → i < s.worker.slots.length ∧
    (s.worker.main = .reading ∨ s.worker.main = .stopping (i + 1))

section Seated
variable {maxSlots : Nat} {s t : Waiting E} {l : WaitLabel E} {i : Nat}

/-- A notification is given by the main thread's next step, and reaches a blocked thread. -/
theorem WaitStep.notice_kept (h : WaitStep maxSlots s l t) (hn : s.notice = some i) :
    t.notice = some i ∨ (l = .act .main ∧ t = s.notify i) := by
  cases h with
  | notify hn' =>
      cases hn'.symm.trans hn
      exact .inr ⟨rfl, rfl⟩
  | main hn' | line hn' | eof hn' => cases hn'.symm.trans hn
  | _ => exact .inl hn

theorem notify_wait_ne (s : Waiting E) (i : Nat) : (s.notify i).wait i ≠ .blocked := by
  by_cases hw : s.wait i = .blocked <;> simp [Waiting.notify, hw]

theorem notice_of_main {w : Worker E} (h : Step s.worker .main w)
    (hn : s.worker.notifies = some i) :
    i < w.slots.length ∧ (w.main = .reading ∨ w.main = .stopping (i + 1)) := by
  rw [h.slots_length]
  cases h with
  | enqueue hm hi =>
      simp only [Worker.notifies, hm, Option.some.injEq] at hn
      exact hn ▸ ⟨lt_of_getElem? hi, .inl rfl⟩
  | shutdown hm hi =>
      simp only [Worker.notifies, hm, lt_of_getElem? hi, if_true, Option.some.injEq] at hn
      exact hn ▸ ⟨lt_of_getElem? hi, .inr rfl⟩
  | stopped hm hi =>
      have hle := List.getElem?_eq_none_iff.mp hi
      simp [Worker.notifies, hm, Nat.not_lt.mpr hle] at hn
  | ack hm | reject hm | bind hm | join hm => simp [Worker.notifies, hm] at hn

theorem Seated.step (hs : Seated s) (h : WaitStep maxSlots s l t) : Seated t where
  working {i slot'} hi ht := by
    obtain ⟨slot, hi₀, hm⟩ := h.move hi
    revert ht
    generalize t.wait i = p at hm
    intro ht
    cases hm with
    | stay | enqueue | shutdown => exact hs.working hi₀ ht
    | arrive ht' | pass ht' | park ht' | block ht' => exact absurd ht' ht
    | wake | pickUp | exit => rfl
    | work ht' => exact hs.working hi₀ ht'
  parking {i slot'} hi hp := by
    obtain ⟨slot, hi₀, hm⟩ := h.move hi
    rw [hp] at hm
    generalize hpark : Wait.parking = p at hm
    cases hm with
    | stay =>
        have hq := hs.parking hi₀ hpark.symm
        exact hq
    | shutdown =>
        have hq := hs.parking hi₀ hpark.symm
        exact hq
    | enqueue _ hw _ =>
        rw [← hpark] at hw
        cases hw
    | park _ _ hr => simpa [Slot.ready] using (Bool.or_eq_false_iff.mp hr).1
    | work ht =>
        rw [hs.working hi₀ ht] at hpark
        cases hpark
    | _ => cases hpark
  passed {i slot'} hi hp := by
    obtain ⟨slot, hi₀, hm⟩ := h.move hi
    rw [hp] at hm
    generalize hpass : Wait.passed = p at hm
    cases hm with
    | stay =>
        have hr := hs.passed hi₀ hpass.symm
        exact hr
    | shutdown => simp [Slot.ready]
    | enqueue _ hw _ =>
        rw [← hpass] at hw
        cases hw
    | pass _ _ hr => exact hr
    | work ht =>
        rw [hs.working hi₀ ht] at hpass
        cases hpass
    | _ => cases hpass
  blocked {i slot'} hi hp hq := by
    obtain ⟨slot, hi₀, hm⟩ := h.move hi
    -- A notice for the slot stays: giving it would have woken the thread.
    have kept (hn : s.notice = some i) : t.notice = some i := by
      rcases h.notice_kept hn with hn' | ⟨-, rfl⟩
      · exact hn'
      · exact absurd hp (notify_wait_ne s i)
    rw [hp] at hm
    generalize hblock : Wait.blocked = p at hm
    cases hm with
    | stay | shutdown => exact kept (hs.blocked hi₀ hblock.symm hq)
    | enqueue _ _ hn => exact hn
    | block _ hw => exact absurd (hs.parking hi₀ hw) hq
    | work ht =>
        rw [hs.working hi₀ ht] at hblock
        cases hblock
    | _ => cases hblock
  notice {i} hn := by
    cases h with
    | notify => cases hn
    | main _ _ hstep => exact notice_of_main (step_cases hstep) hn
    | line hnone | eof hnone => cases hnone.symm.trans hn
    | leave _ _ _ hstep | work _ _ hstep =>
        have hw := step_cases hstep
        obtain ⟨hlt, hmain⟩ := hs.notice hn
        exact ⟨hw.slots_length.symm ▸ hlt, hw.main_of_slot.symm ▸ hmain⟩
    | _ => exact hs.notice hn

theorem seated_invariant (E : Engine) (maxSlots : Nat) :
    (waitSystem E maxSlots).Invariant Seated where
  start := ⟨fun _ _ => rfl, nofun, nofun, nofun, nofun⟩
  step hs h := hs.step (waitStep_cases h)

end Seated

end JetsonVoice.Tts
