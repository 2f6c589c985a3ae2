import JetsonVoice.Moss.Admission
import JetsonVoice.Moss.Cancellation

/-!
# Every accepted request of the MOSS worker ends

Without further input the threads can only take finitely many steps, and they
stop only when no request is left. Both need that no slot of the runtime was
lost in an acquire that threw.
-/

namespace JetsonVoice.Moss

open Foundation Protocol TransitionSystem

/-- The runtime slots held at a stage. -/
def Phase.slots : Phase → Nat
  | .prepare _ _ | .poll _ | .sample _ | .flush _ | .chunk _ _ _ | .advance _ | .tail _
  | .lastFlush _ | .leave _ | .unwind _ _ => 1
  | .conclude ending => if ending.slot?.isSome then 1 else 0
  | .start | .announce | .preprocess | .acquire _ | .report _ | .finish => 0

def Thread.slots : Thread → Nat
  | .running _ _ _ phase => phase.slots
  | _ => 0

/-- Frames the loop may still produce. -/
def Generation.left (g : Generation) : Nat := g.maxNewFrames - g.frameIdx

/-- An upper bound on the steps a request has left. -/
def Phase.weight : Phase → Nat
  | .finish => 1
  | .leave _ | .report _ => 2
  | .unwind _ _ | .conclude _ => 3
  | .chunk g last _ => if last then 4 else 9 + 5 * g.left
  | .lastFlush _ => 5
  | .tail _ => 6
  | .advance g => 8 + 5 * g.left
  | .flush g => 10 + 5 * g.left
  | .sample g => 11 + 5 * g.left
  | .poll g => 12 + 5 * g.left
  | .prepare _ _ => 2573
  | .acquire _ => 2574
  | .preprocess => 2575
  | .announce => 2576
  | .start => 2577

def Thread.weight : Thread → Nat
  | .waiting => 1
  | .running _ _ _ phase => 1 + phase.weight
  | .exited => 0

def Main.weight : Main → Nat
  | .enqueue _ => 2579
  | .ack _ _ | .joining => 1
  | .reading | .joined => 0

/-- An upper bound on the steps the threads can take without input. -/
def Worker.weight (w : Worker) : Nat :=
  (w.threads.map Thread.weight).sum + 2578 * w.queue.length + w.main.weight

section Handle
variable {c : Config} {item : Json} {id : String} {t0 : Int} {cancelled : Bool}
  {free : Option Nat} {a : Answer} {phase next : Phase} {effect : Effect}

theorem readBudgets_left {slot rows : Nat} {g : Generation}
    (h : readBudgets item slot rows = .ok g) : g.left ≤ 512 := by
  simp only [readBudgets, bind, Except.bind, pure, Except.pure] at h
  (repeat' split at h) <;> cases h
  simp only [Generation.left, kKvProfileMaxPast]
  omega

/-- Every step of a request brings it closer to its end. -/
theorem handle_weight (h : handle c item id t0 cancelled free a phase = some (next, effect)) :
    next.weight < phase.weight := by
  cases phase with
  | prepare rows slot =>
      simp only [handle] at h
      split at h
      · cases h
        simp [Phase.weight]
      · cases h
        simp [Phase.weight]
      · rename_i hg
        cases h
        have := readBudgets_left hg
        simp only [Phase.weight]
        omega
  | advance g =>
      simp only [handle] at h
      (repeat' split at h) <;> cases h <;> simp only [Phase.weight, Generation.left] at * <;> omega
  | _ =>
      simp only [handle] at h
      (repeat' split at h) <;> cases h <;>
        simp_all [Phase.weight, Generation.left, Generation.decoded, Generation.emitted]
        <;> omega

/-- What a step does to the slots: take one, lose one, give one back, or nothing. -/
theorem handle_slots (h : handle c item id t0 cancelled free a phase = some (next, effect)) :
    (effect = .take ∧ phase.slots = 0 ∧ next.slots = 1 ∧ free.isSome = true) ∨
    (effect = .lose ∧ (∃ rows, phase = .acquire rows) ∧ a.throws.isSome = true) ∨
    (∃ slot, effect = .release slot ∧ phase.slots = 1 ∧ next.slots = 0) ∨
    ((effect = .none ∨ ∃ e, effect = .emit e) ∧ next.slots = phase.slots) := by
  cases phase with
  | acquire rows =>
      simp only [handle] at h
      split at h
      · cases h
      · rename_i ht
        cases h
        exact .inr (.inl ⟨rfl, ⟨rows, rfl⟩, by simp [ht]⟩)
      · cases h
        exact .inl ⟨rfl, rfl, rfl, rfl⟩
  | conclude ending =>
      simp only [handle] at h
      split at h <;> rename_i hs <;> cases h <;>
        exact .inr (.inr (.inr ⟨.inr ⟨_, rfl⟩, by simp [Phase.slots, hs]⟩))
  | leave slot =>
      cases h
      exact .inr (.inr (.inl ⟨slot, rfl, rfl, rfl⟩))
  | unwind what slot =>
      cases h
      exact .inr (.inr (.inl ⟨slot, rfl, rfl, rfl⟩))
  | _ =>
      simp only [handle] at h
      (repeat' split at h) <;> cases h <;>
        exact .inr (.inr (.inr ⟨by simp, by simp [Phase.slots, Ending.slot?]⟩))

/-- A request can move on unless it waits for a slot and none is free. -/
theorem handle_enabled (hf : phase ≠ .finish) (hs : (∃ rows, phase = .acquire rows) → free ≠ none) :
    ∃ next, handle c item id t0 cancelled free {} phase = some next := by
  cases phase with
  | finish => exact absurd rfl hf
  | acquire rows =>
      obtain ⟨slot, hslot⟩ := Option.ne_none_iff_exists'.mp (hs ⟨rows, rfl⟩)
      exact ⟨_, by simp only [handle, hslot]; rfl⟩
  | _ =>
      simp only [handle]
      (repeat' split) <;> exact ⟨_, rfl⟩

end Handle

/-- A label under which an acquire throws after it has popped a slot. -/
def losesSlot (w : Worker) : Label → Bool
  | .thread i a =>
      match w.threads[i]? with
      | some (.running _ _ _ (.acquire _)) => a.throws.isSome
      | _ => false
  | _ => false

/-- The runs in which no acquire throws. -/
def steadySystem (c : Config) : TransitionSystem Worker Label :=
  (system c).guard fun w l => losesSlot w l = false

def Label.isInput : Label → Bool
  | .line _ | .eof => true
  | .main | .thread _ _ => false

/-- The runs of the threads without further input. -/
def drainSystem (c : Config) : TransitionSystem Worker Label :=
  (steadySystem c).guard fun _ l => l.isInput = false

/-- Every slot is free or held by a thread, and a thread exits only once the
queue of a stopping worker is empty. -/
structure Steady (c : Config) (w : Worker) : Prop where
  slots : w.freeSlots.length + (w.threads.map Thread.slots).sum = c.maxSlots
  threads : w.threads.length = c.maxSlots
  stopping : w.stopping = true ↔ w.main = .joining ∨ w.main = .joined
  exited : Thread.exited ∈ w.threads → w.stopping = true ∧ w.queue = []

section Steady
variable {c : Config} {w w' : Worker} {l : Label}

namespace Steady

/-- Before stdin ends no thread has exited. -/
theorem not_exited (hs : Steady c w) (hm : w.main ≠ .joining ∧ w.main ≠ .joined) :
    w.stopping = false ∧ Thread.exited ∉ w.threads := by
  have hno : ¬ w.stopping = true := fun h => (hs.stopping.mp h).elim hm.1 hm.2
  exact ⟨Bool.eq_false_iff.mpr hno, fun h => hno (hs.exited h).1⟩

/-- A step of the dispatch thread before stdin ends. -/
theorem keep_main (hs : Steady c w) (hm : w.main ≠ .joining ∧ w.main ≠ .joined)
    (hm' : w'.main ≠ .joining ∧ w'.main ≠ .joined) (hf : w'.freeSlots = w.freeSlots)
    (ht : w'.threads = w.threads) (hst : w'.stopping = w.stopping) : Steady c w' := by
  obtain ⟨hno, hex⟩ := hs.not_exited hm
  exact ⟨hf ▸ ht ▸ hs.slots, ht ▸ hs.threads, by simp [hst, hno, hm'], fun h => absurd (ht ▸ h) hex⟩

/-- A step of a thread that goes on and picks nothing up. -/
theorem keep_thread (hs : Steady c w) {i : Nat} {b : Thread} (hb : b ≠ .exited)
    (ht : w'.threads = w.threads.set i b) (hst : w'.stopping = w.stopping)
    (hmain : w'.main = w.main) (hq : w'.queue = w.queue)
    (hslots : w'.freeSlots.length + ((w.threads.set i b).map Thread.slots).sum = c.maxSlots) :
    Steady c w' := by
  refine ⟨ht ▸ hslots, ?_, by rw [hst, hmain]; exact hs.stopping, fun h => ?_⟩
  · rw [ht, List.length_set]
    exact hs.threads
  · rw [hst, hq]
    rcases List.mem_or_eq_of_mem_set (ht ▸ h) with h | h
    · exact hs.exited h
    · exact absurd h.symm hb

theorem step (hs : Steady c w) (hok : losesSlot w l = false) (h : Step c w l w') :
    Steady c w' := by
  cases h with
  | refuse reading _ => exact hs.keep_main (by simp [reading]) (by simp [reading]) rfl rfl rfl
  | trip reading _ _ =>
      refine hs.keep_main (by simp [reading]) ?_ ?_ ?_ ?_ <;> simp only [Moss.trip] <;>
        split <;> simp
  | enrol reading _ _ _ _ =>
      exact hs.keep_main (by simp [reading]) (by simp [register]) rfl rfl rfl
  | eof reading =>
      obtain ⟨-, hex⟩ := hs.not_exited (by simp [reading])
      exact ⟨hs.slots, hs.threads, by simp, fun h => absurd h hex⟩
  | enqueue hm => exact hs.keep_main (by simp [hm]) (by simp) rfl rfl rfl
  | ack hm => exact hs.keep_main (by simp [hm]) (by simp) rfl rfl rfl
  | join hm _ => exact ⟨hs.slots, hs.threads, by simpa [hm] using hs.stopping, hs.exited⟩
  | @pickUp i a task queue id hi hq hid =>
      have hsum := sum_map_set_eq Thread.slots (b := .running task id a.now .start) hi rfl
      refine ⟨?_, ?_, hs.stopping, fun h => ?_⟩
      · exact (congrArg (w.freeSlots.length + ·) hsum).trans hs.slots
      · exact (List.length_set ..).trans hs.threads
      · rcases List.mem_or_eq_of_mem_set h with h | h
        · have := (hs.exited h).2
          rw [hq] at this
          cases this
        · cases h
  | @exit i a hi hq hst =>
      have hsum := sum_map_set_eq Thread.slots (b := .exited) hi rfl
      exact ⟨(congrArg (w.freeSlots.length + ·) hsum).trans hs.slots,
        (List.length_set ..).trans hs.threads, hs.stopping, fun _ => ⟨hst, hq⟩⟩
  | @finish i a task id t0 hi =>
      have hsum := sum_map_set_eq Thread.slots (b := .waiting) hi rfl
      have hframe : (unregister w id task.control).freeSlots = w.freeSlots ∧
          (unregister w id task.control).stopping = w.stopping ∧
          (unregister w id task.control).main = w.main ∧
          (unregister w id task.control).queue = w.queue := by
        simp only [unregister]
        split <;> exact ⟨rfl, rfl, rfl, rfl⟩
      obtain ⟨-, ht, -⟩ := unregister_frame w id task.control
      obtain ⟨hf, hst, hmain, hq⟩ := hframe
      have ht' := congrArg (List.set · i Thread.waiting) ht
      refine hs.keep_thread (b := .waiting) (by simp) ht' hst hmain hq ?_
      simp only [Worker.setThread, hf]
      exact (congrArg (w.freeSlots.length + ·) hsum).trans hs.slots
  | @handle i a task id t0 phase next effect hi hh =>
      have hsum := sum_map_set Thread.slots (b := .running task id t0 next) hi
      have hslots := hs.slots
      have hframe : (w.apply task.control effect).stopping = w.stopping ∧
          (w.apply task.control effect).main = w.main ∧
          (w.apply task.control effect).queue = w.queue := by
        cases effect <;> exact ⟨rfl, rfl, rfl⟩
      obtain ⟨-, ht, -⟩ := apply_frame w task.control effect
      obtain ⟨hst, hmain, hq⟩ := hframe
      have ht' := congrArg (List.set · i (Thread.running task id t0 next)) ht
      refine hs.keep_thread (b := .running task id t0 next) (by simp) ht' hst hmain hq ?_
      simp only [Worker.setThread]
      simp only [Thread.slots] at hsum
      rcases handle_slots hh with ⟨rfl, h₀, h₁, hfree⟩ | ⟨rfl, ⟨rows, rfl⟩, hthrow⟩ |
        ⟨slot, rfl, h₁, h₀⟩ | ⟨heff, hsame⟩
      · have hne : w.freeSlots ≠ [] := by
          rintro he
          simp [he] at hfree
        have hpos := List.length_pos_of_ne_nil hne
        simp only [Worker.apply, List.length_dropLast]
        omega
      · simp [losesSlot, hi, hthrow] at hok
      · simp only [Worker.apply, List.length_append, List.length_singleton]
        omega
      · have hf : (w.apply task.control effect).freeSlots = w.freeSlots := by
          rcases heff with rfl | ⟨e, rfl⟩ <;> rfl
        rw [hf]
        omega

theorem init (c : Config) : Steady c (.init c) where
  slots := by simp [Worker.init, Thread.slots]
  threads := by simp [Worker.init]
  stopping := by simp [Worker.init]
  exited h := by
    cases List.eq_of_mem_replicate h

end Steady

theorem steady_invariant (c : Config) :
    (steadySystem c).Invariant fun w => Ledger w ∧ Steady c w :=
  (ledger_invariant c).guard.relative (.init c) fun _ hs h =>
    let ⟨hok, hstep⟩ := guard_step.mp h
    hs.step hok (step_cases hstep)

/-- Every step of the threads lowers the weight. -/
theorem drain_lowers (h : (drainSystem c).step w l = some w') : w'.weight < w.weight := by
  obtain ⟨hin, hsteady⟩ := guard_step.mp h
  have hstep := step_cases (guard_step.mp hsteady).2
  cases hstep with
  | refuse _ _ => cases hin
  | trip _ _ _ => cases hin
  | enrol _ _ _ _ _ => cases hin
  | eof _ => cases hin
  | enqueue hm =>
      simp only [Worker.weight, hm, Main.weight, List.length_append, List.length_singleton]
      omega
  | ack hm =>
      simp only [Worker.weight, hm, Main.weight, Worker.emit]
      omega
  | join hm _ =>
      simp only [Worker.weight, hm, Main.weight]
      omega
  | @pickUp i a task queue id hi hq hid =>
      have hsum := sum_map_set Thread.weight (b := .running task id a.now .start) hi
      simp only [Worker.weight, Worker.setThread, hq, List.length_cons, Thread.weight,
        Phase.weight] at hsum ⊢
      omega
  | exit hi _ _ =>
      have hsum := sum_map_set Thread.weight (b := .exited) hi
      simp only [Worker.weight, Worker.setThread, Thread.weight] at hsum ⊢
      omega
  | @finish i a task id t0 hi =>
      have hsum := sum_map_set Thread.weight (b := .waiting) hi
      have hframe : (unregister w id task.control).main = w.main ∧
          (unregister w id task.control).queue = w.queue := by
        simp only [unregister]
        split <;> exact ⟨rfl, rfl⟩
      obtain ⟨-, ht, -⟩ := unregister_frame w id task.control
      simp only [Worker.weight, Worker.setThread, hframe, ht, Thread.weight, Phase.weight]
        at hsum ⊢
      omega
  | @handle i a task id t0 phase next effect hi hh =>
      have hsum := sum_map_set Thread.weight (b := .running task id t0 next) hi
      have hlt := handle_weight hh
      have hframe : (w.apply task.control effect).main = w.main ∧
          (w.apply task.control effect).queue = w.queue := by
        cases effect <;> exact ⟨rfl, rfl⟩
      obtain ⟨-, ht, -⟩ := apply_frame w task.control effect
      simp only [Worker.weight, Worker.setThread, hframe, ht, Thread.weight] at hsum ⊢
      omega

theorem threadStep_running {i : Nat} {a : Answer} {task : Task} {id : String} {t0 : Int}
    {phase : Phase} (hi : w.threads[i]? = some (.running task id t0 phase))
    (hf : phase ≠ .finish) :
    threadStep c w i a = (handle c task.item id t0 (w.isCancelled task.control)
      w.freeSlots.getLast? a phase).map
        fun next => (w.apply task.control next.2).setThread i (.running task id t0 next.1) := by
  simp only [threadStep, hi]

/-- A thread in a request can move on unless it waits for a slot and none is free. -/
theorem threadStep_enabled {i : Nat} {task : Task} {id : String} {t0 : Int} {phase : Phase}
    (hi : w.threads[i]? = some (.running task id t0 phase))
    (hs : (∃ rows, phase = .acquire rows) → w.freeSlots ≠ []) :
    threadStep c w i {} ≠ none := by
  by_cases hf : phase = .finish
  · subst hf
    simp [threadStep, hi]
  · have hfree : (∃ rows, phase = .acquire rows) → w.freeSlots.getLast? ≠ none := fun h => by
      simpa using hs h
    obtain ⟨next, hn⟩ := handle_enabled (c := c) hf hfree
    rw [threadStep_running hi hf, hn]
    simp

/-- Where the threads cannot move, no request is left and stdin, once ended, has
been followed by the join. -/
theorem drained (hl : Ledger w) (hs : Steady c w) (hstuck : ∀ l, (drainSystem c).step w l = none) :
    w.pending = [] ∧ w.main ≠ .joining := by
  have blocked {l : Label} (hin : l.isInput = false) (hok : losesSlot w l = false) :
      (system c).step w l = none := by
    have := hstuck l
    simpa [drainSystem, steadySystem, TransitionSystem.guard, hin, hok] using this
  have stopped (i : Nat) : threadStep c w i {} = none := by
    refine blocked (l := .thread i {}) rfl ?_
    simp only [losesSlot]
    split <;> rfl
  -- A thread that is not at an acquire can move, so no slot is held.
  have hidle : ∀ t ∈ w.threads, t.slots = 0 := by
    intro t ht
    obtain ⟨i, hi⟩ := List.mem_iff_getElem?.mp ht
    cases t with
    | running task id t0 phase =>
        by_cases hacq : ∃ rows, phase = .acquire rows
        · obtain ⟨rows, rfl⟩ := hacq
          rfl
        · exact absurd (stopped i) (threadStep_enabled hi fun h => absurd h hacq)
    | _ => rfl
  have hfree : w.freeSlots ≠ [] := by
    have hzero : (w.threads.map Thread.slots).sum = 0 :=
      List.sum_eq_zero fun n hn => by
        obtain ⟨t, ht, rfl⟩ := List.mem_map.mp hn
        exact hidle t ht
    have hslots := hs.slots
    have hpos := c.maxSlots_pos
    intro he
    simp only [hzero, he, List.length_nil] at hslots
    omega
  have hrest : ∀ t ∈ w.threads, t = .waiting ∨ t = .exited := by
    intro t ht
    obtain ⟨i, hi⟩ := List.mem_iff_getElem?.mp ht
    cases t with
    | waiting => exact .inl rfl
    | exited => exact .inr rfl
    | running task id t0 phase =>
        exact absurd (stopped i) (threadStep_enabled hi fun _ => hfree)
  have hwaiting {i : Nat} (hi : w.threads[i]? = some .waiting) : pickUp w i {} = none := by
    simpa [threadStep, hi] using stopped i
  have hqueue : w.queue = [] := by
    cases hq : w.queue with
    | nil => rfl
    | cons task queue =>
        have hlt : 0 < w.threads.length := hs.threads ▸ c.maxSlots_pos
        have hmem : w.threads[0] ∈ w.threads := List.getElem_mem hlt
        rcases hrest _ hmem with hw | he
        · have hpick := hwaiting (List.getElem?_eq_some_iff.mpr ⟨hlt, hw⟩)
          have hpending : task ∈ w.pending := by
            simp [Worker.pending, Worker.requestsBy, Worker.unpicked, hq]
          obtain ⟨id, hid⟩ := hl.named (hl.pending hpending)
          simp [pickUp, hq, hid] at hpick
        · have := (hs.exited (he ▸ hmem)).2
          rw [hq] at this
          cases this
  have hmain := blocked (l := .main) rfl rfl
  have htask : w.main.task? = none := by
    cases hm : w.main with
    | enqueue task => simp [system, mainStep, hm] at hmain
    | _ => rfl
  refine ⟨?_, fun hm => ?_⟩
  · have hnone : w.threads.filterMap Thread.task? = [] := by
      rw [List.filterMap_eq_nil_iff]
      intro t ht
      rcases hrest t ht with rfl | rfl <;> rfl
    simp [Worker.pending, Worker.requestsBy, Worker.unpicked, htask, hqueue, hnone]
  · have hst : w.stopping = true := hs.stopping.mpr (.inl hm)
    have hall : ∀ t ∈ w.threads, t = .exited := by
      intro t ht
      rcases hrest t ht with rfl | rfl
      · obtain ⟨i, hi⟩ := List.mem_iff_getElem?.mp ht
        have hpick := hwaiting hi
        simp [pickUp, hqueue, hst] at hpick
      · rfl
    obtain ⟨t, ht, hne⟩ : ∃ t ∈ w.threads, ¬ t = .exited := by
      simpa [system, mainStep, hm] using hmain
    exact hne (hall t ht)

end Steady

/-- A cancel sets the flag of the request registered under its id and no other,
and only a set flag is ever reported. -/
structure CancelIsolated (c : Config) (w : Worker) : Prop where
  distinct : (w.accepted.map Task.control).Nodup
  registered : ∀ {id : String} {control : Nat}, w.controls.lookup id = some control →
    ∃ task ∈ w.accepted, task.control = control ∧ task.item.valueStr "id" "__worker__" = .ok id
  fresh : ∀ {id : String} {item : Json},
    (register w id item).isCancelled w.cancelled.length = false ∧
      ∀ task ∈ w.accepted, task.control ≠ w.cancelled.length
  sets : ∀ {l : Label} {w' : Worker} {control : Nat}, (system c).step w l = some w' →
    w'.isCancelled control = true → w.isCancelled control = true ∨
      ∃ item id, l = .line (.ok item) ∧ item.valueStr "id" "__worker__" = .ok id ∧
        isCancelLine item = .ok true ∧ w.controls.lookup id = some control
  reported : ∀ {control : Nat} {e : Json}, e ∈ eventsOf w.out control →
    eventName e = "cancelled" → w.isCancelled control = true

/-- A request cancelled before it is picked up writes its ending and nothing else. -/
def CancelsEarly (c : Config) (w : Worker) : Prop :=
  ∀ {task : Task} {w' : Worker}, task ∈ w.unpicked → w.isCancelled task.control = true →
    (system c).Leads w w' →
    (task ∈ w'.pending ∧ eventsOf w'.out task.control = []) ∨
      ∃ e, EarlyEnding task e ∧ eventsOf w'.out task.control = [e]

/-- An accepted request writes at most one terminal event and nothing after it;
one that has finished has written it. -/
def EndsOnce (w : Worker) : Prop :=
  ∀ {task : Task}, task ∈ w.accepted →
    Settled isTerminal (eventsOf w.out task.control) ∨
      (task ∈ w.pending ∧ Unsettled isTerminal (eventsOf w.out task.control))

/-- Without further input the threads stop after finitely many steps, and then
every accepted request has written its terminal event; once stdin has ended the
process is ready to exit. -/
def Drains (c : Config) (w : Worker) : Prop :=
  ∀ {ls : List Label} {w' : Worker}, (drainSystem c).run w ls = some w' →
    ls.length ≤ w.weight ∧
    ((∀ l, (drainSystem c).step w' l = none) → w'.main ≠ .joining ∧
      ∀ task ∈ w.accepted, Settled isTerminal (eventsOf w'.out task.control))

section Ends
variable {c : Config} {w : Worker}

theorem cancelIsolated (hr : (system c).Reachable w) : CancelIsolated c w := by
  have hl := (ledger_invariant c).of_reachable hr
  have hh := (honest_invariant c).of_reachable hr
  refine ⟨hl.nodup, hl.registered, ⟨?_, ?_⟩, ?_, hh.logged⟩
  · exact (isCancelled_append (by simp) _).trans (isCancelled_fresh le_rfl)
  · exact fun task ht heq => absurd (hl.allocated ht) (heq ▸ lt_irrefl _)
  · intro l w' control hs hc
    rcases (step_cases hs).isCancelled control with hsame | ⟨-, hset⟩
    · exact .inl (hsame ▸ hc)
    · exact .inr hset

/-- The open requests are pending, and no other request has their controls. -/
theorem Ledger.mem_pending (hl : Ledger w) {task : Task} (ht : task ∈ w.accepted)
    (ho : task.control ∈ w.opens) : task ∈ w.pending := by
  obtain ⟨other, hmem, heq⟩ := List.mem_map.mp ho
  have hpending : other ∈ w.pending := by
    rcases List.mem_append.mp hmem with hu | hth
    · exact List.mem_append_left _ hu
    · obtain ⟨t, htm, hto⟩ := List.mem_filterMap.mp hth
      refine List.mem_append_right _ (List.mem_filterMap.mpr ⟨t, htm, ?_⟩)
      cases t with
      | running task id t0 phase =>
          simp only [Thread.openTask?] at hto
          split at hto
          · exact hto
          · cases hto
      | _ => cases hto
  exact List.inj_on_of_nodup_map hl.nodup ht (hl.pending hpending) heq.symm ▸ hpending

theorem endsOnce (hl : Ledger w) : EndsOnce w := by
  intro task ht
  have hmem := List.mem_map_of_mem (f := Task.control) ht
  by_cases ho : task.control ∈ w.opens
  · exact .inr ⟨hl.mem_pending ht ho, hl.accounted.unsettled ho⟩
  · exact .inl (hl.accounted.settled hmem ho)

theorem drains (hr : (steadySystem c).Reachable w) : Drains c w := by
  intro ls w' hrun
  refine ⟨run_length_le (T := drainSystem c) (I := fun _ => True) (fun _ _ => trivial)
    (fun _ h => drain_lowers h) trivial hrun, fun hstuck => ?_⟩
  have hleads := leads_of_run ls hrun
  obtain ⟨hl, hs⟩ := (steady_invariant c).of_reachable (hr.leads hleads.of_guard)
  obtain ⟨hpending, hmain⟩ := drained hl hs hstuck
  refine ⟨hmain, fun task ht => ?_⟩
  have hacc : task ∈ w'.accepted := hleads.preserves (I := fun w => task ∈ w.accepted) ht
    fun h hstep => (step_cases (guard_step.mp (guard_step.mp hstep).2).2).accepted h
  rcases endsOnce hl hacc with hsettled | ⟨hp, -⟩
  · exact hsettled
  · rw [hpending] at hp
    cases hp

end Ends

end JetsonVoice.Moss
