import JetsonVoice.Foundation.TerminalLog
import JetsonVoice.Moss.Requests

/-!
# Cancel isolation and terminal events of the MOSS worker

A request is open from its registration until its terminal event. The flag of a
request is set by nothing but a cancel that finds the request registered.
-/

namespace JetsonVoice.Moss

open Foundation Protocol TransitionSystem

/-- The stages before the terminal event. -/
def Phase.isOpen : Phase → Bool
  | .leave _ | .finish => false
  | _ => true

/-- The request a worker thread has not brought to its terminal event. -/
def Thread.openTask? : Thread → Option Task
  | .running task _ _ phase => if phase.isOpen then some task else none
  | _ => none

/-- The controls of the open requests. -/
def Worker.opens (w : Worker) : List Nat := (w.requestsBy Thread.openTask?).map Task.control

/-- The flag is known to be set at these stages. -/
def Phase.sawFlag : Phase → Bool
  | .conclude .beforeStart | .conclude (.cancelled _ _) => true
  | _ => false

theorem Ending.isTerminal (ending : Ending) (id : String) (t0 : Int) :
    Protocol.isTerminal (ending.event id t0) = true := by
  cases ending <;> simp [Ending.event, cancelledBeforeStart]

section Handle
variable {c : Config} {item : Json} {id : String} {t0 : Int} {cancelled : Bool}
  {free : Option Nat} {a : Answer} {phase next : Phase} {effect : Effect}

/-- A step of an open request stays open and emits nothing terminal, or emits
the terminal event; a request no longer open emits nothing. -/
theorem handle_emits (h : handle c item id t0 cancelled free a phase = some (next, effect)) :
    (phase.isOpen = true ∧ next.isOpen = true ∧
      ∀ e, effect = .emit e → Protocol.isTerminal e = false) ∨
    (phase.isOpen = true ∧ next.isOpen = false ∧
      ∃ e, effect = .emit e ∧ Protocol.isTerminal e = true) ∨
    (phase.isOpen = false ∧ next.isOpen = false ∧ ∀ e, effect ≠ .emit e) := by
  cases phase with
  | conclude ending =>
      simp only [handle] at h
      split at h <;> cases h <;>
        exact .inr (.inl ⟨rfl, rfl, _, rfl, ending.isTerminal id t0⟩)
  | report what =>
      cases h
      exact .inr (.inl ⟨rfl, rfl, _, rfl, by simp⟩)
  | leave slot =>
      cases h
      exact .inr (.inr ⟨rfl, rfl, nofun⟩)
  | finish => cases h
  | announce =>
      cases h
      exact .inl ⟨rfl, rfl, by rintro e ⟨⟩; simp [readyEvent]⟩
  | chunk g last audio =>
      simp only [handle] at h
      split at h <;> cases h <;> exact .inl ⟨rfl, rfl, by rintro e ⟨⟩; simp [chunkEvent]⟩
  | _ =>
      -- The remaining stages emit nothing and lead to open stages.
      left
      simp only [handle] at h
      (repeat' split at h) <;> cases h <;> exact ⟨rfl, rfl, nofun⟩

/-- A stage that reports a cancellation is reached only with the flag set. -/
theorem handle_sawFlag (h : handle c item id t0 cancelled free a phase = some (next, effect))
    (hs : next.sawFlag = true) : cancelled = true := by
  cases phase <;> simp only [handle] at h <;> (repeat' split at h) <;> cases h <;>
    simp_all [Phase.sawFlag]

/-- A cancelled event is emitted only at a stage that saw the flag. -/
theorem handle_cancelled {e : Json}
    (h : handle c item id t0 cancelled free a phase = some (next, .emit e))
    (he : eventName e = "cancelled") : phase.sawFlag = true := by
  cases phase with
  | conclude ending =>
      cases ending with
      | done g now =>
          cases h
          simp [Ending.event] at he
      | _ => rfl
  | announce =>
      cases h
      simp [readyEvent] at he
  | report what =>
      cases h
      simp at he
  | chunk g last audio =>
      simp only [handle] at h
      split at h <;> cases h <;> simp [chunkEvent] at he
  | _ =>
      simp only [handle] at h
      (repeat' split at h) <;> cases h

end Handle

section Flags
variable {c : Config} {w w' : Worker} {l : Label}

/-- The flag of a control not allocated before is unset. -/
theorem isCancelled_fresh {control : Nat} (h : w.cancelled.length ≤ control) :
    w.isCancelled control = false := by
  simp [Worker.isCancelled, List.getElem?_eq_none h]

theorem isCancelled_append {alloc : List Bool} (unset : ∀ b ∈ alloc, b = false) (control : Nat) :
    ((w.cancelled ++ alloc)[control]?.getD false) = w.isCancelled control := by
  by_cases hlt : control < w.cancelled.length
  · simp [Worker.isCancelled, List.getElem?_append_left hlt]
  · rw [isCancelled_fresh (by omega), List.getElem?_append_right (by omega)]
    cases hb : alloc[control - w.cancelled.length]? with
    | none => rfl
    | some b => exact unset b (List.mem_of_getElem? hb)

/-- A cancel sets the flag of the control it finds and no other. -/
theorem trip_isCancelled (id : String) (control : Nat) :
    (trip w id).isCancelled control = true ↔
      w.isCancelled control = true ∨
        (w.controls.lookup id = some control ∧ control < w.cancelled.length) := by
  simp only [trip]
  split
  · rename_i found hf
    simp only [Worker.isCancelled, List.getElem?_set, hf, Option.some.injEq]
    by_cases he : found = control
    · subst he
      by_cases hlt : found < w.cancelled.length <;> simp [hlt]
    · simp [he]
  · rename_i hf
    simp [Worker.isCancelled, hf]

/-- What sets a flag: nothing but a cancel line that finds the control registered. -/
theorem Step.isCancelled (h : Step c w l w') (control : Nat) :
    w'.isCancelled control = w.isCancelled control ∨
    (w'.isCancelled control = true ∧ ∃ item id, l = .line (.ok item) ∧
      item.valueStr "id" "__worker__" = .ok id ∧ isCancelLine item = .ok true ∧
      w.controls.lookup id = some control) := by
  cases h with
  | refuse _ unset => exact .inl (isCancelled_append unset control)
  | @trip item id _ hid hc =>
      by_cases hset : (Moss.trip w id).isCancelled control = true
      · rcases (trip_isCancelled id control).mp hset with hold | ⟨hl, -⟩
        · exact .inl (hset.trans hold.symm)
        · exact .inr ⟨hset, item, id, rfl, hid, hc, hl⟩
      · have hold : w.isCancelled control = false := Bool.eq_false_iff.mpr fun hold =>
          hset ((trip_isCancelled id control).mpr (.inl hold))
        exact .inl ((Bool.eq_false_iff.mpr hset).trans hold.symm)
  | enrol _ _ _ _ _ => exact .inl (isCancelled_append (by simp) control)
  | @finish i a task id t0 hi =>
      left
      simp only [Worker.setThread, unregister]
      split <;> rfl
  | @handle i a task id t0 phase next effect hi hh =>
      left
      cases effect <;> rfl
  | _ => exact .inl rfl

/-- A flag once set stays set. -/
theorem Step.isCancelled_mono (h : Step c w l w') {control : Nat}
    (hc : w.isCancelled control = true) : w'.isCancelled control = true := by
  rcases h.isCancelled control with hsame | ⟨hset, -⟩
  · rw [hsame, hc]
  · exact hset

theorem Step.cancelled_length (h : Step c w l w') :
    w.cancelled.length ≤ w'.cancelled.length := by
  cases h with
  | trip _ _ _ =>
      simp only [Moss.trip]
      split <;> simp
  | @finish i a task id t0 hi =>
      simp only [Worker.setThread, unregister]
      split <;> exact le_rfl
  | @handle i a task id t0 phase next effect hi hh =>
      cases effect <;> exact le_rfl
  | refuse _ _ => simp
  | enrol _ _ _ _ _ => simp [register]
  | _ => exact le_rfl

end Flags

/-- The accepted requests, their controls and the events written for them. -/
structure Ledger (w : Worker) : Prop where
  accounted : Accounted Protocol.isTerminal (w.accepted.map Task.control) w.opens w.out
  nodup : (w.accepted.map Task.control).Nodup
  allocated : ∀ {task : Task}, task ∈ w.accepted → task.control < w.cancelled.length
  pending : ∀ {task : Task}, task ∈ w.pending → task ∈ w.accepted
  registered : ∀ {id : String} {control : Nat}, w.controls.lookup id = some control →
    ∃ task ∈ w.accepted, task.control = control ∧ task.item.valueStr "id" "__worker__" = .ok id
  named : ∀ {task : Task}, task ∈ w.accepted →
    ∃ id, task.item.valueStr "id" "__request__" = .ok id

namespace Ledger
variable {c : Config} {w w' : Worker} {l : Label}

/-- A step that admits no request keeps everything but the log by what it keeps. -/
theorem keep (hl : Ledger w) (hlen : w.cancelled.length ≤ w'.cancelled.length)
    (hacc : w'.accepted = w.accepted)
    (hp : ∀ task, task ∈ w'.pending → task ∈ w.pending)
    (hc : ∀ {id control}, w'.controls.lookup id = some control →
      w.controls.lookup id = some control)
    (hlog : Accounted Protocol.isTerminal (w.accepted.map Task.control) w'.opens w'.out) :
    Ledger w' where
  accounted := hacc ▸ hlog
  nodup := hacc ▸ hl.nodup
  allocated ht := (hl.allocated (hacc ▸ ht)).trans_le hlen
  pending ht := hacc ▸ hl.pending (hp _ ht)
  registered h := hacc ▸ hl.registered (hc h)
  named ht := hl.named (hacc ▸ ht)

/-- A step of the dispatch thread that admits no request. -/
theorem keep_main (hl : Ledger w) (hlen : w.cancelled.length ≤ w'.cancelled.length)
    (hacc : w'.accepted = w.accepted) (hc : w'.controls = w.controls)
    (hu : w'.unpicked.Perm w.unpicked) (ht : w'.threads = w.threads)
    (hlog : Accounted Protocol.isTerminal (w.accepted.map Task.control) w.opens w'.out) :
    Ledger w' := by
  have hreq (f) : (w'.requestsBy f).Perm (w.requestsBy f) := by
    rw [Worker.requestsBy, ht]
    exact hu.append_right _
  exact hl.keep hlen hacc (fun _ => (hreq _).mem_iff.mp) (fun h => hc ▸ h)
    (hlog.perm ((hreq _).map _))

theorem enrol (hl : Ledger w) {item : Json} {id : String}
    (hid : item.valueStr "id" "__worker__" = .ok id) (reading : w.main = .reading) :
    Ledger (register w id item) := by
  have hfresh : w.cancelled.length ∉ w.accepted.map Task.control := by
    intro hmem
    obtain ⟨task, ht, heq⟩ := List.mem_map.mp hmem
    exact absurd (hl.allocated ht) (heq ▸ lt_irrefl _)
  have hu := unpicked_register id item reading
  constructor
  · rw [Worker.opens, Worker.requestsBy, hu, register, List.map_append]
    exact hl.accounted.accept hfresh
  · rw [register, List.map_append, List.nodup_append]
    refine ⟨hl.nodup, by simp, ?_⟩
    rintro control ha _ hb rfl
    obtain rfl : control = w.cancelled.length := by simpa using hb
    exact hfresh ha
  · intro task ht
    rw [register, List.length_append]
    rcases List.mem_append.mp ht with ht | ht
    · exact (hl.allocated ht).trans_le (by simp)
    · rw [List.mem_singleton.mp ht]
      simp
  · intro task ht
    rw [Worker.pending, Worker.requestsBy, hu] at ht
    rcases List.mem_cons.mp ht with rfl | ht
    · simp [register]
    · exact List.mem_append_left _ (hl.pending ht)
  · intro id' control h
    rw [register, Table.lookup_insert_cases] at h
    split at h
    · rename_i heq
      cases h
      exact ⟨_, List.mem_append_right _ List.mem_cons_self, rfl, heq ▸ hid⟩
    · obtain ⟨task, ht, hrest⟩ := hl.registered h
      exact ⟨task, List.mem_append_left _ ht, hrest⟩
  · intro task ht
    rcases List.mem_append.mp ht with ht | ht
    · exact hl.named ht
    · rw [List.mem_singleton.mp ht]
      exact Json.valueStr_ok "__request__" hid

/-- A step of an open or concluded request writes at most its own next event. -/
theorem handle (hl : Ledger w) {i : Nat} {a : Answer} {task : Task} {id : String} {t0 : Int}
    {phase next : Phase} {effect : Effect}
    (hi : w.threads[i]? = some (.running task id t0 phase))
    (hh : Moss.handle c task.item id t0 (w.isCancelled task.control) w.freeSlots.getLast? a phase
      = some (next, effect)) :
    Accounted Protocol.isTerminal (w.accepted.map Task.control)
      ((w.apply task.control effect).setThread i (.running task id t0 next)).opens
      (w.apply task.control effect).out := by
  have hreq := requestsBy_handle (f := Thread.openTask?) next effect hi
  rcases handle_emits hh with ⟨ho, hn, hquiet⟩ | ⟨ho, hn, e, rfl, he⟩ | ⟨ho, hn, hsilent⟩
  · simp only [Thread.openTask?, ho, hn, if_true] at hreq
    have hopens := ((List.perm_append_left_iff _).mp hreq).map Task.control
    refine Accounted.perm ?_ hopens
    have hmem : task.control ∈ w.opens := by
      refine List.mem_map_of_mem (List.mem_append_right _ (List.mem_filterMap.mpr ?_))
      exact ⟨_, List.mem_of_getElem? hi, by simp [Thread.openTask?, ho]⟩
    cases effect with
    | emit e => exact hl.accounted.write hmem (hquiet e rfl)
    | _ => exact hl.accounted
  · simp only [Thread.openTask?, ho, hn, if_true, Bool.false_eq_true, if_false,
      Option.toList_none, Option.toList_some, List.nil_append, List.singleton_append] at hreq
    have hopens := hreq.map Task.control
    exact (hl.accounted.perm hopens).settle he
  · simp only [Thread.openTask?, ho, hn, Bool.false_eq_true, if_false, Option.toList_none,
      List.nil_append] at hreq
    refine Accounted.perm ?_ (hreq.map Task.control)
    cases effect with
    | emit e => exact absurd rfl (hsilent e)
    | _ => exact hl.accounted

/-- One step keeps the ledger. -/
theorem step (hl : Ledger w) (h : Step c w l w') : Ledger w' := by
  have hlen := h.cancelled_length
  cases h with
  | refuse _ _ => exact hl.keep_main hlen rfl rfl .rfl rfl (hl.accounted.untagged _)
  | @trip item id reading _ _ =>
      obtain ⟨hu, ht, hc, hacc, hout⟩ := trip_frame id reading
      exact hl.keep_main hlen hacc hc (.of_eq hu) ht (hout ▸ hl.accounted)
  | enrol reading hid _ _ _ => exact hl.enrol hid reading
  | eof reading =>
      refine hl.keep_main hlen rfl rfl (.of_eq ?_) rfl hl.accounted
      simp [Worker.unpicked, Main.task?, reading]
  | enqueue hm => exact hl.keep_main hlen rfl rfl (unpicked_enqueue hm) rfl hl.accounted
  | ack hm =>
      refine hl.keep_main hlen rfl rfl (.of_eq ?_) rfl (hl.accounted.untagged _)
      simp [Worker.unpicked, Main.task?, hm, Worker.emit]
  | join hm _ =>
      refine hl.keep_main hlen rfl rfl (.of_eq ?_) rfl hl.accounted
      simp [Worker.unpicked, Main.task?, hm]
  | @pickUp i a task queue id hi hq hid =>
      have hreq (f) := requestsBy_pickUp (f := f) id a.now hi hq
      exact hl.keep hlen rfl (fun _ => (hreq _ rfl rfl).mem_iff.mp) (fun h => h)
        (hl.accounted.perm ((hreq _ rfl rfl).map _))
  | exit hi _ _ =>
      have hreq (f) := requestsBy_setThread_same (f := f) .exited hi
      exact hl.keep hlen rfl (fun _ => (hreq _ rfl).mem_iff.mp) (fun h => h)
        (hl.accounted.perm ((hreq _ rfl).map _))
  | @finish i a task id t0 hi =>
      obtain ⟨-, -, hacc, hout⟩ := unregister_frame w id task.control
      have hreq (f) := requestsBy_finish (f := f) hi
      refine hl.keep hlen hacc ?_ ?_ ?_
      · exact fun _ h => (hreq Thread.task? rfl).mem_iff.mp (List.mem_cons_of_mem _ h)
      · intro id' control h
        simp only [Worker.setThread, unregister] at h
        split at h
        · rw [Table.lookup_erase_cases] at h
          split at h
          · cases h
          · exact h
        · exact h
      · have hlog := hl.accounted.perm ((hreq Thread.openTask? rfl).map Task.control)
        exact hout ▸ hlog
  | @handle i a task id t0 phase next effect hi hh =>
      obtain ⟨-, -, hc, hacc⟩ := apply_frame w task.control effect
      have hp := requestsBy_handle (f := Thread.task?) next effect hi
      exact hl.keep hlen hacc (fun _ => ((List.perm_append_left_iff _).mp hp).mem_iff.mp)
        (fun h => hc ▸ h) (hl.handle hi hh)

theorem init (c : Config) : Ledger (.init c) where
  accounted := by
    have hopens : (Worker.init c).opens = [] := by
      simp [Worker.opens, Worker.requestsBy, Worker.unpicked, Worker.init, Main.task?,
        Thread.openTask?]
    rw [hopens]
    exact Accounted.nil
  nodup := List.nodup_nil
  allocated h := by cases h
  pending h := by
    simp [Worker.pending, Worker.requestsBy, Worker.unpicked, Worker.init, Main.task?,
      Thread.task?] at h
  registered h := by cases h
  named h := by cases h

end Ledger

theorem ledger_invariant (c : Config) : (system c).Invariant Ledger :=
  ⟨.init c, fun hl hs => hl.step (step_cases hs)⟩

end JetsonVoice.Moss
