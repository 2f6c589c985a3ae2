import JetsonVoice.Moss.Requests

/-!
# Admission accounting of the MOSS worker

A request is pending from its registration until its worker thread has been
through the controls. The dispatch thread registers it under the id it reads
with the default `__worker__`, the worker thread takes it out under the id it
reads with the default `__request__`; the two agree on requests that carry an id.
-/

namespace JetsonVoice.Moss

open Foundation Protocol TransitionSystem

/-- The id of a request that carries one. -/
def Task.id (task : Task) : String := (task.item.str? "id").getD ""

/-- The entry of a request in the controls. -/
def Task.entry (task : Task) : Sigma fun _ : String => Nat := ⟨task.id, task.control⟩

/-- A line that makes the dispatch thread accept a request without an id. -/
def acceptsUnnamed (c : Config) (w : Worker) : Label → Bool
  | .line (.ok item) =>
      item.isObject && !item.contains "id" && (isCancelLine item).toOption == some false
        && (w.controls.lookup "__worker__").isNone && decide (w.controls.size < c.maxSlots)
  | _ => false

/-- The controls hold exactly the pending requests, each under its id. -/
structure Admitted (c : Config) (w : Worker) : Prop where
  entries : w.controls.entries.Perm (w.pending.map Task.entry)
  size_le : w.controls.size ≤ c.maxSlots
  named : ∀ {task : Task}, task ∈ w.pending → ∀ d, task.item.valueStr "id" d = .ok task.id
  running : ∀ {i : Nat} {task : Task} {id : String} {t0 : Int} {phase : Phase},
    w.threads[i]? = some (.running task id t0 phase) → id = task.id

theorem pending_register {w : Worker} (id : String) (item : Json) (reading : w.main = .reading) :
    (register w id item).pending = ⟨item, w.cancelled.length⟩ :: w.pending := by
  rw [Worker.pending, Worker.requestsBy, unpicked_register _ _ reading]
  rfl

/-- A finishing thread gives up its request. -/
theorem pending_finish {w : Worker} {i : Nat} {task : Task} {id : String} {t0 : Int}
    {phase : Phase} (hi : w.threads[i]? = some (.running task id t0 phase)) :
    w.pending.Perm (task :: ((unregister w id task.control).setThread i .waiting).pending) :=
  (requestsBy_finish hi rfl).symm

namespace Admitted

variable {c : Config} {w w' : Worker}

/-- A step that keeps the pending requests and the controls keeps the accounting. -/
theorem keep (ha : Admitted c w) (hp : w'.pending.Perm w.pending) (hc : w'.controls = w.controls)
    (hr : ∀ {i : Nat} {task : Task} {id : String} {t0 : Int} {phase : Phase},
      w'.threads[i]? = some (.running task id t0 phase) → id = task.id) : Admitted c w' where
  entries := hc ▸ ha.entries.trans (hp.symm.map _)
  size_le := hc ▸ ha.size_le
  named ht := ha.named (hp.mem_iff.mp ht)
  running := hr

/-- The id of an admitted request, when no request without an id is accepted. -/
theorem named_of_enrol {item : Json} {id : String}
    (hok : acceptsUnnamed c w (.line (.ok item)) = false)
    (hid : item.valueStr "id" "__worker__" = .ok id) (hc : isCancelLine item = .ok false)
    (fresh : w.controls.lookup id = none) (room : w.controls.size < c.maxSlots) :
    item.str? "id" = some id := by
  have hcontains : item.contains "id" = true := by
    by_contra hno
    rw [Bool.not_eq_true] at hno
    have hdefault := Json.valueStr_default hid hno
    subst hdefault
    have hobj := Json.isObject_of_valueWith hid
    simp [acceptsUnnamed, hobj, hno, hc, fresh, room, Except.toOption] at hok
  exact Json.str?_of_valueStr hid hcontains

theorem enrol (ha : Admitted c w) {item : Json} {id : String}
    (hnamed : item.str? "id" = some id) (hid : item.valueStr "id" "__worker__" = .ok id)
    (reading : w.main = .reading) (fresh : w.controls.lookup id = none)
    (room : w.controls.size < c.maxSlots) : Admitted c (register w id item) := by
  have htask : (⟨item, w.cancelled.length⟩ : Task).id = id := by simp [Task.id, hnamed]
  constructor
  · simp only [register]
    rw [AList.entries_insert_of_notMem (AList.lookup_eq_none.mp fresh)]
    change List.Perm _ ((register w id item).pending.map Task.entry)
    rw [pending_register _ _ reading]
    simpa [Task.entry, htask] using ha.entries
  · exact (Table.size_insert fresh).trans_le room
  · intro task ht d
    rw [pending_register _ _ reading] at ht
    rcases List.mem_cons.mp ht with rfl | ht
    · rw [htask, ← hid]
      exact Json.valueStr_congr _ _ (Json.contains_of_str? hnamed)
    · exact ha.named ht d
  · exact ha.running

theorem finish (ha : Admitted c w) {i : Nat} {task : Task} {id : String} {t0 : Int}
    {phase : Phase} (hi : w.threads[i]? = some (.running task id t0 phase)) :
    Admitted c ((unregister w id task.control).setThread i .waiting) ∧
      (unregister w id task.control).controls = w.controls.erase task.id := by
  obtain rfl := ha.running hi
  have hp := pending_finish hi
  have hentries : w.controls.entries.Perm (task.entry ::
      ((unregister w task.id task.control).setThread i .waiting).pending.map Task.entry) :=
    ha.entries.trans (hp.map _)
  have hlookup : w.controls.lookup task.id = some task.control :=
    AList.mem_lookup_iff.mpr (hentries.mem_iff.mpr List.mem_cons_self)
  have hcontrols : (unregister w task.id task.control).controls = w.controls.erase task.id := by
    simp [unregister, hlookup]
  refine ⟨⟨?_, ?_, ?_, ?_⟩, hcontrols⟩
  · exact (hcontrols ▸ (Table.entries_perm_erase hlookup).symm.trans hentries).cons_inv
  · have hsize := Table.size_erase hlookup
    have hle := ha.size_le
    change (unregister w task.id task.control).controls.size ≤ c.maxSlots
    rw [hcontrols]
    omega
  · exact fun ht => ha.named (hp.mem_iff.mpr (List.mem_cons_of_mem _ ht))
  · intro j task' id' t0' phase' hj
    rcases getElem?_set_cases hj with ⟨-, heq, -⟩ | ⟨-, hj'⟩
    · cases heq
    · rw [(unregister_frame w task.id task.control).2.1] at hj'
      exact ha.running hj'

/-- One step keeps the accounting, unless it accepts a request without an id. -/
theorem step {l : Label} (ha : Admitted c w) (hok : acceptsUnnamed c w l = false)
    (h : Step c w l w') : Admitted c w' := by
  cases h with
  | refuse _ _ => exact ha.keep .rfl rfl ha.running
  | @trip item id reading _ _ =>
      obtain ⟨hu, ht, hc, -⟩ := trip_frame id reading
      exact ha.keep (.of_eq (requestsBy_congr hu ht)) hc fun h => ha.running (ht ▸ h)
  | enrol reading hid hc fresh room =>
      exact ha.enrol (named_of_enrol hok hid hc fresh room) hid reading fresh room
  | eof reading =>
      refine ha.keep (.of_eq (requestsBy_congr ?_ rfl)) rfl ha.running
      simp [Worker.unpicked, Main.task?, reading]
  | enqueue hm => exact ha.keep ((unpicked_enqueue hm).append_right _) rfl ha.running
  | ack hm =>
      refine ha.keep (.of_eq (requestsBy_congr ?_ rfl)) rfl ha.running
      simp [Worker.unpicked, Main.task?, hm, Worker.emit]
  | join hm _ =>
      refine ha.keep (.of_eq (requestsBy_congr ?_ rfl)) rfl ha.running
      simp [Worker.unpicked, Main.task?, hm]
  | @pickUp i a task queue id hi hq hid =>
      refine ha.keep (requestsBy_pickUp id a.now hi hq rfl rfl) rfl fun hj => ?_
      rcases getElem?_set_cases hj with ⟨-, heq, -⟩ | ⟨-, hj'⟩
      · cases heq
        have hmem : task ∈ w.pending := by simp [Worker.pending, Worker.requestsBy, Worker.unpicked, hq]
        exact Except.ok.inj (hid.symm.trans (ha.named hmem _))
      · exact ha.running hj'
  | exit hi _ _ =>
      refine ha.keep (requestsBy_setThread_same _ hi rfl) rfl fun hj => ?_
      rcases getElem?_set_cases hj with ⟨-, heq, -⟩ | ⟨-, hj'⟩
      · cases heq
      · exact ha.running hj'
  | finish hi => exact (ha.finish hi).1
  | @handle i a task id t0 phase next effect hi _ =>
      obtain ⟨-, ht, hc, -⟩ := apply_frame w task.control effect
      have hp := requestsBy_handle (f := Thread.task?) next effect hi
      refine ha.keep ((List.perm_append_left_iff _).mp hp) hc fun hj => ?_
      rcases getElem?_set_cases hj with ⟨-, heq, -⟩ | ⟨-, hj'⟩
      · cases heq
        exact ha.running hi
      · exact ha.running (ht ▸ hj')

theorem init (c : Config) : Admitted c (.init c) where
  entries := by
    simp [Worker.pending, Worker.requestsBy, Worker.unpicked, Worker.init, Main.task?, Thread.task?]
  size_le := by simp [Worker.init]
  named ht := by
    simp [Worker.pending, Worker.requestsBy, Worker.unpicked, Worker.init, Main.task?,
      Thread.task?] at ht
  running hi := by
    have := List.eq_of_mem_replicate (List.mem_of_getElem? hi)
    cases this

end Admitted

/-- The runs in which no request without an id is accepted. -/
def namedSystem (c : Config) : TransitionSystem Worker Label :=
  (system c).guard fun w l => acceptsUnnamed c w l = false

theorem admitted_invariant (c : Config) : (namedSystem c).Invariant (Admitted c) where
  start := .init c
  step ha hs :=
    let ⟨hok, hstep⟩ := guard_step.mp hs
    ha.step hok (step_cases hstep)

/-- As long as no request without an id is accepted, the controls hold exactly
the pending requests and at most `max_slots` of them, a finishing request takes
its own entry out, and once nothing is pending the next request is accepted. -/
theorem moss_admission_accounted {c : Config} {w : Worker} (hr : (namedSystem c).Reachable w) :
    w.controls.entries.Perm (w.pending.map Task.entry) ∧
    w.controls.size ≤ c.maxSlots ∧
    (∀ {i : Nat} {a : Answer} {task : Task} {id : String} {t0 : Int} {w' : Worker},
      w.threads[i]? = some (.running task id t0 .finish) →
      (system c).step w (.thread i a) = some w' →
      w.pending.Perm (task :: w'.pending) ∧ w'.controls = w.controls.erase task.id) ∧
    (w.pending = [] → w.controls = ∅ ∧
      ∀ {item id}, item.valueStr "id" "__worker__" = .ok id → isCancelLine item = .ok false →
        (readLine c w (.ok item)).accepted = w.accepted ++ [⟨item, w.cancelled.length⟩]) := by
  have ha := (admitted_invariant c).of_reachable hr
  refine ⟨ha.entries, ha.size_le, ?_, fun hempty => ?_⟩
  · intro i a task id t0 w' hi hs
    simp only [system, threadStep, hi, Option.some.injEq] at hs
    subst hs
    exact ⟨pending_finish hi, (ha.finish hi).2⟩
  · have hentries : w.controls.entries = [] := by
      simpa [hempty] using ha.entries
    have hcontrols : w.controls = ∅ := AList.ext hentries
    refine ⟨hcontrols, fun hid hc => ?_⟩
    have hroom := c.maxSlots_pos
    simp [readLine, hid, hc, accept, register, hcontrols, Nat.not_le.mpr hroom]

/-- A worker with one slot. -/
def oneSlot : Config where
  maxSlots := 1
  maxSlots_pos := Nat.one_pos
  codecSampleRate := 48000
  codecChannels := 2
  encoderSampleRate := 48000
  userPromptPrefix := 0
  userPromptAfterReference := 0
  assistantPromptPrefix := 0
  defaultVoiceRows := 0

/-- A request line is taken over, picked up, fails its checks and finishes. -/
def failingRequest (item : Json) : List Label :=
  [.line (.ok item), .main, .thread 0 {}, .thread 0 {}, .thread 0 {}, .thread 0 {}]

theorem moss_admission_accounted_after_failure : ∃ w, (namedSystem oneSlot).Reachable w ∧
    w.accepted.length = 1 ∧ w.pending = [] ∧ w.controls = ∅ := by
  obtain ⟨w, hr, hlen, hp⟩ : ∃ w, (namedSystem oneSlot).Reachable w ∧
      w.accepted.length = 1 ∧ w.pending = [] :=
    ⟨_, reachable_of_run (failingRequest (.obj [("id", .str "a")])) rfl, rfl, rfl⟩
  exact ⟨w, hr, hlen, hp, ((moss_admission_accounted hr).2.2.2 hp).1⟩

/-- A request without an id stays in the controls after it has finished, and the
next request with a fresh id is answered `pool_saturated`. -/
theorem moss_admission_leaks : ∃ w, (system oneSlot).Reachable w ∧
    w.pending = [] ∧ w.controls.size = 1 ∧
    (readLine oneSlot w (.ok (.obj [("id", .str "fresh")]))).out = w.out ++
      [(none, errorEvent "fresh" "pool_saturated"
        [("status", .int 4429), ("max_slots", .int 1)])] :=
  ⟨_, reachable_of_run (failingRequest (.obj [])) rfl, rfl, rfl, rfl⟩

end JetsonVoice.Moss
