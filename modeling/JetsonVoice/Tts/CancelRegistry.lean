import JetsonVoice.Foundation.Registry
import JetsonVoice.Tts.SlotWorker

/-!
# The cancel map as a registry

The slots are the owners of the cancel map: a slot's thread registers its slot
under the id of the request it runs. An entry always leads to a slot whose
request registered under that id; that every registered request is found needs
that no two registrations of one id overlap.
-/

namespace JetsonVoice.Tts

open Foundation Protocol TransitionSystem

variable {E : Engine}

/-- The key a slot's thread is registered under. -/
def SlotThread.key : SlotThread E → Option String
  | .running _ id _ | .unregistering _ id => if id = "" then none else some id
  | _ => none

/-- The request a slot's thread works on. -/
def SlotThread.work? : SlotThread E → Option (Work × String)
  | .waiting | .exited => none
  | .arming work id | .registering work id | .running work id _ | .unregistering work id
  | .cleaning work id | .releasing work id => some (work, id)

/-- The flag of the request in flight exists. -/
def SlotThread.armed : SlotThread E → Bool
  | .registering _ _ | .running _ _ _ | .unregistering _ _ | .cleaning _ _ => true
  | _ => false

namespace Worker

def holds (w : Worker E) (i : Nat) : Option String := w.slots[i]?.bind fun s => s.thread.key

/-- The cancel map with the registrations of the slots. -/
def registry (w : Worker E) : Registry String Nat := ⟨w.cancelMap, w.holds⟩

theorem holds_eq {w : Worker E} {i : Nat} {s : Slot E} (hi : w.slots[i]? = some s) :
    w.holds i = s.thread.key := by
  simp [holds, hi]

theorem slot_of_holds {w : Worker E} {i : Nat} {id : String} (h : w.holds i = some id) :
    ∃ s, w.slots[i]? = some s ∧ s.thread.key = some id :=
  Option.bind_eq_some_iff.mp h

theorem holds_setSlot {w : Worker E} {i : Nat} {s s' : Slot E} (hi : w.slots[i]? = some s) :
    (w.setSlot i s').holds = Function.update w.holds i s'.thread.key := by
  funext j
  by_cases hj : j = i
  · subst hj
    simpa using holds_eq (w := w.setSlot j s') (getElem?_set_same hi)
  · simp [holds, setSlot, Function.update_of_ne hj, getElem?_set_other hj]

theorem registry_setSlot {w : Worker E} {i : Nat} {s s' : Slot E} (hi : w.slots[i]? = some s)
    (hk : s'.thread.key = s.thread.key) : (w.setSlot i s').registry = w.registry := by
  have hu : Function.update w.holds i s'.thread.key = w.holds := by
    rw [hk, ← holds_eq hi, Function.update_eq_self]
  exact Registry.ext rfl ((holds_setSlot hi).trans hu)

end Worker

theorem key_running {work : Work} {id : String} {state : E.State} (hid : id ≠ "") :
    (SlotThread.running work id state : SlotThread E).key = some id := if_neg hid

section Registry
variable {w w' : Worker E} {l : Label E}

/-- A step leaves the registry alone, registers a slot or unregisters one. -/
theorem Step.registry (h : Step w l w') :
    w'.registry = w.registry ∨
    (∃ i s work id, w.slots[i]? = some s ∧ s.thread = .registering work id ∧ id ≠ "" ∧
      (∃ input, l = .slot i input) ∧ w'.registry = w.registry.register i id) ∨
    (∃ i s work id, w.slots[i]? = some s ∧ s.thread = .unregistering work id ∧ id ≠ "" ∧
      w'.registry = w.registry.unregister i id) := by
  cases h with
  | trip _ _ _ _ hi _ => exact .inl (Worker.registry_setSlot hi rfl)
  | enqueue _ hi => exact .inl (Worker.registry_setSlot hi rfl)
  | shutdown _ hi => exact .inl (Worker.registry_setSlot hi rfl)
  | pickUp hi ht _ _ => exact .inl (Worker.registry_setSlot hi (by simp [SlotThread.key, ht]))
  | exit hi ht _ _ => exact .inl (Worker.registry_setSlot hi (by simp [SlotThread.key, ht]))
  | arm hi ht => exact .inl (Worker.registry_setSlot hi (by simp [SlotThread.key, ht]))
  | @register i input s work id hi ht =>
      by_cases hid : id = ""
      · refine .inl ?_
        simp only [hid, if_true]
        exact Worker.registry_setSlot hi (by simp [SlotThread.key, ht])
      · refine .inr (.inl ⟨i, s, work, id, hi, ht, hid, ⟨input, rfl⟩, ?_⟩)
        refine Registry.ext (if_neg hid) ((Worker.holds_setSlot hi).trans ?_)
        rw [key_running hid]
        rfl
  | leave hi ht _ => exact .inl (Worker.registry_setSlot hi (by simp [SlotThread.key, ht]))
  | @engine i _ s _ _ _ _ action hi ht _ _ =>
      cases action <;> exact .inl (Worker.registry_setSlot hi (by simp [SlotThread.key, ht]))
  | @unregister i input s work id hi ht =>
      by_cases hid : id = ""
      · refine .inl ?_
        simp only [hid, if_true]
        exact Worker.registry_setSlot hi (by simp [SlotThread.key, ht, hid])
      · refine .inr (.inr ⟨i, s, work, id, hi, ht, hid, ?_⟩)
        exact Registry.ext (if_neg hid) (Worker.holds_setSlot hi)
  | clean hi ht _ _ => exact .inl (Worker.registry_setSlot hi (by simp [SlotThread.key, ht]))
  | release hi ht => exact .inl (Worker.registry_setSlot hi (by simp [SlotThread.key, ht]))
  | _ => exact .inl rfl

theorem Step.sound (hs : w.registry.Sound) (h : Step w l w') : w'.registry.Sound := by
  rcases h.registry with heq | ⟨i, s, work, id, hi, ht, -, -, heq⟩ | ⟨i, s, work, id, hi, ht, hid, heq⟩
  · exact heq ▸ hs
  · exact heq ▸ hs.register ((Worker.holds_eq hi).trans (by simp [SlotThread.key, ht]))
  · exact heq ▸ hs.unregister ((Worker.holds_eq hi).trans (by simp [SlotThread.key, ht, hid]))

end Registry

/-- The request of a slot carries its id, and its cancel flag is there, unset
until the slot is registered. -/
structure Slot.Fit (s : Slot E) : Prop where
  armed : s.thread.armed = true → s.flag.isSome = true
  reset : ∀ {work id}, s.thread = .registering work id → s.flag = some false
  named : ∀ {work id}, s.thread.work? = some (work, id) → work.item.valueStr "id" "" = .ok id
  queued : ∀ {work}, work ∈ s.queue → ∃ id, work.item.valueStr "id" "" = .ok id

/-- What holds of the cancel map and the flags in every run. -/
structure Tended (w : Worker E) : Prop where
  sound : w.registry.Sound
  fit : ∀ {i : Nat} {s : Slot E}, w.slots[i]? = some s → s.Fit
  claimed : ∀ {id i work}, w.main.claim? = some (id, i, work) →
    work.item.valueStr "id" "" = .ok id

namespace Tended
variable {w w' : Worker E} {l : Label E}

/-- A move keeps a slot fit. -/
theorem slot (hw : Tended w) {i : Nat} {s s' : Slot E} (hi : w.slots[i]? = some s)
    (h : SlotMove w i s s') : s'.Fit := by
  obtain ⟨armed, reset, named, queued⟩ := hw.fit hi
  cases h with
  | stay => exact ⟨armed, reset, named, queued⟩
  | @trip id hmap =>
      refine ⟨fun _ => rfl, fun ht => ?_, named, queued⟩
      have hkey := hw.sound hmap
      have ht' : s.thread = .registering _ _ := ht
      simp [Worker.registry, Worker.holds_eq hi, ht', SlotThread.key] at hkey
  | @enqueue id work hm =>
      refine ⟨armed, reset, named, fun hmem => ?_⟩
      rcases List.mem_append.mp hmem with hmem | hmem
      · exact queued hmem
      · have hclaim : w.main.claim? = some (id, i, work) := by
          rw [hm]
          rfl
        exact ⟨id, List.mem_singleton.mp hmem ▸ hw.claimed hclaim⟩
  | shutdown hm => exact ⟨armed, reset, named, queued⟩
  | pickUp ht hq hid =>
      refine ⟨nofun, nofun, fun hwork => ?_, fun hmem => queued (hq ▸ List.mem_cons_of_mem _ hmem)⟩
      cases hwork
      exact hid
  | exit => exact ⟨nofun, nofun, nofun, queued⟩
  | arm ht => exact ⟨fun _ => rfl, fun _ => rfl, fun h => named (ht ▸ h), queued⟩
  | register ht => exact ⟨fun _ => armed (ht ▸ rfl), nofun, fun h => named (ht ▸ h), queued⟩
  | leave ht _ => exact ⟨fun _ => armed (ht ▸ rfl), nofun, fun h => named (ht ▸ h), queued⟩
  | engine ht _ _ hflag =>
      refine ⟨fun _ => ?_, nofun, fun h => named (ht ▸ h), queued⟩
      have hsome := armed (ht ▸ rfl)
      rcases hflag with rfl | rfl <;> simpa using hsome
  | unregister ht => exact ⟨fun _ => armed (ht ▸ rfl), nofun, fun h => named (ht ▸ h), queued⟩
  | clean ht => exact ⟨nofun, nofun, fun h => named (ht ▸ h), queued⟩
  | release => exact ⟨nofun, nofun, nofun, queued⟩

theorem step (hw : Tended w) (h : Step w l w') : Tended w' where
  sound := h.sound hw.sound
  fit hj := by
    obtain ⟨t₀, hj₀, hm⟩ := h.move hj
    exact hw.slot hj₀ hm
  claimed hm := by
    rcases h.claim_cases hm with hm' | ⟨item, pool, -, -, -, hid, -, rfl⟩
    · exact hw.claimed hm'
    · exact hid

theorem slot_of_init {maxSlots i : Nat} {s : Slot E}
    (hi : (Worker.init E maxSlots).slots[i]? = some s) : s.thread = .waiting ∧ s.queue = [] := by
  obtain rfl := List.eq_of_mem_replicate (List.mem_of_getElem? hi)
  exact ⟨rfl, rfl⟩

theorem init (E : Engine) (maxSlots : Nat) : Tended (.init E maxSlots) where
  sound k o h := by cases h
  fit hi := by
    obtain ⟨ht, hq⟩ := slot_of_init hi
    refine ⟨?_, ?_, ?_, ?_⟩ <;> simp [ht, hq, SlotThread.armed, SlotThread.work?]
  claimed h := by cases h

end Tended

theorem tended_invariant (E : Engine) (maxSlots : Nat) : (slotSystem E maxSlots).Invariant Tended :=
  ⟨.init E maxSlots, fun hw hs => hw.step (step_cases hs)⟩

/-- A slot is about to register under an id another slot is registered under. -/
def overlaps (w : Worker E) : Label E → Bool
  | .slot i _ =>
      match w.slots[i]? with
      | some s =>
          match s.thread with
          | .registering _ id => w.slots.any fun s => s.thread.key = some id
          | _ => false
      | none => false
  | _ => false

/-- The runs in which no two registrations of one id overlap. -/
def disjointSystem (E : Engine) (maxSlots : Nat) : TransitionSystem (Worker E) (Label E) :=
  (slotSystem E maxSlots).guard fun w l => overlaps w l = false

section Exact
variable {maxSlots : Nat} {w w' : Worker E} {l : Label E}

theorem not_overlaps {i : Nat} {s : Slot E} {work : Work} {id : String} {input : Option E.Input}
    (hok : overlaps w (.slot i input) = false) (hi : w.slots[i]? = some s)
    (ht : s.thread = .registering work id) : ∀ j, w.holds j ≠ some id := by
  intro j hj
  obtain ⟨t, hjs, hkey⟩ := Worker.slot_of_holds hj
  have hany : w.slots.any (fun s => s.thread.key = some id) = true :=
    List.any_eq_true.mpr ⟨t, List.mem_of_getElem? hjs, by simpa using hkey⟩
  simp [overlaps, hi, ht, hany] at hok

/-- A step that starts no overlapping registration keeps every registration findable. -/
theorem Step.exact (he : w.registry.Exact) (hok : overlaps w l = false) (h : Step w l w') :
    w'.registry.Exact := by
  rcases h.registry with heq | ⟨i, s, work, id, hi, ht, -, ⟨input, rfl⟩, heq⟩ |
    ⟨i, s, work, id, hi, ht, hid, heq⟩
  · exact heq ▸ he
  · exact heq ▸ he.register (not_overlaps hok hi ht)
  · exact heq ▸ he.unregister ((Worker.holds_eq hi).trans (by simp [SlotThread.key, ht, hid]))

theorem exact_invariant (E : Engine) (maxSlots : Nat) :
    (disjointSystem E maxSlots).Invariant fun w => w.registry.Exact where
  start i k h := by
    obtain ⟨s, hi, hk⟩ := Worker.slot_of_holds h
    simp [(Tended.slot_of_init hi).1, SlotThread.key] at hk
  step he hs :=
    let ⟨hok, hstep⟩ := guard_step.mp hs
    (step_cases hstep).exact he hok

/-- A cancel whose entry leads to a slot with a flag sets that flag. -/
theorem cancel_trips {item : Json} {id : String} {i : Nat} {s : Slot E} (hm : w.main = .reading)
    (hc : isCancelLine item = some true) (hid : item.valueStr "id" "" = .ok id)
    (hmap : w.cancelMap.lookup id = some i) (hi : w.slots[i]? = some s)
    (hflag : s.flag.isSome = true) :
    (slotSystem E maxSlots).step w (.line (.ok item)) =
      some { w.setSlot i { s with flag := some true } with main := .ack id true } := by
  simp [slotSystem, hm, readLine, hc, hid, Except.toOption, Worker.tripCancel, hmap, hi, hflag,
    bind, pure]

/-- What the cancel map owes the running requests of a worker. -/
structure CancelsReach (maxSlots : Nat) (w : Worker E) : Prop where
  /-- An id with a running request has an entry, which leads to its slot. -/
  found : ∀ {i : Nat} {s : Slot E} {work : Work} {id : String} {state : E.State},
    w.slots[i]? = some s → s.thread = .running work id state → id ≠ "" →
      w.cancelMap.lookup id = some i
  /-- A request that ends takes no other running request's entry. -/
  kept : ∀ {i : Nat} {s : Slot E} {work : Work} {id : String} {input : Option E.Input}
    {w' : Worker E}, w.slots[i]? = some s → s.thread = .unregistering work id →
      (slotSystem E maxSlots).step w (.slot i input) = some w' →
      ∀ {j : Nat} {t : Slot E} {work' : Work} {id' : String} {state : E.State},
        w'.slots[j]? = some t → t.thread = .running work' id' state → id' ≠ "" →
          w'.cancelMap.lookup id' = some j
  /-- A cancel sets the flag that a running request with its id reads. -/
  trips : ∀ {i : Nat} {s : Slot E} {work : Work} {id : String} {state : E.State} {item : Json},
    w.slots[i]? = some s → s.thread = .running work id state → id ≠ "" →
      w.main = .reading → isCancelLine item = some true → item.valueStr "id" "" = .ok id →
      ∃ w' s', (slotSystem E maxSlots).step w (.line (.ok item)) = some w' ∧
        w'.main = .ack id true ∧ w'.slots[i]? = some s' ∧ s'.flag = some true ∧
        s'.thread = .running work id state

theorem Exact.found (he : w.registry.Exact) {i : Nat} {s : Slot E} {work : Work} {id : String}
    {state : E.State} (hi : w.slots[i]? = some s) (ht : s.thread = .running work id state)
    (hid : id ≠ "") : w.cancelMap.lookup id = some i :=
  he ((Worker.holds_eq hi).trans (ht ▸ key_running hid))

theorem cancels_reach (hr : (disjointSystem E maxSlots).Reachable w) :
    CancelsReach maxSlots w := by
  have he := (exact_invariant E maxSlots).of_reachable hr
  have hw := (tended_invariant E maxSlots).of_reachable hr.of_guard
  refine ⟨Exact.found he, fun {i s work id input w'} hi ht hs => ?_,
    fun {i s work id state item} hi ht hid hm hc hv => ?_⟩
  · have hok : overlaps w (.slot i input) = false := by simp [overlaps, hi, ht]
    intro j t work' id' state hj ht' hid'
    exact Exact.found ((step_cases hs).exact he hok) hj ht' hid'
  · have hflag := (hw.fit hi).armed (ht ▸ rfl)
    exact ⟨_, _, cancel_trips hm hc hv (Exact.found he hi ht hid) hi hflag, rfl,
      getElem?_set_same hi, rfl, ht⟩

end Exact

end JetsonVoice.Tts
