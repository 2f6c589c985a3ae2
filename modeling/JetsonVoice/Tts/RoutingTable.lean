import JetsonVoice.Tts.Cancellation

/-!
# The routing table and the requests it leads to

The main thread binds the id of a request to the slot it has claimed. The
Qwen3-TTS worker unbinds it before it gives the slot back; the Spark worker
never unbinds, so the entry outlives the request and is only overwritten by a
later request of the same id.
-/

namespace JetsonVoice.Tts

open Foundation Protocol TransitionSystem

variable {E : Engine}

/-- The thread of slot `i` has cleaned up and is about to give the slot back. -/
def Worker.ReleasingAt (w : Worker E) (i : Nat) (work : Work) (id : String) : Prop :=
  ∃ s, w.slots[i]? = some s ∧ s.thread = .releasing work id

/-- What a step does to the routing table, and which slots are then about to be
given back. -/
inductive RouteMove (w : Worker E) : Label E → Worker E → Prop
  | quiet {l : Label E} {w' : Worker E} (table : w'.pool.idToSlot = w.pool.idToSlot)
      (hr : ∀ {j work id}, w'.ReleasingAt j work id ↔ w.ReleasingAt j work id) :
      RouteMove w l w'
  | bind {l : Label E} {w' : Worker E} {id : String} {i : Nat} {work : Work}
      (hm : w.main = .bind id i work)
      (table : w'.pool.idToSlot =
        if id = "" then w.pool.idToSlot else w.pool.idToSlot.insert id i)
      (hr : ∀ {j work id}, w'.ReleasingAt j work id ↔ w.ReleasingAt j work id) :
      RouteMove w l w'
  | clean {l : Label E} {w' : Worker E} {i : Nat} {s : Slot E} {work : Work} {id : String}
      (hi : w.slots[i]? = some s) (ht : s.thread = .cleaning work id)
      (table : w'.pool.idToSlot =
        if E.channel ∨ id = "" then w.pool.idToSlot else w.pool.idToSlot.erase id)
      (hr : ∀ {j work' id'}, w'.ReleasingAt j work' id' ↔
        (j = i ∧ work' = work ∧ id' = id) ∨ w.ReleasingAt j work' id') :
      RouteMove w l w'
  | release {w' : Worker E} {i : Nat} {work : Work} {id : String} {input : Option E.Input}
      (ht : w.ReleasingAt i work id) (table : w'.pool.idToSlot = w.pool.idToSlot)
      (hr : ∀ {j work' id'}, w'.ReleasingAt j work' id' ↔ j ≠ i ∧ w.ReleasingAt j work' id') :
      RouteMove w (.slot i input) w'

section Move
variable {maxSlots : Nat} {w w' : Worker E} {l : Label E} {i : Nat} {s s' : Slot E}

theorem releasingAt_congr (hs : w'.slots = w.slots) {j : Nat} {work : Work} {id : String} :
    w'.ReleasingAt j work id ↔ w.ReleasingAt j work id := by
  rw [Worker.ReleasingAt, hs, Worker.ReleasingAt]

/-- An update of one slot changes who is about to give back that slot only. -/
theorem releasingAt_set (hi : w.slots[i]? = some s) (hs : w'.slots = w.slots.set i s') {j : Nat}
    {work : Work} {id : String} : w'.ReleasingAt j work id ↔
      if j = i then s'.thread = .releasing work id else w.ReleasingAt j work id := by
  rw [Worker.ReleasingAt, hs]
  by_cases hj : j = i
  · subst hj
    simp only [getElem?_set_same hi, Option.some.injEq, exists_eq_left', if_true]
  · rw [getElem?_set_other hj, if_neg hj]
    rfl

theorem releasingAt_of_slot (hi : w.slots[i]? = some s) {work : Work} {id : String} :
    w.ReleasingAt i work id ↔ s.thread = .releasing work id := by
  simp only [Worker.ReleasingAt, hi, Option.some.injEq, exists_eq_left']

theorem RouteMove.of_main (hs : w'.slots = w.slots)
    (table : w'.pool.idToSlot = w.pool.idToSlot) : RouteMove w l w' :=
  .quiet table (releasingAt_congr hs)

/-- A step that updates one slot whose thread is not about to give it back, and
neither is afterwards. -/
theorem RouteMove.of_slot (hi : w.slots[i]? = some s) (hs : w'.slots = w.slots.set i s')
    (table : w'.pool.idToSlot = w.pool.idToSlot)
    (hthread : ∀ {work id}, s'.thread = .releasing work id ↔ s.thread = .releasing work id) :
    RouteMove w l w' := by
  refine .quiet table fun {j work id} => ?_
  rw [releasingAt_set hi hs, hthread]
  by_cases hj : j = i
  · subst hj
    rw [if_pos rfl, releasingAt_of_slot hi]
  · rw [if_neg hj]

theorem step_route (h : (slotSystem E maxSlots).step w l = some w') : RouteMove w l w' := by
  cases step_cases h with
  | answer => exact .of_main rfl rfl
  | miss => exact .of_main rfl rfl
  | trip _ _ _ _ hi _ => exact .of_slot hi rfl rfl .rfl
  | saturated => exact .of_main rfl rfl
  | claim _ _ _ free =>
      obtain ⟨-, rfl⟩ := SlotPool.acquireFree_some free
      exact .of_main rfl rfl
  | eof => exact .of_main rfl rfl
  | ack => exact .of_main rfl rfl
  | reject => exact .of_main rfl rfl
  | @bind id i work pool hm =>
      have hpool : (if id = "" then w.pool else w.pool.bind id i) = pool := by
        simpa [slotSystem, mainStep, hm] using h
      refine .bind hm ?_ (releasingAt_congr rfl)
      rw [← hpool]
      split <;> rfl
  | enqueue _ hi => exact .of_slot hi rfl rfl .rfl
  | shutdown _ hi => exact .of_slot hi rfl rfl .rfl
  | stopped => exact .of_main rfl rfl
  | join => exact .of_main rfl rfl
  | pickUp hi ht => exact .of_slot hi rfl rfl (by simp [ht])
  | exit hi ht => exact .of_slot hi rfl rfl (by simp [ht])
  | arm hi ht => exact .of_slot hi rfl rfl (by simp [ht])
  | register hi ht => exact .of_slot hi rfl rfl (by simp [ht])
  | leave hi ht => exact .of_slot hi rfl rfl (by simp [ht])
  | @engine i _ s _ _ _ _ action hi ht =>
      cases action <;> exact .of_slot hi rfl rfl (by simp [ht])
  | unregister hi ht => exact .of_slot hi rfl rfl (by simp [ht])
  | @clean i _ s work id flag pool hi ht =>
      refine .clean hi ht ?_ fun {j work' id'} => ?_
      · simp only [slotSystem, hi, slotStep, ht] at h
        split at h
        · rename_i hc
          rw [if_pos (.inl hc), ← Option.some.inj h]
          rfl
        · rename_i hc
          rw [← Option.some.inj h]
          by_cases hid : id = "" <;> simp [hc, hid, SlotPool.unbind]
      · rw [releasingAt_set hi rfl]
        by_cases hj : j = i
        · subst hj
          simp [releasingAt_of_slot hi, ht, eq_comm]
        · simp [hj]
  | @release i _ s work id hi ht =>
      refine .release ⟨s, hi, ht⟩ rfl fun {j work' id'} => ?_
      rw [releasingAt_set hi rfl]
      by_cases hj : j = i <;> simp [hj]

/-- A request stays with its slot until the slot is given back. -/
theorem requests_kept (h : Step w l w') (hr : ∀ {work id}, w.ReleasingAt i work id →
    w'.ReleasingAt i work id) {work : Work} (hm : work ∈ w.requests i) : work ∈ w'.requests i := by
  cases h.requests with
  | keep hr _ _ _ => exact hr i ▸ hm
  | claim _ _ _ _ hr _ _ _ => exact hr i ▸ List.mem_append_left _ hm
  | @release j s work id hj ht _ hother _ _ hset =>
      by_cases hij : i = j
      · subst hij
        have hstill := hr ⟨s, hj, ht⟩
        rw [releasingAt_set hj hset, if_pos rfl] at hstill
        cases hstill
      · exact hother i hij ▸ hm

end Move

/-- The claim flags of the pool stand for the requests of the slots. -/
structure Flagged (maxSlots : Nat) (w : Worker E) : Prop where
  length : w.pool.inUse.length = maxSlots
  claimed : ∀ {i}, w.requests i ≠ [] → w.pool.inUse[i]? = some true

theorem Flagged.step {maxSlots : Nat} {w w' : Worker E} {l : Label E} (hf : Flagged maxSlots w)
    (hw : Housed w) (h : Step w l w') : Flagged maxSlots w' := by
  cases h.requests with
  | keep hr hp _ _ => exact ⟨hp ▸ hf.length, fun hne => hp ▸ hf.claimed (hr _ ▸ hne)⟩
  | @claim item id i _ _ _ hfree hr hp _ _ =>
      refine ⟨?_, fun {j} hne => ?_⟩
      · rw [hp, List.length_set]
        exact hf.length
      · by_cases hj : j = i
        · subst hj
          rw [hp, getElem?_set_same hfree]
        · rw [hp, getElem?_set_other hj]
          exact hf.claimed (by simpa [hr j, Ne.symm hj] using hne)
  | @release i s work id _ _ hr hother hp _ _ =>
      have hempty : w'.requests i = [] := by
        have hlen := hw.single i
        rw [hr, List.length_cons] at hlen
        exact List.eq_nil_of_length_eq_zero (by omega)
      refine ⟨?_, fun {j} hne => ?_⟩
      · rw [hp, List.length_set]
        exact hf.length
      · have hj : j ≠ i := fun heq => hne (heq ▸ hempty)
        rw [hp, getElem?_set_other hj]
        exact hf.claimed (hother j hj ▸ hne)

theorem flagged_invariant (E : Engine) (maxSlots : Nat) :
    (slotSystem E maxSlots).Invariant fun w => Housed w ∧ Flagged maxSlots w := by
  refine (housed_invariant E maxSlots).relative ?_ fun hw hf hs => hf.step hw (step_cases hs)
  refine ⟨List.length_replicate, fun {i} hne => ?_⟩
  exact absurd (Housed.requests_init E maxSlots i) hne

/-- Every entry is for a request whose slot has not been given back, under its id. -/
def EntriesLive (w : Worker E) : Prop :=
  ∀ {id i}, w.pool.idToSlot.lookup id = some i →
    id ≠ "" ∧ ∃ work ∈ w.requests i, work.item.valueStr "id" "" = .ok id

/-- The step gives back a slot that the table still leads to under its request's id. -/
def leavesEntry (w : Worker E) : Label E → Bool
  | .slot i _ =>
      match w.slots[i]? with
      | some s =>
          match s.thread with
          | .releasing _ id => w.pool.idToSlot.lookup id = some i
          | _ => false
      | none => false
  | _ => false

theorem leavesEntry_iff {w : Worker E} {l : Label E} : leavesEntry w l = true ↔
    ∃ i input work id, l = .slot i input ∧ w.ReleasingAt i work id ∧
      w.pool.idToSlot.lookup id = some i := by
  constructor
  · intro h
    cases l with
    | slot i input =>
        simp only [leavesEntry] at h
        split at h
        · rename_i s hi
          split at h
          · rename_i work id ht
            exact ⟨i, input, work, id, rfl, ⟨s, hi, ht⟩, of_decide_eq_true h⟩
          · cases h
        · cases h
    | line parsed => cases h
    | eof => cases h
    | main => cases h
  · rintro ⟨i, input, work, id, rfl, ⟨s, hi, ht⟩, hl⟩
    simp only [leavesEntry, hi, ht, hl, decide_true]

section Entries
variable {maxSlots : Nat} {w w' : Worker E} {l : Label E}

/-- The request a slot is about to give back is the only one it has. -/
theorem only_releasing (hw : Housed w) (ht : Tended w) {i : Nat} {work work' : Work}
    {id id' : String} (hr : w.ReleasingAt i work id) (hm : work' ∈ w.requests i)
    (hid : work'.item.valueStr "id" "" = .ok id') : id' = id := by
  obtain ⟨s, hi, hs⟩ := hr
  have hwork : s.thread.work? = some (work, id) := by rw [hs]; rfl
  have hname := (ht.fit hi).named hwork
  rw [hw.only (Worker.mem_requests hi hwork) hm] at hname
  exact Except.ok.inj (hid.symm.trans hname)

/-- A step that gives back no slot with an entry keeps the entries for live requests. -/
theorem EntriesLive.step (he : EntriesLive w) (hw : Housed w) (ht : Tended w)
    (h : (slotSystem E maxSlots).step w l = some w') (hl : leavesEntry w l = false) :
    EntriesLive w' := by
  intro id i hlook
  cases step_route h with
  | quiet table hr =>
      obtain ⟨hid, work, hm, hname⟩ := he (table ▸ hlook)
      exact ⟨hid, work, requests_kept (step_cases h) hr.mpr hm, hname⟩
  | @bind _ _ bound slot work hm table hr =>
      have hold (hlook : w.pool.idToSlot.lookup id = some i) :
          id ≠ "" ∧ ∃ work ∈ w'.requests i, work.item.valueStr "id" "" = .ok id := by
        obtain ⟨hid, work, hm, hname⟩ := he hlook
        exact ⟨hid, work, requests_kept (step_cases h) hr.mpr hm, hname⟩
      rw [table] at hlook
      split at hlook
      · exact hold hlook
      · rename_i hid
        rw [Table.lookup_insert_cases] at hlook
        split at hlook
        · rename_i heq
          cases hlook
          subst heq
          have hclaim : w.main.claim? = some (id, i, work) := by rw [hm]; rfl
          have hmem : work ∈ w.requests i := by
            rw [Worker.requests, List.mem_append]
            right
            simp [Main.claimOn, hclaim]
          exact ⟨hid, work, requests_kept (step_cases h) hr.mpr hmem, ht.claimed hclaim⟩
        · exact hold hlook
  | clean hi hs table hr =>
      have hlook' : w.pool.idToSlot.lookup id = some i := by
        rw [table] at hlook
        split at hlook
        · exact hlook
        · rw [Table.lookup_erase_cases] at hlook
          split at hlook
          · cases hlook
          · exact hlook
      obtain ⟨hid, work, hm, hname⟩ := he hlook'
      exact ⟨hid, work, requests_kept (step_cases h) (fun h => hr.mpr (.inr h)) hm, hname⟩
  | @release _ released work given input hrel table hr =>
      obtain ⟨hid, work', hm, hname⟩ := he (table ▸ hlook)
      have hne : i ≠ released := by
        rintro rfl
        obtain rfl := only_releasing hw ht hrel hm hname
        have hleaves := leavesEntry_iff.mpr ⟨i, input, work, id, rfl, hrel, table ▸ hlook⟩
        rw [hl] at hleaves
        cases hleaves
      exact ⟨hid, work', requests_kept (step_cases h) (fun h => hr.mpr ⟨hne, h⟩) hm, hname⟩

/-- The entry of a slot given back is for no request. -/
theorem not_entriesLive (hf : Flagged maxSlots w) (hw : Housed w)
    (h : (slotSystem E maxSlots).step w l = some w') (hl : leavesEntry w l = true) :
    ¬ EntriesLive w' := by
  obtain ⟨i, input, work, id, rfl, ⟨s, hi, hs⟩, hlook⟩ := leavesEntry_iff.mp hl
  have hwork : s.thread.work? = some (work, id) := by rw [hs]; rfl
  have hused := hf.claimed (List.ne_nil_of_mem (Worker.mem_requests hi hwork))
  have hw' := hw.step (step_cases h)
  simp only [slotSystem, hi, slotStep, hs, Option.some.injEq] at h
  subst h
  intro he
  obtain ⟨-, work', hm, -⟩ := he hlook
  rw [hw'.vacant (getElem?_set_same hused)] at hm
  cases hm

theorem EntriesLive.step_iff (he : EntriesLive w) (hf : Flagged maxSlots w) (hw : Housed w)
    (ht : Tended w) (h : (slotSystem E maxSlots).step w l = some w') :
    EntriesLive w' ↔ leavesEntry w l = false := by
  constructor
  · intro he'
    rw [← Bool.not_eq_true]
    exact fun hl => not_entriesLive hf hw h hl he'
  · exact he.step hw ht h

/-- A worker that unbinds has no entry left for a slot it is about to give back. -/
def Unbound (w : Worker E) : Prop :=
  ∀ {i work id}, w.ReleasingAt i work id → w.pool.idToSlot.lookup id ≠ some i

theorem Unbound.step (hc : E.channel = false) (hu : Unbound w) (he : EntriesLive w) (hw : Housed w)
    (h : (slotSystem E maxSlots).step w l = some w') : Unbound w' := by
  intro i work id hrel hlook
  cases step_route h with
  | quiet table hr => exact hu (hr.mp hrel) (table ▸ hlook)
  | @bind _ _ bound slot work' hm table hr =>
      have hold := hr.mp hrel
      rw [table] at hlook
      split at hlook
      · exact hu hold hlook
      · rw [Table.lookup_insert_cases] at hlook
        split at hlook
        · cases hlook
          -- the slot the main thread has claimed has no other request
          obtain ⟨s, hi, hs⟩ := hold
          have hnone := (hw.alone hi (by rw [hs]; rfl)).2
          simp [Main.claimOn, Main.claim?, hm] at hnone
        · exact hu hold hlook
  | clean hi hs table hr =>
      rw [table] at hlook
      simp only [hc, Bool.false_eq_true, false_or] at hlook
      cases hr.mp hrel with
      | inl heq =>
          obtain ⟨rfl, rfl, rfl⟩ := heq
          split at hlook
          · rename_i hid
            exact (he hlook).1 hid
          · rw [AList.lookup_erase] at hlook
            cases hlook
      | inr hold =>
          split at hlook
          · exact hu hold hlook
          · rw [Table.lookup_erase_cases] at hlook
            split at hlook
            · cases hlook
            · exact hu hold hlook
  | release hgiven table hr => exact hu (hr.mp hrel).2 (table ▸ hlook)

theorem Unbound.not_leaves (hu : Unbound w) : leavesEntry w l = false := by
  rw [← Bool.not_eq_true, leavesEntry_iff]
  rintro ⟨i, input, work, id, -, hrel, hlook⟩
  exact hu hrel hlook

end Entries

/-- The routing table matches the live requests. -/
structure RoutesLive (maxSlots : Nat) (w : Worker E) : Prop where
  entry : ∀ {id : String} {i : Nat}, w.pool.idToSlot.lookup id = some i →
    w.pool.inUse[i]? = some true ∧ ∃ work ∈ w.requests i, work.item.valueStr "id" "" = .ok id
  size : w.pool.idToSlot.size ≤ maxSlots
  idle : (∀ i : Nat, w.pool.inUse[i]? ≠ some true) → w.pool.idToSlot.size = 0

section Routes
variable {maxSlots : Nat} {w w' : Worker E} {l : Label E}

theorem mem_entries {w : Worker E} {e : Sigma fun _ : String => Nat}
    (h : e ∈ w.pool.idToSlot.entries) : w.pool.idToSlot.lookup e.1 = some e.2 :=
  AList.mem_lookup_iff.mpr h

/-- No two entries lead to one slot. -/
theorem EntriesLive.slots_nodup (he : EntriesLive w) (hw : Housed w) :
    (w.pool.idToSlot.entries.map (·.2)).Nodup := by
  apply List.Nodup.map_on _ w.pool.idToSlot.nodupKeys.nodup
  intro a ha b hb heq
  obtain ⟨-, work, hm, hname⟩ := he (mem_entries ha)
  obtain ⟨-, work', hm', hname'⟩ := he (mem_entries hb)
  have hslot : a.2 = b.2 := heq
  rw [hslot] at hm
  rw [hw.only hm hm', hname'] at hname
  exact Sigma.ext (Except.ok.inj hname).symm (heq_of_eq hslot)

theorem EntriesLive.routesLive (he : EntriesLive w) (hf : Flagged maxSlots w) (hw : Housed w) :
    RoutesLive maxSlots w := by
  have hentry : ∀ {id : String} {i : Nat}, w.pool.idToSlot.lookup id = some i →
      w.pool.inUse[i]? = some true := by
    intro id i hlook
    obtain ⟨-, work, hm, -⟩ := he hlook
    exact hf.claimed (List.ne_nil_of_mem hm)
  constructor
  · intro id i hlook
    obtain ⟨-, work, hm, hname⟩ := he hlook
    exact ⟨hentry hlook, work, hm, hname⟩
  · have hsub : w.pool.idToSlot.entries.map (·.2) ⊆ List.range maxSlots := by
      intro i hi
      obtain ⟨e, hmem, rfl⟩ := List.mem_map.mp hi
      rw [List.mem_range, ← hf.length]
      exact lt_of_getElem? (hentry (mem_entries hmem))
    calc
      w.pool.idToSlot.size = (w.pool.idToSlot.entries.map (·.2)).length := (List.length_map ..).symm
      _ ≤ (List.range maxSlots).length :=
        (List.subperm_of_subset (EntriesLive.slots_nodup he hw) hsub).length_le
      _ = maxSlots := List.length_range
  · intro hidle
    rw [Table.size, List.length_eq_zero_iff, List.eq_nil_iff_forall_not_mem]
    exact fun e hmem => hidle e.2 (hentry (mem_entries hmem))

theorem routesLive_iff (hf : Flagged maxSlots w) (hw : Housed w)
    (hid : ∀ {i}, w.pool.idToSlot.lookup "" ≠ some i) :
    RoutesLive maxSlots w ↔ EntriesLive w := by
  constructor
  · intro h id i hlook
    obtain ⟨-, work, hm, hname⟩ := h.entry hlook
    refine ⟨?_, work, hm, hname⟩
    rintro rfl
    exact hid hlook
  · exact fun he => EntriesLive.routesLive he hf hw

/-- No request is bound under the empty id. -/
theorem unnamed_unbound (h : (slotSystem E maxSlots).step w l = some w')
    (hid : ∀ {i}, w.pool.idToSlot.lookup "" ≠ some i) {i : Nat} :
    w'.pool.idToSlot.lookup "" ≠ some i := by
  intro hlook
  cases step_route h with
  | quiet table _ => exact hid (table ▸ hlook)
  | bind _ table _ =>
      rw [table] at hlook
      split at hlook
      · exact hid hlook
      · rename_i hne
        rw [AList.lookup_insert_ne (Ne.symm hne)] at hlook
        exact hid hlook
  | clean _ _ table _ =>
      rw [table] at hlook
      split at hlook
      · exact hid hlook
      · rw [Table.lookup_erase_cases] at hlook
        split at hlook
        · cases hlook
        · exact hid hlook
  | release _ table _ => exact hid (table ▸ hlook)

/-- What holds in every run beside the entries. -/
structure Grounded (maxSlots : Nat) (w : Worker E) : Prop where
  housed : Housed w
  flagged : Flagged maxSlots w
  tended : Tended w
  unnamed : ∀ {i}, w.pool.idToSlot.lookup "" ≠ some i

theorem grounded_invariant (E : Engine) (maxSlots : Nat) :
    (slotSystem E maxSlots).Invariant (Grounded maxSlots) where
  start := ⟨(flagged_invariant E maxSlots).start.1, (flagged_invariant E maxSlots).start.2,
    (tended_invariant E maxSlots).start, nofun⟩
  step hg h := ⟨hg.housed.step (step_cases h), hg.flagged.step hg.housed (step_cases h),
    hg.tended.step (step_cases h), unnamed_unbound h hg.unnamed⟩

/-- A worker that unbinds keeps its table in every run. -/
theorem routesLive_of_unbinding (hc : E.channel = false)
    (h : (slotSystem E maxSlots).Reachable w) : RoutesLive maxSlots w := by
  have inv : (slotSystem E maxSlots).Invariant fun w =>
      Grounded maxSlots w ∧ EntriesLive w ∧ Unbound w := by
    refine (grounded_invariant E maxSlots).relative ⟨nofun, fun _ => nofun⟩ ?_
    intro w l w' hg hw hs
    obtain ⟨he, hu⟩ := hw
    exact ⟨EntriesLive.step he hg.housed hg.tended hs (Unbound.not_leaves hu),
      Unbound.step hc hu he hg.housed hs⟩
  obtain ⟨hg, he, -⟩ := inv.of_reachable h
  exact EntriesLive.routesLive he hg.flagged hg.housed

/-- The runs in which no slot is given back with its request's entry in the table. -/
def unboundSystem (E : Engine) (maxSlots : Nat) : TransitionSystem (Worker E) (Label E) :=
  (slotSystem E maxSlots).guard fun w l => leavesEntry w l = false

theorem routesLive_step_iff (h : (unboundSystem E maxSlots).Reachable w) :
    RoutesLive maxSlots w ∧ ∀ l w', (slotSystem E maxSlots).step w l = some w' →
      (RoutesLive maxSlots w' ↔ leavesEntry w l = false) := by
  have inv : (unboundSystem E maxSlots).Invariant fun w => Grounded maxSlots w ∧ EntriesLive w := by
    refine ((grounded_invariant E maxSlots).guard).relative nofun ?_
    intro w l w' hg he hs
    obtain ⟨hl, hs⟩ := guard_step.mp hs
    exact EntriesLive.step he hg.housed hg.tended hs hl
  obtain ⟨hg, he⟩ := inv.of_reachable h
  refine ⟨EntriesLive.routesLive he hg.flagged hg.housed, fun l w' hs => ?_⟩
  have hg' := (grounded_invariant E maxSlots).step hg hs
  rw [routesLive_iff hg'.flagged hg'.housed hg'.unnamed]
  exact EntriesLive.step_iff he hg.flagged hg.housed hg.tended hs

end Routes

/-- The Qwen3-TTS worker's routing table matches the live requests in every run.
The Spark worker's matches them as long as no slot is given back while the table
has the entry of its request, and a slot given back so leaves a stale entry. -/
theorem routing_table_live_iff (v : Synthesizer) (maxSlots : Nat) :
    ((∃ c, v = .qwen3 c) → ∀ w : Worker v.engine,
      (slotSystem v.engine maxSlots).Reachable w → RoutesLive maxSlots w) ∧
    ∀ w : Worker v.engine, (unboundSystem v.engine maxSlots).Reachable w →
      RoutesLive maxSlots w ∧ ∀ l w', (slotSystem v.engine maxSlots).step w l = some w' →
        (RoutesLive maxSlots w' ↔ leavesEntry w l = false) := by
  constructor
  · rintro ⟨c, rfl⟩ w h
    exact routesLive_of_unbinding rfl h
  · exact fun w h => routesLive_step_iff h

section Runs

set_option maxRecDepth 2000 in
theorem routing_table_live_in_flight :
    (∃ w, (slotSystem (Qwen3.engine Qwen3.synchronous) 1).Reachable w ∧
      w.pool.inUse = [false] ∧ w.pool.idToSlot.size = 0) ∧
    (∃ w, (unboundSystem (Spark.engine ⟨16000⟩) 1).Reachable w ∧
      w.pool.idToSlot.lookup "a" = some 0 ∧ w.pool.inUse[0]? = some true) := by
  constructor
  · have hr := reachable_of_run (T := slotSystem (Qwen3.engine Qwen3.synchronous) 1)
      (accept (requestLine "a") ++ register 0 ++ qwen3Completion) rfl
    have hk := (routing_table_live_iff (.qwen3 Qwen3.synchronous) 1).1 ⟨_, rfl⟩ _ hr
    have hidle (i : Nat) : [false][i]? ≠ some true := by cases i <;> simp
    exact ⟨_, hr, rfl, hk.idle hidle⟩
  · have hr := reachable_of_run (T := unboundSystem (Spark.engine ⟨16000⟩) 1)
      (accept (requestLine "a") ++ register 0) rfl
    have hk := (routing_table_live_iff (.spark ⟨16000⟩) 1).2 _ hr
    exact ⟨_, hr, rfl, (@hk.1.entry "a" 0 rfl).1⟩

set_option maxRecDepth 2000 in
/-- A Spark request, with distinct ids, has ended and its slot is free; its entry
is still in the table. -/
theorem spark_entry_outlives_request :
    ∃ w, (uniqueSystem (Spark.engine ⟨16000⟩) 1).Reachable w ∧ w.main = .reading ∧
      w.pool.inUse = [false] ∧ w.requests 0 = [] ∧ w.pool.idToSlot.lookup "a" = some 0 ∧
      ¬ RoutesLive 1 w := by
  have hr := reachable_of_run (T := uniqueSystem (Spark.engine ⟨16000⟩) 1)
    (accept (requestLine "a") ++ register 0 ++ sparkCompletion) rfl
  refine ⟨_, hr, rfl, rfl, rfl, rfl, fun hlive => ?_⟩
  have hused := (@hlive.entry "a" 0 rfl).1
  cases hused

end Runs

end JetsonVoice.Tts
