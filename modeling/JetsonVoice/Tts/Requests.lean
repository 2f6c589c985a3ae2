import JetsonVoice.Tts.CancelRegistry

/-!
# The requests on the slots

`requests i` lists what slot `i` has taken over, oldest first: the request of
its thread, its job queue, and the claim the main thread has yet to put there.
A request enters at the claim and leaves at the release; every step in between
moves it along this list. The claim flags keep the list at one request.
-/

namespace JetsonVoice.Tts

open Foundation Protocol TransitionSystem

variable {E : Engine}

/-- The requests a slot's thread and its queue hold. -/
def Slot.requests (s : Slot E) : List Work := (s.thread.work?.map Prod.fst).toList ++ s.queue

/-- The request the main thread has claimed slot `i` for. -/
def Main.claimOn (m : Main) (i : Nat) : List Work :=
  match m.claim? with
  | some (_, slotId, work) => if slotId = i then [work] else []
  | none => []

/-- The requests slot `i` has taken over. -/
def Worker.requests (w : Worker E) (i : Nat) : List Work :=
  (w.slots[i]?.elim [] Slot.requests) ++ w.main.claimOn i

namespace Worker
variable {w w' : Worker E} {i j : Nat} {s s' : Slot E}

theorem requests_eq (hi : w.slots[i]? = some s) :
    w.requests i = s.requests ++ w.main.claimOn i := by
  simp [requests, hi]

theorem requests_congr (hs : w'.slots = w.slots) (hm : w'.main.claim? = w.main.claim?) :
    w'.requests j = w.requests j := by
  simp [requests, Main.claimOn, hs, hm]

/-- Updating a slot without changing its requests changes no requests. -/
theorem requests_setSlot (hi : w.slots[i]? = some s) (hs : w'.slots = w.slots.set i s')
    (hm : w'.main.claim? = w.main.claim?) (hr : s'.requests = s.requests) :
    w'.requests j = w.requests j := by
  by_cases hj : j = i
  · subst hj
    simp [requests, Main.claimOn, hs, hm, getElem?_set_same hi, hi, hr]
  · simp [requests, Main.claimOn, hs, hm, getElem?_set_other hj]

theorem mem_requests (hi : w.slots[i]? = some s) {work : Work} {id : String}
    (ht : s.thread.work? = some (work, id)) : work ∈ w.requests i := by
  simp [requests_eq hi, Slot.requests, ht]

end Worker

/-- A step of the engine on slot `i`. -/
structure EngineStep (w w' : Worker E) (i : Nat) (work : Work) (state next : E.State)
    (action : Action) : Prop where
  eq : ∃ s id input, w.slots[i]? = some s ∧ s.thread = .running work id state ∧
    E.finished state = false ∧
    E.step work.item id (s.flag.getD false) input state = some (next, action) ∧
    w' = w.apply i { s with thread := .running work id next } work.token action

/-- What a step that releases no slot does to the thread of slot `i`. -/
inductive ThreadMove (w w' : Worker E) (i : Nat) : SlotThread E → SlotThread E → Prop
  | stay {t : SlotThread E} : ThreadMove w w' i t t
  | pickUp {work : Work} {id : String} : ThreadMove w w' i .waiting (.arming work id)
  | exit : ThreadMove w w' i .waiting .exited
  | arm {work : Work} {id : String} : ThreadMove w w' i (.arming work id) (.registering work id)
  | register {work : Work} {id : String} :
      ThreadMove w w' i (.registering work id) (.running work id E.start)
  | engine {work : Work} {id : String} {state next : E.State} {action : Action}
      (he : EngineStep w w' i work state next action) :
      ThreadMove w w' i (.running work id state) (.running work id next)
  | leave {work : Work} {id : String} {state : E.State} (hf : E.finished state = true) :
      ThreadMove w w' i (.running work id state) (.unregistering work id)
  | unregister {work : Work} {id : String} :
      ThreadMove w w' i (.unregistering work id) (.cleaning work id)
  | clean {work : Work} {id : String} :
      ThreadMove w w' i (.cleaning work id) (.releasing work id)

/-- What a step does to the requests: it claims a free slot for a new one,
releases the oldest one of a slot, or keeps them all. -/
inductive RequestsMove (w w' : Worker E) (l : Label E) : Prop
  | keep (hr : ∀ j, w'.requests j = w.requests j) (hp : w'.pool.inUse = w.pool.inUse)
      (ht : w'.nextToken = w.nextToken)
      (hm : ∀ {j : Nat} {s' : Slot E}, w'.slots[j]? = some s' →
        ∃ s, w.slots[j]? = some s ∧ ThreadMove w w' j s.thread s'.thread)
  | claim {item : Json} {id : String} {i : Nat} (hl : l = .line (.ok item))
      (hm : w.main = .reading) (hid : item.valueStr "id" "" = .ok id)
      (hfree : w.pool.inUse[i]? = some false)
      (hr : ∀ j, w'.requests j =
        w.requests j ++ if i = j then [⟨item, w.nextToken⟩] else [])
      (hp : w'.pool.inUse = w.pool.inUse.set i true) (ht : w'.nextToken = w.nextToken + 1)
      (hs : w'.slots = w.slots)
  | release {i : Nat} {s : Slot E} {work : Work} {id : String} (hi : w.slots[i]? = some s)
      (hs : s.thread = .releasing work id) (hr : w.requests i = work :: w'.requests i)
      (hother : ∀ j, j ≠ i → w'.requests j = w.requests j)
      (hp : w'.pool.inUse = w.pool.inUse.set i false) (ht : w'.nextToken = w.nextToken)
      (hset : w'.slots = w.slots.set i { s with thread := .waiting })

section Moves
variable {w w' : Worker E} {l : Label E}

theorem claimOn_none {m : Main} (h : m.claim? = none) (j : Nat) : m.claimOn j = [] := by
  simp [Main.claimOn, h]

/-- A step of the main thread that leaves the slots alone. -/
theorem RequestsMove.of_main (hs : w'.slots = w.slots) (hm : w'.main.claim? = w.main.claim?)
    (hp : w'.pool.inUse = w.pool.inUse) (ht : w'.nextToken = w.nextToken) :
    RequestsMove w w' l :=
  .keep (fun _ => Worker.requests_congr hs hm) hp ht fun hj => ⟨_, hs ▸ hj, .stay⟩

/-- A step that updates one slot and moves no request. -/
theorem RequestsMove.of_slot {i : Nat} {s s' : Slot E} (hi : w.slots[i]? = some s)
    (hs : w'.slots = w.slots.set i s') (hm : w'.main.claim? = w.main.claim?)
    (hr : s'.requests = s.requests) (hp : w'.pool.inUse = w.pool.inUse)
    (ht : w'.nextToken = w.nextToken) (hmove : ThreadMove w w' i s.thread s'.thread) :
    RequestsMove w w' l := by
  refine .keep (fun _ => Worker.requests_setSlot hi hs hm hr) hp ht fun hj => ?_
  rcases getElem?_set_cases (hs ▸ hj) with ⟨rfl, rfl, -⟩ | ⟨-, hj'⟩
  · exact ⟨s, hi, hmove⟩
  · exact ⟨_, hj', .stay⟩

theorem Slot.requests_congr {s s' : Slot E} (hq : s'.queue = s.queue)
    (ht : s'.thread.work? = s.thread.work?) : s'.requests = s.requests := by
  simp [Slot.requests, hq, ht]

theorem Step.requests (h : Step w l w') : RequestsMove w w' l := by
  cases h with
  | answer reading => exact .of_main rfl rfl rfl rfl
  | miss reading _ _ _ => exact .of_main rfl (by rw [reading]; rfl) rfl rfl
  | trip reading _ _ _ hi _ =>
      exact .of_slot hi rfl (by rw [reading]; rfl) rfl rfl rfl .stay
  | saturated reading _ _ _ => exact .of_main rfl (by rw [reading]; rfl) rfl rfl
  | @claim item id i pool reading _ hid free =>
      obtain ⟨hfree, rfl⟩ := SlotPool.acquireFree_some free
      refine .claim rfl reading hid hfree (fun j => ?_) rfl rfl rfl
      have hnone : w.main.claimOn j = [] := claimOn_none (by rw [reading]; rfl) j
      simp only [Worker.requests, hnone, List.append_nil]
      rfl
  | eof reading => exact .of_main rfl (by rw [reading]; rfl) rfl rfl
  | ack hm => exact .of_main rfl (by rw [hm]; rfl) rfl rfl
  | reject hm => exact .of_main rfl (by rw [hm]; rfl) rfl rfl
  | bind hm inUse => exact .of_main rfl (by rw [hm]; rfl) inUse rfl
  | @enqueue id i work s hm hi =>
      refine .keep (fun j => ?_) rfl rfl fun hj => ?_
      · by_cases hj : j = i
        · subst hj
          simp [Worker.requests, Worker.setSlot, Main.claimOn, Main.claim?, hm,
            getElem?_set_same hi, hi, Slot.requests]
        · simp [Worker.requests, Worker.setSlot, Main.claimOn, Main.claim?, hm,
            getElem?_set_other hj, Ne.symm hj]
      · rcases getElem?_set_cases hj with ⟨rfl, rfl, -⟩ | ⟨-, hj'⟩
        · exact ⟨s, hi, .stay⟩
        · exact ⟨_, hj', .stay⟩
  | shutdown hm hi => exact .of_slot hi rfl (by rw [hm]; rfl) rfl rfl rfl .stay
  | stopped hm _ => exact .of_main rfl (by rw [hm]; rfl) rfl rfl
  | join hm => exact .of_main rfl (by rw [hm]; rfl) rfl rfl
  | pickUp hi ht hq _ =>
      refine .of_slot hi rfl rfl ?_ rfl rfl (ht ▸ .pickUp)
      simp [Slot.requests, SlotThread.work?, ht, hq]
  | exit hi ht _ _ =>
      exact .of_slot hi rfl rfl (Slot.requests_congr rfl (ht ▸ rfl)) rfl rfl (ht ▸ .exit)
  | arm hi ht =>
      exact .of_slot hi rfl rfl (Slot.requests_congr rfl (ht ▸ rfl)) rfl rfl (ht ▸ .arm)
  | register hi ht =>
      exact .of_slot hi rfl rfl (Slot.requests_congr rfl (ht ▸ rfl)) rfl rfl (ht ▸ .register)
  | leave hi ht hf =>
      exact .of_slot hi rfl rfl (Slot.requests_congr rfl (ht ▸ rfl)) rfl rfl (ht ▸ .leave hf)
  | @engine i _ s work id state next action hi ht hf hs =>
      have he : EngineStep w (w.apply i { s with thread := .running work id next } work.token
          action) i work state next action := ⟨s, id, _, hi, ht, hf, hs, rfl⟩
      cases action <;>
        exact .of_slot hi rfl rfl (Slot.requests_congr rfl (ht ▸ rfl)) rfl rfl (ht ▸ .engine he)
  | unregister hi ht =>
      exact .of_slot hi rfl rfl (Slot.requests_congr rfl (ht ▸ rfl)) rfl rfl (ht ▸ .unregister)
  | clean hi ht _ inUse =>
      exact .of_slot hi rfl rfl (Slot.requests_congr rfl (ht ▸ rfl)) inUse rfl (ht ▸ .clean)
  | @release i _ s work id hi ht =>
      refine .release hi ht ?_ (fun j hj => ?_) rfl rfl rfl
      · simp [Worker.requests, Worker.setSlot, Slot.requests, SlotThread.work?, ht, hi,
          getElem?_set_same hi]
      · simp [Worker.requests, Worker.setSlot, getElem?_set_other hj]

end Moves

/-- A claimed slot has one request and a free slot none; no two requests share a token. -/
structure Housed (w : Worker E) : Prop where
  vacant : ∀ {i}, w.pool.inUse[i]? = some false → w.requests i = []
  taken : ∀ {i}, w.pool.inUse[i]? = some true → w.requests i ≠ []
  single : ∀ i, (w.requests i).length ≤ 1
  issued : ∀ {i work}, work ∈ w.requests i → work.token < w.nextToken
  distinct : ∀ {i j a b}, a ∈ w.requests i → b ∈ w.requests j → a.token = b.token → i = j

namespace Housed
variable {w w' : Worker E} {l : Label E}

/-- The request of a slot is the only one it has. -/
theorem only (hw : Housed w) {i : Nat} {a b : Work} (ha : a ∈ w.requests i)
    (hb : b ∈ w.requests i) : a = b := by
  have hlen := hw.single i
  match hr : w.requests i with
  | [] => simp [hr] at ha
  | [c] =>
      rw [hr, List.mem_singleton] at ha hb
      exact ha.trans hb.symm
  | _ :: _ :: _ => simp [hr] at hlen

theorem claim (hw : Housed w) {item : Json} {i : Nat} (hfree : w.pool.inUse[i]? = some false)
    (hr : ∀ j, w'.requests j = w.requests j ++ if i = j then [⟨item, w.nextToken⟩] else [])
    (hp : w'.pool.inUse = w.pool.inUse.set i true) (ht : w'.nextToken = w.nextToken + 1) :
    Housed w' := by
  have hi : w'.requests i = [⟨item, w.nextToken⟩] := by simp [hr, hw.vacant hfree]
  have hother {j} (hj : j ≠ i) : w'.requests j = w.requests j := by simp [hr, hj.symm]
  have hnew {j work} (hm : work ∈ w'.requests j) :
      (j = i ∧ work = ⟨item, w.nextToken⟩) ∨ (j ≠ i ∧ work ∈ w.requests j) := by
    by_cases hj : j = i
    · subst hj
      exact .inl ⟨rfl, by simpa [hi] using hm⟩
    · exact .inr ⟨hj, hother hj ▸ hm⟩
  refine ⟨fun {j} hj => ?_, fun {j} hj => ?_, fun j => ?_, fun hm => ?_, fun ha hb heq => ?_⟩
  · rcases getElem?_set_cases (hp ▸ hj) with ⟨-, hb, -⟩ | ⟨hne, hj'⟩
    · cases hb
    · exact (hother hne).trans (hw.vacant hj')
  · rcases getElem?_set_cases (hp ▸ hj) with ⟨rfl, -, -⟩ | ⟨hne, hj'⟩
    · simp [hi]
    · exact hother hne ▸ hw.taken hj'
  · by_cases hj : j = i
    · simp [hj, hi]
    · exact hother hj ▸ hw.single j
  · rcases hnew hm with ⟨-, rfl⟩ | ⟨-, hm'⟩
    · simp [ht]
    · exact ht ▸ Nat.lt_succ_of_lt (hw.issued hm')
  · rcases hnew ha with ⟨rfl, rfl⟩ | ⟨-, ha'⟩ <;> rcases hnew hb with ⟨rfl, rfl⟩ | ⟨-, hb'⟩
    · rfl
    · exact absurd (heq ▸ hw.issued hb') (Nat.lt_irrefl _)
    · exact absurd (heq ▸ hw.issued ha') (Nat.lt_irrefl _)
    · exact hw.distinct ha' hb' heq

theorem step (hw : Housed w) (h : Step w l w') : Housed w' := by
  cases h.requests with
  | keep hr hp ht _ =>
      refine ⟨fun hi => ?_, fun hi => ?_, fun i => ?_, fun hm => ?_, fun ha hb heq => ?_⟩
      · exact hr _ ▸ hw.vacant (hp ▸ hi)
      · exact hr _ ▸ hw.taken (hp ▸ hi)
      · exact hr i ▸ hw.single i
      · exact ht ▸ hw.issued (hr _ ▸ hm)
      · exact hw.distinct (hr _ ▸ ha) (hr _ ▸ hb) heq
  | claim _ _ _ hfree hr hp ht _ => exact hw.claim hfree hr hp ht
  | @release i s work id hi hs hr hother hp ht _ =>
      have hempty : w'.requests i = [] := by
        have hlen := hw.single i
        simp only [hr, List.length_cons] at hlen
        exact List.eq_nil_of_length_eq_zero (by omega)
      have hsub {j a} (hm : a ∈ w'.requests j) : a ∈ w.requests j := by
        by_cases hj : j = i
        · subst hj
          simp [hempty] at hm
        · exact hother j hj ▸ hm
      refine ⟨fun {j} hj => ?_, fun {j} hj => ?_, fun j => ?_, fun hm => ?_, fun ha hb heq => ?_⟩
      · rcases getElem?_set_cases (hp ▸ hj) with ⟨rfl, -, -⟩ | ⟨hne, hj'⟩
        · exact hempty
        · exact (hother j hne).trans (hw.vacant hj')
      · rcases getElem?_set_cases (hp ▸ hj) with ⟨-, hb, -⟩ | ⟨hne, hj'⟩
        · cases hb
        · exact hother j hne ▸ hw.taken hj'
      · by_cases hj : j = i
        · simp [hj, hempty]
        · exact hother j hj ▸ hw.single j
      · exact ht ▸ hw.issued (hsub hm)
      · exact hw.distinct (hsub ha) (hsub hb) heq

theorem requests_init (E : Engine) (maxSlots i : Nat) :
    (Worker.init E maxSlots).requests i = [] := by
  have hclaim : (Worker.init E maxSlots).main.claimOn i = [] := rfl
  cases hi : (Worker.init E maxSlots).slots[i]? with
  | none => simp [Worker.requests, hi, hclaim]
  | some s =>
      obtain ⟨ht, hq⟩ := Tended.slot_of_init hi
      simp [Worker.requests_eq hi, hclaim, Slot.requests, ht, hq, SlotThread.work?]

theorem init (E : Engine) (maxSlots : Nat) : Housed (.init E maxSlots) := by
  have hnone := requests_init E maxSlots
  refine ⟨fun _ => hnone _, fun hi => ?_, fun i => by simp [hnone], fun hm => ?_, fun ha => ?_⟩
  · have := List.eq_of_mem_replicate (List.mem_of_getElem? hi)
    cases this
  · simp [hnone] at hm
  · simp [hnone] at ha

end Housed

theorem housed_invariant (E : Engine) (maxSlots : Nat) : (slotSystem E maxSlots).Invariant Housed :=
  ⟨.init E maxSlots, fun hw hs => hw.step (step_cases hs)⟩

/-- The request of a thread until its terminal event is out. -/
def SlotThread.unfinished : SlotThread E → List Work
  | .arming work _ | .registering work _ => [work]
  | .running work _ state => if E.finished state then [] else [work]
  | _ => []

/-- The accepted requests whose terminal event is not out yet. -/
def Worker.inFlight (w : Worker E) : List Work :=
  w.slots.flatMap fun s => s.thread.unfinished ++ s.queue

theorem SlotThread.mem_unfinished {t : SlotThread E} {work : Work} (h : work ∈ t.unfinished) :
    ∃ id, t.work? = some (work, id) := by
  cases t with
  | arming | registering => exact ⟨_, by rw [List.mem_singleton.mp h]; rfl⟩
  | running =>
      simp only [SlotThread.unfinished] at h
      split at h
      · cases h
      · exact ⟨_, by rw [List.mem_singleton.mp h]; rfl⟩
  | _ => cases h

/-- A request in flight is a request of its slot. -/
theorem Worker.slot_of_inFlight {w : Worker E} {work : Work} (h : work ∈ w.inFlight) :
    ∃ i s, w.slots[i]? = some s ∧ work ∈ s.thread.unfinished ++ s.queue ∧
      work ∈ w.requests i := by
  obtain ⟨s, hs, hm⟩ := List.mem_flatMap.mp h
  obtain ⟨i, hi⟩ := List.mem_iff_getElem?.mp hs
  refine ⟨i, s, hi, hm, ?_⟩
  rw [Worker.requests_eq hi]
  refine List.mem_append_left _ ?_
  rcases List.mem_append.mp hm with hm | hm
  · obtain ⟨id, hwork⟩ := SlotThread.mem_unfinished hm
    exact List.mem_append_left _ (by simp [hwork])
  · exact List.mem_append_right _ hm

/-- Every accepted request has been claimed before, and a claim is not yet accepted. -/
structure Admitted (w : Worker E) : Prop where
  issued : ∀ {t}, t ∈ w.accepted → t < w.nextToken
  pending : ∀ {id i work}, w.main.claim? = some (id, i, work) →
    work.token < w.nextToken ∧ work.token ∉ w.accepted

theorem Admitted.step {w w' : Worker E} {l : Label E} (ha : Admitted w) (h : Step w l w') :
    Admitted w' := by
  have hnext : w.nextToken ≤ w'.nextToken := by
    cases h.requests with
    | keep _ _ ht _ => exact ht.ge
    | claim _ _ _ _ _ _ ht _ => omega
    | release _ _ _ _ _ ht _ => exact ht.ge
  constructor
  · intro t ht
    cases h with
    | enqueue hm _ =>
        rcases List.mem_append.mp ht with ht | ht
        · exact ha.issued ht
        · obtain rfl := List.mem_singleton.mp ht
          exact (ha.pending (by rw [hm]; rfl)).1
    | @engine i _ s _ _ _ _ action _ _ _ _ =>
        cases action <;> exact ha.issued ht
    | _ => exact Nat.lt_of_lt_of_le (ha.issued ht) hnext
  · intro id i work hc
    have hacc : w'.accepted = w.accepted := by
      cases h with
      | enqueue => cases hc
      | @engine i _ s _ _ _ _ action _ _ _ _ => cases action <;> rfl
      | _ => rfl
    rw [hacc]
    rcases h.claim_cases hc with hc' | ⟨item, pool, rfl, hm, -, -, -, rfl⟩
    · exact ⟨Nat.lt_of_lt_of_le (ha.pending hc').1 hnext, (ha.pending hc').2⟩
    · refine ⟨?_, fun hmem => absurd (ha.issued hmem) (Nat.lt_irrefl _)⟩
      cases h with
      | claim => exact Nat.lt_succ_self _
      | miss => cases hc
      | trip => cases hc
      | saturated => cases hc

theorem admitted_invariant (E : Engine) (maxSlots : Nat) :
    (slotSystem E maxSlots).Invariant Admitted :=
  ⟨{ issued := nofun, pending := nofun }, fun ha hs => ha.step (step_cases hs)⟩

/-- Stdin has not ended. -/
def Main.accepting : Main → Bool
  | .stopping _ | .joining | .joined => false
  | _ => true

/-- No thread is told to stop while requests come in, and none leaves a request behind. -/
structure Attended (w : Worker E) : Prop where
  accepting : w.main.accepting = true →
    ∀ {i : Nat} {s : Slot E}, w.slots[i]? = some s → s.shutdown = false
  exited : ∀ {i : Nat} {s : Slot E}, w.slots[i]? = some s → s.thread = .exited →
    s.shutdown = true ∧ s.queue = []

section Attended
variable {maxSlots : Nat} {w w' : Worker E} {l : Label E}

theorem Step.accepting (h : Step w l w') (hm : w'.main.accepting = true) :
    w.main.accepting = true := by
  cases h with
  | answer reading => rw [reading]; rfl
  | miss reading => rw [reading]; rfl
  | trip reading => rw [reading]; rfl
  | saturated reading => rw [reading]; rfl
  | claim reading => rw [reading]; rfl
  | ack hm' => rw [hm']; rfl
  | reject hm' => rw [hm']; rfl
  | bind hm' => rw [hm']; rfl
  | enqueue hm' => rw [hm']; rfl
  | eof => cases hm
  | shutdown => cases hm
  | stopped => cases hm
  | join => cases hm
  | engine => simpa using hm
  | _ => exact hm

theorem Attended.step (ha : Attended w) (h : Step w l w') : Attended w' := by
  constructor
  · intro hm i s' hi'
    obtain ⟨s, hi, hmove⟩ := h.move hi'
    have hs := ha.accepting (h.accepting hm) hi
    cases hmove with
    | shutdown hstop =>
        have := h.accepting hm
        rw [hstop] at this
        cases this
    | _ => exact hs
  · intro i s' hi' ht
    obtain ⟨s, hi, hmove⟩ := h.move hi'
    cases hmove with
    | stay => exact ha.exited hi ht
    | trip =>
        have hs := ha.exited hi ht
        exact hs
    | enqueue hm =>
        have hno := ha.accepting (by rw [hm]; rfl) hi
        have hyes := (ha.exited hi ht).1
        rw [hno] at hyes
        cases hyes
    | shutdown => exact ⟨rfl, (ha.exited hi ht).2⟩
    | exit _ hq hs => exact ⟨hs, hq⟩
    | _ => cases ht

theorem attended_invariant (E : Engine) (maxSlots : Nat) :
    (slotSystem E maxSlots).Invariant Attended where
  start := by
    refine ⟨fun _ i s hi => ?_, fun {i s} hi ht => ?_⟩
    · obtain rfl := List.eq_of_mem_replicate (List.mem_of_getElem? hi)
      rfl
    · rw [(Tended.slot_of_init hi).1] at ht
      cases ht
  step ha hs := ha.step (step_cases hs)

/-- A slot's thread that is not in its wait can take a step, if the engine can. -/
theorem thread_enabled {i : Nat} {s : Slot E} (hi : w.slots[i]? = some s)
    (hwait : s.thread ≠ .waiting) (hexit : s.thread ≠ .exited)
    (hE : ∀ {work id state}, s.thread = .running work id state → E.finished state = false →
      ∃ input next action,
        E.step work.item id (s.flag.getD false) input state = some (next, action)) :
    ∃ input w', (slotSystem E maxSlots).step w (.slot i input) = some w' := by
  have step (h : (slotStep w i s none).isSome = true) :
      ∃ input w', (slotSystem E maxSlots).step w (.slot i input) = some w' := by
    obtain ⟨w', hs⟩ := Option.isSome_iff_exists.mp h
    exact ⟨none, w', by simpa [slotSystem, hi] using hs⟩
  cases ht : s.thread with
  | waiting => exact absurd ht hwait
  | exited => exact absurd ht hexit
  | arming => exact step (by simp [slotStep, ht])
  | registering => exact step (by simp [slotStep, ht])
  | running work id state =>
      cases hf : E.finished state with
      | true => exact step (by simp [slotStep, ht, hf])
      | false =>
          obtain ⟨input, next, action, hs⟩ := hE ht hf
          exact ⟨some input, _, step_engine hi ht hf hs⟩
  | unregistering => exact step (by simp [slotStep, ht])
  | cleaning =>
      refine step ?_
      simp only [slotStep, ht]
      split <;> rfl
  | releasing => exact step (by simp [slotStep, ht])

/-- A slot's thread in its wait can take the next request off its queue. -/
theorem pickUp_enabled (hw : Tended w) {i : Nat} {s : Slot E} (hi : w.slots[i]? = some s)
    (hwait : s.thread = .waiting) (hq : s.queue ≠ []) (input : Option E.Input) :
    ∃ w', (slotSystem E maxSlots).step w (.slot i input) = some w' := by
  obtain ⟨first, rest, hqueue⟩ := List.exists_cons_of_ne_nil hq
  obtain ⟨id, hid⟩ := (hw.fit hi).queued (hqueue ▸ List.mem_cons_self)
  simp [slotSystem, hi, slotStep, hwait, hqueue, hid]

/-- The thread of a slot that holds a request can take a step, if the engine can. -/
theorem slot_enabled (hw : Tended w) (ha : Attended w) {i : Nat} {s : Slot E} {work : Work}
    (hi : w.slots[i]? = some s) (hm : work ∈ s.thread.unfinished ++ s.queue)
    (hE : ∀ {work id state}, s.thread = .running work id state → E.finished state = false →
      ∃ input next action,
        E.step work.item id (s.flag.getD false) input state = some (next, action)) :
    ∃ input w', (slotSystem E maxSlots).step w (.slot i input) = some w' := by
  by_cases hwait : s.thread = .waiting
  · have hq : work ∈ s.queue := by simpa [hwait, SlotThread.unfinished] using hm
    exact ⟨none, pickUp_enabled hw hi hwait (List.ne_nil_of_mem hq) none⟩
  · refine thread_enabled hi hwait (fun ht => ?_) hE
    rw [ht] at hm
    simp [SlotThread.unfinished, (ha.exited hi ht).2] at hm

end Attended

end JetsonVoice.Tts
