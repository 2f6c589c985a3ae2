import JetsonVoice.Tts.UniqueIds

/-!
# When a cancel reaches its request

A slot's thread resets the flag and registers it after it has taken the request
off the queue. A cancel that is read before that finds no entry, or its effect
is reset. A cancel read while the request is registered under its entry is
recorded until the request's terminal event, which is then no `done`.
-/

namespace JetsonVoice.Tts

open Foundation Protocol TransitionSystem

variable {E : Engine}

/-- What the request code does with its flag. `mayDone` holds of the states from
which a `done` event is still written although the flag is set by now. -/
structure Engine.Heeds (E : Engine) (mayDone : E.State → Bool) : Prop where
  undecided : ∀ {state}, E.decided state = false → mayDone state = false
  kept : ∀ {item id input state next action},
    E.step item id true input state = some (next, action) → mayDone state = false →
      mayDone next = false ∧ ∀ {e}, action = .emit e → eventName e ≠ "done"
  closing : ∀ {item id cancelled input state next e},
    E.step item id cancelled input state = some (next, .emit e) → eventName e = "done" →
      E.finished next = true
  decided : ∀ {state}, E.finished state = true → E.decided state = true

/-- A request of a slot whose terminal event has not been decided. -/
def Slot.undecided (s : Slot E) (work : Work) : Prop :=
  work ∈ s.thread.unfinished ++ s.queue ∧
    ∀ {id state}, s.thread = .running work id state → E.decided state = false

/-- The request's synthesis has begun. -/
def Slot.begun (s : Slot E) (work : Work) : Prop :=
  ∃ id state, s.thread = .running work id state ∧ E.began state = true

/-- What a cancel line owes the request `work` of slot `i`: it is acknowledged as
found, it stays recorded until the terminal event, and a request that has not
begun gets no `done`. -/
structure CancelDelivered (T : TransitionSystem (Worker E) (Label E)) (w : Worker E) (i : Nat)
    (s : Slot E) (work : Work) (id : String) (line : Json) : Prop where
  acked : ∃ w', T.step w (.line (.ok line)) = some w' ∧ w'.main = .ack id true
  recorded : ∀ {w₁ w₂ : Worker E} {t : Slot E}, T.step w (.line (.ok line)) = some w₁ →
    T.Leads w₁ w₂ → w₂.slots[i]? = some t → work ∈ t.thread.unfinished ++ t.queue →
      t.flag = some true
  silent : ¬ s.begun work → ∀ {w₁ w₂ : Worker E}, T.step w (.line (.ok line)) = some w₁ →
    T.Leads w₁ w₂ → ∀ e ∈ eventsOf w₂.out work.token, eventName e ≠ "done"

/-- No `done` event before the request has finished. -/
theorem undone_law {mayDone : E.State → Bool} (law : E.Heeds mayDone) :
    LogLaw E fun _ state log => E.finished state = false → ∀ e ∈ log, eventName e ≠ "done" where
  start := fun _ e he => by cases he
  step {item id cancelled input state next action noted log} hf hs hlog hn e he := by
    cases action with
    | emit e' =>
        rcases List.mem_append.mp he with he | he
        · exact hlog hf e he
        · obtain rfl := List.mem_singleton.mp he
          intro hdone
          rw [law.closing hs hdone] at hn
          cases hn
    | _ => exact hlog hf e he

/-- A request whose cancel has been recorded. -/
structure Heeded (mayDone : E.State → Bool) (i : Nat) (work : Work) (w : Worker E) : Prop where
  issued : work.token < w.nextToken
  only : ∀ {j a}, a ∈ w.requests j → a.token = work.token → j = i ∧ a = work
  held : work ∈ w.flying i → ∃ s id state, w.slots[i]? = some s ∧
    s.thread = .running work id state ∧ s.flag = some true ∧ mayDone state = false
  silent : ∀ e ∈ eventsOf w.out work.token, eventName e ≠ "done"

section Heeded
variable {mayDone : E.State → Bool} {w w' : Worker E} {l : Label E} {i : Nat} {work : Work}

/-- The slot of a recorded cancel keeps the flag while its request runs. -/
theorem Heeded.step_held (law : E.Heeds mayDone) (hw' : Housed w')
    (hh : Heeded mayDone i work w) (h : Step w l w') (hm : work ∈ w'.flying i) :
    ∃ s id state, w'.slots[i]? = some s ∧ s.thread = .running work id state ∧
      s.flag = some true ∧ mayDone state = false := by
  have hold : work ∈ w.flying i := by
    rcases h.flying hm with hm | ⟨item, -, -, -, -, rfl⟩
    · exact hm
    · exact absurd hh.issued (Nat.lt_irrefl _)
  obtain ⟨s, id, state, hi, ht, hflag, hmay⟩ := hh.held hold
  obtain ⟨s', hi'⟩ : ∃ s', w'.slots[i]? = some s' :=
    ⟨_, List.getElem?_eq_getElem (h.slots_length ▸ lt_of_getElem? hi)⟩
  obtain ⟨s₀, hi₀, hmove⟩ := h.move hi'
  cases hi.symm.trans hi₀
  refine ⟨s', id, ?_⟩
  cases hmove with
  | stay => exact ⟨state, hi', ht, hflag, hmay⟩
  | trip => exact ⟨state, hi', ht, rfl, hmay⟩
  | enqueue => exact ⟨state, hi', ht, hflag, hmay⟩
  | shutdown => exact ⟨state, hi', ht, hflag, hmay⟩
  | @engine _ _ _ next _ _ flag ht₀ _ hs hflag' =>
      cases ht.symm.trans ht₀
      rw [hflag] at hs
      refine ⟨next, hi', rfl, ?_, (law.kept hs hmay).1⟩
      rcases hflag' with rfl | rfl <;> simp [hflag]
  | leave ht₀ _ =>
      -- The request has left the list, and its slot holds no other.
      obtain ⟨hq, hclaim⟩ := hw'.alone hi' rfl
      simp only [Worker.flying, hi', hclaim, Option.elim_some, List.append_nil] at hm
      have hq' : s.queue = [] := hq
      simp [SlotThread.unfinished, hq'] at hm
  | pickUp ht₀ => cases ht.symm.trans ht₀
  | exit ht₀ => cases ht.symm.trans ht₀
  | arm ht₀ => cases ht.symm.trans ht₀
  | register ht₀ => cases ht.symm.trans ht₀
  | unregister ht₀ => cases ht.symm.trans ht₀
  | clean ht₀ => cases ht.symm.trans ht₀
  | release ht₀ => cases ht.symm.trans ht₀

theorem Heeded.step (law : E.Heeds mayDone) (hw : Housed w) (hh : Heeded mayDone i work w)
    (h : Step w l w') : Heeded mayDone i work w' := by
  have hnext : w.nextToken ≤ w'.nextToken := by
    cases h.requests with
    | keep _ _ ht _ => exact ht.ge
    | claim _ _ _ _ _ _ ht _ => omega
    | release _ _ _ _ _ ht _ => exact ht.ge
  refine ⟨Nat.lt_of_lt_of_le hh.issued hnext, fun {j a} hm htok => ?_,
    hh.step_held law (hw.step h) h, ?_⟩
  · cases h.requests with
    | keep hr _ _ _ => exact hh.only (hr j ▸ hm) htok
    | claim _ _ _ _ hr _ _ _ =>
        rcases List.mem_append.mp (hr j ▸ hm) with hm | hm
        · exact hh.only hm htok
        · split at hm
          · obtain rfl := List.mem_singleton.mp hm
            exact absurd (htok ▸ hh.issued) (Nat.lt_irrefl _)
          · cases hm
    | @release i₀ _ _ _ hi hs hr hother _ _ _ =>
        by_cases hj : j = i₀
        · subst hj
          exact hh.only (hr ▸ List.mem_cons_of_mem _ hm) htok
        · exact hh.only (hother j hj ▸ hm) htok
  · rcases h.log with hlog | ⟨j, own, state, next, action, he⟩
    · rw [(hlog work.token).1]
      exact hh.silent
    · by_cases htok : work.token = own.token
      · obtain ⟨s, id, input, hj, ht, hf, hs, -⟩ := he.eq
        have hreq : own ∈ w.requests j := Worker.mem_requests hj (by rw [ht]; rfl)
        obtain ⟨rfl, rfl⟩ := hh.only hreq htok.symm
        obtain ⟨s', id', state', hj', ht', hflag, hmay⟩ :=
          hh.held (Worker.flying_of_slot hj (by rw [ht]; simp [SlotThread.unfinished, hf]))
        cases hj.symm.trans hj'
        cases ht.symm.trans ht'
        rw [hflag] at hs
        rw [he.events]
        intro e hmem
        cases action with
        | emit e' =>
            rcases List.mem_append.mp hmem with hmem | hmem
            · exact hh.silent e hmem
            · obtain rfl := List.mem_singleton.mp hmem
              exact (law.kept hs hmay).2 rfl
        | _ => exact hh.silent e hmem
      · rw [(he.other htok).1]
        exact hh.silent

end Heeded

section Delivery
variable {maxSlots : Nat} {w w' : Worker E} {i : Nat} {s : Slot E} {work : Work} {id : String}
  {line : Json}

/-- A cancel line changes nothing but the flag of the slot its entry leads to. -/
theorem cancel_line (hc : isCancelLine line = some true) (hv : line.valueStr "id" "" = .ok id)
    (hs : (slotSystem E maxSlots).step w (.line (.ok line)) = some w') :
    (w'.main = .ack id false ∧ w'.slots = w.slots) ∨
    (w'.main = .ack id true ∧ ∃ j t, w.cancelMap.lookup id = some j ∧ w.slots[j]? = some t ∧
      w'.slots = w.slots.set j { t with flag := some true }) := by
  cases step_cases hs with
  | miss _ _ hid _ =>
      cases hv.symm.trans hid
      exact .inl ⟨rfl, rfl⟩
  | trip _ _ hid hmap hj _ =>
      cases hv.symm.trans hid
      exact .inr ⟨rfl, _, _, hmap, hj, rfl⟩
  | saturated _ hc' _ _ => cases hc.symm.trans hc'
  | claim _ hc' _ _ => cases hc.symm.trans hc'

theorem cancel_line_slot (hc : isCancelLine line = some true)
    (hv : line.valueStr "id" "" = .ok id)
    (hs : (slotSystem E maxSlots).step w (.line (.ok line)) = some w')
    (hi : w.slots[i]? = some s) : ∃ flag, w'.slots[i]? = some { s with flag := flag } := by
  rcases cancel_line hc hv hs with ⟨-, hslots⟩ | ⟨-, j, t, -, hj, hslots⟩
  · exact ⟨s.flag, hslots ▸ hi⟩
  · by_cases hij : i = j
    · subst hij
      cases hi.symm.trans hj
      exact ⟨some true, hslots ▸ getElem?_set_same hi⟩
    · exact ⟨s.flag, hslots ▸ (getElem?_set_other hij).trans hi⟩

/-- A cancel read while its request runs, with its entry, is delivered. -/
theorem cancel_delivered {mayDone : E.State → Bool} (law : E.Heeds mayDone)
    (hr : (uniqueSystem E maxSlots).Reachable w) (hm : w.main = .reading)
    (hi : w.slots[i]? = some s) (hu : s.undecided work) {state : E.State}
    (ht : s.thread = .running work id state) (hmap : w.cancelMap.lookup id = some i)
    (hc : isCancelLine line = some true) (hv : line.valueStr "id" "" = .ok id) :
    CancelDelivered (uniqueSystem E maxSlots) w i s work id line := by
  have hw := (tended_invariant E maxSlots).of_reachable hr.of_guard
  obtain ⟨hh, hlog⟩ := (logged_invariant (undone_law law) maxSlots).of_reachable hr.of_guard
  have hstep : (slotSystem E maxSlots).step w (.line (.ok line)) =
      some { w.setSlot i { s with flag := some true } with main := .ack id true } :=
    cancel_trips hm hc hv hmap hi ((hw.fit hi).armed (ht ▸ rfl))
  have hok : duplicates w (.line (.ok line)) = false := by simp [duplicates, hc]
  have hguard : (uniqueSystem E maxSlots).step w (.line (.ok line)) =
      some { w.setSlot i { s with flag := some true } with main := .ack id true } :=
    guard_step.mpr ⟨hok, hstep⟩
  -- Right after the line the cancel is recorded, and every later step keeps it.
  have hnow : Heeded mayDone i work
      { w.setSlot i { s with flag := some true } with main := .ack id true } := by
    have hmem : work ∈ w.requests i := Worker.mem_requests hi (by rw [ht]; rfl)
    have hopen : E.finished state = false := by
      by_contra hf
      have := law.decided (by simpa using hf)
      rw [hu.2 ht] at this
      cases this
    refine ⟨hh.issued hmem, fun {j a} ha htok => ?_, fun _ => ?_, ?_⟩
    · have hkeep : ({ w.setSlot i { s with flag := some true } with main := .ack id true } :
          Worker E).requests j = w.requests j :=
        Worker.requests_setSlot hi rfl (by rw [hm]; rfl) rfl
      have ha' : a ∈ w.requests j := hkeep ▸ ha
      obtain rfl := hh.distinct ha' hmem htok
      exact ⟨rfl, hh.only ha' hmem⟩
    · exact ⟨_, id, state, getElem?_set_same hi, ht, rfl, law.undecided (hu.2 ht)⟩
    · have hat : AtStage w work.token s.thread.stage := .held hi (by rw [ht]; rfl) rfl
      rw [ht] at hat
      exact hlog hat hopen
  have hall {w₁ w₂ : Worker E} (h₁ : (uniqueSystem E maxSlots).step w (.line (.ok line)) = some w₁)
      (h₂ : (uniqueSystem E maxSlots).Leads w₁ w₂) : Heeded mayDone i work w₂ := by
    cases hguard.symm.trans h₁
    have hhoused := hh.step (step_cases hstep)
    refine (h₂.preserves (I := fun w => Housed w ∧ Heeded mayDone i work w) ⟨hhoused, hnow⟩ ?_).2
    intro w₁ l w₂ hk hs
    have hs' := step_cases (guard_step.mp hs).2
    exact ⟨hk.1.step hs', hk.2.step law hk.1 hs'⟩
  refine ⟨⟨_, hguard, rfl⟩, fun {w₁ w₂ t} h₁ h₂ hi₂ hm₂ => ?_, fun _ w₁ w₂ h₁ h₂ =>
    (hall h₁ h₂).silent⟩
  obtain ⟨t', -, -, hi', -, hflag, -⟩ := (hall h₁ h₂).held (Worker.flying_of_slot hi₂ hm₂)
  cases hi₂.symm.trans hi'
  exact hflag

/-- A delivered cancel was read while its request ran, with its entry. -/
theorem cancel_undelivered (hr : (uniqueSystem E maxSlots).Reachable w)
    (hi : w.slots[i]? = some s) (hu : s.undecided work)
    (hid : work.item.valueStr "id" "" = .ok id) (hdec : ∀ {state}, E.finished state = true →
      E.decided state = true)
    (hc : isCancelLine line = some true) (hv : line.valueStr "id" "" = .ok id)
    (hd : CancelDelivered (uniqueSystem E maxSlots) w i s work id line) :
    (∃ state, s.thread = .running work id state) ∧ w.cancelMap.lookup id = some i := by
  obtain ⟨w₁, hguard, hack⟩ := hd.acked
  obtain ⟨-, hstep⟩ := guard_step.mp hguard
  obtain ⟨hw, hdist⟩ := (distinct_invariant E maxSlots).of_reachable hr
  have hh := (housed_invariant E maxSlots).of_reachable hr.of_guard
  obtain ⟨flag, hi₁⟩ := cancel_line_slot hc hv hstep hi
  -- Resetting the flag while the request is in flight loses the cancel.
  have lost {w₂ : Worker E} {t : Slot E} (hl : (uniqueSystem E maxSlots).Leads w₁ w₂)
      (hi₂ : w₂.slots[i]? = some t) (ht : t.thread = .registering work id)
      (hflag : t.flag = some false) : False := by
    have hmem : work ∈ t.thread.unfinished ++ t.queue := by
      rw [ht]
      exact List.mem_cons_self
    have := hd.recorded hguard hl hi₂ hmem
    rw [hflag] at this
    cases this
  have slotStep {w₂ w₃ : Worker E} {t : Slot E} (hi₂ : w₂.slots[i]? = some t)
      (hs : Tts.slotStep w₂ i t none = some w₃) :
      (uniqueSystem E maxSlots).step w₂ (.slot i none) = some w₃ :=
    guard_step.mpr ⟨rfl, by simpa [slotSystem, hi₂] using hs⟩
  have arming {w₂ : Worker E} {t : Slot E} (hl : (uniqueSystem E maxSlots).Leads w₁ w₂)
      (hi₂ : w₂.slots[i]? = some t) (ht : t.thread = .arming work id) : False :=
    lost (hl.tail (slotStep hi₂ (by simp only [Tts.slotStep, ht]; rfl)))
      (getElem?_set_same hi₂) rfl rfl
  rcases List.mem_append.mp hu.1 with hmem | hmem
  · obtain ⟨id', hwork⟩ := SlotThread.mem_unfinished hmem
    cases ((hw.fit hi).named hwork).symm.trans hid
    cases ht : s.thread with
    | arming =>
        rw [ht] at hwork
        cases hwork
        exact (arming .refl hi₁ ht).elim
    | registering =>
        rw [ht] at hwork
        cases hwork
        have hw₁ := hw.step (step_cases hstep)
        exact (lost .refl hi₁ ht ((hw₁.fit hi₁).reset ht)).elim
    | running _ _ state =>
        rw [ht] at hwork
        cases hwork
        refine ⟨⟨state, rfl⟩, ?_⟩
        have hne : id ≠ "" := fun heq =>
          hdist.named (Worker.flying_of_slot hi hu.1) (heq ▸ hid)
        have hopen : E.finished state = false := by
          by_contra hf
          have := hdec (by simpa using hf)
          rw [hu.2 ht] at this
          cases this
        rcases cancel_line hc hv hstep with ⟨hno, -⟩ | ⟨-, j, t, hmap, -, -⟩
        · rw [hack] at hno
          cases hno
        · have hown := hdist.unshared ⟨s, work, id, state, hi, ht, hne, hopen⟩
            ((Worker.holds_eq hi).trans (ht ▸ key_running hne)) hmap
          exact hown ▸ hmap
    | _ =>
        rw [ht] at hmem
        cases hmem
  · have hfree : s.thread.work? = none := by
      by_contra hne
      obtain ⟨p, hp⟩ := Option.ne_none_iff_exists'.mp hne
      rw [(hh.alone hi hp).1] at hmem
      cases hmem
    have hwait : s.thread = .waiting := by
      have hex := ((attended_invariant E maxSlots).of_reachable hr.of_guard)
      cases ht : s.thread with
      | waiting => rfl
      | exited =>
          rw [(hex.exited hi ht).2] at hmem
          cases hmem
      | _ =>
          rw [ht] at hfree
          cases hfree
    have hq : s.queue = [work] := by
      have hlen := hh.single i
      rw [Worker.requests_eq hi] at hlen
      cases hqueue : s.queue with
      | nil => simp [hqueue] at hmem
      | cons first rest =>
          simp only [Slot.requests, hqueue, List.length_append, List.length_cons] at hlen
          obtain rfl : rest = [] := List.eq_nil_of_length_eq_zero (by omega)
          simpa [hqueue, eq_comm] using hmem
    have hpick : (uniqueSystem E maxSlots).step w₁ (.slot i none) =
        some (w₁.setSlot i { s with flag := flag, queue := [], thread := .arming work id }) :=
      slotStep hi₁ (by simp only [Tts.slotStep, hwait, hq, hid])
    exact (arming (.single hpick) (getElem?_set_same hi₁) rfl).elim

/-- A cancel for a request whose terminal event is undecided is delivered if and
only if the request is running and the entry of its id is its own. -/
theorem cancel_delivered_iff {mayDone : E.State → Bool} (law : E.Heeds mayDone)
    (hr : (uniqueSystem E maxSlots).Reachable w) (hm : w.main = .reading)
    (hi : w.slots[i]? = some s) (hu : s.undecided work)
    (hid : work.item.valueStr "id" "" = .ok id) (hc : isCancelLine line = some true)
    (hv : line.valueStr "id" "" = .ok id) :
    CancelDelivered (uniqueSystem E maxSlots) w i s work id line ↔
      (∃ state, s.thread = .running work id state) ∧ w.cancelMap.lookup id = some i :=
  ⟨cancel_undelivered hr hi hu hid law.decided hc hv,
    fun ⟨⟨_, ht⟩, hmap⟩ => cancel_delivered law hr hm hi hu ht hmap hc hv⟩

end Delivery

end JetsonVoice.Tts
