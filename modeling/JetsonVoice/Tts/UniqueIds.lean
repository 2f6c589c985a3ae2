import JetsonVoice.Tts.RequestLog

/-!
# Runs whose requests in flight have distinct ids

A request is in flight from its claim until its terminal event is out. While no
line brings the id of a request in flight, no two requests in flight share an
id, and the entry for the id of a running request is its own or has been erased
by an earlier request of that id which was still cleaning up.
-/

namespace JetsonVoice.Tts

open Foundation Protocol TransitionSystem

variable {E : Engine}

/-- The requests in flight on slot `i`, with the one claimed for it. -/
def Worker.flying (w : Worker E) (i : Nat) : List Work :=
  (w.slots[i]?.elim [] fun s => s.thread.unfinished ++ s.queue) ++ w.main.claimOn i

/-- A request line is about to be accepted without an id, or with that of a
request in flight. -/
def duplicates (w : Worker E) : Label E → Bool
  | .line (.ok item) =>
      isCancelLine item = some false && w.pool.acquireFree.isSome &&
        (item.valueStr "id" "" = .ok "" ||
          w.inFlight.any fun work => work.item.valueStr "id" "" = item.valueStr "id" "")
  | _ => false

/-- The runs in which the requests in flight have distinct non-empty ids. -/
def uniqueSystem (E : Engine) (maxSlots : Nat) : TransitionSystem (Worker E) (Label E) :=
  (slotSystem E maxSlots).guard fun w l => duplicates w l = false

/-- A request of a slot in flight with its terminal event still to come is one
of the slot's requests. -/
theorem Worker.mem_requests_of_flying {w : Worker E} {i : Nat} {work : Work}
    (h : work ∈ w.flying i) : work ∈ w.requests i := by
  rw [Worker.flying, List.mem_append] at h
  rw [Worker.requests, List.mem_append]
  refine h.imp_left fun h => ?_
  cases hi : w.slots[i]? with
  | none => simp [hi] at h
  | some s =>
      simp only [hi, Option.elim_some] at h ⊢
      rcases List.mem_append.mp h with h | h
      · obtain ⟨id, hwork⟩ := SlotThread.mem_unfinished h
        exact List.mem_append_left _ (by simp [hwork])
      · exact List.mem_append_right _ h

theorem Worker.flying_of_slot {w : Worker E} {i : Nat} {s : Slot E} {work : Work}
    (hi : w.slots[i]? = some s) (h : work ∈ s.thread.unfinished ++ s.queue) :
    work ∈ w.flying i := by
  simp only [Worker.flying, hi, Option.elim_some]
  exact List.mem_append_left _ h

/-- A slot whose thread has a request has no other. -/
theorem Housed.alone {w : Worker E} (hw : Housed w) {i : Nat} {s : Slot E} {p : Work × String}
    (hi : w.slots[i]? = some s) (hp : s.thread.work? = some p) :
    s.queue = [] ∧ w.main.claimOn i = [] := by
  have hlen := hw.single i
  simp only [Worker.requests_eq hi, Slot.requests, hp, Option.map_some, Option.toList_some,
    List.length_append, List.length_cons, List.length_nil] at hlen
  exact ⟨List.eq_nil_of_length_eq_zero (by omega), List.eq_nil_of_length_eq_zero (by omega)⟩

section Flying
variable {w w' : Worker E} {l : Label E} {i : Nat}

/-- What a slot has in flight was in flight on it before. -/
theorem SlotMove.flying {s s' : Slot E} {work : Work} (hi : w.slots[i]? = some s)
    (h : SlotMove w i s s') (hm : work ∈ s'.thread.unfinished ++ s'.queue) :
    work ∈ w.flying i := by
  have stay (h : work ∈ s.thread.unfinished ++ s.queue) := Worker.flying_of_slot hi h
  cases h with
  | enqueue hmain =>
      rw [← List.append_assoc, List.mem_append] at hm
      rcases hm with hm | hm
      · exact stay hm
      · refine List.mem_append_right _ ?_
        simpa [Main.claimOn, Main.claim?, hmain] using hm
  | pickUp ht hq _ =>
      refine stay ?_
      rw [ht, hq]
      simpa [SlotThread.unfinished] using hm
  | exit ht hq _ =>
      rw [hq] at hm
      cases hm
  | arm ht => exact stay (ht ▸ hm)
  | register ht =>
      refine stay ?_
      rw [ht]
      rcases List.mem_append.mp hm with hm | hm
      · obtain ⟨id, hwork⟩ := SlotThread.mem_unfinished hm
        cases hwork
        exact List.mem_cons_self
      · exact List.mem_append_right _ hm
  | leave ht _ => exact stay (List.mem_append_right _ hm)
  | engine ht hf _ _ =>
      refine stay ?_
      rcases List.mem_append.mp hm with hm | hm
      · obtain ⟨id, hwork⟩ := SlotThread.mem_unfinished hm
        cases hwork
        rw [ht]
        simp [SlotThread.unfinished, hf]
      · exact List.mem_append_right _ hm
  | unregister => exact stay (List.mem_append_right _ hm)
  | clean => exact stay (List.mem_append_right _ hm)
  | release => exact stay (List.mem_append_right _ hm)
  | _ => exact stay hm

/-- A request in flight was in flight before, or a line has just brought it. -/
theorem Step.flying (h : Step w l w') {work : Work} (hm : work ∈ w'.flying i) :
    work ∈ w.flying i ∨ ∃ item, l = .line (.ok item) ∧ w.main = .reading ∧
      isCancelLine item = some false ∧ (∃ pool, w.pool.acquireFree = some (i, pool)) ∧
      work = ⟨item, w.nextToken⟩ := by
  rw [Worker.flying, List.mem_append] at hm
  rcases hm with hm | hm
  · cases hi : w'.slots[i]? with
    | none => simp [hi] at hm
    | some s' =>
        simp only [hi, Option.elim_some] at hm
        obtain ⟨s, hi₀, hmove⟩ := h.move hi
        exact .inl (hmove.flying hi₀ hm)
  · rw [Main.claimOn] at hm
    split at hm
    · rename_i id slotId work' hc
      split at hm
      · rename_i heq
        obtain rfl := List.mem_singleton.mp hm
        rcases h.claim_cases hc with hc' | ⟨item, pool, hl, hread, hcl, -, hfree, rfl⟩
        · refine .inl (List.mem_append_right _ ?_)
          simp [Main.claimOn, hc', heq]
        · exact .inr ⟨item, hl, hread, hcl, ⟨pool, heq ▸ hfree⟩, rfl⟩
      · cases hm
    · cases hm

end Flying

/-- The requests in flight have distinct non-empty ids, and no entry for the id
of a running one leads to another slot. -/
structure Distinct (w : Worker E) : Prop where
  named : ∀ {i work}, work ∈ w.flying i → work.item.valueStr "id" "" ≠ .ok ""
  apart : ∀ {i j a b}, a ∈ w.flying i → b ∈ w.flying j →
    a.item.valueStr "id" "" = b.item.valueStr "id" "" → i = j
  unshared : w.registry.Unshared fun i => ∃ s work id state, w.slots[i]? = some s ∧
    s.thread = .running work id state ∧ id ≠ "" ∧ E.finished state = false

section Distinct
variable {w w' : Worker E} {l : Label E}

theorem not_duplicates {item : Json} (hok : duplicates w (.line (.ok item)) = false)
    (hc : isCancelLine item = some false) (hfree : w.pool.acquireFree.isSome = true)
    (hread : w.main = .reading) :
    item.valueStr "id" "" ≠ .ok "" ∧ ∀ {i work}, work ∈ w.flying i →
      work.item.valueStr "id" "" ≠ item.valueStr "id" "" := by
  simp only [duplicates, hc, hfree, decide_true, Bool.true_and, Bool.or_eq_false_iff,
    decide_eq_false_iff_not, List.any_eq_false, decide_eq_true_eq] at hok
  refine ⟨hok.1, fun {i work} hm => hok.2 work ?_⟩
  have hnone : w.main.claimOn i = [] := claimOn_none (by rw [hread]; rfl) i
  rw [Worker.flying, hnone, List.append_nil] at hm
  cases hi : w.slots[i]? with
  | none => simp [hi] at hm
  | some s =>
      simp only [hi, Option.elim_some] at hm
      exact List.mem_flatMap.mpr ⟨s, List.mem_of_getElem? hi, hm⟩

/-- A running request was running before the step, or its slot has just registered. -/
theorem live_cases (h : Step w l w') {i : Nat} {s : Slot E} {work : Work} {id : String}
    {state : E.State} (hi : w'.slots[i]? = some s) (ht : s.thread = .running work id state)
    (hf : E.finished state = false) :
    (∃ s work state, w.slots[i]? = some s ∧ s.thread = .running work id state ∧
      E.finished state = false) ∨
    (∃ s work, w.slots[i]? = some s ∧ s.thread = .registering work id) := by
  obtain ⟨s₀, hi₀, hm⟩ := h.move hi
  cases hm with
  | register ht₀ =>
      cases ht
      exact .inr ⟨s₀, _, hi₀, ht₀⟩
  | engine ht₀ hf₀ =>
      cases ht
      exact .inl ⟨s₀, _, _, hi₀, ht₀, hf₀⟩
  | stay => exact .inl ⟨_, _, _, hi₀, ht, hf⟩
  | trip => exact .inl ⟨_, _, _, hi₀, ht, hf⟩
  | enqueue => exact .inl ⟨_, _, _, hi₀, ht, hf⟩
  | shutdown => exact .inl ⟨_, _, _, hi₀, ht, hf⟩
  | _ => cases ht

theorem Distinct.step_unshared (hw : Tended w) (hd : Distinct w) (h : Step w l w') :
    w'.registry.Unshared fun i => ∃ s work id state, w'.slots[i]? = some s ∧
      s.thread = .running work id state ∧ id ≠ "" ∧ E.finished state = false := by
  rcases h.registry with heq | ⟨i, s, work, id, hi, ht, hid, -, heq⟩ |
    ⟨i, s, work, id, hi, ht, hid, heq⟩
  · rw [heq]
    intro k o o' ⟨s', work', id', state', hi', ht', hid', hf'⟩ hh
    rcases live_cases h hi' ht' hf' with ⟨s, work, state, hi, ht, hf⟩ | ⟨s, work, hi, ht⟩
    · exact hd.unshared ⟨s, work, id', state, hi, ht, hid', hf⟩ hh
    · have hnone : w.registry.holds o = none := (Worker.holds_eq hi).trans (by rw [ht]; rfl)
      rw [hnone] at hh
      cases hh
  · rw [heq]
    have hown := hw.fit hi
    have hmine : work ∈ w.flying i :=
      Worker.flying_of_slot hi (by rw [ht]; exact List.mem_cons_self)
    refine (hd.unshared.register (o := i) (k := id) ?_).mono ?_
    · rintro j ⟨t, work', id', state', hj, htj, -, hfj⟩ hne hh
      have hkey : t.thread.key = some id := (Worker.holds_eq hj).symm.trans hh
      have hfly : work' ∈ w.flying j :=
        Worker.flying_of_slot hj (by rw [htj]; simp [SlotThread.unfinished, hfj])
      have hidj : id' = id := by
        rw [htj] at hkey
        simp only [SlotThread.key] at hkey
        split at hkey
        · cases hkey
        · exact Option.some.inj hkey
      have hnamej := (hw.fit hj).named (by rw [htj]; rfl)
      have hname := hown.named (by rw [ht]; rfl)
      exact hne (hd.apart hfly hmine (by rw [hnamej, hname, hidj]))
    · rintro j ⟨t, work', id', state', hj, htj, hidj, hfj⟩
      rcases live_cases h hj htj hfj with ⟨s, work, state, hi, ht, hf⟩ | ⟨s₀, work₀, hj₀, ht₀⟩
      · exact .inl ⟨s, work, id', state, hi, ht, hidj, hf⟩
      · refine .inr (by_contra fun hne => ?_)
        have hnone : w.holds j = none := (Worker.holds_eq hj₀).trans (by rw [ht₀]; rfl)
        have hheld := (Worker.holds_eq hj).trans (htj ▸ key_running hidj)
        have hsame : w'.holds j = w.holds j :=
          (congrFun (congrArg Registry.holds heq) j).trans (Function.update_of_ne hne _ _)
        rw [hsame, hnone] at hheld
        cases hheld
  · rw [heq]
    refine hd.unshared.unregister.mono ?_
    rintro j ⟨t, work', id', state', hj, htj, hidj, hfj⟩
    rcases live_cases h hj htj hfj with ⟨s, work, state, hi, ht, hf⟩ | ⟨s₀, work₀, hj₀, ht₀⟩
    · exact ⟨s, work, id', state, hi, ht, hidj, hf⟩
    · have hheld := (Worker.holds_eq hj).trans (htj ▸ key_running hidj)
      have hsame := congrFun (congrArg Registry.holds heq) j
      rcases Registry.update_cases (hsame.symm.trans hheld) with ⟨-, hk⟩ | ⟨-, hk⟩
      · cases hk
      · have hnone : w.registry.holds j = none := (Worker.holds_eq hj₀).trans (by rw [ht₀]; rfl)
        rw [hnone] at hk
        cases hk

/-- While no line brings the id of a request in flight, the ids stay apart. -/
theorem Distinct.step (hw : Tended w) (hd : Distinct w) (hok : duplicates w l = false)
    (h : Step w l w') : Distinct w' := by
  refine ⟨fun hm => ?_, fun {i j a b} ha hb heq => ?_, hd.step_unshared hw h⟩
  · rcases h.flying hm with hm | ⟨item, rfl, hread, hc, ⟨pool, hfree⟩, rfl⟩
    · exact hd.named hm
    · exact (not_duplicates hok hc (by simp [hfree]) hread).1
  · rcases h.flying ha with ha' | ⟨item, rfl, hread, hc, ⟨pool, hfree⟩, rfl⟩ <;>
      rcases h.flying hb with hb' | ⟨item', hl, hread', hc', ⟨pool', hfree'⟩, rfl⟩
    · exact hd.apart ha' hb' heq
    · subst hl
      exact absurd heq ((not_duplicates hok hc' (by simp [hfree']) hread').2 ha')
    · exact absurd heq.symm ((not_duplicates hok hc (by simp [hfree]) hread).2 hb')
    · cases hfree.symm.trans hfree'
      rfl

theorem Distinct.init (E : Engine) (maxSlots : Nat) : Distinct (.init E maxSlots) := by
  have hnone {i : Nat} {work : Work} (h : work ∈ (Worker.init E maxSlots).flying i) : False := by
    have := Worker.mem_requests_of_flying h
    simp [Housed.requests_init] at this
  exact ⟨fun h => (hnone h).elim, fun h => (hnone h).elim, fun _ _ _ _ _ h => by cases h⟩

theorem distinct_invariant (E : Engine) (maxSlots : Nat) :
    (uniqueSystem E maxSlots).Invariant fun w => Tended w ∧ Distinct w := by
  refine (tended_invariant E maxSlots).guard.relative (.init E maxSlots) fun hw hd hs => ?_
  obtain ⟨hok, hstep⟩ := guard_step.mp hs
  exact hd.step hw hok (step_cases hstep)

end Distinct

end JetsonVoice.Tts
