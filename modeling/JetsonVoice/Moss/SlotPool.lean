import JetsonVoice.Foundation.Collections
import JetsonVoice.Foundation.TransitionSystem

/-!
# The slot pool of the MOSS runtime

`beginRequest` takes a slot off the free list and enters it under the id of the
calling thread; the guard it returns names the slot. What a guard does when it
is destroyed or assigned over is `endRequest`, and that gives back the slot the
*calling thread* has an entry for, whichever slot the guard names.

## Implementation notes

A thread reads and writes its own entry only, so a call is one step, at its
access to the free list. A guard that is moved from or destroyed is the empty
one. `live` is a history variable: the request begun with the guard has not been
ended. The lengths and buffers a slot is cleared of play no part here.
-/

namespace JetsonVoice.Moss

open Foundation TransitionSystem

/-- A `RequestGuard`. -/
structure RequestGuard where
  /-- `mRuntime` is not null. -/
  runtime : Bool := false
  slotId : Int := -1
  live : Bool := false
  deriving DecidableEq, Repr

/-- The guard of a live request holds the slot. -/
def RequestGuard.holds (g : RequestGuard) (s : Nat) : Bool := g.live && g.slotId == s

@[simp] theorem RequestGuard.holds_iff {g : RequestGuard} {s : Nat} :
    g.holds s = true ↔ g.live = true ∧ g.slotId = s := by
  simp [holds]

/-- `mFreeSlots`, `mActiveSlots`, and the guards of all threads. -/
structure SlotPool where
  /-- The last one is taken first. -/
  freeSlots : List Nat
  /-- Slot by thread. -/
  activeSlots : Table Nat Nat := ∅
  guards : List RequestGuard := []
  deriving DecidableEq

/-- What a thread `t` does to the pool or to a guard. -/
inductive PoolCall where
  /-- `beginRequest`; the clearing of the slot may throw once it is taken. -/
  | beginRequest (t : Nat) (throws : Bool)
  | endRequest (t : Nat)
  | construct (runtime : Bool) (slotId : Int)
  | moveConstruct (g : Nat)
  | moveAssign (t g other : Nat)
  | destroy (t g : Nat)
  deriving DecidableEq, Repr

namespace SlotPool

variable (p : SlotPool)

def releasePoolSlot (slotId : Nat) : SlotPool :=
  { p with freeSlots := p.freeSlots ++ [slotId] }

def endRequest (t : Nat) : SlotPool :=
  match p.activeSlots.lookup t with
  | none => p
  | some slotId => { p with activeSlots := p.activeSlots.erase t }.releasePoolSlot slotId

/-- `RequestGuard::reset` of the guard `g`, whose fields are `a`. -/
def reset (t g : Nat) (a : RequestGuard) : SlotPool :=
  if a.runtime then { p.endRequest t with guards := p.guards.set g {} } else p

/-- The request that holds the slot has been ended. -/
def retire (guards : List RequestGuard) : Option Nat → List RequestGuard
  | none => guards
  | some slotId => guards.map fun g => { g with live := g.live && !g.holds slotId }

/-- The calls on a pool. A `beginRequest` waits for a free slot. -/
def step : PoolCall → Option SlotPool
  | .beginRequest t throws =>
      p.freeSlots.getLast?.map fun slotId =>
        if throws then { p with freeSlots := p.freeSlots.dropLast }
        else
          { freeSlots := p.freeSlots.dropLast
            activeSlots := p.activeSlots.insert t slotId
            guards := p.guards ++ [⟨true, slotId, true⟩] }
  | .endRequest t =>
      some { p.endRequest t with guards := retire p.guards (p.activeSlots.lookup t) }
  | .construct runtime slotId =>
      some { p with guards := p.guards ++ [⟨runtime, slotId, false⟩] }
  | .moveConstruct g =>
      p.guards[g]?.map fun a => { p with guards := p.guards.set g {} ++ [a] }
  | .moveAssign t g other =>
      match p.guards[g]?, p.guards[other]? with
      | some a, some b =>
          if g = other then some p
          else
            let q := p.reset t g a
            some { q with guards := (q.guards.set g b).set other {} }
      | _, _ => none
  | .destroy t g => p.guards[g]?.map fun a => p.reset t g a

end SlotPool

/-- A pool of `maxSlots` slots under any calls of any threads. -/
def poolSystem (maxSlots : Nat) : TransitionSystem SlotPool PoolCall where
  start := { freeSlots := List.range maxSlots }
  step p l := p.step l

/-- How often a slot is on the free list or held by a live request. -/
def SlotPool.places (p : SlotPool) (s : Nat) : Nat :=
  p.freeSlots.count s + p.guards.countP (·.holds s)

/-- Every slot is on the free list exactly once or held by exactly one live request. -/
def Conserved (maxSlots : Nat) (p : SlotPool) : Prop :=
  ∀ s, p.places s = if s < maxSlots then 1 else 0

/-- The guard's request has ended and the thread has no entry, or it is live and
the thread's entry is its slot. -/
def SlotPool.endsOwn (p : SlotPool) (t g : Nat) : Bool :=
  match p.guards[g]? with
  | some a =>
      if a.runtime then
        (p.activeSlots.lookup t).map Int.ofNat == if a.live then some a.slotId else none
      else true
  | none => true

/-- The call takes no slot that it then loses, and ends no request but the guard's own. -/
def SlotPool.keepsOwn (p : SlotPool) : PoolCall → Bool
  | .beginRequest _ throws => !throws
  | .moveAssign t g other => g == other || p.endsOwn t g
  | .destroy t g => p.endsOwn t g
  | _ => true

/-- What the entries and guards of a pool tell about each other. -/
structure Tied (p : SlotPool) : Prop where
  /-- A live request's guard can end it. -/
  genuine : ∀ a ∈ p.guards, a.live = true → a.runtime = true ∧ 0 ≤ a.slotId
  held : ∀ {t s}, p.activeSlots.lookup t = some s → 0 < p.guards.countP (·.holds s)
  distinct : ∀ {t t' s}, p.activeSlots.lookup t = some s → p.activeSlots.lookup t' = some s → t = t'

section Reset
variable {p : SlotPool} {t g : Nat} {a : RequestGuard}

@[simp] theorem SlotPool.holds_empty (s : Nat) : ({} : RequestGuard).holds s = false := rfl

@[simp] theorem SlotPool.endRequest_guards : (p.endRequest t).guards = p.guards := by
  unfold endRequest releasePoolSlot
  split <;> rfl

theorem SlotPool.endRequest_count (s : Nat) : (p.endRequest t).freeSlots.count s =
    p.freeSlots.count s + if p.activeSlots.lookup t = some s then 1 else 0 := by
  unfold endRequest releasePoolSlot
  split
  · rename_i h
    simp [h]
  · rename_i slotId h
    simp [h, List.count_singleton]

theorem SlotPool.lookup_endRequest {t' : Nat} : (p.endRequest t).activeSlots.lookup t' =
    if t' = t then none else p.activeSlots.lookup t' := by
  unfold endRequest releasePoolSlot
  split
  · rename_i h
    split
    · rename_i ht
      rw [ht, h]
    · rfl
  · exact Table.lookup_erase_cases

/-- A reset takes a live guard's slot from it and puts the slot of the thread's
entry on the free list. -/
theorem SlotPool.places_reset (hg : p.guards[g]? = some a) (hr : a.runtime = true) (s : Nat) :
    (p.reset t g a).places s + (a.holds s).toNat =
      p.places s + if p.activeSlots.lookup t = some s then 1 else 0 := by
  have hcount := countP_set_add (fun b => b.holds s) (b := ({} : RequestGuard)) hg
  simp only [holds_empty, Bool.toNat_false] at hcount
  simp only [reset, hr, if_true, places, endRequest_count]
  omega

theorem SlotPool.reset_guards (hr : a.runtime = true) :
    (p.reset t g a).guards = p.guards.set g {} := by
  simp [reset, hr]

/-- The condition of a reset, slot by slot. -/
theorem SlotPool.endsOwn_iff (hp : Tied p) (hg : p.guards[g]? = some a) (hr : a.runtime = true) :
    p.endsOwn t g = true ↔ ∀ s, a.holds s = true ↔ p.activeSlots.lookup t = some s := by
  simp only [endsOwn, hg, hr, if_true, beq_iff_eq, RequestGuard.holds_iff]
  cases hl : a.live with
  | false => cases p.activeSlots.lookup t <;> simp
  | true =>
      obtain ⟨n, hn⟩ := Int.eq_ofNat_of_zero_le (hp.genuine a (List.mem_of_getElem? hg) hl).2
      rw [hn]
      cases p.activeSlots.lookup t with
      | none => simp
      | some m =>
          simp only [if_true, Option.map_some, Option.some.injEq, true_and]
          constructor
          · intro h s
            have hmn : (m : Int) = n := h
            omega
          · intro h
            have hmn := h m
            change (m : Int) = n
            omega

end Reset

section Step
variable {p p' : SlotPool} {maxSlots : Nat}

theorem countP_retire {guards : List RequestGuard} {slotId s : Nat} :
    (SlotPool.retire guards (some slotId)).countP (·.holds s) =
      if s = slotId then 0 else guards.countP (·.holds s) := by
  rw [SlotPool.retire, List.countP_map]
  split
  · rename_i hs
    subst hs
    rw [List.countP_eq_zero]
    intro a _
    simp only [Function.comp_apply, RequestGuard.holds, Bool.not_eq_true]
    cases a.live <;> cases a.slotId == (s : Int) <;> rfl
  · rename_i hs
    apply List.countP_congr
    intro a _
    simp only [Function.comp_apply, RequestGuard.holds_iff, Bool.and_eq_true, Bool.not_eq_true',
      ← Bool.not_eq_true, and_assoc, and_congr_right_iff, and_iff_right_iff_imp]
    intro _ ha hslot
    omega

/-- Ending the calling thread's own request moves its slot to the free list. -/
theorem places_endRequest (hp : Tied p) (hc : Conserved maxSlots p) {t s : Nat} :
    SlotPool.places
      { p.endRequest t with guards := SlotPool.retire p.guards (p.activeSlots.lookup t) } s =
      p.places s := by
  rw [SlotPool.places, SlotPool.endRequest_count, SlotPool.places]
  cases hl : p.activeSlots.lookup t with
  | none => simp [SlotPool.retire]
  | some slotId =>
      rw [countP_retire]
      by_cases hs : s = slotId
      · subst hs
        have hheld := hp.held hl
        have hone := hc s
        rw [SlotPool.places] at hone
        split at hone <;> simp <;> omega
      · simp [hs, Ne.symm hs]

/-- Moving a guard into an empty place moves what it holds. -/
theorem countP_move {guards : List RequestGuard} {g other : Nat} {a b : RequestGuard} {s : Nat}
    (hg : guards[g]? = some a) (ha : a.holds s = false) (hb : guards[other]? = some b)
    (hne : g ≠ other) :
    ((guards.set g b).set other {}).countP (·.holds s) = guards.countP (·.holds s) := by
  have hother : (guards.set g b)[other]? = some b := by rw [getElem?_set_other hne.symm, hb]
  have h₁ := countP_set_add (fun c => c.holds s) (b := b) hg
  have h₂ := countP_set_add (fun c => c.holds s) (b := ({} : RequestGuard)) hother
  simp only [ha, SlotPool.holds_empty, Bool.toNat_false] at h₁ h₂
  omega

theorem Conserved.iff_places (hc : Conserved maxSlots p) :
    Conserved maxSlots p' ↔ ∀ s, p'.places s = p.places s := by
  unfold Conserved
  exact forall_congr' fun s => by rw [hc s]

theorem conserved_reset (hp : Tied p) (hc : Conserved maxSlots p) {t g : Nat} {a : RequestGuard}
    (hg : p.guards[g]? = some a) (hr : a.runtime = true) :
    Conserved maxSlots (p.reset t g a) ↔ p.endsOwn t g = true := by
  rw [hc.iff_places, SlotPool.endsOwn_iff hp hg hr]
  apply forall_congr'
  intro s
  have hplaces := SlotPool.places_reset (t := t) hg hr s
  by_cases hl : p.activeSlots.lookup t = some s
  · rw [if_pos hl] at hplaces
    cases hh : a.holds s with
    | true => simp [hh, hl] at hplaces ⊢; omega
    | false => simp [hh, hl] at hplaces ⊢; omega
  · rw [if_neg hl] at hplaces
    cases hh : a.holds s with
    | true => simp [hh, hl] at hplaces ⊢; omega
    | false => simp [hh, hl] at hplaces ⊢; omega

/-- A guard without a runtime holds nothing and its reset does nothing. -/
theorem not_holds_of_runtime (hp : Tied p) {g : Nat} {a : RequestGuard}
    (hg : p.guards[g]? = some a) (hr : a.runtime = false) (s : Nat) : a.holds s = false := by
  rw [← Bool.not_eq_true, RequestGuard.holds_iff]
  rintro ⟨hl, -⟩
  have hruntime := (hp.genuine a (List.mem_of_getElem? hg) hl).1
  rw [hr] at hruntime
  cases hruntime

/-- What an assignment does after the reset keeps every slot where it is. -/
theorem places_moveAssign (hp : Tied p) {t g other : Nat} {a b : RequestGuard}
    (hg : p.guards[g]? = some a) (hb : p.guards[other]? = some b) (hne : g ≠ other) (s : Nat) :
    SlotPool.places { p.reset t g a with
      guards := ((p.reset t g a).guards.set g b).set other {} } s = (p.reset t g a).places s := by
  have hmove : (((p.reset t g a).guards.set g b).set other {}).countP (·.holds s) =
      (p.reset t g a).guards.countP (·.holds s) := by
    cases hr : a.runtime with
    | true =>
        rw [SlotPool.reset_guards hr]
        exact countP_move (getElem?_set_same hg) rfl (by rw [getElem?_set_other hne.symm, hb]) hne
    | false =>
        simp only [SlotPool.reset, hr, Bool.false_eq_true, if_false]
        exact countP_move hg (not_holds_of_runtime hp hg hr s) hb hne
  rw [SlotPool.places, hmove, SlotPool.places]

theorem conserved_reset_iff (hp : Tied p) (hc : Conserved maxSlots p) {t g : Nat}
    {a : RequestGuard} (hg : p.guards[g]? = some a) :
    Conserved maxSlots (p.reset t g a) ↔ p.endsOwn t g = true := by
  cases hr : a.runtime with
  | true => exact conserved_reset hp hc hg hr
  | false => simpa [SlotPool.reset, SlotPool.endsOwn, hg, hr] using hc

theorem freeSlots_count {slotId : Nat} (h : p.freeSlots.getLast? = some slotId) (s : Nat) :
    p.freeSlots.count s = p.freeSlots.dropLast.count s + if slotId = s then 1 else 0 := by
  conv_lhs => rw [← List.dropLast_append_getLast? _ h]
  simp [List.count_singleton]

/-- The slot a request begins with moves from the free list to its guard. -/
theorem places_beginRequest {t slotId : Nat} (h : p.freeSlots.getLast? = some slotId) (s : Nat) :
    SlotPool.places
      { freeSlots := p.freeSlots.dropLast
        activeSlots := p.activeSlots.insert t slotId
        guards := p.guards ++ [⟨true, slotId, true⟩] } s = p.places s := by
  have hnew : [(⟨true, slotId, true⟩ : RequestGuard)].countP (·.holds s) =
      if slotId = s then 1 else 0 := by
    simp [List.countP_singleton]
  simp only [SlotPool.places, List.countP_append, hnew, freeSlots_count h s]
  omega

theorem countP_moveConstruct {g : Nat} {a : RequestGuard} (h : p.guards[g]? = some a) (s : Nat) :
    (p.guards.set g {} ++ [a]).countP (·.holds s) = p.guards.countP (·.holds s) := by
  have hcount := countP_set_add (fun b => b.holds s) (b := ({} : RequestGuard)) h
  have hnew : [a].countP (·.holds s) = (a.holds s).toNat := by
    cases ha : a.holds s <;> simp [ha]
  simp only [SlotPool.holds_empty, Bool.toNat_false] at hcount
  rw [List.countP_append, hnew]
  omega

/-- A call conserves the slots exactly when it keeps to its own. -/
theorem conserved_step_iff (hp : Tied p) (hc : Conserved maxSlots p) {l : PoolCall}
    (h : (poolSystem maxSlots).step p l = some p') :
    Conserved maxSlots p' ↔ p.keepsOwn l = true := by
  cases l with
  | beginRequest t throws =>
      obtain ⟨slotId, hlast, rfl⟩ := Option.map_eq_some_iff.mp h
      rw [hc.iff_places]
      cases throws with
      | true =>
          simp only [SlotPool.keepsOwn, Bool.not_true, Bool.false_eq_true, iff_false, if_true]
          intro hplaces
          have hslot := hplaces slotId
          simp only [SlotPool.places, freeSlots_count hlast, if_pos] at hslot
          omega
      | false =>
          simp only [SlotPool.keepsOwn, Bool.not_false, iff_true, Bool.false_eq_true, if_false]
          exact places_beginRequest hlast
  | endRequest t =>
      cases h
      rw [hc.iff_places]
      simp only [SlotPool.keepsOwn, iff_true]
      exact fun s => places_endRequest hp hc
  | construct runtime slotId =>
      cases h
      rw [hc.iff_places]
      simp [SlotPool.keepsOwn, SlotPool.places, RequestGuard.holds]
  | moveConstruct g =>
      obtain ⟨a, hg, rfl⟩ := Option.map_eq_some_iff.mp h
      rw [hc.iff_places]
      simp only [SlotPool.keepsOwn, iff_true]
      intro s
      rw [SlotPool.places, countP_moveConstruct hg, SlotPool.places]
  | moveAssign t g other =>
      simp only [poolSystem, SlotPool.step] at h
      split at h
      · rename_i a b hg hb
        split at h
        · rename_i heq
          cases h
          simp [SlotPool.keepsOwn, heq, hc]
        · rename_i hne
          cases h
          rw [hc.iff_places]
          simp only [places_moveAssign hp hg hb hne]
          rw [← hc.iff_places, conserved_reset_iff hp hc hg]
          simp [SlotPool.keepsOwn, hne]
      · cases h
  | destroy t g =>
      obtain ⟨a, hg, rfl⟩ := Option.map_eq_some_iff.mp h
      exact conserved_reset_iff hp hc hg

/-- Guards moved around and emptied stay genuine. -/
theorem genuine_set {guards : List RequestGuard} {g : Nat} {b : RequestGuard}
    (hall : ∀ a ∈ guards, a.live = true → a.runtime = true ∧ 0 ≤ a.slotId)
    (hb : b.live = true → b.runtime = true ∧ 0 ≤ b.slotId) :
    ∀ a ∈ guards.set g b, a.live = true → a.runtime = true ∧ 0 ≤ a.slotId := by
  intro a ha hl
  cases List.mem_or_eq_of_mem_set ha with
  | inl hold => exact hall a hold hl
  | inr hnew => exact hnew ▸ hb (hnew ▸ hl)

theorem genuine_append {guards : List RequestGuard} {b : RequestGuard}
    (hall : ∀ a ∈ guards, a.live = true → a.runtime = true ∧ 0 ≤ a.slotId)
    (hb : b.live = true → b.runtime = true ∧ 0 ≤ b.slotId) :
    ∀ a ∈ guards ++ [b], a.live = true → a.runtime = true ∧ 0 ≤ a.slotId := by
  intro a ha hl
  cases List.mem_append.mp ha with
  | inl hold => exact hall a hold hl
  | inr hnew =>
      obtain rfl := List.mem_singleton.mp hnew
      exact hb hl

/-- A thread with no request of its own in the pool takes a free slot. -/
theorem Tied.beginRequest (hp : Tied p) (hc : Conserved maxSlots p) {t slotId : Nat}
    (h : p.freeSlots.getLast? = some slotId) :
    Tied
      { freeSlots := p.freeSlots.dropLast
        activeSlots := p.activeSlots.insert t slotId
        guards := p.guards ++ [⟨true, slotId, true⟩] } where
  genuine := genuine_append hp.genuine fun _ => ⟨rfl, Int.natCast_nonneg _⟩
  held {t' s} hl := by
    simp only [List.countP_append]
    rw [Table.lookup_insert_cases] at hl
    split at hl
    · cases hl
      simp
    · have hold := hp.held hl
      omega
  distinct {t₁ t₂ s} h₁ h₂ := by
    -- a free slot has no entry
    have hfree {t' : Nat} : p.activeSlots.lookup t' ≠ some slotId := by
      intro hl
      have hheld := hp.held hl
      have hone := hc slotId
      rw [SlotPool.places, freeSlots_count h, if_pos rfl] at hone
      split at hone <;> omega
    rw [Table.lookup_insert_cases] at h₁ h₂
    split at h₁
    · rename_i heq₁
      split at h₂
      · rename_i heq₂
        exact heq₁.trans heq₂.symm
      · cases h₁
        exact absurd h₂ hfree
    · split at h₂
      · cases h₂
        exact absurd h₁ hfree
      · exact hp.distinct h₁ h₂

theorem Tied.endRequest (hp : Tied p) {t : Nat} :
    Tied { p.endRequest t with
      guards := SlotPool.retire p.guards (p.activeSlots.lookup t) } where
  genuine := by
    cases p.activeSlots.lookup t with
    | none => exact hp.genuine
    | some slotId =>
        intro a ha hl
        obtain ⟨b, hb, rfl⟩ := List.mem_map.mp ha
        exact hp.genuine b hb (Bool.and_eq_true_iff.mp hl).1
  held {t' s} hl := by
    rw [SlotPool.lookup_endRequest] at hl
    split at hl
    · cases hl
    · rename_i ht
      cases hslot : p.activeSlots.lookup t with
      | none => exact hp.held hl
      | some slotId =>
          have hs : s ≠ slotId := fun heq => ht (hp.distinct hl (heq ▸ hslot))
          rw [countP_retire, if_neg hs]
          exact hp.held hl
  distinct {t₁ t₂ s} h₁ h₂ := by
    rw [SlotPool.lookup_endRequest] at h₁ h₂
    split at h₁
    · cases h₁
    · split at h₂
      · cases h₂
      · exact hp.distinct h₁ h₂

/-- A reset of the thread's own request, or of one that has ended. -/
theorem Tied.reset (hp : Tied p) {t g : Nat} {a : RequestGuard} (hg : p.guards[g]? = some a)
    (he : p.endsOwn t g = true) : Tied (p.reset t g a) := by
  cases hr : a.runtime with
  | false => simpa [SlotPool.reset, hr] using hp
  | true =>
      have hown := (SlotPool.endsOwn_iff hp hg hr).mp he
      simp only [SlotPool.reset, hr, if_true]
      refine ⟨genuine_set hp.genuine nofun, fun {t' s} hl => ?_, fun {t₁ t₂ s} h₁ h₂ => ?_⟩
      · rw [SlotPool.lookup_endRequest] at hl
        split at hl
        · cases hl
        · rename_i ht
          have hother : a.holds s = false := by
            rw [← Bool.not_eq_true, hown s]
            exact fun hslot => ht (hp.distinct hl hslot)
          have hcount := countP_set_add (fun b => b.holds s) (b := ({} : RequestGuard)) hg
          have hheld := hp.held hl
          simp only [hother, SlotPool.holds_empty, Bool.toNat_false] at hcount
          change 0 < (p.guards.set g {}).countP (·.holds s)
          omega
      · rw [SlotPool.lookup_endRequest] at h₁ h₂
        split at h₁
        · cases h₁
        · split at h₂
          · cases h₂
          · exact hp.distinct h₁ h₂

theorem Tied.step (hp : Tied p) (hc : Conserved maxSlots p) {l : PoolCall}
    (hl : p.keepsOwn l = true) (h : (poolSystem maxSlots).step p l = some p') : Tied p' := by
  cases l with
  | beginRequest t throws =>
      obtain ⟨slotId, hlast, rfl⟩ := Option.map_eq_some_iff.mp h
      obtain rfl : throws = false := by simpa [SlotPool.keepsOwn] using hl
      exact hp.beginRequest hc hlast
  | endRequest t =>
      cases h
      exact hp.endRequest
  | construct runtime slotId =>
      cases h
      refine ⟨genuine_append hp.genuine nofun, fun hlook => ?_, hp.distinct⟩
      rw [List.countP_append]
      exact Nat.lt_of_lt_of_le (hp.held hlook) (Nat.le_add_right _ _)
  | moveConstruct g =>
      obtain ⟨a, hg, rfl⟩ := Option.map_eq_some_iff.mp h
      have hmoved := hp.genuine a (List.mem_of_getElem? hg)
      refine ⟨genuine_append (genuine_set hp.genuine nofun) hmoved, fun hlook => ?_, hp.distinct⟩
      rw [countP_moveConstruct hg]
      exact hp.held hlook
  | moveAssign t g other =>
      simp only [poolSystem, SlotPool.step] at h
      split at h
      · rename_i a b hg hb
        split at h
        · cases h
          exact hp
        · rename_i hne
          cases h
          have he : p.endsOwn t g = true := by simpa [SlotPool.keepsOwn, hne] using hl
          have hq := hp.reset hg he
          have hmoved := hp.genuine b (List.mem_of_getElem? hb)
          refine ⟨genuine_set (genuine_set hq.genuine hmoved) nofun, fun {t' s} hlook => ?_,
            hq.distinct⟩
          have hplaces := places_moveAssign (t := t) hp hg hb hne s
          have hheld := hq.held hlook
          simp only [SlotPool.places] at hplaces
          change 0 < (((p.reset t g a).guards.set g b).set other {}).countP (·.holds s)
          omega
      · cases h
  | destroy t g =>
      obtain ⟨a, hg, rfl⟩ := Option.map_eq_some_iff.mp h
      exact hp.reset hg hl

end Step

/-- The runs in which every call keeps to its own slots. -/
def owningSystem (maxSlots : Nat) : TransitionSystem SlotPool PoolCall :=
  (poolSystem maxSlots).guard fun p l => p.keepsOwn l = true

theorem conserved_invariant (maxSlots : Nat) :
    (owningSystem maxSlots).Invariant fun p => Tied p ∧ Conserved maxSlots p where
  start := by
    refine ⟨⟨nofun, nofun, nofun⟩, fun s => ?_⟩
    simp [owningSystem, TransitionSystem.guard, poolSystem, SlotPool.places, List.count_range]
  step h hs := by
    obtain ⟨hl, hs⟩ := guard_step.mp hs
    exact ⟨h.1.step h.2 hl hs, (conserved_step_iff h.1 h.2 hs).mpr hl⟩

/-- With no live request left, the free list holds every slot once. -/
theorem Conserved.all_free {p : SlotPool} {maxSlots : Nat} (hc : Conserved maxSlots p)
    (h : ∀ a ∈ p.guards, a.live = false) : p.freeSlots.Perm (List.range maxSlots) := by
  rw [List.perm_iff_count]
  intro s
  have hnone : p.guards.countP (·.holds s) = 0 := by
    rw [List.countP_eq_zero]
    intro a ha
    simp [h a ha]
  have hone := hc s
  rw [SlotPool.places, hnone] at hone
  rw [List.count_range]
  exact hone

/-- As long as no taken slot is lost in a throw and a guard only ends on a thread
whose entry is the guard's own slot, every slot is in one place, a free slot is
nobody's, and all slots are free once no request is live. The first call that does
otherwise puts a slot in no place or in two. -/
theorem slot_pool_conserved_iff (maxSlots : Nat) {p : SlotPool}
    (h : (owningSystem maxSlots).Reachable p) :
    Conserved maxSlots p ∧
      (∀ slotId, p.freeSlots.getLast? = some slotId → ∀ a ∈ p.guards, a.holds slotId = false) ∧
      ((∀ a ∈ p.guards, a.live = false) → p.freeSlots.Perm (List.range maxSlots)) ∧
      ∀ l p', (poolSystem maxSlots).step p l = some p' →
        (Conserved maxSlots p' ↔ p.keepsOwn l = true) := by
  obtain ⟨hp, hc⟩ := (conserved_invariant maxSlots).of_reachable h
  refine ⟨hc, fun slotId hlast a ha => ?_, hc.all_free, fun l p' => conserved_step_iff hp hc⟩
  have hone := hc slotId
  rw [SlotPool.places, freeSlots_count hlast, if_pos rfl] at hone
  have hnone : p.guards.countP (·.holds slotId) = 0 := by
    split at hone <;> omega
  rw [List.countP_eq_zero] at hnone
  exact Bool.eq_false_iff.mpr (hnone a ha)

/-- Two threads begin and end a request each; the guard of one is moved. -/
theorem slot_pool_conserved_two_threads :
    ∃ p, (owningSystem 2).Reachable p ∧ p.freeSlots = [0, 1] ∧
      p.freeSlots.Perm (List.range 2) := by
  have hr := reachable_of_run (T := owningSystem 2)
    [.beginRequest 0 false, .beginRequest 1 false, .moveConstruct 0, .destroy 1 1,
      .destroy 0 0, .destroy 0 2] rfl
  exact ⟨_, hr, rfl, (slot_pool_conserved_iff 2 hr).2.2.1 (by decide)⟩

/-- One thread begins two requests. The guard of the first gives back the slot of
the second, which is still live, and the slot of the first is never given back. -/
theorem first_guard_ends_second :
    (∃ p, (poolSystem 2).Reachable p ∧ p.guards = [{}, ⟨true, 0, true⟩] ∧ p.freeSlots = [0]) ∧
    (∃ p, (poolSystem 2).Reachable p ∧ p.guards = [{}, {}] ∧ p.freeSlots = [0] ∧
      ¬ Conserved 2 p) := by
  constructor
  · have hr := reachable_of_run (T := poolSystem 2)
      [.beginRequest 0 false, .beginRequest 0 false, .destroy 0 0] rfl
    exact ⟨_, hr, rfl, rfl⟩
  · have hr := reachable_of_run (T := poolSystem 2)
      [.beginRequest 0 false, .beginRequest 0 false, .destroy 0 0, .destroy 0 1] rfl
    exact ⟨_, hr, rfl, rfl, fun hc => absurd (hc 1) (by decide)⟩

end JetsonVoice.Moss
