import JetsonVoice.Foundation.Collections

/-!
# The slot pool of the synthesis workers

`SlotPool` owns the claim flag of every slot and the routing from request ids to
slots. It is created with every slot free; a slot is named by its index.
-/

namespace JetsonVoice.Tts

open Foundation

/-- The claim flags and the routing map. -/
structure SlotPool where
  inUse : List Bool
  idToSlot : Table String Nat
  deriving DecidableEq

namespace SlotPool

/-- A pool whose slots have just been constructed. -/
def create (maxSlots : Nat) : SlotPool := ⟨List.replicate maxSlots false, ∅⟩

variable (p : SlotPool)

/-- Claim the first free slot; `none` when the pool is saturated. -/
def acquireFree : Option (Nat × SlotPool) :=
  (p.inUse.findIdx? (· = false)).map fun slotId =>
    (slotId, { p with inUse := p.inUse.set slotId true })

def bind (id : String) (slotId : Nat) : SlotPool :=
  { p with idToSlot := p.idToSlot.insert id slotId }

def unbind (id : String) : SlotPool := { p with idToSlot := p.idToSlot.erase id }

/-- Mark a slot free. -/
def release (slotId : Nat) : SlotPool := { p with inUse := p.inUse.set slotId false }

variable {p}

@[simp] theorem bind_inUse (id : String) (slotId : Nat) : (p.bind id slotId).inUse = p.inUse := rfl

@[simp] theorem unbind_inUse (id : String) : (p.unbind id).inUse = p.inUse := rfl

@[simp] theorem release_inUse (slotId : Nat) :
    (p.release slotId).inUse = p.inUse.set slotId false := rfl

/-- A claimed slot was free, and nothing else changes. -/
theorem acquireFree_some {slotId : Nat} {p' : SlotPool} (h : p.acquireFree = some (slotId, p')) :
    p.inUse[slotId]? = some false ∧ p' = { p with inUse := p.inUse.set slotId true } := by
  obtain ⟨i, hi, heq⟩ := Option.map_eq_some_iff.mp h
  cases heq
  obtain ⟨hlt, hfree, -⟩ := List.findIdx?_eq_some_iff_getElem.mp hi
  exact ⟨List.getElem?_eq_some_iff.mpr ⟨hlt, by simpa using hfree⟩, rfl⟩

/-- A saturated pool has no free slot. -/
theorem acquireFree_none (h : p.acquireFree = none) : ∀ b ∈ p.inUse, b = true := by
  have hnone := Option.map_eq_none_iff.mp h
  intro b hb
  simpa using List.findIdx?_eq_none_iff.mp hnone b hb

end SlotPool

end JetsonVoice.Tts
