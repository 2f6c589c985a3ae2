import Mathlib.Algebra.Group.Nat.Defs

/-!
# Copies inside one memory

A memory is a function on cells. A copy between two ranges of cells that overlap
may leave anything in its destination; what is outside the destination is kept.
-/

namespace JetsonVoice.Foundation

variable {α : Type*}

/-- The ranges of `n` cells at `a` and of `k` cells at `b` have no cell in common. -/
def Apart (a n b k : Nat) : Prop := a + n ≤ b ∨ b + k ≤ a

/-- Ranges that are not apart have a cell in common. -/
theorem exists_of_not_apart {a n b k : Nat} (hn : 0 < n) (hk : 0 < k) (h : ¬ Apart a n b k) :
    ∃ j, a ≤ j ∧ j < a + n ∧ b ≤ j ∧ j < b + k := by
  have h := not_or.mp h
  exact ⟨max a b, by omega, by omega, by omega, by omega⟩

/-- The documented behaviour of a copy of `n` cells from `src` to `dst`. -/
structure IsMemcpy (copy : (dst src n : Nat) → (Nat → α) → Nat → α) : Prop where
  moved : ∀ {dst src n i : Nat} {m : Nat → α}, Apart dst n src n → i < n →
    copy dst src n m (dst + i) = m (src + i)
  frame : ∀ {dst src n j : Nat} {m : Nat → α}, j < dst ∨ dst + n ≤ j → copy dst src n m j = m j

/-- The copy that reads its whole source first. -/
def memmove (dst src n : Nat) (m : Nat → α) : Nat → α := fun j =>
  if dst ≤ j ∧ j < dst + n then m (src + (j - dst)) else m j

theorem memmove_moved {dst src n i : Nat} (m : Nat → α) (h : i < n) :
    memmove dst src n m (dst + i) = m (src + i) := by
  rw [memmove, if_pos ⟨by omega, by omega⟩, Nat.add_sub_cancel_left]

theorem memmove_frame {dst src n j : Nat} (m : Nat → α) (h : j < dst ∨ dst + n ≤ j) :
    memmove dst src n m j = m j :=
  if_neg (by omega)

theorem isMemcpy_memmove : IsMemcpy (memmove (α := α)) where
  moved _ h := memmove_moved _ h
  frame h := memmove_frame _ h

/-- The copy that leaves `a` in a destination that overlaps its source. -/
def spoil (a : α) (dst src n : Nat) (m : Nat → α) : Nat → α := fun j =>
  if dst ≤ j ∧ j < dst + n ∧ ¬ (dst + n ≤ src ∨ src + n ≤ dst) then a else memmove dst src n m j

theorem spoil_spoils {a : α} {dst src n i : Nat} {m : Nat → α} (hi : i < n)
    (h : ¬ Apart dst n src n) : spoil a dst src n m (dst + i) = a :=
  if_pos ⟨by omega, by omega, h⟩

theorem isMemcpy_spoil (a : α) : IsMemcpy (spoil a) where
  moved h hi := (if_neg fun hj => hj.2.2 h).trans (memmove_moved _ hi)
  frame h := (if_neg (by omega)).trans (memmove_frame _ h)

/-- The cells of a range set to one value. -/
def memset (dst n : Nat) (a : α) (m : Nat → α) : Nat → α := fun j =>
  if dst ≤ j ∧ j < dst + n then a else m j

theorem memset_set {dst n j : Nat} {a : α} (m : Nat → α) (h : dst ≤ j ∧ j < dst + n) :
    memset dst n a m j = a :=
  if_pos h

theorem memset_frame {dst n j : Nat} {a : α} (m : Nat → α) (h : j < dst ∨ dst + n ≤ j) :
    memset dst n a m j = m j :=
  if_neg (by omega)

end JetsonVoice.Foundation
