import Mathlib.Data.List.Range
import Mathlib.Logic.Function.Basic

/-!
# Loops over cells of their own

A loop over a buffer whose rounds each write a few cells, from what these cells
hold: rounds with different cells do not see each other, so behind the loop every
cell holds what its round makes of the buffer in front of it.
-/

namespace JetsonVoice.Foundation

variable {ι α : Type*} {n width : Nat} {cell : Nat → Nat → ι} {step : (ι → α) → Nat → ι → α}
  {val : (ι → α) → Nat → Nat → α}

/-- Each of the `n` rounds writes its `width` cells, and nothing else, from these cells. -/
structure OwnCells (n width : Nat) (cell : Nat → Nat → ι) (step : (ι → α) → Nat → ι → α)
    (val : (ι → α) → Nat → Nat → α) : Prop where
  apart : ∀ k < n, ∀ k' < n, ∀ r < width, ∀ r' < width, cell k r = cell k' r' → k = k'
  written : ∀ F, ∀ k < n, ∀ r < width, step F k (cell k r) = val F k r
  rest : ∀ F, ∀ k < n, ∀ i, (∀ r < width, i ≠ cell k r) → step F k i = F i
  own : ∀ F G, ∀ k < n, (∀ r < width, F (cell k r) = G (cell k r)) →
    ∀ r < width, val F k r = val G k r

/-- The cells of the rounds behind the counter are written, the rest is as it was. -/
theorem OwnCells.foldl (h : OwnCells n width cell step val) (F : ι → α) {k : Nat} (hk : k ≤ n) :
    (∀ j < k, ∀ r < width, (List.range k).foldl step F (cell j r) = val F j r) ∧
      ∀ i, (∀ j < k, ∀ r < width, i ≠ cell j r) → (List.range k).foldl step F i = F i := by
  induction k with
  | zero => exact ⟨fun j hj => absurd hj (Nat.not_lt_zero j), fun i _ => rfl⟩
  | succ k ih =>
      obtain ⟨hwritten, hfresh⟩ := ih (by omega)
      rw [List.range_succ, List.foldl_append, List.foldl_cons, List.foldl_nil]
      have hnow : ∀ r < width, (List.range k).foldl step F (cell k r) = F (cell k r) := by
        refine fun r hr => hfresh _ fun j hj r' hr' heq => ?_
        have := h.apart k (by omega) j (by omega) r hr r' hr' heq
        omega
      constructor
      · intro j hj r hr
        rcases Nat.lt_succ_iff_lt_or_eq.mp hj with hlt | rfl
        · rw [h.rest _ k (by omega), hwritten j hlt r hr]
          intro r' hr' heq
          have := h.apart j (by omega) k (by omega) r hr r' hr' heq
          omega
        · rw [h.written _ j (by omega) r hr]
          exact h.own _ _ j (by omega) hnow r hr
      · intro i hi
        rw [h.rest _ k (by omega) i (hi k (by omega))]
        exact hfresh i fun j hj => hi j (by omega)

/-- A loop that fills cells with values of its own. -/
theorem ownCells_update [DecidableEq ι] (cell : Nat → ι) (val : Nat → α)
    (h : ∀ k < n, ∀ k' < n, cell k = cell k' → k = k') :
    OwnCells n 1 (fun k _ => cell k) (fun F k => Function.update F (cell k) (val k))
      fun _ k _ => val k where
  apart k hk k' hk' _ _ _ _ heq := h k hk k' hk' heq
  written F k _ _ _ := by rw [Function.update_self]
  rest F k _ i hi := by rw [Function.update_of_ne (hi 0 Nat.one_pos)]
  own _ _ _ _ _ _ _ := rfl

end JetsonVoice.Foundation
