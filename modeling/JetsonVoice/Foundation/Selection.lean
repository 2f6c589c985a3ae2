import Mathlib.Algebra.Group.Nat.Even
import Mathlib.Data.Prod.Lex
import Mathlib.Order.Bounds.Basic
import Mathlib.Order.MinMax

/-!
# Choosing the first of the best

A candidate is a value with an index. Of two candidates the one with the greater
value is better, and of two with one value the one with the smaller index. A scan
keeps the better of what it has and what comes next; lanes are put together by
halving their number.
-/

namespace JetsonVoice.Foundation.Selection

section Folds
variable {C D : Type*} (op : C → C → C)

/-- The lanes below the stride take in those above it. -/
def foldHalf (stride : Nat) (s : Nat → C) : Nat → C := fun t =>
  if t < stride then op (s t) (s (t + stride)) else s t

/-- `for (stride = 2 ^ (p - 1); stride > 0; stride >>= 1)` over shared memory. -/
def treeFold : Nat → (Nat → C) → Nat → C
  | 0, s => s
  | p + 1, s => treeFold p (foldHalf op (2 ^ p) s)

variable {op} {op' : D → D → D} {f : C → D}

/-- A fold can be looked at through a map. -/
theorem map_treeFold (hf : ∀ a b, f (op a b) = op' (f a) (f b)) (p : Nat) (s : Nat → C)
    (t : Nat) : f (treeFold op p s t) = treeFold op' p (fun t => f (s t)) t := by
  induction p generalizing s with
  | zero => rfl
  | succ p ih =>
      have hhalf : (fun t => f (foldHalf op (2 ^ p) s t)) =
          foldHalf op' (2 ^ p) fun t => f (s t) := by
        funext t
        by_cases ht : t < 2 ^ p
        · simp only [foldHalf, if_pos ht, hf]
        · simp only [foldHalf, if_neg ht]
      rw [treeFold, treeFold, ih, hhalf]

theorem map_foldl (hf : ∀ a b, f (op a b) = op' (f a) (f b)) (c : C) (cs : List C) :
    f (cs.foldl op c) = (cs.map f).foldl op' (f c) := by
  induction cs generalizing c with
  | nil => rfl
  | cons d cs ih => rw [List.foldl_cons, List.map_cons, List.foldl_cons, ih, hf]

variable [LinearOrder C]

/-- A scan that keeps the greater ends with the greatest. -/
theorem foldl_max_isGreatest (c : C) (cs : List C) :
    IsGreatest {x | x = c ∨ x ∈ cs} (cs.foldl max c) := by
  induction cs generalizing c with
  | nil => exact ⟨.inl rfl, fun x hx => (hx.resolve_right List.not_mem_nil).le⟩
  | cons d cs ih =>
      obtain ⟨hmem, hle⟩ := ih (max c d)
      rw [List.foldl_cons]
      constructor
      · rcases hmem with h | h
        · rcases max_choice c d with hmax | hmax
          · exact .inl (h.trans hmax)
          · exact .inr (List.mem_cons.mpr (.inl (h.trans hmax)))
        · exact .inr (List.mem_cons_of_mem d h)
      · rintro x (rfl | hx)
        · exact (le_max_left _ _).trans (hle (.inl rfl))
        · rcases List.mem_cons.mp hx with rfl | hx
          · exact (le_max_right _ _).trans (hle (.inl rfl))
          · exact hle (.inr hx)

/-- Halving ends with the greatest of the lanes in the first. -/
theorem treeFold_max_isGreatest (p : Nat) (s : Nat → C) :
    IsGreatest (s '' Set.Iio (2 ^ p)) (treeFold max p s 0) := by
  induction p generalizing s with
  | zero =>
      refine ⟨⟨0, by simp, rfl⟩, ?_⟩
      rintro _ ⟨t, ht, rfl⟩
      obtain rfl : t = 0 := by simpa using ht
      exact le_rfl
  | succ p ih =>
      have hhalf {t : Nat} (ht : t < 2 ^ p) :
          foldHalf max (2 ^ p) s t = max (s t) (s (t + 2 ^ p)) := if_pos ht
      have hdouble : 2 ^ (p + 1) = 2 ^ p + 2 ^ p := by rw [pow_succ, Nat.mul_two]
      obtain ⟨⟨t, ht, heq⟩, hle⟩ := ih (foldHalf max (2 ^ p) s)
      rw [Set.mem_Iio] at ht
      rw [treeFold]
      constructor
      · rw [← heq, hhalf ht]
        rcases max_choice (s t) (s (t + 2 ^ p)) with hmax | hmax
        · exact ⟨t, by rw [Set.mem_Iio]; omega, hmax.symm⟩
        · exact ⟨t + 2 ^ p, by rw [Set.mem_Iio]; omega, hmax.symm⟩
      · rintro _ ⟨u, hu, rfl⟩
        rw [Set.mem_Iio] at hu
        by_cases hlow : u < 2 ^ p
        · exact (le_max_left _ _).trans (hhalf hlow ▸ hle ⟨u, hlow, rfl⟩)
        · have hsub : u - 2 ^ p < 2 ^ p := by omega
          have hback : u - 2 ^ p + 2 ^ p = u := by omega
          have hmax := hle ⟨u - 2 ^ p, hsub, rfl⟩
          rw [hhalf hsub, hback] at hmax
          exact (le_max_right _ _).trans hmax

end Folds

section Candidates
variable {α : Type*} [LinearOrder α]

/-- `a` is chosen over `b`. -/
def Better (a b : α × Nat) : Prop := b.1 < a.1 ∨ a.1 = b.1 ∧ a.2 < b.2

instance (a b : α × Nat) : Decidable (Better a b) := inferInstanceAs (Decidable (_ ∨ _))

/-- What is kept when a candidate comes up. -/
def keep (best new : α × Nat) : α × Nat := if Better new best then new else best

/-- Candidates in their order. -/
def key (c : α × Nat) : α ×ₗ Natᵒᵈ := toLex (c.1, OrderDual.toDual c.2)

omit [LinearOrder α] in
theorem key_injective : Function.Injective (key (α := α)) := by
  rintro ⟨v, i⟩ ⟨w, j⟩ h
  simpa [key] using h

theorem better_iff (a b : α × Nat) : Better a b ↔ key b < key a := by
  rw [key, key, Prod.Lex.toLex_lt_toLex, OrderDual.toDual_lt_toDual, Better, eq_comm]

theorem key_keep (best new : α × Nat) : key (keep best new) = max (key best) (key new) := by
  rw [keep]
  split
  · rename_i h
    exact (max_eq_right ((better_iff new best).mp h).le).symm
  · rename_i h
    rw [better_iff, not_lt] at h
    exact (max_eq_left h).symm

/-- The index of the best candidate is the first one of a greatest value. -/
theorem isLeast_of_isGreatest {n best : Nat} {value : Nat → α} {v : α}
    (h : IsGreatest ((fun i => key (value i, i)) '' Set.Iio n) (key (v, best))) :
    IsLeast {i | i < n ∧ ∀ j < n, value j ≤ value i} best := by
  obtain ⟨⟨i, hi, heq⟩, hle⟩ := h
  obtain ⟨rfl, rfl⟩ := Prod.mk.inj (key_injective heq)
  have hkey {j : Nat} (hj : j < n) : value j < value i ∨ value j = value i ∧ i ≤ j := by
    have hlow := hle ⟨j, hj, rfl⟩
    simpa [key, Prod.Lex.toLex_le_toLex] using hlow
  refine ⟨⟨hi, fun j hj => ?_⟩, ?_⟩
  · rcases hkey hj with hlt | ⟨heq, -⟩
    · exact hlt.le
    · exact heq.le
  · rintro j ⟨hj, hmax⟩
    rcases hkey hj with hlt | ⟨-, hle⟩
    · exact absurd (hmax i hi) (not_le.mpr hlt)
    · exact hle

end Candidates

end JetsonVoice.Foundation.Selection
