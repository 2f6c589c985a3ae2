import Mathlib.Data.List.Basic
import Mathlib.Data.List.Infix

/-!
# Reuse of what was computed for a prefix

A causal computation gives every position of a sequence a value that depends on
the sequence up to that position. What it gave for a prefix of a sequence it
gives for the sequence.
-/

namespace JetsonVoice.Foundation

variable {α β : Type*} {t xs : List α} {r : Nat}

/-- The value of every position, computed from the elements up to it. -/
def causalRows (row : List α → β) (xs : List α) : List β :=
  (List.range xs.length).map fun r => row (xs.take (r + 1))

@[simp] theorem causalRows_length (row : List α → β) (xs : List α) :
    (causalRows row xs).length = xs.length := by
  simp [causalRows]

/-- Cutting the sequence cuts its values. -/
theorem causalRows_take (row : List α → β) (xs : List α) (r : Nat) :
    causalRows row (xs.take r) = (causalRows row xs).take r := by
  have hrow (k : Nat) (hk : k ∈ List.range (min r xs.length)) :
      row ((xs.take r).take (k + 1)) = row (xs.take (k + 1)) := by
    have hlt : k < r := lt_of_lt_of_le (List.mem_range.mp hk) (min_le_left _ _)
    rw [List.take_take, min_eq_left hlt]
  calc
    causalRows row (xs.take r) =
        (List.range (min r xs.length)).map fun k => row ((xs.take r).take (k + 1)) := by
      rw [causalRows, List.length_take]
    _ = (List.range (min r xs.length)).map fun k => row (xs.take (k + 1)) :=
      List.map_congr_left hrow
    _ = (causalRows row xs).take r := by
      rw [causalRows, ← List.map_take, List.take_range]

theorem take_eq_of_leading (h : t <+: xs) (hr : r ≤ t.length) : t.take r = xs.take r := by
  obtain ⟨u, rfl⟩ := h
  exact (List.take_append_of_le_length hr).symm

/-- The values of a prefix stand for those of the sequence. -/
theorem causalRows_reuse (row : List α → β) (h : t <+: xs) (hr : r ≤ t.length) :
    (causalRows row t).take r = (causalRows row xs).take r := by
  rw [← causalRows_take, ← causalRows_take, take_eq_of_leading h hr]

theorem getElem?_of_leading (h : t <+: xs) (hr : r < t.length) : xs[r]? = t[r]? := by
  obtain ⟨u, rfl⟩ := h
  exact List.getElem?_append_left hr

/-- Elements of a prefix replace those of the sequence as far as the prefix goes. -/
theorem take_append_drop_iff (h : t <+: xs) (hr : r ≤ xs.length) :
    t.take r ++ xs.drop r = xs ↔ r ≤ t.length := by
  constructor
  · intro he
    have hlen := congrArg List.length he
    rw [List.length_append, List.length_take, List.length_drop] at hlen
    omega
  · intro hle
    rw [take_eq_of_leading h hle, List.take_append_drop]

end JetsonVoice.Foundation
