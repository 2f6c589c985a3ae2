import Mathlib.Algebra.BigOperators.Ring.Finset
import Mathlib.Algebra.Order.Ring.Rat
import Mathlib.Data.Rat.Defs

/-!
# Tensors of exact numbers

A tensor is stored in row-major order, as `numpy` and the kernels read it. The
numbers are rationals: every finite float is one, and conversions between number
formats, which only round, are the identity on them.
-/

namespace JetsonVoice.Onnx

/-- A stored tensor: its dimensions and as many numbers as they have places. -/
structure Tensor where
  dims : List Nat
  data : List ℚ
  size_eq : data.length = dims.prod
  deriving DecidableEq

namespace Tensor

/-- The number at a flat index. -/
def flat (t : Tensor) (i : Nat) : ℚ := t.data.getD i 0

/-- The tensor with given numbers at its flat indices. -/
def ofFn (dims : List Nat) (f : Nat → ℚ) : Tensor where
  dims := dims
  data := (List.range dims.prod).map f
  size_eq := by simp

/-- `t.T.copy()` of a matrix. -/
def transposed (t : Tensor) : Tensor :=
  match t.dims with
  | [r, c] => ofFn [c, r] fun i => t.flat (i % r * c + i / r)
  | _ => t

/-- `MatMul` of a tensor and a matrix, row by row. -/
def matmul? (a w : Tensor) : Option Tensor :=
  match w.dims with
  | [k, n] =>
      if a.dims.getLast? = some k then
        some (ofFn (a.dims.dropLast ++ [n]) fun i =>
          ∑ kk ∈ Finset.range k, a.flat (i / n * k + kk) * w.flat (kk * n + i % n))
      else none
  | _ => none

section Lemmas
variable {t u : Tensor} {dims : List Nat} {f g : Nat → ℚ} {i j r c : Nat}

@[simp] theorem dims_ofFn (dims : List Nat) (f : Nat → ℚ) : (ofFn dims f).dims = dims := rfl

theorem flat_ofFn (h : i < dims.prod) : (ofFn dims f).flat i = f i := by
  simp [Tensor.flat, ofFn, h]

/-- Tensors of the same shape are the same when their numbers are. -/
theorem ext_flat (hd : t.dims = u.dims) (h : ∀ i < t.dims.prod, t.flat i = u.flat i) : t = u := by
  obtain ⟨dims, data, hsize⟩ := t
  obtain ⟨dims', data', hsize'⟩ := u
  obtain rfl : dims = dims' := hd
  have hdata : data = data' := by
    refine List.ext_getElem (hsize.trans hsize'.symm) fun i hi hi' => ?_
    have := h i (hsize ▸ hi)
    simpa [Tensor.flat, hi, hi'] using this
  subst hdata
  rfl

theorem ofFn_congr (h : ∀ i < dims.prod, f i = g i) : ofFn dims f = ofFn dims g :=
  ext_flat rfl fun i (hi : i < dims.prod) => by rw [flat_ofFn hi, flat_ofFn hi, h i hi]

theorem matmul?_eq {a w : Tensor} {k n : Nat} (hw : w.dims = [k, n]) :
    matmul? a w = if a.dims.getLast? = some k then
      some (ofFn (a.dims.dropLast ++ [n]) fun i =>
        ∑ kk ∈ Finset.range k, a.flat (i / n * k + kk) * w.flat (kk * n + i % n)) else none := by
  rw [matmul?, hw]

theorem transposed_eq (hd : t.dims = [r, c]) :
    t.transposed = ofFn [c, r] fun i => t.flat (i % r * c + i / r) := by
  rw [transposed, hd]

@[simp] theorem dims_transposed (hd : t.dims = [r, c]) : t.transposed.dims = [c, r] := by
  rw [transposed_eq hd, dims_ofFn]

/-- The flat index of a place of a matrix is inside the matrix. -/
theorem index_lt (hi : i < r) (hj : j < c) : i * c + j < [r, c].prod := by
  have hle : (i + 1) * c ≤ r * c := Nat.mul_le_mul_right c hi
  rw [Nat.succ_mul] at hle
  simp only [List.prod_cons, List.prod_nil, Nat.mul_one]
  omega

theorem flat_transposed (hd : t.dims = [r, c]) (hi : i < c) (hj : j < r) :
    t.transposed.flat (i * r + j) = t.flat (j * c + i) := by
  rw [transposed_eq hd, flat_ofFn (index_lt hi hj), Nat.mul_add_mod_self_right, Nat.mod_eq_of_lt hj,
    Nat.mul_comm i r, Nat.mul_add_div (by omega), Nat.div_eq_of_lt hj, Nat.add_zero]

/-- A flat index inside a matrix is that of a place. -/
theorem index_eq (hi : i < [r, c].prod) : i / c < r ∧ i % c < c ∧ i / c * c + i % c = i := by
  simp only [List.prod_cons, List.prod_nil, Nat.mul_one] at hi
  have hc : 0 < c := Nat.pos_of_ne_zero fun h => by simp [h] at hi
  exact ⟨(Nat.div_lt_iff_lt_mul hc).mpr hi, Nat.mod_lt i hc, Nat.div_add_mod' i c⟩

/-- Transposing twice gives the matrix back. -/
theorem transposed_transposed (hd : t.dims = [r, c]) : t.transposed.transposed = t := by
  have hd' := dims_transposed hd
  refine ext_flat (by rw [dims_transposed hd', hd]) fun i hi => ?_
  rw [dims_transposed hd'] at hi
  obtain ⟨hr, hc, hi'⟩ := index_eq hi
  rw [← hi', flat_transposed hd' hr hc, flat_transposed hd hc hr]

end Lemmas

end Tensor

end JetsonVoice.Onnx
