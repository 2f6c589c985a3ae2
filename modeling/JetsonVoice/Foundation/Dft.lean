import JetsonVoice.Foundation.LaneSums
import Mathlib.Algebra.BigOperators.Ring.Finset
import Mathlib.RingTheory.RootsOfUnity.PrimitiveRoots

/-!
# Discrete Fourier transforms

The transform of finitely many values at the powers of a root of unity: it is
periodic, a transform of composite length is made of shorter ones over the
decimated values, and the transform at the inverse root undoes it.
-/

namespace JetsonVoice.Foundation

open Finset LaneSums

section Semiring
variable {K : Type*} [CommSemiring K] {w : K} {n p m : Nat} {x y : Nat → K}

/-- The transform of `n` values at the powers of `w`. -/
def dft (w : K) (n : Nat) (x : Nat → K) (k : Nat) : K := ∑ j ∈ range n, x j * w ^ (j * k)

theorem dft_congr (h : ∀ j < n, x j = y j) (k : Nat) : dft w n x k = dft w n y k :=
  sum_congr rfl fun j hj => by rw [h j (mem_range.mp hj)]

theorem dft_const_mul (c w : K) (n : Nat) (x : Nat → K) (k : Nat) :
    dft w n (fun j => c * x j) k = c * dft w n x k := by
  rw [dft, dft, mul_sum]
  exact sum_congr rfl fun j _ => mul_assoc _ _ _

theorem pow_mul_mod (hw : w ^ n = 1) (j k : Nat) : w ^ (j * (k % n)) = w ^ (j * k) := by
  rw [mul_comm j, pow_mul, ← pow_eq_pow_mod k hw, ← pow_mul, mul_comm k]

/-- The transform is periodic. -/
theorem dft_mod (hw : w ^ n = 1) (k : Nat) : dft w n x (k % n) = dft w n x k :=
  sum_congr rfl fun j _ => by rw [pow_mul_mod hw]

/-- Decimation in time: a transform of composite length by the transforms of the values
that are `p` apart. -/
theorem dft_mul (hw : w ^ (p * m) = 1) (k : Nat) :
    dft w (p * m) x k =
      ∑ q ∈ range p, dft (w ^ p) m (fun i => x (q + p * i)) (k % m) * w ^ (q * k) := by
  have hroot : (w ^ p) ^ m = 1 := by rw [← pow_mul, hw]
  calc
    dft w (p * m) x k = ∑ i ∈ range m, ∑ q ∈ range p, x (i * p + q) * w ^ ((i * p + q) * k) := by
      rw [dft, mul_comm p, ← sum_tiles p m fun j => x j * w ^ (j * k)]
    _ = ∑ q ∈ range p, ∑ i ∈ range m, x (i * p + q) * w ^ ((i * p + q) * k) := sum_comm
    _ = _ := by
      refine sum_congr rfl fun q _ => ?_
      rw [dft_mod hroot, dft, sum_mul]
      refine sum_congr rfl fun i _ => ?_
      rw [← pow_mul, mul_assoc, ← pow_add, add_comm q, mul_comm p i]
      congr 2
      ring

theorem dft_zero (w : K) (n : Nat) (x : Nat → K) : dft w n x 0 = ∑ j ∈ range n, x j := by
  simp [dft]

end Semiring

section Ring
variable {K : Type*} [CommRing K] [IsDomain K] {w v : K} {n : Nat}

/-- The powers of a root with the exponents in the order of a difference add up to nothing
unless the difference is zero. -/
theorem sum_pow_mul_pow (hw : IsPrimitiveRoot w n) (hv : v * w = 1) {j l : Nat} (hj : j < n)
    (hl : l < n) : ∑ k ∈ range n, w ^ (j * k) * v ^ (k * l) = if j = l then (n : K) else 0 := by
  have hterm (k : Nat) : w ^ (j * k) * v ^ (k * l) = (w ^ j * v ^ l) ^ k := by
    rw [mul_pow, ← pow_mul, ← pow_mul, mul_comm k l]
  have hvn : v ^ n = 1 := by
    have : v ^ n * w ^ n = 1 := by rw [← mul_pow, hv, one_pow]
    rwa [hw.pow_eq_one, mul_one] at this
  rw [sum_congr rfl fun k _ => hterm k]
  by_cases h : j = l
  · subst h
    rw [if_pos rfl, ← mul_pow, mul_comm w, hv, one_pow]
    simp
  · rw [if_neg h]
    have hne : w ^ j * v ^ l ≠ 1 := by
      intro heq
      apply h
      apply hw.pow_inj hj hl
      calc
        w ^ j = w ^ j * (v ^ l * w ^ l) := by rw [← mul_pow, hv, one_pow, mul_one]
        _ = w ^ l := by rw [← mul_assoc, heq, one_mul]
    have hroot : (w ^ j * v ^ l) ^ n = 1 := by
      rw [mul_pow, ← pow_mul, ← pow_mul, mul_comm j, mul_comm l, pow_mul, pow_mul,
        hw.pow_eq_one, hvn, one_pow, one_pow, mul_one]
    have hgeom := mul_neg_geom_sum (w ^ j * v ^ l) n
    rw [hroot, sub_self] at hgeom
    exact (mul_eq_zero.mp hgeom).resolve_left (sub_ne_zero.mpr hne.symm)

/-- The transform at the inverse root gives back the values, each as often as there are. -/
theorem dft_dft (hw : IsPrimitiveRoot w n) (hv : v * w = 1) (x : Nat → K) {l : Nat} (hl : l < n) :
    dft v n (dft w n x) l = n * x l := by
  calc
    dft v n (dft w n x) l =
        ∑ j ∈ range n, x j * ∑ k ∈ range n, w ^ (j * k) * v ^ (k * l) := by
      simp only [dft, sum_mul, mul_sum]
      rw [sum_comm]
      simp only [mul_assoc]
    _ = ∑ j ∈ range n, x j * if j = l then (n : K) else 0 :=
      sum_congr rfl fun j hj => by rw [sum_pow_mul_pow hw hv (mem_range.mp hj) hl]
    _ = n * x l := by
      simp only [mul_ite, mul_zero]
      rw [sum_ite_eq' (range n) l fun j => x j * (n : K), if_pos (mem_range.mpr hl), mul_comm]

end Ring

end JetsonVoice.Foundation
