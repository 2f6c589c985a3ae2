import Mathlib.Algebra.BigOperators.Intervals

/-!
# Sums shared among the lanes of a block

A sum over a range of indices can be cut into tiles, dealt out to lanes with a
stride, and put together again by halving the number of lanes.
-/

namespace JetsonVoice.Foundation.LaneSums

variable {R : Type*} [AddCommMonoid R]

/-- What lane `t` of `lanes` adds up: `for (i = t; i < n; i += lanes)`. -/
def strided (lanes n t : Nat) (f : Nat → R) : R :=
  ∑ i ∈ (Finset.range n).filter fun i => i % lanes = t, f i

/-- The lanes together add up the whole range. -/
theorem sum_strided {lanes : Nat} (hl : 0 < lanes) (n : Nat) (f : Nat → R) :
    ∑ t ∈ Finset.range lanes, strided lanes n t f = ∑ i ∈ Finset.range n, f i :=
  Finset.sum_fiberwise_of_maps_to
    (fun i _ => Finset.mem_range.mpr (Nat.mod_lt i hl)) f

/-- `shared[t] += shared[t + stride]` in the lanes below the stride. -/
def halve (stride : Nat) (s : Nat → R) : Nat → R := fun t =>
  if t < stride then s t + s (t + stride) else s t

/-- `for (stride = 2 ^ (p - 1); stride > 0; stride >>= 1)` over shared memory. -/
def treeReduce : Nat → (Nat → R) → Nat → R
  | 0, s => s
  | p + 1, s => treeReduce p (halve (2 ^ p) s)

theorem treeReduce_zero (p : Nat) (s : Nat → R) :
    treeReduce p s 0 = ∑ t ∈ Finset.range (2 ^ p), s t := by
  induction p generalizing s with
  | zero => simp [treeReduce]
  | succ p ih =>
      have hhalf : ∀ t ∈ Finset.range (2 ^ p), halve (2 ^ p) s t = s t + s (2 ^ p + t) := by
        intro t ht
        rw [halve, if_pos (Finset.mem_range.mp ht), Nat.add_comm t]
      rw [treeReduce, ih, Finset.sum_congr rfl hhalf, Finset.sum_add_distrib, pow_succ,
        Nat.mul_two, Finset.sum_range_add]

/-- The value a shuffle fetches from `offset` lanes above; its own at the end of the warp. -/
def shflDown (width offset : Nat) (v : Nat → R) : Nat → R := fun lane =>
  if lane + offset < width then v (lane + offset) else v lane

/-- `for (offset = 2 ^ (p - 1); offset > 0; offset >>= 1) sum += shfl_down(sum, offset)`. -/
def warpReduce (width : Nat) : Nat → (Nat → R) → Nat → R
  | 0, v => v
  | p + 1, v => warpReduce width p fun lane => v lane + shflDown width (2 ^ p) v lane

/-- The first lane ends up with the sum of all. -/
theorem warpReduce_zero {width p : Nat} (hp : 2 ^ p ≤ width) (v : Nat → R) :
    warpReduce width p v 0 = ∑ t ∈ Finset.range (2 ^ p), v t := by
  induction p generalizing v with
  | zero => simp [warpReduce]
  | succ p ih =>
      rw [pow_succ, Nat.mul_two] at hp
      have hstep : ∀ t ∈ Finset.range (2 ^ p),
          v t + shflDown width (2 ^ p) v t = v t + v (2 ^ p + t) := by
        intro t ht
        have hlt := Finset.mem_range.mp ht
        rw [shflDown, if_pos (by omega), Nat.add_comm t]
      rw [warpReduce, ih (by omega), Finset.sum_congr rfl hstep, Finset.sum_add_distrib, pow_succ,
        Nat.mul_two, Finset.sum_range_add]

/-- How many tiles cover a range. -/
def tiles (size n : Nat) : Nat := (n + size - 1) / size

theorem le_tiles_mul {size : Nat} (hs : 0 < size) (n : Nat) : n ≤ tiles size n * size := by
  have hdiv := Nat.div_add_mod (n + size - 1) size
  have hmod := Nat.mod_lt (n + size - 1) hs
  rw [tiles, Nat.mul_comm]
  omega

/-- Tiles in a row are the whole range of their indices. -/
theorem sum_tiles (size count : Nat) (f : Nat → R) :
    ∑ i ∈ Finset.range count, ∑ j ∈ Finset.range size, f (i * size + j) =
      ∑ x ∈ Finset.range (count * size), f x := by
  induction count with
  | zero => simp
  | succ count ih => rw [Finset.sum_range_succ, ih, Nat.succ_mul, Finset.sum_range_add]

/-- Full tiles, with zeros behind the end of the range. -/
theorem sum_padded_tiles {size : Nat} (hs : 0 < size) (n : Nat) (f : Nat → R) :
    (∑ i ∈ Finset.range (tiles size n), ∑ j ∈ Finset.range size,
      if i * size + j < n then f (i * size + j) else 0) = ∑ x ∈ Finset.range n, f x := by
  rw [sum_tiles size (tiles size n) fun x => if x < n then f x else 0, ← Finset.sum_filter]
  refine Finset.sum_congr ?_ fun _ _ => rfl
  ext x
  have := le_tiles_mul hs n
  simp only [Finset.mem_filter, Finset.mem_range]
  omega

/-- Tiles of which the last one may be shorter. -/
theorem sum_cut_tiles {size : Nat} (hs : 0 < size) (n : Nat) (f : Nat → R) :
    ∑ i ∈ Finset.range (tiles size n), ∑ j ∈ Finset.range (min size (n - i * size)),
      f (i * size + j) = ∑ x ∈ Finset.range n, f x := by
  rw [← sum_padded_tiles hs n f]
  refine Finset.sum_congr rfl fun i _ => ?_
  rw [← Finset.sum_filter]
  refine Finset.sum_congr ?_ fun _ _ => rfl
  ext j
  simp only [Finset.mem_filter, Finset.mem_range]
  omega

end JetsonVoice.Foundation.LaneSums
