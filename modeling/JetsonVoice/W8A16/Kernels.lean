import JetsonVoice.Foundation.LaneSums
import Mathlib.Algebra.BigOperators.Ring.Finset

/-!
# The kernels of the W8A16 linear layer

Five kernels compute `C[M, N] = A[M, K] @ (W[K, N] * scales[N])`; the shapes,
the layout of the weight and two environment variables choose one of them. They
add the same products in different orders, so over exact arithmetic they agree.

## Implementation notes

Tensors are read at the flat indices of the kernels. `none` stands for a call
that returns before it writes anything. The values are those of a commutative
semiring, in which conversions between number formats change nothing.
-/

namespace JetsonVoice.W8A16

open Foundation.LaneSums

variable {R : Type*} [CommSemiring R]

/-- What the kernels read: an activation, a quantised weight and its scales. -/
structure Operands (R : Type*) where
  input : Nat → R
  weight : Nat → R
  scales : Nat → R

/-- The environment variables: the number `EDGE_LLM_W8A16_OUTPUT_TILE` is read as,
and the text of `EDGE_LLM_W8A16_HMMA`. -/
structure KernelEnv where
  outputTile : Option Int
  hmma : Option String

def KernelEnv.getOutputTileOverride (env : KernelEnv) : Nat :=
  match env.outputTile with
  | some 64 => 64
  | some 128 => 128
  | _ => 32

def KernelEnv.hmmaEnabled (env : KernelEnv) : Bool :=
  match env.hmma.bind fun value => value.toList.head? with
  | some c => c = '1' || c = 'y' || c = 'Y' || c = 't' || c = 'T'
  | none => false

def threadsPerBlock : Nat := 256

def kTile : Nat := 256

section Kernels
variable (x : Operands R) (n k : Nat)

/-- The weight `[K, N]`: strided sums of the threads, added up in shared memory. -/
def perOutputReferenceKernel (row outCol : Nat) : R :=
  treeReduce 8 (fun t => strided threadsPerBlock k t fun kk =>
    x.input (row * k + kk) * x.weight (kk * n + outCol)) 0 * x.scales outCol

/-- The weight `[N, K]`: strided sums of the threads, added up in shared memory. -/
def perOutputOutputKReferenceKernel (row outCol : Nat) : R :=
  treeReduce 8 (fun t => strided threadsPerBlock k t fun kk =>
    x.input (row * k + kk) * x.weight (outCol * k + kk)) 0 * x.scales outCol

/-- The weight `[K, N]` in tiles of `K`; each of `kThreads` lanes of an output
adds up its stride of every tile. -/
def smallMTiledKernel (outputTile row outCol : Nat) : R :=
  let kThreads := threadsPerBlock / outputTile
  (∑ kLane ∈ Finset.range kThreads, ∑ tile ∈ Finset.range (tiles kTile k),
    strided kThreads (min kTile (k - tile * kTile)) kLane fun kk =>
      x.input (row * k + (tile * kTile + kk)) * x.weight ((tile * kTile + kk) * n + outCol)) *
    x.scales outCol

/-- One row and the weight `[N, K]`: a warp adds up one output. -/
def m1OutputKKernel (outCol : Nat) : R :=
  warpReduce 32 5 (fun lane => strided 32 k lane fun kk =>
    x.input kk * x.weight (outCol * k + kk)) 0 * x.scales outCol

/-- Tiles of sixteen with zeros behind the ends; the scale is part of the weight's tile. -/
def hmmaKernel (m : Nat) (weightLayout : Int) (row outCol : Nat) : R :=
  ∑ tile ∈ Finset.range (tiles 16 k), ∑ kk ∈ Finset.range 16,
    (if row < m ∧ tile * 16 + kk < k then x.input (row * k + (tile * 16 + kk)) else 0) *
      if tile * 16 + kk < k ∧ outCol < n then
        x.weight (if weightLayout = 1 then outCol * k + (tile * 16 + kk)
          else (tile * 16 + kk) * n + outCol) * x.scales outCol
      else 0

/-- The values written to `output[row * n + outCol]`. -/
def w8a16LinearForward (env : KernelEnv) (m : Nat) (scaleMode groupSize weightLayout : Int) :
    Option (Nat → Nat → R) :=
  if m = 0 ∨ n = 0 ∨ k = 0 then none
  else if scaleMode ≠ 0 then none
  else if ¬ (groupSize = 0 ∨ groupSize = 1 ∨ groupSize = k) then none
  else if weightLayout = 1 ∧ m = 1 then some fun _ => m1OutputKKernel x k
  else if (weightLayout = 0 ∨ weightLayout = 1) ∧ 16 ≤ m ∧ env.hmmaEnabled then
    some (hmmaKernel x n k m weightLayout)
  else if weightLayout = 1 then some (perOutputOutputKReferenceKernel x k)
  else if 32 ≤ n ∧ k ≤ 8192 then
    some (
      if env.getOutputTileOverride = 128 ∧ 128 ≤ n then smallMTiledKernel x n k 128
      else if env.getOutputTileOverride = 64 ∧ 64 ≤ n then smallMTiledKernel x n k 64
      else smallMTiledKernel x n k 32)
  else some (perOutputReferenceKernel x n k)

end Kernels

section Agreement
variable {x : Operands R} {n k m row outCol : Nat}

/-- The weight of one product in the declared layout. -/
def weightIndex (weightLayout : Int) (n k kk outCol : Nat) : Nat :=
  if weightLayout = 1 then outCol * k + kk else kk * n + outCol

/-- The sum every kernel computes. -/
def product (x : Operands R) (n k : Nat) (weightLayout : Int) (row outCol : Nat) : R :=
  (∑ kk ∈ Finset.range k, x.input (row * k + kk) *
    x.weight (weightIndex weightLayout n k kk outCol)) * x.scales outCol

theorem treeReduce_strided (f : Nat → R) :
    treeReduce 8 (fun t => strided threadsPerBlock k t f) 0 = ∑ kk ∈ Finset.range k, f kk := by
  rw [treeReduce_zero]
  exact sum_strided (show 0 < 2 ^ 8 by decide) k f

theorem perOutputReferenceKernel_eq {weightLayout : Int} (hl : weightLayout ≠ 1) :
    perOutputReferenceKernel x n k row outCol = product x n k weightLayout row outCol := by
  rw [perOutputReferenceKernel, treeReduce_strided, product]
  simp only [weightIndex, if_neg hl]

theorem perOutputOutputKReferenceKernel_eq :
    perOutputOutputKReferenceKernel x k row outCol = product x n k 1 row outCol := by
  rw [perOutputOutputKReferenceKernel, treeReduce_strided, product]
  simp only [weightIndex, if_true]

theorem m1OutputKKernel_eq : m1OutputKKernel x k outCol = product x n k 1 0 outCol := by
  rw [m1OutputKKernel, warpReduce_zero (by decide)]
  change (∑ t ∈ Finset.range 32, _) * _ = _
  rw [sum_strided (by decide), product]
  simp only [weightIndex, if_true, Nat.zero_mul, Nat.zero_add]

theorem smallMTiledKernel_eq {weightLayout : Int} (hl : weightLayout ≠ 1) {outputTile : Nat}
    (ht : 0 < threadsPerBlock / outputTile) :
    smallMTiledKernel x n k outputTile row outCol = product x n k weightLayout row outCol := by
  rw [smallMTiledKernel, product, Finset.sum_comm]
  congr 1
  rw [← sum_cut_tiles (show 0 < kTile by decide) k]
  refine Finset.sum_congr rfl fun tile _ => ?_
  rw [sum_strided ht]
  simp only [weightIndex, if_neg hl]

theorem hmmaKernel_eq (weightLayout : Int) (hrow : row < m) (hcol : outCol < n) :
    hmmaKernel x n k m weightLayout row outCol = product x n k weightLayout row outCol := by
  rw [hmmaKernel, product, Finset.sum_mul, ← sum_padded_tiles (show 0 < 16 by decide) k]
  refine Finset.sum_congr rfl fun tile _ => Finset.sum_congr rfl fun kk _ => ?_
  by_cases hk : tile * 16 + kk < k
  · rw [if_pos ⟨hrow, hk⟩, if_pos ⟨hk, hcol⟩, if_pos hk, mul_assoc, weightIndex]
  · rw [if_neg (by simp [hk]), if_neg (by simp [hk]), if_neg hk, zero_mul]

/-- Whichever kernel is chosen, it writes the product of the declared layout. -/
theorem w8a16LinearForward_eq (env : KernelEnv) {scaleMode groupSize weightLayout : Int}
    (hm : 0 < m) (hn : 0 < n) (hk : 0 < k) (hs : scaleMode = 0)
    (hg : groupSize = 0 ∨ groupSize = 1 ∨ groupSize = k) :
    ∃ out, w8a16LinearForward x n k env m scaleMode groupSize weightLayout = some out ∧
      ∀ row < m, ∀ outCol < n, out row outCol = product x n k weightLayout row outCol := by
  have htiled (hl : weightLayout ≠ 1) (row outCol : Nat) :
      (if env.getOutputTileOverride = 128 ∧ 128 ≤ n then smallMTiledKernel x n k 128
      else if env.getOutputTileOverride = 64 ∧ 64 ≤ n then smallMTiledKernel x n k 64
      else smallMTiledKernel x n k 32) row outCol = product x n k weightLayout row outCol := by
    split
    · exact smallMTiledKernel_eq hl (by decide)
    · split
      · exact smallMTiledKernel_eq hl (by decide)
      · exact smallMTiledKernel_eq hl (by decide)
  rw [w8a16LinearForward, if_neg (by omega), if_neg (by simp [hs]), if_neg (by simp [hg])]
  split
  · rename_i h
    refine ⟨_, rfl, fun row hrow outCol _ => ?_⟩
    obtain rfl : row = 0 := by omega
    rw [h.1]
    exact m1OutputKKernel_eq
  · split
    · exact ⟨_, rfl, fun row hrow outCol hcol => hmmaKernel_eq weightLayout hrow hcol⟩
    · split
      · rename_i h
        refine ⟨_, rfl, fun row _ outCol _ => ?_⟩
        rw [h]
        exact perOutputOutputKReferenceKernel_eq
      · rename_i hl
        split
        · exact ⟨_, rfl, fun row _ outCol _ => htiled hl row outCol⟩
        · exact ⟨_, rfl, fun row _ outCol _ => perOutputReferenceKernel_eq hl⟩

end Agreement

end JetsonVoice.W8A16
