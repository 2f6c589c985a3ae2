import JetsonVoice.Foundation.LaneSums
import JetsonVoice.Foundation.Launch
import Mathlib.Algebra.BigOperators.Ring.Finset

/-!
# The products of the talker

`invokeGemmNTBiasAct` computes `C[M, N] = act(A[M, K] @ B[N, K]^T + bias[N])`. One
row is computed by a kernel that gives each output a warp, more rows by a kernel
with tiles of 16 in shared memory.

## Implementation notes

The numbers are those of a commutative semiring, and the activation is any function
on them. A run is defined where no `int32_t` reaches 2 ^ 31, the device takes the
grid, and every load of two halves at once is aligned; addresses are counted in
halves. An offset into a matrix is a 64-bit number in the source.
-/

namespace JetsonVoice.Tts

open Foundation Foundation.LaneSums

variable {R : Type*} [CommSemiring R]

/-- What the kernels read: the matrices, where they start in memory, the bias if
there is one, and the epilogue's activation. -/
structure GemmOperands (R : Type*) where
  a : Nat → R
  b : Nat → R
  bias : Option (Nat → R)
  act : R → R
  applySiLU : Bool
  addrA : Nat
  addrB : Nat

/-- What a thread computes in `int32_t`, where it reads, where its loads of two halves
start, and what it writes. -/
structure GemmThread (R : Type*) where
  ints : List Nat := []
  readsA : List Nat := []
  readsB : List Nat := []
  readsBias : List Nat := []
  pairLoads : List Nat := []
  writes : List (Nat × R) := []

/-- A launched kernel; `host` is what the host computed in `int32_t` for the grid. -/
structure GemmRun (R : Type*) where
  host : List Nat
  gridX : Nat
  gridY : Nat
  block : Nat
  thread : (x y t : Nat) → GemmThread R

def GemmRun.writes (run : GemmRun R) : List (Nat × R) :=
  launch run.gridX run.gridY run.block fun x y t => (run.thread x y t).writes

section Kernels
variable (x : GemmOperands R) (m n k : Nat)

/-- The bias and the activation on an accumulated sum. -/
def epilogue (col : Nat) (acc : R) : R :=
  let acc :=
    match x.bias with
    | some bias => acc + bias col
    | none => acc
  if x.applySiLU then x.act acc else acc

def biasReads (col : Nat) : List Nat := if x.bias.isSome then [col] else []

/-- An element of the tile `As` of a row: zero outside the matrix. -/
def tileA (row kA : Nat) : R := if row < m ∧ kA < k then x.a (row * k + kA) else 0

/-- An element of the tile `Bs` of a column. -/
def tileB (col kB : Nat) : R := if col < n ∧ kB < k then x.b (col * k + kB) else 0

/-- What the tiled kernel accumulates: the threads of a row share its `As`, those of a
column its `Bs`. -/
def tiledSum (row col : Nat) : R :=
  ∑ t ∈ Finset.range (tiles 16 k), ∑ i ∈ Finset.range 16,
    tileA x m k row (t * 16 + i) * tileB x n k col (t * 16 + i)

/-- `gemmNTBiasActKernel<16>`; the thread `(threadIdx.y, threadIdx.x)` is `t`. -/
def gemmNTBiasActKernel (blockX blockY t : Nat) : GemmThread R :=
  let row := blockY * 16 + t / 16
  let col := blockX * 16 + t % 16
  let starts := (List.range (tiles 16 k)).map (· * 16)
  { ints := [row, col, k + 16] ++
      starts.flatMap fun start => [start, start + t % 16, start + t / 16]
    readsA := (starts.filter fun start => decide (row < m ∧ start + t % 16 < k)).map fun start =>
      row * k + (start + t % 16)
    readsB := (starts.filter fun start => decide (col < n ∧ start + t / 16 < k)).map fun start =>
      col * k + (start + t / 16)
    readsBias := if row < m ∧ col < n then biasReads x col else []
    writes := if row < m ∧ col < n then
      [(row * n + col, epilogue x col (tiledSum x m n k row col))] else [] }

/-- What a warp accumulates for a column: pairs of products when `K` is even, else one
product after the other. -/
def warpSum (col : Nat) : R :=
  warpReduce 32 5 (fun lane =>
    if k % 2 = 0 then strided 32 (k / 2) lane fun j =>
      x.a (2 * j) * x.b (col * k + 2 * j) + x.a (2 * j + 1) * x.b (col * k + (2 * j + 1))
    else strided 32 k lane fun kk => x.a kk * x.b (col * k + kk)) 0

/-- `gemvNTBiasActM1Kernel`, eight warps a block. -/
def gemvNTBiasActM1Kernel (blockX t : Nat) : GemmThread R :=
  let col := blockX * 8 + t / 32
  let lane := t % 32
  if n ≤ col then { ints := [col] }
  else
    let count := if k % 2 = 0 then k / 2 else k
    let steps := strides lane 32 count
    { ints := [col, strideEnd lane 32 count]
      readsA := if k % 2 = 0 then steps.flatMap fun j => [2 * j, 2 * j + 1] else steps
      readsB := if k % 2 = 0 then
          steps.flatMap fun j => [col * k + 2 * j, col * k + (2 * j + 1)]
        else steps.map fun kk => col * k + kk
      pairLoads := if k % 2 = 0 then
          steps.flatMap fun j => [x.addrA + 2 * j, x.addrB + (col * k + 2 * j)]
        else []
      readsBias := if lane = 0 then biasReads x col else []
      writes := if lane = 0 then [(col, epilogue x col (warpSum x k col))] else [] }

/-- `invokeGemmNTBiasAct`. -/
def invokeGemmNTBiasAct : GemmRun R :=
  if m = 1 then
    ⟨[n + 8, n + 7], (n + 7) / 8, 1, 256, fun b _ t => gemvNTBiasActM1Kernel x n k b t⟩
  else
    ⟨[n + 16, n + 15, m + 16, m + 15], (n + 15) / 16, (m + 15) / 16, 16 * 16,
      gemmNTBiasActKernel x m n k⟩

end Kernels

/-- Nothing overflows, the device takes the grid, and the loads of pairs are aligned. -/
structure GemmRun.Defined (run : GemmRun R) : Prop where
  host : ∀ v ∈ run.host, v < 2 ^ 31
  grid : Launchable run.gridX run.gridY
  threads : ∀ y < run.gridY, ∀ b < run.gridX, ∀ t < run.block,
    (∀ v ∈ (run.thread b y t).ints, v < 2 ^ 31) ∧
      ∀ address ∈ (run.thread b y t).pairLoads, address % 2 = 0

/-- The value of an element of `C`. -/
def gemmValue (x : GemmOperands R) (k row col : Nat) : R :=
  epilogue x col (∑ kk ∈ Finset.range k, x.a (row * k + kk) * x.b (col * k + kk))

/-- What a run is for: every element of `C` once, with its value, which is that of the
tiled kernel, and no read outside `A`, `B` and the bias. -/
structure GemmRun.Computes (x : GemmOperands R) (m n k : Nat) (run : GemmRun R) : Prop where
  defined : run.Defined
  inside : ∀ y < run.gridY, ∀ b < run.gridX, ∀ t < run.block,
    (∀ i ∈ (run.thread b y t).readsA, i < m * k) ∧ (∀ i ∈ (run.thread b y t).readsB, i < n * k) ∧
      ∀ i ∈ (run.thread b y t).readsBias, i < n ∧ x.bias.isSome = true
  once : (run.writes.map Prod.fst).Perm (List.range (m * n))
  values : ∀ row < m, ∀ col < n, (row * n + col, gemmValue x k row col) ∈ run.writes
  asTiled : ∀ row < m, ∀ col < n,
    (row * n + col, epilogue x col (tiledSum x m n k row col)) ∈ run.writes

/-- The sizes and addresses at which the kernel that is launched is defined. -/
def GemmFits (x : GemmOperands R) (m n k : Nat) : Prop :=
  if m = 1 then n + 8 < 2 ^ 31 ∧
    if k % 2 = 0 then x.addrA % 2 = 0 ∧ x.addrB % 2 = 0 else k + 31 < 2 ^ 31
  else n + 16 < 2 ^ 31 ∧ (m + 15) / 16 < 2 ^ 16 ∧ k + 16 < 2 ^ 31

section Values
variable {x : GemmOperands R} {m n k row col : Nat}

theorem tiledSum_eq (hr : row < m) (hc : col < n) : tiledSum x m n k row col =
    ∑ kk ∈ Finset.range k, x.a (row * k + kk) * x.b (col * k + kk) := by
  rw [tiledSum, ← sum_padded_tiles (show 0 < 16 by decide) k]
  refine Finset.sum_congr rfl fun t _ => Finset.sum_congr rfl fun i _ => ?_
  by_cases hk : t * 16 + i < k
  · rw [tileA, tileB, if_pos ⟨hr, hk⟩, if_pos ⟨hc, hk⟩, if_pos hk]
  · rw [tileA, if_neg (fun h => hk h.2), if_neg hk, zero_mul]

/-- The pairs of an even range cover it. -/
theorem sum_pairs (hk : k % 2 = 0) (f : Nat → R) :
    ∑ j ∈ Finset.range (k / 2), (f (2 * j) + f (2 * j + 1)) = ∑ kk ∈ Finset.range k, f kk := by
  have hdouble : k / 2 * 2 = k := Nat.div_mul_cancel (Nat.dvd_of_mod_eq_zero hk)
  have htiles := sum_tiles 2 (k / 2) f
  rw [hdouble] at htiles
  rw [← htiles]
  refine Finset.sum_congr rfl fun j _ => ?_
  rw [Finset.sum_range_succ, Finset.sum_range_one, Nat.mul_comm j 2]
  rfl

theorem warpSum_eq : warpSum x k col =
    ∑ kk ∈ Finset.range k, x.a kk * x.b (col * k + kk) := by
  rw [warpSum, warpReduce_zero (by decide)]
  change ∑ t ∈ Finset.range 32, _ = _
  by_cases hk : k % 2 = 0
  · simp only [if_pos hk]
    rw [sum_strided (by decide), sum_pairs hk fun kk => x.a kk * x.b (col * k + kk)]
  · simp only [if_neg hk]
    rw [sum_strided (by decide)]

end Values

section Tiled
variable {x : GemmOperands R} {m n k : Nat}

theorem tiled_owns : CellOwners ((n + 15) / 16) ((m + 15) / 16) (16 * 16) m n
    (fun b y t => (gemmNTBiasActKernel x m n k b y t).writes)
    (fun row col => epilogue x col (tiledSum x m n k row col))
    (fun _ col => col / 16) (fun row _ => row / 16) (fun row col => row % 16 * 16 + col % 16) where
  sound y _ b _ t ht w hw := by
    simp only [gemmNTBiasActKernel] at hw
    split at hw
    · rename_i h
      obtain rfl := List.mem_singleton.mp hw
      exact ⟨_, h.1, _, h.2, rfl, by omega, by omega, by omega⟩
    · cases hw
  complete row hr col hc := by
    have hrow : row / 16 * 16 + (row % 16 * 16 + col % 16) / 16 = row := by omega
    have hcol : col / 16 * 16 + (row % 16 * 16 + col % 16) % 16 = col := by omega
    refine ⟨by omega, by omega, by omega, ?_⟩
    simp only [gemmNTBiasActKernel, hrow, hcol, if_pos (And.intro hr hc)]
    exact List.mem_singleton_self _
  nodup y _ b _ t _ := by
    simp only [gemmNTBiasActKernel]
    split <;> simp

omit [CommSemiring R] in
theorem mem_biasReads {col i : Nat} (hc : col < n) (hi : i ∈ biasReads x col) :
    i < n ∧ x.bias.isSome = true := by
  rw [biasReads] at hi
  split at hi
  · rename_i h
    rw [List.mem_singleton.mp hi]
    exact ⟨hc, h⟩
  · cases hi

theorem tiled_inside (b y t : Nat) :
    (∀ i ∈ (gemmNTBiasActKernel x m n k b y t).readsA, i < m * k) ∧
    (∀ i ∈ (gemmNTBiasActKernel x m n k b y t).readsB, i < n * k) ∧
    ∀ i ∈ (gemmNTBiasActKernel x m n k b y t).readsBias, i < n ∧ x.bias.isSome = true := by
  refine ⟨fun i hi => ?_, fun i hi => ?_, fun i hi => ?_⟩
  · obtain ⟨start, hstart, rfl⟩ := List.mem_map.mp hi
    have hin := of_decide_eq_true (List.mem_filter.mp hstart).2
    exact flat_lt hin.1 hin.2
  · obtain ⟨start, hstart, rfl⟩ := List.mem_map.mp hi
    have hin := of_decide_eq_true (List.mem_filter.mp hstart).2
    exact flat_lt hin.1 hin.2
  · simp only [gemmNTBiasActKernel] at hi
    split at hi
    · rename_i h
      exact mem_biasReads h.2 hi
    · cases hi

/-- The run of the tiled kernel. -/
def tiledRun (x : GemmOperands R) (m n k : Nat) : GemmRun R :=
  ⟨[n + 16, n + 15, m + 16, m + 15], (n + 15) / 16, (m + 15) / 16, 16 * 16,
    gemmNTBiasActKernel x m n k⟩

theorem tiled_defined_iff (hm : 0 < m) (hn : 0 < n) : (tiledRun x m n k).Defined ↔
    n + 16 < 2 ^ 31 ∧ (m + 15) / 16 < 2 ^ 16 ∧ k + 16 < 2 ^ 31 := by
  constructor
  · rintro ⟨hhost, hgrid, hthreads⟩
    have hints := (hthreads 0 (show 0 < (m + 15) / 16 by omega) 0
      (show 0 < (n + 15) / 16 by omega) 0 (show 0 < 16 * 16 by decide)).1
    exact ⟨hhost _ (by simp [tiledRun]), hgrid.2.2,
      hints (k + 16) (by simp [tiledRun, gemmNTBiasActKernel])⟩
  · rintro ⟨hn', hm', hk'⟩
    refine ⟨fun v hv => ?_, ⟨⟨?_, ?_⟩, ?_, hm'⟩, fun y hy b hb t ht => ⟨fun v hv => ?_, ?_⟩⟩
    · simp only [tiledRun, List.mem_cons, List.not_mem_nil, or_false] at hv
      rcases hv with rfl | rfl | rfl | rfl <;> omega
    · change 0 < (n + 15) / 16
      omega
    · change (n + 15) / 16 < 2 ^ 31
      omega
    · change 0 < (m + 15) / 16
      omega
    · have hy : y < (m + 15) / 16 := hy
      have hb : b < (n + 15) / 16 := hb
      have ht : t < 16 * 16 := ht
      simp only [tiledRun, gemmNTBiasActKernel, List.mem_append, List.mem_cons, List.not_mem_nil,
        or_false, List.mem_flatMap, List.mem_map, List.mem_range] at hv
      rcases hv with (rfl | rfl | rfl) | ⟨_, ⟨tile, htile, rfl⟩, rfl | rfl | rfl⟩
      · omega
      · omega
      · omega
      all_goals
        rw [tiles] at htile
        omega
    · intro address haddress
      cases haddress

end Tiled

section Rows
variable {x : GemmOperands R} {n k : Nat}

theorem gemv_of_le {b t : Nat} (hc : n ≤ b * 8 + t / 32) :
    gemvNTBiasActM1Kernel x n k b t = { ints := [b * 8 + t / 32] } :=
  if_pos hc

theorem writes_gemv {b t : Nat} (hc : b * 8 + t / 32 < n) :
    (gemvNTBiasActM1Kernel x n k b t).writes = if t % 32 = 0 then
      [(b * 8 + t / 32, epilogue x (b * 8 + t / 32) (warpSum x k (b * 8 + t / 32)))] else [] := by
  rw [gemvNTBiasActM1Kernel, if_neg (Nat.not_le.mpr hc)]

theorem gemv_owns : CellOwners ((n + 7) / 8) 1 256 1 n
    (fun b _ t => (gemvNTBiasActM1Kernel x n k b t).writes)
    (fun _ col => epilogue x col (warpSum x k col))
    (fun _ col => col / 8) (fun row _ => row) (fun _ col => col % 8 * 32) where
  sound y hy b _ t ht w hw := by
    by_cases hc : b * 8 + t / 32 < n
    · simp only [writes_gemv hc] at hw
      split at hw
      · obtain rfl := List.mem_singleton.mp hw
        exact ⟨0, Nat.one_pos, _, hc, by simp, by omega, by omega, by omega⟩
      · cases hw
    · simp [gemv_of_le (Nat.le_of_not_lt hc)] at hw
  complete row hr col hc := by
    have hcol : col / 8 * 8 + col % 8 * 32 / 32 = col := by omega
    have hlane : col % 8 * 32 % 32 = 0 := by omega
    refine ⟨by omega, hr, by omega, ?_⟩
    obtain rfl : row = 0 := by omega
    simp only [writes_gemv (hcol.symm ▸ hc), hcol, hlane, if_true, Nat.zero_mul, Nat.zero_add]
    exact List.mem_singleton_self _
  nodup y _ b _ t _ := by
    by_cases hc : b * 8 + t / 32 < n
    · simp only [writes_gemv hc]
      split <;> simp
    · simp [gemv_of_le (Nat.le_of_not_lt hc)]

theorem readsA_gemv_lt {b t i : Nat} (hi : i ∈ (gemvNTBiasActM1Kernel x n k b t).readsA) :
    i < k := by
  have hstep {count j : Nat} (hj : j ∈ strides (t % 32) 32 count) : j < count :=
    ((mem_strides (by decide)).mp hj).2.1
  by_cases hc : b * 8 + t / 32 < n
  · rw [gemvNTBiasActM1Kernel, if_neg (Nat.not_le.mpr hc)] at hi
    by_cases hk : k % 2 = 0
    · simp only [if_pos hk, List.mem_flatMap, List.mem_cons, List.not_mem_nil, or_false] at hi
      obtain ⟨j, hj, rfl | rfl⟩ := hi
      all_goals
        have := hstep hj
        omega
    · simp only [if_neg hk] at hi
      exact hstep hi
  · simp [gemv_of_le (Nat.le_of_not_lt hc)] at hi

/-- What is read of `A` is read of the row of `B`, too. -/
theorem readsB_gemv (b t : Nat) : (gemvNTBiasActM1Kernel x n k b t).readsB =
    (gemvNTBiasActM1Kernel x n k b t).readsA.map ((b * 8 + t / 32) * k + ·) := by
  by_cases hc : b * 8 + t / 32 < n
  · rw [gemvNTBiasActM1Kernel, if_neg (Nat.not_le.mpr hc)]
    by_cases hk : k % 2 = 0
    · simp only [if_pos hk, List.map_flatMap, List.map_cons, List.map_nil]
    · simp only [if_neg hk]
  · rw [gemv_of_le (Nat.le_of_not_lt hc), List.map_nil]

theorem gemv_inside (b t : Nat) :
    (∀ i ∈ (gemvNTBiasActM1Kernel x n k b t).readsA, i < 1 * k) ∧
    (∀ i ∈ (gemvNTBiasActM1Kernel x n k b t).readsB, i < n * k) ∧
    ∀ i ∈ (gemvNTBiasActM1Kernel x n k b t).readsBias, i < n ∧ x.bias.isSome = true := by
  by_cases hc : b * 8 + t / 32 < n
  · refine ⟨fun i hi => ?_, fun i hi => ?_, fun i hi => ?_⟩
    · rw [Nat.one_mul]
      exact readsA_gemv_lt hi
    · rw [readsB_gemv] at hi
      obtain ⟨kk, hkk, rfl⟩ := List.mem_map.mp hi
      exact flat_lt hc (readsA_gemv_lt hkk)
    · rw [gemvNTBiasActM1Kernel, if_neg (Nat.not_le.mpr hc)] at hi
      simp only at hi
      split at hi
      · exact mem_biasReads hc hi
      · cases hi
  · simp [gemv_of_le (Nat.le_of_not_lt hc)]

/-- The run of the kernel for one row. -/
def gemvRun (x : GemmOperands R) (n k : Nat) : GemmRun R :=
  ⟨[n + 8, n + 7], (n + 7) / 8, 1, 256, fun b _ t => gemvNTBiasActM1Kernel x n k b t⟩

theorem ints_gemv {b t : Nat} (hc : b * 8 + t / 32 < n) :
    (gemvNTBiasActM1Kernel x n k b t).ints =
      [b * 8 + t / 32, strideEnd (t % 32) 32 (if k % 2 = 0 then k / 2 else k)] := by
  rw [gemvNTBiasActM1Kernel, if_neg (Nat.not_le.mpr hc)]

theorem pairLoads_gemv {b t : Nat} (hc : b * 8 + t / 32 < n) (hk : k % 2 = 0) :
    (gemvNTBiasActM1Kernel x n k b t).pairLoads = (strides (t % 32) 32 (k / 2)).flatMap fun j =>
      [x.addrA + 2 * j, x.addrB + ((b * 8 + t / 32) * k + 2 * j)] := by
  rw [gemvNTBiasActM1Kernel, if_neg (Nat.not_le.mpr hc)]
  simp only [if_pos hk]

theorem pairLoads_gemv_odd {b t : Nat} (hk : ¬ k % 2 = 0) :
    (gemvNTBiasActM1Kernel x n k b t).pairLoads = [] := by
  rw [gemvNTBiasActM1Kernel]
  split <;> rfl

/-- With an even length, every row of `B` starts where `B` does, up to alignment. -/
theorem aligned_row {addr k row j : Nat} (hk : k % 2 = 0) (haddr : addr % 2 = 0) :
    (addr + (row * k + 2 * j)) % 2 = 0 := by
  have hrow : row * k % 2 = 0 := by rw [Nat.mul_mod, hk, Nat.mul_zero, Nat.zero_mod]
  omega

theorem gemv_ints_lt (hn : n + 8 < 2 ^ 31) (hk : k < 2 ^ 31) (hk' : k % 2 = 0 ∨ k + 31 < 2 ^ 31)
    {b t : Nat} (hb : b < (n + 7) / 8) (ht : t < 256) :
    ∀ v ∈ (gemvNTBiasActM1Kernel x n k b t).ints, v < 2 ^ 31 := by
  intro v hv
  by_cases hc : b * 8 + t / 32 < n
  · simp only [ints_gemv hc, List.mem_cons, List.not_mem_nil, or_false] at hv
    have hstop := strideEnd_le (t % 32) (if k % 2 = 0 then k / 2 else k) (show 0 < 32 by decide)
    rcases hv with rfl | rfl
    · omega
    · by_cases heven : k % 2 = 0
      · rw [if_pos heven] at hstop ⊢
        omega
      · rw [if_neg heven] at hstop ⊢
        omega
  · simp only [gemv_of_le (Nat.le_of_not_lt hc), List.mem_singleton] at hv
    omega

theorem gemv_loads_aligned (haddr : k % 2 = 0 → x.addrA % 2 = 0 ∧ x.addrB % 2 = 0) (b t : Nat) :
    ∀ address ∈ (gemvNTBiasActM1Kernel x n k b t).pairLoads, address % 2 = 0 := by
  intro address haddress
  by_cases hk : k % 2 = 0
  · by_cases hc : b * 8 + t / 32 < n
    · simp only [pairLoads_gemv hc hk, List.mem_flatMap, List.mem_cons, List.not_mem_nil,
        or_false] at haddress
      obtain ⟨j, -, rfl | rfl⟩ := haddress
      · rw [Nat.add_mul_mod_self_left]
        exact (haddr hk).1
      · exact aligned_row hk (haddr hk).2
    · simp [gemv_of_le (Nat.le_of_not_lt hc)] at haddress
  · simp [pairLoads_gemv_odd hk] at haddress

/-- The first warp loads the first pairs of both matrices, and one of its threads ends its
scan the furthest behind the row. -/
theorem gemv_fits (hn : 0 < n) (hk : 0 < k)
    (h : ∀ t < 32, (∀ v ∈ (gemvNTBiasActM1Kernel x n k 0 t).ints, v < 2 ^ 31) ∧
      ∀ address ∈ (gemvNTBiasActM1Kernel x n k 0 t).pairLoads, address % 2 = 0) :
    if k % 2 = 0 then x.addrA % 2 = 0 ∧ x.addrB % 2 = 0 else k + 31 < 2 ^ 31 := by
  have hcol {t : Nat} (ht : t < 32) : 0 * 8 + t / 32 < n := by omega
  split
  · rename_i heven
    have hfirst : 0 ∈ strides (0 % 32) 32 (k / 2) :=
      (mem_strides (by decide)).mpr ⟨Nat.zero_le _, by omega, rfl⟩
    have hload := (h 0 (by decide)).2
    rw [pairLoads_gemv (hcol (by decide)) heven] at hload
    have ha := hload (x.addrA + 2 * 0) (List.mem_flatMap.mpr ⟨0, hfirst, by simp⟩)
    have hb := hload _ (List.mem_flatMap.mpr
      ⟨0, hfirst, List.mem_cons_of_mem _ (List.mem_singleton_self _)⟩)
    simpa using And.intro ha hb
  · rename_i hodd
    have hlast : (k - 1) % 32 < 32 := Nat.mod_lt _ (by decide)
    have hints := (h _ hlast).1
    rw [ints_gemv (hcol hlast), if_neg hodd, Nat.mod_mod] at hints
    have hend := hints _ (List.mem_cons_of_mem _ (List.mem_singleton_self _))
    rw [strideEnd_of_last (by decide) hk rfl] at hend
    omega

theorem gemv_defined_iff (hn : 0 < n) (hk : 0 < k) (hk' : k < 2 ^ 31) :
    (gemvRun x n k).Defined ↔ n + 8 < 2 ^ 31 ∧
      if k % 2 = 0 then x.addrA % 2 = 0 ∧ x.addrB % 2 = 0 else k + 31 < 2 ^ 31 := by
  constructor
  · rintro ⟨hhost, -, hthreads⟩
    exact ⟨hhost _ (by simp [gemvRun]), gemv_fits hn hk fun t ht =>
      hthreads 0 Nat.one_pos 0 (show 0 < (n + 7) / 8 by omega) t (show t < 256 by omega)⟩
  · rintro ⟨hn', hfits⟩
    refine ⟨fun v hv => ?_, ⟨⟨?_, ?_⟩, (by decide : 0 < 1 ∧ 1 < 2 ^ 16)⟩,
      fun y _ b hb t ht => ⟨gemv_ints_lt hn' hk' ?_ hb ht, gemv_loads_aligned ?_ b t⟩⟩
    · simp only [gemvRun, List.mem_cons, List.not_mem_nil, or_false] at hv
      rcases hv with rfl | rfl <;> omega
    · change 0 < (n + 7) / 8
      omega
    · change (n + 7) / 8 < 2 ^ 31
      omega
    · by_cases heven : k % 2 = 0
      · exact .inl heven
      · exact .inr (by simpa only [if_neg heven] using hfits)
    · intro heven
      simpa only [if_pos heven] using hfits

end Rows

section Agreement
variable {x : GemmOperands R} {m n k : Nat} {run : GemmRun R}

/-- A run whose threads own the outputs does its work exactly when it is defined. -/
theorem computes_iff_defined {sum : Nat → Nat → R} {b y t : Nat → Nat → Nat}
    (howns : CellOwners run.gridX run.gridY run.block m n (fun b y t => (run.thread b y t).writes)
      (fun row col => epilogue x col (sum row col)) b y t)
    (hsum : ∀ row < m, ∀ col < n,
      sum row col = ∑ kk ∈ Finset.range k, x.a (row * k + kk) * x.b (col * k + kk))
    (hin : ∀ y < run.gridY, ∀ b < run.gridX, ∀ t < run.block,
      (∀ i ∈ (run.thread b y t).readsA, i < m * k) ∧
      (∀ i ∈ (run.thread b y t).readsB, i < n * k) ∧
        ∀ i ∈ (run.thread b y t).readsBias, i < n ∧ x.bias.isSome = true) :
    run.Computes x m n k ↔ run.Defined := by
  have hmem {row col : Nat} (hr : row < m) (hc : col < n) :
      (row * n + col, epilogue x col (sum row col)) ∈ run.writes := howns.mem_launch hr hc
  refine ⟨fun h => h.defined, fun h => ⟨h, hin, howns.once, fun row hr col hc => ?_,
    fun row hr col hc => ?_⟩⟩
  · rw [gemmValue, ← hsum row hr col hc]
    exact hmem hr hc
  · rw [tiledSum_eq hr hc, ← hsum row hr col hc]
    exact hmem hr hc

/-- Whichever kernel is launched, for every size, with a bias or without and with the
activation or without, it computes every output once, as the tiled kernel does, exactly
when the sizes and the addresses fit. -/
theorem gemm_computes_iff (x : GemmOperands R) (hm : 0 < m) (hn : 0 < n)
    (hk : 0 < k ∧ k < 2 ^ 31) :
    (invokeGemmNTBiasAct x m n k).Computes x m n k ↔ GemmFits x m n k := by
  rw [invokeGemmNTBiasAct, GemmFits]
  by_cases hone : m = 1
  · subst hone
    rw [if_pos rfl, if_pos rfl]
    refine (computes_iff_defined gemv_owns (fun row hr col _ => ?_)
      fun _ _ b _ t _ => gemv_inside b t).trans (gemv_defined_iff hn hk.1 hk.2)
    obtain rfl : row = 0 := by omega
    simp only [warpSum_eq, Nat.zero_mul, Nat.zero_add]
  · rw [if_neg hone, if_neg hone]
    exact (computes_iff_defined tiled_owns (fun _ hr _ hc => tiledSum_eq hr hc)
      fun y _ b _ t _ => tiled_inside b y t).trans (tiled_defined_iff hm hn)

/-- One row of six products for three outputs, with a bias and an activation. -/
theorem gemm_computes_row :
    (invokeGemmNTBiasAct ⟨fun i => i, fun i => i + 1, some fun i => i, fun v => v * v, true, 0, 8⟩
      1 3 6).Computes
        (⟨fun i => i, fun i => i + 1, some fun i => i, fun v => v * v, true, 0, 8⟩ :
          GemmOperands Nat) 1 3 6 ↔
      GemmFits (⟨fun i => i, fun i => i + 1, some fun i => i, fun v => v * v, true, 0, 8⟩ :
        GemmOperands Nat) 1 3 6 :=
  gemm_computes_iff _ (by decide) (by decide) (by decide)

/-- More rows than a grid has places for, by tiles of 16: nothing is launched. -/
theorem rows_exceed_tiles :
    ¬ (invokeGemmNTBiasAct ⟨fun _ => 1, fun _ => 1, none, id, false, 0, 0⟩
      1048561 1 1).Computes (⟨fun _ => 1, fun _ => 1, none, id, false, 0, 0⟩ : GemmOperands Nat)
        1048561 1 1 := by
  intro h
  exact absurd h.defined.grid.2.2 (by decide)

end Agreement

end JetsonVoice.Tts
