import JetsonVoice.Foundation.Launch
import JetsonVoice.W8A16.Kernels

/-!
# The threads of the W8A16 kernels

What every thread of the selected kernel reads and writes, and the values of its
index arithmetic, which the source holds in `int`.

## Implementation notes

A value of 2 ^ 31 or more overflows, and a launch on a grid the device does not
take writes nothing: a run is defined where neither happens. The values written
are the sums of the kernels over exact arithmetic.
-/

namespace JetsonVoice.W8A16

open Foundation Foundation.LaneSums

variable {R : Type*} [CommSemiring R]

/-- What a thread computes in `int`, where it reads, and what it writes. -/
structure Thread (R : Type*) where
  ints : List Nat := []
  inputs : List Nat := []
  weights : List Nat := []
  scales : List Nat := []
  writes : List (Nat × R) := []

/-- A launched kernel; `host` is what the host computed in `int` for the grid. -/
structure KernelRun (R : Type*) where
  host : List Nat
  gridX : Nat
  gridY : Nat
  block : Nat
  thread : (x y t : Nat) → Thread R

def KernelRun.writes (run : KernelRun R) : List (Nat × R) :=
  launch run.gridX run.gridY run.block fun x y t => (run.thread x y t).writes

section Kernels
variable (x : Operands R) (m n k : Nat)

/-- A thread of the reference kernels: they differ in the index of a weight, in the numbers
computed for it before and inside the loop, and in the sum. -/
def perOutputThread (weightIdx : Nat → Nat) (before : List Nat) (inside : Nat → List Nat)
    (value : R) (outCol row t : Nat) : Thread R :=
  if n ≤ outCol ∨ m ≤ row then {}
  else
    let kks := strides t threadsPerBlock k
    { ints := row * k :: strideEnd t threadsPerBlock k :: before ++
        kks.flatMap (fun kk => (row * k + kk) :: inside kk) ++
        if t = 0 then [row * n, row * n + outCol] else []
      inputs := kks.map fun kk => row * k + kk
      weights := kks.map weightIdx
      scales := if t = 0 then [outCol] else []
      writes := if t = 0 then [(row * n + outCol, value)] else [] }

/-- `w8a16_per_output_reference_kernel`. -/
def perOutputReferenceThread (outCol row t : Nat) : Thread R :=
  perOutputThread m n k (fun kk => kk * n + outCol) [] (fun kk => [kk * n, kk * n + outCol])
    (perOutputReferenceKernel x n k row outCol) outCol row t

/-- `w8a16_per_output_output_k_reference_kernel`. -/
def perOutputOutputKReferenceThread (outCol row t : Nat) : Thread R :=
  perOutputThread m n k (fun kk => outCol * k + kk) [outCol * k] (fun kk => [outCol * k + kk])
    (perOutputOutputKReferenceKernel x k row outCol) outCol row t

/-- `w8a16_small_m_tiled_kernel`. -/
def smallMTiledThread (outputTile blockX row t : Nat) : Thread R :=
  let kThreads := threadsPerBlock / outputTile
  let colLocal := t % outputTile
  let kLane := t / outputTile
  let outCol := blockX * outputTile + colLocal
  if m ≤ row then { ints := [blockX * outputTile, outCol] }
  else
    let kBases := strides 0 kTile k
    let copied (kBase : Nat) : List Nat := strides t threadsPerBlock (min kTile (k - kBase))
    let summed (kBase : Nat) : List Nat :=
      if outCol < n then strides kLane kThreads (min kTile (k - kBase)) else []
    { ints := [blockX * outputTile, outCol, row * k, strideEnd 0 kTile k] ++
        kBases.flatMap (fun kBase =>
          [row * k + kBase, strideEnd t threadsPerBlock (min kTile (k - kBase)),
            strideEnd kLane kThreads (min kTile (k - kBase))] ++
          (copied kBase).map (fun i => row * k + kBase + i) ++
          (summed kBase).flatMap fun kk =>
            [kBase + kk, (kBase + kk) * n, (kBase + kk) * n + outCol]) ++
        if kLane = 0 ∧ outCol < n then [row * n, row * n + outCol] else []
      inputs := kBases.flatMap fun kBase => (copied kBase).map fun i => row * k + kBase + i
      weights := kBases.flatMap fun kBase =>
        (summed kBase).map fun kk => (kBase + kk) * n + outCol
      scales := if kLane = 0 ∧ outCol < n then [outCol] else []
      writes := if kLane = 0 ∧ outCol < n then
        [(row * n + outCol, smallMTiledKernel x n k outputTile row outCol)] else [] }

/-- `w8a16_m1_output_k_kernel`. -/
def m1OutputKThread (blockX t : Nat) : Thread R :=
  let lane := t % 32
  let outCol := blockX * 8 + t / 32
  if n ≤ outCol then { ints := [blockX * 8, outCol] }
  else
    let kks := strides lane 32 k
    { ints := blockX * 8 :: outCol :: outCol * k :: strideEnd lane 32 k ::
        kks.map fun kk => outCol * k + kk
      inputs := kks
      weights := kks.map fun kk => outCol * k + kk
      scales := if lane = 0 then [outCol] else []
      writes := if lane = 0 then [(outCol, m1OutputKKernel x k outCol)] else [] }

/-- The cells of a tile of sixteen that a lane handles, where they are inside the matrix. -/
def tileCells (lane top left rows cols : Nat) : List (Nat × Nat) :=
  ((strides lane 32 (16 * 16)).map fun idx => (top + idx / 16, left + idx % 16)).filter fun cell =>
    decide (cell.1 < rows ∧ cell.2 < cols)

/-- `w8a16_hmma_m16n16k16_kernel`. -/
def hmmaThread (weightLayout : Int) (blockX blockY lane : Nat) : Thread R :=
  let tileN := blockX * 16
  let tileM := blockY * 16
  let kBases := strides 0 16 k
  let cells := strides lane 32 (16 * 16)
  { ints := [tileN, tileM, strideEnd 0 16 k] ++
      cells.flatMap (fun idx => [tileM + idx / 16, tileN + idx % 16]) ++
      kBases.flatMap (fun kBase =>
        cells.flatMap (fun idx => [kBase + idx % 16, kBase + idx / 16]) ++
        (tileCells lane tileM kBase m k).flatMap (fun cell =>
          [cell.1 * k, cell.1 * k + cell.2]) ++
        (tileCells lane kBase tileN k n).flatMap fun cell =>
          if weightLayout = 1 then [cell.2 * k, cell.2 * k + cell.1]
          else [cell.1 * n, cell.1 * n + cell.2]) ++
      (tileCells lane tileM tileN m n).flatMap fun cell => [cell.1 * n, cell.1 * n + cell.2]
    inputs := kBases.flatMap fun kBase =>
      (tileCells lane tileM kBase m k).map fun cell => cell.1 * k + cell.2
    weights := kBases.flatMap fun kBase =>
      (tileCells lane kBase tileN k n).map fun cell => weightIndex weightLayout n k cell.1 cell.2
    scales := kBases.flatMap fun kBase => (tileCells lane kBase tileN k n).map Prod.snd
    writes := (tileCells lane tileM tileN m n).map fun cell =>
      (cell.1 * n + cell.2, hmmaKernel x n k m weightLayout cell.1 cell.2) }

/-- `w8a16_linear_forward`: the kernel it launches, and its grid. -/
def w8a16LinearRun (env : KernelEnv) (scaleMode groupSize weightLayout : Int) :
    Option (KernelRun R) :=
  if m = 0 ∨ n = 0 ∨ k = 0 then none
  else if scaleMode ≠ 0 then none
  else if ¬ (groupSize = 0 ∨ groupSize = 1 ∨ groupSize = k) then none
  else if weightLayout = 1 ∧ m = 1 then
    some ⟨[n + 7], (n + 7) / 8, 1, threadsPerBlock, fun b _ t => m1OutputKThread x n k b t⟩
  else if (weightLayout = 0 ∨ weightLayout = 1) ∧ 16 ≤ m ∧ env.hmmaEnabled then
    some ⟨[n + 15, m + 15], (n + 15) / 16, (m + 15) / 16, 32, hmmaThread x m n k weightLayout⟩
  else if weightLayout = 1 then
    some ⟨[], n, m, threadsPerBlock, perOutputOutputKReferenceThread x m n k⟩
  else if 32 ≤ n ∧ k ≤ 8192 then
    some (
      if env.getOutputTileOverride = 128 ∧ 128 ≤ n then
        ⟨[n + 127], (n + 127) / 128, m, threadsPerBlock, smallMTiledThread x m n k 128⟩
      else if env.getOutputTileOverride = 64 ∧ 64 ≤ n then
        ⟨[n + 63], (n + 63) / 64, m, threadsPerBlock, smallMTiledThread x m n k 64⟩
      else ⟨[n + 31], (n + 31) / 32, m, threadsPerBlock, smallMTiledThread x m n k 32⟩)
  else some ⟨[], n, m, threadsPerBlock, perOutputReferenceThread x m n k⟩

end Kernels

/-- Nothing overflows, and the device takes the grid. -/
structure KernelRun.Defined (run : KernelRun R) : Prop where
  host : ∀ v ∈ run.host, v < 2 ^ 31
  grid : Launchable run.gridX run.gridY
  threads : ∀ y < run.gridY, ∀ b < run.gridX, ∀ t < run.block,
    ∀ v ∈ (run.thread b y t).ints, v < 2 ^ 31

/-- The sum of the reference kernel of a layout. -/
def referenceKernel (x : Operands R) (n k : Nat) (weightLayout : Int) (row outCol : Nat) : R :=
  if weightLayout = 1 then perOutputOutputKReferenceKernel x k row outCol
  else perOutputReferenceKernel x n k row outCol

/-- What a run is for: every output once, as the sum the layout says, reading inside. -/
structure KernelRun.Computes (x : Operands R) (m n k : Nat) (weightLayout : Int)
    (run : KernelRun R) : Prop where
  defined : run.Defined
  inside : ∀ y < run.gridY, ∀ b < run.gridX, ∀ t < run.block,
    (∀ i ∈ (run.thread b y t).inputs, i < m * k) ∧
      (∀ i ∈ (run.thread b y t).weights, i < n * k) ∧ ∀ i ∈ (run.thread b y t).scales, i < n
  once : (run.writes.map Prod.fst).Perm (List.range (m * n))
  values : ∀ row < m, ∀ outCol < n,
    (row * n + outCol, product x n k weightLayout row outCol) ∈ run.writes
  agrees : ∀ row < m, ∀ outCol < n,
    (row * n + outCol, referenceKernel x n k weightLayout row outCol) ∈ run.writes

section Writes
variable {R : Type*} {run : KernelRun R} {m n k : Nat} {value : Nat → Nat → R}

/-- Every output has one thread that writes it, and writes it once. -/
structure Owned (run : KernelRun R) (m n : Nat) (value : Nat → Nat → R)
    (b y t : Nat → Nat → Nat) : Prop where
  sound : ∀ j < run.gridY, ∀ i < run.gridX, ∀ l < run.block,
    ∀ w ∈ (run.thread i j l).writes, ∃ row < m, ∃ outCol < n,
      w = (row * n + outCol, value row outCol) ∧
        b row outCol = i ∧ y row outCol = j ∧ t row outCol = l
  complete : ∀ row < m, ∀ outCol < n, b row outCol < run.gridX ∧ y row outCol < run.gridY ∧
    t row outCol < run.block ∧ (row * n + outCol, value row outCol) ∈
      (run.thread (b row outCol) (y row outCol) (t row outCol)).writes
  nodup : ∀ j < run.gridY, ∀ i < run.gridX, ∀ l < run.block,
    ((run.thread i j l).writes.map Prod.fst).Nodup

theorem Owned.owns {b y t : Nat → Nat → Nat} (h : Owned run m n value b y t) :
    CellOwners run.gridX run.gridY run.block m n (fun x y t => (run.thread x y t).writes) value
      b y t :=
  ⟨h.sound, h.complete, h.nodup⟩

theorem Owned.mem_writes {b y t : Nat → Nat → Nat} (h : Owned run m n value b y t)
    {row outCol : Nat} (hr : row < m) (hc : outCol < n) :
    (row * n + outCol, value row outCol) ∈ run.writes :=
  h.owns.mem_launch hr hc

theorem Owned.once {b y t : Nat → Nat → Nat} (h : Owned run m n value b y t) :
    (run.writes.map Prod.fst).Perm (List.range (m * n)) :=
  h.owns.once

end Writes

/-- The last element of a row-major matrix. -/
theorem last_flat {rows cols : Nat} (hr : 0 < rows) (hc : 0 < cols) :
    (rows - 1) * cols + (cols - 1) + 1 = rows * cols := by
  obtain ⟨rows, rfl⟩ := Nat.exists_eq_add_of_lt hr
  simp only [Nat.zero_add, Nat.add_sub_cancel, Nat.succ_mul]
  omega

section Kernels
variable {x : Operands R} {m n k : Nat} {weightLayout : Int} {run : KernelRun R}

theorem referenceKernel_eq (row outCol : Nat) :
    referenceKernel x n k weightLayout row outCol = product x n k weightLayout row outCol := by
  rw [referenceKernel]
  split
  · rename_i h
    rw [h]
    exact perOutputOutputKReferenceKernel_eq
  · rename_i h
    exact perOutputReferenceKernel_eq h

theorem computes_of_owned {value b y t : Nat → Nat → _} (hdef : run.Defined)
    (hin : ∀ y < run.gridY, ∀ b < run.gridX, ∀ t < run.block,
      (∀ i ∈ (run.thread b y t).inputs, i < m * k) ∧
        (∀ i ∈ (run.thread b y t).weights, i < n * k) ∧ ∀ i ∈ (run.thread b y t).scales, i < n)
    (howned : Owned run m n value b y t)
    (hvalue : ∀ row < m, ∀ outCol < n,
      value row outCol = product x n k weightLayout row outCol) :
    run.Computes x m n k weightLayout where
  defined := hdef
  inside := hin
  once := howned.once
  values row hr outCol hc := hvalue row hr outCol hc ▸ howned.mem_writes hr hc
  agrees row hr outCol hc := by
    rw [referenceKernel_eq]
    exact hvalue row hr outCol hc ▸ howned.mem_writes hr hc

section Reference
variable {R : Type*} {weightIdx : Nat → Nat → Nat} {before : Nat → List Nat}
  {inside : Nat → Nat → List Nat} {value : Nat → Nat → R}

/-- The run of a reference kernel. -/
def perOutputRun (m n k : Nat) (weightIdx : Nat → Nat → Nat) (before : Nat → List Nat)
    (inside : Nat → Nat → List Nat) (value : Nat → Nat → R) : KernelRun R :=
  ⟨[], n, m, threadsPerBlock, fun outCol row t =>
    perOutputThread m n k (weightIdx outCol) (before outCol) (inside outCol) (value row outCol)
      outCol row t⟩

theorem perOutputThread_of_lt {outCol row : Nat} (hc : outCol < n) (hr : row < m) (idx : Nat → Nat)
    (bef : List Nat) (ins : Nat → List Nat) (v : R) (t : Nat) :
    perOutputThread m n k idx bef ins v outCol row t =
      { ints := row * k :: strideEnd t threadsPerBlock k :: bef ++
          (strides t threadsPerBlock k).flatMap (fun kk => (row * k + kk) :: ins kk) ++
          if t = 0 then [row * n, row * n + outCol] else []
        inputs := (strides t threadsPerBlock k).map fun kk => row * k + kk
        weights := (strides t threadsPerBlock k).map idx
        scales := if t = 0 then [outCol] else []
        writes := if t = 0 then [(row * n + outCol, v)] else [] } :=
  if_neg (by omega)

theorem perOutput_owned : Owned (perOutputRun m n k weightIdx before inside value) m n value
    (fun _ outCol => outCol) (fun row _ => row) (fun _ _ => 0) where
  sound row hr outCol hc t ht w hw := by
    have hr : row < m := hr
    have hc : outCol < n := hc
    simp only [perOutputRun, perOutputThread_of_lt hc hr] at hw
    split at hw
    · rename_i h0
      obtain rfl := List.mem_singleton.mp hw
      exact ⟨row, hr, outCol, hc, rfl, rfl, rfl, h0.symm⟩
    · cases hw
  complete row hr outCol hc := by
    refine ⟨hc, hr, (by decide : 0 < threadsPerBlock), ?_⟩
    simp only [perOutputRun, perOutputThread_of_lt hc hr, if_true]
    exact List.mem_singleton_self _
  nodup row hr outCol hc t ht := by
    have hr : row < m := hr
    have hc : outCol < n := hc
    simp only [perOutputRun, perOutputThread_of_lt hc hr]
    split <;> simp

theorem perOutput_inside (hidx : ∀ outCol < n, ∀ kk < k, weightIdx outCol kk < n * k) {row : Nat}
    (hr : row < m) {outCol : Nat} (hc : outCol < n) (t : Nat) :
    (∀ i ∈ ((perOutputRun m n k weightIdx before inside value).thread outCol row t).inputs,
      i < m * k) ∧
    (∀ i ∈ ((perOutputRun m n k weightIdx before inside value).thread outCol row t).weights,
      i < n * k) ∧
    ∀ i ∈ ((perOutputRun m n k weightIdx before inside value).thread outCol row t).scales,
      i < n := by
  have hkk {kk : Nat} (h : kk ∈ strides t threadsPerBlock k) : kk < k :=
    ((mem_strides (by decide)).mp h).2.1
  simp only [perOutputRun, perOutputThread_of_lt hc hr]
  refine ⟨fun i hi => ?_, fun i hi => ?_, fun i hi => ?_⟩
  · obtain ⟨kk, h, rfl⟩ := List.mem_map.mp hi
    exact flat_lt hr (hkk h)
  · obtain ⟨kk, h, rfl⟩ := List.mem_map.mp hi
    exact hidx outCol hc kk (hkk h)
  · split at hi
    · rwa [List.mem_singleton.mp hi]
    · cases hi

/-- When the index arithmetic of a reference kernel fits. -/
theorem perOutput_defined_iff (hm : 0 < m) (hn : 0 < n) (hk : 0 < k) (hn' : n < 2 ^ 31)
    (hweights : (∀ outCol < n, (∀ v ∈ before outCol, v < 2 ^ 31) ∧
      ∀ kk < k, ∀ v ∈ inside outCol kk, v < 2 ^ 31) ↔ n * k ≤ 2 ^ 31) :
    (perOutputRun m n k weightIdx before inside value).Defined ↔
      m < 2 ^ 16 ∧ k + 255 < 2 ^ 31 ∧ m * k ≤ 2 ^ 31 ∧ n * k ≤ 2 ^ 31 ∧ m * n ≤ 2 ^ 31 := by
  have hpos : 0 < threadsPerBlock := by decide
  have hkk {kk t : Nat} (h : kk ∈ strides t threadsPerBlock k) : kk < k :=
    ((mem_strides hpos).mp h).2.1
  have hown (kk : Nat) (h : kk < k) : kk ∈ strides (kk % threadsPerBlock) threadsPerBlock k :=
    (mem_strides hpos).mpr ⟨Nat.mod_le _ _, h, Nat.sub_mod_eq_zero_of_mod_eq (Nat.mod_mod _ _).symm⟩
  have hints {outCol row t : Nat} (hc : outCol < n) (hr : row < m) :
      ((perOutputRun m n k weightIdx before inside value).thread outCol row t).ints =
        row * k :: strideEnd t threadsPerBlock k :: before outCol ++
          (strides t threadsPerBlock k).flatMap (fun kk => (row * k + kk) :: inside outCol kk) ++
          if t = 0 then [row * n, row * n + outCol] else [] := by
    simp only [perOutputRun, perOutputThread_of_lt hc hr]
  constructor
  · rintro ⟨-, hgrid, hthreads⟩
    have hfits {outCol row t : Nat} (hc : outCol < n) (hr : row < m) (ht : t < threadsPerBlock)
        {v : Nat} (hv : v ∈ row * k :: strideEnd t threadsPerBlock k :: before outCol ++
          (strides t threadsPerBlock k).flatMap (fun kk => (row * k + kk) :: inside outCol kk) ++
          if t = 0 then [row * n, row * n + outCol] else []) : v < 2 ^ 31 :=
      hthreads row hr outCol hc t ht v (by rw [hints hc hr]; exact hv)
    have hlast : (k - 1) % threadsPerBlock < threadsPerBlock := Nat.mod_lt _ hpos
    have hend := hfits hn hm hlast (v := strideEnd ((k - 1) % threadsPerBlock) threadsPerBlock k)
      (by simp)
    rw [strideEnd_of_last hpos hk rfl] at hend
    have hblock : threadsPerBlock = 256 := rfl
    have hinput := hfits hn (show m - 1 < m by omega) hlast (v := (m - 1) * k + (k - 1)) (by
      simp only [List.mem_append, List.mem_flatMap]
      exact .inl (.inr ⟨k - 1, hown _ (by omega), List.mem_cons_self⟩))
    have houtput := hfits (show n - 1 < n by omega) (show m - 1 < m by omega) hpos
      (v := (m - 1) * n + (n - 1)) (by simp)
    have hmk := last_flat hm hk
    have hmn := last_flat hm hn
    refine ⟨hgrid.2.2, by omega, by omega, hweights.mp fun outCol hc => ⟨fun v hv => ?_,
      fun kk hlt v hv => ?_⟩, by omega⟩
    · exact hfits hc hm hpos (v := v) (by simp [hv])
    · refine hfits hc hm (Nat.mod_lt kk hpos) (v := v) ?_
      simp only [List.mem_append, List.mem_flatMap]
      exact .inl (.inr ⟨kk, hown kk hlt, List.mem_cons_of_mem _ hv⟩)
  · rintro ⟨hgrid, hend, hmk, hnk, hmn⟩
    refine ⟨by simp [perOutputRun], ⟨⟨hn, hn'⟩, hm, hgrid⟩, fun row hr outCol hc t ht v hv => ?_⟩
    have hr : row < m := hr
    have hc : outCol < n := hc
    rw [hints hc hr] at hv
    obtain ⟨hbefore, hinside⟩ := hweights.mpr hnk outCol hc
    have hrow : row * k < m * k := by
      have := flat_lt hr (show 0 < k from hk)
      omega
    have hblock : threadsPerBlock = 256 := rfl
    have ht' : t < 256 := ht
    have hstop := strideEnd_le t k hpos
    simp only [List.mem_append, List.mem_cons, List.mem_flatMap] at hv
    rcases hv with ((rfl | rfl | hv) | ⟨kk, hkk', rfl | hv⟩) | hv
    · omega
    · omega
    · exact hbefore v hv
    · have := flat_lt hr (hkk hkk')
      omega
    · exact hinside kk (hkk hkk') v hv
    · have hout := flat_lt hr hc
      split at hv
      · simp only [List.mem_cons, List.not_mem_nil, or_false] at hv
        rcases hv with rfl | rfl <;> omega
      · cases hv

end Reference

section M1

/-- The run of the kernel for one row. -/
def m1OutputKRun (x : Operands R) (n k : Nat) : KernelRun R :=
  ⟨[n + 7], (n + 7) / 8, 1, threadsPerBlock, fun b _ t => m1OutputKThread x n k b t⟩

theorem m1OutputKThread_of_lt {b t : Nat} (hc : b * 8 + t / 32 < n) : m1OutputKThread x n k b t =
    { ints := b * 8 :: (b * 8 + t / 32) :: (b * 8 + t / 32) * k :: strideEnd (t % 32) 32 k ::
        (strides (t % 32) 32 k).map fun kk => (b * 8 + t / 32) * k + kk
      inputs := strides (t % 32) 32 k
      weights := (strides (t % 32) 32 k).map fun kk => (b * 8 + t / 32) * k + kk
      scales := if t % 32 = 0 then [b * 8 + t / 32] else []
      writes := if t % 32 = 0 then
        [(b * 8 + t / 32, m1OutputKKernel x k (b * 8 + t / 32))] else [] } :=
  if_neg (by omega)

theorem m1OutputKThread_of_le {b t : Nat} (hc : n ≤ b * 8 + t / 32) :
    m1OutputKThread x n k b t = { ints := [b * 8, b * 8 + t / 32] } :=
  if_pos hc

theorem m1_owned : Owned (m1OutputKRun x n k) 1 n (fun _ outCol => m1OutputKKernel x k outCol)
    (fun _ outCol => outCol / 8) (fun row _ => row) (fun _ outCol => outCol % 8 * 32) where
  sound j hj b hb t ht w hw := by
    have hj : j < 1 := hj
    have ht : t < 256 := ht
    by_cases hc : b * 8 + t / 32 < n
    · simp only [m1OutputKRun, m1OutputKThread_of_lt hc] at hw
      split at hw
      · obtain rfl := List.mem_singleton.mp hw
        exact ⟨0, by decide, b * 8 + t / 32, hc, by simp, by omega, by omega, by omega⟩
      · cases hw
    · simp [m1OutputKRun, m1OutputKThread_of_le (Nat.le_of_not_lt hc)] at hw
  complete row hr outCol hc := by
    have hcol : outCol / 8 * 8 + outCol % 8 * 32 / 32 = outCol := by omega
    have hlane : outCol % 8 * 32 % 32 = 0 := by omega
    refine ⟨?_, hr, ?_, ?_⟩
    · change outCol / 8 < (n + 7) / 8
      omega
    · change outCol % 8 * 32 < 256
      omega
    · obtain rfl : row = 0 := by omega
      simp only [m1OutputKRun, m1OutputKThread_of_lt (hcol.symm ▸ hc), hcol, hlane, if_true,
        Nat.zero_mul, Nat.zero_add]
      exact List.mem_singleton_self _
  nodup j hj b hb t ht := by
    by_cases hc : b * 8 + t / 32 < n
    · simp only [m1OutputKRun, m1OutputKThread_of_lt hc]
      split <;> simp
    · simp [m1OutputKRun, m1OutputKThread_of_le (Nat.le_of_not_lt hc)]

theorem m1_inside (b t : Nat) : (∀ i ∈ (m1OutputKThread x n k b t).inputs, i < 1 * k) ∧
    (∀ i ∈ (m1OutputKThread x n k b t).weights, i < n * k) ∧
    ∀ i ∈ (m1OutputKThread x n k b t).scales, i < n := by
  by_cases hc : b * 8 + t / 32 < n
  · have hkk {kk : Nat} (h : kk ∈ strides (t % 32) 32 k) : kk < k :=
      ((mem_strides (by decide)).mp h).2.1
    rw [m1OutputKThread_of_lt hc]
    refine ⟨fun i hi => by rw [Nat.one_mul]; exact hkk hi, fun i hi => ?_, fun i hi => ?_⟩
    · obtain ⟨kk, h, rfl⟩ := List.mem_map.mp hi
      exact flat_lt hc (hkk h)
    · simp only at hi
      split at hi
      · rwa [List.mem_singleton.mp hi]
      · cases hi
  · simp [m1OutputKThread_of_le (Nat.le_of_not_lt hc)]

/-- When the index arithmetic of the kernel for one row fits. -/
theorem m1_defined_iff (hn : 0 < n) (hk : 0 < k) : (m1OutputKRun x n k).Defined ↔
    n + 7 < 2 ^ 31 ∧ k + 31 < 2 ^ 31 ∧ n * k ≤ 2 ^ 31 := by
  have hown (kk : Nat) (h : kk < k) : kk ∈ strides (kk % 32) 32 k :=
    (mem_strides (by decide)).mpr
      ⟨Nat.mod_le _ _, h, Nat.sub_mod_eq_zero_of_mod_eq (Nat.mod_mod _ _).symm⟩
  constructor
  · rintro ⟨hhost, -, hthreads⟩
    have hhost := hhost (n + 7) (by simp [m1OutputKRun])
    have hlane : (n - 1) % 8 * 32 + (k - 1) % 32 < 256 := by omega
    have hcol : (n - 1) / 8 * 8 + ((n - 1) % 8 * 32 + (k - 1) % 32) / 32 = n - 1 := by omega
    have hmod : ((n - 1) % 8 * 32 + (k - 1) % 32) % 32 = (k - 1) % 32 := by omega
    have hfits := hthreads 0 Nat.one_pos ((n - 1) / 8)
      (show (n - 1) / 8 < (n + 7) / 8 by omega) _ hlane
    simp only [m1OutputKRun, m1OutputKThread_of_lt (hcol.symm ▸ (show n - 1 < n by omega)), hcol,
      hmod] at hfits
    have hend := hfits (strideEnd ((k - 1) % 32) 32 k) (by simp)
    rw [strideEnd_of_last (by decide) hk rfl] at hend
    have hweight := hfits ((n - 1) * k + (k - 1)) (by
      simp only [List.mem_cons, List.mem_map]
      exact .inr (.inr (.inr (.inr ⟨k - 1, hown _ (by omega), rfl⟩))))
    have hlast := last_flat hn hk
    exact ⟨hhost, by omega, by omega⟩
  · rintro ⟨hhost, hend, hnk⟩
    refine ⟨by simpa [m1OutputKRun] using hhost, ⟨⟨?_, ?_⟩, (by decide : 0 < 1 ∧ 1 < 2 ^ 16)⟩,
      fun j hj b hb t ht v hv => ?_⟩
    · change 0 < (n + 7) / 8
      omega
    · change (n + 7) / 8 < 2 ^ 31
      omega
    · have hb : b < (n + 7) / 8 := hb
      have ht : t < 256 := ht
      by_cases hc : b * 8 + t / 32 < n
      · simp only [m1OutputKRun, m1OutputKThread_of_lt hc, List.mem_cons, List.mem_map] at hv
        have hstop := strideEnd_le (t % 32) k (show 0 < 32 by decide)
        have hoffset := flat_lt hc (show 0 < k from hk)
        rcases hv with rfl | rfl | rfl | rfl | ⟨kk, h, rfl⟩
        · omega
        · omega
        · omega
        · omega
        · have := flat_lt hc ((mem_strides (by decide)).mp h).2.1
          omega
      · simp only [m1OutputKRun, m1OutputKThread_of_le (Nat.le_of_not_lt hc), List.mem_cons,
          List.not_mem_nil, or_false] at hv
        rcases hv with rfl | rfl <;> omega

end M1

section Tiled
variable {T : Nat}

/-- The run of the tiled kernel. -/
def smallMTiledRun (x : Operands R) (m n k T : Nat) : KernelRun R :=
  ⟨[n + (T - 1)], (n + (T - 1)) / T, m, threadsPerBlock, smallMTiledThread x m n k T⟩

/-- The tile sizes of the code divide the block. -/
structure TileSize (T : Nat) : Prop where
  pos : 0 < T
  small : T ≤ 128
  divides : threadsPerBlock / T * T = threadsPerBlock

theorem TileSize.lanes (h : TileSize T) : 0 < threadsPerBlock / T := by
  by_contra h0
  have hdiv := h.divides
  rw [Nat.eq_zero_of_not_pos h0, Nat.zero_mul] at hdiv
  exact absurd hdiv (by decide)

theorem smallMTiledThread_of_lt {b row t : Nat} (hr : row < m) :
    smallMTiledThread x m n k T b row t =
    let outCol := b * T + t % T
    let copied (kBase : Nat) : List Nat := strides t threadsPerBlock (min kTile (k - kBase))
    let summed (kBase : Nat) : List Nat :=
      if outCol < n then strides (t / T) (threadsPerBlock / T) (min kTile (k - kBase)) else []
    { ints := [b * T, outCol, row * k, strideEnd 0 kTile k] ++
        (strides 0 kTile k).flatMap (fun kBase =>
          [row * k + kBase, strideEnd t threadsPerBlock (min kTile (k - kBase)),
            strideEnd (t / T) (threadsPerBlock / T) (min kTile (k - kBase))] ++
          (copied kBase).map (fun i => row * k + kBase + i) ++
          (summed kBase).flatMap fun kk =>
            [kBase + kk, (kBase + kk) * n, (kBase + kk) * n + outCol]) ++
        if t / T = 0 ∧ outCol < n then [row * n, row * n + outCol] else []
      inputs := (strides 0 kTile k).flatMap fun kBase =>
        (copied kBase).map fun i => row * k + kBase + i
      weights := (strides 0 kTile k).flatMap fun kBase =>
        (summed kBase).map fun kk => (kBase + kk) * n + outCol
      scales := if t / T = 0 ∧ outCol < n then [outCol] else []
      writes := if t / T = 0 ∧ outCol < n then
        [(row * n + outCol, smallMTiledKernel x n k T row outCol)] else [] } :=
  if_neg (by omega)

theorem tiled_owned (hT : TileSize T) : Owned (smallMTiledRun x m n k T) m n
    (fun row outCol => smallMTiledKernel x n k T row outCol)
    (fun _ outCol => outCol / T) (fun row _ => row) (fun _ outCol => outCol % T) where
  sound row hr b hb t ht w hw := by
    have hr : row < m := hr
    simp only [smallMTiledRun, smallMTiledThread_of_lt hr] at hw
    split at hw
    · rename_i h
      obtain rfl := List.mem_singleton.mp hw
      have hlt : t < T := (Nat.div_eq_zero_iff_lt hT.pos).mp h.1
      have hmod : t % T = t := Nat.mod_eq_of_lt hlt
      exact ⟨row, hr, b * T + t % T, h.2, rfl, flat_div _ (hmod.symm ▸ hlt), rfl,
        by rw [flat_mod _ (hmod.symm ▸ hlt), hmod]⟩
    · cases hw
  complete row hr outCol hc := by
    have hmod : outCol % T < T := Nat.mod_lt _ hT.pos
    have hsmall := hT.small
    refine ⟨?_, hr, (by omega : outCol % T < 256), ?_⟩
    · change outCol / T < (n + (T - 1)) / T
      rw [Nat.lt_iff_add_one_le, Nat.le_div_iff_mul_le hT.pos, Nat.succ_mul]
      have hdiv := Nat.div_add_mod' outCol T
      omega
    · have hcol : outCol / T * T + outCol % T = outCol := Nat.div_add_mod' outCol T
      simp only [smallMTiledRun, smallMTiledThread_of_lt hr, Nat.mod_mod, hcol,
        Nat.div_eq_of_lt hmod, hc, and_self, if_true]
      exact List.mem_singleton_self _
  nodup row hr b hb t ht := by
    have hr : row < m := hr
    simp only [smallMTiledRun, smallMTiledThread_of_lt hr]
    split <;> simp

theorem mem_strides_tile {kBase kk first step : Nat} (hs : 0 < step)
    (h : kk ∈ strides first step (min kTile (k - kBase))) : kBase + kk < k := by
  have hlt := ((mem_strides hs).mp h).2.1
  omega

theorem tiled_inside (hT : TileSize T) {row : Nat} (hr : row < m) (b t : Nat) :
    (∀ i ∈ (smallMTiledThread x m n k T b row t).inputs, i < m * k) ∧
    (∀ i ∈ (smallMTiledThread x m n k T b row t).weights, i < n * k) ∧
    ∀ i ∈ (smallMTiledThread x m n k T b row t).scales, i < n := by
  rw [smallMTiledThread_of_lt hr]
  refine ⟨fun i hi => ?_, fun i hi => ?_, fun i hi => ?_⟩
  · obtain ⟨kBase, -, hi⟩ := List.mem_flatMap.mp hi
    obtain ⟨kk, h, rfl⟩ := List.mem_map.mp hi
    rw [Nat.add_assoc]
    exact flat_lt hr (mem_strides_tile (by decide) h)
  · obtain ⟨kBase, -, hi⟩ := List.mem_flatMap.mp hi
    obtain ⟨kk, h, rfl⟩ := List.mem_map.mp hi
    split at h
    · rename_i hc
      rw [Nat.mul_comm n]
      exact flat_lt (mem_strides_tile hT.lanes h) hc
    · cases h
  · simp only at hi
    split at hi
    · rename_i h
      rw [List.mem_singleton.mp hi]
      exact h.2
    · cases hi

/-- When the index arithmetic of the tiled kernel fits. -/
theorem tiled_defined_iff (hT : TileSize T) (hm : 0 < m) (hn : 0 < n) (hk : 0 < k)
    (hk' : k ≤ 8192) : (smallMTiledRun x m n k T).Defined ↔
      m < 2 ^ 16 ∧ n + (T - 1) < 2 ^ 31 ∧ n * k ≤ 2 ^ 31 ∧ m * n ≤ 2 ^ 31 := by
  have hpos := hT.pos
  have hsmall := hT.small
  have hlanes := hT.lanes
  have hblock : threadsPerBlock = 256 := rfl
  have htile : kTile = 256 := rfl
  constructor
  · rintro ⟨hhost, hgrid, hthreads⟩
    have hhost := hhost (n + (T - 1)) (by simp [smallMTiledRun])
    have hb (outCol : Nat) (hc : outCol < n) : outCol / T < (n + (T - 1)) / T := by
      rw [Nat.lt_iff_add_one_le, Nat.le_div_iff_mul_le hT.pos, Nat.succ_mul]
      have hdiv := Nat.div_add_mod' outCol T
      omega
    have hcol : (n - 1) / T * T + (n - 1) % T = n - 1 := Nat.div_add_mod' _ _
    have hmodT : (n - 1) % T < T := Nat.mod_lt _ hpos
    have hlastn : n - 1 < n := by omega
    refine ⟨hgrid.2.2, hhost, ?_, ?_⟩
    · -- The last weight is read by the lane of the last index of the last tile.
      obtain ⟨kk, hkk⟩ : ∃ kk, kk = (k - 1) % 256 := ⟨_, rfl⟩
      have hkk' : kk < 256 := by omega
      have hbase : (k - 1) / 256 * 256 + kk = k - 1 := by omega
      have hlane : kk % (threadsPerBlock / T) < threadsPerBlock / T := Nat.mod_lt _ hlanes
      have ht : kk % (threadsPerBlock / T) * T + (n - 1) % T < 256 := by
        have := flat_lt hlane hmodT
        rw [hT.divides] at this
        exact this
      have hfits := hthreads (m - 1) (show m - 1 < m by omega) ((n - 1) / T) (hb _ hlastn) _ ht
      simp only [smallMTiledRun, smallMTiledThread_of_lt (show m - 1 < m by omega),
        flat_mod _ hmodT, flat_div _ hmodT, hcol, hlastn, if_true] at hfits
      have hweight := hfits ((k - 1) * n + (n - 1)) (by
        simp only [List.mem_append, List.mem_flatMap]
        refine .inl (.inr ⟨(k - 1) / 256 * 256, (mem_strides (by decide)).mpr
          ⟨Nat.zero_le _, by omega, by simp [kTile]⟩, .inr ⟨kk, (mem_strides hlanes).mpr
            ⟨Nat.mod_le _ _, by omega, Nat.sub_mod_eq_zero_of_mod_eq (Nat.mod_mod _ _).symm⟩, ?_⟩⟩)
        simp [hbase])
      have hlast := last_flat hk hn
      rw [Nat.mul_comm n]
      omega
    · have ht : (n - 1) % T < 256 := by omega
      have hfits := hthreads (m - 1) (show m - 1 < m by omega) ((n - 1) / T) (hb _ hlastn) _ ht
      simp only [smallMTiledRun, smallMTiledThread_of_lt (show m - 1 < m by omega),
        Nat.mod_mod, Nat.div_eq_of_lt hmodT, hcol, hlastn, and_self, if_true] at hfits
      have houtput := hfits ((m - 1) * n + (n - 1)) (by simp)
      have hlast := last_flat hm hn
      omega
  · rintro ⟨hm16, hhost, hnk, hmn⟩
    have hX : (n + (T - 1)) / T * T ≤ n + (T - 1) := Nat.div_mul_le_self _ _
    refine ⟨by simpa [smallMTiledRun] using hhost, ⟨⟨?_, ?_⟩, hm, hm16⟩,
      fun row hr b hb t ht v hv => ?_⟩
    · change 0 < (n + (T - 1)) / T
      exact Nat.div_pos (by omega) hpos
    · exact lt_of_le_of_lt (Nat.div_le_self _ _) hhost
    · have hr : row < m := hr
      have hb : b < (n + (T - 1)) / T := hb
      have ht : t < 256 := ht
      have hcolumn := flat_lt hb (Nat.mod_lt t hpos)
      have hrow : row * k ≤ 2 ^ 16 * 8192 := Nat.mul_le_mul (by omega) hk'
      simp only [smallMTiledRun, smallMTiledThread_of_lt hr, List.mem_append, List.mem_cons,
        List.not_mem_nil, or_false, List.mem_flatMap, List.mem_map] at hv
      rcases hv with ((rfl | rfl | rfl | rfl) | ⟨kBase, hkb, ((rfl | rfl | rfl) | ⟨i, hi, rfl⟩) |
        ⟨kk, hkk, hv⟩⟩) | hv
      · omega
      · omega
      · omega
      · have := strideEnd_le 0 k (show 0 < kTile by decide)
        omega
      · have := ((mem_strides (by decide)).mp hkb).2.1
        omega
      · have := strideEnd_le t (min kTile (k - kBase))
          (show 0 < threadsPerBlock by decide)
        omega
      · have := strideEnd_le (t / T) (min kTile (k - kBase)) hlanes
        have := Nat.div_le_self threadsPerBlock T
        have := Nat.div_le_self t T
        omega
      · have := mem_strides_tile (by decide) hi
        omega
      · split at hkk
        · rename_i hc
          have hlt := mem_strides_tile hlanes hkk
          have hflat := flat_lt hlt hc
          rw [Nat.mul_comm k] at hflat
          rcases hv with rfl | rfl | rfl <;> omega
        · cases hkk
      · split at hv
        · rename_i hc
          have hflat := flat_lt hr hc.2
          simp only [List.mem_cons, List.not_mem_nil, or_false] at hv
          rcases hv with rfl | rfl <;> omega
        · cases hv

end Tiled

section Hmma

/-- The run of the tensor-core kernel. -/
def hmmaRun (x : Operands R) (m n k : Nat) (weightLayout : Int) : KernelRun R :=
  ⟨[n + 15, m + 15], (n + 15) / 16, (m + 15) / 16, 32, hmmaThread x m n k weightLayout⟩

theorem mem_tileCells {lane top left rows cols : Nat} {cell : Nat × Nat} :
    cell ∈ tileCells lane top left rows cols ↔ (∃ idx ∈ strides lane 32 (16 * 16),
      (top + idx / 16, left + idx % 16) = cell) ∧ cell.1 < rows ∧ cell.2 < cols := by
  rw [tileCells, List.mem_filter, List.mem_map, decide_eq_true_iff]

/-- Every element of a matrix is a cell of one tile, handled by one lane. -/
theorem mem_tileCells_of_lt {row col rows cols : Nat} (hr : row < rows) (hc : col < cols) :
    (row, col) ∈ tileCells ((row % 16 * 16 + col % 16) % 32) (row / 16 * 16) (col / 16 * 16)
      rows cols := by
  refine mem_tileCells.mpr ⟨⟨row % 16 * 16 + col % 16, (mem_strides (by decide)).mpr
    ⟨Nat.mod_le _ _, by omega, Nat.sub_mod_eq_zero_of_mod_eq (Nat.mod_mod _ _).symm⟩, ?_⟩, hr, hc⟩
  rw [Prod.mk.injEq]
  omega

/-- A cell tells its tile and its lane. -/
theorem owner_of_mem_tileCells {lane a b rows cols : Nat} {cell : Nat × Nat} (hl : lane < 32)
    (h : cell ∈ tileCells lane (a * 16) (b * 16) rows cols) : cell.1 < rows ∧ cell.2 < cols ∧
      cell.2 / 16 = b ∧ cell.1 / 16 = a ∧ (cell.1 % 16 * 16 + cell.2 % 16) % 32 = lane := by
  obtain ⟨⟨idx, hidx, rfl⟩, hr, hc⟩ := mem_tileCells.mp h
  obtain ⟨hle, hlt, hmod⟩ := (mem_strides (by decide)).mp hidx
  have hlane : idx % 32 = lane := by omega
  exact ⟨hr, hc, by simp only; omega, by simp only; omega, by simp only; omega⟩

theorem nodup_tileCells (lane top left rows cols : Nat) :
    (tileCells lane top left rows cols).Nodup := by
  refine List.Nodup.filter _ (List.Nodup.map_on ?_ (nodup_strides (by decide)))
  intro i hi j hj h
  rw [Prod.mk.injEq] at h
  omega

theorem hmma_owned : Owned (hmmaRun x m n k weightLayout) m n
    (fun row outCol => hmmaKernel x n k m weightLayout row outCol)
    (fun _ outCol => outCol / 16) (fun row _ => row / 16)
    (fun row outCol => (row % 16 * 16 + outCol % 16) % 32) where
  sound y hy b hb lane hl w hw := by
    obtain ⟨cell, hcell, rfl⟩ := List.mem_map.mp hw
    obtain ⟨hr, hc, hcol, hrow, hlane⟩ := owner_of_mem_tileCells hl hcell
    exact ⟨cell.1, hr, cell.2, hc, rfl, hcol, hrow, hlane⟩
  complete row hr outCol hc := by
    refine ⟨?_, ?_, (by omega : (row % 16 * 16 + outCol % 16) % 32 < 32),
      List.mem_map.mpr ⟨(row, outCol), mem_tileCells_of_lt hr hc, rfl⟩⟩
    · change outCol / 16 < (n + 15) / 16
      omega
    · change row / 16 < (m + 15) / 16
      omega
  nodup y hy b hb lane hl := by
    simp only [hmmaRun, hmmaThread, List.map_map]
    refine List.Nodup.map_on ?_ (nodup_tileCells _ _ _ _ _)
    intro c hc d hd h
    have hcn := (mem_tileCells.mp hc).2.2
    have hdn := (mem_tileCells.mp hd).2.2
    simp only [Function.comp_apply] at h
    refine Prod.ext ?_ ?_
    · rw [← flat_div c.1 hcn, h, flat_div _ hdn]
    · rw [← flat_mod c.1 hcn, h, flat_mod _ hdn]

theorem hmma_inside (y b lane : Nat) :
    (∀ i ∈ (hmmaThread x m n k weightLayout b y lane).inputs, i < m * k) ∧
    (∀ i ∈ (hmmaThread x m n k weightLayout b y lane).weights, i < n * k) ∧
    ∀ i ∈ (hmmaThread x m n k weightLayout b y lane).scales, i < n := by
  refine ⟨fun i hi => ?_, fun i hi => ?_, fun i hi => ?_⟩
  · obtain ⟨kBase, -, hi⟩ := List.mem_flatMap.mp hi
    obtain ⟨cell, hcell, rfl⟩ := List.mem_map.mp hi
    obtain ⟨-, hr, hc⟩ := mem_tileCells.mp hcell
    exact flat_lt hr hc
  · obtain ⟨kBase, -, hi⟩ := List.mem_flatMap.mp hi
    obtain ⟨cell, hcell, rfl⟩ := List.mem_map.mp hi
    obtain ⟨-, hk, hn⟩ := mem_tileCells.mp hcell
    rw [weightIndex]
    split
    · exact flat_lt hn hk
    · rw [Nat.mul_comm n]
      exact flat_lt hk hn
  · obtain ⟨kBase, -, hi⟩ := List.mem_flatMap.mp hi
    obtain ⟨cell, hcell, rfl⟩ := List.mem_map.mp hi
    exact (mem_tileCells.mp hcell).2.2

/-- When the index arithmetic of the tensor-core kernel fits. -/
theorem hmma_defined_iff (hm : 16 ≤ m) (hn : 0 < n) (hk : 0 < k) :
    (hmmaRun x m n k weightLayout).Defined ↔
      (m + 15) / 16 < 2 ^ 16 ∧ m * k ≤ 2 ^ 31 ∧ n * k ≤ 2 ^ 31 ∧ m * n ≤ 2 ^ 31 := by
  constructor
  · rintro ⟨-, hgrid, hthreads⟩
    have hrow : (m - 1) / 16 < (m + 15) / 16 := by omega
    have hcol : (n - 1) / 16 < (n + 15) / 16 := by omega
    have hbase : (k - 1) / 16 * 16 ∈ strides 0 16 k :=
      (mem_strides (by decide)).mpr ⟨Nat.zero_le _, by omega, by simp⟩
    refine ⟨hgrid.2.2, ?_, ?_, ?_⟩
    · have hv := hthreads _ hrow 0 (show 0 < (n + 15) / 16 by omega) _
        (show ((m - 1) % 16 * 16 + (k - 1) % 16) % 32 < 32 by omega) ((m - 1) * k + (k - 1)) (by
          simp only [hmmaRun, hmmaThread, List.mem_append, List.mem_flatMap]
          refine .inl (.inr ⟨_, hbase, .inl (.inr ⟨_, mem_tileCells_of_lt
            (show m - 1 < m by omega) (show k - 1 < k by omega), ?_⟩)⟩)
          simp)
      have hlast := last_flat (show 0 < m by omega) hk
      omega
    · have hv := hthreads 0 (show 0 < (m + 15) / 16 by omega) _ hcol _
        (show ((k - 1) % 16 * 16 + (n - 1) % 16) % 32 < 32 by omega)
        (if weightLayout = 1 then (n - 1) * k + (k - 1) else (k - 1) * n + (n - 1)) (by
          simp only [hmmaRun, hmmaThread, List.mem_append, List.mem_flatMap]
          refine .inl (.inr ⟨_, hbase, .inr ⟨_, mem_tileCells_of_lt
            (show k - 1 < k by omega) (show n - 1 < n by omega), ?_⟩⟩)
          split <;> simp)
      have hlast := last_flat hn hk
      have hlast' := last_flat hk hn
      rw [Nat.mul_comm k n] at hlast'
      split at hv <;> omega
    · have hv := hthreads _ hrow _ hcol _
        (show ((m - 1) % 16 * 16 + (n - 1) % 16) % 32 < 32 by omega) ((m - 1) * n + (n - 1)) (by
          simp only [hmmaRun, hmmaThread, List.mem_append, List.mem_flatMap]
          refine .inr ⟨_, mem_tileCells_of_lt (show m - 1 < m by omega)
            (show n - 1 < n by omega), ?_⟩
          simp)
      have hlast := last_flat (show 0 < m by omega) hn
      omega
  · rintro ⟨hgrid, hmk, hnk, hmn⟩
    have hk16 : 16 * k ≤ m * k := Nat.mul_le_mul_right k hm
    have hn16 : 16 * n ≤ m * n := Nat.mul_le_mul_right n hm
    refine ⟨?_, ⟨⟨?_, ?_⟩, ?_, hgrid⟩, fun y hy b hb lane hl v hv => ?_⟩
    · simp only [hmmaRun, List.mem_cons, List.not_mem_nil, or_false]
      rintro v (rfl | rfl) <;> omega
    · change 0 < (n + 15) / 16
      omega
    · change (n + 15) / 16 < 2 ^ 31
      omega
    · change 0 < (m + 15) / 16
      omega
    · have hy : y < (m + 15) / 16 := hy
      have hb : b < (n + 15) / 16 := hb
      have hidx {idx : Nat} (h : idx ∈ strides lane 32 (16 * 16)) : idx < 256 :=
        ((mem_strides (by decide)).mp h).2.1
      have hcell {a c rows cols : Nat} {cell : Nat × Nat}
          (h : cell ∈ tileCells lane a c rows cols) : cell.1 * cols + cell.2 < rows * cols :=
        flat_lt (mem_tileCells.mp h).2.1 (mem_tileCells.mp h).2.2
      simp only [hmmaRun, hmmaThread, List.mem_append, List.mem_cons, List.not_mem_nil, or_false,
        List.mem_flatMap] at hv
      rcases hv with (((rfl | rfl | rfl) | ⟨idx, h, rfl | rfl⟩) |
        ⟨kBase, hkb, ((⟨idx, h, rfl | rfl⟩ | ⟨cell, h, rfl | rfl⟩) | ⟨cell, h, hv⟩)⟩) |
        ⟨cell, h, rfl | rfl⟩
      · omega
      · omega
      · have := strideEnd_le 0 k (show 0 < 16 by decide)
        omega
      · have := hidx h
        omega
      · have := hidx h
        omega
      · have := hidx h
        have := ((mem_strides (by decide)).mp hkb).2.1
        omega
      · have := hidx h
        have := ((mem_strides (by decide)).mp hkb).2.1
        omega
      · have := hcell h
        omega
      · have := hcell h
        omega
      · have hlt := hcell h
        have hin := (mem_tileCells.mp h).2
        have hlt' := flat_lt hin.2 hin.1
        rw [Nat.mul_comm k n] at hlt
        split at hv
        · simp only [List.mem_cons, List.not_mem_nil, or_false] at hv
          rcases hv with rfl | rfl <;> omega
        · simp only [List.mem_cons, List.not_mem_nil, or_false] at hv
          rcases hv with rfl | rfl <;> omega
      · have := hcell h
        omega
      · have := hcell h
        omega

end Hmma

section Selection

/-- The tile of the tiled kernel. -/
def KernelEnv.outputTileFor (env : KernelEnv) (n : Nat) : Nat :=
  if env.getOutputTileOverride = 128 ∧ 128 ≤ n then 128
  else if env.getOutputTileOverride = 64 ∧ 64 ≤ n then 64
  else 32

/-- The sizes at which the selected kernel neither overflows nor exceeds the grid of a device. -/
def SizesFit (env : KernelEnv) (m n k : Nat) (weightLayout : Int) : Prop :=
  m * k ≤ 2 ^ 31 ∧ n * k ≤ 2 ^ 31 ∧ m * n ≤ 2 ^ 31 ∧
    if weightLayout = 1 ∧ m = 1 then n + 7 < 2 ^ 31 ∧ k + 31 < 2 ^ 31
    else if 16 ≤ m ∧ env.hmmaEnabled then (m + 15) / 16 < 2 ^ 16
    else m < 2 ^ 16 ∧ if weightLayout = 1 ∨ n < 32 ∨ 8192 < k then k + 255 < 2 ^ 31
      else n + (env.outputTileFor n - 1) < 2 ^ 31

theorem outputTileFor_tileSize (env : KernelEnv) (n : Nat) : TileSize (env.outputTileFor n) := by
  unfold KernelEnv.outputTileFor
  repeat' split
  all_goals exact ⟨by decide, by decide, by decide⟩

/-- A run does its work exactly when it is defined. -/
theorem computes_iff_defined {value b y t : Nat → Nat → _}
    (hin : ∀ y < run.gridY, ∀ b < run.gridX, ∀ t < run.block,
      (∀ i ∈ (run.thread b y t).inputs, i < m * k) ∧
        (∀ i ∈ (run.thread b y t).weights, i < n * k) ∧ ∀ i ∈ (run.thread b y t).scales, i < n)
    (howned : Owned run m n value b y t)
    (hvalue : ∀ row < m, ∀ outCol < n,
      value row outCol = product x n k weightLayout row outCol) :
    run.Computes x m n k weightLayout ↔ run.Defined :=
  ⟨fun h => h.defined, fun h => computes_of_owned h hin howned hvalue⟩

theorem m1_computes_iff (hn : 0 < n) (hk : 0 < k) :
    (m1OutputKRun x n k).Computes x 1 n k 1 ↔
      n + 7 < 2 ^ 31 ∧ k + 31 < 2 ^ 31 ∧ n * k ≤ 2 ^ 31 := by
  rw [computes_iff_defined (fun _ _ b _ t _ => m1_inside b t) m1_owned, m1_defined_iff hn hk]
  intro row hr outCol _
  obtain rfl : row = 0 := by omega
  exact m1OutputKKernel_eq

theorem hmma_computes_iff (hm : 16 ≤ m) (hn : 0 < n) (hk : 0 < k) :
    (hmmaRun x m n k weightLayout).Computes x m n k weightLayout ↔
      (m + 15) / 16 < 2 ^ 16 ∧ m * k ≤ 2 ^ 31 ∧ n * k ≤ 2 ^ 31 ∧ m * n ≤ 2 ^ 31 := by
  rw [computes_iff_defined (fun y _ b _ lane _ => hmma_inside y b lane) hmma_owned,
    hmma_defined_iff hm hn hk]
  exact fun row hr outCol hc => hmmaKernel_eq weightLayout hr hc

theorem tiled_computes_iff {T : Nat} (hT : TileSize T) (hm : 0 < m) (hn : 0 < n) (hk : 0 < k)
    (hk' : k ≤ 8192) (hl : weightLayout ≠ 1) :
    (smallMTiledRun x m n k T).Computes x m n k weightLayout ↔
      m < 2 ^ 16 ∧ n + (T - 1) < 2 ^ 31 ∧ n * k ≤ 2 ^ 31 ∧ m * n ≤ 2 ^ 31 := by
  rw [computes_iff_defined (fun row hr b _ t _ => tiled_inside hT hr b t) (tiled_owned hT),
    tiled_defined_iff hT hm hn hk hk']
  exact fun row _ outCol _ => smallMTiledKernel_eq hl hT.lanes

theorem reference_computes_iff (hm : 0 < m) (hn : 0 < n) (hk : 0 < k) (hn' : n < 2 ^ 31)
    (hl : weightLayout ≠ 1) :
    (perOutputRun m n k (fun outCol kk => kk * n + outCol) (fun _ => [])
      (fun outCol kk => [kk * n, kk * n + outCol])
      (perOutputReferenceKernel x n k)).Computes x m n k weightLayout ↔
      m < 2 ^ 16 ∧ k + 255 < 2 ^ 31 ∧ m * k ≤ 2 ^ 31 ∧ n * k ≤ 2 ^ 31 ∧ m * n ≤ 2 ^ 31 := by
  have hindex : ∀ outCol < n, ∀ kk < k, kk * n + outCol < n * k := fun outCol hc kk hkk => by
    rw [Nat.mul_comm n]
    exact flat_lt hkk hc
  rw [computes_iff_defined (fun row hr outCol hc t _ => perOutput_inside hindex hr hc t)
    perOutput_owned fun row _ outCol _ => perOutputReferenceKernel_eq hl]
  refine perOutput_defined_iff hm hn hk hn' ⟨fun h => ?_, fun h outCol hc => ⟨by simp, ?_⟩⟩
  · have hlast := last_flat hk hn
    have hv := (h (n - 1) (by omega)).2 (k - 1) (by omega) ((k - 1) * n + (n - 1)) (by simp)
    rw [Nat.mul_comm n]
    omega
  · intro kk hkk v hv
    have hlt := hindex outCol hc kk hkk
    simp only [List.mem_cons, List.not_mem_nil, or_false] at hv
    rcases hv with rfl | rfl <;> omega

theorem outputK_computes_iff (hm : 0 < m) (hn : 0 < n) (hk : 0 < k) (hn' : n < 2 ^ 31) :
    (perOutputRun m n k (fun outCol kk => outCol * k + kk) (fun outCol => [outCol * k])
      (fun outCol kk => [outCol * k + kk])
      (perOutputOutputKReferenceKernel x k)).Computes x m n k 1 ↔
      m < 2 ^ 16 ∧ k + 255 < 2 ^ 31 ∧ m * k ≤ 2 ^ 31 ∧ n * k ≤ 2 ^ 31 ∧ m * n ≤ 2 ^ 31 := by
  rw [computes_iff_defined
    (fun row hr outCol hc t _ => perOutput_inside (fun _ hc _ hkk => flat_lt hc hkk) hr hc t)
    perOutput_owned fun row _ outCol _ => perOutputOutputKReferenceKernel_eq]
  refine perOutput_defined_iff hm hn hk hn' ⟨fun h => ?_, fun h outCol hc => ⟨?_, ?_⟩⟩
  · have hlast := last_flat hn hk
    have hv := (h (n - 1) (by omega)).2 (k - 1) (by omega) ((n - 1) * k + (k - 1)) (by simp)
    omega
  · intro v hv
    have hlt := flat_lt hc hk
    obtain rfl := List.mem_singleton.mp hv
    omega
  · intro kk hkk v hv
    have hlt := flat_lt hc hkk
    obtain rfl := List.mem_singleton.mp hv
    omega

/-- For all sizes, both layouts of the weight and every environment: the kernel that is selected
writes every output once, with the sum of the layout and of its reference kernel, and reads inside
the operands, exactly when the sizes fit. -/
theorem selected_computes_iff (x : Operands R) (env : KernelEnv) {m n k : Nat} {groupSize : Int}
    (hm : 0 < m) (hn : 0 < n ∧ n < 2 ^ 31) (hk : 0 < k)
    (hg : groupSize = 0 ∨ groupSize = 1 ∨ groupSize = k)
    (hl : weightLayout = 0 ∨ weightLayout = 1) :
    (∃ run, w8a16LinearRun x m n k env 0 groupSize weightLayout = some run ∧
      run.Computes x m n k weightLayout) ↔ SizesFit env m n k weightLayout := by
  rw [w8a16LinearRun, if_neg (by omega), if_neg (by simp), if_neg (by simp [hg]), SizesFit]
  by_cases hm1 : weightLayout = 1 ∧ m = 1
  · obtain ⟨rfl, rfl⟩ := hm1
    rw [if_pos ⟨rfl, rfl⟩, if_pos ⟨rfl, rfl⟩]
    simp only [Option.some.injEq, exists_eq_left']
    refine (m1_computes_iff hn.1 hk).trans ?_
    omega
  rw [if_neg hm1, if_neg hm1]
  by_cases hhmma : 16 ≤ m ∧ env.hmmaEnabled
  · rw [if_pos ⟨hl, hhmma⟩, if_pos hhmma]
    simp only [Option.some.injEq, exists_eq_left']
    refine (hmma_computes_iff hhmma.1 hn.1 hk).trans ?_
    constructor
    · rintro ⟨hgrid, hmk, hnk, hmn⟩
      exact ⟨hmk, hnk, hmn, hgrid⟩
    · rintro ⟨hmk, hnk, hmn, hgrid⟩
      exact ⟨hgrid, hmk, hnk, hmn⟩
  rw [if_neg fun h => hhmma h.2, if_neg hhmma]
  by_cases hk1 : weightLayout = 1
  · subst hk1
    rw [if_pos rfl, if_pos (.inl rfl)]
    simp only [Option.some.injEq, exists_eq_left']
    refine (outputK_computes_iff hm hn.1 hk hn.2).trans ?_
    constructor
    · rintro ⟨hgrid, hend, hmk, hnk, hmn⟩
      exact ⟨hmk, hnk, hmn, hgrid, hend⟩
    · rintro ⟨hmk, hnk, hmn, hgrid, hend⟩
      exact ⟨hgrid, hend, hmk, hnk, hmn⟩
  rw [if_neg hk1]
  by_cases htile : 32 ≤ n ∧ k ≤ 8192
  · have hrun : (if env.getOutputTileOverride = 128 ∧ 128 ≤ n then
        (⟨[n + 127], (n + 127) / 128, m, threadsPerBlock, smallMTiledThread x m n k 128⟩ :
          KernelRun R)
      else if env.getOutputTileOverride = 64 ∧ 64 ≤ n then
        ⟨[n + 63], (n + 63) / 64, m, threadsPerBlock, smallMTiledThread x m n k 64⟩
      else ⟨[n + 31], (n + 31) / 32, m, threadsPerBlock, smallMTiledThread x m n k 32⟩) =
        smallMTiledRun x m n k (env.outputTileFor n) := by
      unfold KernelEnv.outputTileFor
      repeat' split
      all_goals rfl
    rw [if_pos htile, hrun, if_neg (by omega)]
    simp only [Option.some.injEq, exists_eq_left']
    refine (tiled_computes_iff (outputTileFor_tileSize env n) hm hn.1 hk htile.2 hk1).trans ?_
    constructor
    · rintro ⟨hgrid, hhost, hnk, hmn⟩
      have hmk : m * k ≤ 2 ^ 16 * 8192 := Nat.mul_le_mul hgrid.le htile.2
      exact ⟨by omega, hnk, hmn, hgrid, hhost⟩
    · rintro ⟨-, hnk, hmn, hgrid, hhost⟩
      exact ⟨hgrid, hhost, hnk, hmn⟩
  · rw [if_neg htile, if_pos (by omega)]
    simp only [Option.some.injEq, exists_eq_left']
    refine (reference_computes_iff hm hn.1 hk hn.2 hk1).trans ?_
    constructor
    · rintro ⟨hgrid, hend, hmk, hnk, hmn⟩
      exact ⟨hmk, hnk, hmn, hgrid, hend⟩
    · rintro ⟨hmk, hnk, hmn, hgrid, hend⟩
      exact ⟨hgrid, hend, hmk, hnk, hmn⟩

theorem selected_computes_iff_two :
    (∃ run, w8a16LinearRun (⟨fun i => i, fun i => i + 1, fun _ => 1⟩ : Operands Nat) 2 3 4
        ⟨none, none⟩ 0 0 1 = some run ∧
      run.Computes ⟨fun i => i, fun i => i + 1, fun _ => 1⟩ 2 3 4 1) ↔
      SizesFit ⟨none, none⟩ 2 3 4 1 :=
  selected_computes_iff (m := 2) (n := 3) (k := 4) _ _ (by decide) (by decide) (by decide) (.inl rfl)
    (.inr rfl)

/-- One row more than a grid has places, for one output and one product each: nothing is
launched. -/
theorem rows_exceed_grid :
    ¬ ∃ run, w8a16LinearRun (⟨fun _ => 1, fun _ => 1, fun _ => 1⟩ : Operands Nat) 65536 1 1
        ⟨none, none⟩ 0 0 0 = some run ∧
      run.Computes ⟨fun _ => 1, fun _ => 1, fun _ => 1⟩ 65536 1 1 0 := by
  rintro ⟨run, hrun, hcomputes⟩
  obtain rfl := Option.some.inj hrun
  exact absurd hcomputes.defined.grid.2.2 (by decide)

end Selection

end Kernels
end JetsonVoice.W8A16
