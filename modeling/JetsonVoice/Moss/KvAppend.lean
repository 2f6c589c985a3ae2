import JetsonVoice.Foundation.Launch

/-!
# Appending to the linear KV cache of a MOSS slot

`appendMossLinearKV` copies the new keys or values of one layer into the cache
of one slot. A head size of 64 has a kernel that moves 16 bytes a thread; other
sizes take a kernel with a grid-stride loop over the elements.

## Implementation notes

A buffer is a function of the element's index, and a thread is the list of its
moves, from an element of the delta to one of the cache. Indices within a buffer
are 64-bit numbers in the source, which hold the index of every element a buffer
can have; grid dimensions are reduced to their 32 bits.
-/

namespace JetsonVoice.Moss

open Foundation

variable {α : Type*}

/-- The sizes of a call. -/
structure KvShape where
  seqLen : Nat
  pastLen : Nat
  maxSeqLen : Nat
  numHeads : Nat
  headDim : Nat
  deriving DecidableEq, Repr

namespace KvShape

/-- An element of the cache `[2, maxSeqLen, numHeads, headDim]`. -/
def kvOffset (c : KvShape) (kvIdx pos h d : Nat) : Nat :=
  ((kvIdx * c.maxSeqLen + pos) * c.numHeads + h) * c.headDim + d

/-- An element of the delta `[S, numHeads, headDim]`. -/
def deltaOffset (c : KvShape) (s h d : Nat) : Nat := (s * c.numHeads + h) * c.headDim + d

/-- The moves of a thread of the generic kernel. -/
def genericKernel (c : KvShape) (kvIdx gridDim blockDim blockIdx threadIdx : Nat) :
    List (Nat × Nat) :=
  (strides (blockIdx * blockDim + threadIdx) (blockDim * gridDim)
      (c.seqLen * c.numHeads * c.headDim)).map fun idx =>
    let d := idx % c.headDim
    let sh := idx / c.headDim
    let h := sh % c.numHeads
    let s := sh / c.numHeads
    (c.kvOffset kvIdx (c.pastLen + s) h d, c.deltaOffset s h d)

/-- The moves of a thread of the kernel for 64 elements a head: eight elements at once. -/
def headDim64Kernel (c : KvShape) (kvIdx blockIdx vecIdx : Nat) : List (Nat × Nat) :=
  let s := blockIdx / c.numHeads
  let h := blockIdx - s * c.numHeads
  if c.seqLen ≤ s ∨ 8 ≤ vecIdx then []
  else
    let srcBase := (s * c.numHeads + h) * 64
    let dstBase := ((kvIdx * c.maxSeqLen + (c.pastLen + s)) * c.numHeads + h) * 64
    (List.range 8).map fun i => (dstBase + (8 * vecIdx + i), srcBase + (8 * vecIdx + i))

/-- All moves of the generic kernel on a grid. -/
def genericMoves (c : KvShape) (kvIdx gridDim blockDim : Nat) : List (Nat × Nat) :=
  launch gridDim 1 blockDim fun x _ t => c.genericKernel kvIdx gridDim blockDim x t

/-- All moves of the kernel for 64 elements a head, on its grid. -/
def headDim64Moves (c : KvShape) (kvIdx gridDim : Nat) : List (Nat × Nat) :=
  launch gridDim 1 8 fun x _ t => c.headDim64Kernel kvIdx x t

end KvShape

/-- `appendMossLinearKV`: the moves of the kernel it launches. `cudaError` is what the check
after the launch says of a grid the device does not take. -/
def appendMossLinearKV (cudaError : String) (kvBuffer delta : Option (Nat → α))
    (seqLen pastLen maxSeqLen numHeads headDim kvIdx : Int) : Except String (List (Nat × Nat)) :=
  if kvBuffer.isNone then .error "appendMossLinearKV: kvBuffer must not be null."
  else if delta.isNone then .error "appendMossLinearKV: delta must not be null."
  else if seqLen < 0 ∨ pastLen < 0 ∨ maxSeqLen ≤ 0 ∨ numHeads ≤ 0 ∨ headDim ≤ 0 then
    .error "appendMossLinearKV: invalid shape argument."
  else if kvIdx ≠ 0 ∧ kvIdx ≠ 1 then .error "appendMossLinearKV: kvIdx must be 0 for K or 1 for V."
  else if maxSeqLen < Int.bmod (pastLen + seqLen) (2 ^ 32) then
    .error "appendMossLinearKV: pastLen + seqLen exceeds maxSeqLen."
  else if seqLen = 0 then .ok []
  else
    let c : KvShape :=
      ⟨seqLen.toNat, pastLen.toNat, maxSeqLen.toNat, numHeads.toNat, headDim.toNat⟩
    if headDim = 64 then
      let grid := gridDim (seqLen * numHeads)
      if Launchable grid 1 then .ok (c.headDim64Moves kvIdx.toNat grid) else .error cudaError
    else
      let grid := gridDim ((seqLen * numHeads * headDim + 256 - 1) / 256)
      if Launchable grid 1 then .ok (c.genericMoves kvIdx.toNat grid 256) else .error cudaError

/-- The cache after moves in an order. -/
def perform (kv delta : Nat → α) (order : List (Nat × Nat)) : Nat → α :=
  assign kv (order.map fun move => (move.1, delta move.2))

namespace KvShape

/-- What an append is for: the new positions of one plane hold the delta, and every other
element is what it was. -/
structure Appended (c : KvShape) (kvIdx : Nat) (kv delta kv' : Nat → α) : Prop where
  written : ∀ s < c.seqLen, ∀ h < c.numHeads, ∀ d < c.headDim,
    kv' (c.kvOffset kvIdx (c.pastLen + s) h d) = delta (c.deltaOffset s h d)
  kept : ∀ i, (∀ s < c.seqLen, ∀ h < c.numHeads, ∀ d < c.headDim,
    i ≠ c.kvOffset kvIdx (c.pastLen + s) h d) → kv' i = kv i

/-- The moves of a kernel are those of the new elements. -/
structure Moves (c : KvShape) (kvIdx : Nat) (moves : List (Nat × Nat)) : Prop where
  sound : ∀ move ∈ moves, ∃ s < c.seqLen, ∃ h < c.numHeads, ∃ d < c.headDim,
    move = (c.kvOffset kvIdx (c.pastLen + s) h d, c.deltaOffset s h d)
  complete : ∀ s < c.seqLen, ∀ h < c.numHeads, ∀ d < c.headDim,
    (c.kvOffset kvIdx (c.pastLen + s) h d, c.deltaOffset s h d) ∈ moves

section Moves
variable {c : KvShape} {kvIdx : Nat} {kv delta kv' kv'' : Nat → α} {moves order : List (Nat × Nat)}

/-- The new positions are one range of the cache. -/
theorem kvOffset_eq (c : KvShape) (kvIdx s h d : Nat) : c.kvOffset kvIdx (c.pastLen + s) h d =
    (kvIdx * c.maxSeqLen + c.pastLen) * c.numHeads * c.headDim + c.deltaOffset s h d := by
  rw [kvOffset, deltaOffset]
  ring

theorem Moves.perm (hm : Moves c kvIdx moves) (hp : order.Perm moves) : Moves c kvIdx order :=
  ⟨fun move h => hm.sound move (hp.mem_iff.mp h),
    fun s hs h hh d hd => hp.mem_iff.mpr (hm.complete s hs h hh d hd)⟩

/-- In whatever order the moves are made, the append is done. -/
theorem Moves.appended (hm : Moves c kvIdx order) (kv delta : Nat → α) :
    Appended c kvIdx kv delta (perform kv delta order) := by
  constructor
  · intro s hs h hh d hd
    have hmem : c.kvOffset kvIdx (c.pastLen + s) h d ∈
        (order.map fun move => (move.1, delta move.2)).map Prod.fst := by
      simp only [List.map_map, List.mem_map]
      exact ⟨_, hm.complete s hs h hh d hd, rfl⟩
    have hagree : ∀ w ∈ order.map fun move => (move.1, delta move.2), w.2 =
        delta (w.1 - (kvIdx * c.maxSeqLen + c.pastLen) * c.numHeads * c.headDim) := by
      intro w hw
      obtain ⟨move, hmove, rfl⟩ := List.mem_map.mp hw
      obtain ⟨s, -, h, -, d, -, rfl⟩ := hm.sound move hmove
      rw [kvOffset_eq, Nat.add_sub_cancel_left]
    rw [perform, assign_of_agree (g := fun i =>
      delta (i - (kvIdx * c.maxSeqLen + c.pastLen) * c.numHeads * c.headDim)) hagree hmem,
      kvOffset_eq, Nat.add_sub_cancel_left]
  · intro i hi
    refine assign_of_notMem ?_
    simp only [List.map_map, List.mem_map, not_exists, not_and]
    intro move hmove heq
    obtain ⟨s, hs, h, hh, d, hd, rfl⟩ := hm.sound move hmove
    exact hi s hs h hh d hd heq.symm

/-- There is one outcome of an append. -/
theorem Appended.unique (h : Appended c kvIdx kv delta kv') (h' : Appended c kvIdx kv delta kv'') :
    kv' = kv'' := by
  funext i
  by_cases hi : ∃ s < c.seqLen, ∃ h < c.numHeads, ∃ d < c.headDim,
      i = c.kvOffset kvIdx (c.pastLen + s) h d
  · obtain ⟨s, hs, j, hj, d, hd, rfl⟩ := hi
    rw [h.written s hs j hj d hd, h'.written s hs j hj d hd]
  · have hout : ∀ s < c.seqLen, ∀ j < c.numHeads, ∀ d < c.headDim,
        i ≠ c.kvOffset kvIdx (c.pastLen + s) j d := fun s hs j hj d hd heq =>
      hi ⟨s, hs, j, hj, d, hd, heq⟩
    rw [h.kept i hout, h'.kept i hout]

end Moves

section Kernels
variable {c : KvShape} {kvIdx grid block : Nat}

/-- The element that is moved is found back from its number. -/
theorem deltaOffset_split {s h d : Nat} (hh : h < c.numHeads) (hd : d < c.headDim) :
    c.deltaOffset s h d % c.headDim = d ∧ c.deltaOffset s h d / c.headDim % c.numHeads = h ∧
      c.deltaOffset s h d / c.headDim / c.numHeads = s := by
  have hdiv : c.deltaOffset s h d / c.headDim = s * c.numHeads + h := by
    rw [deltaOffset, Nat.mul_comm, Nat.mul_add_div (by omega), Nat.div_eq_of_lt hd, Nat.add_zero]
  refine ⟨?_, ?_, ?_⟩
  · rw [deltaOffset, Nat.mul_add_mod_of_lt hd]
  · rw [hdiv, Nat.mul_add_mod_of_lt hh]
  · rw [hdiv, Nat.mul_comm, Nat.mul_add_div (by omega), Nat.div_eq_of_lt hh, Nat.add_zero]

theorem deltaOffset_lt {s h d : Nat} (hs : s < c.seqLen) (hh : h < c.numHeads)
    (hd : d < c.headDim) : c.deltaOffset s h d < c.seqLen * c.numHeads * c.headDim := by
  have hsh : s * c.numHeads + h < c.seqLen * c.numHeads := by
    have hle := Nat.mul_le_mul_right c.numHeads (Nat.succ_le_of_lt hs)
    rw [Nat.succ_mul] at hle
    omega
  have hle := Nat.mul_le_mul_right c.headDim (Nat.succ_le_of_lt hsh)
  rw [Nat.succ_mul] at hle
  rw [deltaOffset]
  omega

/-- The generic kernel, on a grid and a block of any size. -/
theorem moves_generic (hg : 0 < grid) (hb : 0 < block) :
    Moves c kvIdx (c.genericMoves kvIdx grid block) := by
  have hstride : 0 < block * grid := Nat.mul_pos hb hg
  constructor
  · intro move hmove
    obtain ⟨-, -, x, -, t, -, hmem⟩ := mem_launch.mp hmove
    obtain ⟨idx, hidx, rfl⟩ := List.mem_map.mp hmem
    have hlt := ((mem_strides hstride).mp hidx).2.1
    have hsh : idx / c.headDim < c.seqLen * c.numHeads :=
      Nat.div_lt_of_lt_mul (by rwa [Nat.mul_comm c.headDim])
    have hd : 0 < c.headDim := Nat.pos_of_ne_zero fun h => by simp [h] at hlt
    have hh : 0 < c.numHeads := Nat.pos_of_ne_zero fun h => by simp [h] at hlt
    exact ⟨idx / c.headDim / c.numHeads,
      Nat.div_lt_of_lt_mul (by rwa [Nat.mul_comm c.numHeads]), idx / c.headDim % c.numHeads,
      Nat.mod_lt _ hh, idx % c.headDim, Nat.mod_lt _ hd, rfl⟩
  · intro s hs h hh d hd
    have hlt := deltaOffset_lt hs hh hd
    obtain ⟨hmod, hhead, hseq⟩ := deltaOffset_split (s := s) hh hd
    have hfirst : c.deltaOffset s h d % (block * grid) < block * grid := Nat.mod_lt _ hstride
    refine mem_launch.mpr ⟨0, Nat.one_pos, c.deltaOffset s h d % (block * grid) / block,
      Nat.div_lt_of_lt_mul hfirst, c.deltaOffset s h d % (block * grid) % block, Nat.mod_lt _ hb,
      List.mem_map.mpr ⟨c.deltaOffset s h d, ?_, ?_⟩⟩
    · rw [Nat.div_add_mod']
      refine (mem_strides hstride).mpr ⟨Nat.mod_le _ _, hlt, ?_⟩
      exact Nat.sub_mod_eq_zero_of_mod_eq (Nat.mod_mod _ _).symm
    · simp only [hmod, hhead, hseq]

/-- The kernel for 64 elements a head, on one block for each position and head. -/
theorem moves_headDim64 (h64 : c.headDim = 64) (hh : 0 < c.numHeads) :
    Moves c kvIdx (c.headDim64Moves kvIdx (c.seqLen * c.numHeads)) := by
  have hblock (x : Nat) : x - x / c.numHeads * c.numHeads = x % c.numHeads := by
    have hdiv := Nat.div_add_mod' x c.numHeads
    omega
  constructor
  · intro move hmove
    obtain ⟨-, -, x, hx, t, ht, hmem⟩ := mem_launch.mp hmove
    have hs : x / c.numHeads < c.seqLen := Nat.div_lt_of_lt_mul (by rwa [Nat.mul_comm c.numHeads])
    rw [headDim64Kernel, if_neg (by omega), hblock] at hmem
    obtain ⟨i, hi, rfl⟩ := List.mem_map.mp hmem
    have hi := List.mem_range.mp hi
    exact ⟨x / c.numHeads, hs, x % c.numHeads, Nat.mod_lt _ hh, 8 * t + i, by omega, by
      rw [kvOffset, deltaOffset, h64]⟩
  · intro s hs h hlt d hd
    have hx : s * c.numHeads + h < c.seqLen * c.numHeads := by
      have hle := Nat.mul_le_mul_right c.numHeads (Nat.succ_le_of_lt hs)
      rw [Nat.succ_mul] at hle
      omega
    have hdiv : (s * c.numHeads + h) / c.numHeads = s := by
      rw [Nat.mul_comm, Nat.mul_add_div hh, Nat.div_eq_of_lt hlt, Nat.add_zero]
    have hmod : (s * c.numHeads + h) % c.numHeads = h := by
      rw [Nat.mul_add_mod_of_lt hlt]
    refine mem_launch.mpr ⟨0, Nat.one_pos, s * c.numHeads + h, hx, d / 8, by omega, ?_⟩
    rw [headDim64Kernel, if_neg (by omega), hblock, hdiv, hmod]
    refine List.mem_map.mpr ⟨d % 8, List.mem_range.mpr (Nat.mod_lt _ (by decide)), ?_⟩
    have hd8 : 8 * (d / 8) + d % 8 = d := Nat.div_add_mod d 8
    rw [kvOffset, deltaOffset, h64, hd8]

end Kernels

/-- A call that passes the checks, on a grid the device takes. -/
structure Valid (c : KvShape) : Prop where
  heads : 0 < c.numHeads
  dims : 0 < c.headDim
  room : c.pastLen + c.seqLen ≤ c.maxSeqLen
  max : 0 < c.maxSeqLen ∧ c.maxSeqLen < 2 ^ 31
  grid : if c.headDim = 64 then c.seqLen * c.numHeads < 2 ^ 31
    else (c.seqLen * c.numHeads * c.headDim + 256 - 1) / 256 < 2 ^ 31

section Append
variable {c : KvShape} {kvIdx : Nat} {kv delta : Nat → α}

/-- The host launches a kernel with the moves of the new elements. -/
theorem exists_moves (cudaError : String) (kv delta : Nat → α) (hc : c.Valid) (hkv : kvIdx < 2) :
    ∃ moves, appendMossLinearKV cudaError (some kv) (some delta) c.seqLen c.pastLen c.maxSeqLen
      c.numHeads c.headDim kvIdx = .ok moves ∧ Moves c kvIdx moves := by
  obtain ⟨hheads, hdims, hroom, hmax, hgrid⟩ := hc
  have hsum : Int.bmod ((c.pastLen : Int) + c.seqLen) (2 ^ 32) = (c.pastLen : Int) + c.seqLen :=
    Int.bmod_eq_of_le (by omega) (by omega)
  have hstart : appendMossLinearKV cudaError (some kv) (some delta) c.seqLen c.pastLen c.maxSeqLen
      c.numHeads c.headDim kvIdx =
      if (c.seqLen : Int) = 0 then .ok []
      else if (c.headDim : Int) = 64 then
        if Launchable (gridDim ((c.seqLen : Int) * c.numHeads)) 1 then
          .ok (c.headDim64Moves kvIdx (gridDim ((c.seqLen : Int) * c.numHeads)))
        else .error cudaError
      else
        if Launchable (gridDim (((c.seqLen : Int) * c.numHeads * c.headDim + 256 - 1) / 256)) 1 then
          .ok (c.genericMoves kvIdx
            (gridDim (((c.seqLen : Int) * c.numHeads * c.headDim + 256 - 1) / 256)) 256)
        else .error cudaError := by
    rw [appendMossLinearKV, if_neg (by simp), if_neg (by simp), if_neg (by omega),
      if_neg (by omega), hsum, if_neg (by omega)]
    rfl
  rw [hstart]
  by_cases hempty : (c.seqLen : Int) = 0
  · refine ⟨[], if_pos hempty, ⟨by simp, fun s hs => ?_⟩⟩
    omega
  rw [if_neg hempty]
  have hseq : 0 < c.seqLen := by omega
  by_cases h64 : c.headDim = 64
  · have hgd : gridDim ((c.seqLen : Int) * c.numHeads) = c.seqLen * c.numHeads := by
      rw [← Nat.cast_mul]
      exact gridDim_natCast (by simp only [h64, if_true] at hgrid; omega)
    have hlaunch : Launchable (c.seqLen * c.numHeads) 1 :=
      ⟨⟨Nat.mul_pos hseq hheads, by simpa only [h64, if_true] using hgrid⟩, by decide⟩
    rw [if_pos (by omega), hgd, if_pos hlaunch]
    exact ⟨_, rfl, moves_headDim64 h64 hheads⟩
  · have htotal : 0 < c.seqLen * c.numHeads * c.headDim :=
      Nat.mul_pos (Nat.mul_pos hseq hheads) hdims
    rw [if_neg h64] at hgrid
    have hgd : gridDim (((c.seqLen : Int) * c.numHeads * c.headDim + 256 - 1) / 256) =
        (c.seqLen * c.numHeads * c.headDim + 256 - 1) / 256 := by
      have hcast : (((c.seqLen : Int) * c.numHeads * c.headDim + 256 - 1) / 256) =
          ((c.seqLen * c.numHeads * c.headDim + 256 - 1) / 256 : Nat) := by
        rw [← Nat.cast_mul, ← Nat.cast_mul]
        omega
      rw [hcast]
      exact gridDim_natCast (by omega)
    have hlaunch : Launchable ((c.seqLen * c.numHeads * c.headDim + 256 - 1) / 256) 1 :=
      ⟨⟨by omega, hgrid⟩, by decide⟩
    rw [if_neg (by omega), hgd, if_pos hlaunch]
    exact ⟨_, rfl, moves_generic hlaunch.1.1 (by decide)⟩

/-- Keys and values have no element of the cache in common. -/
theorem kvOffset_ne {s h d s' h' d' : Nat} (hroom : c.pastLen + c.seqLen ≤ c.maxSeqLen)
    (hs : s < c.seqLen) (hh : h < c.numHeads) (hd : d < c.headDim) :
    c.kvOffset 0 (c.pastLen + s) h d ≠ c.kvOffset 1 (c.pastLen + s') h' d' := by
  have hlt := deltaOffset_lt hs hh hd
  have hle : (c.pastLen + c.seqLen) * c.numHeads * c.headDim ≤
      c.maxSeqLen * c.numHeads * c.headDim :=
    Nat.mul_le_mul_right _ (Nat.mul_le_mul_right _ hroom)
  have hsplit : (c.pastLen + c.seqLen) * c.numHeads * c.headDim =
      c.pastLen * c.numHeads * c.headDim + c.seqLen * c.numHeads * c.headDim := by ring
  have hplane : (1 * c.maxSeqLen + c.pastLen) * c.numHeads * c.headDim =
      c.maxSeqLen * c.numHeads * c.headDim + c.pastLen * c.numHeads * c.headDim := by ring
  rw [kvOffset_eq, kvOffset_eq, hplane, Nat.zero_mul, Nat.zero_add]
  omega

theorem kvOffset_lt {s h d : Nat} (hkv : kvIdx < 2) (hroom : c.pastLen + c.seqLen ≤ c.maxSeqLen)
    (hs : s < c.seqLen) (hh : h < c.numHeads) (hd : d < c.headDim) :
    c.kvOffset kvIdx (c.pastLen + s) h d < 2 * c.maxSeqLen * c.numHeads * c.headDim := by
  have hlt := deltaOffset_lt hs hh hd
  have hrows : kvIdx * c.maxSeqLen + c.pastLen + c.seqLen ≤ 2 * c.maxSeqLen := by
    have hplane : kvIdx * c.maxSeqLen ≤ 1 * c.maxSeqLen := Nat.mul_le_mul_right _ (by omega)
    omega
  have hle : (kvIdx * c.maxSeqLen + c.pastLen + c.seqLen) * c.numHeads * c.headDim ≤
      2 * c.maxSeqLen * c.numHeads * c.headDim :=
    Nat.mul_le_mul_right _ (Nat.mul_le_mul_right _ hrows)
  have hsplit : (kvIdx * c.maxSeqLen + c.pastLen + c.seqLen) * c.numHeads * c.headDim =
      (kvIdx * c.maxSeqLen + c.pastLen) * c.numHeads * c.headDim +
        c.seqLen * c.numHeads * c.headDim := by ring
  rw [kvOffset_eq]
  omega

/-- Every move stays inside the delta and the cache. -/
theorem Moves.inside {moves : List (Nat × Nat)} {move : Nat × Nat} (hm : Moves c kvIdx moves)
    (hkv : kvIdx < 2) (hroom : c.pastLen + c.seqLen ≤ c.maxSeqLen) (hmove : move ∈ moves) :
    move.1 < 2 * c.maxSeqLen * c.numHeads * c.headDim ∧
      move.2 < c.seqLen * c.numHeads * c.headDim := by
  obtain ⟨s, hs, h, hh, d, hd, rfl⟩ := hm.sound move hmove
  exact ⟨kvOffset_lt hkv hroom hs hh hd, deltaOffset_lt hs hh hd⟩

/-- An append of keys and one of values to the same slot. -/
structure AppendedBoth (c : KvShape) (kv k v kv' : Nat → α) : Prop where
  keys : ∀ s < c.seqLen, ∀ h < c.numHeads, ∀ d < c.headDim,
    kv' (c.kvOffset 0 (c.pastLen + s) h d) = k (c.deltaOffset s h d)
  values : ∀ s < c.seqLen, ∀ h < c.numHeads, ∀ d < c.headDim,
    kv' (c.kvOffset 1 (c.pastLen + s) h d) = v (c.deltaOffset s h d)
  kept : ∀ i, (∀ plane < 2, ∀ s < c.seqLen, ∀ h < c.numHeads, ∀ d < c.headDim,
    i ≠ c.kvOffset plane (c.pastLen + s) h d) → kv' i = kv i

theorem Appended.both {k v kv' kv'' : Nat → α} (hroom : c.pastLen + c.seqLen ≤ c.maxSeqLen)
    (hk : Appended c 0 kv k kv') (hv : Appended c 1 kv' v kv'') : AppendedBoth c kv k v kv'' where
  keys s hs h hh d hd := by
    rw [hv.kept _ fun _ _ _ _ _ _ => kvOffset_ne hroom hs hh hd, hk.written s hs h hh d hd]
  values := hv.written
  kept i hi := by
    rw [hv.kept i (hi 1 (by decide)), hk.kept i (hi 0 (by decide))]

/-- One call for the keys and one for the values of a slot, each on the kernel the host selects,
in any order of the moves: the new positions of both planes get the new elements and all else is
kept; and the generic kernel, on a grid and block of any size, leaves what the selected one
leaves. All moves stay inside the delta and the cache. -/
theorem append_local_agrees (cudaError : String) (c : KvShape) (hc : c.Valid)
    (kv k v : Nat → α) :
    ∃ keys values,
      appendMossLinearKV cudaError (some kv) (some k) c.seqLen c.pastLen c.maxSeqLen c.numHeads
        c.headDim 0 = .ok keys ∧
      appendMossLinearKV cudaError (some kv) (some v) c.seqLen c.pastLen c.maxSeqLen c.numHeads
        c.headDim 1 = .ok values ∧
      (∀ move ∈ keys ++ values, move.1 < 2 * c.maxSeqLen * c.numHeads * c.headDim ∧
        move.2 < c.seqLen * c.numHeads * c.headDim) ∧
      (∀ first second, first.Perm keys → second.Perm values →
        Appended c 0 kv k (perform kv k first) ∧ Appended c 1 kv v (perform kv v second) ∧
        AppendedBoth c kv k v (perform (perform kv k first) v second)) ∧
      ∀ grid block, 0 < grid → 0 < block → ∀ first second, first.Perm keys → second.Perm values →
        (∀ order, order.Perm (c.genericMoves 0 grid block) →
          perform kv k order = perform kv k first) ∧
        ∀ order, order.Perm (c.genericMoves 1 grid block) →
          perform kv v order = perform kv v second := by
  obtain ⟨keys, hkeys, hmk⟩ :=
    exists_moves cudaError kv k hc (show 0 < 2 by decide)
  obtain ⟨values, hvalues, hmv⟩ :=
    exists_moves cudaError kv v hc (show 1 < 2 by decide)
  refine ⟨keys, values, hkeys, hvalues, fun move hmove => ?_, fun first second hf hs => ?_,
    fun grid block hg hb first second hf hs => ⟨fun order ho => ?_, fun order ho => ?_⟩⟩
  · rcases List.mem_append.mp hmove with h | h
    · exact hmk.inside (by decide) hc.room h
    · exact hmv.inside (by decide) hc.room h
  · have hfirst := (hmk.perm hf).appended kv k
    exact ⟨hfirst, (hmv.perm hs).appended kv v,
      hfirst.both hc.room ((hmv.perm hs).appended _ v)⟩
  · exact (((moves_generic hg hb).perm ho).appended kv k).unique ((hmk.perm hf).appended kv k)
  · exact (((moves_generic hg hb).perm ho).appended kv v).unique ((hmv.perm hs).appended kv v)

theorem append_local_agrees_decode :
    ∃ keys values,
      appendMossLinearKV "" (some fun i => i) (some fun i => i + 7) 1 2 4 3 64 0 = .ok keys ∧
      appendMossLinearKV "" (some fun i => i) (some fun i => i + 9) 1 2 4 3 64 1 = .ok values ∧
      AppendedBoth ⟨1, 2, 4, 3, 64⟩ (fun i => i) (fun i => i + 7) (fun i => i + 9)
        (perform (perform (fun i => i) (fun i => i + 7) keys) (fun i => i + 9) values) := by
  obtain ⟨keys, values, hkeys, hvalues, -, hdone, -⟩ :=
    append_local_agrees "" ⟨1, 2, 4, 3, 64⟩ ⟨by decide, by decide, by decide, by decide, by decide⟩
      (fun i => i) (fun i => i + 7) (fun i => i + 9)
  exact ⟨keys, values, hkeys, hvalues, (hdone keys values (.refl _) (.refl _)).2.2⟩

/-- A call writes one plane: after an append of the keys the value at the new position is the
old one. -/
theorem keys_leave_values :
    ∃ moves, appendMossLinearKV "" (some fun _ => 0) (some fun _ => 5) 1 0 1 1 1 0 = .ok moves ∧
      perform (fun _ => 0) (fun _ => 5) moves (kvOffset ⟨1, 0, 1, 1, 1⟩ 0 0 0 0) = 5 ∧
      perform (fun _ => 0) (fun _ => 5) moves (kvOffset ⟨1, 0, 1, 1, 1⟩ 1 0 0 0) = 0 :=
  ⟨[(0, 0)], by decide +kernel, by decide, by decide⟩

end Append

end KvShape
end JetsonVoice.Moss
