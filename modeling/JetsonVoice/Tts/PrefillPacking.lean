import Mathlib.Algebra.Notation.Defs
import Mathlib.Algebra.Order.Ring.Nat
import Mathlib.Algebra.Ring.Int.Defs
import Mathlib.Logic.Nontrivial.Defs
import JetsonVoice.Foundation.BlockCopy

/-!
# The batched prefill of the Talker

The prompts of a batch are built one after the other in the first rows of one
buffer, stashed in a slot for each lane, and then moved to where the batched
prefill expects them. The slots are as long as the longest prompt the engine
supports, the destinations as long as the longest prompt of the batch, and the
lanes are moved from the last one down.

## Implementation notes

A cell of the memory is one row of the buffer, an embedding of the hidden size.
The copy of the device and the function that builds a prompt are parameters.
-/

namespace JetsonVoice.Tts.Prefill

open Foundation

/-- The lanes of a batch, the rows of a slot and the rows of each lane's prompt. -/
structure Batch where
  activeBatchSize : Nat
  maxInputSeqLen : Nat
  perBatchSeqLens : Nat → Nat

/-- Every prompt has a row, and the slot of a lane holds its prompt. -/
structure Batch.Valid (B : Batch) : Prop where
  lanes : 0 < B.activeBatchSize
  pos : ∀ {b}, b < B.activeBatchSize → 0 < B.perBatchSeqLens b
  fits : ∀ {b}, b < B.activeBatchSize → B.perBatchSeqLens b ≤ B.maxInputSeqLen

/-- The length of the longest prompt, in the order in which the lanes are built. -/
def Batch.maxOutSeqLen (B : Batch) : Nat :=
  (List.range B.activeBatchSize).reverse.foldl (fun len b => max len (B.perBatchSeqLens b)) 0

/-- The calls the assembly makes. -/
structure Device (α : Type*) where
  memcpyAsync : (dst src n : Nat) → (Nat → α) → Nat → α
  prepareTalkerInput : (b : Nat) → (Nat → α) → Nat → α

variable {α : Type*}

/-- What the calls are documented to do: the copy is one, and the builder leaves a
lane's prompt in the first rows and keeps to the scratch slot. -/
structure Device.Sound (D : Device α) (B : Batch) (prompt : Nat → Nat → α) : Prop where
  memcpy : IsMemcpy D.memcpyAsync
  built : ∀ {b i m}, b < B.activeBatchSize → i < B.perBatchSeqLens b →
    D.prepareTalkerInput b m i = prompt b i
  scratch : ∀ {b j m}, b < B.activeBatchSize → B.maxInputSeqLen ≤ j →
    D.prepareTalkerInput b m j = m j

section Assembly
variable [Zero α] (D : Device α) (B : Batch)

/-- The prompt of lane `b` is built in the scratch slot and stashed in its own. -/
def stashLane (b : Nat) (m : Nat → α) : Nat → α :=
  D.memcpyAsync (b * B.maxInputSeqLen) 0 (B.perBatchSeqLens b) (D.prepareTalkerInput b m)

/-- Lanes `n` down to 1 are stashed. -/
def stashLanes : Nat → (Nat → α) → Nat → α
  | 0, m => m
  | n + 1, m => stashLanes n (stashLane D B (n + 1) m)

/-- The row at which the slot of a lane starts. -/
def srcRow (b : Nat) : Nat := if b = 0 then 0 else b * B.maxInputSeqLen

/-- The row at which the destination of a lane starts. -/
def dstRow (b : Nat) : Nat := b * B.maxOutSeqLen

/-- The prompt of lane `b` is moved to its destination and padded. -/
def assembleLane (b : Nat) (m : Nat → α) : Nat → α :=
  let m := if srcRow B b ≠ dstRow B b then
      D.memcpyAsync (dstRow B b) (srcRow B b) (B.perBatchSeqLens b) m
    else m
  if B.perBatchSeqLens b < B.maxOutSeqLen then
    memset (dstRow B b + B.perBatchSeqLens b) (B.maxOutSeqLen - B.perBatchSeqLens b) 0 m
  else m

/-- Lanes `n - 1` down to 0 are assembled. -/
def assembleLanes : Nat → (Nat → α) → Nat → α
  | 0, m => m
  | n + 1, m => assembleLanes n (assembleLane D B n m)

/-- The buffer the batched prefill is run on. -/
def prefillBuffer (m : Nat → α) : Nat → α :=
  assembleLanes D B B.activeBatchSize
    (D.prepareTalkerInput 0 (stashLanes D B (B.activeBatchSize - 1) m))

/-- In the buffer the row of every lane is its prompt, padded with zeros. -/
def Packed (prompt : Nat → Nat → α) (buffer : Nat → α) : Prop :=
  ∀ b i, b < B.activeBatchSize → i < B.maxOutSeqLen →
    buffer (dstRow B b + i) = if i < B.perBatchSeqLens b then prompt b i else 0

end Assembly

section Lengths
variable {B : Batch} {b : Nat}

theorem foldl_max_le_iff {f : Nat → Nat} {l : List Nat} {a c : Nat} :
    l.foldl (fun len b => max len (f b)) a ≤ c ↔ a ≤ c ∧ ∀ b ∈ l, f b ≤ c := by
  induction l generalizing a with
  | nil => simp
  | cons b l ih =>
      rw [List.foldl_cons, ih]
      simp [and_assoc]

theorem maxOutSeqLen_le_iff {c : Nat} :
    B.maxOutSeqLen ≤ c ↔ ∀ b < B.activeBatchSize, B.perBatchSeqLens b ≤ c := by
  rw [Batch.maxOutSeqLen, foldl_max_le_iff]
  simp

theorem perBatchSeqLens_le (hb : b < B.activeBatchSize) :
    B.perBatchSeqLens b ≤ B.maxOutSeqLen :=
  maxOutSeqLen_le_iff.mp le_rfl b hb

theorem Batch.Valid.maxOutSeqLen_pos (h : B.Valid) : 0 < B.maxOutSeqLen :=
  lt_of_lt_of_le (h.pos h.lanes) (perBatchSeqLens_le h.lanes)

theorem srcRow_of_pos (hb : 0 < b) : srcRow B b = b * B.maxInputSeqLen := if_neg hb.ne'

/-- The destinations follow one another. -/
theorem dstRow_add_le {c : Nat} (h : b < c) : dstRow B b + B.maxOutSeqLen ≤ dstRow B c := by
  rw [dstRow, dstRow, ← Nat.succ_mul]
  exact Nat.mul_le_mul_right _ h

end Lengths

section Stash
variable {D : Device α} {B : Batch} {prompt : Nat → Nat → α}

theorem stashLane_frame (hD : D.Sound B prompt) {b j : Nat} (m : Nat → α)
    (hb : b < B.activeBatchSize) (hscratch : B.maxInputSeqLen ≤ j)
    (hj : j < b * B.maxInputSeqLen ∨ b * B.maxInputSeqLen + B.perBatchSeqLens b ≤ j) :
    stashLane D B b m j = m j :=
  (hD.memcpy.frame hj).trans (hD.scratch hb hscratch)

theorem stashLane_slot (hB : B.Valid) (hD : D.Sound B prompt) {b i : Nat} (m : Nat → α)
    (hpos : 0 < b) (hb : b < B.activeBatchSize) (hi : i < B.perBatchSeqLens b) :
    stashLane D B b m (b * B.maxInputSeqLen + i) = prompt b i := by
  have hslot : B.maxInputSeqLen ≤ b * B.maxInputSeqLen := Nat.le_mul_of_pos_left _ hpos
  have hapart : Apart (b * B.maxInputSeqLen) (B.perBatchSeqLens b) 0 (B.perBatchSeqLens b) :=
    .inr (by have := hB.fits hb; omega)
  rw [stashLane, hD.memcpy.moved hapart hi, Nat.zero_add, hD.built hb hi]

/-- The stashed prompts are in their slots, and nothing above them has changed. -/
theorem stashLanes_spec (hB : B.Valid) (hD : D.Sound B prompt) {n : Nat}
    (hn : n < B.activeBatchSize) (m : Nat → α) :
    (∀ b i, 0 < b → b ≤ n → i < B.perBatchSeqLens b →
      stashLanes D B n m (b * B.maxInputSeqLen + i) = prompt b i) ∧
    ∀ j, (n + 1) * B.maxInputSeqLen ≤ j → stashLanes D B n m j = m j := by
  induction n generalizing m with
  | zero => exact ⟨fun b i hpos hb => absurd hb (Nat.not_le.mpr hpos), fun _ _ => rfl⟩
  | succ n ih =>
      obtain ⟨hslots, hframe⟩ := ih (Nat.lt_of_succ_lt hn) (stashLane D B (n + 1) m)
      constructor
      · intro b i hpos hb hi
        rcases Nat.le_succ_iff.mp hb with hb | rfl
        · exact hslots b i hpos hb hi
        · exact (hframe _ (Nat.le_add_right ..)).trans (stashLane_slot hB hD m hpos hn hi)
      · intro j hj
        have hfits := hB.fits hn
        rw [Nat.succ_mul] at hj
        have hscratch : B.maxInputSeqLen ≤ (n + 1) * B.maxInputSeqLen :=
          Nat.le_mul_of_pos_left _ n.succ_pos
        exact (hframe j (by omega)).trans
          (stashLane_frame hD m hn (by omega) (.inr (by omega)))

/-- Before the second phase every prompt is in its slot. -/
theorem stashed (hB : B.Valid) (hD : D.Sound B prompt) (m : Nat → α) {b i : Nat}
    (hb : b < B.activeBatchSize) (hi : i < B.perBatchSeqLens b) :
    D.prepareTalkerInput 0 (stashLanes D B (B.activeBatchSize - 1) m) (srcRow B b + i) =
      prompt b i := by
  have hlanes := hB.lanes
  rcases Nat.eq_zero_or_pos b with rfl | hpos
  · simpa [srcRow] using hD.built hlanes hi
  · have hslot : B.maxInputSeqLen ≤ b * B.maxInputSeqLen := Nat.le_mul_of_pos_left _ hpos
    rw [srcRow_of_pos hpos, hD.scratch hlanes (by omega)]
    exact (stashLanes_spec hB hD (by omega) m).1 b i hpos (by omega) hi

end Stash

section Assemble
variable [Zero α] {D : Device α} {B : Batch} {prompt : Nat → Nat → α} {m : Nat → α}

/-- A lane's turn changes its destination only. -/
theorem assembleLane_frame (hD : D.Sound B prompt) {b j : Nat} (hb : b < B.activeBatchSize)
    (hj : j < dstRow B b ∨ dstRow B b + B.maxOutSeqLen ≤ j) : assembleLane D B b m j = m j := by
  have hlen := perBatchSeqLens_le hb
  have hcopy : (if srcRow B b ≠ dstRow B b then
      D.memcpyAsync (dstRow B b) (srcRow B b) (B.perBatchSeqLens b) m else m) j = m j := by
    split
    · exact hD.memcpy.frame (by omega)
    · rfl
  unfold assembleLane
  split
  · exact (memset_frame _ (by omega)).trans hcopy
  · exact hcopy

theorem assembleLane_pad {b i : Nat} (hi : B.perBatchSeqLens b ≤ i) (hlt : i < B.maxOutSeqLen) :
    assembleLane D B b m (dstRow B b + i) = 0 := by
  rw [assembleLane, if_pos (by omega)]
  exact memset_set _ (by omega)

/-- The rows of the prompt are those the copy leaves there. -/
theorem assembleLane_prompt {b i : Nat} (hi : i < B.perBatchSeqLens b) :
    assembleLane D B b m (dstRow B b + i) = if srcRow B b ≠ dstRow B b then
      D.memcpyAsync (dstRow B b) (srcRow B b) (B.perBatchSeqLens b) m (dstRow B b + i)
    else m (dstRow B b + i) := by
  unfold assembleLane
  split_ifs
  · exact memset_frame _ (by omega)
  · exact memset_frame _ (by omega)
  · rfl
  · rfl

theorem assembleLanes_frame (hD : D.Sound B prompt) {n j : Nat} (hn : n ≤ B.activeBatchSize)
    (hj : dstRow B n ≤ j) : assembleLanes D B n m j = m j := by
  induction n generalizing m with
  | zero => rfl
  | succ n ih =>
      have hdst : dstRow B n + B.maxOutSeqLen ≤ dstRow B (n + 1) := dstRow_add_le n.lt_succ_self
      rw [assembleLanes, ih (Nat.le_of_succ_le hn) (by omega),
        assembleLane_frame hD hn (.inr (by omega))]

/-- A run of the second phase up to the turn of lane `c`, with what the turns before
it keep. -/
theorem assembleLanes_split {P : (Nat → α) → Prop} {n c : Nat} (hc : c < n)
    (hP : ∀ b m, c < b → b < n → P m → P (assembleLane D B b m)) (h : P m) :
    ∃ m', P m' ∧ assembleLanes D B n m = assembleLanes D B c (assembleLane D B c m') := by
  induction n generalizing m with
  | zero => cases hc
  | succ n ih =>
      rcases Nat.lt_succ_iff_lt_or_eq.mp hc with hlt | rfl
      · exact ih hlt (fun b m hb hn => hP b m hb (Nat.lt_succ_of_lt hn))
          (hP n m hlt n.lt_succ_self h)
      · exact ⟨m, h, rfl⟩

end Assemble

/-- The slot of every lane but the first is its destination, or is apart from it and
from the destinations of the lanes above. -/
def Packable (B : Batch) : Prop :=
  B.maxInputSeqLen = B.maxOutSeqLen ∨
    ∀ b, 0 < b → b < B.activeBatchSize →
      Apart (dstRow B b) (B.perBatchSeqLens b) (srcRow B b) (B.perBatchSeqLens b) ∧
      ∀ c, b < c → c < B.activeBatchSize →
        Apart (srcRow B b) (B.perBatchSeqLens b) (dstRow B c) B.maxOutSeqLen

section Packable
variable {D : Device α} {B : Batch} {prompt : Nat → Nat → α} {m : Nat → α} {b c : Nat}

/-- The slot of a lane is apart from the destinations of the lanes above. -/
theorem Packable.above (hp : Packable B) (hbc : b < c) (hc : c < B.activeBatchSize) :
    Apart (srcRow B b) (B.perBatchSeqLens b) (dstRow B c) B.maxOutSeqLen := by
  have hlen := perBatchSeqLens_le (hbc.trans hc)
  have hdst := dstRow_add_le (B := B) hbc
  rcases Nat.eq_zero_or_pos b with rfl | hpos
  · exact .inl (by simp only [srcRow, if_true]; omega)
  · rcases hp with heq | hp
    · refine .inl ?_
      rw [srcRow_of_pos hpos, heq]
      exact (Nat.add_le_add_left hlen _).trans hdst
    · exact (hp b hpos (hbc.trans hc)).2 c hbc hc

variable [Zero α]

/-- A lane whose prompt is in its slot is packed by its turn. -/
theorem assembleLane_packed (hD : D.Sound B prompt) (hp : Packable B)
    (hb : b < B.activeBatchSize)
    (hslot : ∀ i < B.perBatchSeqLens b, m (srcRow B b + i) = prompt b i) {i : Nat}
    (hi : i < B.maxOutSeqLen) : assembleLane D B b m (dstRow B b + i) =
      if i < B.perBatchSeqLens b then prompt b i else 0 := by
  split_ifs with hlen
  · rw [assembleLane_prompt hlen]
    split_ifs with hne
    · have hapart :
          Apart (dstRow B b) (B.perBatchSeqLens b) (srcRow B b) (B.perBatchSeqLens b) := by
        rcases Nat.eq_zero_or_pos b with rfl | hpos
        · simp [srcRow, dstRow] at hne
        · rcases hp with heq | hp
          · exact absurd (by rw [srcRow_of_pos hpos, dstRow, heq]) hne
          · exact (hp b hpos hb).1
      rw [hD.memcpy.moved hapart hlen, hslot i hlen]
    · rw [← not_not.mp hne, hslot i hlen]
  · exact assembleLane_pad (Nat.le_of_not_lt hlen) hi

/-- The induction is on the lanes that are left; their prompts stay in their slots. -/
theorem assembleLanes_packed (hD : D.Sound B prompt) (hp : Packable B) {n : Nat}
    (hn : n ≤ B.activeBatchSize)
    (hslots : ∀ b < n, ∀ i < B.perBatchSeqLens b, m (srcRow B b + i) = prompt b i) :
    ∀ b < n, ∀ i < B.maxOutSeqLen, assembleLanes D B n m (dstRow B b + i) =
      if i < B.perBatchSeqLens b then prompt b i else 0 := by
  induction n generalizing m with
  | zero => exact fun b hb => absurd hb (Nat.not_lt_zero b)
  | succ n ih =>
      intro b hb i hi
      have hkeep : ∀ b < n, ∀ i < B.perBatchSeqLens b,
          assembleLane D B n m (srcRow B b + i) = prompt b i := by
        intro b hb i hi
        have hapart := hp.above hb hn
        rw [assembleLane_frame hD hn (by unfold Apart at hapart; omega),
          hslots b (Nat.lt_succ_of_lt hb) i hi]
      rcases Nat.lt_succ_iff_lt_or_eq.mp hb with hlt | rfl
      · exact ih (Nat.le_of_succ_le hn) hkeep b hlt i hi
      · rw [assembleLanes, assembleLanes_frame hD (Nat.le_of_succ_le hn) (Nat.le_add_right ..)]
        exact assembleLane_packed hD hp hn (hslots b b.lt_succ_self) hi

end Packable

section Overlap
variable [Zero α] {B : Batch} {b c : Nat} {a : α}

/-- The device on which only the prompt of lane `b` is not zero. -/
def oneLane (a : α) (b : Nat) (copy : (dst src n : Nat) → (Nat → α) → Nat → α) (B : Batch) :
    Device α where
  memcpyAsync := copy
  prepareTalkerInput lane m j :=
    if j < B.perBatchSeqLens lane then (if lane = b then a else 0) else m j

theorem oneLane_sound (hB : B.Valid) {copy : (dst src n : Nat) → (Nat → α) → Nat → α}
    (hcopy : IsMemcpy copy) :
    (oneLane a b copy B).Sound B fun lane _ => if lane = b then a else 0 where
  memcpy := hcopy
  built _ hi := if_pos hi
  scratch hlane hj := if_neg (Nat.not_lt.mpr ((hB.fits hlane).trans hj))

/-- A copy onto its own source may spoil the prompt. -/
theorem not_packed_of_self (hB : B.Valid) (ha : a ≠ 0) (hpos : 0 < b)
    (hb : b < B.activeBatchSize) (hne : B.maxInputSeqLen ≠ B.maxOutSeqLen)
    (h : ¬ Apart (dstRow B b) (B.perBatchSeqLens b) (srcRow B b) (B.perBatchSeqLens b))
    (m : Nat → α) :
    ¬ Packed B (fun lane _ => if lane = b then a else 0)
      (prefillBuffer (oneLane a b (spoil 0) B) B m) := by
  intro hpacked
  have hD := oneLane_sound (a := a) (b := b) hB (isMemcpy_spoil 0)
  have hlen := hB.pos hb
  have hrow := hpacked b 0 hb hB.maxOutSeqLen_pos
  obtain ⟨m', -, hrun⟩ := assembleLanes_split (D := oneLane a b (spoil 0) B) (P := fun _ => True)
    hb (fun _ _ _ _ _ => trivial) trivial
  have hsrc : srcRow B b ≠ dstRow B b := by
    rw [srcRow_of_pos hpos, dstRow]
    exact fun heq => hne (Nat.eq_of_mul_eq_mul_left hpos heq)
  rw [prefillBuffer, hrun, assembleLanes_frame hD hb.le (Nat.le_add_right ..),
    assembleLane_prompt hlen, if_pos hsrc, if_pos hlen] at hrow
  have hzero := hrow.symm.trans (spoil_spoils hlen h)
  exact ha (by simpa using hzero)

/-- The turns of the other lanes leave zeros, or what was there. -/
theorem assembleLane_zero {m₀ m : Nat → α}
    (hslot : ∀ i < B.perBatchSeqLens c, m₀ (srcRow B c + i) = 0)
    (hm : ∀ j, m j = m₀ j ∨ m j = 0) {i : Nat} (hi : i < B.maxOutSeqLen)
    (hne : srcRow B c ≠ dstRow B c) :
    assembleLane (oneLane a b memmove B) B c m (dstRow B c + i) = 0 := by
  by_cases hlen : i < B.perBatchSeqLens c
  · rw [assembleLane_prompt hlen, if_pos hne]
    have hread : memmove (dstRow B c) (srcRow B c) (B.perBatchSeqLens c) m (dstRow B c + i) =
        m (srcRow B c + i) := memmove_moved m hlen
    rcases hm (srcRow B c + i) with hkept | hzero
    · exact hread.trans (hkept.trans (hslot i hlen))
    · exact hread.trans hzero
  · exact assembleLane_pad (Nat.le_of_not_lt hlen) hi

/-- A lane whose slot meets the destination of a lane above loses its prompt. -/
theorem not_packed_of_above (hB : B.Valid) (ha : a ≠ 0) (hpos : 0 < b) (hbc : b < c)
    (hc : c < B.activeBatchSize) (hne : B.maxInputSeqLen ≠ B.maxOutSeqLen)
    (h : ¬ Apart (srcRow B b) (B.perBatchSeqLens b) (dstRow B c) B.maxOutSeqLen) (m : Nat → α) :
    ¬ Packed B (fun lane _ => if lane = b then a else 0)
      (prefillBuffer (oneLane a b memmove B) B m) := by
  intro hpacked
  have hb := hbc.trans hc
  have hD := oneLane_sound (a := a) (b := b) hB isMemcpy_memmove
  have hsrc {lane : Nat} (hpos : 0 < lane) : srcRow B lane ≠ dstRow B lane := by
    rw [srcRow_of_pos hpos, dstRow]
    exact fun heq => hne (Nat.eq_of_mul_eq_mul_left hpos heq)
  obtain ⟨j, hj, hjlen, hdst, hdstlen⟩ :=
    exists_of_not_apart (hB.pos hb) hB.maxOutSeqLen_pos h
  obtain ⟨i, rfl⟩ := Nat.exists_eq_add_of_le hj
  obtain ⟨k, hk⟩ := Nat.exists_eq_add_of_le hdst
  set m₀ := (oneLane a b memmove B).prepareTalkerInput 0
    (stashLanes (oneLane a b memmove B) B (B.activeBatchSize - 1) m) with hm₀
  have hzero {lane : Nat} (hlane : lane < B.activeBatchSize) (hother : b < lane) :
      ∀ i < B.perBatchSeqLens lane, m₀ (srcRow B lane + i) = 0 := by
    intro i hi
    rw [hm₀, stashed hB hD m hlane hi, if_neg hother.ne']
  -- Up to the turn of lane `c` only zeros have been written.
  obtain ⟨m₁, hm₁, hrun₁⟩ := assembleLanes_split (D := oneLane a b memmove B) (m := m₀)
    (P := fun m => ∀ j, m j = m₀ j ∨ m j = 0) hc
    (fun e m' he hen hm' j => by
      by_cases hj : j < dstRow B e ∨ dstRow B e + B.maxOutSeqLen ≤ j
      · rw [assembleLane_frame hD hen hj]
        exact hm' j
      · obtain ⟨i, rfl⟩ := Nat.exists_eq_add_of_le (show dstRow B e ≤ j by omega)
        exact .inr (assembleLane_zero (hzero hen (hbc.trans he)) hm' (by omega)
          (hsrc (hpos.trans (hbc.trans he)))))
    fun j => .inl rfl
  -- From then on the row of the slot is zero.
  obtain ⟨m₂, hm₂, hrun₂⟩ := assembleLanes_split (D := oneLane a b memmove B)
    (m := assembleLane (oneLane a b memmove B) B c m₁)
    (P := fun m => m (srcRow B b + i) = 0) hbc
    (fun e m' _ hec hm' => by
      have hdstc := dstRow_add_le (B := B) hec
      rw [assembleLane_frame hD (hec.trans hc) (.inr (by omega))]
      exact hm')
    (by
      rw [hk]
      exact assembleLane_zero (hzero hc hbc) hm₁ (by omega) (hsrc (hpos.trans hbc)))
  have hi : i < B.perBatchSeqLens b := by omega
  have hrow := hpacked b i hb (hi.trans_le (perBatchSeqLens_le hb))
  rw [prefillBuffer, ← hm₀, hrun₁, hrun₂,
    assembleLanes_frame hD hb.le (Nat.le_add_right ..), assembleLane_prompt hi,
    if_pos (hsrc hpos), if_pos hi] at hrow
  have hread := hrow.symm.trans ((memmove_moved m₂ hi).trans hm₂)
  exact ha (by simpa using hread)

end Overlap

/-- The assembly packs every batch of prompts, whatever the rows and for any copy
that does what it is documented to do, if and only if the slots of the lanes meet
no destination that is written before they are read, nor their own. -/
theorem prefill_packed_iff [Zero α] [Nontrivial α] {B : Batch} (hB : B.Valid) :
    (∀ (D : Device α) (prompt : Nat → Nat → α) (m : Nat → α), D.Sound B prompt →
      Packed B prompt (prefillBuffer D B m)) ↔ Packable B := by
  constructor
  · intro h
    obtain ⟨a, ha⟩ := exists_ne (0 : α)
    by_contra hp
    obtain ⟨hne, hp⟩ := not_or.mp hp
    push Not at hp
    obtain ⟨b, hpos, hb, hp⟩ := hp
    by_cases hself : Apart (dstRow B b) (B.perBatchSeqLens b) (srcRow B b) (B.perBatchSeqLens b)
    · obtain ⟨c, hbc, hc, habove⟩ := hp hself
      exact not_packed_of_above hB ha hpos hbc hc hne habove (fun _ => 0)
        (h _ _ _ (oneLane_sound hB isMemcpy_memmove))
    · exact not_packed_of_self hB ha hpos hb hne hself (fun _ => 0)
        (h _ _ _ (oneLane_sound hB (isMemcpy_spoil 0)))
  · intro hp D prompt m hD b i hb hi
    exact assembleLanes_packed hD hp le_rfl (fun b hb i => stashed hB hD m hb) b hb i hi

/-- Three lanes whose prompts have two rows each, in slots of eight rows. -/
def shortPrompts : Batch := ⟨3, 8, fun _ => 2⟩

theorem prefill_packed_iff_short : shortPrompts.Valid ∧
    ∀ (D : Device Int) (prompt : Nat → Nat → Int) (m : Nat → Int), D.Sound shortPrompts prompt →
      Packed shortPrompts prompt (prefillBuffer D shortPrompts m) := by
  have hB : shortPrompts.Valid :=
    ⟨by decide, fun _ => Nat.two_pos, fun _ => Nat.le_of_ble_eq_true rfl⟩
  refine ⟨hB, (prefill_packed_iff hB).mpr (.inr fun b hpos hb => ?_)⟩
  have hL : shortPrompts.maxOutSeqLen = 2 := by decide
  simp only [Apart, dstRow, srcRow_of_pos hpos, hL]
  simp only [shortPrompts] at hb ⊢
  exact ⟨by omega, fun c hbc hc => by omega⟩

/-- Three lanes with prompts of 6, 4 and 4 rows in slots of ten rows: lane 2 is
moved to rows 12 to 17, and lane 1 is still in rows 10 to 13. -/
def longPrompts : Batch := ⟨3, 10, fun b => if b = 0 then 6 else 4⟩

theorem lane_two_overwrites_lane_one :
    ∃ (D : Device Int) (prompt : Nat → Nat → Int) (m : Nat → Int), longPrompts.Valid ∧
      D.Sound longPrompts prompt ∧ ¬ Packed longPrompts prompt (prefillBuffer D longPrompts m) := by
  have hB : longPrompts.Valid :=
    ⟨by decide, fun _ => by simp only [longPrompts]; split <;> decide,
      fun _ => by simp only [longPrompts]; split <;> decide⟩
  refine ⟨oneLane 1 1 memmove longPrompts, _, fun _ => 0, hB, oneLane_sound hB isMemcpy_memmove,
    fun h => ?_⟩
  have hrow := h 1 2 (by decide) (by decide)
  exact absurd hrow (by decide)

end JetsonVoice.Tts.Prefill
