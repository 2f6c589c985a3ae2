import JetsonVoice.Foundation.Collections
import Mathlib.Algebra.Group.Nat.Defs
import Mathlib.Data.List.Basic
import Mathlib.Order.Lattice
import Mathlib.Tactic.Ring

/-!
# The mel extractor of the ASR worker

`MelExtractor::compute` pads the audio by half a window on both sides, cuts it
into frames, takes the power spectrum of each, projects it on the mel bins and
normalises. A read outside a vector, a vector of a negative size and a division
by zero give `none`.

## Implementation notes

Samples and spectra are of any types with the arithmetic of the code; the
transform of one frame and the logarithm are functions of the extractor. Sizes
that the code holds in 32-bit integers wrap where they can.
-/

namespace JetsonVoice.Asr

open Foundation

/-- What a sum of 32-bit integers comes to on the machine. -/
def wrap32 (n : Int) : Int := Int.bmod n (2 ^ 32)

/-- An extractor as its constructor leaves it. -/
structure MelExtractor (F D : Type) where
  nFft : Nat
  hopLength : Nat
  nMels : Nat
  melFloor : D
  stftCenter : Bool := true
  dropLastFrame : Bool := true
  clampToMaxMinus8 : Bool := true
  postNormalize : Bool := true
  /-- The Hann window. -/
  hann : Nat → D
  /-- One row of `n_mels` weights for each frequency. -/
  melFilters : List F
  /-- The transform of the library: real and imaginary part at each frequency. -/
  fft : List D → Nat → D × D
  widen : F → D
  log10 : D → F
  small : nFft < 2 ^ 31
  /-- The size check of the constructor. -/
  filters : melFilters.length = (nFft / 2 + 1) * nMels

namespace MelExtractor
variable {F D : Type}

/-- `n_freq_`. -/
def nFreq (e : MelExtractor F D) : Nat := e.nFft / 2 + 1

/-- The samples of one side of the padding. -/
def pad (e : MelExtractor F D) : Nat := e.nFft / 2

/-- `n_in`. -/
def nIn (pcm : List F) : Int := wrap32 pcm.length

/-- The audio with its padding. -/
def waveform (e : MelExtractor F D) (pcm : List F) : Option (List D) :=
  let n := (nIn pcm).toNat
  if e.stftCenter then
    if wrap32 (n + 2 * e.pad) < 0 then none
    else do
      let left ← (List.range e.pad).mapM fun i => pcm[min (e.pad - i) (n - 1)]?
      let middle ← (List.range n).mapM fun i => pcm[i]?
      let right ← (List.range e.pad).mapM fun (i : Nat) => pcm[(max 0 ((n : Int) - 2 - i)).toNat]?
      return (left ++ middle ++ right).map e.widen
  else do
    let samples ← (List.range n).mapM fun i => pcm[i]?
    return samples.map e.widen

def numFramesFull (e : MelExtractor F D) (totalLen : Int) : Int :=
  wrap32 (1 + (totalLen - e.nFft) / e.hopLength)

def numFramesKept (e : MelExtractor F D) (totalLen : Int) : Int :=
  if e.dropLastFrame then max 0 (wrap32 (e.numFramesFull totalLen - 1))
  else e.numFramesFull totalLen

section Spectrum
variable [Add D] [Mul D] [Zero D] [Max D]

/-- The samples of a frame under the window. -/
def buffer (e : MelExtractor F D) (waveform : List D) (frame : Nat) : Option (List D) :=
  (List.range e.nFft).mapM fun k => (waveform[frame * e.hopLength + k]?).map (· * e.hann k)

def power (e : MelExtractor F D) (buffer : List D) : List D :=
  (List.range e.nFreq).map fun k => (e.fft buffer k).1 * (e.fft buffer k).1 +
    (e.fft buffer k).2 * (e.fft buffer k).2

/-- One mel bin of one frame. -/
def project (e : MelExtractor F D) (power : List D) (m : Nat) : Option D := do
  let acc ← (List.range e.nFreq).foldlM (fun acc k => do
    let w ← e.melFilters[k * e.nMels + m]?
    let p ← power[k]?
    return acc + e.widen w * p) 0
  return max e.melFloor acc

/-- The mel bins of the frames, frame by frame. -/
def melSpec (e : MelExtractor F D) (waveform : List D) (frames : Nat) : Option (List (List D)) :=
  (List.range frames).mapM fun frame => do
    let buffer ← e.buffer waveform frame
    (List.range e.nMels).mapM (e.project (e.power buffer))

end Spectrum

/-- `std::copy_n` between two vectors. -/
def copyN (src : List F) (start n : Nat) (dst : List F) (first : Nat) : Option (List F) :=
  if start + n ≤ src.length ∧ first + n ≤ dst.length then
    some (dst.take first ++ (src.drop start).take n ++ dst.drop (first + n))
  else none

/-- Widen the rows of a matrix with zeros on the right. -/
def widenRows [Zero F] (e : MelExtractor F D) (logMel : List F) (kept target : Nat) :
    Option (List F) :=
  (List.range e.nMels).foldlM (fun padded m => copyN logMel (m * kept) kept padded (m * target))
    (List.replicate (e.nMels * target) 0)

/-- The next multiple, in 32-bit arithmetic. -/
def target (kept padToMultiple : Int) : Int :=
  (wrap32 (kept + padToMultiple - 1)).tdiv padToMultiple * padToMultiple

/-- The padding of the time dimension. -/
def padFrames [Zero F] (e : MelExtractor F D) (logMel : List F) (kept padToMultiple : Int) :
    Option (List F × Int) :=
  if 0 < padToMultiple ∧ 0 < kept ∧ kept < target kept padToMultiple then do
    let padded ← e.widenRows logMel kept.toNat (target kept padToMultiple).toNat
    return (padded, target kept padToMultiple)
  else some (logMel, kept)

section Compute
variable [Zero F] [Max F] [Add F] [Sub F] [Div F] [OfNat F 8] [OfNat F 4]

/-- The clamp to eight below the maximum, and the scaling. -/
def normalize (e : MelExtractor F D) (logMel : List F) : List F :=
  let clamped := match logMel with
    | [] => []
    | v :: _ =>
        if e.clampToMaxMinus8 then logMel.map (max · (logMel.foldl max v - 8)) else logMel
  if e.postNormalize then clamped.map fun v => (v + 4) / 4 else clamped

variable [Add D] [Mul D] [Zero D] [Max D]

/-- The normalised matrix, row by row, without the last frame of the spectrum. -/
def logMel (e : MelExtractor F D) (waveform : List D) (full kept : Nat) : Option (List F) := do
  let melSpec ← e.melSpec waveform full
  let rows ← (List.range e.nMels).mapM fun m =>
    (melSpec.take kept).mapM fun bins => (bins[m]?).map e.log10
  return e.normalize rows.flatten

/-- The matrix of the frames of the padded audio, and their number. -/
def frames (e : MelExtractor F D) (waveform : List D) (padToMultiple : Int) :
    Option (List F × Int) :=
  let totalLen := wrap32 waveform.length
  if totalLen < e.nFft then some ([], 0)
  else if e.hopLength = 0 then none
  else if e.numFramesKept totalLen ≤ 0 then some ([], 0)
  else if e.numFramesFull totalLen < 0 then none
  else
    (e.logMel waveform (e.numFramesFull totalLen).toNat (e.numFramesKept totalLen).toNat).bind
      fun logMel => e.padFrames logMel (e.numFramesKept totalLen) padToMultiple

/-- The matrix that goes to the encoder, and its number of frames. -/
def compute (e : MelExtractor F D) (pcm : List F) (padToMultiple : Int) :
    Option (List F × Int) :=
  if nIn pcm < 2 then some ([], 0)
  else (e.waveform pcm).bind fun waveform => e.frames waveform padToMultiple

end Compute

/-! The padding -/

/-- The index of numpy's reflection: position `j` of the axis, bounced between the first and
the last of `n` samples. -/
def reflectIndex (n : Nat) (j : Int) : Nat :=
  let r := (j % (2 * ((n : Int) - 1))).toNat
  if r < n then r else 2 * (n - 1) - r

/-- `np.pad(audio, (pad, pad), mode="reflect")`. -/
def IsReflectPadded (pad : Nat) (audio padded : List D) : Prop :=
  padded.length = audio.length + 2 * pad ∧
    ∀ i < audio.length + 2 * pad,
      padded[i]? = audio[reflectIndex audio.length ((i : Int) - pad)]?

theorem reflectIndex_left {n j : Nat} (hj : j < n) (h0 : 0 < j) :
    reflectIndex n (-(j : Int)) = j := by
  have hmod : -(j : Int) % (2 * ((n : Int) - 1)) = 2 * ((n : Int) - 1) - j := by
    rw [← Int.add_emod_right (-(j : Int))]
    exact (Int.emod_eq_of_lt (by omega) (by omega)).trans (by omega)
  simp only [reflectIndex, hmod]
  split
  · omega
  · omega

theorem reflectIndex_middle {n j : Nat} (hn : 2 ≤ n) (hj : j < n) : reflectIndex n j = j := by
  have hmod : (j : Int) % (2 * ((n : Int) - 1)) = j := Int.emod_eq_of_lt (by omega) (by omega)
  simp only [reflectIndex, hmod, Int.toNat_natCast]
  rw [if_pos hj]

theorem reflectIndex_right {n j : Nat} (hn : 2 ≤ n) (hj : j + 1 < n) :
    reflectIndex n ((n : Int) + j) = n - 2 - j := by
  by_cases hlast : j + 2 = n
  · have hmod : ((n : Int) + j) % (2 * ((n : Int) - 1)) = 0 := by
      have heq : (n : Int) + j = 2 * ((n : Int) - 1) := by omega
      rw [heq, Int.emod_self]
    simp only [reflectIndex, hmod]
    split <;> omega
  · have hmod : ((n : Int) + j) % (2 * ((n : Int) - 1)) = (n : Int) + j :=
      Int.emod_eq_of_lt (by omega) (by omega)
    simp only [reflectIndex, hmod]
    split <;> omega

/-- Past the first bounce a position as far out as the audio is long meets the last sample but
one. -/
theorem reflectIndex_full {n : Nat} (hn : 2 ≤ n) : reflectIndex n (-(n : Int)) = n - 2 := by
  have hmod : -(n : Int) % (2 * ((n : Int) - 1)) = (n : Int) - 2 := by
    rw [← Int.add_emod_right (-(n : Int))]
    exact (Int.emod_eq_of_lt (by omega) (by omega)).trans (by omega)
  simp only [reflectIndex, hmod]
  split <;> omega

/-! The rows of the result -/

section Rows
variable {src dst r : List F} {start first n i : Nat}

theorem copyN_some (start first n : Nat) (hs : start + n ≤ src.length)
    (hd : first + n ≤ dst.length) :
    ∃ r, copyN src start n dst first = some r ∧ r.length = dst.length ∧
      ∀ i, r[i]? = if first ≤ i ∧ i < first + n then src[start + (i - first)]? else dst[i]? := by
  refine ⟨_, if_pos ⟨hs, hd⟩, by simp; omega, fun i => ?_⟩
  have hlen : (dst.take first).length = first := by simp; omega
  have hmid : ((src.drop start).take n).length = n := by simp; omega
  by_cases hlow : i < first
  · rw [if_neg (by omega), List.append_assoc, List.getElem?_append_left (by omega),
      List.getElem?_take_of_lt hlow]
  by_cases hhigh : i < first + n
  · rw [if_pos (by omega), List.append_assoc, List.getElem?_append_right (by omega), hlen,
      List.getElem?_append_left (by omega), List.getElem?_take_of_lt (by omega),
      List.getElem?_drop]
  · rw [if_neg (by omega), List.getElem?_append_right (by simp; omega), List.getElem?_drop]
    congr 1
    simp
    omega

theorem index_lt {m j t target : Nat} (hm : m < j) (ht : t < target) :
    m * target + t < j * target := by
  have hle := Nat.mul_le_mul_right target (Nat.succ_le_of_lt hm)
  rw [Nat.succ_mul] at hle
  omega

/-- The first rows have been copied; all other places hold zero. -/
theorem widened_rows [Zero F] {logMel : List F} {nMels kept target : Nat}
    (hlen : logMel.length = nMels * kept) (hle : kept ≤ target) {j : Nat} (hj : j ≤ nMels) :
    ∃ r, (List.range j).foldlM (fun padded m => copyN logMel (m * kept) kept padded (m * target))
        (List.replicate (nMels * target) 0) = some r ∧ r.length = nMels * target ∧
      ∀ m < nMels, ∀ t < target, r[m * target + t]? =
        if m < j ∧ t < kept then logMel[m * kept + t]? else some 0 := by
  induction j with
  | zero =>
      refine ⟨_, rfl, by simp, fun m hm t ht => ?_⟩
      rw [if_neg (by omega), List.getElem?_replicate, if_pos (index_lt hm ht)]
  | succ j ih =>
      obtain ⟨r, hr, hrlen, hrows⟩ := ih (by omega)
      have hsrc : (j + 1) * kept ≤ nMels * kept := Nat.mul_le_mul_right kept hj
      have hdst : (j + 1) * target ≤ nMels * target := Nat.mul_le_mul_right target hj
      rw [Nat.succ_mul] at hsrc hdst
      obtain ⟨r', hr', hlen', hget⟩ :=
        copyN_some (j * kept) (j * target) kept (show j * kept + kept ≤ logMel.length by omega)
          (show j * target + kept ≤ r.length by omega)
      refine ⟨r', by simp [List.range_succ, List.foldlM_append, hr, hr'], by omega,
        fun m hm t ht => ?_⟩
      rw [hget, hrows m hm t ht]
      rcases Nat.lt_trichotomy m j with hlt | rfl | hgt
      · have hbefore := index_lt hlt ht
        rw [if_neg (by omega)]
        simp [hlt, Nat.lt_succ_of_lt hlt]
      · rw [Nat.add_sub_cancel_left]
        by_cases hk : t < kept
        · rw [if_pos (by omega), if_pos (by omega)]
        · rw [if_neg (by omega), if_neg (by omega), if_neg (by omega)]
      · have hafter := Nat.mul_le_mul_right target (Nat.succ_le_of_lt hgt)
        rw [Nat.succ_mul] at hafter
        rw [if_neg (by omega), if_neg (by omega), if_neg (by omega)]

theorem padFrames_spec [Zero F] (e : MelExtractor F D) {logMel : List F} {kept : Nat}
    (hlen : logMel.length = e.nMels * kept) (padToMultiple : Int) :
    ∃ padded, ∃ n : Nat, e.padFrames logMel kept padToMultiple = some (padded, (n : Int)) ∧
      kept ≤ n ∧ padded.length = e.nMels * n ∧
      ∀ m < e.nMels, ∀ t < n, padded[m * n + t]? =
        if t < kept then logMel[m * kept + t]? else some 0 := by
  by_cases hpad : 0 < padToMultiple ∧ (0 : Int) < kept ∧ (kept : Int) < target kept padToMultiple
  · obtain ⟨n, hn⟩ : ∃ n : Nat, target kept padToMultiple = n :=
      ⟨_, (Int.toNat_of_nonneg (by omega)).symm⟩
    have hle : kept ≤ n := by omega
    obtain ⟨r, hr, hrlen, hrows⟩ := widened_rows hlen hle le_rfl
    refine ⟨r, n, ?_, hle, hrlen, fun m hm t ht => ?_⟩
    · rw [padFrames, if_pos hpad, hn]
      simp [widenRows, hr]
    · rw [hrows m hm t ht]
      simp [hm]
  · refine ⟨logMel, kept, if_neg hpad, le_rfl, hlen, fun m hm t ht => ?_⟩
    rw [if_pos ht]

end Rows

/-! The audio with its padding -/

section Waveform
variable {e : MelExtractor F D} {pcm : List F} {w : List D}

/-- Reads that all stay inside the audio. -/
theorem exists_gather (pcm : List F) {f : Nat → Nat} {k : Nat} (h : ∀ i < k, f i < pcm.length) :
    ∃ r, (List.range k).mapM (fun i => pcm[f i]?) = some r ∧ r.length = k ∧
      ∀ i < k, r[i]? = pcm[f i]? := by
  cases k with
  | zero => exact ⟨[], rfl, rfl, by simp⟩
  | succ k =>
      have hread : ∀ i ∈ List.range (k + 1),
          pcm[f i]? = some ((pcm[f i]?).getD (pcm.get ⟨f 0, h 0 (by omega)⟩)) := fun i hi => by
        rw [List.getElem?_eq_getElem (h i (List.mem_range.mp hi)), Option.getD_some]
      refine ⟨_, mapM_eq_some_map hread, by simp, fun i hi => ?_⟩
      rw [List.getElem?_map, List.getElem?_range hi]
      exact (hread i (List.mem_range.mpr hi)).symm

theorem wrap32_eq {n : Int} (h0 : 0 ≤ n) (h : n < 2 ^ 31) : wrap32 n = n :=
  Int.bmod_eq_of_le (by omega) (by omega)

/-- Where the code reads the samples of the padded audio. -/
structure Reads (e : MelExtractor F D) (pcm : List F) (w : List D) : Prop where
  length : w.length = pcm.length + 2 * e.pad
  left : ∀ i < e.pad, w[i]? = (pcm[min (e.pad - i) (pcm.length - 1)]?).map e.widen
  middle : ∀ i < pcm.length, w[e.pad + i]? = (pcm[i]?).map e.widen
  right : ∀ i < e.pad, w[e.pad + pcm.length + i]? = (pcm[pcm.length - 2 - i]?).map e.widen

theorem exists_waveform (hcenter : e.stftCenter = true) (h2 : 2 ≤ pcm.length)
    (hfit : pcm.length + 2 * e.pad < 2 ^ 31) : ∃ w, e.waveform pcm = some w ∧ Reads e pcm w := by
  have hn : (nIn pcm).toNat = pcm.length := by
    rw [nIn, wrap32_eq (by omega) (by omega), Int.toNat_natCast]
  have htotal : ¬ wrap32 ((pcm.length : Int) + 2 * e.pad) < 0 := by
    rw [wrap32_eq (by omega) (by omega)]
    omega
  obtain ⟨left, hl, hllen, hlget⟩ := exists_gather pcm
    (f := fun i => min (e.pad - i) (pcm.length - 1)) (k := e.pad) (fun i _ => by omega)
  obtain ⟨middle, hm, hmlen, hmget⟩ := exists_gather pcm (f := fun i => i)
    (k := pcm.length) (fun i hi => hi)
  obtain ⟨right, hr, hrlen, hrget⟩ := exists_gather pcm
    (f := fun i => (max 0 ((pcm.length : Int) - 2 - i)).toNat) (k := e.pad) (fun i _ => by omega)
  refine ⟨(left ++ middle ++ right).map e.widen, ?_, ?_, fun i hi => ?_, fun i hi => ?_,
    fun i hi => ?_⟩
  · simp only [waveform, hn, hcenter, if_true, if_neg htotal, hl, hm, hr, Option.bind_eq_bind,
      Option.bind_some, Option.pure_def]
  · simp only [List.length_map, List.length_append]
    omega
  · rw [List.getElem?_map, List.append_assoc, List.getElem?_append_left (by omega), hlget i hi]
  · rw [List.getElem?_map, List.append_assoc, List.getElem?_append_right (by omega), hllen,
      Nat.add_sub_cancel_left, List.getElem?_append_left (by omega), hmget i hi]
  · have hlen : (left ++ middle).length = e.pad + pcm.length := by
      rw [List.length_append, hllen, hmlen]
    have hidx : (max 0 ((pcm.length : Int) - 2 - i)).toNat = pcm.length - 2 - i := by omega
    rw [List.getElem?_map, List.getElem?_append_right (by omega), hlen, Nat.add_sub_cancel_left,
      hrget i hi, hidx]

/-- Whatever the length, the padded audio is as long as the code takes the audio to be, with
its padding, and that number fits. -/
theorem length_waveform (hcenter : e.stftCenter = true) (hw : e.waveform pcm = some w) :
    w.length = (nIn pcm).toNat + 2 * e.pad ∧ ¬ wrap32 ((nIn pcm).toNat + 2 * e.pad) < 0 := by
  simp only [waveform, hcenter, if_true] at hw
  split at hw
  · cases hw
  · rename_i htotal
    simp only [Option.bind_eq_bind, Option.bind_eq_some_iff, Option.pure_def,
      Option.some.injEq] at hw
    obtain ⟨left, hl, middle, hm, right, hr, rfl⟩ := hw
    refine ⟨?_, htotal⟩
    simp only [List.length_map, List.length_append, length_of_mapM_some hl,
      length_of_mapM_some hm, length_of_mapM_some hr, List.length_range]
    omega

/-- With more audio than padding every read of the padding is the reflected one. -/
theorem Reads.reflected (hw : Reads e pcm w) (h2 : 2 ≤ pcm.length) (hlong : e.pad < pcm.length) :
    IsReflectPadded e.pad (pcm.map e.widen) w := by
  refine ⟨by simp [hw.length], fun i hi => ?_⟩
  rw [List.length_map] at hi ⊢
  rw [List.getElem?_map]
  by_cases hleft : i < e.pad
  · have hneg : (i : Int) - e.pad = -((e.pad - i : Nat) : Int) := by omega
    rw [hw.left i hleft, hneg, reflectIndex_left (by omega) (by omega),
      Nat.min_eq_left (by omega)]
  by_cases hmiddle : i < e.pad + pcm.length
  · obtain ⟨j, rfl⟩ : ∃ j, i = e.pad + j := ⟨i - e.pad, by omega⟩
    have hpos : ((e.pad + j : Nat) : Int) - e.pad = j := by omega
    rw [hw.middle j (by omega), hpos, reflectIndex_middle h2 (by omega)]
  · obtain ⟨j, rfl⟩ : ∃ j, i = e.pad + pcm.length + j := ⟨i - (e.pad + pcm.length), by omega⟩
    have hpos : ((e.pad + pcm.length + j : Nat) : Int) - e.pad = (pcm.length : Int) + j := by omega
    rw [hw.right j (by omega), hpos, reflectIndex_right h2 (by omega)]

/-- With at least as much padding as audio one read meets the last sample, where the
reflection meets the last but one. -/
theorem Reads.same_ends (hw : Reads e pcm w) (h2 : 2 ≤ pcm.length) (hshort : pcm.length ≤ e.pad)
    (h : IsReflectPadded e.pad (pcm.map e.widen) w) :
    (pcm[pcm.length - 1]?).map e.widen = (pcm[pcm.length - 2]?).map e.widen := by
  have hneg : ((e.pad - pcm.length : Nat) : Int) - e.pad = -(pcm.length : Int) := by omega
  have heq := h.2 (e.pad - pcm.length) (by omega)
  rw [hw.left _ (by omega), List.length_map, hneg, reflectIndex_full h2, List.getElem?_map,
    Nat.min_eq_right (by omega)] at heq
  exact heq

end Waveform

/-! The frames -/

section Frames
variable [Add D] [Mul D] [Zero D] [Max D] {e : MelExtractor F D} {pcm : List F} {w : List D}

theorem exists_project (powers : List D) (hlen : powers.length = e.nFreq) {m : Nat}
    (hm : m < e.nMels) : ∃ v, e.project powers m = some v := by
  have hstep : ∀ acc : D, ∀ k ∈ List.range e.nFreq, ∃ acc', (do
      let w ← e.melFilters[k * e.nMels + m]?
      let p ← powers[k]?
      return acc + e.widen w * p) = some acc' := fun acc k hk => by
    have hk := List.mem_range.mp hk
    have hfilter : k * e.nMels + m < e.melFilters.length := by
      rw [e.filters]
      exact index_lt hk hm
    simp [List.getElem?_eq_getElem hfilter, List.getElem?_eq_getElem (hlen ▸ hk)]
  obtain ⟨acc, hacc⟩ := exists_foldlM_some hstep 0
  exact ⟨max e.melFloor acc, by rw [project, hacc]; rfl⟩

/-- Every frame reads inside the padded audio. -/
theorem frame_read_lt {n nFft hop frame k : Nat} (hframe : frame < n / hop + 1) (hk : k < nFft) :
    frame * hop + k < n + nFft := by
  have hle : frame * hop ≤ n / hop * hop := Nat.mul_le_mul_right hop (by omega)
  have hdiv := Nat.div_mul_le_self n hop
  omega

theorem exists_melSpec {n : Nat} (hlen : w.length = n + e.nFft) :
    ∃ spec, e.melSpec w (n / e.hopLength + 1) = some spec ∧
      spec.length = n / e.hopLength + 1 ∧ ∀ bins ∈ spec, bins.length = e.nMels := by
  obtain ⟨spec, hspec, hslen, hbins⟩ := exists_mapM_some (P := fun bins => bins.length = e.nMels)
    (l := List.range (n / e.hopLength + 1)) (f := fun frame => do
      let buffer ← e.buffer w frame
      (List.range e.nMels).mapM (e.project (e.power buffer))) fun frame hframe => by
    have hframe := List.mem_range.mp hframe
    obtain ⟨buffer, hbuffer, -, -⟩ := exists_mapM_some (P := fun _ => True)
      (l := List.range e.nFft)
      (f := fun k => (w[frame * e.hopLength + k]?).map (· * e.hann k)) fun k hk => by
      have hread := frame_read_lt hframe (List.mem_range.mp hk)
      exact ⟨_, by rw [List.getElem?_eq_getElem (hlen ▸ hread)]; rfl, trivial⟩
    obtain ⟨bins, hbins, hblen, -⟩ := exists_mapM_some (P := fun _ => True)
      (l := List.range e.nMels) (f := e.project (e.power buffer)) fun m hm => by
      obtain ⟨v, hv⟩ := exists_project (e := e) (e.power buffer) (by simp [power])
        (List.mem_range.mp hm)
      exact ⟨v, hv, trivial⟩
    exact ⟨bins, by simp [MelExtractor.buffer, hbuffer, hbins], by simpa using hblen⟩
  exact ⟨spec, hspec, by simpa using hslen, hbins⟩

theorem length_flatten_of_rows {α : Type} {rows : List (List α)} {k : Nat}
    (h : ∀ row ∈ rows, row.length = k) : rows.flatten.length = rows.length * k := by
  rw [List.length_flatten, List.map_congr_left h]
  simp

variable [Zero F] [Max F] [Add F] [Sub F] [Div F] [OfNat F 8] [OfNat F 4]

theorem length_normalize (e : MelExtractor F D) (logMel : List F) :
    (e.normalize logMel).length = logMel.length := by
  cases logMel with
  | nil => simp [normalize]
  | cons v rest =>
      simp only [normalize]
      split <;> split <;> simp

theorem exists_logMel {n q : Nat} (hlen : w.length = n + e.nFft)
    (hq : n / e.hopLength = q) :
    ∃ logMel, e.logMel w (q + 1) q = some logMel ∧ logMel.length = e.nMels * q := by
  obtain ⟨spec, hspec, hslen, hbins⟩ := exists_melSpec (e := e) hlen
  rw [hq] at hspec hslen
  obtain ⟨rows, hrows, hrlen, hrow⟩ := exists_mapM_some (P := fun row : List F => row.length = q)
    (l := List.range e.nMels)
    (f := fun m => (spec.take q).mapM fun bins => (bins[m]?).map e.log10) fun m hm => by
    obtain ⟨row, hrow, hlen, -⟩ := exists_mapM_some (P := fun _ : F => True) (l := spec.take q)
      (f := fun bins => (bins[m]?).map e.log10) fun bins hmem => by
      have hblen := hbins bins (List.mem_of_mem_take hmem)
      exact ⟨_, by rw [List.getElem?_eq_getElem (hblen ▸ List.mem_range.mp hm)]; rfl, trivial⟩
    exact ⟨row, hrow, by rw [hlen, List.length_take, hslen]; omega⟩
  refine ⟨e.normalize rows.flatten, ?_, ?_⟩
  · simp only [logMel, hspec, hrows, Option.bind_eq_bind, Option.bind_some, Option.pure_def]
  · rw [length_normalize, length_flatten_of_rows hrow, hrlen, List.length_range]

/-- Centre padding, with the last frame dropped. -/
structure Centred (e : MelExtractor F D) : Prop where
  center : e.stftCenter = true
  drop : e.dropLastFrame = true
  even : Even e.nFft
  hop : 0 < e.hopLength

omit [Add D] [Mul D] [Zero D] [Max D] [Zero F] [Max F] [Add F] [Sub F] [Div F] [OfNat F 8]
  [OfNat F 4] in
theorem Centred.two_pad (he : Centred e) : 2 * e.pad = e.nFft :=
  Nat.two_mul_div_two_of_even he.even

/-- What `compute` does with audio that fits. -/
theorem compute_of_waveform (h2 : 2 ≤ pcm.length)
    (hfit : pcm.length + e.nFft < 2 ^ 31) (hw : e.waveform pcm = some w) (padToMultiple : Int) :
    e.compute pcm padToMultiple = e.frames w padToMultiple := by
  have hin : ¬ nIn pcm < 2 := by
    rw [nIn, wrap32_eq (by omega) (by omega)]
    omega
  rw [compute, if_neg hin, hw, Option.bind_some]

/-- The frames of a waveform that fits, one for each hop. -/
theorem frames_start (he : Centred e) {n q : Nat} (hfit : n + e.nFft < 2 ^ 31)
    (hq : n / e.hopLength = q) (hcount : q + 1 < 2 ^ 31) (hlen : w.length = n + e.nFft) (p : Int) :
    e.frames w p = if (q : Int) ≤ 0 then some ([], 0)
      else (e.logMel w (q + 1) q).bind fun logMel => e.padFrames logMel q p := by
  have htotal : wrap32 (w.length : Int) = (n : Int) + e.nFft := by
    rw [wrap32_eq (by omega) (by omega)]
    omega
  have hfull : e.numFramesFull ((n : Int) + e.nFft) = 1 + q := by
    have hdiv : ((n : Int) + e.nFft - e.nFft) / e.hopLength = q := by
      rw [Int.add_sub_cancel, ← hq, Int.natCast_ediv]
    rw [numFramesFull, hdiv, wrap32_eq (by omega) (by omega)]
  have hkept : e.numFramesKept ((n : Int) + e.nFft) = q := by
    rw [numFramesKept, he.drop, if_pos rfl, hfull, wrap32_eq (by omega) (by omega)]
    omega
  have hlong : ¬ (n : Int) + e.nFft < e.nFft := by omega
  have hpositive : ¬ 1 + (q : Int) < 0 := by omega
  have htoNat : (1 + (q : Int)).toNat = q + 1 := by omega
  rw [frames, htotal, if_neg hlong, if_neg he.hop.ne', hkept, hfull, if_neg hpositive, htoNat,
    Int.toNat_natCast]

/-- The matrix has `n / hop` frames, and nothing is read outside a vector. -/
theorem frames_eq (he : Centred e) {n q : Nat} (hfit : n + e.nFft < 2 ^ 31)
    (hq : n / e.hopLength = q) (hcount : q + 1 < 2 ^ 31) (hlen : w.length = n + e.nFft) :
    ∃ logMel, logMel.length = e.nMels * q ∧
      ∀ padToMultiple, e.frames w padToMultiple = e.padFrames logMel q padToMultiple := by
  have hstart := frames_start he hfit hq hcount hlen
  by_cases hzero : (q : Int) ≤ 0
  · have hq0 : (q : Int) = 0 := by omega
    refine ⟨[], ?_, fun p => ?_⟩
    · rw [Int.natCast_eq_zero.mp hq0, Nat.mul_zero, List.length_nil]
    · have hpf : e.padFrames ([] : List F) (q : Int) p = some ([], (q : Int)) :=
        if_neg fun h => absurd h.2.1 (by omega)
      rw [hstart, if_pos hzero, hpf, hq0]
  · obtain ⟨logMel, hlog, hloglen⟩ := exists_logMel hlen hq
    refine ⟨logMel, hloglen, fun p => ?_⟩
    rw [hstart, if_neg hzero, hlog, Option.bind_some]

/-- What the extraction is for: numpy's padding, whole frames, and a padded matrix that keeps
every value at its bin and frame. -/
structure Framed (e : MelExtractor F D) (pcm : List F) (padToMultiple : Int) : Prop where
  reflected : ∃ w, e.waveform pcm = some w ∧
    IsReflectPadded (e.nFft / 2) (pcm.map e.widen) w ∧
    ∀ frame ≤ pcm.length / e.hopLength, ∀ k < e.nFft, frame * e.hopLength + k < w.length
  counted : ∃ logMel : List F,
    e.compute pcm 0 = some (logMel, ((pcm.length / e.hopLength : Nat) : Int)) ∧
    logMel.length = e.nMels * (pcm.length / e.hopLength) ∧
    ∃ padded : List F, ∃ n : Nat, e.compute pcm padToMultiple = some (padded, (n : Int)) ∧
      pcm.length / e.hopLength ≤ n ∧ padded.length = e.nMels * n ∧
      ∀ m < e.nMels, ∀ t < n, padded[m * n + t]? =
        if t < pcm.length / e.hopLength then logMel[m * (pcm.length / e.hopLength) + t]?
        else some 0

/-- Audio longer than the padding of one side, all of it within 32-bit integers. -/
theorem framed_of_long (he : Centred e) (h2 : 2 ≤ pcm.length) (hlong : e.nFft / 2 < pcm.length)
    (hfit : pcm.length + e.nFft < 2 ^ 31) (hcount : pcm.length / e.hopLength + 1 < 2 ^ 31)
    (padToMultiple : Int) : Framed e pcm padToMultiple := by
  have hpad := he.two_pad
  obtain ⟨w, hw, hreads⟩ := exists_waveform he.center h2 (by omega)
  have hlen : w.length = pcm.length + e.nFft := by rw [hreads.length, hpad]
  obtain ⟨logMel, hloglen, hframes⟩ := frames_eq he hfit rfl hcount hlen
  refine ⟨⟨w, hw, hreads.reflected h2 hlong, fun frame hframe k hk => ?_⟩, logMel, ?_, hloglen, ?_⟩
  · rw [hlen]
    exact frame_read_lt (by omega) hk
  · rw [compute_of_waveform h2 hfit hw, hframes]
    exact if_neg fun h => absurd h.1 (by decide)
  · obtain ⟨padded, n, hpadded, hle, hplen, hrows⟩ := padFrames_spec e hloglen padToMultiple
    exact ⟨padded, n, by rw [compute_of_waveform h2 hfit hw, hframes, hpadded], hle, hplen, hrows⟩

/-- Audio of a length the code's integers cannot hold together with the padding. -/
theorem not_framed_of_wrap (he : Centred e) (hwrap : 2 ^ 31 ≤ pcm.length + e.nFft)
    (padToMultiple : Int) : ¬ Framed e pcm padToMultiple := by
  rintro ⟨⟨w, hw, hreflect, -⟩, -⟩
  have hpad := he.two_pad
  have hsmall := e.small
  obtain ⟨hlen, hfit⟩ := length_waveform he.center hw
  have hwlen : w.length = pcm.length + 2 * (e.nFft / 2) := by
    rw [hreflect.1, List.length_map]
  have hnp : e.pad = e.nFft / 2 := rfl
  have hlt : nIn pcm < 2 ^ 31 := by
    have h := Int.bmod_lt (x := pcm.length) (m := 2 ^ 32) (by decide)
    exact lt_of_lt_of_eq h (by decide)
  have hn : (nIn pcm).toNat = pcm.length := by omega
  have hshort : pcm.length < 2 ^ 31 := by omega
  have htotal : wrap32 ((pcm.length : Int) + 2 * e.pad) =
      (pcm.length : Int) + 2 * e.pad - 2 ^ 32 := by
    rw [wrap32, Int.bmod_def, Int.emod_eq_of_lt (by omega) (by omega), if_neg (by omega)]
    rfl
  rw [hn, htotal] at hfit
  omega

/-- A count of frames that 32 bits cannot hold. -/
theorem not_framed_of_count (he : Centred e) (h2 : 2 ≤ pcm.length)
    (hfit : pcm.length + e.nFft < 2 ^ 31) (hcount : 2 ^ 31 ≤ pcm.length / e.hopLength + 1)
    (padToMultiple : Int) : ¬ Framed e pcm padToMultiple := by
  rintro ⟨⟨w, hw, hreflect, -⟩, logMel, hcompute, -⟩
  have hpad := he.two_pad
  have hnp : e.pad = e.nFft / 2 := rfl
  have hlen : w.length = pcm.length + e.nFft := by
    rw [hreflect.1, List.length_map]
    omega
  obtain ⟨q, hq⟩ : ∃ q, pcm.length / e.hopLength = q := ⟨_, rfl⟩
  have hqn : q ≤ pcm.length := hq ▸ Nat.div_le_self _ _
  rw [hq] at hcount
  have htotal : wrap32 (w.length : Int) = (pcm.length : Int) + e.nFft := by
    rw [wrap32_eq (by omega) (by omega)]
    omega
  have hfull : e.numFramesFull ((pcm.length : Int) + e.nFft) = -2 ^ 31 := by
    have hdiv : ((pcm.length : Int) + e.nFft - e.nFft) / e.hopLength = 2 ^ 31 - 1 := by
      rw [Int.add_sub_cancel, ← Int.natCast_ediv, hq]
      omega
    rw [numFramesFull, hdiv]
    decide
  have hkept : e.numFramesKept ((pcm.length : Int) + e.nFft) = 2 ^ 31 - 1 := by
    rw [numFramesKept, he.drop, if_pos rfl, hfull]
    decide
  have hlong : ¬ (pcm.length : Int) + e.nFft < e.nFft := by omega
  rw [compute_of_waveform h2 hfit hw, frames, htotal, if_neg hlong, if_neg he.hop.ne', hkept, hfull,
    if_neg (by decide), if_pos (by decide)] at hcompute
  cases hcompute

/-- For audio of every length, with centre padding and the last frame dropped: the extraction
does what it is for on all audio of that length exactly when the audio is longer than the padding
of one side, and the padded length and the number of frames fit 32-bit integers. -/
theorem framed_iff (e : MelExtractor F D) (he : Centred e)
    (hdiff : ∃ a b, e.widen a ≠ e.widen b) {n : Nat} (h2 : 2 ≤ n) :
    (∀ pcm : List F, pcm.length = n → ∀ padToMultiple, Framed e pcm padToMultiple) ↔
      e.nFft / 2 < n ∧ n + e.nFft < 2 ^ 31 ∧ n / e.hopLength + 1 < 2 ^ 31 := by
  constructor
  · intro h
    obtain ⟨a, b, hab⟩ := hdiff
    have hfit : n + e.nFft < 2 ^ 31 := by
      by_contra hwrap
      have hlength : 2 ^ 31 ≤ (List.replicate n a).length + e.nFft := by simpa using hwrap
      exact not_framed_of_wrap he hlength 0 (h _ List.length_replicate 0)
    refine ⟨?_, hfit, ?_⟩
    · by_contra hshort
      obtain ⟨m, rfl⟩ : ∃ m, n = m + 2 := ⟨n - 2, by omega⟩
      have hlen : (List.replicate (m + 1) a ++ [b]).length = m + 2 := by simp
      obtain ⟨⟨w, hw, hreflect, -⟩, -⟩ := h (List.replicate (m + 1) a ++ [b]) hlen 0
      have hpad := he.two_pad
      have hnp : e.pad = e.nFft / 2 := rfl
      obtain ⟨w', hw', hreads⟩ := exists_waveform he.center
        (show 2 ≤ (List.replicate (m + 1) a ++ [b]).length by omega) (by omega)
      obtain rfl : w = w' := Option.some.inj (hw.symm.trans hw')
      have hends := hreads.same_ends (by omega) (by omega) hreflect
      have hlast : (List.replicate (m + 1) a ++ [b])[m + 1]? = some b := by simp
      have hbefore : (List.replicate (m + 1) a ++ [b])[m]? = some a := by
        rw [List.getElem?_append_left (by simp), List.getElem?_replicate, if_pos (by omega)]
      have hone : m + 2 - 1 = m + 1 := by omega
      rw [hlen, hone, Nat.add_sub_cancel, hlast, hbefore] at hends
      exact hab (Option.some.inj hends).symm
    · by_contra hcount
      have hlength : 2 ≤ (List.replicate n a).length := by simpa using h2
      exact not_framed_of_count he hlength (by simpa using hfit) (by simpa using hcount) 0
        (h _ List.length_replicate 0)
  · rintro ⟨hlong, hfit, hcount⟩ pcm rfl padToMultiple
    exact framed_of_long he h2 hlong hfit hcount padToMultiple

end Frames

/-- An extractor over integers: windows of four samples, one mel bin. -/
def tiny : MelExtractor Int Int where
  nFft := 4
  hopLength := 1
  nMels := 1
  melFloor := 0
  hann _ := 1
  melFilters := [1, 1, 1]
  fft samples k := (samples.getD k 0, 0)
  widen := id
  log10 := id
  small := by decide
  filters := by decide

theorem framed_iff_tiny :
    (∀ pcm : List Int, pcm.length = 3 → ∀ padToMultiple, Framed tiny pcm padToMultiple) ↔
      2 < 3 ∧ 3 + 4 < 2 ^ 31 ∧ 3 / 1 + 1 < 2 ^ 31 :=
  framed_iff tiny ⟨rfl, rfl, by decide, by decide⟩ ⟨0, 1, by decide⟩ (by decide)

/-- Two samples and a padding of two: numpy goes back to the first sample, the code stays at the
second. -/
theorem short_audio_not_reflected :
    tiny.waveform [1, 2] = some [2, 2, 1, 2, 1, 1] ∧
      IsReflectPadded 2 [1, 2] [1, 2, 1, 2, 1, 2] ∧ ¬ Framed tiny [1, 2] 0 := by
  have hw : tiny.waveform [1, 2] = some [2, 2, 1, 2, 1, 1] := by decide
  refine ⟨hw, ⟨rfl, by decide⟩, fun h => ?_⟩
  obtain ⟨w, hw', hreflect, -⟩ := h.reflected
  obtain rfl := Option.some.inj (hw.symm.trans hw')
  exact absurd (hreflect.2 0 (by decide)) (by decide)


end MelExtractor
end JetsonVoice.Asr
