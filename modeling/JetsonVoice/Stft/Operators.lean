import JetsonVoice.Onnx.NdArray
import Mathlib.Algebra.BigOperators.Group.List.Basic
import Mathlib.Algebra.BigOperators.Intervals
import Mathlib.Algebra.BigOperators.Pi
import Mathlib.Algebra.Field.Defs
import Mathlib.Algebra.Module.Prod
import Mathlib.Data.List.Perm.Basic

/-!
# The short-time Fourier transform as a convolution

Real signals in frames, windowed and transformed at every frequency, beside the
convolution with a bank of windowed cosines and sines whose channels are then
brought into the transform's order.

## Implementation notes

Numbers are those of any field, and the circle's functions are left open. `none` stands
for an invalid operand or attribute.
-/

namespace JetsonVoice.Stft

open Onnx Onnx.NdArray Finset

/-- The circle's functions. -/
structure Trig (K : Type) where
  pi : K
  cos : K → K
  sin : K → K

section Arrays
variable {α : Type}

/-- `Unsqueeze` with one axis. -/
def unsqueeze? (t : NdArray α) (axis : Int) : Option (NdArray α) :=
  let position := if axis < 0 then axis + t.dims.length + 1 else axis
  if h : 0 ≤ position ∧ position.toNat ≤ t.dims.length then
    some (t.withDims (t.dims.insertIdx position.toNat 1) (by
      rw [List.prod_insertIdx h.2 fun _ _ => Commute.one_left _, Nat.one_mul]))
  else none

/-- The dimensions a `Reshape` asks for: zero copies one, minus one takes what is left. -/
def reshapeDims? (dims : List Nat) (shape : List Int) : Option (List Nat) := do
  let ds ← shape.zipIdx.mapM fun p =>
    if p.1 = 0 then dims[p.2]?.map Int.ofNat else if p.1 < -1 then none else some p.1
  let rest := ((ds.filter (· ≠ -1)).map Int.toNat).prod
  if ds.count (-1) = 0 then some (ds.map Int.toNat)
  else if ds.count (-1) = 1 ∧ rest ≠ 0 then
    some (ds.map fun d => if d = -1 then dims.prod / rest else d.toNat)
  else none

/-- `Reshape`. -/
def reshape? (t : NdArray α) (shape : List Int) : Option (NdArray α) :=
  (reshapeDims? t.dims shape).bind fun dims =>
    if h : t.dims.prod = dims.prod then some (t.withDims dims h) else none

/-- `Transpose`. -/
def transpose? [Zero α] (t : NdArray α) (perm : List Int) : Option (NdArray α) :=
  let axes := perm.map Int.toNat
  if perm.all (0 ≤ ·) && axes.isPerm (List.range t.dims.length) then
    some (ofPlaces (axes.map fun a => t.dims.getD a 0) fun idx =>
      t.get ((List.range t.dims.length).map fun a => idx.getD (axes.idxOf a) 0))
  else none

end Arrays

section Numbers
variable {K : Type} [Field K]

/-- `Conv` along one axis, without padding. -/
def conv? (x w : NdArray K) (stride : Int) : Option (NdArray K) :=
  match x.dims, w.dims with
  | [b, c, l], [m, c', k] =>
      if c = c' ∧ 0 < stride ∧ 0 < k ∧ k ≤ l then
        some (ofPlaces [b, m, (l - k) / stride.toNat + 1] fun idx =>
          ∑ i ∈ range c, ∑ n ∈ range k, w.get [idx.getD 1 0, i, n] *
            x.get [idx.getD 0 0, i, idx.getD 2 0 * stride.toNat + n])
      else none
  | _, _ => none

/-- The number of frequencies. -/
def freqBins (frameLength : Nat) (onesided : Bool) : Nat :=
  if onesided then frameLength / 2 + 1 else frameLength

/-- The angle of a frequency at a sample. -/
def angle (A : Trig K) (frameLength freq n : Nat) : K := 2 * A.pi * freq * n / frameLength

/-- The real and imaginary part of `exp (-i * x)`. -/
def rotation (A : Trig K) (x : K) : K × K := (A.cos x, -A.sin x)

/-- The transform of a windowed frame at a frequency. -/
def spectrum (A : Trig K) (frameLength : Nat) (window frame : Nat → K) (freq : Nat) : K × K :=
  ∑ n ∈ range frameLength, (window n * frame n) • rotation A (angle A frameLength freq n)

/-- `STFT` of real signals `[batch, length]`: `[batch, frames, frequencies, 2]`. -/
def stft? (A : Trig K) (signal : NdArray K) (frameStep : Int) (window : NdArray K)
    (frameLength : Int) (onesided : Bool) : Option (NdArray K) :=
  match signal.dims with
  | [b, l] =>
      let n := frameLength.toNat
      if 0 < frameStep ∧ 0 < frameLength ∧ window.dims = [n] ∧ n ≤ l then
        some (ofPlaces [b, (l - n) / frameStep.toNat + 1, freqBins n onesided, 2] fun idx =>
          let z := spectrum A n (fun k => window.get [k])
            (fun k => signal.get [idx.getD 0 0, idx.getD 1 0 * frameStep.toNat + k])
            (idx.getD 2 0)
          if idx.getD 3 0 = 0 then z.1 else z.2)
      else none
  | _ => none

end Numbers

/-- The order of the channels of the convolution. -/
inductive Layout where
  | interleaved
  | blocked
  deriving DecidableEq

namespace Layout

def realIdx : Layout → (freqBins freq : Nat) → Nat
  | .interleaved, _, freq => freq * 2
  | .blocked, _, freq => freq

def imagIdx : Layout → (freqBins freq : Nat) → Nat
  | .interleaved, _, freq => freq * 2 + 1
  | .blocked, freqBins, freq => freqBins + freq

def reshapeShape : Layout → Nat → List Int
  | .interleaved, freqBins => [0, freqBins, 2, -1]
  | .blocked, freqBins => [0, 2, freqBins, -1]

def perm : Layout → List Int
  | .interleaved => [0, 3, 1, 2]
  | .blocked => [0, 3, 2, 1]

end Layout

section Basis
variable {K : Type} [Field K]

/-- `_make_basis`: each frequency writes its two rows of the bank. -/
def makeBasis? (A : Trig K) (window : NdArray K) (frameLength : Int) (onesided : Bool)
    (imagSign : K) (layout : Layout) : Option (NdArray K) :=
  if (window.data.length : Int) ≠ frameLength then none
  else
    let length := frameLength.toNat
    let bins := freqBins length onesided
    let kernels : Nat → Nat → K := (List.range bins).foldl (fun kernels freq =>
      Function.update
        (Function.update kernels (layout.realIdx bins freq) fun n =>
          window.flat n * A.cos (angle A length freq n))
        (layout.imagIdx bins freq) fun n =>
          imagSign * window.flat n * A.sin (angle A length freq n)) fun _ _ => 0
    some (ofPlaces [bins * 2, 1, length] fun idx => kernels (idx.getD 0 0) (idx.getD 2 0))

/-- The nodes that replace a transform, one after the other. -/
def convStft? (signal basis : NdArray K) (frameStep : Int) (freqBins : Nat) (layout : Layout) :
    Option (NdArray K) := do
  let unsqueezed ← unsqueeze? signal 1
  let conv ← conv? unsqueezed basis frameStep
  let reshaped ← reshape? conv (layout.reshapeShape freqBins)
  transpose? reshaped layout.perm

end Basis

section Rows
variable {K : Type} [Field K] {bins freq freq' : Nat} (layout : Layout)

/-- Different frequencies have different channels, for either part. -/
theorem channels_ne (bins : Nat) (hne : freq ≠ freq') :
    layout.realIdx bins freq ≠ layout.realIdx bins freq' ∧
      layout.imagIdx bins freq ≠ layout.imagIdx bins freq' := by
  cases layout <;> simp only [Layout.realIdx, Layout.imagIdx] <;> omega

theorem parts_ne (h : freq < bins) :
    layout.realIdx bins freq ≠ layout.imagIdx bins freq' := by
  cases layout <;> simp only [Layout.realIdx, Layout.imagIdx] <;> omega

theorem channels_lt (h : freq < bins) :
    layout.realIdx bins freq < bins * 2 ∧ layout.imagIdx bins freq < bins * 2 := by
  cases layout <;> simp only [Layout.realIdx, Layout.imagIdx] <;> omega

/-- Every row of the bank is the one its frequency wrote. -/
theorem rows_foldl {β : Type} (re im : Nat → β) (start : Nat → β) (h : freq < bins) :
    let kernels := (List.range bins).foldl (fun kernels freq =>
      Function.update (Function.update kernels (layout.realIdx bins freq) (re freq))
        (layout.imagIdx bins freq) (im freq)) start
    kernels (layout.realIdx bins freq) = re freq ∧
      kernels (layout.imagIdx bins freq) = im freq := by
  have hwritten (k : Nat) (hk : k ≤ bins) (hfreq : freq < k) :
      let kernels := (List.range k).foldl (fun kernels freq =>
        Function.update (Function.update kernels (layout.realIdx bins freq) (re freq))
          (layout.imagIdx bins freq) (im freq)) start
      kernels (layout.realIdx bins freq) = re freq ∧
        kernels (layout.imagIdx bins freq) = im freq := by
    induction k with
    | zero => exact absurd hfreq (Nat.not_lt_zero _)
    | succ k ih =>
        rw [List.range_succ, List.foldl_append]
        simp only [List.foldl_cons, List.foldl_nil]
        rcases Nat.lt_succ_iff_lt_or_eq.mp hfreq with hlt | rfl
        · obtain ⟨hre, him⟩ := channels_ne layout bins hlt.ne
          rw [Function.update_of_ne (parts_ne layout h), Function.update_of_ne hre,
            Function.update_of_ne him, Function.update_of_ne (parts_ne layout hk).symm]
          exact ih (Nat.le_of_succ_le hk) hlt
        · rw [Function.update_of_ne (parts_ne layout h), Function.update_self, Function.update_self]
          exact ⟨rfl, rfl⟩
  exact hwritten bins le_rfl h

variable {layout} in
theorem get_basis {A : Trig K} {window basis : NdArray K} {frameLength : Int} {onesided : Bool}
    {imagSign : K} (h : makeBasis? A window frameLength onesided imagSign layout = some basis) :
    ∃ n : Nat, frameLength = n ∧ window.data.length = n ∧
      basis.dims = [freqBins n onesided * 2, 1, n] ∧
      ∀ freq < freqBins n onesided, ∀ k < n,
        basis.get [layout.realIdx (freqBins n onesided) freq, 0, k] =
            window.flat k * A.cos (angle A n freq k) ∧
        basis.get [layout.imagIdx (freqBins n onesided) freq, 0, k] =
            imagSign * window.flat k * A.sin (angle A n freq k) := by
  rw [makeBasis?] at h
  split at h
  · cases h
  · rename_i hlength
    obtain ⟨n, rfl⟩ : ∃ n : Nat, frameLength = n := ⟨_, (not_not.mp hlength).symm⟩
    cases h
    refine ⟨n, rfl, by simpa using hlength, rfl, fun freq hfreq k hk => ?_⟩
    obtain ⟨hre, him⟩ := rows_foldl layout
      (fun freq k => window.flat k * A.cos (angle A n freq k))
      (fun freq k => imagSign * window.flat k * A.sin (angle A n freq k)) (fun _ _ => 0) hfreq
    obtain ⟨hrow, hrow'⟩ := channels_lt layout hfreq
    rw [Int.toNat_natCast, get_ofPlaces (.cons hrow (.cons Nat.one_pos (.cons hk .nil))),
      get_ofPlaces (.cons hrow' (.cons Nat.one_pos (.cons hk .nil)))]
    exact ⟨congrFun hre k, congrFun him k⟩

end Rows

section Chain
variable {K : Type} [Field K] {b l bins frames : Nat} {layout : Layout} {signal t : NdArray K}

theorem unsqueeze?_one (hd : signal.dims = [b, l]) :
    ∃ u, unsqueeze? signal 1 = some u ∧ u.dims = [b, 1, l] ∧
      ∀ i k, u.get [i, 0, k] = signal.get [i, k] := by
  have hposition : (0 : Int) ≤ 1 ∧ (1 : Int).toNat ≤ signal.dims.length := by
    rw [hd]
    simp
  refine ⟨_, dif_pos hposition, ?_, fun i k => ?_⟩
  · change signal.dims.insertIdx 1 1 = _
    rw [hd]
    rfl
  · refine get_withDims _ ?_
    change offset (signal.dims.insertIdx 1 1) _ = _
    rw [hd]
    simp [offset]

/-- The dimensions the convolution is brought to, and the place of a part of a frequency. -/
def Layout.split (b bins frames : Nat) : Layout → List Nat
  | .interleaved => [b, bins, 2, frames]
  | .blocked => [b, 2, bins, frames]

def Layout.splitPlace (i freq part frame : Nat) : Layout → List Nat
  | .interleaved => [i, freq, part, frame]
  | .blocked => [i, part, freq, frame]

def Layout.channel (bins freq part : Nat) (layout : Layout) : Nat :=
  if part = 0 then layout.realIdx bins freq else layout.imagIdx bins freq

/-- A reshape to the parts of the frequencies takes the frames as what is left, which an
empty batch leaves open. -/
theorem reshapeDims?_split (b frames : Nat) (layout : Layout) (hbins : 0 < bins) :
    reshapeDims? [b, bins * 2, frames] (layout.reshapeShape bins) =
      if b = 0 then none else some (layout.split b bins frames) := by
  have hlow : ¬ (bins : Int) < -1 := by omega
  have hminus : (bins : Int) ≠ -1 := by omega
  have hbatch : (b : Int) ≠ -1 := by omega
  have hleft (hb : b ≠ 0) : b * (bins * 2 * frames) / (b * (bins * 2)) = frames := by
    rw [← Nat.mul_assoc]
    exact Nat.mul_div_cancel_left _ (Nat.mul_pos (Nat.pos_of_ne_zero hb) (by omega))
  cases layout with
  | interleaved =>
      have hds : ([0, (bins : Int), 2, -1].zipIdx.mapM fun p =>
          if p.1 = 0 then [b, bins * 2, frames][p.2]?.map Int.ofNat
          else if p.1 < -1 then none else some p.1) = some [(b : Int), bins, 2, -1] := by
        simp [hbins.ne', hlow]
      rw [reshapeDims?, Layout.reshapeShape, hds]
      by_cases hb : b = 0
      · simp [hminus, hb]
      · simp [hminus, hbatch, hb, hbins.ne', Layout.split, hleft hb]
  | blocked =>
      have hds : ([0, 2, (bins : Int), -1].zipIdx.mapM fun p =>
          if p.1 = 0 then [b, bins * 2, frames][p.2]?.map Int.ofNat
          else if p.1 < -1 then none else some p.1) = some [(b : Int), 2, bins, -1] := by
        simp [hbins.ne', hlow]
      rw [reshapeDims?, Layout.reshapeShape, hds]
      by_cases hb : b = 0
      · simp [hminus, hb]
      · simp [hminus, hbatch, hb, hbins.ne', Layout.split, Nat.mul_comm 2, hleft hb]

theorem prod_split : [b, bins * 2, frames].prod = (layout.split b bins frames).prod := by
  cases layout <;> simp only [Layout.split, List.prod_cons, List.prod_nil] <;> ring

/-- The place of a part of a frequency is that of its channel. -/
theorem offset_split {i freq part frame : Nat} (hpart : part < 2) :
    offset (layout.split b bins frames) (layout.splitPlace i freq part frame) =
      offset [b, bins * 2, frames] [i, layout.channel bins freq part, frame] := by
  have hpart : part = 0 ∨ part = 1 := by omega
  rcases hpart with rfl | rfl <;> cases layout <;>
    simp only [offset, Layout.split, Layout.splitPlace, Layout.channel, Layout.realIdx,
      Layout.imagIdx, List.prod_cons, List.prod_nil, if_true, one_ne_zero, if_false] <;> ring

theorem channel_lt {freq part : Nat} (h : freq < bins) :
    layout.channel bins freq part < bins * 2 := by
  rw [Layout.channel]
  split
  · exact (channels_lt layout h).1
  · exact (channels_lt layout h).2

theorem reshape?_split (layout : Layout) (hd : t.dims = [b, bins * 2, frames])
    (hbins : 0 < bins) :
    (b = 0 ∧ reshape? t (layout.reshapeShape bins) = none) ∨ b ≠ 0 ∧
      ∃ r, reshape? t (layout.reshapeShape bins) = some r ∧ r.dims = layout.split b bins frames ∧
        ∀ i freq part frame, part < 2 → r.get (layout.splitPlace i freq part frame) =
          t.get [i, layout.channel bins freq part, frame] := by
  have hdims := reshapeDims?_split b frames layout hbins
  rw [← hd] at hdims
  by_cases hb : b = 0
  · refine .inl ⟨hb, ?_⟩
    rw [reshape?, hdims, if_pos hb]
    rfl
  · have hprod : t.dims.prod = (layout.split b bins frames).prod := by
      rw [hd, prod_split]
    refine .inr ⟨hb, t.withDims _ hprod, ?_, rfl, fun i freq part frame hpart => ?_⟩
    · rw [reshape?, hdims, if_neg hb]
      exact dif_pos hprod
    · exact get_withDims hprod (by rw [offset_split hpart, hd])

/-- The transposition puts the frames before the frequencies and the parts last. -/
theorem transpose?_split (hd : t.dims = layout.split b bins frames) :
    transpose? t layout.perm = some (ofPlaces [b, frames, bins, 2] fun idx =>
      t.get (layout.splitPlace (idx.getD 0 0) (idx.getD 2 0) (idx.getD 3 0) (idx.getD 1 0))) := by
  rw [transpose?, hd]
  cases layout <;> rfl

theorem conv?_one {x w : NdArray K} {m n : Nat} (hx : x.dims = [b, 1, l]) (hw : w.dims = [m, 1, n])
    (stride : Int) :
    conv? x w stride =
      if 0 < stride ∧ 0 < n ∧ n ≤ l then
        some (ofPlaces [b, m, (l - n) / stride.toNat + 1] fun idx =>
          ∑ k ∈ range n, w.get [idx.getD 1 0, 0, k] *
            x.get [idx.getD 0 0, 0, idx.getD 2 0 * stride.toNat + k])
      else none := by
  rw [conv?, hx, hw]
  simp only [true_and, sum_range_one]

theorem stft?_eq {A : Trig K} {window : NdArray K} {n : Nat} {onesided : Bool}
    (hd : signal.dims = [b, l]) (hw : window.dims = [n]) (frameStep : Int) :
    stft? A signal frameStep window n onesided =
      if 0 < frameStep ∧ 0 < n ∧ n ≤ l then
        some (ofPlaces [b, (l - n) / frameStep.toNat + 1, freqBins n onesided, 2] fun idx =>
          let z := spectrum A n (fun k => window.get [k])
            (fun k => signal.get [idx.getD 0 0, idx.getD 1 0 * frameStep.toNat + k])
            (idx.getD 2 0)
          if idx.getD 3 0 = 0 then z.1 else z.2)
      else none := by
  rw [stft?, hd]
  simp only [hw, Int.toNat_natCast, true_and, Int.natCast_pos]

/-- A channel of the convolution is a part of the transform. -/
theorem sum_basis {A : Trig K} {window basis : NdArray K} {n freq part : Nat} {onesided : Bool}
    (hfreq : freq < freqBins n onesided) (hpart : part < 2) (hw : window.dims = [n])
    (hrows : ∀ freq < freqBins n onesided, ∀ k < n,
      basis.get [layout.realIdx (freqBins n onesided) freq, 0, k] =
          window.flat k * A.cos (angle A n freq k) ∧
      basis.get [layout.imagIdx (freqBins n onesided) freq, 0, k] =
          -1 * window.flat k * A.sin (angle A n freq k)) (frame : Nat → K) :
    ∑ k ∈ range n, basis.get [layout.channel (freqBins n onesided) freq part, 0, k] * frame k =
      if part = 0 then (spectrum A n (fun k => window.get [k]) frame freq).1
      else (spectrum A n (fun k => window.get [k]) frame freq).2 := by
  have hwindow (k : Nat) : window.get [k] = window.flat k := by
    rw [NdArray.get, hw]
    simp [offset]
  rw [spectrum, Prod.fst_sum, Prod.snd_sum]
  have hcases : part = 0 ∨ part = 1 := by omega
  rcases hcases with rfl | rfl
  · refine sum_congr rfl fun k hk => ?_
    rw [Layout.channel, if_pos rfl, (hrows freq hfreq k (mem_range.mp hk)).1, hwindow]
    simp only [rotation, Prod.smul_mk, smul_eq_mul]
    ring
  · refine sum_congr rfl fun k hk => ?_
    rw [Layout.channel, if_neg one_ne_zero, (hrows freq hfreq k (mem_range.mp hk)).2, hwindow]
    simp only [rotation, Prod.smul_mk, smul_eq_mul]
    ring

theorem inside_four {a b c d : Nat} {idx : List Nat} (h : Inside [a, b, c, d] idx) :
    ∃ i j k m, i < a ∧ j < b ∧ k < c ∧ m < d ∧ idx = [i, j, k, m] := by
  obtain _ | ⟨hi, _ | ⟨hj, _ | ⟨hk, _ | ⟨hm, ⟨⟩⟩⟩⟩⟩ := h
  exact ⟨_, _, _, _, hi, hj, hk, hm, rfl⟩

/-- The convolution in its new order is the transform, except of an empty batch. -/
theorem convStft?_eq {A : Trig K} {window basis : NdArray K} {frameLength : Int} {onesided : Bool}
    (hd : signal.dims = [b, l]) (hwindow : window.dims.length = 1)
    (hbasis : makeBasis? A window frameLength onesided (-1) layout = some basis) (frameStep : Int) :
    convStft? signal basis frameStep (basis.dims.headD 0 / 2) layout =
      if b = 0 then none else stft? A signal frameStep window frameLength onesided := by
  obtain ⟨n, rfl, hlength, hdims, hrows⟩ := get_basis hbasis
  have hw : window.dims = [n] := by
    obtain ⟨m, hm⟩ := List.length_eq_one_iff.mp hwindow
    have hsize := window.size_eq
    rw [hm, List.prod_singleton, hlength] at hsize
    rw [hm, hsize]
  have hhalf : basis.dims.headD 0 / 2 = freqBins n onesided := by
    rw [hdims]
    exact Nat.mul_div_cancel _ Nat.two_pos
  obtain ⟨u, hu, hudims, hget⟩ := unsqueeze?_one hd
  rw [convStft?, hu, hhalf, Option.bind_eq_bind, Option.bind_some, conv?_one hudims hdims,
    stft?_eq hd hw]
  by_cases hvalid : 0 < frameStep ∧ 0 < n ∧ n ≤ l
  · have hbins : 0 < freqBins n onesided := by
      rw [freqBins]
      split
      · exact Nat.succ_pos _
      · exact hvalid.2.1
    rw [if_pos hvalid, if_pos hvalid, Option.bind_some]
    generalize hconv : ofPlaces [b, freqBins n onesided * 2, _] _ = conv
    have hcdims : conv.dims = [b, freqBins n onesided * 2, (l - n) / frameStep.toNat + 1] :=
      hconv ▸ rfl
    rcases reshape?_split layout hcdims hbins with
      ⟨hb, hnone⟩ | ⟨hb, r, hr, hrd, hrget⟩
    · rw [hnone, if_pos hb]
      rfl
    · rw [hr, if_neg hb, Option.bind_some, transpose?_split hrd]
      congr 1
      refine ofPlaces_congr fun idx hidx => ?_
      obtain ⟨i, t, freq, part, hi, ht, hfreq, hpart, rfl⟩ := inside_four hidx
      simp only [List.getD_cons_zero, List.getD_cons_succ]
      rw [hrget i freq part t hpart, ← hconv,
        get_ofPlaces (.cons hi (.cons (channel_lt hfreq) (.cons ht .nil)))]
      simp only [List.getD_cons_zero, List.getD_cons_succ, hget]
      exact sum_basis hfreq hpart hw hrows _
  · rw [if_neg hvalid, if_neg hvalid, ite_self]
    rfl

end Chain

end JetsonVoice.Stft
