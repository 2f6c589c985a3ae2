import JetsonVoice.Asr.MelExtractor
import JetsonVoice.KissFft.RealTransform
import Mathlib.Analysis.SpecialFunctions.Log.Base

/-!
# What the mel extractor computes

The extractor that the constructor leaves takes the power spectrum of a frame by
the real transform of the library. Its matrix is the logarithm of the mel bins of
the windowed frames, raised to eight below its maximum and scaled.

## Implementation notes

Both float types are the real numbers here: rounding is not modelled. The buffer
of the transform keeps what the last frame left in it; the transform does not
depend on that, and every frame starts from the same one.
-/

namespace JetsonVoice.Asr

open Foundation KissFft Finset

/-- The settings that are read from the file, with their defaults. -/
structure MelExtractorSettings where
  nFft : Nat := 400
  hopLength : Nat := 160
  nMels : Nat := 128
  melFloor : ℝ := 1e-10
  stftCenter : Bool := true
  dropLastFrame : Bool := true
  clampToMaxMinus8 : Bool := true
  /-- The shape in the file, if it has one. -/
  shape : Option (Int × Int) := none

/-- The periodic Hann window. -/
noncomputable def hannAt (nFft k : Nat) : ℝ := 0.5 * (1 - Real.cos ((2 : Nat) * Real.pi * k / nFft))

/-- The constructor, from the settings and the floats of the filter file; `none` where it
raises. -/
noncomputable def MelExtractor.construct (s : MelExtractorSettings) (melFilters : List ℝ) :
    Option (MelExtractor ℝ ℝ) :=
  if s.shape ≠ none ∧ s.shape ≠ some (((s.nFft / 2 + 1 : Nat) : Int), (s.nMels : Int)) then none
  else if hfilters : melFilters.length = (s.nFft / 2 + 1) * s.nMels ∧ s.nFft < 2 ^ 31 then
    (kissFftrAlloc kfCexp Real.pi s.nFft false).map fun cfg => {
      nFft := s.nFft
      hopLength := s.hopLength
      nMels := s.nMels
      melFloor := s.melFloor
      stftCenter := s.stftCenter
      dropLastFrame := s.dropLastFrame
      clampToMaxMinus8 := s.clampToMaxMinus8
      hann := hannAt s.nFft
      melFilters := melFilters
      fft := fun buffer k =>
        let spectrum := kissFftr cfg (fun _ => 0) (buffer.getD · 0) fun _ => 0
        ((spectrum k).r, (spectrum k).i)
      widen := id
      log10 := Real.logb 10
      small := hfilters.2
      filters := hfilters.1 }
  else none

namespace MelExtractor
variable {s : MelExtractorSettings} {melFilters w : List ℝ} {e : MelExtractor ℝ ℝ} {t m : Nat}

/-- The discrete Fourier transform of a frame under the window. -/
noncomputable def frameSpectrum (s : MelExtractorSettings) (w : List ℝ) (t k : Nat) : ℂ :=
  ∑ j ∈ range s.nFft, ((w.getD (t * s.hopLength + j) 0 * hannAt s.nFft j : ℝ) : ℂ) *
    Complex.exp (-((2 : Nat) * Real.pi * Complex.I * (j * k) / s.nFft))

/-- The energy of a mel bin in a frame, at least the floor. -/
noncomputable def melEnergy (s : MelExtractorSettings) (melFilters w : List ℝ) (m t : Nat) : ℝ :=
  max s.melFloor (∑ k ∈ range (s.nFft / 2 + 1),
    melFilters.getD (k * s.nMels + m) 0 * ‖frameSpectrum s w t k‖ ^ 2)

/-- What the constructor leaves. -/
structure Constructed (s : MelExtractorSettings) (melFilters : List ℝ) (e : MelExtractor ℝ ℝ) :
    Prop where
  nFft : e.nFft = s.nFft
  hopLength : e.hopLength = s.hopLength
  nMels : e.nMels = s.nMels
  melFloor : e.melFloor = s.melFloor
  stftCenter : e.stftCenter = s.stftCenter
  dropLastFrame : e.dropLastFrame = s.dropLastFrame
  clampToMaxMinus8 : e.clampToMaxMinus8 = s.clampToMaxMinus8
  postNormalize : e.postNormalize = true
  hann : e.hann = hannAt s.nFft
  melFilters_eq : e.melFilters = melFilters
  widen : e.widen = id
  log10 : e.log10 = Real.logb 10
  /-- The transform of a frame of the right length. -/
  power : 0 < s.nFft → ∀ buffer k, k ≤ s.nFft / 2 →
    (e.fft buffer k).1 * (e.fft buffer k).1 + (e.fft buffer k).2 * (e.fft buffer k).2 =
      ‖∑ j ∈ range s.nFft, ((buffer.getD j 0 : ℝ) : ℂ) *
        Complex.exp (-(2 * Real.pi * Complex.I * (j * k) / s.nFft))‖ ^ 2
  even : Even s.nFft

theorem norm_toComplex_sq (z : Cpx ℝ) : ‖toComplex z‖ ^ 2 = z.r * z.r + z.i * z.i := by
  rw [Complex.sq_norm, Complex.normSq_apply]
  rfl

theorem constructed (h : construct s melFilters = some e) : Constructed s melFilters e := by
  unfold construct at h
  split at h
  · cases h
  · split at h
    · obtain ⟨cfg, hcfg, rfl⟩ := Option.map_eq_some_iff.mp h
      obtain ⟨heven, -, -⟩ := kissFftrAlloc_spec hcfg
      refine ⟨rfl, rfl, rfl, rfl, rfl, rfl, rfl, rfl, rfl, rfl, rfl, rfl, ?_, ⟨s.nFft / 2, by omega⟩⟩
      intro hpos buffer k hk
      rw [← toComplex_spectrum heven (buffer.getD · 0), ← (kissFftr_spec hpos hcfg _ _ _).1 k hk,
        norm_toComplex_sq]
    · cases h

section Values
variable (h : Constructed s melFilters e)
include h

/-- The frame under the window, of which all samples are there. -/
theorem Constructed.buffer_eq (hread : ∀ j < s.nFft, t * s.hopLength + j < w.length) :
    e.buffer w t = some ((List.range s.nFft).map fun j =>
      w.getD (t * s.hopLength + j) 0 * hannAt s.nFft j) := by
  rw [buffer, h.nFft, h.hopLength, h.hann]
  apply mapM_eq_some_map
  intro j hj
  rw [List.getD_eq_getElem?_getD, List.getElem?_eq_getElem (hread j (List.mem_range.mp hj)),
    Option.map_some, Option.getD_some]

/-- The power spectrum of the frame. -/
theorem Constructed.power_eq (hpos : 0 < s.nFft) {k : Nat} (hk : k < s.nFft / 2 + 1) :
    (e.power ((List.range s.nFft).map fun j =>
      w.getD (t * s.hopLength + j) 0 * hannAt s.nFft j))[k]? =
        some (‖frameSpectrum s w t k‖ ^ 2) := by
  rw [MelExtractor.power, nFreq, h.nFft, List.getElem?_map, List.getElem?_range hk,
    Option.map_some, h.power hpos _ k (by omega), frameSpectrum]
  congr 3
  refine sum_congr rfl fun j hj => ?_
  rw [List.getD_eq_getElem?_getD, List.getElem?_map, List.getElem?_range (mem_range.mp hj),
    Option.map_some, Option.getD_some, Nat.cast_ofNat]

/-- The loop over the frequencies adds up the weighted powers. -/
theorem Constructed.foldlM_eq (hfilters : melFilters.length = (s.nFft / 2 + 1) * s.nMels)
    (hm : m < s.nMels) {powers : List ℝ} {p : Nat → ℝ} {n : Nat} (hn : n ≤ s.nFft / 2 + 1)
    (hp : ∀ k < n, powers[k]? = some (p k)) :
    (List.range n).foldlM (fun acc k => do
      let w ← e.melFilters[k * e.nMels + m]?
      let p ← powers[k]?
      return acc + e.widen w * p) 0 =
        some (∑ k ∈ range n, melFilters.getD (k * s.nMels + m) 0 * p k) := by
  induction n with
  | zero => rfl
  | succ n ih =>
      have hweight : n * s.nMels + m < melFilters.length := by
        rw [hfilters]
        exact index_lt hn hm
      rw [List.range_succ, List.foldlM_append, ih (by omega) fun k hk => hp k (by omega),
        sum_range_succ]
      simp [h.melFilters_eq, h.nMels, h.widen, hp n (by omega), hweight,
        List.getD_eq_getElem?_getD]

/-- The mel bins of a frame. -/
theorem Constructed.project_eq (hfilters : melFilters.length = (s.nFft / 2 + 1) * s.nMels)
    (hpos : 0 < s.nFft) (hm : m < s.nMels) :
    e.project (e.power ((List.range s.nFft).map fun j =>
      w.getD (t * s.hopLength + j) 0 * hannAt s.nFft j)) m =
        some (melEnergy s melFilters w m t) := by
  rw [project, nFreq, h.nFft, h.foldlM_eq hfilters hm le_rfl fun k hk => h.power_eq hpos hk]
  simp [h.melFloor, melEnergy]

/-- The mel bins of the frames. -/
theorem Constructed.melSpec_eq (hfilters : melFilters.length = (s.nFft / 2 + 1) * s.nMels)
    (hpos : 0 < s.nFft) {frames : Nat}
    (hread : ∀ t < frames, ∀ j < s.nFft, t * s.hopLength + j < w.length) :
    e.melSpec w frames = some ((List.range frames).map fun t =>
      (List.range s.nMels).map fun m => melEnergy s melFilters w m t) := by
  apply mapM_eq_some_map
  intro t ht
  have hbins := mapM_eq_some_map (f := e.project (e.power ((List.range s.nFft).map fun j =>
    w.getD (t * s.hopLength + j) 0 * hannAt s.nFft j)))
    (g := fun m => melEnergy s melFilters w m t) (l := List.range s.nMels)
    fun m hm => h.project_eq hfilters hpos (List.mem_range.mp hm)
  rw [h.buffer_eq (hread t (List.mem_range.mp ht)), h.nMels]
  exact hbins

end Values

/-- The logarithm of a mel bin. -/
noncomputable def logEnergy (s : MelExtractorSettings) (melFilters w : List ℝ) (m t : Nat) : ℝ :=
  Real.logb 10 (melEnergy s melFilters w m t)

section Matrix
variable {rows n q : Nat} {f : Nat → Nat → ℝ} {v : ℝ}

/-- A matrix row by row. -/
theorem getElem?_rows (hm : m < rows) (ht : t < q) :
    ((List.range rows).flatMap fun m => (List.range q).map (f m))[m * q + t]? = some (f m t) := by
  induction rows with
  | zero => cases hm
  | succ rows ih =>
      have hlen : ((List.range rows).flatMap fun m => (List.range q).map (f m)).length =
          rows * q := by simp [List.length_flatMap]
      rw [List.range_succ, List.flatMap_append]
      rcases Nat.lt_succ_iff_lt_or_eq.mp hm with hlt | rfl
      · rw [List.getElem?_append_left (by rw [hlen]; exact index_lt hlt ht), ih hlt]
      · rw [List.getElem?_append_right (by rw [hlen]; omega), hlen, Nat.add_sub_cancel_left]
        simp [ht]

theorem mem_rows : v ∈ ((List.range rows).flatMap fun m => (List.range q).map (f m)) ↔
    ∃ m < rows, ∃ t < q, f m t = v := by
  simp

/-- The loop for the maximum, which starts with one of the values. -/
theorem isGreatest_foldl_max (l : List ℝ) (v : ℝ) :
    IsGreatest {x | x ∈ v :: l} (l.foldl max v) := by
  induction l generalizing v with
  | nil => simp
  | cons x l ih =>
      obtain ⟨hmem, hle⟩ := ih (max v x)
      constructor
      · rcases List.mem_cons.mp hmem with heq | hin
        · rcases max_choice v x with hv | hx
          · exact List.mem_cons.mpr (.inl (heq.trans hv))
          · exact List.mem_cons_of_mem _ (List.mem_cons.mpr (.inl (heq.trans hx)))
        · exact List.mem_cons_of_mem _ (List.mem_cons_of_mem _ hin)
      · have hstart : max v x ≤ l.foldl max (max v x) := hle List.mem_cons_self
        intro y hy
        rcases List.mem_cons.mp hy with rfl | hy
        · exact (le_max_left _ _).trans hstart
        · rcases List.mem_cons.mp hy with rfl | hy
          · exact (le_max_right _ _).trans hstart
          · exact hle (List.mem_cons_of_mem _ hy)

end Matrix

section Output
variable {q : Nat} {pcm : List ℝ}

/-- What a value becomes where the largest one is `peak`. -/
noncomputable def normalized (s : MelExtractorSettings) (peak v : ℝ) : ℝ :=
  ((if s.clampToMaxMinus8 then max v (peak - 8) else v) + 4) / 4

theorem Constructed.normalize_eq (h : Constructed s melFilters e) {l : List ℝ} (hl : l ≠ []) :
    ∃ peak, IsGreatest {x | x ∈ l} peak ∧ e.normalize l = l.map (normalized s peak) := by
  cases l with
  | nil => exact absurd rfl hl
  | cons v rest =>
      have hmax := isGreatest_foldl_max (v :: rest) v
      refine ⟨(v :: rest).foldl max v, by simpa using hmax, ?_⟩
      rw [normalize, h.postNormalize, if_pos rfl, h.clampToMaxMinus8]
      cases hclamp : s.clampToMaxMinus8
      · simp [normalized, hclamp]
      · simp only [if_true, List.map_map]
        exact List.map_congr_left fun x _ => by simp [normalized, hclamp]

/-- The matrix before it is padded. -/
theorem Constructed.logMel_eq (h : Constructed s melFilters e)
    (hfilters : melFilters.length = (s.nFft / 2 + 1) * s.nMels) (hpos : 0 < s.nFft)
    (hread : ∀ t < q + 1, ∀ j < s.nFft, t * s.hopLength + j < w.length) :
    e.logMel w (q + 1) q = some (e.normalize ((List.range s.nMels).flatMap fun m =>
      (List.range q).map (logEnergy s melFilters w m))) := by
  have hkept : ((List.range (q + 1)).map fun t => (List.range s.nMels).map fun m =>
      melEnergy s melFilters w m t).take q = (List.range q).map fun t =>
        (List.range s.nMels).map fun m => melEnergy s melFilters w m t := by
    rw [← List.map_take, List.take_range, Nat.min_eq_left (Nat.le_succ q)]
  have hrow : ∀ m ∈ List.range s.nMels, (((List.range q).map fun t =>
      (List.range s.nMels).map fun m => melEnergy s melFilters w m t).mapM fun bins =>
        (bins[m]?).map e.log10) = some ((List.range q).map (logEnergy s melFilters w m)) := by
    intro m hm
    rw [List.mapM_map]
    apply mapM_eq_some_map
    intro t _
    simp [h.log10, logEnergy, List.mem_range.mp hm]
  have hrows := mapM_eq_some_map hrow
  rw [logMel, h.melSpec_eq hfilters hpos hread, h.nMels]
  simp only [Option.bind_eq_bind, Option.bind_some, hkept, hrows, Option.pure_def, List.flatMap]

theorem Constructed.filters_length (h : Constructed s melFilters e) :
    melFilters.length = (s.nFft / 2 + 1) * s.nMels := by
  rw [← h.melFilters_eq, e.filters, h.nFft, h.nMels]

/-- Windows of two samples and one bin. -/
def tinySettings : MelExtractorSettings where
  nFft := 2
  hopLength := 1
  nMels := 1
  melFloor := 1

end Output

end MelExtractor
end JetsonVoice.Asr
