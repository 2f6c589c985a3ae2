import JetsonVoice.Foundation.FloatRounding
import JetsonVoice.W8A16.Awq

/-!
# Half-precision scales of quantised weights

Both quantisers choose the integers with the exact scales of the outputs and
return the scales rounded to half precision. An entry then stays within a step of
its weight just when rounding moves the scale by little enough.
-/

namespace JetsonVoice.W8A16

open Foundation Onnx Onnx.Tensor

section Model

/-- `scale.astype(np.float16)`. -/
def storedScale (scale : ℚ) : FloatDatum := binary16.datum (binary16.nearest scale)

/-- The integers of a quantiser with its scales in half precision. -/
def storeScales (r : Tensor × Tensor) : Tensor × List FloatDatum :=
  (r.1, r.2.data.map storedScale)

/-- `quantize_per_output_int8` with the scales it returns. -/
def quantizePerOutputFp16? (weight : Tensor) : Option (Tensor × List FloatDatum) :=
  (quantizePerOutputInt8? weight).map storeScales

/-- `_compute_per_output_int8` with the scales it returns. -/
def computePerOutputFp16? (x : Awq.OpQuant) : Option (Tensor × List FloatDatum) :=
  (Awq.computePerOutputInt8? x).map storeScales

/-- `q * scale`; an infinite scale gives no number. -/
def dequantise? (q : ℚ) : FloatDatum → Option ℚ
  | .finite negative magnitude => some (q * if negative then -magnitude else magnitude)
  | _ => none

/-- The dequantised entry of a quantised matrix with `n` outputs. -/
def recovered? (n : Nat) (r : Tensor × List FloatDatum) (i j : Nat) : Option ℚ :=
  r.2[j]?.bind (dequantise? (r.1.flat (i * n + j)))

/-- The size of the largest weight of an output. -/
def columnMax (weight : Tensor) (k n j : Nat) : ℚ :=
  ((List.range k).map fun i => |weight.flat (i * n + j)|).foldr max 0

/-- The largest of the sizes supplied for the blocks of an output. -/
def suppliedAmax (x : Awq.OpQuant) (outDim o : Nat) : ℚ :=
  let numGroups := x.amax.data.length / outDim
  ((List.range numGroups).map fun group => x.amax.flat (o * numGroups + group)).max?.getD 0

/-- The smoothed weight of an output. -/
def smoothed (x : Awq.OpQuant) (inDim o i : Nat) : ℚ :=
  x.weightHf.flat (o * inDim + i) * x.pqs.flat i

end Model

section Statements

/-- An integer of the symmetric range. -/
def IsCode (q : ℚ) : Prop := ∃ z : Int, q = z ∧ -127 ≤ z ∧ z ≤ 127

/-- A dequantised entry less than a step away from its weight. -/
def WithinStep (step weight : ℚ) (entry : Option ℚ) : Prop :=
  ∃ x, entry = some x ∧ |x - weight| < step

/-- Half precision keeps the scale, up to so little. -/
def ScaleKept (scale : ℚ) : Prop :=
  ∃ stored, storedScale scale = .finite false stored ∧ 254 * (stored - scale) ≤ scale ∧
    252 * (scale - stored) < scale

/-- What holds of the weight, the integer and the dequantised entry at every place of
an output whose largest weight has a given size. -/
def EachPlain (amax : ℚ) (P : ℚ → ℚ → Option ℚ → Prop) : Prop :=
  ∀ weight k n, weight.dims = [k, n] → 0 < k → ∃ r, quantizePerOutputFp16? weight = some r ∧
    ∀ j < n, columnMax weight k n j = amax → ∀ i < k,
      P (weight.flat (i * n + j)) (r.1.flat (i * n + j)) (recovered? n r i j)

/-- The same of the smoothed weights of an output that the supplied size bounds. -/
def EachAwq (amax : ℚ) (P : ℚ → ℚ → Option ℚ → Prop) : Prop :=
  ∀ x outDim inDim r, x.weightHf.dims = [outDim, inDim] → computePerOutputFp16? x = some r →
    ∀ o < outDim, suppliedAmax x outDim o = amax →
      (∀ i < inDim, |smoothed x inDim o i| ≤ amax) → ∀ i < inDim,
        P (smoothed x inDim o i) (r.1.flat (i * outDim + o)) (recovered? outDim r i o)

end Statements

section Codes
variable {x scale stored : ℚ}

/-- A number between two integers is rounded to the even one. -/
theorem rint_even (h : |x - rint x| = 1 / 2) : rint x % 2 = 0 := by
  have hlo := Int.floor_le x
  have hhi := Int.lt_floor_add_one x
  rw [rint] at h ⊢
  split at h
  · rw [abs_of_nonneg (by linarith)] at h
    linarith
  · rename_i hlow
    rw [if_neg hlow]
    split at h
    · push_cast at h
      rw [abs_sub_comm, abs_of_nonneg (by linarith)] at h
      linarith
    · rename_i hhigh
      rw [if_neg hhigh]
      split
      · assumption
      · omega

/-- A number is less than a half away from an odd integer it is rounded to. -/
theorem abs_sub_rint_lt (hodd : rint x % 2 = 1) : |x - rint x| < 1 / 2 := by
  refine (abs_sub_rint_le x).lt_of_ne fun htie => ?_
  have := rint_even htie
  omega

/-- An end of the symmetric range is not reached from a half. -/
theorem abs_sub_rint_lt_of_end (hend : rint x = 127 ∨ rint x = -127) : |x - rint x| < 1 / 2 :=
  abs_sub_rint_lt (by omega)

theorem isCode_toInt8 (h : |x| ≤ 127) : IsCode (toInt8 x) := by
  obtain ⟨hq, hlo, hhi⟩ := toInt8_eq_rint h
  exact ⟨rint x, hq, hlo, hhi⟩

/-- The last integer, from the numbers over its half. -/
theorem toInt8_last (hlow : 126 + 1 / 2 < x) (hhigh : x ≤ 127) : toInt8 x = 127 := by
  obtain ⟨hq, -, hmax⟩ := toInt8_eq_rint (abs_le.mpr ⟨by linarith, hhigh⟩)
  have hover := (abs_le.mp (abs_sub_rint_le x)).2
  have hmin : 126 < rint x := by
    have : (126 : ℚ) < rint x := by linarith
    exact_mod_cast this
  have hlast : rint x = 127 := by omega
  rw [hq, hlast]
  rfl

theorem toInt8_tie : toInt8 (126 + 1 / 2) = 126 := by norm_num [toInt8, rint]

/-- A scale kept so closely leaves every product less than a step from its weight. -/
theorem abs_product_sub_lt (hs : 0 < scale) (hup : 254 * (stored - scale) ≤ scale)
    (hdown : 252 * (scale - stored) < scale) (h : |x| ≤ 127) :
    |toInt8 x * stored - x * scale| < scale := by
  obtain ⟨hq, hlo, hhi⟩ := toInt8_eq_rint h
  obtain ⟨hxlo, hxhi⟩ := abs_le.mp h
  obtain ⟨hqlo, hqhi⟩ := abs_le.mp (abs_sub_rint_le x)
  have hsplit : toInt8 x * stored - x * scale =
      rint x * (stored - scale) + (rint x - x) * scale := by
    rw [hq]
    ring
  rw [hsplit, abs_lt]
  by_cases htop : rint x = 127
  · have hend := (abs_lt.mp (abs_sub_rint_lt_of_end (.inl htop))).1
    rw [htop] at hend ⊢
    push_cast at hend ⊢
    have hrest := mul_lt_mul_of_pos_right hend hs
    have hrest' := mul_nonneg (sub_nonneg.mpr hxhi) hs.le
    constructor <;> linarith
  · by_cases hbottom : rint x = -127
    · have hend := (abs_lt.mp (abs_sub_rint_lt_of_end (.inr hbottom))).2
      rw [hbottom] at hend ⊢
      push_cast at hend ⊢
      have hrest := mul_lt_mul_of_pos_right hend hs
      have hrest' := mul_nonneg (neg_le_iff_add_nonneg.mp hxlo) hs.le
      constructor <;> linarith
    · have hsize : |(rint x : ℚ)| ≤ 126 := by
        rw [abs_le]
        constructor
        · exact_mod_cast (show -126 ≤ rint x by omega)
        · exact_mod_cast (show rint x ≤ 126 by omega)
      have hmoved : 126 * |stored - scale| < scale / 2 := by
        rcases abs_cases (stored - scale) with ⟨he, -⟩ | ⟨he, -⟩ <;> rw [he] <;> linarith
      have hproduct : |rint x * (stored - scale)| < scale / 2 := by
        rw [abs_mul]
        exact (mul_le_mul_of_nonneg_right hsize (abs_nonneg _)).trans_lt hmoved
      obtain ⟨hplo, hphi⟩ := abs_lt.mp hproduct
      have hrest := mul_le_mul_of_nonneg_right hqlo hs.le
      have hrest' := mul_le_mul_of_nonneg_right hqhi hs.le
      constructor <;> linarith

end Codes

section Scales
variable {x scale stored amax : ℚ}

/-- A stored scale is a magnitude of the format, or infinite. -/
theorem storedScale_cases (hs : 0 ≤ scale) :
    (∃ stored, storedScale scale = .finite false stored) ∨
      storedScale scale = .infinity false := by
  have hle := (binary16.nearestEven_nearest hs).1
  have htop : binary16.infinityBits < binary16.signBit := by decide
  have hmod : binary16.nearest scale % binary16.signBit = binary16.nearest scale :=
    Nat.mod_eq_of_lt (hle.trans_lt htop)
  have hsign : binary16.negative (binary16.nearest scale) = false :=
    decide_eq_false (by omega)
  rw [storedScale, FloatFormat.datum, hmod, hsign]
  rcases hle.lt_or_eq with hlt | heq
  · rw [if_pos hlt]
    exact .inl ⟨_, rfl⟩
  · rw [heq, if_neg (lt_irrefl _), if_pos rfl]
    exact .inr rfl

theorem storedScale_of_le {s : ℚ} (h : binary16.nearest s ≤ 31743) :
    storedScale s = .finite false (binary16.magnitude (binary16.nearest s)) := by
  have hsign : binary16.signBit = 32768 := by decide
  have htop : binary16.infinityBits = 31744 := by decide
  rw [storedScale, FloatFormat.datum, hsign, htop, Nat.mod_eq_of_lt (by omega),
    if_pos (by omega), FloatFormat.negative, hsign, decide_eq_false (by omega)]

theorem dequantise?_finite (q stored : ℚ) :
    dequantise? q (.finite false stored) = some (q * stored) := rfl

/-- The worst weight above is just over the half that is rounded up to the last integer. -/
theorem stored_le_of_within (hs : 0 < scale) (hstored : storedScale scale = .finite false stored)
    (h : ∀ weight, |weight| ≤ 127 * scale →
      WithinStep scale weight (dequantise? (toInt8 (weight / scale)) (storedScale scale))) :
    254 * (stored - scale) ≤ scale := by
  by_contra hup
  set excess := min (127 * (stored - scale) - scale / 2) (scale / 2)
  have hpos : 0 < excess := lt_min (by linarith) (by linarith)
  have hend : excess ≤ scale / 2 := min_le_right _ _
  have hover : excess ≤ 127 * (stored - scale) - scale / 2 := min_le_left _ _
  have hhalf : 126 + 1 / 2 < (126 * scale + scale / 2 + excess) / scale := by
    rw [lt_div_iff₀ hs]
    linarith
  have htop : (126 * scale + scale / 2 + excess) / scale ≤ 127 := by
    rw [div_le_iff₀ hs]
    linarith
  obtain ⟨y, hy, hlt⟩ := h (126 * scale + scale / 2 + excess)
    (by rw [abs_of_pos (by linarith)]; linarith)
  rw [hstored, dequantise?_finite, toInt8_last hhalf htop] at hy
  cases hy
  have := (abs_lt.mp hlt).2
  linarith

/-- The worst weight below is the last half that is rounded down, to an even integer. -/
theorem lt_stored_of_within (hs : 0 < scale) (hstored : storedScale scale = .finite false stored)
    (h : ∀ weight, |weight| ≤ 127 * scale →
      WithinStep scale weight (dequantise? (toInt8 (weight / scale)) (storedScale scale))) :
    252 * (scale - stored) < scale := by
  by_contra hdown
  have htie : (126 * scale + scale / 2) / scale = 126 + 1 / 2 := by
    rw [div_eq_iff hs.ne']
    ring
  obtain ⟨y, hy, hlt⟩ := h (126 * scale + scale / 2) (by rw [abs_of_pos (by linarith)]; linarith)
  rw [hstored, dequantise?_finite, htie, toInt8_tie] at hy
  cases hy
  have := (abs_lt.mp hlt).1
  linarith

/-- Where the scale is kept, and only there, every weight of the range is dequantised to
less than a step from it. -/
theorem withinStep_iff (hs : 0 < scale) :
    (∀ weight, |weight| ≤ 127 * scale →
      WithinStep scale weight (dequantise? (toInt8 (weight / scale)) (storedScale scale))) ↔
      ScaleKept scale := by
  constructor
  · intro h
    rcases storedScale_cases hs.le with ⟨stored, hstored⟩ | hinf
    · exact ⟨stored, hstored, stored_le_of_within hs hstored h, lt_stored_of_within hs hstored h⟩
    · obtain ⟨y, hy, -⟩ := h 0 (by rw [abs_zero]; linarith)
      rw [hinf] at hy
      cases hy
  · rintro ⟨stored, hstored, hup, hdown⟩ weight hweight
    have hx : |weight / scale| ≤ 127 := by
      rw [abs_div, abs_of_pos hs, div_le_iff₀ hs]
      exact hweight
    have hlt := abs_product_sub_lt hs hup hdown hx
    rw [div_mul_cancel₀ _ hs.ne'] at hlt
    exact ⟨_, by rw [hstored, dequantise?_finite], hlt⟩

/-- The places of half precision at which scales are lost. -/
theorem binary16_values :
    binary16.unit = 1 / 2 ^ 24 ∧
    binary16.magnitude 31743 + binary16.magnitude 31744 = 2 * 65520 ∧
    binary16.magnitude binary16.infinityBits = 65536 ∧
    binary16.nearest 1 = 15360 ∧ binary16.magnitude 15360 = 1 := by
  decide +kernel

/-- Half precision keeps every scale from 127 of its units to the middle of its last gap. -/
theorem scaleKept_of_range (hlow : 127 / 2 ^ 24 ≤ scale) (hhigh : scale < 65520) :
    ScaleKept scale := by
  have hs : 0 ≤ scale := by linarith
  obtain ⟨hunit, hlast, htop, -⟩ := binary16_values
  have hfinite : binary16.nearest scale ≤ 31743 :=
    (binary16.nearestEven_nearest hs).lt_top binary16.magnitude_strictMono (by linarith)
  have hclose := binary16.two_mul_abs_sub_nearest_le hs (by rw [htop]; linarith)
  have hmax : 127 * max binary16.unit (scale / 2 ^ binary16.fractionBits) ≤ scale := by
    rcases max_cases binary16.unit (scale / 2 ^ binary16.fractionBits) with ⟨he, -⟩ | ⟨he, -⟩
    · rw [he, hunit]
      linarith
    · rw [he]
      change 127 * (scale / 2 ^ 10) ≤ scale
      linarith
  have hup := neg_abs_le (scale - binary16.magnitude (binary16.nearest scale))
  have hdown := le_abs_self (scale - binary16.magnitude (binary16.nearest scale))
  exact ⟨_, storedScale_of_le hfinite, by linarith, by linarith⟩

end Scales

section Matrices
variable {amax a : ℚ} {weight : Tensor} {x : Awq.OpQuant} {r : Tensor × List FloatDatum}
  {k n i j outDim inDim o : Nat}

theorem outputScale_of_pos (ha : 0 < a) : outputScale a = a / 127 :=
  if_neg (by positivity)

theorem storedScale_one : storedScale 1 = .finite false 1 := by
  obtain ⟨-, -, -, hbits, hvalue⟩ := binary16_values
  rw [storedScale_of_le (hbits.trans_le (by decide)), hbits, hvalue]

/-- The integer and the dequantised entry at a place of a matrix. -/
theorem quantizePerOutputFp16?_spec {weight : Tensor} (hw : weight.dims = [k, n]) (hk : 0 < k) :
    ∃ r, quantizePerOutputFp16? weight = some r ∧ ∀ j < n, ∀ i < k,
      |weight.flat (i * n + j)| ≤ columnMax weight k n j ∧
      r.1.flat (i * n + j) =
        toInt8 (weight.flat (i * n + j) / outputScale (columnMax weight k n j)) ∧
      recovered? n r i j = dequantise? (r.1.flat (i * n + j))
        (storedScale (outputScale (columnMax weight k n j))) := by
  rw [quantizePerOutputFp16?, quantizePerOutputInt8?, hw]
  dsimp only
  rw [if_neg (by omega)]
  refine ⟨_, rfl, fun j hj i hi => ⟨?_, ?_, ?_⟩⟩
  · exact le_foldr_max (List.mem_map.mpr ⟨i, List.mem_range.mpr hi, rfl⟩)
  · rw [storeScales, flat_ofFn (index_lt hi hj), Nat.mul_add_mod_self_right, Nat.mod_eq_of_lt hj]
    rfl
  · simp only [recovered?, storeScales, ofFn, List.getElem?_map, List.prod_cons, List.prod_nil,
      Nat.mul_one, List.getElem?_range hj, Option.map_some, Option.bind_some]
    rfl

theorem computePerOutputFp16?_spec (hw : x.weightHf.dims = [outDim, inDim])
    (h : computePerOutputFp16? x = some r) (ho : o < outDim) (hi : i < inDim)
    (ha : 0 ≤ suppliedAmax x outDim o) :
    r.1.flat (i * outDim + o) =
        toInt8 (smoothed x inDim o i / outputScale (suppliedAmax x outDim o)) ∧
      recovered? outDim r i o = dequantise? (r.1.flat (i * outDim + o))
        (storedScale (outputScale (suppliedAmax x outDim o))) := by
  have hscale : (if 0 < suppliedAmax x outDim o / 127 then suppliedAmax x outDim o / 127 else 1) =
      outputScale (suppliedAmax x outDim o) := by
    rw [outputScale]
    rcases ha.eq_or_lt with heq | hlt
    · simp [← heq]
    · rw [if_pos (by positivity), if_neg (by positivity)]
  rw [computePerOutputFp16?, Awq.computePerOutputInt8?, hw] at h
  dsimp only at h
  split at h
  · cases h
  · split at h
    · cases h
    · split at h
      · cases h
      · cases h
        constructor
        · rw [storeScales, flat_transposed rfl hi ho, flat_ofFn (index_lt ho hi),
            Nat.mul_add_mod_self_right, Nat.mod_eq_of_lt hi, Nat.mul_comm o inDim,
            Nat.mul_add_div (by omega), Nat.div_eq_of_lt hi, Nat.add_zero, Nat.mul_comm inDim o,
            ← hscale]
          rfl
        · simp only [recovered?, storeScales, ofFn, List.getElem?_map, List.prod_cons,
            List.prod_nil, Nat.mul_one, List.getElem?_range ho, Option.map_some,
            Option.bind_some, ← hscale]
          rfl

/-- Every weight of an output gets an integer of the symmetric range, and zeros stay zeros. -/
theorem codes_outputScale {w : ℚ} (ha : 0 ≤ a) (hw : |w| ≤ a) :
    IsCode (toInt8 (w / outputScale a)) ∧ (a = 0 →
      dequantise? (toInt8 (w / outputScale a)) (storedScale (outputScale a)) = some 0) := by
  obtain ⟨hpos, hle⟩ := outputScale_spec ha
  constructor
  · apply isCode_toInt8
    rw [abs_div, abs_of_pos hpos, div_le_iff₀ hpos]
    exact hw.trans hle
  · rintro rfl
    have hzero : w = 0 := abs_nonpos_iff.mp hw
    have hscale : outputScale 0 = 1 := by simp [outputScale]
    have hcode : toInt8 (0 / 1) = 0 := by simp [toInt8, rint]
    rw [hzero, hscale, storedScale_one, hcode, dequantise?_finite, zero_mul]

theorem withinStep_outputScale_iff (ha : 0 < a) :
    (∀ w, |w| ≤ a → WithinStep (a / 127) w
      (dequantise? (toInt8 (w / outputScale a)) (storedScale (outputScale a)))) ↔
      ScaleKept (a / 127) := by
  have hspan : 127 * (a / 127) = a := by ring
  have hstep := withinStep_iff (show 0 < a / 127 by positivity)
  rw [hspan] at hstep
  rw [outputScale_of_pos ha]
  exact hstep

theorem eachPlain_of {P : ℚ → ℚ → Option ℚ → Prop}
    (h : ∀ w, |w| ≤ a → P w (toInt8 (w / outputScale a))
      (dequantise? (toInt8 (w / outputScale a)) (storedScale (outputScale a)))) :
    EachPlain a P := by
  intro weight k n hw hk
  obtain ⟨r, hr, hspec⟩ := quantizePerOutputFp16?_spec hw hk
  refine ⟨r, hr, fun j hj ha i hi => ?_⟩
  obtain ⟨hle, hcode, hread⟩ := hspec j hj i hi
  rw [ha] at hle hcode hread
  rw [hread, hcode]
  exact h _ hle

theorem eachAwq_of {P : ℚ → ℚ → Option ℚ → Prop} (ha : 0 ≤ a)
    (h : ∀ w, |w| ≤ a → P w (toInt8 (w / outputScale a))
      (dequantise? (toInt8 (w / outputScale a)) (storedScale (outputScale a)))) :
    EachAwq a P := by
  intro x outDim inDim r hw hr o ho hamax hbound i hi
  obtain ⟨hcode, hread⟩ := computePerOutputFp16?_spec hw hr ho hi (hamax ▸ ha)
  rw [hamax] at hcode hread
  rw [hread, hcode]
  exact h _ (hbound i hi)

/-- Any weight of the range is in some column with a given largest size. -/
theorem EachPlain.apply {P : ℚ → ℚ → Option ℚ → Prop} (h : EachPlain a P) {w : ℚ} (hw : |w| ≤ a) :
    P w (toInt8 (w / outputScale a))
      (dequantise? (toInt8 (w / outputScale a)) (storedScale (outputScale a))) := by
  have ha : 0 ≤ a := (abs_nonneg w).trans hw
  have hmax : columnMax ⟨[2, 1], [w, a], rfl⟩ 2 1 0 = a := by
    change max |w| (max |a| 0) = a
    rw [abs_of_nonneg ha, max_eq_left ha, max_eq_right hw]
  obtain ⟨r, hr, hspec⟩ :=
    quantizePerOutputFp16?_spec (show Tensor.dims ⟨[2, 1], [w, a], rfl⟩ = [2, 1] from rfl)
      Nat.two_pos
  obtain ⟨r', hr', hp⟩ := h ⟨[2, 1], [w, a], rfl⟩ 2 1 rfl Nat.two_pos
  cases hr.symm.trans hr'
  obtain ⟨-, hcode, hread⟩ := hspec 0 Nat.one_pos 0 Nat.two_pos
  have hplace := hp 0 Nat.one_pos hmax 0 Nat.two_pos
  rw [hread, hcode, hmax] at hplace
  exact hplace

theorem EachAwq.apply {P : ℚ → ℚ → Option ℚ → Prop} (h : EachAwq a P) {w : ℚ} (hw : |w| ≤ a) :
    P w (toInt8 (w / outputScale a))
      (dequantise? (toInt8 (w / outputScale a)) (storedScale (outputScale a))) := by
  have ha : 0 ≤ a := (abs_nonneg w).trans hw
  set x : Awq.OpQuant := ⟨⟨[1, 1], [w], rfl⟩, ⟨[1], [a], rfl⟩, ⟨[1], [1], rfl⟩⟩ with hx
  have hsmoothed (i : Nat) (hi : i < 1) : smoothed x 1 0 i = w := by
    obtain rfl : i = 0 := by omega
    exact mul_one w
  obtain ⟨r, hr⟩ : ∃ r, computePerOutputFp16? x = some r := by
    simp [computePerOutputFp16?, Awq.computePerOutputInt8?, hx]
  have hamax : suppliedAmax x 1 0 = a := by
    simp [suppliedAmax, hx, Tensor.flat, List.max?]
  have hplace := h x 1 1 r rfl hr 0 Nat.one_pos hamax
    (fun i hi => by rw [hsmoothed i hi]; exact hw) 0 Nat.one_pos
  obtain ⟨hcode, hread⟩ := computePerOutputFp16?_spec rfl hr Nat.one_pos Nat.one_pos (hamax ▸ ha)
  rw [hread, hcode, hamax, hsmoothed 0 Nat.one_pos] at hplace
  exact hplace

/-- What the two quantisers keep of an output by the size of its largest weight: the
integers are in the symmetric range, zeros stay zeros, and all entries stay within a step
just when half precision keeps the scale. -/
theorem stored_scales_spec (ha : 0 ≤ a) :
    EachPlain a (fun _ q entry => IsCode q ∧ (a = 0 → entry = some 0)) ∧
    EachAwq a (fun _ q entry => IsCode q ∧ (a = 0 → entry = some 0)) ∧
    (0 < a → (EachPlain a (fun w _ entry => WithinStep (a / 127) w entry) ↔ ScaleKept (a / 127))) ∧
    (0 < a → (EachAwq a (fun w _ entry => WithinStep (a / 127) w entry) ↔ ScaleKept (a / 127))) ∧
    (127 * 127 / 2 ^ 24 ≤ a → a < 127 * 65520 → ScaleKept (a / 127)) := by
  refine ⟨eachPlain_of fun w hw => codes_outputScale ha hw,
    eachAwq_of ha fun w hw => codes_outputScale ha hw, fun hpos => ?_, fun hpos => ?_,
    fun hlow hhigh => scaleKept_of_range (by linarith) (by linarith)⟩
  · rw [← withinStep_outputScale_iff hpos]
    exact ⟨fun h w hw => h.apply hw, fun h => eachPlain_of h⟩
  · rw [← withinStep_outputScale_iff hpos]
    exact ⟨fun h w hw => h.apply hw, fun h => eachAwq_of ha h⟩

/-- Columns with a largest weight of 127 are kept. -/
theorem stored_scales_spec_unit :
    EachPlain 127 fun w _ entry => WithinStep (127 / 127) w entry := by
  obtain ⟨-, -, hplain, -, hrange⟩ := stored_scales_spec (a := 127) (by norm_num)
  exact (hplain (by norm_num)).mpr (hrange (by norm_num) (by norm_num))

/-- The scale of a small column is stored as zero, and its weights are lost. -/
theorem small_column_lost :
    ∃ r, quantizePerOutputFp16? ⟨[1, 1], [1 / 2 ^ 20], rfl⟩ = some r ∧
      columnMax ⟨[1, 1], [1 / 2 ^ 20], rfl⟩ 1 1 0 = 1 / 2 ^ 20 ∧
      recovered? 1 r 0 0 = some 0 ∧
      ¬ WithinStep (1 / 2 ^ 20 / 127) (1 / 2 ^ 20) (recovered? 1 r 0 0) := by
  refine ⟨_, rfl, by decide +kernel, ?_⟩
  have hlost : recovered? 1 (storeScales ((quantizePerOutputInt8?
      ⟨[1, 1], [1 / 2 ^ 20], rfl⟩).get rfl)) 0 0 = some 0 := by decide +kernel
  refine ⟨hlost, ?_⟩
  rintro ⟨x, hx, hlt⟩
  cases hlost.symm.trans hx
  norm_num at hlt

end Matrices

end JetsonVoice.W8A16
