import JetsonVoice.W8A16.StoredScales

/-!
# The error of quantised products

A matrix quantised with its scales in half precision and read by the kernels, in either
layout, against the matrix itself.
-/

namespace JetsonVoice.W8A16

open Foundation Onnx Onnx.Tensor

section Operands

/-- The number a finite half-precision scale stands for. -/
def scaleValue : FloatDatum → ℚ
  | .finite negative magnitude => if negative then -magnitude else magnitude
  | _ => 0

/-- The scales as the kernels read them. -/
def scaleTensor (n : Nat) (scales : List FloatDatum) : Tensor :=
  ofFn [n] fun j => (scales[j]?).elim 0 scaleValue

/-- The integers as they are stored in a layout. -/
def storedIn (outputMajor : Bool) (q : Tensor) : Tensor := if outputMajor then q.transposed else q

/-- The attributes of a converted node in a layout. -/
def linearAttrs (n k : Nat) (outputMajor : Bool) : PluginAttrs :=
  ⟨n, k, 0, 0, if outputMajor then 1 else 0⟩

/-- The sum of the sizes of an activation row. -/
def rowNorm (a : Tensor) (k row : Nat) : ℚ := ∑ kk ∈ Finset.range k, |a.flat (row * k + kk)|

variable {k n i j row : Nat} {q w a : Tensor} {scales : List FloatDatum}

theorem flat_scaleTensor (hj : j < n) :
    (scaleTensor n scales).flat j = (scales[j]?).elim 0 scaleValue := by
  rw [scaleTensor, flat_ofFn (by simpa using hj)]

/-- A recovered entry is what the kernels multiply by. -/
theorem recovered?_eq {x : ℚ} (hj : j < n) (h : recovered? n (q, scales) i j = some x) :
    q.flat (i * n + j) * (scaleTensor n scales).flat j = x := by
  rw [flat_scaleTensor hj]
  obtain ⟨datum, hdatum, h⟩ := Option.bind_eq_some_iff.mp h
  rw [hdatum]
  cases datum with
  | finite negative magnitude => exact Option.some.inj h
  | _ => cases h

theorem dims_storedIn (outputMajor : Bool) (hq : q.dims = [k, n]) :
    (storedIn outputMajor q).dims =
      if (linearAttrs n k outputMajor).weightLayout = 1 then [n, k] else [k, n] := by
  cases outputMajor with
  | false => exact hq
  | true => exact dims_transposed hq

/-- The dequantised weight of either layout. -/
theorem dequantWeight?_storedIn (outputMajor : Bool) (hq : q.dims = [k, n]) (s : Tensor) (hs : s.dims = [n]) :
    ∃ w, dequantWeight? (storedIn outputMajor q) s (linearAttrs n k outputMajor).weightLayout =
        some w ∧ w.dims = [k, n] ∧
      ∀ i < k, ∀ j < n, w.flat (i * n + j) = q.flat (i * n + j) * s.flat j := by
  have hlen : s.data.length = n := by simpa [hs] using s.size_eq
  cases outputMajor with
  | false =>
      obtain ⟨w, hw⟩ : ∃ w, dequantWeight? q s 0 = some w := by simp [dequantWeight?, hq, hlen]
      exact ⟨w, hw, flat_dequant_zero hw hq⟩
  | true =>
      have hd := dims_transposed hq
      obtain ⟨w, hw⟩ : ∃ w, dequantWeight? q.transposed s 1 = some w := by
        simp [dequantWeight?, hd, hlen]
      obtain ⟨hwd, hflat⟩ := flat_dequant_one hw hd
      exact ⟨w, hw, hwd, fun i hi j hj => by rw [hflat i hi j hj, flat_transposed hq hj hi]⟩

/-- Products with matrices that are close are close. -/
theorem abs_matmul_sub_le {v t u : Tensor} {step : ℚ} (hv : v.dims = [k, n]) (hw : w.dims = [k, n])
    (ht : matmul? a v = some t) (hu : matmul? a w = some u) (hrow : row < a.dims.dropLast.prod)
    (hj : j < n) (hclose : ∀ i < k, |v.flat (i * n + j) - w.flat (i * n + j)| ≤ step) :
    |t.flat (row * n + j) - u.flat (row * n + j)| ≤ rowNorm a k row * step := by
  have hindex : row * n + j < (a.dims.dropLast ++ [n]).prod := by
    rw [List.prod_append]
    simpa using index_lt hrow hj
  have hplace : (row * n + j) / n = row ∧ (row * n + j) % n = j := by
    rw [Nat.mul_comm, Nat.mul_add_div (by omega), Nat.div_eq_of_lt hj, Nat.add_zero,
      Nat.mul_add_mod, Nat.mod_eq_of_lt hj]
    exact ⟨rfl, rfl⟩
  have hsum {m p : Tensor} (hm : m.dims = [k, n]) (hp : matmul? a m = some p) :
      p.flat (row * n + j) =
        ∑ kk ∈ Finset.range k, a.flat (row * k + kk) * m.flat (kk * n + j) := by
    rw [matmul?_eq hm] at hp
    split at hp
    · rw [← Option.some.inj hp, flat_ofFn hindex, hplace.1, hplace.2]
    · cases hp
  rw [hsum hv ht, hsum hw hu, ← Finset.sum_sub_distrib, rowNorm, Finset.sum_mul]
  refine (Finset.abs_sum_le_sum_abs _ _).trans (Finset.sum_le_sum fun kk hkk => ?_)
  rw [← mul_sub, abs_mul]
  exact mul_le_mul_of_nonneg_left (hclose kk (Finset.mem_range.mp hkk)) (abs_nonneg _)

end Operands

/-- The quantised entry of a column half precision keeps is at most a step off. -/
theorem entry_close {weight : Tensor} {k n i j : Nat} {r : Tensor × List FloatDatum}
    (hj : j < n) (hkept : 0 < columnMax weight k n j →
      ScaleKept (columnMax weight k n j / 127))
    (hle : |weight.flat (i * n + j)| ≤ columnMax weight k n j)
    (hcode : r.1.flat (i * n + j) =
      toInt8 (weight.flat (i * n + j) / outputScale (columnMax weight k n j)))
    (hread : recovered? n r i j = dequantise? (r.1.flat (i * n + j))
      (storedScale (outputScale (columnMax weight k n j)))) :
    |r.1.flat (i * n + j) * (scaleTensor n r.2).flat j - weight.flat (i * n + j)| ≤
      columnMax weight k n j / 127 := by
  rw [hcode] at hread
  have hnonneg : 0 ≤ columnMax weight k n j := (abs_nonneg _).trans hle
  rcases hnonneg.eq_or_lt with hzero | hpos
  · rw [(codes_outputScale hnonneg hle).2 hzero.symm] at hread
    rw [recovered?_eq hj hread, zero_sub, abs_neg]
    rw [← hzero] at hle ⊢
    simpa using hle
  · obtain ⟨x, hx, hlt⟩ := (withinStep_outputScale_iff hpos).mpr (hkept hpos) _ hle
    rw [hx] at hread
    rw [recovered?_eq hj hread]
    exact hlt.le

end JetsonVoice.W8A16
