import JetsonVoice.KissFft.Butterflies
import JetsonVoice.KissFft.Factor
import Mathlib.Analysis.SpecialFunctions.Trigonometric.Basic
import Mathlib.RingTheory.RootsOfUnity.Complex

/-!
# The mixed-radix transform

`kf_work` transforms the decimated inputs of a stage one behind the other into the
buffer and combines them there. With the table and the radices that
`kiss_fft_alloc` writes it is the discrete Fourier transform.

## Implementation notes

The scalars are the elements of a field of characteristic zero: the rounding of
the machine's numbers is not modelled.
-/

namespace JetsonVoice.KissFft

open Foundation Finset

section Definitions
variable {R : Type*} [Field R]

/-- `kf_work`, from the cell `o` of the buffer and the element `fi` of the input. -/
def kfWork (st : State R) (f : Nat → Cpx R) (inStride : Nat) :
    List (Nat × Nat) → Buffer R → (o fi fstride : Nat) → Buffer R
  | [], F, _, _, _ => F
  | (p, m) :: factors, F, o, fi, fstride =>
      butterfly st fstride m p o <|
        if m = 1 then
          (List.range p).foldl (fun F k =>
            Function.update F (o + k) (f (fi + k * (fstride * inStride)))) F
        else
          (List.range p).foldl (fun F k =>
            kfWork st f inStride factors F (o + k * m) (fi + k * (fstride * inStride))
              (fstride * p)) F

/-- The angle of a twiddle. -/
def phase (pi : R) (nfft : Nat) (inverse : Bool) (i : Nat) : R :=
  let phase := -(2 : Nat) * pi * i / nfft
  if inverse then phase * -1 else phase

/-- `kiss_fft_alloc`, with the library's `kf_cexp` and its constant. -/
def kissFftAlloc (kfCexp : R → Cpx R) (pi : R) (nfft : Nat) (inverse : Bool) : State R where
  nfft := nfft
  inverse := inverse
  factors := kfFactor nfft
  twiddles := (List.range nfft).map fun i => kfCexp (phase pi nfft inverse i)

/-- `kiss_fft_stride` into another buffer. -/
def kissFftStride (st : State R) (fin : Nat → Cpx R) (fout : Buffer R) (inStride : Nat) :
    Buffer R :=
  kfWork st fin inStride st.factors fout 0 0 1

/-- `kiss_fft_stride` into the buffer of the input, by way of another one. -/
def kissFftInPlace (st : State R) (fout : Buffer R) (inStride : Nat) (tmpbuf : Buffer R) :
    Buffer R :=
  let tmpbuf := kfWork st fout inStride st.factors tmpbuf 0 0 1
  fun k => if k < st.nfft then tmpbuf k else fout k

/-- `kiss_fft`. -/
def kissFft (st : State R) (fin : Nat → Cpx R) (fout : Buffer R) : Buffer R :=
  kissFftStride st fin fout 1

end Definitions

section Work
variable {R : Type*} [Field R] [CharZero R] {st : State R} {ω : Cpx R} {fstride p m n : Nat}
  {factors : List (Nat × Nat)} {f : Nat → Cpx R} {inStride : Nat}

/-- What a stage does with its part of the buffer. -/
def Transforms (ω : Cpx R) (f : Nat → Cpx R) (inStride n fstride o fi : Nat) (F G : Buffer R) :
    Prop :=
  (∀ k < n, G (o + k) = dft (ω ^ fstride) n (fun j => f (fi + j * (fstride * inStride))) k) ∧
    ∀ i, (∀ k < n, i ≠ o + k) → G i = F i

/-- A buffer in which the transforms of the decimated inputs lie behind each other. -/
theorem transforms_butterfly (h : Stage st ω fstride p m) (hp : 0 < p) (f : Nat → Cpx R)
    (inStride o fi : Nat) {F G : Buffer R}
    (hblocks : ∀ q < p, ∀ r < m, G (o + (q * m + r)) = dft ((ω ^ fstride) ^ p) m
      (fun i => f (fi + (q + p * i) * (fstride * inStride))) r)
    (hrest : ∀ i, (∀ q < p, ∀ r < m, i ≠ o + (q * m + r)) → G i = F i) :
    Transforms ω f inStride (p * m) fstride o fi F (butterfly st fstride m p o G) := by
  have hm := h.pos
  have hroot : (ω ^ fstride) ^ (p * m) = 1 := by
    rw [← pow_mul, h.length, h.twiddled.pow_nfft]
  obtain ⟨hcolumns, hsame⟩ := butterfly_spec (o := o) h hp G
  constructor
  · intro k hk
    have hr := Nat.mod_lt k hm
    have hq : k / m < p := Nat.div_lt_of_lt_mul (by rwa [mul_comm m])
    have hcolumn := hcolumns (k % m) hr (k / m) hq
    rw [Nat.mod_add_div' k m] at hcolumn
    rw [hcolumn, dft_mul hroot]
    refine sum_congr rfl fun q hq => ?_
    rw [add_comm (k % m), hblocks q (mem_range.mp hq) _ hr]
  · intro i hi
    rw [hsame i fun u hu q hq => hi _ ?_, hrest i fun q hq r hr => hi _ ?_]
    · exact flat_lt hq hr
    · rw [add_comm]
      exact flat_lt hq hu

/-- `kf_work` leaves the transform of its inputs in its part of the buffer, whatever the buffer
held, and nothing else changes. -/
theorem kfWork_spec (h : Twiddled st ω) (hs : Stages n factors) (F : Buffer R) (o fi fstride : Nat)
    (hn : fstride * n = st.nfft) :
    Transforms ω f inStride n fstride o fi F (kfWork st f inStride factors F o fi fstride) := by
  induction hs generalizing F o fi fstride with
  | @last p hp =>
      have hfill := (ownCells_update (fun k => o + k)
        (fun k => f (fi + k * (fstride * inStride)))
        (n := p) fun _ _ _ _ heq => Nat.add_left_cancel heq).foldl F le_rfl
      rw [kfWork, if_pos rfl]
      have hstage : Stage st ω fstride p 1 := ⟨h, by rw [mul_one, hn]⟩
      have := transforms_butterfly (F := F) hstage hp f inStride o fi
        (fun q hq r hr => ?_) fun i hi => hfill.2 i fun q hq _ _ => ?_
      · rwa [mul_one] at this
      · obtain rfl : r = 0 := by omega
        rw [mul_one, add_zero, hfill.1 q hq 0 one_pos]
        simp [dft]
      · have := hi q hq 0 one_pos
        rwa [mul_one, add_zero] at this
  | @step p m rest hp hm hs ih =>
      have hsub : fstride * p * m = st.nfft := by rw [mul_assoc, hn]
      have hloop : OwnCells p m (fun q r => o + (q * m + r))
          (fun F k => kfWork st f inStride rest F (o + k * m) (fi + k * (fstride * inStride))
            (fstride * p))
          fun _ q r => dft ((ω ^ fstride) ^ p) m
            (fun i => f (fi + (q + p * i) * (fstride * inStride))) r := by
        constructor
        · intro k _ k' _ r hr r' hr' heq
          have hdiv := congrArg (· / m) (Nat.add_left_cancel heq)
          simpa only [flat_div k hr, flat_div k' hr'] using hdiv
        · intro F k _ r hr
          rw [← Nat.add_assoc, (ih F _ _ _ hsub).1 r hr, pow_mul]
          refine congrArg (fun x => dft _ m x r) (funext fun i => congrArg f ?_)
          ring
        · intro F k _ i hi
          refine (ih F _ _ _ hsub).2 i fun r hr => ?_
          rw [Nat.add_assoc]
          exact hi r hr
        · exact fun _ _ _ _ _ _ _ => rfl
      have hblocks := hloop.foldl F le_rfl
      rw [kfWork, if_neg (by omega)]
      exact transforms_butterfly ⟨h, hn⟩ hp f inStride o fi hblocks.1 hblocks.2

/-- `kiss_fft_stride` writes the transform of every stride-th input. -/
theorem kissFftStride_spec (h : Twiddled st ω) (hs : Stages st.nfft st.factors)
    (fin : Nat → Cpx R) (fout : Buffer R) (inStride : Nat) :
    (∀ k < st.nfft, kissFftStride st fin fout inStride k =
      dft ω st.nfft (fun j => fin (j * inStride)) k) ∧
    ∀ k, st.nfft ≤ k → kissFftStride st fin fout inStride k = fout k := by
  obtain ⟨hout, hrest⟩ : Transforms ω fin inStride st.nfft 1 0 0 fout _ :=
    kfWork_spec h hs fout 0 0 1 (one_mul _)
  constructor
  · intro k hk
    have := hout k hk
    simpa only [kissFftStride, zero_add, one_mul, pow_one] using this
  · intro k hk
    exact hrest k fun i hi => by omega

/-- In place, it writes the same. -/
theorem kissFftInPlace_eq (h : Twiddled st ω) (hs : Stages st.nfft st.factors) (fout tmpbuf : Buffer R)
    (inStride k : Nat) :
    kissFftInPlace st fout inStride tmpbuf k = kissFftStride st fout fout inStride k := by
  obtain ⟨hout, hrest⟩ := kissFftStride_spec h hs fout fout inStride
  obtain ⟨htmp, -⟩ := kissFftStride_spec h hs fout tmpbuf inStride
  simp only [kissFftInPlace]
  split
  · rw [hout k ‹_›, ← htmp k ‹_›, kissFftStride]
  · rw [hrest k (by omega)]

end Work

section Reals
open Real

/-- `kf_cexp`. -/
noncomputable def kfCexp (x : ℝ) : Cpx ℝ := ⟨cos x, sin x⟩

theorem toComplex_kfCexp (x : ℝ) : toComplex (kfCexp x) = Complex.exp (x * Complex.I) := by
  rw [Complex.exp_mul_I]
  apply Complex.ext
  · simp [kfCexp, Complex.cos_ofReal_re]
  · simp [kfCexp, Complex.sin_ofReal_re]

theorem kfCexp_pow (x : ℝ) (n : Nat) : kfCexp x ^ n = kfCexp (n * x) := by
  apply toComplex_injective
  rw [map_pow, toComplex_kfCexp, toComplex_kfCexp, ← Complex.exp_nat_mul]
  congr 1
  push_cast
  ring

/-- The plan of `kiss_fft_alloc` with the functions and the number it means. -/
noncomputable def plan (nfft : Nat) (inverse : Bool) : State ℝ :=
  kissFftAlloc kfCexp π nfft inverse

/-- The direction of a plan. -/
def sign (inverse : Bool) : ℝ := if inverse then 1 else -1

theorem phase_eq (nfft : Nat) (inverse : Bool) (i : Nat) :
    phase π nfft inverse i = sign inverse * (2 * π) * (i / nfft) := by
  cases inverse
  · simp [phase, sign]
    ring
  · simp [phase, sign]
    ring

variable {n : Nat} {inverse : Bool}

theorem kfCexp_phase_pow (n : Nat) (inverse : Bool) (k : Nat) :
    kfCexp (phase π n inverse 1) ^ k = kfCexp (phase π n inverse k) := by
  rw [kfCexp_pow, phase_eq, phase_eq]
  congr 1
  push_cast
  ring

/-- The angle of a root whose power is a part of the turn. -/
theorem phase_of_mul {k p : Nat} (hk : 0 < k) (h : n = k * p) :
    phase π n inverse k = sign inverse * (2 * π) / p := by
  have : (k : ℝ) ≠ 0 := by positivity
  rw [phase_eq, h]
  push_cast
  rw [div_mul_eq_div_div, div_self this]
  ring

theorem pos_of_mul {k p : Nat} (hn : 0 < n) (h : n = k * p) : 0 < k :=
  Nat.pos_of_mul_pos_right (h ▸ hn)

theorem cos_sign_mul (inverse : Bool) (x : ℝ) : cos (sign inverse * x) = cos x := by
  cases inverse <;> simp [sign]

theorem sin_sign_mul (inverse : Bool) (x : ℝ) : sin (sign inverse * x) = sign inverse * sin x := by
  cases inverse <;> simp [sign]

/-- The power of a root whose power is a part of the turn. -/
theorem kfCexp_pow_of_mul (inverse : Bool) {k p : Nat} (hn : 0 < n) (h : n = k * p) :
    kfCexp (phase π n inverse 1) ^ k =
      ⟨cos (2 * π / p), sign inverse * sin (2 * π / p)⟩ := by
  rw [kfCexp_phase_pow, phase_of_mul (pos_of_mul hn h) h, mul_div_assoc, kfCexp, cos_sign_mul,
    sin_sign_mul]

/-- The table of a plan. -/
theorem twiddled_plan (hn : 0 < n) (inverse : Bool) :
    Twiddled (plan n inverse) (kfCexp (phase π n inverse 1)) where
  pos := hn
  twiddle i hi := by
    rw [kfCexp_phase_pow, State.twiddle, plan, kissFftAlloc, List.getD_eq_getElem?_getD,
      List.getElem?_map, List.getElem?_range (show i < n from hi), Option.map_some,
      Option.getD_some]
  pow_nfft := by
    have := kfCexp_pow_of_mul inverse hn (mul_one n).symm
    simp only [Nat.cast_one, div_one, cos_two_pi, sin_two_pi, mul_zero] at this
    exact this
  unit := by
    rw [Cpx.Unit, kfCexp, ← sq, ← sq, cos_sq_add_sin_sq]
  half k hk := by
    rw [kfCexp_pow_of_mul inverse hn hk, Nat.cast_two, mul_div_cancel_left₀ π two_ne_zero, cos_pi, sin_pi,
      mul_zero]
    apply Cpx.ext <;> simp
  third k hk := by
    have hangle : 2 * π / (3 : Nat) = π - π / 3 := by
      push_cast
      ring
    rw [kfCexp_pow_of_mul inverse hn hk, hangle, cos_pi_sub, cos_pi_div_three]
    norm_num
  quarter k hk := by
    have hangle : 2 * π / (4 : Nat) = π / 2 := by
      push_cast
      ring
    rw [kfCexp_pow_of_mul inverse hn hk, hangle, cos_pi_div_two, sin_pi_div_two, mul_one]
    cases inverse <;> apply Cpx.ext <;> simp [sign, plan, kissFftAlloc]

/-- The root of the transform as a complex number. -/
theorem toComplex_root (n : Nat) (inverse : Bool) :
    toComplex (kfCexp (phase π n inverse 1)) =
      Complex.exp (sign inverse * (2 * π * Complex.I / n)) := by
  rw [toComplex_kfCexp, phase_eq]
  congr 1
  push_cast
  ring

theorem isPrimitiveRoot_root (hn : 0 < n) (inverse : Bool) :
    IsPrimitiveRoot (kfCexp (phase π n inverse 1)) n := by
  refine .of_map_of_injective (f := toComplex) ?_ toComplex_injective
  rw [toComplex_root]
  have hroot := Complex.isPrimitiveRoot_exp n hn.ne'
  cases inverse
  · have := hroot.inv
    rw [← Complex.exp_neg] at this
    simpa [sign] using this
  · simpa [sign] using hroot

theorem root_mul_root (n : Nat) (inverse : Bool) :
    kfCexp (phase π n (!inverse) 1) * kfCexp (phase π n inverse 1) = 1 := by
  apply toComplex_injective
  rw [map_mul, map_one, toComplex_root, toComplex_root, ← Complex.exp_add]
  cases inverse <;> simp [sign]

instance : IsDomain (Cpx ℝ) := toComplex_injective.isDomain toComplex

end Reals

end JetsonVoice.KissFft
