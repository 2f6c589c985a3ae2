import JetsonVoice.KissFft.Transform

/-!
# The transform of real signals

`kiss_fftr` transforms a real signal of even length by a complex transform of half
the length, over pairs of neighbours, and takes the two interleaved transforms
apart. `kiss_fftri` puts them together again.
-/

namespace JetsonVoice.KissFft

open Foundation Finset Cpx

section Definitions
variable {R : Type*} [Field R]

/-- `kiss_fftr_state`, without its buffer. -/
structure RealState (R : Type*) where
  substate : State R
  superTwiddles : List (Cpx R)

def RealState.superTwiddle (st : RealState R) (i : Nat) : Cpx R := st.superTwiddles.getD i 0

/-- The angle of a super twiddle. -/
def superPhase (pi : R) (ncfft : Nat) (inverse : Bool) (i : Nat) : R :=
  let phase := -pi * ((i + 1 : Nat) / ncfft + ((2 : Nat) : R)⁻¹)
  if inverse then phase * -1 else phase

/-- `kiss_fftr_alloc`; an odd length is an error. -/
def kissFftrAlloc (kfCexp : R → Cpx R) (pi : R) (nfft : Nat) (inverse : Bool) :
    Option (RealState R) :=
  if nfft % 2 = 1 then none
  else some {
    substate := kissFftAlloc kfCexp pi (nfft / 2) inverse
    superTwiddles := (List.range (nfft / 2 / 2)).map fun i =>
      kfCexp (superPhase pi (nfft / 2) inverse i) }

/-- A vector of scalars as one of complex numbers. -/
def pairs (x : Nat → R) (k : Nat) : Cpx R := ⟨x (2 * k), x (2 * k + 1)⟩

/-- A vector of complex numbers as one of scalars. -/
def unpairs (F : Nat → Cpx R) (j : Nat) : R := if j % 2 = 0 then (F (j / 2)).r else (F (j / 2)).i

/-- The body of the loop of `kiss_fftr`. -/
def fftrAt (st : RealState R) (tmpbuf : Buffer R) (freqdata : Buffer R) (k : Nat) : Buffer R :=
  let ncfft := st.substate.nfft
  let fpk := tmpbuf k
  let fpnk : Cpx R := ⟨(tmpbuf (ncfft - k)).r, -(tmpbuf (ncfft - k)).i⟩
  let f1k := cAdd fpk fpnk
  let f2k := cSub fpk fpnk
  let tw := cMul f2k (st.superTwiddle (k - 1))
  let freqdata := Function.update freqdata k ⟨halfOf (f1k.r + tw.r), halfOf (f1k.i + tw.i)⟩
  Function.update freqdata (ncfft - k) ⟨halfOf (f1k.r - tw.r), halfOf (tw.i - f1k.i)⟩

/-- `kiss_fftr`; it leaves the buffer alone if the plan is one of the other direction. -/
def kissFftr (st : RealState R) (tmpbuf : Buffer R) (timedata : Nat → R) (freqdata : Buffer R) :
    Buffer R :=
  if st.substate.inverse then freqdata
  else
    let ncfft := st.substate.nfft
    let tmpbuf := kissFft st.substate (pairs timedata) tmpbuf
    let tdc := tmpbuf 0
    let freqdata := Function.update freqdata 0 ⟨tdc.r + tdc.i, 0⟩
    let freqdata := Function.update freqdata ncfft ⟨tdc.r - tdc.i, 0⟩
    (List.range' 1 (ncfft / 2)).foldl (fftrAt st tmpbuf) freqdata

/-- The body of the loop of `kiss_fftri`. -/
def fftriAt (st : RealState R) (freqdata : Buffer R) (tmpbuf : Buffer R) (k : Nat) : Buffer R :=
  let ncfft := st.substate.nfft
  let fk := freqdata k
  let fnkc : Cpx R := ⟨(freqdata (ncfft - k)).r, -(freqdata (ncfft - k)).i⟩
  let fek := cAdd fk fnkc
  let tmp := cSub fk fnkc
  let fok := cMul tmp (st.superTwiddle (k - 1))
  let tmpbuf := Function.update tmpbuf k (cAdd fek fok)
  let tmpbuf := Function.update tmpbuf (ncfft - k) (cSub fek fok)
  Function.update tmpbuf (ncfft - k) ⟨(tmpbuf (ncfft - k)).r, (tmpbuf (ncfft - k)).i * -1⟩

/-- `kiss_fftri`. -/
def kissFftri (st : RealState R) (tmpbuf : Buffer R) (freqdata : Buffer R) (timedata : Nat → R) :
    Nat → R :=
  if st.substate.inverse then
    let ncfft := st.substate.nfft
    let tmpbuf := Function.update tmpbuf 0
      ⟨(freqdata 0).r + (freqdata ncfft).r, (freqdata 0).r - (freqdata ncfft).r⟩
    let tmpbuf := (List.range' 1 (ncfft / 2)).foldl (fftriAt st freqdata) tmpbuf
    unpairs (kissFft st.substate tmpbuf (pairs timedata))
  else timedata

end Definitions

section Loop
variable {α : Type*} {N : Nat} {X : Nat → α}

/-- A loop over the pairs of places that mirror each other fills all places between the ends. -/
theorem foldl_mirrored (step : (Nat → α) → Nat → Nat → α)
    (hat : ∀ F, ∀ k, 0 < k → k ≤ N / 2 → step F k k = X k ∧ step F k (N - k) = X (N - k))
    (hrest : ∀ F k i, i ≠ k → i ≠ N - k → step F k i = F i) (F : Nat → α) :
    (∀ k, 0 < k → k < N → (List.range' 1 (N / 2)).foldl step F k = X k) ∧
      ∀ i, i = 0 ∨ N ≤ i → (List.range' 1 (N / 2)).foldl step F i = F i := by
  have hcells : OwnCells (N / 2) 2 (fun k r => if r = 0 then 1 + k else N - (1 + k))
      (fun F k => step F (1 + k))
      fun _ k r => X (if r = 0 then 1 + k else N - (1 + k)) := by
    constructor
    · intro k hk k' hk' r _ r' _ heq
      split at heq <;> split at heq <;> omega
    · intro F k hk r _
      obtain ⟨h1, h2⟩ := hat F (1 + k) (by omega) (by omega)
      split
      · exact h1
      · exact h2
    · intro F k _ i hi
      exact hrest F _ i (hi 0 (by omega)) (hi 1 (by omega))
    · exact fun _ _ _ _ _ _ _ => rfl
  have hloop := hcells.foldl F le_rfl
  have heq : (List.range' 1 (N / 2)).foldl step F =
      (List.range (N / 2)).foldl (fun F k => step F (1 + k)) F := by
    rw [List.range'_eq_map_range, List.foldl_map]
  rw [heq]
  constructor
  · intro k hk hN
    by_cases hhalf : k ≤ N / 2
    · have := hloop.1 (k - 1) (by omega) 0 (by omega)
      simpa only [if_pos, Nat.add_sub_cancel' hk] using this
    · have := hloop.1 (N - k - 1) (by omega) 1 (by omega)
      simp only [Nat.one_ne_zero, if_false, show 1 + (N - k - 1) = N - k by omega,
        show N - (N - k) = k by omega] at this
      exact this
  · intro i hi
    refine hloop.2 i fun j hj r _ => ?_
    split <;> omega

end Loop

section Halves
variable {R : Type*} [Field R] [CharZero R]

/-- The sum of two halves, and the conjugate of their difference. -/
theorem halfOf_parts (a b : Cpx R) :
    (⟨halfOf ((2 * a).r + (2 * b).r), halfOf ((2 * a).i + (2 * b).i)⟩ : Cpx R) = a + b ∧
      (⟨halfOf ((2 * a).r - (2 * b).r), halfOf ((2 * b).i - (2 * a).i)⟩ : Cpx R) =
        conj (a - b) := by
  have hdouble (a : Cpx R) : 2 * a = ⟨2 * a.r, 2 * a.i⟩ := by
    rw [two_mul]
    ext <;> simp only [add_r, add_i] <;> ring
  have hhalf (x : R) : halfOf (2 * x) = x := by
    rw [halfOf, Nat.cast_ofNat, mul_comm 2, mul_inv_cancel_right₀ two_ne_zero]
  constructor
  · rw [hdouble, hdouble]
    ext
    · simp only [← mul_add, hhalf, add_r]
    · simp only [← mul_add, hhalf, add_i]
  · rw [hdouble, hdouble]
    ext
    · simp only [← mul_sub, hhalf, conj_r, sub_r]
    · simp only [← mul_sub, hhalf, conj_i, sub_i, neg_sub]

end Halves

section Signals
variable {R : Type*} [Field R] {w θ : Cpx R} {N k : Nat} {x : Nat → R}

/-- The transform of the samples with even numbers. -/
def evens (w : Cpx R) (N : Nat) (x : Nat → R) (k : Nat) : Cpx R :=
  dft w N (fun i => ofReal (x (2 * i))) k

/-- The transform of the samples with odd numbers. -/
def odds (w : Cpx R) (N : Nat) (x : Nat → R) (k : Nat) : Cpx R :=
  dft w N (fun i => ofReal (x (2 * i + 1))) k

/-- The transform of a real signal. -/
def spectrum (θ : Cpx R) (N : Nat) (x : Nat → R) (k : Nat) : Cpx R :=
  dft θ (2 * N) (fun j => ofReal (x j)) k

/-- The pairs transform to both at once. -/
theorem dft_pairs (w : Cpx R) (N : Nat) (x : Nat → R) (k : Nat) :
    dft w N (pairs x) k = evens w N x k + I * odds w N x k := by
  have hpair (j : Nat) : pairs x j = ofReal (x (2 * j)) + I * ofReal (x (2 * j + 1)) := by
    ext <;> simp [pairs]
  simp only [evens, odds, dft, hpair, mul_sum, ← sum_add_distrib]
  exact sum_congr rfl fun j _ => by ring

/-- The upper half of the transform of a real signal mirrors the lower one. -/
theorem conj_dft_mirror (hw : w.Unit) (hN : w ^ N = 1) (x : Nat → R) (hk : k ≤ N) :
    conj (dft w N (fun i => ofReal (x i)) (N - k)) = dft w N (fun i => ofReal (x i)) k := by
  rw [dft, map_sum]
  refine sum_congr rfl fun j _ => ?_
  have hone : w ^ (j * (N - k)) * w ^ (j * k) = 1 := by
    rw [← pow_add, ← Nat.mul_add, Nat.sub_add_cancel hk, mul_comm, pow_mul, hN, one_pow]
  rw [map_mul, conj_ofReal, (hw.pow _).conj_eq hone]

/-- A root for signals of twice a length: it is on the circle, and half way round its power is
minus one. -/
structure HalfTurn (θ : Cpx R) (N : Nat) : Prop where
  unit : θ.Unit
  pow : θ ^ N = -1

theorem HalfTurn.pow_two (h : HalfTurn θ N) : (θ ^ 2) ^ N = 1 := by
  rw [← pow_mul, mul_comm, pow_mul, h.pow]
  ring

/-- The lower half of a spectrum by the transforms of the interleaved signals. -/
theorem HalfTurn.spectrum_eq (h : HalfTurn θ N) (hk : k < N) :
    spectrum θ N x k = evens (θ ^ 2) N x k + θ ^ k * odds (θ ^ 2) N x k := by
  have hroot : θ ^ (2 * N) = 1 := by rw [pow_mul, h.pow_two]
  rw [spectrum, dft_mul hroot, sum_range_succ, sum_range_succ, range_zero, sum_empty,
    Nat.mod_eq_of_lt hk]
  simp only [zero_add, zero_mul, pow_zero, mul_one, one_mul, evens, odds, add_comm 1]
  ring

/-- The place that mirrors another one. -/
theorem HalfTurn.spectrum_mirror (h : HalfTurn θ N) (h0 : 0 < k) (hk : k < N) :
    spectrum θ N x (N - k) = conj (evens (θ ^ 2) N x k - θ ^ k * odds (θ ^ 2) N x k) := by
  have hpow : conj (θ ^ (N - k)) = -θ ^ k := by
    refine (h.unit.pow _).conj_eq ?_
    rw [mul_neg, ← pow_add, Nat.sub_add_cancel hk.le, h.pow, neg_neg]
  have heven := conj_dft_mirror (h.unit.pow 2) h.pow_two (fun i => x (2 * i)) hk.le
  have hodd := conj_dft_mirror (h.unit.pow 2) h.pow_two (fun i => x (2 * i + 1)) hk.le
  rw [← conj_conj (spectrum θ N x (N - k)), h.spectrum_eq (by omega), map_add, map_mul, hpow,
    evens, odds, heven, hodd, evens, odds]
  congr 1
  ring

/-- The ends of the spectrum. -/
theorem HalfTurn.spectrum_ends (h : HalfTurn θ N) (hN : 0 < N) :
    spectrum θ N x 0 = evens (θ ^ 2) N x 0 + odds (θ ^ 2) N x 0 ∧
      spectrum θ N x N = evens (θ ^ 2) N x 0 - odds (θ ^ 2) N x 0 := by
  have hroot : θ ^ (2 * N) = 1 := by rw [pow_mul, h.pow_two]
  constructor
  · rw [h.spectrum_eq hN, pow_zero, one_mul]
  · rw [spectrum, dft_mul hroot, sum_range_succ, sum_range_succ, range_zero, sum_empty,
      Nat.mod_self, one_mul, h.pow]
    simp only [zero_add, zero_mul, pow_zero, mul_one, evens, odds, add_comm 1]
    ring

/-- The transforms of real values are real at zero. -/
theorem dft_ofReal_zero (w : Cpx R) (N : Nat) (x : Nat → R) :
    dft w N (fun i => ofReal (x i)) 0 = ofReal (∑ i ∈ range N, x i) := by
  rw [dft_zero]
  induction N with
  | zero => rfl
  | succ N ih =>
      rw [sum_range_succ, ih, sum_range_succ]
      ext <;> simp

/-- The pairs at a place and, conjugated, at its mirror place. -/
theorem HalfTurn.conj_pairs_mirror (h : HalfTurn θ N) (hk : k < N) :
    conj (dft (θ ^ 2) N (pairs x) (N - k)) =
      evens (θ ^ 2) N x k - I * odds (θ ^ 2) N x k := by
  have heven := conj_dft_mirror (h.unit.pow 2) h.pow_two (fun i => x (2 * i)) hk.le
  have hodd := conj_dft_mirror (h.unit.pow 2) h.pow_two (fun i => x (2 * i + 1)) hk.le
  have hI : conj (I : Cpx R) = -I := by ext <;> simp
  rw [dft_pairs, map_add, map_mul, hI, evens, odds, heven, hodd, evens, odds]
  ring

end Signals

section Bodies
variable {R : Type*} [Field R] [CharZero R] {st : RealState R} {θ θ' : Cpx R} {k : Nat}
  {x : Nat → R} {tmpbuf freqdata : Buffer R}

/-- One round of `kiss_fftr` writes the spectrum at a place and at its mirror place. -/
theorem fftrAt_spec (h : HalfTurn θ st.substate.nfft)
    (hsuper : st.superTwiddle (k - 1) = -I * θ ^ k)
    (htmp : ∀ j < st.substate.nfft, tmpbuf j = dft (θ ^ 2) st.substate.nfft (pairs x) j)
    (h0 : 0 < k) (hk : k ≤ st.substate.nfft / 2) (F : Buffer R) :
    fftrAt st tmpbuf F k k = spectrum θ st.substate.nfft x k ∧
      fftrAt st tmpbuf F k (st.substate.nfft - k) =
        spectrum θ st.substate.nfft x (st.substate.nfft - k) := by
  have hlt : k < st.substate.nfft := by omega
  have hmirror : (⟨(tmpbuf (st.substate.nfft - k)).r, -(tmpbuf (st.substate.nfft - k)).i⟩ : Cpx R) =
      evens (θ ^ 2) st.substate.nfft x k - I * odds (θ ^ 2) st.substate.nfft x k := by
    rw [← h.conj_pairs_mirror hlt, htmp _ (by omega)]
    rfl
  have hf1 : tmpbuf k + (evens (θ ^ 2) st.substate.nfft x k -
      I * odds (θ ^ 2) st.substate.nfft x k) = 2 * evens (θ ^ 2) st.substate.nfft x k := by
    rw [htmp k hlt, dft_pairs]
    ring
  have htw : (tmpbuf k - (evens (θ ^ 2) st.substate.nfft x k -
      I * odds (θ ^ 2) st.substate.nfft x k)) * (-I * θ ^ k) =
        2 * (θ ^ k * odds (θ ^ 2) st.substate.nfft x k) := by
    rw [htmp k hlt, dft_pairs]
    linear_combination (-2 * θ ^ k * odds (θ ^ 2) st.substate.nfft x k) * I_mul_I (R := R)
  obtain ⟨hlow, hhigh⟩ := halfOf_parts (evens (θ ^ 2) st.substate.nfft x k)
    (θ ^ k * odds (θ ^ 2) st.substate.nfft x k)
  rw [← h.spectrum_eq hlt] at hlow
  rw [← h.spectrum_mirror h0 hlt] at hhigh
  simp only [fftrAt, hmirror, hsuper, cAdd_eq, cSub_eq, cMul_eq, hf1, htw, hlow, hhigh]
  refine ⟨?_, Function.update_self ..⟩
  by_cases hmid : k = st.substate.nfft - k
  · rw [← hmid, Function.update_self]
  · rw [Function.update_of_ne hmid, Function.update_self]

omit [CharZero R] in
/-- One round of `kiss_fftri` gives back the pairs at both places, twice as large. -/
theorem fftriAt_spec (h : HalfTurn θ st.substate.nfft) (hinv : θ' * θ = 1)
    (hsuper : st.superTwiddle (k - 1) = I * θ' ^ k)
    (hfreq : ∀ j ≤ st.substate.nfft, freqdata j = spectrum θ st.substate.nfft x j)
    (h0 : 0 < k) (hk : k ≤ st.substate.nfft / 2) (F : Buffer R) :
    fftriAt st freqdata F k k = 2 * dft (θ ^ 2) st.substate.nfft (pairs x) k ∧
      fftriAt st freqdata F k (st.substate.nfft - k) =
        2 * dft (θ ^ 2) st.substate.nfft (pairs x) (st.substate.nfft - k) := by
  have hlt : k < st.substate.nfft := by omega
  have hpow : θ ^ k * θ' ^ k = 1 := by rw [← mul_pow, mul_comm, hinv, one_pow]
  have hmirror : (⟨(freqdata (st.substate.nfft - k)).r,
      -(freqdata (st.substate.nfft - k)).i⟩ : Cpx R) = evens (θ ^ 2) st.substate.nfft x k -
        θ ^ k * odds (θ ^ 2) st.substate.nfft x k := by
    rw [hfreq _ (by omega), h.spectrum_mirror h0 hlt]
    exact conj_conj _
  have hfek : freqdata k + (evens (θ ^ 2) st.substate.nfft x k -
      θ ^ k * odds (θ ^ 2) st.substate.nfft x k) = 2 * evens (θ ^ 2) st.substate.nfft x k := by
    rw [hfreq k hlt.le, h.spectrum_eq hlt]
    ring
  have hfok : (freqdata k - (evens (θ ^ 2) st.substate.nfft x k -
      θ ^ k * odds (θ ^ 2) st.substate.nfft x k)) * (I * θ' ^ k) =
        2 * (I * odds (θ ^ 2) st.substate.nfft x k) := by
    rw [hfreq k hlt.le, h.spectrum_eq hlt]
    linear_combination (2 * I * odds (θ ^ 2) st.substate.nfft x k) * hpow
  have hlow : 2 * evens (θ ^ 2) st.substate.nfft x k + 2 * (I * odds (θ ^ 2) st.substate.nfft x k) =
      2 * dft (θ ^ 2) st.substate.nfft (pairs x) k := by
    rw [dft_pairs]
    ring
  have hhigh : conj (2 * evens (θ ^ 2) st.substate.nfft x k -
      2 * (I * odds (θ ^ 2) st.substate.nfft x k)) =
        2 * dft (θ ^ 2) st.substate.nfft (pairs x) (st.substate.nfft - k) := by
    rw [← conj_conj (dft _ _ _ (st.substate.nfft - k)), h.conj_pairs_mirror hlt, ← mul_sub,
      map_mul, map_ofNat]
  have hlast (a : Cpx R) : (⟨a.r, a.i * -1⟩ : Cpx R) = conj a := by ext <;> simp
  simp only [fftriAt, hmirror, hsuper, cAdd_eq, cSub_eq, cMul_eq, hfek, hfok, Function.update_self,
    hlast, hlow, hhigh]
  refine ⟨?_, trivial⟩
  by_cases hmid : k = st.substate.nfft - k
  · rw [← hmid, Function.update_self]
  · rw [Function.update_of_ne hmid, Function.update_of_ne hmid, Function.update_self]

end Bodies

section Reals
open Real

variable {nfft : Nat} {inverse : Bool} {st : RealState ℝ} {x : Nat → ℝ}

/-- The root for a signal of twice a length. -/
noncomputable def root (N : Nat) (inverse : Bool) : Cpx ℝ := kfCexp (phase π (2 * N) inverse 1)

theorem root_pow_two {N : Nat} (hN : 0 < N) (inverse : Bool) :
    root N inverse ^ 2 = kfCexp (phase π N inverse 1) := by
  have : (N : ℝ) ≠ 0 := by positivity
  rw [root, kfCexp_pow, phase_eq, phase_eq]
  congr 1
  push_cast
  field_simp

theorem halfTurn_root {N : Nat} (hN : 0 < N) (inverse : Bool) : HalfTurn (root N inverse) N where
  unit := (twiddled_plan (show 0 < 2 * N by omega) inverse).unit
  pow := (twiddled_plan (show 0 < 2 * N by omega) inverse).half N (mul_comm 2 N)

/-- What `kiss_fftr_alloc` leaves for an even length. -/
theorem kissFftrAlloc_spec (h : kissFftrAlloc kfCexp π nfft inverse = some st) :
    nfft = 2 * (nfft / 2) ∧ st.substate = plan (nfft / 2) inverse ∧
      ∀ k, 0 < k → k ≤ nfft / 2 / 2 →
        st.superTwiddle (k - 1) = (if inverse then I else -I) * root (nfft / 2) inverse ^ k := by
  unfold kissFftrAlloc at h
  split at h
  · cases h
  · obtain rfl := Option.some.inj h
    refine ⟨by omega, rfl, fun k h0 hk => ?_⟩
    have hpos : ((nfft / 2 : Nat) : ℝ) ≠ 0 := by
      have : 0 < nfft / 2 := by omega
      positivity
    have hadd (a b : ℝ) : kfCexp (a + b) = kfCexp a * kfCexp b := by
      ext
      · simp [kfCexp, cos_add]
      · simp [kfCexp, sin_add]
        ring
    have hquarter : kfCexp (sign inverse * (π / 2)) = if inverse then I else -I := by
      cases inverse <;> ext <;> simp [kfCexp, sign]
    rw [RealState.superTwiddle, List.getD_eq_getElem?_getD, List.getElem?_map,
      List.getElem?_range (by omega), Option.map_some, Option.getD_some, root, kfCexp_pow,
      ← hquarter, ← hadd]
    congr 1
    rw [superPhase, Nat.sub_add_cancel h0, phase_eq]
    push_cast at hpos ⊢
    cases inverse
    · simp only [sign, Bool.false_eq_true, if_false]
      field_simp
      ring
    · simp only [sign, if_true]
      field_simp
      ring

/-- The body of the loop of `kiss_fftr` leaves other places alone. -/
theorem fftrAt_of_ne {tmpbuf F : Buffer ℝ} {k i : Nat} (h : i ≠ k) (h' : i ≠ st.substate.nfft - k) :
    fftrAt st tmpbuf F k i = F i := by
  rw [fftrAt, Function.update_of_ne h', Function.update_of_ne h]

theorem fftriAt_of_ne {freqdata F : Buffer ℝ} {k i : Nat} (h : i ≠ k)
    (h' : i ≠ st.substate.nfft - k) : fftriAt st freqdata F k i = F i := by
  rw [fftriAt, Function.update_of_ne h', Function.update_of_ne h', Function.update_of_ne h]

/-- `kiss_fftr` writes the lower half of the spectrum, with its middle. -/
theorem kissFftr_spec (hpos : 0 < nfft) (h : kissFftrAlloc kfCexp π nfft false = some st)
    (tmpbuf : Buffer ℝ) (x : Nat → ℝ) (freqdata : Buffer ℝ) :
    (∀ k ≤ nfft / 2, kissFftr st tmpbuf x freqdata k =
      spectrum (root (nfft / 2) false) (nfft / 2) x k) ∧
    ∀ k, nfft / 2 < k → kissFftr st tmpbuf x freqdata k = freqdata k := by
  obtain ⟨heven, hsub, hsuper⟩ := kissFftrAlloc_spec h
  set N := nfft / 2
  have hN : 0 < N := by omega
  have hnfft : st.substate.nfft = N := by rw [hsub]; rfl
  have hturn := halfTurn_root hN false
  have htmp : ∀ j < N, kissFft st.substate (pairs x) tmpbuf j =
      dft (root N false ^ 2) N (pairs x) j := by
    intro j hj
    rw [hsub, root_pow_two hN, kissFft,
      (kissFftStride_spec (twiddled_plan hN false) (stages_kfFactor hN) _ _ 1).1 j hj]
    simp only [mul_one]
    rfl
  obtain ⟨hends, hendsN⟩ := hturn.spectrum_ends (x := x) hN
  have hzero : kissFft st.substate (pairs x) tmpbuf 0 = evens (root N false ^ 2) N x 0 +
      I * odds (root N false ^ 2) N x 0 := by rw [htmp 0 hN, dft_pairs]
  rw [evens, odds, dft_ofReal_zero _ N fun i => x (2 * i),
    dft_ofReal_zero _ N fun i => x (2 * i + 1)] at hends hendsN hzero
  have hloop := foldl_mirrored (N := N) (X := spectrum (root N false) N x)
    (fftrAt st (kissFft st.substate (pairs x) tmpbuf))
    (fun F k h0 hk => by
      have := fftrAt_spec (by rwa [hnfft]) (hsuper k h0 hk) (by rwa [hnfft]) h0
        (by rwa [hnfft]) F
      rwa [hnfft] at this)
    (fun F k i hi hi' => fftrAt_of_ne hi (by rwa [hnfft]))
  have hdirection : st.substate.inverse = false := by rw [hsub]; rfl
  simp only [kissFftr, hdirection, hnfft, Bool.false_eq_true, if_false]
  obtain ⟨hmid, hrest⟩ := hloop (Function.update (Function.update freqdata 0
    ⟨(kissFft st.substate (pairs x) tmpbuf 0).r + (kissFft st.substate (pairs x) tmpbuf 0).i, 0⟩)
    N ⟨(kissFft st.substate (pairs x) tmpbuf 0).r - (kissFft st.substate (pairs x) tmpbuf 0).i, 0⟩)
  constructor
  · intro k hk
    rcases Nat.eq_zero_or_pos k with rfl | h0
    · rw [hrest 0 (.inl rfl), Function.update_of_ne hN.ne, Function.update_self, hends, hzero]
      ext <;> simp
    · rcases hk.eq_or_lt with heq | hlt
      · rw [heq, hrest N (.inr le_rfl), Function.update_self, hendsN, hzero]
        ext <;> simp
      · exact hmid k h0 hlt
  · intro k hk
    rw [hrest k (.inr hk.le), Function.update_of_ne hk.ne', Function.update_of_ne (by omega)]

/-- The spectrum in complex numbers. -/
theorem toComplex_spectrum (heven : nfft = 2 * (nfft / 2)) (x : Nat → ℝ) (k : Nat) :
    toComplex (spectrum (root (nfft / 2) false) (nfft / 2) x k) =
      ∑ j ∈ range nfft, (x j : ℂ) * Complex.exp (-(2 * π * Complex.I * (j * k) / nfft)) := by
  have hreal (j : Nat) : toComplex (ofReal (x j)) = x j := by
    apply Complex.ext <;> simp
  rw [spectrum, root, ← heven, dft, map_sum]
  refine sum_congr rfl fun j _ => ?_
  rw [map_mul, map_pow, hreal, toComplex_root, ← Complex.exp_nat_mul]
  congr 2
  simp only [sign]
  push_cast
  ring

/-- From the spectrum of a signal, `kiss_fftri` fills its buffer with the transform of the pairs,
twice as large. -/
theorem foldl_fftriAt {N : Nat} {F G : Buffer ℝ} (hN : 0 < N) (hsub : st.substate = plan N true)
    (hsuper : ∀ k, 0 < k → k ≤ N / 2 → st.superTwiddle (k - 1) = I * root N true ^ k)
    (hfreq : ∀ k ≤ N, F k = spectrum (root N false) N x k)
    (hG : G 0 = ⟨(F 0).r + (F N).r, (F 0).r - (F N).r⟩) :
    ∀ k < N, (List.range' 1 (N / 2)).foldl (fftriAt st F) G k =
      2 * dft (root N false ^ 2) N (pairs x) k := by
  have hnfft : st.substate.nfft = N := by rw [hsub]; rfl
  have hturn := halfTurn_root hN false
  obtain ⟨hmid, hrest⟩ := foldl_mirrored (N := N)
    (X := fun k => 2 * dft (root N false ^ 2) N (pairs x) k) (fftriAt st F)
    (fun G k h0 hk => by
      have := fftriAt_spec (by rwa [hnfft]) (root_mul_root (2 * N) false)
        (hsuper k h0 hk) (by rwa [hnfft]) h0 (by rwa [hnfft]) G
      rwa [hnfft] at this)
    (fun G k i hi hi' => fftriAt_of_ne hi (by rwa [hnfft])) G
  intro k hk
  rcases Nat.eq_zero_or_pos k with rfl | h0
  · obtain ⟨hends, hendsN⟩ := hturn.spectrum_ends (x := x) hN
    rw [hrest 0 (.inl rfl), hG, hfreq 0 hN.le, hfreq N le_rfl, hends, hendsN, dft_pairs, evens,
      odds, dft_ofReal_zero _ N fun i => x (2 * i), dft_ofReal_zero _ N fun i => x (2 * i + 1),
      two_mul]
    ext <;> simp
  · exact hmid k h0 hk

end Reals

end JetsonVoice.KissFft
