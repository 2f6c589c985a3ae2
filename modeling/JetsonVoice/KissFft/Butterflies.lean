import JetsonVoice.Foundation.Dft
import JetsonVoice.Foundation.Launch
import JetsonVoice.Foundation.OwnCells
import JetsonVoice.KissFft.Complex
import Mathlib.Algebra.CharZero.Defs
import Mathlib.Tactic.IntervalCases
import Mathlib.Tactic.LinearCombination

/-!
# The butterflies of a mixed-radix transform

A stage of radix `p` combines `p` transforms of length `m` that lie behind each
other in the buffer. Its loop goes through the columns of the values that are `m`
apart, and turns each column into its transform with the twiddles.
-/

namespace JetsonVoice.KissFft

open Foundation Finset Cpx

/-- `kiss_fft_state`. -/
structure State (R : Type*) where
  nfft : Nat
  inverse : Bool
  factors : List (Nat × Nat)
  twiddles : List (Cpx R)

section Definitions
variable {R : Type*}

/-- A buffer by its indices. -/
abbrev Buffer (R : Type*) := Nat → Cpx R

variable [Field R]

def State.twiddle (st : State R) (i : Nat) : Cpx R := st.twiddles.getD i 0

/-- `HALF_OF`. -/
def halfOf (x : R) : R := x * ((2 : Nat) : R)⁻¹

variable (st : State R) (fstride m : Nat)

/-- `kf_bfly2` at one pair. -/
def bfly2At (o : Nat) (F : Buffer R) (u : Nat) : Buffer R :=
  let Fout := o + u
  let Fout2 := Fout + m
  let t := cMul (F Fout2) (st.twiddle (u * fstride))
  let F := Function.update F Fout2 (cSub (F Fout) t)
  Function.update F Fout (cAdd (F Fout) t)

/-- `kf_bfly4` at one column. -/
def bfly4At (o : Nat) (F : Buffer R) (u : Nat) : Buffer R :=
  let Fout := o + u
  let m2 := 2 * m
  let m3 := 3 * m
  let scratch0 := cMul (F (Fout + m)) (st.twiddle (u * fstride))
  let scratch1 := cMul (F (Fout + m2)) (st.twiddle (u * (fstride * 2)))
  let scratch2 := cMul (F (Fout + m3)) (st.twiddle (u * (fstride * 3)))
  let scratch5 := cSub (F Fout) scratch1
  let F := Function.update F Fout (cAdd (F Fout) scratch1)
  let scratch3 := cAdd scratch0 scratch2
  let scratch4 := cSub scratch0 scratch2
  let F := Function.update F (Fout + m2) (cSub (F Fout) scratch3)
  let F := Function.update F Fout (cAdd (F Fout) scratch3)
  if st.inverse then
    let F := Function.update F (Fout + m)
      ⟨scratch5.r - scratch4.i, scratch5.i + scratch4.r⟩
    Function.update F (Fout + m3) ⟨scratch5.r + scratch4.i, scratch5.i - scratch4.r⟩
  else
    let F := Function.update F (Fout + m)
      ⟨scratch5.r + scratch4.i, scratch5.i - scratch4.r⟩
    Function.update F (Fout + m3) ⟨scratch5.r - scratch4.i, scratch5.i + scratch4.r⟩

/-- `kf_bfly3` at one column. -/
def bfly3At (o : Nat) (F : Buffer R) (u : Nat) : Buffer R :=
  let Fout := o + u
  let m2 := 2 * m
  let epi3 := st.twiddle (fstride * m)
  let scratch1 := cMul (F (Fout + m)) (st.twiddle (u * fstride))
  let scratch2 := cMul (F (Fout + m2)) (st.twiddle (u * (fstride * 2)))
  let scratch3 := cAdd scratch1 scratch2
  let scratch0 := cSub scratch1 scratch2
  let F := Function.update F (Fout + m)
    ⟨(F Fout).r - halfOf scratch3.r, (F Fout).i - halfOf scratch3.i⟩
  let scratch0 := cMulByScalar scratch0 epi3.i
  let F := Function.update F Fout (cAdd (F Fout) scratch3)
  let F := Function.update F (Fout + m2)
    ⟨(F (Fout + m)).r + scratch0.i, (F (Fout + m)).i - scratch0.r⟩
  Function.update F (Fout + m) ⟨(F (Fout + m)).r - scratch0.i, (F (Fout + m)).i + scratch0.r⟩

/-- `kf_bfly5` at one column. -/
def bfly5At (o : Nat) (F : Buffer R) (u : Nat) : Buffer R :=
  let ya := st.twiddle (fstride * m)
  let yb := st.twiddle (fstride * 2 * m)
  let Fout0 := o + u
  let Fout1 := Fout0 + m
  let Fout2 := Fout0 + 2 * m
  let Fout3 := Fout0 + 3 * m
  let Fout4 := Fout0 + 4 * m
  let scratch0 := F Fout0
  let scratch1 := cMul (F Fout1) (st.twiddle (u * fstride))
  let scratch2 := cMul (F Fout2) (st.twiddle (2 * u * fstride))
  let scratch3 := cMul (F Fout3) (st.twiddle (3 * u * fstride))
  let scratch4 := cMul (F Fout4) (st.twiddle (4 * u * fstride))
  let scratch7 := cAdd scratch1 scratch4
  let scratch10 := cSub scratch1 scratch4
  let scratch8 := cAdd scratch2 scratch3
  let scratch9 := cSub scratch2 scratch3
  let F := Function.update F Fout0
    ⟨(F Fout0).r + (scratch7.r + scratch8.r), (F Fout0).i + (scratch7.i + scratch8.i)⟩
  let scratch5 : Cpx R := ⟨scratch0.r + scratch7.r * ya.r + scratch8.r * yb.r,
    scratch0.i + scratch7.i * ya.r + scratch8.i * yb.r⟩
  let scratch6 : Cpx R := ⟨scratch10.i * ya.i + scratch9.i * yb.i,
    -(scratch10.r * ya.i) - scratch9.r * yb.i⟩
  let F := Function.update F Fout1 (cSub scratch5 scratch6)
  let F := Function.update F Fout4 (cAdd scratch5 scratch6)
  let scratch11 : Cpx R := ⟨scratch0.r + scratch7.r * yb.r + scratch8.r * ya.r,
    scratch0.i + scratch7.i * yb.r + scratch8.i * ya.r⟩
  let scratch12 : Cpx R := ⟨-(scratch10.i * yb.i) + scratch9.i * ya.i,
    scratch10.r * yb.i - scratch9.r * ya.i⟩
  let F := Function.update F Fout2 (cAdd scratch11 scratch12)
  Function.update F Fout3 (cSub scratch11 scratch12)

/-- The inner loop of `kf_bfly_generic`: the index of the twiddle and the sum in the buffer. -/
def genericAcc (scratch : Nat → Cpx R) (k : Nat) (q : Nat) (acc : Nat × Cpx R) : Nat × Cpx R :=
  let twidx := acc.1 + fstride * k
  let twidx := if st.nfft ≤ twidx then twidx - st.nfft else twidx
  (twidx, cAdd acc.2 (cMul (scratch q) (st.twiddle twidx)))

/-- `kf_bfly_generic` at one column. -/
def bflyGenericAt (p o : Nat) (F : Buffer R) (u : Nat) : Buffer R :=
  let scratch := fun q1 => F (o + (u + q1 * m))
  (List.range p).foldl (fun F q1 =>
    let k := u + q1 * m
    Function.update F (o + k)
      ((List.range' 1 (p - 1)).foldl (fun acc q => genericAcc st fstride scratch k q acc)
        (0, scratch 0)).2) F

/-- The switch over the radix. -/
def bflyAt (p o : Nat) : Buffer R → Nat → Buffer R :=
  match p with
  | 2 => bfly2At st fstride m o
  | 3 => bfly3At st fstride m o
  | 4 => bfly4At st fstride m o
  | 5 => bfly5At st fstride m o
  | p => bflyGenericAt st fstride m p o

/-- The loop over the columns. -/
def butterfly (p o : Nat) (F : Buffer R) : Buffer R :=
  (List.range m).foldl (bflyAt st fstride m p o) F

end Definitions

section Columns
variable {R : Type*} [CommRing R] {w : Cpx R} {p m o u q : Nat} {F G : Buffer R}
  {step : Buffer R → Nat → Buffer R}

/-- A step turns a column into its transform, and changes nothing else. -/
structure Combines (w : Cpx R) (p m o : Nat) (step : Buffer R → Nat → Buffer R) : Prop where
  column : ∀ F, ∀ u < m, ∀ q < p, step F u (o + (u + q * m)) =
    ∑ j ∈ range p, F (o + (u + j * m)) * w ^ (j * (u + q * m))
  rest : ∀ F, ∀ u < m, ∀ k, (∀ q < p, k ≠ o + (u + q * m)) → step F u k = F k

theorem column_inj {u' q' : Nat} (hu : u < m) (hu' : u' < m)
    (h : o + (u + q * m) = o + (u' + q' * m)) : u = u' := by
  have hmod := congrArg (· % m) (Nat.add_left_cancel h)
  simpa [Nat.add_mul_mod_self_right, Nat.mod_eq_of_lt hu, Nat.mod_eq_of_lt hu'] using hmod

theorem Combines.ownCells (h : Combines w p m o step) :
    OwnCells m p (fun u q => o + (u + q * m)) step fun F u q =>
      ∑ j ∈ range p, F (o + (u + j * m)) * w ^ (j * (u + q * m)) where
  apart _ hu _ hu' _ _ _ _ heq := column_inj hu hu' heq
  written := h.column
  rest := h.rest
  own _ _ _ _ heq _ _ := sum_congr rfl fun j hj => by rw [heq j (mem_range.mp hj)]

/-- A column is transformed at the power of the root over its length. -/
theorem sum_column (w : Cpx R) (x : Nat → Cpx R) (p u q m : Nat) :
    ∑ j ∈ range p, x j * w ^ (j * (u + q * m)) =
      dft (w ^ m) p (fun j => x j * w ^ (u * j)) q := by
  refine sum_congr rfl fun j _ => ?_
  rw [mul_assoc, ← pow_mul, ← pow_add]
  congr 2
  ring

end Columns

section Radices
variable {R : Type*} [Field R] {st : State R} {ω : Cpx R} {fstride m p o : Nat}

/-- The table of a state holds the powers of a root of unity that turns in its direction. -/
structure Twiddled (st : State R) (ω : Cpx R) : Prop where
  pos : 0 < st.nfft
  twiddle : ∀ i < st.nfft, st.twiddle i = ω ^ i
  pow_nfft : ω ^ st.nfft = 1
  unit : ω.Unit
  half : ∀ k, st.nfft = k * 2 → ω ^ k = -1
  third : ∀ k, st.nfft = k * 3 → 2 * (ω ^ k).r = -1
  quarter : ∀ k, st.nfft = k * 4 → ω ^ k = if st.inverse then Cpx.I else -Cpx.I

/-- A stage of the transform: its length and its stride make up the whole length. -/
structure Stage (st : State R) (ω : Cpx R) (fstride p m : Nat) : Prop where
  twiddled : Twiddled st ω
  length : fstride * (p * m) = st.nfft

theorem Stage.pos (h : Stage st ω fstride p m) : 0 < m := by
  have := h.twiddled.pos
  rw [← h.length] at this
  exact Nat.pos_of_mul_pos_left (Nat.pos_of_mul_pos_left this)

theorem Stage.twiddle_eq (h : Stage st ω fstride p m) {i j : Nat} (hj : j < p * m)
    (hi : i = fstride * j) : st.twiddle i = (ω ^ fstride) ^ j := by
  have hpos := h.twiddled.pos
  rw [← h.length] at hpos
  rw [hi, h.twiddled.twiddle, pow_mul]
  rw [← h.length]
  exact Nat.mul_lt_mul_of_pos_left hj (Nat.pos_of_mul_pos_right hpos)

theorem Stage.pow (h : Stage st ω fstride p m) : ((ω ^ fstride) ^ m) ^ p = 1 := by
  rw [← pow_mul, ← pow_mul, mul_comm m, h.length, h.twiddled.pow_nfft]

/-- The loop of radix two. -/
theorem combines_bfly2 (h : Stage st ω fstride 2 m) :
    Combines (ω ^ fstride) 2 m o (bfly2At st fstride m o) where
  column F u hu q hq := by
    have hm := h.pos
    have hroot : (ω ^ fstride) ^ m = -1 := by
      rw [← pow_mul]
      exact h.twiddled.half _ (by rw [← h.length]; ring)
    rw [sum_column, hroot, bfly2At, h.twiddle_eq (j := u) (by omega) (mul_comm _ _)]
    simp only [dft, sum_range_succ, range_zero, sum_empty, zero_mul, zero_add, add_zero, mul_zero,
      pow_zero, mul_one, one_mul, Nat.add_assoc, cMul_eq, cAdd_eq, cSub_eq]
    interval_cases q
    · simp (disch := omega) only [zero_mul, add_zero, Function.update_self, Function.update_of_ne]
      ring
    · simp (disch := omega) only [one_mul, Function.update_self, Function.update_of_ne]
      ring
  rest F u hu k hk := by
    have h0 := hk 0 (by omega)
    have h1 := hk 1 (by omega)
    rw [bfly2At]
    simp (disch := omega) only [Function.update_of_ne]

/-- The loop of radix four. -/
theorem combines_bfly4 (h : Stage st ω fstride 4 m) :
    Combines (ω ^ fstride) 4 m o (bfly4At st fstride m o) where
  column F u hu q hq := by
    have hm := h.pos
    have hroot : (ω ^ fstride) ^ m = if st.inverse then Cpx.I else -Cpx.I := by
      rw [← pow_mul]
      exact h.twiddled.quarter _ (by rw [← h.length]; ring)
    rw [sum_column, hroot, bfly4At, h.twiddle_eq (j := u) (by omega) (mul_comm _ _),
      h.twiddle_eq (j := u * 2) (by omega) (by ring),
      h.twiddle_eq (j := u * 3) (by omega) (by ring)]
    simp only [dft, sum_range_succ, range_zero, sum_empty, zero_mul, zero_add, add_zero, mul_zero,
      pow_zero, mul_one, one_mul, Nat.add_assoc, cMul_eq, cAdd_eq, cSub_eq]
    generalize F (o + (u + m)) * (ω ^ fstride) ^ u = t1
    generalize F (o + (u + 2 * m)) * (ω ^ fstride) ^ (u * 2) = t2
    generalize F (o + (u + 3 * m)) * (ω ^ fstride) ^ (u * 3) = t3
    -- the direction decides between the imaginary unit and its conjugate
    cases st.inverse <;> interval_cases q <;>
      simp (disch := omega) only [zero_mul, one_mul, add_zero, Function.update_self,
        Function.update_of_ne, reduceIte, Bool.false_eq_true] <;>
      apply Cpx.ext <;> simp [pow_succ] <;> ring
  rest F u hu k hk := by
    have h0 := hk 0 (by omega)
    have h1 := hk 1 (by omega)
    have h2 := hk 2 (by omega)
    have h3 := hk 3 (by omega)
    rw [bfly4At]
    cases st.inverse <;>
      simp (disch := omega) only [Function.update_of_ne, reduceIte, Bool.false_eq_true]

section Halves
variable [CharZero R]

/-- The loop of radix three. -/
theorem combines_bfly3 (h : Stage st ω fstride 3 m) :
    Combines (ω ^ fstride) 3 m o (bfly3At st fstride m o) where
  column F u hu q hq := by
    have hm := h.pos
    have hthird : 2 * ((ω ^ fstride) ^ m).r = -1 := by
      rw [← pow_mul]
      exact h.twiddled.third _ (by rw [← h.length]; ring)
    have hunit : ((ω ^ fstride) ^ m).Unit := (h.twiddled.unit.pow _).pow _
    have hthree := h.pow
    rw [sum_column, bfly3At, h.twiddle_eq (j := u) (by omega) (mul_comm _ _),
      h.twiddle_eq (j := u * 2) (by omega) (by ring), h.twiddle_eq (j := m) (by omega) rfl]
    simp only [dft, sum_range_succ, range_zero, sum_empty, zero_mul, zero_add, add_zero, mul_zero,
      pow_zero, mul_one, one_mul, Nat.add_assoc, cMul_eq, cAdd_eq, cSub_eq]
    generalize F (o + (u + m)) * (ω ^ fstride) ^ u = t1
    generalize F (o + (u + 2 * m)) * (ω ^ fstride) ^ (u * 2) = t2
    generalize (ω ^ fstride) ^ m = e at *
    have hreal : e.r = -2⁻¹ := by linear_combination (2⁻¹ : R) * hthird
    have hsquare : e ^ 2 = conj e := (hunit.conj_eq (by rw [← hthree]; ring)).symm
    have hfourth : e ^ (2 * 2) = e := by linear_combination e * hthree
    interval_cases q
    · simp (disch := omega) only [zero_mul, add_zero, Function.update_self, Function.update_of_ne]
      ring
    · simp (disch := omega) only [one_mul, mul_one, pow_one, Function.update_self,
        Function.update_of_ne, hsquare]
      apply Cpx.ext <;> simp [halfOf, hreal, cMulByScalar] <;> ring
    · simp (disch := omega) only [Function.update_self, Function.update_of_ne, hfourth, hsquare]
      apply Cpx.ext <;> simp [halfOf, hreal, cMulByScalar] <;> ring
  rest F u hu k hk := by
    have h0 := hk 0 (by omega)
    have h1 := hk 1 (by omega)
    have h2 := hk 2 (by omega)
    rw [bfly3At]
    simp (disch := omega) only [Function.update_of_ne]

end Halves

/-- The loop of radix five. -/
theorem combines_bfly5 (h : Stage st ω fstride 5 m) :
    Combines (ω ^ fstride) 5 m o (bfly5At st fstride m o) where
  column F u hu q hq := by
    have hm := h.pos
    have hunit : ((ω ^ fstride) ^ m).Unit := (h.twiddled.unit.pow _).pow _
    have hfive := h.pow
    rw [sum_column, bfly5At, h.twiddle_eq (i := fstride * m) (by omega) rfl,
      h.twiddle_eq (i := fstride * 2 * m) (j := m * 2) (by omega) (by ring),
      h.twiddle_eq (i := u * fstride) (j := u) (by omega) (by ring),
      h.twiddle_eq (i := 2 * u * fstride) (j := u * 2) (by omega) (by ring),
      h.twiddle_eq (i := 3 * u * fstride) (j := u * 3) (by omega) (by ring),
      h.twiddle_eq (i := 4 * u * fstride) (j := u * 4) (by omega) (by ring), pow_mul _ m 2]
    simp only [dft, sum_range_succ, range_zero, sum_empty, zero_mul, zero_add, add_zero, mul_zero,
      pow_zero, mul_one, one_mul, Nat.add_assoc, cMul_eq, cAdd_eq, cSub_eq]
    generalize F (o + (u + m)) * (ω ^ fstride) ^ u = t1
    generalize F (o + (u + 2 * m)) * (ω ^ fstride) ^ (u * 2) = t2
    generalize F (o + (u + 3 * m)) * (ω ^ fstride) ^ (u * 3) = t3
    generalize F (o + (u + 4 * m)) * (ω ^ fstride) ^ (u * 4) = t4
    generalize (ω ^ fstride) ^ m = e at *
    -- the upper powers are the conjugates of the lower ones
    have hconj : conj e = e ^ 4 := hunit.conj_eq (by rw [← hfive]; ring)
    have hconj2 : conj (e ^ 2) = e ^ 3 := (hunit.pow 2).conj_eq (by rw [← hfive]; ring)
    have h6 : e ^ 6 = e := (pow_eq_pow_mod 6 hfive).trans (pow_one e)
    have h8 : e ^ 8 = e ^ 3 := pow_eq_pow_mod 8 hfive
    have h9 : e ^ 9 = e ^ 4 := pow_eq_pow_mod 9 hfive
    have h12 : e ^ 12 = e ^ 2 := pow_eq_pow_mod 12 hfive
    have h16 : e ^ 16 = e := (pow_eq_pow_mod 16 hfive).trans (pow_one e)
    generalize hb : e ^ 2 = b at *
    interval_cases q
    · simp (disch := omega) only [zero_mul, add_zero, Function.update_self, Function.update_of_ne]
      apply Cpx.ext <;> simp <;> ring
    all_goals
      simp (disch := omega) only [one_mul, pow_one, Nat.reduceMul, Function.update_self,
        Function.update_of_ne, hb, h6, h8, h9, h12, h16, ← hconj, ← hconj2]
      apply Cpx.ext <;> simp <;> ring
  rest F u hu k hk := by
    have h0 := hk 0 (by omega)
    have h1 := hk 1 (by omega)
    have h2 := hk 2 (by omega)
    have h3 := hk 3 (by omega)
    have h4 := hk 4 (by omega)
    rw [bfly5At]
    simp (disch := omega) only [Function.update_of_ne]

theorem sub_of_le_eq_mod {t d n : Nat} (ht : t < n) (hd : d < n) :
    (if n ≤ t + d then t + d - n else t + d) = (t + d) % n := by
  split
  · rw [Nat.mod_eq_sub_mod ‹_›, Nat.mod_eq_of_lt (by omega)]
  · rw [Nat.mod_eq_of_lt (by omega)]

/-- The sum of the generic loop, and where it stands in the table. -/
theorem foldl_genericAcc (h : Stage st ω fstride p m) (scratch : Nat → Cpx R) {k : Nat}
    (hk : k < p * m) (n : Nat) :
    (List.range' 1 n).foldl (fun acc q => genericAcc st fstride scratch k q acc) (0, scratch 0) =
      (fstride * k * n % st.nfft,
        ∑ j ∈ range (n + 1), scratch j * (ω ^ fstride) ^ (j * k)) := by
  have hpos := h.twiddled.pos
  have hlt : fstride * k < st.nfft := by
    rw [← h.length]
    refine Nat.mul_lt_mul_of_pos_left hk (Nat.pos_of_ne_zero ?_)
    rintro rfl
    rw [← h.length, zero_mul] at hpos
    exact hpos.false
  induction n with
  | zero => simp
  | succ n ih =>
      have hidx := sub_of_le_eq_mod (Nat.mod_lt (fstride * k * n) hpos) hlt
      rw [Nat.mod_add_mod, ← Nat.mul_add_one] at hidx
      rw [List.range'_concat, List.foldl_append, ih, List.foldl_cons, List.foldl_nil, genericAcc]
      simp only [hidx, one_mul]
      rw [h.twiddled.twiddle _ (Nat.mod_lt _ hpos), ← pow_eq_pow_mod _ h.twiddled.pow_nfft,
        sum_range_succ _ (n + 1), cAdd_eq, cMul_eq, ← pow_mul, Nat.add_comm 1 n]
      congr 3
      ring

/-- The loop of any other radix. -/
theorem combines_bflyGeneric (h : Stage st ω fstride p m) (hp : 0 < p) :
    Combines (ω ^ fstride) p m o (bflyGenericAt st fstride m p o) := by
  have hm := h.pos
  have hcells (u : Nat) (val : Nat → Cpx R) :=
    ownCells_update (n := p) (fun q => o + (u + q * m)) val fun q _ q' _ heq =>
      Nat.eq_of_mul_eq_mul_right hm (Nat.add_left_cancel (Nat.add_left_cancel heq))
  constructor
  · intro F u hu q hq
    have hcell : u + q * m < p * m := by
      rw [add_comm]
      exact flat_lt hq hu
    rw [bflyGenericAt, ((hcells u _).foldl F le_rfl).1 q hq 0 one_pos,
      foldl_genericAcc h _ hcell, Nat.sub_add_cancel hp]
  · intro F u hu k hk
    exact ((hcells u _).foldl F le_rfl).2 k fun q hq _ _ => hk q hq

theorem combines_bflyAt [CharZero R] (h : Stage st ω fstride p m) (hp : 0 < p) :
    Combines (ω ^ fstride) p m o (bflyAt st fstride m p o) := by
  unfold bflyAt
  split
  · exact combines_bfly2 h
  · exact combines_bfly3 h
  · exact combines_bfly4 h
  · exact combines_bfly5 h
  · exact combines_bflyGeneric h hp

/-- A stage turns the transforms in the buffer into the transforms of its columns. -/
theorem butterfly_spec [CharZero R] (h : Stage st ω fstride p m) (hp : 0 < p) (F : Buffer R) :
    (∀ u < m, ∀ q < p, butterfly st fstride m p o F (o + (u + q * m)) =
      ∑ j ∈ range p, F (o + (u + j * m)) * (ω ^ fstride) ^ (j * (u + q * m))) ∧
    ∀ i, (∀ u < m, ∀ q < p, i ≠ o + (u + q * m)) → butterfly st fstride m p o F i = F i :=
  (combines_bflyAt h hp).ownCells.foldl F le_rfl

end Radices

end JetsonVoice.KissFft
