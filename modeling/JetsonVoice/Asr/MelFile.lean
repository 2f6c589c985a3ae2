import JetsonVoice.Foundation.BinaryFloat
import JetsonVoice.Foundation.Json
import Mathlib.Data.Nat.Bitwise
import Mathlib.Tactic.NormNum

/-!
# The mel file of PCM input

A mel spectrogram is written as one tensor of half-precision numbers, each made
from the bits of a single-precision one. The conversion rounds to nearest; on a
tie it rounds to even among the normal results and up among the subnormal ones.
-/

namespace JetsonVoice.Asr

open Foundation FloatFormat

/-- `f32_to_f16`, on the bits of the number. -/
def f32ToF16 (x : BitVec 32) : BitVec 16 :=
  let sign := (x >>> 16) &&& 0x8000#32
  let exp : Int := ((x >>> 23) &&& 0xFF#32).toNat - 127 + 15
  let mant := x &&& 0x7FFFFF#32
  if exp ≤ 0 then
    if exp < -10 then sign.setWidth 16
    else
      let m := (mant ||| 0x800000#32) >>> (1 - exp).toNat
      let rounded := (m + 0x1000#32) >>> 13
      (sign ||| rounded).setWidth 16
  else if 31 ≤ exp then
    if (x >>> 23) &&& 0xFF#32 = 0xFF#32 ∧ mant ≠ 0#32 then (sign ||| 0x7E00#32).setWidth 16
    else (sign ||| 0x7C00#32).setWidth 16
  else
    let m := mant >>> 13
    let r := mant &&& 0x1FFF#32
    let out := (sign ||| BitVec.ofInt 32 exp <<< 10 ||| m).setWidth 16
    if 0x1000#32 < r ∨ r = 0x1000#32 ∧ m &&& 1#32 ≠ 0#32 then out + 1#16 else out

/-- The fields of a single-precision pattern. -/
def signField (x : BitVec 32) : Nat := x.toNat / 2 ^ 31

def exponentField (x : BitVec 32) : Nat := x.toNat / 2 ^ 23 % 2 ^ 8

def fractionField (x : BitVec 32) : Nat := x.toNat % 2 ^ 23

/-- The number lies halfway between an even subnormal half-precision number, zero
included, and the next one: its significand has a single one below the last place
kept, and a zero there. -/
def HalfwayAboveEven (x : BitVec 32) : Prop :=
  102 ≤ exponentField x ∧ exponentField x ≤ 112 ∧
    (2 ^ 23 + fractionField x) % 2 ^ (127 - exponentField x) = 2 ^ (125 - exponentField x)

instance (x : BitVec 32) : Decidable (HalfwayAboveEven x) := by
  unfold HalfwayAboveEven
  infer_instance

section Fields
variable {x : BitVec 32}

theorem signField_lt (x : BitVec 32) : signField x < 2 :=
  Nat.div_lt_of_lt_mul x.isLt

theorem exponentField_lt (x : BitVec 32) : exponentField x < 2 ^ 8 :=
  Nat.mod_lt _ (Nat.two_pow_pos 8)

theorem fractionField_lt (x : BitVec 32) : fractionField x < 2 ^ 23 :=
  Nat.mod_lt _ (Nat.two_pow_pos 23)

theorem toNat_fields (x : BitVec 32) :
    x.toNat = signField x * 2 ^ 31 + exponentField x * 2 ^ 23 + fractionField x := by
  simp only [signField, exponentField, fractionField]
  omega

theorem toNat_sign (x : BitVec 32) :
    ((x >>> 16) &&& 0x8000#32).toNat = signField x * 2 ^ 15 := by
  have hbit : x.toNat / 2 ^ 16 / 2 ^ 15 % 2 = signField x := by
    rw [Nat.div_div_eq_div_mul]
    exact Nat.mod_eq_of_lt (signField_lt x)
  rw [BitVec.toNat_and, BitVec.toNat_ushiftRight, Nat.shiftRight_eq_div_pow]
  rw [show (0x8000#32).toNat = 2 ^ 15 from rfl, Nat.and_two_pow, Nat.toNat_testBit, hbit]

theorem toNat_exponent (x : BitVec 32) :
    ((x >>> 23) &&& 0xFF#32).toNat = exponentField x := by
  rw [BitVec.toNat_and, BitVec.toNat_ushiftRight, Nat.shiftRight_eq_div_pow]
  exact Nat.and_two_pow_sub_one_eq_mod _ 8

theorem toNat_fraction (x : BitVec 32) : (x &&& 0x7FFFFF#32).toNat = fractionField x := by
  rw [BitVec.toNat_and]
  exact Nat.and_two_pow_sub_one_eq_mod _ 23

theorem or_eq_add {a b i : Nat} (hb : b < 2 ^ i) : a * 2 ^ i ||| b = a * 2 ^ i + b := by
  rw [← Nat.shiftLeft_eq, Nat.shiftLeft_add_eq_or_of_lt hb]

/-- The magnitude bits of the result, by the fields of the argument. -/
def halfBits (e t : Nat) : Nat :=
  if e < 102 then 0
  else if e ≤ 112 then ((2 ^ 23 + t) / 2 ^ (113 - e) + 2 ^ 12) / 2 ^ 13
  else if e < 143 then
    let h := (e - 112) * 2 ^ 10 + t / 2 ^ 13
    if 2 ^ 12 < t % 2 ^ 13 ∨ t % 2 ^ 13 = 2 ^ 12 ∧ t / 2 ^ 13 % 2 = 1 then h + 1 else h
  else if e = 255 ∧ t ≠ 0 then 0x7E00
  else 0x7C00

/-- The sign bit and magnitude bits below it, as one half-precision pattern. -/
theorem toNat_signed {s : BitVec 32} {m : BitVec 32} {n h : Nat} (hs : s.toNat = n * 2 ^ 15)
    (hm : m.toNat = h) (hh : h < 2 ^ 15) (hn : n < 2) :
    ((s ||| m).setWidth 16).toNat = n * 2 ^ 15 + h := by
  rw [BitVec.toNat_setWidth, BitVec.toNat_or, hs, hm, or_eq_add hh]
  omega

theorem toNat_f32ToF16 (x : BitVec 32) :
    (f32ToF16 x).toNat = signField x * 2 ^ 15 + halfBits (exponentField x) (fractionField x) := by
  have hs := toNat_sign x
  have he := toNat_exponent x
  have ht := toNat_fraction x
  have hs2 := signField_lt x
  have he2 := exponentField_lt x
  have ht2 := fractionField_lt x
  unfold f32ToF16 halfBits
  rw [he]
  generalize (x >>> 16) &&& 0x8000#32 = sign at hs
  generalize hE : (x >>> 23) &&& 0xFF#32 = E at he
  generalize x &&& 0x7FFFFF#32 = mant at ht
  generalize signField x = n at hs hs2
  generalize exponentField x = e at he he2
  generalize fractionField x = t at ht ht2
  dsimp only
  rcases show e ≤ 112 ∨ 143 ≤ e ∨ (112 < e ∧ e < 143) by omega with hlow | hhigh | ⟨hlow, hhigh⟩
  · rw [if_pos (show (e : Int) - 127 + 15 ≤ 0 by omega)]
    by_cases hzero : e < 102
    · rw [if_pos (show (e : Int) - 127 + 15 < -10 by omega), if_pos hzero, BitVec.toNat_setWidth,
        hs]
      omega
    · rw [if_neg (show ¬ (e : Int) - 127 + 15 < -10 by omega), if_neg hzero, if_pos hlow]
      have hshift : (1 - ((e : Int) - 127 + 15)).toNat = 113 - e := by omega
      have hM : ((mant ||| 0x800000#32) >>> (113 - e)).toNat = (2 ^ 23 + t) / 2 ^ (113 - e) := by
        rw [BitVec.toNat_ushiftRight, Nat.shiftRight_eq_div_pow, BitVec.toNat_or, ht, Nat.or_comm,
          show (0x800000#32).toNat = 1 * 2 ^ 23 from rfl, or_eq_add ht2, Nat.one_mul]
      have hsmall : (2 ^ 23 + t) / 2 ^ (113 - e) ≤ (2 ^ 23 + t) / 2 ^ 1 :=
        Nat.div_le_div_left (Nat.pow_le_pow_right (by decide) (by omega)) (by decide)
      rw [hshift]
      refine toNat_signed hs ?_ (by omega) hs2
      rw [BitVec.toNat_ushiftRight, Nat.shiftRight_eq_div_pow, BitVec.toNat_add, hM,
        show (0x1000#32).toNat = 2 ^ 12 from rfl, Nat.mod_eq_of_lt (by omega)]
  · rw [if_neg (show ¬ (e : Int) - 127 + 15 ≤ 0 by omega),
      if_pos (show 31 ≤ (e : Int) - 127 + 15 by omega), if_neg (show ¬ e < 102 by omega),
      if_neg (show ¬ e ≤ 112 by omega), if_neg (show ¬ e < 143 by omega)]
    have hfull : (E = 0xFF#32 ∧ mant ≠ 0#32) ↔ (e = 255 ∧ t ≠ 0) := by
      rw [ne_eq, ← BitVec.toNat_inj, ← BitVec.toNat_inj, he, ht]
      rfl
    simp only [hfull]
    split
    · exact toNat_signed hs rfl (by decide) hs2
    · exact toNat_signed hs rfl (by decide) hs2
  · rw [if_neg (show ¬ (e : Int) - 127 + 15 ≤ 0 by omega),
      if_neg (show ¬ 31 ≤ (e : Int) - 127 + 15 by omega), if_neg (show ¬ e < 102 by omega),
      if_neg (show ¬ e ≤ 112 by omega), if_pos hhigh]
    have hm : (mant >>> 13).toNat = t / 2 ^ 13 := by
      rw [BitVec.toNat_ushiftRight, Nat.shiftRight_eq_div_pow, ht]
    have hr : (mant &&& 0x1FFF#32).toNat = t % 2 ^ 13 := by
      rw [BitVec.toNat_and, ht]
      exact Nat.and_two_pow_sub_one_eq_mod _ 13
    have hodd : (mant >>> 13 &&& 1#32 ≠ 0#32) ↔ t / 2 ^ 13 % 2 = 1 := by
      rw [ne_eq, ← BitVec.toNat_inj, BitVec.toNat_and, hm,
        show (1#32).toNat = 2 ^ 1 - 1 from rfl, Nat.and_two_pow_sub_one_eq_mod]
      simp
    have hup : (0x1000#32 < mant &&& 0x1FFF#32 ∨
        mant &&& 0x1FFF#32 = 0x1000#32 ∧ mant >>> 13 &&& 1#32 ≠ 0#32) ↔
        (2 ^ 12 < t % 2 ^ 13 ∨ t % 2 ^ 13 = 2 ^ 12 ∧ t / 2 ^ 13 % 2 = 1) := by
      rw [BitVec.lt_def, ← BitVec.toNat_inj, hr, hodd]
      rfl
    have hexp : (BitVec.ofInt 32 ((e : Int) - 127 + 15) <<< 10).toNat = (e - 112) * 2 ^ 10 := by
      have hnat : (e : Int) - 127 + 15 = ((e - 112 : Nat) : Int) := by omega
      rw [hnat, BitVec.ofInt_natCast, BitVec.toNat_shiftLeft, BitVec.toNat_ofNat,
        Nat.shiftLeft_eq, Nat.mod_eq_of_lt (show e - 112 < 2 ^ 32 by omega),
        Nat.mod_eq_of_lt (by omega)]
    have hout : ((sign ||| BitVec.ofInt 32 ((e : Int) - 127 + 15) <<< 10 ||| mant >>> 13).setWidth
        16).toNat = n * 2 ^ 15 + ((e - 112) * 2 ^ 10 + t / 2 ^ 13) := by
      rw [BitVec.or_assoc]
      refine toNat_signed hs ?_ (by omega) hs2
      rw [BitVec.toNat_or, hexp, hm, or_eq_add (by omega)]
    simp only [hup]
    split
    · rw [BitVec.toNat_add, hout, show (1#16).toNat = 1 from rfl, Nat.mod_eq_of_lt (by omega),
        Nat.add_assoc]
    · exact hout

end Fields

section Rounding
variable {e t : Nat}

/-- The half-precision magnitudes, in units of the smallest single-precision one. -/
def halfSteps (h : Nat) : Nat := binary16.steps h * 2 ^ 125

theorem halfSteps_strictMono : StrictMono halfSteps := fun _ _ h =>
  Nat.mul_lt_mul_of_pos_right (binary16.steps_strictMono h) (Nat.two_pow_pos 125)

theorem magnitude_halfSteps (h : Nat) :
    binary16.magnitude h = (halfSteps h : ℚ) * binary32.unit := by
  have hunit : binary16.unit = 2 ^ 125 * binary32.unit := by
    norm_num [FloatFormat.unit, binary16, binary32]
  rw [magnitude, hunit, halfSteps]
  push_cast
  ring

theorem steps_fields (he : 0 < e) (ht : t < 2 ^ 23) :
    binary32.steps (e * 2 ^ 23 + t) = (2 ^ 23 + t) * 2 ^ (e - 1) := by
  obtain ⟨e, rfl⟩ := Nat.exists_eq_succ_of_ne_zero he.ne'
  exact binary32.steps_normal ht

/-- Below half of the smallest magnitude nothing but zero is near. -/
theorem nearest_zero (he : e < 102) (ht : t < 2 ^ 23) :
    NearestEven (fun h => (halfSteps h : ℚ)) 31744 (binary32.steps (e * 2 ^ 23 + t) : ℚ)
      (halfBits e t) := by
  have hsmall : binary32.steps (e * 2 ^ 23 + t) < 2 ^ 124 := by
    rcases Nat.eq_zero_or_pos e with rfl | hpos
    · rw [Nat.zero_mul, Nat.zero_add, binary32.steps_subnormal ht]
      omega
    · rw [steps_fields hpos ht]
      calc (2 ^ 23 + t) * 2 ^ (e - 1)
          ≤ (2 ^ 23 + t) * 2 ^ 100 :=
            Nat.mul_le_mul_left _ (Nat.pow_le_pow_right (by decide) (by omega))
        _ < 2 ^ 124 := by omega
  have hzero : halfSteps 0 = 0 * 1 := by decide
  have hone : halfSteps (0 + 1) = 2 ^ 125 * 1 := by decide
  rw [halfBits, if_pos he, nearestEven_multiples halfSteps_strictMono (by omega) Nat.one_pos
    (Nat.mul_one _).symm hzero hone (Nat.zero_le _) (by omega)]
  exact .inl ⟨rfl, .inl (by omega)⟩

theorem nearest_subnormal_iff (he : 102 ≤ e) (he' : e ≤ 112) (ht : t < 2 ^ 23) :
    NearestEven (fun h => (halfSteps h : ℚ)) 31744 (binary32.steps (e * 2 ^ 23 + t) : ℚ)
      (halfBits e t) ↔ (2 ^ 23 + t) % 2 ^ (127 - e) ≠ 2 ^ (125 - e) := by
  obtain ⟨s, hs⟩ : ∃ s, 2 ^ (113 - e) = s := ⟨_, rfl⟩
  have hspos : 2 ≤ s := by
    rw [← hs]
    exact Nat.pow_le_pow_right Nat.two_pos (show 1 ≤ 113 - e by omega)
  have hpow (k : Nat) : 2 ^ (113 - e + k) = s * 2 ^ k := by rw [pow_add, hs]
  have hhalf : 2 ^ (125 - e) = s * 2 ^ 12 := by
    rw [← hpow, show 113 - e + 12 = 125 - e by omega]
  have hwhole : 2 ^ (127 - e) = s * 2 ^ 13 * 2 := by
    rw [Nat.mul_assoc, ← pow_succ, ← hpow, show 113 - e + (13 + 1) = 127 - e by omega]
  have hunits : 2 ^ 125 = s * 2 ^ 13 * 2 ^ (e - 1) := by
    rw [← hpow, ← pow_add, show 113 - e + 13 + (e - 1) = 125 by omega]
  obtain ⟨m, hm⟩ : ∃ m, 2 ^ 23 + t = m := ⟨_, rfl⟩
  have hdecomp := Nat.div_add_mod m (s * 2 ^ 13)
  have hmod := Nat.mod_lt m (show 0 < s * 2 ^ 13 by omega)
  have hsmall : m / (s * 2 ^ 13) < 2 ^ 10 := Nat.div_lt_of_lt_mul (by omega)
  have hbits : halfBits e t = (m + s * 2 ^ 12) / (s * 2 ^ 13) := by
    rw [halfBits, if_neg (show ¬ e < 102 by omega), if_pos he', hs, hm, ← Nat.div_div_eq_div_mul,
      Nat.add_mul_div_left _ _ (show 0 < s by omega)]
  have htie : m % (s * 2 ^ 13 * 2) = s * 2 ^ 12 ↔
      m % (s * 2 ^ 13) = s * 2 ^ 12 ∧ Even (m / (s * 2 ^ 13)) := by
    rw [Nat.mod_mul, Nat.even_iff]
    have hbit := Nat.mod_two_eq_zero_or_one (m / (s * 2 ^ 13))
    rcases hbit with h | h
    · rw [h, Nat.mul_zero, Nat.add_zero, eq_self, and_true]
    · rw [h]
      omega
  generalize hl : m / (s * 2 ^ 13) = l at hdecomp hsmall htie
  generalize hr : m % (s * 2 ^ 13) = r at hdecomp hmod htie
  have hsteps (k : Nat) (hk : k ≤ 2 ^ 10) : halfSteps k = k * (s * 2 ^ 13) * 2 ^ (e - 1) := by
    have hval : binary16.steps k = k := by
      rcases hk.eq_or_lt with rfl | hlt
      · decide
      · exact binary16.steps_subnormal hlt
    rw [halfSteps, hval, hunits, Nat.mul_assoc k]
  have hq : (l + 1) * (s * 2 ^ 13) = s * 2 ^ 13 * l + s * 2 ^ 13 := by ring
  rw [hhalf, hwhole, hm, ne_eq, htie, steps_fields (show 0 < e by omega) ht, hm,
    nearestEven_multiples halfSteps_strictMono (show l < 31744 by omega) (Nat.two_pow_pos (e - 1))
      rfl (hsteps l hsmall.le) (hsteps (l + 1) hsmall) (by rw [Nat.mul_comm]; omega) (by omega),
    Nat.mul_comm l, hq]
  by_cases hround : r < s * 2 ^ 12
  · have hdown : halfBits e t = l := by
      rw [hbits, show m + s * 2 ^ 12 = r + s * 2 ^ 12 + s * 2 ^ 13 * l by omega,
        Nat.add_mul_div_left _ _ (show 0 < s * 2 ^ 13 by omega), Nat.div_eq_of_lt (by omega),
        Nat.zero_add]
    rw [hdown]
    exact iff_of_true (.inl ⟨rfl, .inl (by omega)⟩) (by omega)
  · have hup : halfBits e t = l + 1 := by
      rw [hbits, show m + s * 2 ^ 12 = r - s * 2 ^ 12 + s * 2 ^ 13 * (l + 1) by
        rw [Nat.mul_succ]; omega, Nat.add_mul_div_left _ _ (show 0 < s * 2 ^ 13 by omega),
        Nat.div_eq_of_lt (by omega), Nat.zero_add]
    rw [hup]
    constructor
    · rintro (⟨hne, -⟩ | ⟨-, hgt | ⟨-, hodd⟩⟩)
      · omega
      · rintro ⟨heq, -⟩
        omega
      · exact fun h => hodd h.2
    · intro h
      refine .inr ⟨rfl, ?_⟩
      rcases Nat.lt_or_ge (s * 2 ^ 12) r with hlt | hge
      · exact .inl (by omega)
      · exact .inr ⟨by omega, fun heven => h ⟨by omega, heven⟩⟩

theorem nearest_normal (he : 112 < e) (he' : e < 143) (ht : t < 2 ^ 23) :
    NearestEven (fun h => (halfSteps h : ℚ)) 31744 (binary32.steps (e * 2 ^ 23 + t) : ℚ)
      (halfBits e t) := by
  obtain ⟨l, hl⟩ : ∃ l, (e - 112) * 2 ^ 10 + t / 2 ^ 13 = l := ⟨_, rfl⟩
  have hfrac : t / 2 ^ 13 < 2 ^ 10 := by omega
  have hunits : 2 ^ (e - 113) * 2 ^ 125 = 2 ^ 13 * 2 ^ (e - 1) := by
    rw [← pow_add, ← pow_add, show e - 113 + 125 = 13 + (e - 1) by omega]
  have hlow : halfSteps l = (2 ^ 10 + t / 2 ^ 13) * 2 ^ 13 * 2 ^ (e - 1) := by
    have hnormal : binary16.steps l = (2 ^ 10 + t / 2 ^ 13) * 2 ^ (e - 113) := by
      rw [← hl, show e - 112 = e - 113 + 1 by omega]
      exact binary16.steps_normal hfrac
    rw [halfSteps, hnormal, Nat.mul_assoc, hunits, Nat.mul_assoc]
  have hhigh : halfSteps (l + 1) = ((2 ^ 10 + t / 2 ^ 13) * 2 ^ 13 + 2 ^ 13) * 2 ^ (e - 1) := by
    have hbinade : l / 2 ^ 10 - 1 = e - 113 := by omega
    have hnext : halfSteps (l + 1) = halfSteps l + 2 ^ (e - 113) * 2 ^ 125 := by
      rw [halfSteps, binary16.steps_succ, Nat.add_mul, halfSteps]
      rw [show l / 2 ^ binary16.fractionBits - 1 = e - 113 from hbinade]
    rw [hnext, hlow, hunits, ← Nat.add_mul]
  have hparity : Even l ↔ t / 2 ^ 13 % 2 = 0 := by
    rw [Nat.even_iff]
    omega
  rw [halfBits, if_neg (show ¬ e < 102 by omega), if_neg (show ¬ e ≤ 112 by omega), if_pos he', hl,
    steps_fields (by omega) ht, nearestEven_multiples halfSteps_strictMono (by omega)
      (Nat.two_pow_pos (e - 1)) rfl hlow hhigh (by omega) (by omega), hparity]
  have hrest : 2 ^ 23 + t = (2 ^ 10 + t / 2 ^ 13) * 2 ^ 13 + t % 2 ^ 13 := by omega
  rw [hrest]
  generalize (2 ^ 10 + t / 2 ^ 13) * 2 ^ 13 = a
  dsimp only
  split
  · rename_i h
    refine .inr ⟨rfl, ?_⟩
    rcases h with h | ⟨h, hodd⟩
    · exact .inl (by linarith)
    · exact .inr ⟨by linarith, by omega⟩
  · refine .inl ⟨rfl, ?_⟩
    omega

theorem nearest_overflow (he : 143 ≤ e) (he' : e < 255) (ht : t < 2 ^ 23) :
    NearestEven (fun h => (halfSteps h : ℚ)) 31744 (binary32.steps (e * 2 ^ 23 + t) : ℚ)
      (halfBits e t) := by
  have htop : halfSteps 31744 = 2 ^ 23 * 2 ^ 142 := by decide
  have hlarge : halfSteps 31744 ≤ binary32.steps (e * 2 ^ 23 + t) := by
    rw [htop, steps_fields (by omega) ht]
    exact Nat.mul_le_mul (by omega) (Nat.pow_le_pow_right (by decide) (by omega))
  have hmono : StrictMono fun h => (halfSteps h : ℚ) := fun _ _ h =>
    Nat.cast_lt.mpr (halfSteps_strictMono h)
  rw [nearestEven_top hmono (Nat.cast_le.mpr hlarge), halfBits, if_neg (show ¬ e < 102 by omega),
    if_neg (show ¬ e ≤ 112 by omega), if_neg (show ¬ e < 143 by omega),
    if_neg (show ¬ (e = 255 ∧ t ≠ 0) by omega)]

end Rounding

/-- A finite number is rounded as its pattern is. -/
theorem nearest_iff {e t : Nat} (he : e < 255) (ht : t < 2 ^ 23) :
    NearestEven binary16.magnitude binary16.infinityBits (binary32.magnitude (e * 2 ^ 23 + t))
      (halfBits e t) ↔
      ¬ (102 ≤ e ∧ e ≤ 112 ∧ (2 ^ 23 + t) % 2 ^ (127 - e) = 2 ^ (125 - e)) := by
  rw [show binary16.magnitude = fun h => (halfSteps h : ℚ) * binary32.unit from
    funext magnitude_halfSteps, magnitude, nearestEven_scale binary32.unit_pos]
  change NearestEven _ 31744 _ _ ↔ _
  rcases show e < 102 ∨ (102 ≤ e ∧ e ≤ 112) ∨ (112 < e ∧ e < 143) ∨ 143 ≤ e by omega with
    hzero | ⟨hlow, hhigh⟩ | ⟨hlow, hhigh⟩ | hover
  · exact iff_of_true (nearest_zero hzero ht) (by omega)
  · rw [nearest_subnormal_iff hlow hhigh ht]
    simp [hlow, hhigh]
  · exact iff_of_true (nearest_normal hlow hhigh ht) (by omega)
  · exact iff_of_true (nearest_overflow hover he ht) (by omega)

theorem halfBits_lt {e t : Nat} (he : e < 256) (ht : t < 2 ^ 23) : halfBits e t < 2 ^ 15 := by
  have hdiv : (2 ^ 23 + t) / 2 ^ (113 - e) ≤ 2 ^ 23 + t := Nat.div_le_self _ _
  unfold halfBits
  split
  · decide
  · split
    · omega
    · split
      · dsimp only
        split <;> omega
      · split <;> decide

/-- What the single-precision pattern stands for, by its fields. -/
theorem datum_fields (x : BitVec 32) :
    binary32.datum x.toNat =
      if exponentField x < 255 then
        .finite (decide (signField x = 1))
          (binary32.magnitude (exponentField x * 2 ^ 23 + fractionField x))
      else if fractionField x = 0 then .infinity (decide (signField x = 1))
      else .nan := by
  have hx := toNat_fields x
  have hs := signField_lt x
  have he := exponentField_lt x
  have ht := fractionField_lt x
  have hmod : x.toNat % binary32.signBit = exponentField x * 2 ^ 23 + fractionField x := by
    rw [show binary32.signBit = 2 ^ 31 from rfl]
    omega
  have hneg : binary32.negative x.toNat = decide (signField x = 1) := by
    rw [negative, show binary32.signBit = 2 ^ 31 from rfl, decide_eq_decide]
    omega
  rw [FloatFormat.datum, hmod, hneg, show binary32.infinityBits = 255 * 2 ^ 23 from rfl]
  by_cases hfin : exponentField x < 255
  · rw [if_pos (by omega), if_pos hfin]
  · rw [if_neg (by omega), if_neg hfin]
    by_cases hzero : fractionField x = 0
    · rw [if_pos (by omega), if_pos hzero]
    · rw [if_neg (by omega), if_neg hzero]

/-- The pattern of the result stands for the argument rounded to nearest even, unless the
argument lies halfway between two subnormal results of which the lower one is even. -/
theorem f32ToF16_rounds_iff (x : BitVec 32) :
    binary16.Rounds (binary32.datum x.toNat) (f32ToF16 x).toNat ↔ ¬ HalfwayAboveEven x := by
  have hs := signField_lt x
  have he := exponentField_lt x
  have ht := fractionField_lt x
  have hbound := halfBits_lt he ht
  have hmod : (f32ToF16 x).toNat % binary16.signBit =
      halfBits (exponentField x) (fractionField x) := by
    rw [toNat_f32ToF16, show binary16.signBit = 2 ^ 15 from rfl]
    omega
  have hneg : binary16.negative (f32ToF16 x).toNat = decide (signField x = 1) := by
    rw [negative, toNat_f32ToF16, show binary16.signBit = 2 ^ 15 from rfl, decide_eq_decide]
    omega
  rw [datum_fields]
  by_cases hfin : exponentField x < 255
  · rw [if_pos hfin, Rounds, hneg, hmod, nearest_iff hfin ht, HalfwayAboveEven]
    simp
  · have hspecial : ¬ HalfwayAboveEven x := by
      rintro ⟨-, hle, -⟩
      omega
    have hbits : halfBits (exponentField x) (fractionField x) =
        if fractionField x = 0 then 0x7C00 else 0x7E00 := by
      rw [halfBits, if_neg (by omega), if_neg (by omega), if_neg (by omega)]
      split <;> split <;> omega
    rw [if_neg hfin]
    refine iff_of_true ?_ hspecial
    by_cases hzero : fractionField x = 0
    · rw [if_pos hzero] at hbits ⊢
      rw [Rounds, FloatFormat.datum, hmod, hneg, hbits]
      rfl
    · rw [if_neg hzero] at hbits ⊢
      rw [Rounds, FloatFormat.datum, hmod, hneg, hbits]
      rfl

/-- 2⁻²⁵ lies halfway between zero and the smallest half-precision number, and is
rounded up. -/
theorem tie_above_zero_rounded_up :
    f32ToF16 0x33000000#32 = 1#16 ∧
      ¬ binary16.Rounds (binary32.datum (0x33000000#32).toNat) (f32ToF16 0x33000000#32).toNat := by
  refine ⟨by decide, ?_⟩
  rw [datum_fields, if_pos (by decide)]
  rintro ⟨-, hnear⟩
  have hexponent : exponentField 0x33000000#32 = 102 := by decide
  have hfraction : fractionField 0x33000000#32 = 0 := by decide
  rw [hexponent, hfraction] at hnear
  exact (nearest_iff (e := 102) (t := 0) (by decide) (by decide)).mp hnear (by decide)

/-- The bytes of a number, the lowest one first. -/
def littleEndian : (bytes : Nat) → (n : Nat) → List UInt8
  | 0, _ => []
  | bytes + 1, n => UInt8.ofNat n :: littleEndian bytes (n / 2 ^ 8)

/-- The header of the file; the library's `dump` writes it, and spaces fill it up. -/
def melHeader (dump : Json → List UInt8) (nMels nFrames : Int) (nbytes : Nat) : List UInt8 :=
  let header := dump (.obj [("mel", .obj [("dtype", .str "F16"),
    ("shape", .arr [.int 1, .int nMels, .int nFrames]),
    ("data_offsets", .arr [.int 0, .int nbytes])])])
  header ++ List.replicate ((8 - header.length % 8) % 8) 32

/-- The bytes of the tensor. -/
def melPayload (mel : List (BitVec 32)) : List UInt8 :=
  (mel.map f32ToF16).flatMap fun half => littleEndian 2 half.toNat

/-- `writeMelSafetensors`: the bytes of the file, for numbers given by their bits. -/
def writeMelSafetensors (dump : Json → List UInt8) (opened : Bool) (path : String)
    (mel : List (BitVec 32)) (nMels nFrames : Int) : Except String (List UInt8) :=
  if nMels * nFrames % 2 ^ 64 ≠ mel.length then .error "writeMelSafetensors: tensor size mismatch"
  else if !opened then .error ("writeMelSafetensors: cannot open " ++ path)
  else
    let payload := melPayload mel
    let header := melHeader dump nMels nFrames payload.length
    .ok (littleEndian 8 header.length ++ header ++ payload)

@[simp] theorem length_littleEndian (bytes n : Nat) : (littleEndian bytes n).length = bytes := by
  induction bytes generalizing n with
  | zero => rfl
  | succ bytes ih => rw [littleEndian, List.length_cons, ih]

/-- The tensor starts at a multiple of eight. -/
theorem length_melHeader (dump : Json → List UInt8) (nMels nFrames : Int) (nbytes : Nat) :
    (melHeader dump nMels nFrames nbytes).length % 8 = 0 := by
  simp only [melHeader, List.length_append, List.length_replicate]
  omega

theorem melPayload_cons (bits : BitVec 32) (mel : List (BitVec 32)) :
    melPayload (bits :: mel) = littleEndian 2 (f32ToF16 bits).toNat ++ melPayload mel := by
  rw [melPayload, List.map_cons, List.flatMap_cons, melPayload]

/-- Every number has its two bytes at its own place behind the header. -/
theorem melPayload_half {mel : List (BitVec 32)} {i : Nat} {bits : BitVec 32}
    (h : mel[i]? = some bits) :
    ((melPayload mel).drop (2 * i)).take 2 = littleEndian 2 (f32ToF16 bits).toNat := by
  induction mel generalizing i with
  | nil => cases h
  | cons first mel ih =>
      rw [melPayload_cons]
      cases i with
      | zero =>
          cases h
          rw [Nat.mul_zero, List.drop_zero, List.take_left' (length_littleEndian 2 _)]
      | succ i =>
          have hskip : 2 * (i + 1) = (littleEndian 2 (f32ToF16 first).toNat).length + 2 * i := by
            rw [length_littleEndian]
            omega
          rw [hskip, List.drop_length_add_append]
          exact ih h

end JetsonVoice.Asr
