import Mathlib.Algebra.Order.Ring.Abs
import Mathlib.Algebra.Order.Ring.Rat
import Mathlib.Algebra.Order.Field.Power
import Mathlib.Tactic.Linarith
import Mathlib.Tactic.Ring

/-!
# Binary floating-point formats

The interchange formats of IEEE 754 by their fields, what a pattern of bits
stands for, and rounding to nearest with ties to even. The magnitudes of a
format are a strictly increasing sequence in the order of their patterns, so a
value is rounded by comparing it with the two magnitudes around it.

## Implementation notes

Infinity takes its turn in the sequence with the magnitude that the format's
spacing gives its pattern: what would round to that overflows.
-/

namespace JetsonVoice.Foundation

section Nearest
variable {val : Nat → ℚ} {top l h : Nat} {x : ℚ}

/-- The element, up to `top`, that is nearest to `x`; of two equally near ones the
even-numbered. -/
def NearestEven (val : Nat → ℚ) (top : Nat) (x : ℚ) (h : Nat) : Prop :=
  h ≤ top ∧ ∀ h' ≤ top, h' ≠ h →
    |x - val h| < |x - val h'| ∨ |x - val h| = |x - val h'| ∧ Even h

/-- What lies behind the last element is nearest to it. -/
theorem nearestEven_top (hv : StrictMono val) (hx : val top ≤ x) :
    NearestEven val top x h ↔ h = top := by
  constructor
  · rintro ⟨hle, hnear⟩
    by_contra hne
    have hlt := hv (Nat.lt_of_le_of_ne hle hne)
    have htop := hnear top le_rfl (Ne.symm hne)
    rw [abs_of_nonneg (by linarith), abs_of_nonneg (by linarith)] at htop
    rcases htop with h | ⟨h, -⟩
    · linarith
    · linarith
  · rintro rfl
    refine ⟨le_rfl, fun h' hle hne => .inl ?_⟩
    have hlt := hv (Nat.lt_of_le_of_ne hle hne)
    rw [abs_of_nonneg (by linarith), abs_of_nonneg (by linarith)]
    linarith

/-- Which of its two neighbours a value between them is rounded to. -/
theorem nearestEven_between (hv : StrictMono val) (hl : l < top) (hx : val l ≤ x)
    (hx' : x < val (l + 1)) :
    NearestEven val top x h ↔
      h = l ∧ (2 * x < val l + val (l + 1) ∨ 2 * x = val l + val (l + 1) ∧ Even l) ∨
      h = l + 1 ∧ (val l + val (l + 1) < 2 * x ∨ val l + val (l + 1) = 2 * x ∧ ¬ Even l) := by
  have hlow : |x - val l| = x - val l := abs_of_nonneg (by linarith)
  have hhigh : |x - val (l + 1)| = val (l + 1) - x := by
    rw [abs_sub_comm, abs_of_nonneg (by linarith)]
  have hbelow {h' : Nat} (hlt : h' < l) : |x - val l| < |x - val h'| := by
    have := hv hlt
    rw [hlow, abs_of_nonneg (by linarith)]
    linarith
  have habove {h' : Nat} (hlt : l + 1 < h') : |x - val (l + 1)| < |x - val h'| := by
    have := hv hlt
    rw [hhigh, abs_sub_comm, abs_of_nonneg (by linarith)]
    linarith
  constructor
  · rintro ⟨hle, hnear⟩
    have hlow' : ¬ h < l := by
      intro hlt
      have := hbelow hlt
      rcases hnear l (by omega) (by omega) with hd | ⟨hd, -⟩
      · linarith
      · linarith
    have hhigh' : ¬ l + 1 < h := by
      intro hlt
      have := habove hlt
      rcases hnear (l + 1) (by omega) (by omega) with hd | ⟨hd, -⟩
      · linarith
      · linarith
    rcases show h = l ∨ h = l + 1 by omega with rfl | rfl
    · refine .inl ⟨rfl, ?_⟩
      rcases hnear (h + 1) (by omega) (by omega) with hd | ⟨hd, he⟩
      · exact .inl (by linarith)
      · exact .inr ⟨by linarith, he⟩
    · refine .inr ⟨rfl, ?_⟩
      rcases hnear l (by omega) (by omega) with hd | ⟨hd, he⟩
      · exact .inl (by linarith)
      · exact .inr ⟨by linarith, Nat.even_add_one.mp he⟩
  · rintro (⟨rfl, hnear⟩ | ⟨rfl, hnear⟩)
    · refine ⟨hl.le, fun h' hle hne => ?_⟩
      rcases Nat.lt_or_gt_of_ne hne with hlt | hgt
      · exact .inl (hbelow hlt)
      · have hnext : |x - val (h + 1)| ≤ |x - val h'| := by
          rcases (Nat.succ_le_of_lt hgt).eq_or_lt with rfl | hlt
          · exact le_rfl
          · exact (habove hlt).le
        rcases hnear with hd | ⟨hd, he⟩
        · exact .inl (by linarith)
        · rcases hnext.eq_or_lt with heq | hlt
          · exact .inr ⟨by linarith, he⟩
          · exact .inl (by linarith)
    · refine ⟨hl, fun h' hle hne => ?_⟩
      rcases Nat.lt_or_gt_of_ne hne with hlt | hgt
      · have hprev : |x - val l| ≤ |x - val h'| := by
          rcases (Nat.le_of_lt_succ hlt).eq_or_lt with rfl | hlt
          · exact le_rfl
          · exact (hbelow hlt).le
        rcases hnear with hd | ⟨hd, he⟩
        · exact .inl (by linarith)
        · rcases hprev.eq_or_lt with heq | hlt
          · exact .inr ⟨by linarith, Nat.even_add_one.mpr he⟩
          · exact .inl (by linarith)
      · exact .inl (habove hgt)

/-- The same for whole multiples of one unit. -/
theorem nearestEven_multiples {val : Nat → Nat} {n unit a b m : Nat} (hv : StrictMono val)
    (hl : l < top) (hunit : 0 < unit) (hn : n = m * unit) (ha : val l = a * unit)
    (hb : val (l + 1) = b * unit) (hx : a ≤ m) (hx' : m < b) :
    NearestEven (fun k => (val k : ℚ)) top n h ↔
      h = l ∧ (2 * m < a + b ∨ 2 * m = a + b ∧ Even l) ∨
      h = l + 1 ∧ (a + b < 2 * m ∨ a + b = 2 * m ∧ ¬ Even l) := by
  have hcast : StrictMono fun k => (val k : ℚ) := fun _ _ h => Nat.cast_lt.mpr (hv h)
  have hle : val l ≤ n := by rw [hn, ha]; exact Nat.mul_le_mul_right _ hx
  have hlt : n < val (l + 1) := by rw [hn, hb]; exact Nat.mul_lt_mul_of_pos_right hx' hunit
  have hsum : val l + val (l + 1) = (a + b) * unit := by rw [ha, hb, Nat.add_mul]
  have hdouble : 2 * n = 2 * m * unit := by rw [hn, Nat.mul_assoc]
  have hbetween := nearestEven_between (h := h) hcast hl (Nat.cast_le.mpr hle)
    (Nat.cast_lt.mpr hlt)
  norm_cast at hbetween
  rw [hsum, hdouble, Nat.mul_lt_mul_right hunit, Nat.mul_lt_mul_right hunit,
    Nat.mul_left_inj hunit.ne', Nat.mul_left_inj hunit.ne'] at hbetween
  exact hbetween

/-- Rounding does not depend on the unit. -/
theorem nearestEven_scale {u : ℚ} (hu : 0 < u) :
    NearestEven (fun n => val n * u) top (x * u) h ↔ NearestEven val top x h := by
  have hdist (n : Nat) : |x * u - val n * u| = |x - val n| * u := by
    rw [← sub_mul, abs_mul, abs_of_pos hu]
  simp only [NearestEven, hdist, mul_lt_mul_iff_left₀ hu, mul_left_inj' hu.ne']

end Nearest

/-- A format by its number of fraction bits, its bias and the exponent field of
infinities and NaNs. -/
structure FloatFormat where
  fractionBits : Nat
  bias : Nat
  maxExponent : Nat

def binary16 : FloatFormat := ⟨10, 15, 31⟩

def binary32 : FloatFormat := ⟨23, 127, 255⟩

/-- What a pattern stands for. -/
inductive FloatDatum where
  | nan
  | infinity (negative : Bool)
  | finite (negative : Bool) (magnitude : ℚ)

namespace FloatFormat

variable (F : FloatFormat)

/-- The magnitude bits of infinity. -/
def infinityBits : Nat := F.maxExponent * 2 ^ F.fractionBits

/-- The value of the sign bit. -/
def signBit : Nat := (F.maxExponent + 1) * 2 ^ F.fractionBits

def negative (bits : Nat) : Bool := decide (F.signBit ≤ bits)

/-- A magnitude as a multiple of the smallest one. -/
def steps (h : Nat) : Nat :=
  if h / 2 ^ F.fractionBits = 0 then h % 2 ^ F.fractionBits
  else (2 ^ F.fractionBits + h % 2 ^ F.fractionBits) * 2 ^ (h / 2 ^ F.fractionBits - 1)

/-- The smallest magnitude above zero. -/
def unit : ℚ := 2 ^ (1 - F.bias - F.fractionBits : ℤ)

/-- The magnitude of a pattern without its sign bit. -/
def magnitude (h : Nat) : ℚ := F.steps h * F.unit

def datum (bits : Nat) : FloatDatum :=
  let h := bits % F.signBit
  if h < F.infinityBits then .finite (F.negative bits) (F.magnitude h)
  else if h = F.infinityBits then .infinity (F.negative bits)
  else .nan

/-- The pattern is the datum rounded to nearest, ties to even; a NaN becomes some NaN. -/
def Rounds (d : FloatDatum) (bits : Nat) : Prop :=
  match d with
  | .nan => F.datum bits = .nan
  | .infinity negative => F.datum bits = .infinity negative
  | .finite negative x => F.negative bits = negative ∧
      NearestEven F.magnitude F.infinityBits x (bits % F.signBit)

theorem unit_pos : 0 < F.unit := zpow_pos (by norm_num) _

/-- The distance to the next magnitude is that of the binade. -/
theorem steps_succ (h : Nat) :
    F.steps (h + 1) = F.steps h + 2 ^ (h / 2 ^ F.fractionBits - 1) := by
  have hpos : 0 < 2 ^ F.fractionBits := Nat.two_pow_pos _
  have hdecomp := Nat.div_add_mod h (2 ^ F.fractionBits)
  have hlt := Nat.mod_lt h hpos
  generalize hp : 2 ^ F.fractionBits = p at hpos hdecomp hlt
  generalize he : h / p = e at hdecomp
  generalize ht : h % p = t at hdecomp hlt
  by_cases hcarry : t + 1 = p
  · have hnext : h + 1 = p * (e + 1) := by rw [Nat.mul_succ]; omega
    have hdiv : (h + 1) / p = e + 1 := by rw [hnext, Nat.mul_div_cancel_left _ hpos]
    have hmod : (h + 1) % p = 0 := by rw [hnext, Nat.mul_mod_right]
    rw [steps, steps, hp, hdiv, hmod, he, ht, if_neg (Nat.succ_ne_zero e)]
    cases e with
    | zero => simp only [if_true, Nat.zero_add, Nat.sub_self, Nat.zero_sub, pow_zero]; omega
    | succ e =>
        rw [if_neg (Nat.succ_ne_zero e), Nat.add_sub_cancel, Nat.add_sub_cancel, ← hcarry]
        ring
  · have hnext : h + 1 = t + 1 + p * e := by omega
    have hdiv : (h + 1) / p = e := by
      rw [hnext, Nat.add_mul_div_left _ _ hpos, Nat.div_eq_of_lt (by omega), Nat.zero_add]
    have hmod : (h + 1) % p = t + 1 := by
      rw [hnext, Nat.add_mul_mod_self_left, Nat.mod_eq_of_lt (by omega)]
    rw [steps, steps, hp, hdiv, hmod, he, ht]
    cases e with
    | zero => simp
    | succ e =>
        rw [if_neg (Nat.succ_ne_zero e), if_neg (Nat.succ_ne_zero e)]
        ring

theorem steps_strictMono : StrictMono F.steps := by
  refine strictMono_nat_of_lt_succ fun h => ?_
  rw [steps_succ]
  exact Nat.lt_add_of_pos_right (Nat.two_pow_pos _)

/-- The magnitudes come in the order of their patterns. -/
theorem magnitude_strictMono : StrictMono F.magnitude := fun _ _ h =>
  mul_lt_mul_of_pos_right (Nat.cast_lt.mpr (F.steps_strictMono h)) F.unit_pos

/-- The multiple of the smallest magnitude, by the fields of a pattern. -/
theorem steps_subnormal {t : Nat} (ht : t < 2 ^ F.fractionBits) : F.steps t = t := by
  rw [steps, Nat.div_eq_of_lt ht, if_pos rfl, Nat.mod_eq_of_lt ht]

theorem steps_normal {e t : Nat} (ht : t < 2 ^ F.fractionBits) :
    F.steps ((e + 1) * 2 ^ F.fractionBits + t) = (2 ^ F.fractionBits + t) * 2 ^ e := by
  have hdiv : ((e + 1) * 2 ^ F.fractionBits + t) / 2 ^ F.fractionBits = e + 1 := by
    rw [Nat.add_comm, Nat.add_mul_div_right _ _ (Nat.two_pow_pos _), Nat.div_eq_of_lt ht,
      Nat.zero_add]
  rw [steps, hdiv, Nat.mul_add_mod_self_right, Nat.mod_eq_of_lt ht, if_neg (Nat.succ_ne_zero e),
    Nat.add_sub_cancel]

end FloatFormat

end JetsonVoice.Foundation
