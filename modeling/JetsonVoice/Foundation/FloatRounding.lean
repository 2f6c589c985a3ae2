import JetsonVoice.Foundation.BinaryFloat
import Mathlib.Data.Nat.Log
import Mathlib.Data.Rat.Floor
import Mathlib.Tactic.Positivity

/-!
# Rounding to a binary floating-point format

The nearest pattern of a number by its integer part in units of the smallest
magnitude, and how far a magnitude is from the number rounded to it: half a unit
where the format is subnormal, a fixed part of the number elsewhere.
-/

namespace JetsonVoice.Foundation

section Nearest
variable {val : Nat → ℚ} {top l h : Nat} {x : ℚ}

/-- The nearest element is at most half a gap away. -/
theorem NearestEven.two_mul_abs_sub_le (hv : StrictMono val) (hl : l < top) (hx : val l ≤ x)
    (hx' : x < val (l + 1)) (hnear : NearestEven val top x h) :
    2 * |x - val h| ≤ val (l + 1) - val l := by
  rcases (nearestEven_between hv hl hx hx').mp hnear with ⟨rfl, hside⟩ | ⟨rfl, hside⟩
  · rw [abs_of_nonneg (by linarith)]
    rcases hside with hlt | ⟨heq, -⟩ <;> linarith
  · rw [abs_sub_comm, abs_of_nonneg (by linarith)]
    rcases hside with hlt | ⟨heq, -⟩ <;> linarith

/-- Below the middle of the last gap nothing is rounded to the last element. -/
theorem NearestEven.lt_top (hv : StrictMono val) (hx : 2 * x < val top + val (top + 1))
    (hnear : NearestEven val (top + 1) x h) : h ≤ top := by
  by_contra hlt
  obtain rfl : h = top + 1 := by have := hnear.1; omega
  have hgap := hv (Nat.lt_succ_self top)
  have hnear := hnear.2 top (Nat.le_succ top) (Nat.succ_ne_self top).symm
  rcases le_or_gt x (val top) with hle | hgt
  · rw [abs_sub_comm, abs_of_nonneg (by linarith), abs_sub_comm, abs_of_nonneg (by linarith)]
      at hnear
    rcases hnear with hn | ⟨hn, -⟩ <;> linarith
  · rw [abs_sub_comm, abs_of_nonneg (by linarith), abs_of_nonneg (by linarith)] at hnear
    rcases hnear with hn | ⟨hn, -⟩ <;> linarith

end Nearest

namespace FloatFormat

variable (F : FloatFormat) {m h : Nat} {x : ℚ}

/-- The last pattern of at most so many units. -/
def below (m : Nat) : Nat :=
  if m < 2 ^ F.fractionBits then m
  else
    let e := Nat.log 2 m - F.fractionBits
    (e + 1) * 2 ^ F.fractionBits + (m / 2 ^ e - 2 ^ F.fractionBits)

/-- The pattern a number is rounded to: nearest, ties to even. -/
def nearest (x : ℚ) : Nat :=
  let l := F.below ⌊x / F.unit⌋₊
  if F.infinityBits ≤ l then F.infinityBits
  else if 2 * x < F.magnitude l + F.magnitude (l + 1) ∨
      2 * x = F.magnitude l + F.magnitude (l + 1) ∧ Even l then l
  else l + 1

/-- A number of units lies in the gap after the pattern below it. -/
theorem steps_below (m : Nat) : F.steps (F.below m) ≤ m ∧ m < F.steps (F.below m + 1) := by
  rw [steps_succ, below]
  split
  · rename_i hlt
    rw [F.steps_subnormal hlt, Nat.div_eq_of_lt hlt]
    exact ⟨le_rfl, Nat.lt_succ_self m⟩
  · rename_i hge
    dsimp only
    have hm : m ≠ 0 := by
      rintro rfl
      exact hge (Nat.two_pow_pos _)
    have hlog : F.fractionBits ≤ Nat.log 2 m :=
      Nat.le_log_of_pow_le Nat.one_lt_two (not_lt.mp hge)
    obtain ⟨e, he⟩ := Nat.exists_eq_add_of_le hlog
    have hlow : 2 ^ F.fractionBits * 2 ^ e ≤ m := by
      rw [← Nat.pow_add, ← he]
      exact Nat.pow_log_le_self 2 hm
    have hhigh : m < 2 * 2 ^ F.fractionBits * 2 ^ e := by
      have := Nat.lt_pow_succ_log_self Nat.one_lt_two m
      rw [he, Nat.pow_succ, Nat.pow_add] at this
      linarith
    have hpos : 0 < 2 ^ e := Nat.two_pow_pos e
    rw [he, Nat.add_sub_cancel_left]
    have hfrom : 2 ^ F.fractionBits ≤ m / 2 ^ e := (Nat.le_div_iff_mul_le hpos).mpr hlow
    have hto : m / 2 ^ e < 2 * 2 ^ F.fractionBits := (Nat.div_lt_iff_lt_mul hpos).mpr hhigh
    have hdiv : ((e + 1) * 2 ^ F.fractionBits + (m / 2 ^ e - 2 ^ F.fractionBits)) /
        2 ^ F.fractionBits = e + 1 := by
      rw [Nat.add_comm, Nat.add_mul_div_right _ _ (Nat.two_pow_pos _),
        Nat.div_eq_of_lt (by omega), Nat.zero_add]
    rw [F.steps_normal (by omega), hdiv, Nat.add_sub_cancel, Nat.add_sub_cancel' hfrom]
    have hmod := Nat.mod_lt m hpos
    have hparts := Nat.div_add_mod m (2 ^ e)
    rw [Nat.mul_comm] at hparts
    constructor <;> omega

/-- The gap a number lies in. -/
theorem magnitude_below (hx : 0 ≤ x) :
    F.magnitude (F.below ⌊x / F.unit⌋₊) ≤ x ∧ x < F.magnitude (F.below ⌊x / F.unit⌋₊ + 1) := by
  have hu := F.unit_pos
  obtain ⟨hlow, hhigh⟩ := F.steps_below ⌊x / F.unit⌋₊
  have hfloor := Nat.floor_le (div_nonneg hx hu.le)
  have hceil := Nat.lt_floor_add_one (x / F.unit)
  constructor
  · rw [magnitude, ← le_div_iff₀ hu]
    exact (Nat.cast_le.mpr hlow).trans hfloor
  · rw [magnitude, ← div_lt_iff₀ hu]
    refine hceil.trans_le ?_
    exact_mod_cast hhigh

theorem nearestEven_nearest (hx : 0 ≤ x) :
    NearestEven F.magnitude F.infinityBits x (F.nearest x) := by
  obtain ⟨hlow, hhigh⟩ := F.magnitude_below hx
  rw [nearest]
  generalize F.below ⌊x / F.unit⌋₊ = l at hlow hhigh ⊢
  split
  · rename_i htop
    have hle : F.magnitude F.infinityBits ≤ x :=
      (F.magnitude_strictMono.monotone htop).trans hlow
    exact (nearestEven_top F.magnitude_strictMono hle).mpr rfl
  · rename_i htop
    rw [nearestEven_between F.magnitude_strictMono (not_le.mp htop) hlow hhigh]
    split
    · rename_i hlower
      exact .inl ⟨rfl, hlower⟩
    · rename_i hupper
      rw [not_or, not_and] at hupper
      refine .inr ⟨rfl, ?_⟩
      rcases (not_lt.mp hupper.1).lt_or_eq with hlt | heq
      · exact .inl hlt
      · exact .inr ⟨heq, hupper.2 heq.symm⟩

/-- A gap is one unit, or small beside the numbers in it. -/
theorem gap_le (h : Nat) : F.magnitude (h + 1) - F.magnitude h ≤
    max F.unit (F.magnitude h / 2 ^ F.fractionBits) := by
  have hu := F.unit_pos
  have hgap : F.magnitude (h + 1) - F.magnitude h =
      2 ^ (h / 2 ^ F.fractionBits - 1) * F.unit := by
    rw [magnitude, magnitude, steps_succ]
    push_cast
    ring
  rw [hgap]
  rcases Nat.eq_zero_or_pos (h / 2 ^ F.fractionBits) with hzero | hpos
  · rw [hzero]
    exact le_max_of_le_left (by simp)
  · refine le_max_of_le_right ?_
    rw [le_div_iff₀ (by positivity), magnitude, steps, if_neg hpos.ne']
    push_cast
    have hrest : (0 : ℚ) ≤ (h % 2 ^ F.fractionBits : Nat) := Nat.cast_nonneg _
    have hbinade : (0 : ℚ) < 2 ^ (h / 2 ^ F.fractionBits - 1) := by positivity
    have hextra := mul_nonneg (mul_nonneg hrest hbinade.le) hu.le
    linarith

/-- Rounding moves a number by half a unit or by a fixed part of it. -/
theorem two_mul_abs_sub_nearest_le (hx : 0 ≤ x) (htop : x < F.magnitude F.infinityBits) :
    2 * |x - F.magnitude (F.nearest x)| ≤ max F.unit (x / 2 ^ F.fractionBits) := by
  obtain ⟨hlow, hhigh⟩ := F.magnitude_below hx
  have hnear := F.nearestEven_nearest hx
  generalize F.below ⌊x / F.unit⌋₊ = l at hlow hhigh
  have hl : l < F.infinityBits := by
    by_contra hge
    exact absurd (F.magnitude_strictMono.monotone (not_lt.mp hge)) (by linarith)
  have hhalf := hnear.two_mul_abs_sub_le F.magnitude_strictMono hl hlow hhigh
  refine hhalf.trans ((F.gap_le l).trans (max_le_max_left _ ?_))
  exact div_le_div_of_nonneg_right hlow (by positivity)

end FloatFormat

end JetsonVoice.Foundation
