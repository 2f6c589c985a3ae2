import Mathlib.Data.Nat.Prime.Basic
import Mathlib.Data.Nat.Sqrt
import Mathlib.Tactic.Linarith

/-!
# The radices of a transform

`kf_factor` divides a length by four as long as it can, then by two and by the odd
numbers in their order. Each radix it writes comes with the length of the stage
below it.
-/

namespace JetsonVoice.KissFft

section Trial
variable {floorSqrt n p q : Nat}

/-- The divisor that is tried behind `p`. -/
def nextTrial (p : Nat) : Nat :=
  match p with
  | 4 => 2
  | 2 => 3
  | p => p + 2

theorem nextTrial_two : nextTrial 2 = 3 := rfl

theorem nextTrial_other (h4 : p ≠ 4) (h2 : p ≠ 2) : nextTrial p = p + 2 := by
  rw [nextTrial]
  · exact h4
  · exact h2

/-- The inner loop: the next divisor from `p` on, or `n` itself behind the square root. -/
def trial (floorSqrt n p : Nat) : Nat :=
  if n % p = 0 then p
  else if floorSqrt < nextTrial p then n
  else trial floorSqrt n (nextTrial p)
termination_by if p = 4 then floorSqrt + 2 else floorSqrt + 1 - p
decreasing_by
  by_cases h4 : p = 4
  · subst h4
    rw [show nextTrial 4 = 2 from rfl, if_pos rfl, if_neg (by decide)]
    omega
  · by_cases h2 : p = 2
    · subst h2
      rw [nextTrial_two] at *
      rw [if_neg (by decide), if_neg (by decide)]
      omega
    · rw [nextTrial_other h4 h2] at *
      rw [if_neg (by omega), if_neg h4]
      omega

/-- What the loop has ruled out before it tries `p`: every prime divisor is still ahead. -/
def Tried (n p : Nat) : Prop := p = 4 ∨ p = 2 ∨ p % 2 = 1 ∧ 3 ≤ p ∧ ∀ d, d.Prime → d ∣ n → p ≤ d

theorem Tried.two_le (h : Tried n p) : 2 ≤ p := by
  rcases h with rfl | rfl | ⟨-, h, -⟩ <;> omega

/-- Where the divisor fails, the next one has as much behind it. -/
theorem Tried.next (h : Tried n p) (hmod : n % p ≠ 0) : Tried n (nextTrial p) := by
  have hndvd : ¬ p ∣ n := fun hd => hmod (Nat.mod_eq_zero_of_dvd hd)
  rcases h with rfl | rfl | ⟨hodd, hle, hall⟩
  · exact .inr (.inl rfl)
  · refine .inr (.inr ⟨rfl, le_rfl, fun d hd hdn => ?_⟩)
    have hne : d ≠ 2 := by
      rintro rfl
      exact hndvd hdn
    have := hd.two_le
    change 3 ≤ d
    omega
  · rw [nextTrial_other (by omega) (by omega)]
    refine .inr (.inr ⟨by omega, by omega, fun d hd hdn => ?_⟩)
    have hge := hall d hd hdn
    have hne : d ≠ p := by
      rintro rfl
      exact hndvd hdn
    have hodd' : d % 2 = 1 := hd.eq_two_or_odd.resolve_left (by omega)
    omega

theorem Tried.of_dvd {m : Nat} (h : Tried n p) (hm : m ∣ n) : Tried m p := by
  rcases h with h | h | ⟨hodd, hle, hall⟩
  · exact .inl h
  · exact .inr (.inl h)
  · exact .inr (.inr ⟨hodd, hle, fun d hd hdm => hall d hd (hdm.trans hm)⟩)

/-- A divisor with every prime divisor ahead of it is four or a prime. -/
theorem Tried.radix (h : Tried n p) (hdvd : p ∣ n) : p = 4 ∨ p.Prime := by
  rcases h with rfl | rfl | ⟨-, hle, hall⟩
  · exact .inl rfl
  · exact .inr Nat.prime_two
  · refine .inr ?_
    have hmin := Nat.minFac_prime (show p ≠ 1 by omega)
    have hge := hall _ hmin ((Nat.minFac_dvd p).trans hdvd)
    have hle := Nat.minFac_le (show 0 < p by omega)
    rwa [le_antisymm hle hge] at hmin

/-- A number with no prime divisor up to its square root is a prime. -/
theorem Tried.prime (h : Tried n p) (hp : floorSqrt < p) (hn : n.sqrt ≤ floorSqrt) (h2 : 2 ≤ n)
    (hfour : p ≠ 4) : n.Prime := by
  have hall : ∀ d, d.Prime → d ∣ n → p ≤ d := by
    rcases h with rfl | rfl | ⟨-, -, hall⟩
    · exact absurd rfl hfour
    · exact fun d hd _ => hd.two_le
    · exact hall
  rw [Nat.prime_def_le_sqrt]
  refine ⟨h2, fun d hd hle hdn => ?_⟩
  have hmin := hall _ (Nat.minFac_prime (show d ≠ 1 by omega)) ((Nat.minFac_dvd d).trans hdn)
  have := Nat.minFac_le (show 0 < d by omega)
  omega

theorem nextTrial_ne_four : Tried n p → nextTrial p ≠ 4 := by
  rintro (rfl | rfl | ⟨hodd, hle, -⟩)
  · decide
  · decide
  · rw [nextTrial_other (by omega) (by omega)]
    omega

/-- The loop ends at four or a prime that divides the number, with no prime divisor behind. -/
theorem trial_spec (h : Tried n p) (hn : n.sqrt ≤ floorSqrt) (h2 : 2 ≤ n) :
    trial floorSqrt n p ∣ n ∧ (trial floorSqrt n p = 4 ∨ (trial floorSqrt n p).Prime) ∧
      Tried n (trial floorSqrt n p) := by
  fun_induction trial floorSqrt n p with
  | case1 p hmod =>
      have hdvd := Nat.dvd_of_mod_eq_zero hmod
      exact ⟨hdvd, h.radix hdvd, h⟩
  | case2 p hmod hlt =>
      have hprime := (h.next hmod).prime hlt hn h2 (nextTrial_ne_four h)
      refine ⟨dvd_rfl, .inr hprime, ?_⟩
      rcases hprime.eq_two_or_odd with htwo | hodd
      · exact .inr (.inl htwo)
      · refine .inr (.inr ⟨hodd, ?_, fun d hd hdn => ?_⟩)
        · have := hprime.two_le
          omega
        · exact ((Nat.prime_dvd_prime_iff_eq hd hprime).mp hdn).ge
  | case3 p hmod hlt ih => exact ih (h.next hmod)

theorem two_le_trial_of_lt (hp : 2 ≤ p) (h : 1 < n / trial floorSqrt n p) :
    2 ≤ trial floorSqrt n p := by
  fun_induction trial floorSqrt n p with
  | case1 p hmod => exact hp
  | case2 p hmod hlt =>
      rcases Nat.eq_zero_or_pos n with rfl | hn
      · simp at h
      · rw [Nat.div_self hn] at h
        omega
  | case3 p hmod hlt ih =>
      refine ih ?_ h
      by_cases h4 : p = 4
      · subst h4
        decide
      · by_cases h2 : p = 2
        · subst h2
          decide
        · rw [nextTrial_other h4 h2]
          omega

end Trial

/-- `kf_factor` behind its square root: the radices from `p` on, each with the length that is
left. -/
def factorLoop (floorSqrt n p : Nat) (hp : 2 ≤ p) : List (Nat × Nat) :=
  if h : 1 < n / trial floorSqrt n p then
    (trial floorSqrt n p, n / trial floorSqrt n p) ::
      factorLoop floorSqrt (n / trial floorSqrt n p) (trial floorSqrt n p) (two_le_trial_of_lt hp h)
  else [(trial floorSqrt n p, n / trial floorSqrt n p)]
termination_by n
decreasing_by
  exact Nat.div_lt_self (Nat.pos_of_ne_zero fun h0 => by simp [h0] at h) (two_le_trial_of_lt hp h)

/-- `kf_factor`. -/
def kfFactor (n : Nat) : List (Nat × Nat) := factorLoop n.sqrt n 4 (by decide)

/-- The stages of a transform: each radix times the length below it is the length of the stage,
and the last stage ends at single values. -/
inductive Stages : Nat → List (Nat × Nat) → Prop
  | last {p : Nat} (hp : 0 < p) : Stages p [(p, 1)]
  | step {p m : Nat} {rest : List (Nat × Nat)} (hp : 0 < p) (hm : 1 < m) (h : Stages m rest) :
      Stages (p * m) ((p, m) :: rest)

section Loop
variable {floorSqrt n p : Nat} {hp : 2 ≤ p}

theorem trial_mul_div (h : Tried n p) (hn : n.sqrt ≤ floorSqrt) (h2 : 2 ≤ n) :
    trial floorSqrt n p * (n / trial floorSqrt n p) = n :=
  Nat.mul_div_cancel' (trial_spec h hn h2).1

/-- What one round keeps. -/
theorem factorLoop_spec (h : Tried n p) (hn : n.sqrt ≤ floorSqrt) (h2 : 2 ≤ n) :
    Stages n (factorLoop floorSqrt n p hp) ∧
      (∀ s ∈ factorLoop floorSqrt n p hp, s.1 = 4 ∨ s.1.Prime) ∧
      2 ^ (factorLoop floorSqrt n p hp).length ≤ n := by
  fun_induction factorLoop floorSqrt n p hp with
  | case1 n p hp hlt ih =>
      obtain ⟨hdvd, hradix, htried⟩ := trial_spec h hn h2
      have hq := two_le_trial_of_lt hp hlt
      have hmul := trial_mul_div h hn h2
      set q := trial floorSqrt n p
      set m := n / q
      have hm : m ∣ n := ⟨q, by rw [mul_comm, hmul]⟩
      have hle : m ≤ n := Nat.le_of_dvd (by omega) hm
      obtain ⟨hstages, hall, hlen⟩ :=
        ih (htried.of_dvd hm) ((Nat.sqrt_le_sqrt hle).trans hn) (by omega)
      refine ⟨?_, ?_, ?_⟩
      · have := Stages.step (p := q) (by omega) hlt hstages
        rwa [hmul] at this
      · intro s hs
        rcases List.mem_cons.mp hs with rfl | hs
        · exact hradix
        · exact hall s hs
      · rw [List.length_cons, pow_succ, mul_comm]
        calc
          2 * 2 ^ _ ≤ q * m := Nat.mul_le_mul hq hlen
          _ = n := hmul
  | case2 n p hp hlt =>
      obtain ⟨hdvd, hradix, -⟩ := trial_spec h hn h2
      have hmul := trial_mul_div h hn h2
      set q := trial floorSqrt n p
      have hone : n / q = 1 := by
        refine le_antisymm (not_lt.mp hlt) (Nat.pos_of_ne_zero fun h0 => ?_)
        rw [h0, mul_zero] at hmul
        omega
      rw [hone, mul_one] at hmul
      rw [hone, hmul]
      refine ⟨.last (by omega), fun s hs => ?_, ?_⟩
      · rw [List.mem_singleton.mp hs, ← hmul]
        exact hradix
      · simpa using h2

end Loop

/-- The stages that `kf_factor` writes multiply to the length, their radices are four or primes,
and the buffer for them is never full. -/
theorem kfFactor_spec {n : Nat} (h2 : 2 ≤ n) :
    Stages n (kfFactor n) ∧ (∀ s ∈ kfFactor n, s.1 = 4 ∨ s.1.Prime) ∧
      2 ^ (kfFactor n).length ≤ n :=
  factorLoop_spec (.inl rfl) le_rfl h2

/-- `MAXFACTORS`. -/
def maxFactors : Nat := 32

/-- For every length an `int` can hold the stages multiply to it, with radices that are four or
primes, and they fit the buffer of a plan. -/
theorem kf_factor_fits {n : Nat} (h2 : 2 ≤ n) (hint : n < 2 ^ 31) :
    Stages n (kfFactor n) ∧ (∀ s ∈ kfFactor n, s.1 = 4 ∨ s.1.Prime) ∧
      (kfFactor n).length ≤ maxFactors := by
  obtain ⟨hstages, hradix, hlength⟩ := kfFactor_spec h2
  refine ⟨hstages, hradix, ?_⟩
  have hlt : (kfFactor n).length < 31 :=
    (Nat.pow_lt_pow_iff_right (by decide)).mp (hlength.trans_lt hint)
  rw [maxFactors]
  omega

theorem kf_factor_fits_of_twelve :
    2 ≤ 12 ∧ 12 < 2 ^ 31 ∧ Stages 12 (kfFactor 12) ∧ (kfFactor 12).length ≤ maxFactors ∧
      kfFactor 12 = [(4, 3), (3, 1)] := by
  obtain ⟨hstages, -, hlength⟩ := kf_factor_fits (n := 12) (by decide) (by decide)
  exact ⟨by decide, by decide, hstages, hlength, by simp [kfFactor, factorLoop, trial, nextTrial]⟩

theorem kfFactor_one : kfFactor 1 = [(1, 1)] := by
  have htrial : trial 1 1 4 = 1 := by simp [trial, nextTrial]
  simp [kfFactor, factorLoop, htrial]

theorem stages_kfFactor {n : Nat} (h : 0 < n) : Stages n (kfFactor n) := by
  rcases Nat.eq_or_lt_of_le (Nat.succ_le_of_lt h) with rfl | h2
  · rw [kfFactor_one]
    exact .last one_pos
  · exact (kfFactor_spec h2).1

end JetsonVoice.KissFft
