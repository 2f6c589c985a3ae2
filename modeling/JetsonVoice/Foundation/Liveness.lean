import JetsonVoice.Foundation.TransitionSystem
import Mathlib.Order.Filter.AtTopBot.Basic
import Mathlib.Order.OrderIsoNat

/-!
# Infinite runs

What a run does in the end is said with the filter of late times: `∀ᶠ n in atTop`
is "from some time on" and `∃ᶠ n in atTop` is "again and again". A measure that
no step raises settles on one value. If a thread that is never passed over would
still lower that value, the value is zero.
-/

namespace JetsonVoice.Foundation

open Filter

/-- A measure that does not grow from some time on settles. -/
theorem eventually_const {m : Nat → Nat} (mono : ∀ᶠ n in atTop, m (n + 1) ≤ m n) :
    ∃ c, ∀ᶠ n in atTop, m n = c := by
  obtain ⟨N, hN⟩ := eventually_atTop.mp mono
  have anti : Antitone fun k => m (N + k) :=
    antitone_nat_of_succ_le fun k => hN (N + k) (Nat.le_add_right N k)
  obtain ⟨K, hK⟩ := WellFoundedLT.antitone_chain_condition anti
  refine ⟨m (N + K), eventually_atTop.mpr ⟨N + K, fun n hn => ?_⟩⟩
  have hk := hK (n - N) (by omega)
  have hadd : N + (n - N) = n := by omega
  calc m n = m (N + (n - N)) := by rw [hadd]
    _ = m (N + K) := hk.symm

namespace TransitionSystem

variable {S L : Type*}

/-- An infinite run; without a label nothing happens. -/
structure Path (T : TransitionSystem S L) where
  state : Nat → S
  label : Nat → Option L
  start : state 0 = T.start
  next : ∀ n, (label n).elim (some (state n)) (T.step (state n)) = some (state (n + 1))

namespace Path

variable {T : TransitionSystem S L} (p : T.Path)

/-- Weak fairness: a group of labels of which one is enabled at every time from
some time on is taken again and again. -/
def Fair (own : L → Prop) : Prop :=
  (∀ᶠ n in atTop, ∃ l t, own l ∧ T.step (p.state n) l = some t) →
    ∃ᶠ n in atTop, ∃ l, own l ∧ p.label n = some l

/-- Every step meets a condition. -/
def Meets (ok : S → L → Prop) : Prop := ∀ {n l}, p.label n = some l → ok (p.state n) l

variable {p}

theorem step_of_label {n : Nat} {l : L} (h : p.label n = some l) :
    T.step (p.state n) l = some (p.state (n + 1)) := by
  have hn := p.next n
  rwa [h] at hn

theorem next_cases (n : Nat) : p.state (n + 1) = p.state n ∨
    ∃ l, p.label n = some l ∧ T.step (p.state n) l = some (p.state (n + 1)) := by
  cases h : p.label n with
  | none =>
      have hn := p.next n
      rw [h] at hn
      exact .inl (Option.some.inj hn).symm
  | some l => exact .inr ⟨l, rfl, step_of_label h⟩

theorem reachable (n : Nat) : T.Reachable (p.state n) := by
  induction n with
  | zero =>
      rw [p.start]
      exact .start
  | succ n ih =>
      rcases p.next_cases n with heq | ⟨l, -, hs⟩
      · rwa [heq]
      · exact ih.step hs

/-- An infinite run whose steps all meet a condition is one of the guarded system. -/
def restrict {ok : S → L → Prop} [∀ s l, Decidable (ok s l)] (p : T.Path) (h : p.Meets ok) :
    (T.guard ok).Path where
  state := p.state
  label := p.label
  start := p.start
  next n := by
    cases hl : p.label n with
    | none => simpa [hl] using p.next n
    | some l => exact guard_step.mpr ⟨h hl, step_of_label hl⟩

/-- An infinite run of the guarded system, as one of the system. -/
def unguard {ok : S → L → Prop} [∀ s l, Decidable (ok s l)] (p : (T.guard ok).Path) : T.Path where
  state := p.state
  label := p.label
  start := p.start
  next n := by
    cases hl : p.label n with
    | none => simpa [hl] using p.next n
    | some l => exact (guard_step.mp (step_of_label hl)).2

theorem unguard_meets {ok : S → L → Prop} [∀ s l, Decidable (ok s l)] (p : (T.guard ok).Path) :
    p.unguard.Meets ok := fun hl =>
  (guard_step.mp (step_of_label (T := T.guard ok) hl)).1

/-- What every step keeps holds from the first time on that it holds at. -/
theorem stays {P : S → Prop}
    (keep : ∀ {s l t}, T.Reachable s → P s → T.step s l = some t → P t) {n : Nat}
    (hn : P (p.state n)) {k : Nat} (hk : n ≤ k) : P (p.state k) := by
  induction k, hk using Nat.le_induction with
  | base => exact hn
  | succ k _ ih =>
      rcases p.next_cases k with heq | ⟨l, -, hs⟩
      · rwa [heq]
      · exact keep (p.reachable k) ih hs

theorem eventually_stays {P : S → Prop}
    (keep : ∀ {s l t}, T.Reachable s → P s → T.step s l = some t → P t)
    (h : ∃ n, P (p.state n)) : ∀ᶠ n in atTop, P (p.state n) := by
  obtain ⟨n, hn⟩ := h
  exact eventually_atTop.mpr ⟨n, fun k hk => stays keep hn hk⟩

/-- A measure that no step raises while a condition holds settles once it does. -/
theorem eventually_settles {P : S → Prop} {m : S → Nat}
    (mono : ∀ {s l t}, P s → T.step s l = some t → m t ≤ m s)
    (h : ∀ᶠ n in atTop, P (p.state n)) : ∃ c, ∀ᶠ n in atTop, m (p.state n) = c := by
  refine eventually_const (h.mono fun n hP => ?_)
  rcases p.next_cases n with heq | ⟨l, -, hs⟩
  · rw [heq]
  · exact mono hP hs

/-- While a measure that no step raises is positive, one label of the group is
enabled and lowers it: then a run that is fair to the group takes it to zero. -/
theorem Fair.eventually_zero {own : L → Prop} (hf : p.Fair own) {P : S → Prop} {m : S → Nat}
    (mono : ∀ {s l t}, P s → T.step s l = some t → m t ≤ m s)
    (enabled : ∀ {s}, P s → 0 < m s → ∃ l t, own l ∧ T.step s l = some t)
    (lower : ∀ {s l t}, P s → 0 < m s → own l → T.step s l = some t → m t < m s)
    (h : ∀ᶠ n in atTop, P (p.state n)) : ∀ᶠ n in atTop, m (p.state n) = 0 := by
  obtain ⟨c, hc⟩ := eventually_settles mono h
  rcases Nat.eq_zero_or_pos c with rfl | hpos
  · exact hc
  · have hen := hf <| (h.and hc).mono fun n ⟨hP, hm⟩ =>
      enabled hP (hm.symm ▸ hpos)
    -- The measure has settled, so no step of the group is left to be taken.
    obtain ⟨N, hN⟩ := eventually_atTop.mp (h.and hc)
    obtain ⟨n, hn, l, ho, hl⟩ := frequently_atTop.mp hen N
    have hlt := lower (hN n hn).1 ((hN n hn).2.symm ▸ hpos) ho (step_of_label hl)
    rw [(hN n hn).2, (hN (n + 1) (by omega)).2] at hlt
    exact absurd hlt (lt_irrefl c)

section Finite
variable {t : S} {ls : List L}

theorem run_take (h : T.run T.start ls = some t) (n : Nat) :
    ∃ u, T.run T.start (ls.take n) = some u := by
  have hsplit := run_append (T := T) T.start (ls.take n) (ls.drop n)
  rw [List.take_append_drop, h] at hsplit
  obtain ⟨u, hu, -⟩ := Option.bind_eq_some_iff.mp hsplit.symm
  exact ⟨u, hu⟩

/-- A listed run, with nothing after it. -/
def ofRun (ls : List L) (h : T.run T.start ls = some t) : T.Path where
  state n := (T.run T.start (ls.take n)).getD t
  label n := ls[n]?
  start := rfl
  next n := by
    obtain ⟨u, hu⟩ := run_take h n
    cases hl : ls[n]? with
    | none =>
        have hn := List.getElem?_eq_none_iff.mp hl
        simp [List.take_of_length_le hn, List.take_of_length_le (Nat.le_succ_of_le hn)]
    | some l =>
        obtain ⟨v, hv⟩ := run_take h (n + 1)
        have htake : ls.take (n + 1) = ls.take n ++ [l] := by simp [List.take_add_one, hl]
        obtain ⟨u', hu', hs⟩ := run_snoc.mp (htake ▸ hv)
        cases hu.symm.trans hu'
        simp [hu, hv, hs]

theorem state_ofRun {h : T.run T.start ls = some t} {n : Nat} (hn : ls.length ≤ n) :
    (ofRun ls h).state n = t := by
  simp [ofRun, List.take_of_length_le hn, h]

/-- A run that ends in one state is fair to what is not enabled there. -/
theorem fair_of_halted {p : T.Path} {N : Nat} (hp : ∀ n, N ≤ n → p.state n = t)
    {own : L → Prop} (hend : ∀ l, own l → T.step t l = none) : p.Fair own := by
  intro hen
  obtain ⟨M, hM⟩ := eventually_atTop.mp hen
  obtain ⟨l, u, ho, hs⟩ := hM (max M N) (Nat.le_max_left M N)
  rw [hp _ (Nat.le_max_right M N), hend l ho] at hs
  cases hs

end Finite

end Path

end TransitionSystem

end JetsonVoice.Foundation
