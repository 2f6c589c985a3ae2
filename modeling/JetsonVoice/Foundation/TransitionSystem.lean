import Mathlib.Data.List.Basic
import Mathlib.Logic.Relation

/-!
# Transition systems with a partial step function

A label carries every choice the modelled program does not make itself: which
thread moves, what a call outside the model returns, which input arrives next.
The step is then a partial function of state and label, so a run is a list of
labels and can be evaluated.

## Implementation notes

A condition on the steps of a run is not a separate notion of run. It is a
guard, and the runs whose steps all meet it are the runs of the guarded system.
-/

namespace JetsonVoice.Foundation

/-- One start state and a partial step; `none` means the label is not enabled. -/
structure TransitionSystem (S L : Type*) where
  start : S
  step : S → L → Option S

namespace TransitionSystem

variable {S L A M : Type*} (T : TransitionSystem S L)

/-- Perform a list of labels in order, failing at the first one not enabled. -/
def run (s : S) : List L → Option S
  | [] => some s
  | l :: ls => (T.step s l).bind fun t => run t ls

/-- `T.Leads s t` holds when some finite run takes `s` to `t`. -/
inductive Leads (s : S) : S → Prop
  | refl : Leads s s
  | tail {t u : S} {l : L} (h : Leads s t) (hs : T.step t l = some u) : Leads s u

/-- A state some run reaches from the start state. -/
def Reachable (s : S) : Prop := T.Leads T.start s

/-- The runs of `T.guard ok` are the runs of `T` whose steps all meet `ok`. -/
def guard (ok : S → L → Prop) [∀ s l, Decidable (ok s l)] : TransitionSystem S L where
  start := T.start
  step s l := if ok s l then T.step s l else none

/-- A predicate that holds at the start and is kept by every step. -/
structure Invariant (I : S → Prop) : Prop where
  start : I T.start
  step : ∀ {s l t}, I s → T.step s l = some t → I t

variable {T}

theorem run_append (s : S) (ls ms : List L) :
    T.run s (ls ++ ms) = (T.run s ls).bind fun t => T.run t ms := by
  induction ls generalizing s with
  | nil => rfl
  | cons l ls ih => simp only [List.cons_append, run, Option.bind_assoc, ih]

/-- A run that ends with a label ends with its step. -/
theorem run_snoc {s t : S} {ls : List L} {l : L} :
    T.run s (ls ++ [l]) = some t ↔ ∃ u, T.run s ls = some u ∧ T.step u l = some t := by
  simp [run_append, run, Option.bind_eq_some_iff]

theorem Leads.trans {s t u : S} (h : T.Leads s t) (h' : T.Leads t u) : T.Leads s u := by
  induction h' with
  | refl => exact h
  | tail _ hs ih => exact ih.tail hs

theorem Leads.single {s t : S} {l : L} (hs : T.step s l = some t) : T.Leads s t :=
  Leads.refl.tail hs

theorem Leads.head {s t u : S} {l : L} (hs : T.step s l = some t) (h : T.Leads t u) :
    T.Leads s u :=
  (Leads.single hs).trans h

/-- What one step keeps, a whole run keeps. -/
theorem Leads.preserves {I : S → Prop} {s t : S} (h : T.Leads s t) (hs : I s)
    (hstep : ∀ {a l b}, I a → T.step a l = some b → I b) : I t := by
  induction h with
  | refl => exact hs
  | tail _ hl ih => exact hstep ih hl

/-- A listed run is a run. -/
theorem leads_of_run {s t : S} (ls : List L) (h : T.run s ls = some t) : T.Leads s t := by
  induction ls generalizing s with
  | nil =>
      obtain rfl : s = t := by simpa [run] using h
      exact .refl
  | cons l ls ih =>
      obtain ⟨u, hu, ht⟩ := Option.bind_eq_some_iff.mp h
      exact (ih ht).head hu

theorem Reachable.start : T.Reachable T.start := Leads.refl

theorem Reachable.step {s t : S} {l : L} (h : T.Reachable s) (hs : T.step s l = some t) :
    T.Reachable t :=
  Leads.tail h hs

theorem Reachable.leads {s t : S} (h : T.Reachable s) (hl : T.Leads s t) : T.Reachable t :=
  Leads.trans h hl

theorem reachable_of_run {t : S} (ls : List L) (h : T.run T.start ls = some t) :
    T.Reachable t :=
  leads_of_run ls h

/-- A run that can be evaluated and ends in a state with a decidable property. -/
theorem exists_reachable (p : S → Prop) [DecidablePred p] (ls : List L)
    (h : (T.run T.start ls).any (fun s => p s) = true) : ∃ s, T.Reachable s ∧ p s := by
  obtain ⟨s, hs, hp⟩ := (Option.any_eq_true _ _).mp h
  exact ⟨s, reachable_of_run ls hs, of_decide_eq_true hp⟩

/-- An invariant holds in every reachable state. -/
theorem Invariant.of_reachable {I : S → Prop} (inv : T.Invariant I) {s : S}
    (h : T.Reachable s) : I s :=
  Leads.preserves h inv.start inv.step

/-- An invariant may use, at every step, an invariant established before it. -/
theorem Invariant.relative {I J : S → Prop} (inv : T.Invariant I) (start : J T.start)
    (step : ∀ {s l t}, I s → J s → T.step s l = some t → J t) :
    T.Invariant fun s => I s ∧ J s :=
  ⟨⟨inv.start, start⟩, fun h hs => ⟨inv.step h.1 hs, step h.1 h.2 hs⟩⟩

section Guard
variable {ok : S → L → Prop} [∀ s l, Decidable (ok s l)]

theorem guard_step {s t : S} {l : L} :
    (T.guard ok).step s l = some t ↔ ok s l ∧ T.step s l = some t := by
  simp [guard]

/-- Restricting the steps only removes runs. -/
theorem Leads.of_guard {s t : S} (h : (T.guard ok).Leads s t) : T.Leads s t := by
  induction h with
  | refl => exact .refl
  | tail _ hs ih => exact ih.tail (guard_step.mp hs).2

theorem Reachable.of_guard {s : S} (h : (T.guard ok).Reachable s) : T.Reachable s :=
  Leads.of_guard h

theorem Invariant.guard {I : S → Prop} (inv : T.Invariant I) : (T.guard ok).Invariant I :=
  ⟨inv.start, fun h hs => inv.step h (guard_step.mp hs).2⟩

/-- When a step spoils a good state exactly if it breaks the guard, the runs of
the guarded system are the runs that end in a good state. -/
theorem guard_run_iff {I : S → Prop} (good : S → Prop)
    (keep : ∀ {s l t}, I s → T.step s l = some t → I t)
    (spoil : ∀ {s l t}, I s → T.step s l = some t → (good t ↔ good s ∧ ok s l))
    {s t : S} {ls : List L} (hs : I s) (hgood : good s) :
    (T.guard ok).run s ls = some t ↔ T.run s ls = some t ∧ good t := by
  have hspoilt {s t : S} {ls : List L} (hs : I s) (hrun : T.run s ls = some t) (ht : good t) :
      good s := by
    induction ls generalizing s with
    | nil =>
        obtain rfl : s = t := by simpa [run] using hrun
        exact ht
    | cons l ls ih =>
        obtain ⟨u, hu, hrest⟩ := Option.bind_eq_some_iff.mp hrun
        exact ((spoil hs hu).mp (ih (keep hs hu) hrest)).1
  induction ls generalizing s with
  | nil =>
      simp only [run, Option.some.injEq]
      exact ⟨fun h => ⟨h, h ▸ hgood⟩, And.left⟩
  | cons l ls ih =>
      simp only [run, Option.bind_eq_some_iff, guard_step]
      constructor
      · rintro ⟨u, ⟨hok, hu⟩, hrest⟩
        obtain ⟨hrun, ht⟩ := (ih (keep hs hu) ((spoil hs hu).mpr ⟨hgood, hok⟩)).mp hrest
        exact ⟨⟨u, hu, hrun⟩, ht⟩
      · rintro ⟨⟨u, hu, hrun⟩, ht⟩
        have hgood' := hspoilt (keep hs hu) hrun ht
        exact ⟨u, ⟨((spoil hs hu).mp hgood').2, hu⟩, (ih (keep hs hu) hgood').mpr ⟨hrun, ht⟩⟩

end Guard

section Ranking

/-- Along steps that all lower a measure, a run is no longer than the measure
of the state it starts from. -/
theorem run_length_le {m : S → Nat} {I : S → Prop}
    (keep : ∀ {s l t}, I s → T.step s l = some t → I t)
    (lower : ∀ {s l t}, I s → T.step s l = some t → m t < m s)
    {s t : S} {ls : List L} (hs : I s) (h : T.run s ls = some t) : ls.length ≤ m s := by
  induction ls generalizing s with
  | nil => simp
  | cons l ls ih =>
      obtain ⟨u, hu, ht⟩ := Option.bind_eq_some_iff.mp h
      have hlen := ih (keep hs hu) ht
      have hlow := lower hs hu
      simp only [List.length_cons]
      omega

end Ranking

section Simulation

/-- Every step of `T` is, under `view`, a step of `B` or no change. -/
structure Simulation (T : TransitionSystem S L) (B : TransitionSystem A M) (view : S → A) :
    Prop where
  start : view T.start = B.start
  step : ∀ {s l t}, T.Reachable s → T.step s l = some t →
    view t = view s ∨ ∃ m, B.step (view s) m = some (view t)

variable {B : TransitionSystem A M} {view : S → A}

/-- Simulation carries runs to the more abstract system. -/
theorem Simulation.leads (sim : Simulation T B view) {s t : S} (hs : T.Reachable s)
    (h : T.Leads s t) : B.Leads (view s) (view t) := by
  induction h with
  | refl => exact .refl
  | tail hl hstep ih =>
      rcases sim.step (hs.leads hl) hstep with he | ⟨m, hm⟩
      · exact he ▸ ih
      · exact ih.tail hm

/-- Simulation carries reachability to the more abstract system. -/
theorem Simulation.reachable (sim : Simulation T B view) {s : S} (h : T.Reachable s) :
    B.Reachable (view s) := by
  have hl := sim.leads .start h
  rwa [sim.start] at hl

end Simulation

end TransitionSystem

end JetsonVoice.Foundation
