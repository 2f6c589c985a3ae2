import JetsonVoice.Foundation.TransitionSystem
import Mathlib.Data.List.Induction

/-!
# Programs with a read loop

A program reads items from its input between its other steps. An exception that
escapes the loop while it handles an item ends the process, whatever else the
process was doing.
-/

namespace JetsonVoice.Foundation

/-- A program that reads items; its states, its input items and its other steps. -/
structure ReadLoop (S I L : Type*) where
  start : S
  /-- The loop is at its read. -/
  ready : S → Bool
  /-- The loop's body for one item; `none` when an exception escapes it. -/
  handle : S → I → Option S
  /-- The steps that read nothing; `none` when one is not enabled. -/
  other : S → L → Option S

/-- A process that runs its program, or has ended on an exception. -/
inductive Process (S : Type*) where
  | alive (s : S)
  | ended
  deriving DecidableEq

namespace ReadLoop

/-- What happens next: an item reaches the loop, or another step is taken. -/
inductive Label (I L : Type*) where
  | item (i : I)
  | other (l : L)

variable {S I L M : Type*} (R : ReadLoop S I L)

/-- The process of a program. Nothing happens after its end. -/
def system : TransitionSystem (Process S) (Label I L) where
  start := .alive R.start
  step
    | .alive s, .item i => if R.ready s then some ((R.handle s i).elim .ended .alive) else none
    | .alive s, .other l => (R.other s l).map .alive
    | .ended, _ => none

/-- The run `ls` of the process reads the item `i` in the state `s`. -/
def Reads (ls : List (Label I L)) (s : S) (i : I) : Prop :=
  ∃ before after, ls = before ++ .item i :: after ∧ R.ready s = true ∧
    R.system.run R.system.start before = some (.alive s)

/-- A run that ends in `p` has outlived its items, and each bad one left the
state as it was, in the sense of `same`. -/
structure Survives (bad : I → Prop) (same : S → S → Prop) (ls : List (Label I L))
    (p : Process S) : Prop where
  alive : p ≠ .ended
  kept : ∀ {s i s'}, R.Reads ls s i → bad i → R.handle s i = some s' → same s s'

variable {R} {ls : List (Label I L)} {l : Label I L} {s s' : S} {i : I} {p : Process S}

theorem not_reads_nil : ¬ R.Reads [] s i := by
  rintro ⟨before, after, hls, -⟩
  simp at hls

/-- The last label of a run adds at most the item it reads. -/
theorem reads_snoc (hrun : R.system.run R.system.start ls = some (.alive s)) :
    R.Reads (ls ++ [l]) s' i ↔
      R.Reads ls s' i ∨ (l = .item i ∧ R.ready s = true ∧ s' = s) := by
  constructor
  · rintro ⟨before, after, hls, hready, hbefore⟩
    rcases List.eq_nil_or_concat after with rfl | ⟨rest, l', rfl⟩
    · obtain ⟨rfl, hl⟩ := List.append_inj' hls rfl
      obtain rfl : l = .item i := by simpa using hl
      obtain rfl : s = s' := by simpa using hrun.symm.trans hbefore
      exact .inr ⟨rfl, hready, rfl⟩
    · have hls' : ls ++ [l] = (before ++ .item i :: rest) ++ [l'] := by simpa using hls
      obtain ⟨rfl, -⟩ := List.append_inj' hls' rfl
      exact .inl ⟨before, rest, rfl, hready, hbefore⟩
  · rintro (⟨before, after, rfl, hready, hbefore⟩ | ⟨rfl, hready, rfl⟩)
    · exact ⟨before, after ++ [l], by simp, hready, hbefore⟩
    · exact ⟨ls, [], rfl, hready, hrun⟩

theorem reads_singleton (h : R.Reads [l] s i) : l = .item i := by
  have hsnoc : R.Reads ([] ++ [l]) s i := h
  rcases (reads_snoc rfl).mp hsnoc with h | ⟨hl, -⟩
  · exact absurd h not_reads_nil
  · exact hl

/-- What the first item of the input does to the process. -/
theorem run_item (hready : R.ready R.start = true) :
    R.system.run R.system.start [.item i] = some ((R.handle R.start i).elim .ended .alive) := by
  simp [TransitionSystem.run, system, hready]

/-- An item that throws at once ends the process. -/
theorem run_ended (hready : R.ready R.start = true) (h : ¬ (R.handle R.start i).isSome = true) :
    R.system.run R.system.start [.item i] = some .ended := by
  rw [run_item hready, Option.not_isSome_iff_eq_none.mp h, Option.elim_none]

/-- A process is alive after a run if and only if no item read in it threw. -/
theorem alive_iff (hrun : R.system.run R.system.start ls = some p) :
    p ≠ .ended ↔ ∀ s i, R.Reads ls s i → (R.handle s i).isSome = true := by
  induction ls using List.reverseRecOn generalizing p with
  | nil =>
      obtain rfl : Process.alive R.start = p := by simpa [TransitionSystem.run, system] using hrun
      simp [not_reads_nil]
  | append_singleton ls l ih =>
      obtain ⟨q, hq, hstep⟩ := TransitionSystem.run_snoc.mp hrun
      cases q with
      | ended => simp [system] at hstep
      | alive s =>
          have hbefore := (ih hq).mp (by simp)
          have hread : (∀ s' i, R.Reads (ls ++ [l]) s' i → (R.handle s' i).isSome = true) ↔
              ∀ i, l = .item i → R.ready s = true → (R.handle s i).isSome = true := by
            constructor
            · intro h i hl hready
              exact h s i ((reads_snoc hq).mpr (.inr ⟨hl, hready, rfl⟩))
            · intro h s' i hr
              rcases (reads_snoc hq).mp hr with hr | ⟨hl, hready, rfl⟩
              · exact hbefore s' i hr
              · exact h i hl hready
          rw [hread]
          cases l with
          | item i =>
              simp only [system] at hstep
              split at hstep
              · rename_i hready
                cases hh : R.handle s i with
                | none =>
                    obtain rfl : Process.ended = p := by simpa [hh] using hstep
                    simp [hready, hh]
                | some t =>
                    obtain rfl : Process.alive t = p := by simpa [hh] using hstep
                    simp [hready, hh]
              · cases hstep
          | other l =>
              obtain ⟨t, -, rfl⟩ := Option.map_eq_some_iff.mp hstep
              simp

/-- When `ok` says which items are handled and bad items change nothing, a run
survives if and only if every item it reads is one of those. -/
theorem survives_iff {ok : S → I → Prop} {bad : I → Prop} {same : S → S → Prop}
    (hok : ∀ s i, (R.handle s i).isSome = true ↔ ok s i)
    (hsame : ∀ {s i s'}, bad i → R.handle s i = some s' → same s s')
    (hrun : R.system.run R.system.start ls = some p) :
    R.Survives bad same ls p ↔ ∀ s i, R.Reads ls s i → ok s i := by
  constructor
  · intro h s i hr
    exact (hok s i).mp ((alive_iff hrun).mp h.alive s i hr)
  · intro h
    constructor
    · apply (alive_iff hrun).mpr
      intro s i hr
      exact (hok s i).mpr (h s i hr)
    · intro s i s' _ hbad hs
      exact hsame hbad hs

/-- While a process is alive it is in a state of any system that has its steps. -/
theorem reachable_of_alive {T : TransitionSystem S M} (hstart : R.start = T.start)
    (hhandle : ∀ {s i s'}, R.ready s = true → R.handle s i = some s' → T.Leads s s')
    (hother : ∀ {s l s'}, R.other s l = some s' → T.Leads s s')
    (h : R.system.Reachable (.alive s)) : T.Reachable s := by
  have key : ∀ p, R.system.Reachable p → ∀ s, p = .alive s → T.Reachable s := by
    intro p hp
    induction hp with
    | refl =>
        intro s hs
        obtain rfl : R.start = s := by simpa [system] using hs
        exact hstart ▸ .start
    | @tail q p l _ hs ih =>
        rintro s rfl
        cases q with
        | ended => simp [system] at hs
        | alive t =>
            cases l with
            | item i =>
                simp only [system] at hs
                split at hs
                · rename_i hready
                  cases hh : R.handle t i with
                  | none => simp [hh] at hs
                  | some u =>
                      obtain rfl : u = s := by simpa [hh] using hs
                      exact (ih t rfl).leads (hhandle hready hh)
                · cases hs
            | other l =>
                obtain ⟨u, hu, hus⟩ := Option.map_eq_some_iff.mp hs
                cases hus
                exact (ih t rfl).leads (hother hu)
  exact key _ h s rfl

end ReadLoop

end JetsonVoice.Foundation
