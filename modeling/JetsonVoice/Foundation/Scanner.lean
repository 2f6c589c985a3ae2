import Mathlib.Data.List.Basic

/-!
# Scanners that are fed piece by piece

A scanner takes steps, each with some output, until it needs more input. What it
has not read yet is part of its state, and `push` adds to it.

## Implementation notes

A step may throw away all the input the scanner has (`Drops`). Input that comes
afterwards is read, input that was there already is not.
-/

namespace JetsonVoice.Foundation

/-- A partial step with output, and a way to add input to a state. -/
structure Scanner (S I O : Type*) where
  advance : S → Option (List O × S)
  push : S → List I → S

namespace Scanner

variable {S I O : Type*} (P : Scanner S I O)

/-- The steps from a state to one that needs input, with what they put out. -/
inductive Scans : S → List O → S → Prop
  | stop {s : S} (h : P.advance s = none) : Scans s [] s
  | step {s t u : S} {os ps : List O} (h : P.advance s = some (os, t)) (ht : Scans t ps u) :
      Scans s (os ++ ps) u

/-- The steps of a scan, so many at most. -/
def scan : Nat → S → List O × S
  | 0, s => ([], s)
  | n + 1, s =>
      match P.advance s with
      | none => ([], s)
      | some (os, t) => (os ++ (scan n t).1, (scan n t).2)

variable {P} {s t u : S} {os ps : List O} {c : List I}

/-- A step without output. -/
theorem Scans.silent (h : P.advance s = some ([], t)) (ht : P.Scans t os u) : P.Scans s os u :=
  .step h ht

/-- A step with one item of output. -/
theorem Scans.emit {o : O} (h : P.advance s = some ([o], t)) (ht : P.Scans t os u) :
    P.Scans s (o :: os) u :=
  .step h ht

theorem Scans.stopped (h : P.Scans s os t) : P.advance t = none := by
  induction h with
  | stop h => exact h
  | step _ _ ih => exact ih

/-- A scanner that needs input has done its scan. -/
theorem Scans.of_stopped (h : P.Scans s os t) (hs : P.advance s = none) : os = [] ∧ t = s := by
  cases h with
  | stop _ => exact ⟨rfl, rfl⟩
  | step h' _ =>
      rw [hs] at h'
      cases h'

/-- States with the same next step have the same scan. -/
theorem Scans.congr {s' : S} (h : P.Scans s os t) (hadv : P.advance s' = P.advance s)
    (hs : (P.advance s).isSome = true) : P.Scans s' os t := by
  cases h with
  | stop h' => simp [h'] at hs
  | step h' ht => exact .step (hadv.trans h') ht

/-- Along steps that lower a measure, the scan exists and is found within it. -/
theorem scans_scan {m : S → Nat} (lower : ∀ {s os t}, P.advance s = some (os, t) → m t < m s)
    {n : Nat} (hn : m s < n) : P.Scans s (P.scan n s).1 (P.scan n s).2 := by
  induction n generalizing s with
  | zero => omega
  | succ n ih =>
      simp only [scan]
      cases hadv : P.advance s with
      | none => exact .stop hadv
      | some r =>
          obtain ⟨os, t⟩ := r
          have hlt := lower hadv
          exact .step hadv (ih (by omega))

theorem Scans.unique {os' : List O} {t' : S} (h : P.Scans s os t) (h' : P.Scans s os' t') :
    os = os' ∧ t = t' := by
  induction h generalizing os' with
  | stop hs => exact ((h'.of_stopped hs).imp Eq.symm Eq.symm)
  | step hs _ ih =>
      cases h' with
      | stop hs' =>
          rw [hs'] at hs
          cases hs
      | step hs' ht' =>
          obtain ⟨rfl, rfl⟩ := Prod.mk.inj (Option.some.inj (hs.symm.trans hs'))
          obtain ⟨rfl, rfl⟩ := ih ht'
          exact ⟨rfl, rfl⟩

section Push

/-- A step drops or keeps the input that comes with it: a state in `D` is reached
with the input gone and needs more, any other step leaves what was added. -/
structure Drops (P : Scanner S I O) (D : S → Prop) : Prop where
  stopped : ∀ {s}, D s → P.advance s = none
  keeps : ∀ {s t os} (c : List I), P.advance s = some (os, t) → ¬ D t →
    P.advance (P.push s c) = some (os, P.push t c)
  drops : ∀ {s t os} (c : List I), P.advance s = some (os, t) → D t →
    P.advance (P.push s c) = some (os, t)

variable {D : S → Prop}

/-- A scan that drops nothing goes on with the input that was added. -/
theorem Scans.push (hD : P.Drops D) (h : P.Scans s os t) (ht : ¬ D t)
    (hu : P.Scans (P.push t c) ps u) : P.Scans (P.push s c) (os ++ ps) u := by
  induction h with
  | stop _ => exact hu
  | step hs hrest ih =>
      rename_i s t' t os os'
      have ht' : ¬ D t' := fun hd => ht ((hrest.of_stopped (hD.stopped hd)).2 ▸ hd)
      rw [List.append_assoc]
      exact .step (hD.keeps c hs ht') (ih ht hu)

/-- A scan that ends by dropping its input drops what was added, too. -/
theorem Scans.push_dropped (hD : P.Drops D) (h : P.Scans s os t) (hs : ¬ D s) (ht : D t) :
    P.Scans (P.push s c) os t := by
  induction h with
  | stop _ => exact absurd ht hs
  | step hadv hrest ih =>
      rename_i s t' t os os'
      by_cases hd : D t'
      · exact .step (hD.drops c hadv hd) hrest
      · exact .step (hD.keeps c hadv hd) (ih hd ht)

end Push

end Scanner

end JetsonVoice.Foundation
