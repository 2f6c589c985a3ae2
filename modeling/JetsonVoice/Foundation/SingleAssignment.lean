import Mathlib.Data.List.Basic
import Mathlib.Data.List.Nodup

/-!
# Programs of single assignments

A program is a list of statements. Each reads names, binds names that were not
bound before, and may bind names of its own inside itself. A rewriting replaces
every statement by a block of statements.
-/

namespace JetsonVoice.Foundation.SingleAssignment

/-- The names a statement reads, those it binds, and those bound inside it. -/
structure Shape (S X : Type*) where
  reads : S → List X
  binds : S → List X
  hides : S → List X

namespace Shape
variable {S X A : Type*} (sh : Shape S X)

/-- The names bound by the statements of a program. -/
def bound (ss : List S) : List X := ss.flatMap sh.binds

/-- Every statement meets a condition on itself and the names known before it. -/
def AtEach (P : List X → S → Prop) (known : List X) : List S → Prop
  | [] => True
  | s :: ss => P known s ∧ AtEach P (known ++ sh.binds s) ss

/-- Every name read is known before. -/
def Scoped : List X → List S → Prop := sh.AtEach fun known s => ∀ x ∈ sh.reads s, x ∈ known

/-- No name bound inside a statement is known before it. -/
def Unshadowed : List X → List S → Prop := sh.AtEach fun known s => ∀ x ∈ sh.hides s, x ∉ known

section Lemmas
variable {sh} {P Q : List X → S → Prop} {known known' : List X} {s : S} {ss ss' : List S}

@[simp] theorem bound_nil : sh.bound [] = [] := rfl

@[simp] theorem bound_cons : sh.bound (s :: ss) = sh.binds s ++ sh.bound ss := rfl

@[simp] theorem bound_append : sh.bound (ss ++ ss') = sh.bound ss ++ sh.bound ss' := by
  simp [bound]

theorem atEach_append :
    sh.AtEach P known (ss ++ ss') ↔
      sh.AtEach P known ss ∧ sh.AtEach P (known ++ sh.bound ss) ss' := by
  induction ss generalizing known with
  | nil => simp [AtEach]
  | cons s ss ih => simp [AtEach, ih, and_assoc]

/-- The condition at every statement, with what stands before and behind it. -/
theorem atEach_iff :
    sh.AtEach P known ss ↔
      ∀ before s behind, ss = before ++ s :: behind → P (known ++ sh.bound before) s := by
  constructor
  · rintro h before s behind rfl
    exact (atEach_append.mp h).2.1
  · intro h
    induction ss generalizing known with
    | nil => trivial
    | cons s ss ih =>
        refine ⟨by simpa using h [] s ss rfl, ih fun before t behind hss => ?_⟩
        simpa using h (s :: before) t behind (by rw [hss, List.cons_append])

theorem bound_map {f : S → S} (hb : ∀ s ∈ ss, sh.binds (f s) = sh.binds s) :
    sh.bound (ss.map f) = sh.bound ss := by
  induction ss with
  | nil => rfl
  | cons s ss ih =>
      rw [List.map_cons, bound_cons, bound_cons, hb s List.mem_cons_self,
        ih fun t ht => hb t (List.mem_cons_of_mem s ht)]

/-- Changing statements without changing what they bind. -/
theorem atEach_map {f : S → S} (hb : ∀ s ∈ ss, sh.binds (f s) = sh.binds s) :
    sh.AtEach P known (ss.map f) ↔ sh.AtEach (fun known s => P known (f s)) known ss := by
  induction ss generalizing known with
  | nil => exact Iff.rfl
  | cons s ss ih =>
      rw [List.map_cons, AtEach, AtEach, hb s List.mem_cons_self,
        ih fun t ht => hb t (List.mem_cons_of_mem s ht)]

/-- A rewritten program meets a condition when every block does where it stands. -/
theorem atEach_flatMap {block : A → List S} {plan : List A} :
    sh.AtEach P known (plan.flatMap block) ↔
      ∀ before a behind, plan = before ++ a :: behind →
        sh.AtEach P (known ++ sh.bound (before.flatMap block)) (block a) := by
  constructor
  · rintro h before a behind rfl
    rw [List.flatMap_append, List.flatMap_cons, atEach_append, atEach_append] at h
    exact h.2.1
  · intro h
    induction plan generalizing known with
    | nil => trivial
    | cons a plan ih =>
        rw [List.flatMap_cons, atEach_append]
        refine ⟨by simpa using h [] a plan rfl, ih fun before b behind hplan => ?_⟩
        have := h (a :: before) b behind (by rw [hplan, List.cons_append])
        simpa using this

end Lemmas

/-- What statements mean: the values of the names they bind, from those they read. -/
structure Meaning (V : Type*) where
  exec : S → (X → Option V) → X → Option V
  exec_congr : ∀ s e e', (∀ x ∈ sh.reads s, e x = e' x) → exec s e = exec s e'

namespace Meaning
variable {V : Type*} [DecidableEq X] {sh} (m : sh.Meaning V)

/-- The values after a statement. -/
def step (e : X → Option V) (s : S) : X → Option V := fun x =>
  if x ∈ sh.binds s then m.exec s e x else e x

/-- The values after a program. -/
def run (e : X → Option V) (ss : List S) : X → Option V := ss.foldl m.step e

section Runs
variable {m} {e e' : X → Option V} {s : S} {ss ss' : List S} {x : X}

@[simp] theorem run_nil : m.run e [] = e := rfl

@[simp] theorem run_cons : m.run e (s :: ss) = m.run (m.step e s) ss := rfl

theorem run_append : m.run e (ss ++ ss') = m.run (m.run e ss) ss' := List.foldl_append

theorem step_of_mem (h : x ∈ sh.binds s) : m.step e s x = m.exec s e x := if_pos h

theorem step_of_not_mem (h : x ∉ sh.binds s) : m.step e s x = e x := if_neg h

/-- A program changes no name it does not bind. -/
theorem run_of_not_bound (h : x ∉ sh.bound ss) : m.run e ss x = e x := by
  induction ss generalizing e with
  | nil => rfl
  | cons s ss ih =>
      rw [bound_cons, List.mem_append, not_or] at h
      rw [run_cons, ih h.2, step_of_not_mem h.1]

end Runs

/-- Blocks that agree with the statements they replace make programs that agree,
on the names looked at and under an invariant of the rewritten run. -/
theorem run_agree {sh' : Shape A X} {m' : sh'.Meaning V} {block : A → List S} {K : X → Prop}
    {I : (X → Option V) → Prop} {plan : List A}
    (hstep : ∀ a ∈ plan, ∀ e e', (∀ x, K x → e x = e' x) → I e' →
      (∀ x, K x → m'.step e a x = m.run e' (block a) x) ∧ I (m.run e' (block a)))
    {e e' : X → Option V} (he : ∀ x, K x → e x = e' x) (hI : I e') :
    (∀ x, K x → m'.run e plan x = m.run e' (plan.flatMap block) x) ∧
      I (m.run e' (plan.flatMap block)) := by
  induction plan generalizing e e' with
  | nil => exact ⟨he, hI⟩
  | cons a plan ih =>
      rw [List.flatMap_cons, run_append, run_cons]
      obtain ⟨ha, hIa⟩ := hstep a List.mem_cons_self e e' he hI
      exact ih (fun b hb => hstep b (List.mem_cons_of_mem a hb)) ha hIa

end Meaning

end Shape

end JetsonVoice.Foundation.SingleAssignment
