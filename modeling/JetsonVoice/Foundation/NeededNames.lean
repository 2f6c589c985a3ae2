import JetsonVoice.Foundation.SingleAssignment

/-!
# Parts of a program of single assignments

Some of the statements of a program, kept in their order, run to the values of the
whole program from values that agree with it on the names the kept part needs. With
statements that keep different values apart, they do so from no others.
-/

namespace JetsonVoice.Foundation.SingleAssignment.Shape

variable {S X V : Type*} {sh : Shape S X}

/-- No statement reads a name that it or a later one binds. -/
def Ordered (sh : Shape S X) : List S → Prop
  | [] => True
  | s :: ss => (∀ x ∈ sh.reads s, x ∉ sh.bound (s :: ss)) ∧ Ordered sh ss

section Order
variable {known : List X} {ss ss' : List S}

theorem bound_sublist (h : ss'.Sublist ss) : (sh.bound ss').Sublist (sh.bound ss) := by
  induction h with
  | slnil => exact List.Sublist.refl _
  | cons s _ ih => exact ih.trans (List.sublist_append_right _ _)
  | cons_cons s _ ih => exact (List.Sublist.refl _).append ih

theorem Ordered.sublist (hs : ss'.Sublist ss) (h : sh.Ordered ss) : sh.Ordered ss' := by
  induction hs with
  | slnil => exact h
  | cons s _ ih => exact ih h.2
  | cons_cons s hs ih =>
      refine ⟨fun x hx hb => h.1 x hx ?_, ih h.2⟩
      exact (bound_sublist (hs.cons_cons s)).subset hb

/-- A program whose names are unique, new and known when they are read is in order. -/
theorem ordered_of_scoped (hn : (sh.bound ss).Nodup) (hnew : ∀ x ∈ sh.bound ss, x ∉ known)
    (h : sh.Scoped known ss) : sh.Ordered ss := by
  induction ss generalizing known with
  | nil => trivial
  | cons s ss ih =>
      rw [bound_cons, List.nodup_append] at hn
      refine ⟨fun x hx hb => hnew x hb (h.1 x hx), ih hn.2.1 (fun x hx hk => ?_) h.2⟩
      rcases List.mem_append.mp hk with hk | hb
      · exact hnew x (List.mem_append_right _ hx) hk
      · exact hn.2.2 x hb x hx rfl

/-- Values that agree on what is known, and through every statement on what it binds when
they do on what it reads, agree. -/
theorem Scoped.agree {E E' : X → Option V} (h : sh.Scoped known ss)
    (hknown : ∀ x ∈ known, E x = E' x)
    (hstep : ∀ s ∈ ss, (∀ y ∈ sh.reads s, E y = E' y) → ∀ x ∈ sh.binds s, E x = E' x) :
    ∀ x ∈ known ++ sh.bound ss, E x = E' x := by
  induction ss generalizing known with
  | nil => simpa using hknown
  | cons s ss ih =>
      have hbinds := hstep s List.mem_cons_self fun y hy => hknown y (h.1 y hy)
      have hnext : ∀ x ∈ known ++ sh.binds s, E x = E' x := fun x hx =>
        (List.mem_append.mp hx).elim (hknown x) (hbinds x)
      have hrest := ih h.2 hnext fun t ht => hstep t (List.mem_cons_of_mem s ht)
      rw [bound_cons, ← List.append_assoc]
      exact hrest

end Order

variable [DecidableEq X]

/-- The names whose values a program needs for those of some names behind it. -/
def needs (sh : Shape S X) : List S → List X → List X
  | [], outs => outs
  | s :: ss, outs =>
      let after := needs sh ss outs
      (if (sh.binds s).any (· ∈ after) then sh.reads s else []) ++
        after.filter (· ∉ sh.binds s)

section Needs
variable {outs : List X} {s : S} {ss : List S} {x : X}

theorem mem_needs_cons :
    x ∈ sh.needs (s :: ss) outs ↔
      (x ∈ sh.reads s ∧ ∃ b ∈ sh.binds s, b ∈ sh.needs ss outs) ∨
        (x ∈ sh.needs ss outs ∧ x ∉ sh.binds s) := by
  rw [needs, List.mem_append, List.mem_filter, decide_eq_true_eq]
  refine or_congr ?_ Iff.rfl
  split
  · rename_i h
    simpa using fun _ => by simpa using h
  · rename_i h
    simpa using fun _ => by simpa using h

/-- A needed name is read or looked at behind, and nothing binds it. -/
theorem needs_spec (ho : sh.Ordered ss) (hx : x ∈ sh.needs ss outs) :
    ((∃ s ∈ ss, x ∈ sh.reads s) ∨ x ∈ outs) ∧ x ∉ sh.bound ss := by
  induction ss with
  | nil => exact ⟨.inr hx, List.not_mem_nil⟩
  | cons s ss ih =>
      rcases mem_needs_cons.mp hx with ⟨hread, -⟩ | ⟨hafter, hnot⟩
      · exact ⟨.inl ⟨s, List.mem_cons_self, hread⟩, ho.1 x hread⟩
      · obtain ⟨hfrom, hb⟩ := ih ho.2 hafter
        refine ⟨?_, ?_⟩
        · rcases hfrom with ⟨t, ht, hread⟩ | hout
          · exact .inl ⟨t, List.mem_cons_of_mem s ht, hread⟩
          · exact .inr hout
        · rw [bound_cons, List.mem_append, not_or]
          exact ⟨hnot, hb⟩

end Needs

namespace Meaning

variable {m : sh.Meaning V}

/-- The values are those their statements give them from each other. -/
def Solves (m : sh.Meaning V) (E : X → Option V) (ss : List S) : Prop :=
  ∀ s ∈ ss, ∀ x ∈ sh.binds s, E x = m.exec s E x

/-- Every statement keeps different values of what it reads apart in what it binds. -/
def Separates (m : sh.Meaning V) (ss : List S) : Prop :=
  ∀ s ∈ ss, ∀ e e' x y, x ∈ sh.reads s → y ∈ sh.binds s → e x ≠ e' x → m.exec s e y ≠ m.exec s e' y

section Parts
variable {e e' E : X → Option V} {outs : List X} {ss : List S}

/-- A program in order ends with a solution of it. -/
theorem run_solves (ho : sh.Ordered ss) (hn : (sh.bound ss).Nodup) :
    m.Solves (m.run e ss) ss := by
  induction ss generalizing e with
  | nil => exact fun s hs => (List.not_mem_nil hs).elim
  | cons s ss ih =>
      rw [bound_cons, List.nodup_append] at hn
      intro t ht x hx
      rcases List.mem_cons.mp ht with rfl | ht
      · have hread : ∀ y ∈ sh.reads t, m.run e (t :: ss) y = e y :=
          fun y hy => run_of_not_bound (ho.1 y hy)
        rw [m.exec_congr t _ _ hread, run_cons, run_of_not_bound fun hb => hn.2.2 x hx x hb rfl,
          step_of_mem hx]
      · exact ih ho.2 hn.2.1 t ht x hx

/-- A program in order runs to the solution its start is part of. -/
theorem run_eq_solution (ho : sh.Ordered ss) (hE : m.Solves E ss)
    (he : ∀ x, x ∉ sh.bound ss → e x = E x) : m.run e ss = E := by
  induction ss generalizing e with
  | nil => exact funext fun x => he x List.not_mem_nil
  | cons s ss ih =>
      refine ih ho.2 (fun t ht => hE t (List.mem_cons_of_mem s ht)) fun x hx => ?_
      by_cases hb : x ∈ sh.binds s
      · rw [step_of_mem hb, hE s List.mem_cons_self x hb,
          m.exec_congr s e E fun y hy => he y (ho.1 y hy)]
      · rw [step_of_not_mem hb]
        refine he x ?_
        rw [bound_cons, List.mem_append, not_or]
        exact ⟨hb, hx⟩

/-- Values that agree on the needed names lead to the same values behind the program. -/
theorem run_congr_needs (h : ∀ x ∈ sh.needs ss outs, e x = e' x) :
    ∀ x ∈ outs, m.run e ss x = m.run e' ss x := by
  induction ss generalizing e e' with
  | nil => exact h
  | cons s ss ih =>
      refine ih fun x hx => ?_
      by_cases hb : x ∈ sh.binds s
      · rw [step_of_mem hb, step_of_mem hb]
        exact congrFun (m.exec_congr s e e' fun y hy =>
          h y (mem_needs_cons.mpr (.inl ⟨hy, x, hb, hx⟩))) x
      · rw [step_of_not_mem hb, step_of_not_mem hb]
        exact h x (mem_needs_cons.mpr (.inr ⟨hx, hb⟩))

/-- A difference in a needed name is still there behind a program that keeps values apart. -/
theorem exists_run_ne (hm : m.Separates ss) {x : X} (hx : x ∈ sh.needs ss outs)
    (hne : e x ≠ e' x) : ∃ y ∈ outs, m.run e ss y ≠ m.run e' ss y := by
  induction ss generalizing e e' x with
  | nil => exact ⟨x, hx, hne⟩
  | cons s ss ih =>
      have hrest : m.Separates ss := fun t ht => hm t (List.mem_cons_of_mem s ht)
      rcases mem_needs_cons.mp hx with ⟨hread, b, hb, hafter⟩ | ⟨hafter, hnot⟩
      · refine ih hrest hafter ?_
        rw [step_of_mem hb, step_of_mem hb]
        exact hm s List.mem_cons_self e e' x b hread hb hne
      · refine ih hrest hafter ?_
        rwa [step_of_not_mem hnot, step_of_not_mem hnot]

/-- A part of a program changes nothing where the whole has ended. -/
theorem run_part_end {part : List S} (ho : sh.Ordered ss) (hn : (sh.bound ss).Nodup)
    (hpart : part.Sublist ss) : m.run (m.run e ss) part = m.run e ss :=
  run_eq_solution (ho.sublist hpart) (fun s hs => run_solves ho hn s (hpart.subset hs))
    fun _ _ => rfl

/-- A part of a program gives what the whole gives to some names, when it starts from what
the whole gives to the names it needs. -/
theorem run_part {part : List S} (ho : sh.Ordered ss) (hn : (sh.bound ss).Nodup)
    (hpart : part.Sublist ss) (h : ∀ x ∈ sh.needs part outs, e' x = m.run e ss x) :
    ∀ x ∈ outs, m.run e' part x = m.run e ss x := by
  intro x hx
  rw [run_congr_needs h x hx, run_part_end ho hn hpart]

/-- From anything else, a part that keeps values apart gives something else. -/
theorem exists_run_part_ne {part : List S} (ho : sh.Ordered ss) (hn : (sh.bound ss).Nodup)
    (hpart : part.Sublist ss) (hm : m.Separates part) {x : X} (hx : x ∈ sh.needs part outs)
    (hne : e' x ≠ m.run e ss x) : ∃ y ∈ outs, m.run e' part y ≠ m.run e ss y := by
  obtain ⟨y, hy, hdiffers⟩ := exists_run_ne hm hx hne
  rw [run_part_end ho hn hpart] at hdiffers
  exact ⟨y, hy, hdiffers⟩

end Parts

end Meaning

end JetsonVoice.Foundation.SingleAssignment.Shape
