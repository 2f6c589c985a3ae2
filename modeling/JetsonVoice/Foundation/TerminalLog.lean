import Mathlib.Data.List.Perm.Basic

/-!
# Logs with one terminal entry for each request

A log interleaves the entries of many writers. An entry is tagged with the
request it was written for, or untagged. A request is open from its admission
until its terminal entry; `Accounted` says that an open request has no terminal
entry yet, and that a request no longer open has exactly one, as its last entry.
-/

namespace JetsonVoice.Foundation

section TerminalLog
variable {τ ε : Type*} [DecidableEq τ] (terminal : ε → Bool)

/-- The entries a log holds for one request, in order. -/
def eventsOf (log : List (Option τ × ε)) (t : τ) : List ε :=
  log.filterMap fun entry => if entry.1 = some t then some entry.2 else none

/-- No terminal entry so far. -/
def Unsettled (entries : List ε) : Prop := ∀ e ∈ entries, terminal e = false

/-- Exactly one terminal entry, and nothing after it. -/
def Settled (entries : List ε) : Prop :=
  ∃ before last, entries = before ++ [last] ∧ terminal last = true ∧ Unsettled terminal before

/-- Every request of a log is accounted for: open and without a terminal entry,
or no longer open and settled. -/
structure Accounted (accepted opens : List τ) (log : List (Option τ × ε)) : Prop where
  nodup : opens.Nodup
  subset : ∀ {t}, t ∈ opens → t ∈ accepted
  unseen : ∀ {t}, t ∉ accepted → eventsOf log t = []
  unsettled : ∀ {t}, t ∈ opens → Unsettled terminal (eventsOf log t)
  settled : ∀ {t}, t ∈ accepted → t ∉ opens → Settled terminal (eventsOf log t)

variable {terminal}

@[simp] theorem eventsOf_nil (t : τ) : eventsOf ([] : List (Option τ × ε)) t = [] := rfl

@[simp] theorem eventsOf_untagged (log : List (Option τ × ε)) (e : ε) (t : τ) :
    eventsOf (log ++ [(none, e)]) t = eventsOf log t := by
  simp [eventsOf]

@[simp] theorem eventsOf_tagged (log : List (Option τ × ε)) (e : ε) (t : τ) :
    eventsOf (log ++ [(some t, e)]) t = eventsOf log t ++ [e] := by
  simp [eventsOf]

theorem eventsOf_other {t u : τ} (h : t ≠ u) (log : List (Option τ × ε)) (e : ε) :
    eventsOf (log ++ [(some u, e)]) t = eventsOf log t := by
  simp [eventsOf, h.symm]

theorem Unsettled.append {entries : List ε} {e : ε} (h : Unsettled terminal entries)
    (he : terminal e = false) : Unsettled terminal (entries ++ [e]) := by
  intro x hx
  rcases List.mem_append.mp hx with hx | hx
  · exact h x hx
  · exact List.mem_singleton.mp hx ▸ he

theorem unsettled_append {entries : List ε} {e : ε} :
    Unsettled terminal (entries ++ [e]) ↔ Unsettled terminal entries ∧ terminal e = false := by
  constructor
  · intro h
    exact ⟨fun x hx => h x (List.mem_append_left _ hx), h e (by simp)⟩
  · intro ⟨h, he⟩
    exact h.append he

theorem Unsettled.settle {entries : List ε} {e : ε} (h : Unsettled terminal entries)
    (he : terminal e = true) : Settled terminal (entries ++ [e]) :=
  ⟨entries, e, rfl, he, h⟩

theorem Settled.count {entries : List ε} (h : Settled terminal entries) :
    entries.countP terminal = 1 := by
  obtain ⟨before, last, rfl, hlast, hbefore⟩ := h
  have hzero : before.countP terminal = 0 :=
    List.countP_eq_zero.mpr fun e he => by simp [hbefore e he]
  simp [hzero, hlast]

namespace Accounted
variable {accepted opens : List τ} {log : List (Option τ × ε)}

theorem nil : Accounted terminal ([] : List τ) [] ([] : List (Option τ × ε)) where
  nodup := List.nodup_nil
  subset h := by cases h
  unseen _ := rfl
  unsettled h := by cases h
  settled h := by cases h

/-- The order of the open requests does not matter. -/
theorem perm {opens' : List τ} (h : Accounted terminal accepted opens log)
    (hp : opens'.Perm opens) : Accounted terminal accepted opens' log where
  nodup := hp.nodup_iff.mpr h.nodup
  subset ht := h.subset (hp.mem_iff.mp ht)
  unseen := h.unseen
  unsettled ht := h.unsettled (hp.mem_iff.mp ht)
  settled ht hn := h.settled ht fun ho => hn (hp.mem_iff.mpr ho)

/-- Admit a request that was never admitted before. -/
theorem accept {t : τ} (h : Accounted terminal accepted opens log) (ht : t ∉ accepted) :
    Accounted terminal (accepted ++ [t]) (t :: opens) log where
  nodup := List.nodup_cons.mpr ⟨fun ho => ht (h.subset ho), h.nodup⟩
  subset {u} hu := by
    rcases List.mem_cons.mp hu with rfl | hu
    · simp
    · exact List.mem_append_left _ (h.subset hu)
  unseen hu := h.unseen fun ha => hu (List.mem_append_left _ ha)
  unsettled {u} hu := by
    rcases List.mem_cons.mp hu with rfl | hu
    · rw [h.unseen ht]
      exact fun _ he => by cases he
    · exact h.unsettled hu
  settled {u} hu hn := by
    refine h.settled ?_ fun ho => hn (List.mem_cons_of_mem _ ho)
    rcases List.mem_append.mp hu with hu | hu
    · exact hu
    · exact absurd (List.mem_singleton.mp hu ▸ List.mem_cons_self) hn

/-- Write an entry that belongs to no request. -/
theorem untagged (h : Accounted terminal accepted opens log) (e : ε) :
    Accounted terminal accepted opens (log ++ [(none, e)]) where
  nodup := h.nodup
  subset := h.subset
  unseen ht := by simpa using h.unseen ht
  unsettled ht := by simpa using h.unsettled ht
  settled ht hn := by simpa using h.settled ht hn

/-- Write an entry that is not terminal for an open request. -/
theorem write {t : τ} {e : ε} (h : Accounted terminal accepted opens log) (ht : t ∈ opens)
    (he : terminal e = false) : Accounted terminal accepted opens (log ++ [(some t, e)]) where
  nodup := h.nodup
  subset := h.subset
  unseen {u} hu := by
    have hne : u ≠ t := fun heq => hu (heq ▸ h.subset ht)
    rw [eventsOf_other hne, h.unseen hu]
  unsettled {u} hu := by
    by_cases heq : u = t
    · subst heq
      rw [eventsOf_tagged]
      exact (h.unsettled hu).append he
    · rw [eventsOf_other heq]
      exact h.unsettled hu
  settled {u} hu hn := by
    have hne : u ≠ t := fun heq => hn (heq ▸ ht)
    rw [eventsOf_other hne]
    exact h.settled hu hn

/-- Write the terminal entry of an open request and close it. -/
theorem settle {t : τ} {e : ε} (h : Accounted terminal accepted (t :: opens) log)
    (he : terminal e = true) : Accounted terminal accepted opens (log ++ [(some t, e)]) where
  nodup := (List.nodup_cons.mp h.nodup).2
  subset ht := h.subset (List.mem_cons_of_mem _ ht)
  unseen {u} hu := by
    have hne : u ≠ t := fun heq => hu (heq ▸ h.subset List.mem_cons_self)
    rw [eventsOf_other hne, h.unseen hu]
  unsettled {u} hu := by
    have hne : u ≠ t := fun heq => (List.nodup_cons.mp h.nodup).1 (heq ▸ hu)
    rw [eventsOf_other hne]
    exact h.unsettled (List.mem_cons_of_mem _ hu)
  settled {u} hu hn := by
    by_cases heq : u = t
    · subst heq
      rw [eventsOf_tagged]
      exact (h.unsettled List.mem_cons_self).settle he
    · rw [eventsOf_other heq]
      exact h.settled hu fun ho => (List.mem_cons.mp ho).elim heq hn

end Accounted

end TerminalLog

end JetsonVoice.Foundation
