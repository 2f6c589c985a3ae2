import JetsonVoice.Foundation.Collections

/-!
# Exclusion among the elements of a list

Threads are a list, and a predicate says which of them are inside a section. The
section is exclusive when at most one place of the list satisfies it. A lock
that records its holder makes a predicate exclusive.
-/

namespace JetsonVoice.Foundation

variable {α : Type*} {p : α → Bool} {l : List α} {i : Nat} {a b : α}

/-- At most one place of a list satisfies a predicate. -/
def Exclusive (p : α → Bool) (l : List α) : Prop :=
  ∀ i j : Nat, l[i]?.any p = true → l[j]?.any p = true → i = j

/-- The recorded holder of a lock is the one place that satisfies a predicate. -/
def HeldBy (p : α → Bool) (holder : Option Nat) (l : List α) : Prop :=
  ∀ i, holder = some i ↔ l[i]?.any p = true

theorem any_set (p : α → Bool) (h : l[i]? = some a) (b : α) (j : Nat) :
    (l.set i b)[j]?.any p = if j = i then p b else l[j]?.any p := by
  by_cases hj : j = i
  · subst hj
    rw [getElem?_set_same h, if_pos rfl, Option.any_some]
  · rw [getElem?_set_other hj, if_neg hj]

theorem any_set_of_eq (h : l[i]? = some a) (hb : p b = p a) (j : Nat) :
    (l.set i b)[j]?.any p = l[j]?.any p := by
  rw [any_set p h]
  split
  · next hj => rw [hj, h, Option.any_some, hb]
  · rfl

theorem any_append_singleton (hp : p a = false) (j : Nat) :
    (l ++ [a])[j]?.any p = l[j]?.any p := by
  rcases Nat.lt_trichotomy j l.length with hlt | rfl | hgt
  · rw [List.getElem?_append_left hlt]
  · simp [hp]
  · rw [List.getElem?_eq_none (by rw [List.length_append]; exact hgt),
      List.getElem?_eq_none (Nat.le_of_lt hgt)]

theorem any_getElem?_of_mem (h : a ∈ l) (hp : p a = true) : ∃ j : Nat, l[j]?.any p = true := by
  obtain ⟨j, hj⟩ := List.mem_iff_getElem?.mp h
  exact ⟨j, by rw [hj, Option.any_some, hp]⟩

/-- Fewer places taken are still at most one. -/
theorem Exclusive.mono {q : α → Bool} {l' : List α} (h : Exclusive p l)
    (he : ∀ j : Nat, l'[j]?.any q = true → l[j]?.any p = true) : Exclusive q l' :=
  fun i j hi hj => h i j (he i hi) (he j hj)

/-- One more place is taken exactly when none was. -/
theorem exclusive_set_iff (h : l[i]? = some a) (ha : p a = false) (hb : p b = true) :
    Exclusive p (l.set i b) ↔ ∀ x ∈ l, p x = false := by
  have hi : (l.set i b)[i]?.any p = true := by rw [any_set p h, if_pos rfl, hb]
  constructor
  · intro hex x hx
    apply Bool.eq_false_of_not_eq_true
    intro hp
    obtain ⟨j, hj⟩ := any_getElem?_of_mem hx hp
    have hne : j ≠ i := by
      rintro rfl
      rw [h, Option.any_some, ha] at hj
      cases hj
    exact hne (hex j i (by rwa [any_set p h, if_neg hne]) hi)
  · intro hnone
    have only (j : Nat) (hj : (l.set i b)[j]?.any p = true) : j = i := by
      by_contra hne
      rw [any_set p h, if_neg hne] at hj
      obtain ⟨x, hx, hp⟩ := (Option.any_eq_true _ _).mp hj
      rw [hnone x (List.mem_of_getElem? hx)] at hp
      cases hp
    intro j k hj hk
    exact (only j hj).trans (only k hk).symm

namespace HeldBy
variable {holder : Option Nat}

theorem exclusive (h : HeldBy p holder l) : Exclusive p l := fun i j hi hj =>
  Option.some.inj (((h i).mpr hi).symm.trans ((h j).mpr hj))

theorem keep (h : HeldBy p holder l) (hi : l[i]? = some a) (hb : p b = p a) :
    HeldBy p holder (l.set i b) := fun j => by
  rw [any_set_of_eq hi hb]
  exact h j

theorem grow (h : HeldBy p holder l) (ha : p a = false) : HeldBy p holder (l ++ [a]) :=
  fun j => by
    rw [any_append_singleton ha]
    exact h j

/-- A free lock is taken by the place that begins to satisfy the predicate. -/
theorem take (h : HeldBy p none l) (hi : l[i]? = some a) (hb : p b = true) :
    HeldBy p (some i) (l.set i b) := fun j => by
  rw [any_set p hi]
  split
  · next hj => simp [hj, hb]
  · next hj =>
    have hnot : ¬ l[j]?.any p = true := fun hp => nomatch (h j).mpr hp
    simp [hnot, Ne.symm hj]

/-- The lock is free once its holder does not satisfy the predicate any more. -/
theorem give (h : HeldBy p holder l) (hi : l[i]? = some a) (ha : p a = true)
    (hb : p b = false) : HeldBy p none (l.set i b) := fun j => by
  rw [any_set p hi]
  split
  · simp [hb]
  · next hj =>
    have hheld : holder = some i := (h i).mpr (by rw [hi, Option.any_some, ha])
    have hnot : ¬ l[j]?.any p = true := fun hp =>
      hj (Option.some.inj (((h j).mpr hp).symm.trans hheld))
    simp [hnot]

end HeldBy

end JetsonVoice.Foundation
