import Mathlib.Logic.Function.Basic

/-!
# Resources and their owners

Every owner holds at most one resource, and what exists is what somebody holds.
An owner may exchange its resource for a new one, or give it up.
-/

namespace JetsonVoice.Foundation

/-- The resources that exist are those with an owner, and no two owners share one. -/
structure Owns {K R : Type*} (owner : K → Option R) (live : R → Prop) : Prop where
  owned : ∀ r, live r ↔ ∃ k, owner k = some r
  distinct : ∀ {k k' r}, owner k = some r → owner k' = some r → k = k'

namespace Owns
variable {K R : Type*} {owner owner' : K → Option R} {live live' : R → Prop}

theorem of_none (h : ∀ k, owner k = none) (hl : ∀ r, ¬ live r) : Owns owner live where
  owned r := ⟨fun hr => absurd hr (hl r), fun ⟨k, hk⟩ => by rw [h k] at hk; cases hk⟩
  distinct hk := by rw [h] at hk; cases hk

/-- An owner exchanges what it holds for something new, or gives it up. -/
theorem update [DecidableEq K] (h : Owns owner live) {k : K} {o : Option R}
    (fresh : ∀ r, o = some r → ¬ live r)
    (hl : ∀ r, live' r ↔ (live r ∧ owner k ≠ some r) ∨ o = some r) :
    Owns (Function.update owner k o) live' where
  owned r := by
    rw [hl, h.owned]
    constructor
    · rintro (⟨⟨k', hk'⟩, hne⟩ | ho)
      · have hkk : k' ≠ k := fun he => hne (he ▸ hk')
        exact ⟨k', by rwa [Function.update_of_ne hkk]⟩
      · exact ⟨k, by rwa [Function.update_self]⟩
    · rintro ⟨k', hk'⟩
      by_cases hkk : k' = k
      · subst hkk
        rw [Function.update_self] at hk'
        exact .inr hk'
      · rw [Function.update_of_ne hkk] at hk'
        exact .inl ⟨⟨k', hk'⟩, fun he => hkk (h.distinct hk' he)⟩
  distinct {k₁ k₂ r} h₁ h₂ := by
    have old {k' : K} (hne : k' ≠ k) (hk' : Function.update owner k o k' = some r) :
        owner k' = some r ∧ live r := by
      rw [Function.update_of_ne hne] at hk'
      exact ⟨hk', (h.owned r).mpr ⟨k', hk'⟩⟩
    by_cases hk₁ : k₁ = k
    · by_cases hk₂ : k₂ = k
      · exact hk₁.trans hk₂.symm
      · rw [hk₁, Function.update_self] at h₁
        exact absurd (old hk₂ h₂).2 (fresh r h₁)
    · by_cases hk₂ : k₂ = k
      · rw [hk₂, Function.update_self] at h₂
        exact absurd (old hk₁ h₁).2 (fresh r h₂)
      · exact h.distinct (old hk₁ h₁).1 (old hk₂ h₂).1

/-- What an owner has lost and nobody has got new does not exist any more. -/
theorem gone (h : Owns owner live) (h' : Owns owner' live')
    (origin : ∀ {k r}, owner' k = some r → owner k = some r ∨ ¬ live r) {k : K} {r : R}
    (hk : owner k = some r) (hk' : owner' k ≠ some r) : ¬ live' r := by
  intro hr
  obtain ⟨k', hr'⟩ := (h'.owned r).mp hr
  rcases origin hr' with hold | hnew
  · exact hk' (h.distinct hold hk ▸ hr')
  · exact hnew ((h.owned r).mpr ⟨k, hk⟩)

end Owns

end JetsonVoice.Foundation
