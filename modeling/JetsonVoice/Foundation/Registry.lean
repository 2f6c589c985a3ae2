import JetsonVoice.Foundation.Collections
import Mathlib.Logic.Function.Basic

/-!
# A registry written by many owners

Owners register under a key and unregister again. The table holds one owner for
a key: registering overwrites the entry and unregistering erases it, whoever put
it there. `holds` is the key each owner is registered under, which the table may
have forgotten.
-/

namespace JetsonVoice.Foundation

/-- The table, and what every owner is registered under. -/
@[ext] structure Registry (κ ο : Type*) where
  entries : Table κ ο
  holds : ο → Option κ

namespace Registry

variable {κ ο : Type*} [DecidableEq κ] [DecidableEq ο]

def register (r : Registry κ ο) (o : ο) (k : κ) : Registry κ ο :=
  ⟨r.entries.insert k o, Function.update r.holds o (some k)⟩

def unregister (r : Registry κ ο) (o : ο) (k : κ) : Registry κ ο :=
  ⟨r.entries.erase k, Function.update r.holds o none⟩

/-- Every entry leads to an owner registered under its key. -/
def Sound (r : Registry κ ο) : Prop :=
  ∀ ⦃k o⦄, r.entries.lookup k = some o → r.holds o = some k

/-- Every registered owner is found under its key. -/
def Exact (r : Registry κ ο) : Prop :=
  ∀ ⦃k o⦄, r.holds o = some k → r.entries.lookup k = some o

/-- The entry for the key of a `live` owner is its own, if there is one. -/
def Unshared (r : Registry κ ο) (live : ο → Prop) : Prop :=
  ∀ ⦃k o o'⦄, live o → r.holds o = some k → r.entries.lookup k = some o' → o' = o

variable {r : Registry κ ο} {o : ο} {k : κ}

omit [DecidableEq κ] in
/-- What an owner holds after a change of one owner's registration. -/
theorem update_cases {holds : ο → Option κ} {v : Option κ} {o o' : ο} {k' : κ}
    (h : Function.update holds o v o' = some k') :
    (o' = o ∧ v = some k') ∨ (o' ≠ o ∧ holds o' = some k') := by
  by_cases heq : o' = o
  · subst heq
    exact .inl ⟨rfl, by simpa using h⟩
  · exact .inr ⟨heq, by simpa [heq] using h⟩

theorem Sound.register (h : r.Sound) (ho : r.holds o = none) : (r.register o k).Sound := by
  intro k' o' hl
  simp only [Registry.register, Table.lookup_insert_cases] at hl ⊢
  split at hl
  · rename_i hk
    cases hl
    simp [hk]
  · have hne : o' ≠ o := fun heq => by
      have := h hl
      simp [heq, ho] at this
    simpa [hne] using h hl

theorem Sound.unregister (h : r.Sound) (ho : r.holds o = some k) : (r.unregister o k).Sound := by
  intro k' o' hl
  simp only [Registry.unregister, Table.lookup_erase_cases] at hl ⊢
  split at hl
  · cases hl
  · rename_i hk
    have hne : o' ≠ o := fun heq => by
      have := h hl
      rw [heq, ho] at this
      exact hk (Option.some.inj this).symm
    simpa [hne] using h hl

/-- Registering under a key nobody holds keeps every registration findable. -/
theorem Exact.register (h : r.Exact) (free : ∀ o', r.holds o' ≠ some k) :
    (r.register o k).Exact := by
  intro k' o' hh
  simp only [Registry.register, Table.lookup_insert_cases] at hh ⊢
  rcases update_cases hh with ⟨rfl, hk⟩ | ⟨-, hh'⟩
  · simp [Option.some.inj hk]
  · have hne : k' ≠ k := fun heq => free o' (heq ▸ hh')
    rw [if_neg hne]
    exact h hh'

theorem Exact.unregister (h : r.Exact) (ho : r.holds o = some k) : (r.unregister o k).Exact := by
  intro k' o' hh
  simp only [Registry.unregister, Table.lookup_erase_cases] at hh ⊢
  rcases update_cases hh with ⟨-, hk⟩ | ⟨hne, hh'⟩
  · cases hk
  · have hk : k' ≠ k := fun hk => by
      have := h (hk ▸ hh')
      rw [h ho] at this
      exact hne (Option.some.inj this).symm
    rw [if_neg hk]
    exact h hh'

omit [DecidableEq ο] in
theorem Unshared.mono {live live' : ο → Prop} (h : r.Unshared live)
    (hlive : ∀ o, live' o → live o) : r.Unshared live' :=
  fun _ _ _ hl => h (hlive _ hl)

/-- A registration under a key that no live owner holds takes nobody's entry. -/
theorem Unshared.register {live : ο → Prop} (h : r.Unshared live)
    (free : ∀ o', live o' → o' ≠ o → r.holds o' ≠ some k) :
    (r.register o k).Unshared fun o' => live o' ∨ o' = o := by
  intro k' o₁ o₂ hlive hh hl
  simp only [Registry.register, Table.lookup_insert_cases] at hh hl
  rcases update_cases hh with ⟨rfl, hk⟩ | ⟨hne, hh'⟩
  · rw [if_pos (Option.some.inj hk).symm] at hl
    exact (Option.some.inj hl).symm
  · have hlive' : live o₁ := hlive.resolve_right hne
    have hk : k' ≠ k := fun heq => free o₁ hlive' hne (heq ▸ hh')
    rw [if_neg hk] at hl
    exact h hlive' hh' hl

theorem Unshared.unregister {live : ο → Prop} (h : r.Unshared live) :
    (r.unregister o k).Unshared live := by
  intro k' o₁ o₂ hlive hh hl
  simp only [Registry.unregister, Table.lookup_erase_cases] at hh hl
  rcases update_cases hh with ⟨-, hk⟩ | ⟨-, hh'⟩
  · cases hk
  · split at hl
    · cases hl
    · exact h hlive hh' hl

end Registry

end JetsonVoice.Foundation
