import Mathlib.Data.List.Nodup
import Mathlib.Data.List.Infix
import Mathlib.Data.List.Pairwise

/-!
# Names derived by endings

A family of names is made by putting a fixed list of endings behind every stem.
When no ending ends another, the names are different as soon as the stems are.
-/

namespace JetsonVoice.Foundation.DerivedNames

variable {α : Type*} {endings : List (List α)} {stems : List (List α)}

/-- The names of a stem. -/
def derive (endings : List (List α)) (stem : List α) : List (List α) :=
  endings.map (stem ++ ·)

/-- No ending ends another one. -/
def Separate (endings : List (List α)) : Prop :=
  endings.Pairwise fun s t => ¬ s <:+ t ∧ ¬ t <:+ s

instance [DecidableEq α] (endings : List (List α)) : Decidable (Separate endings) :=
  inferInstanceAs (Decidable (endings.Pairwise _))

/-- A name determines its stem. -/
theorem stem_unique (h : Separate endings) {a b s t : List α} (hs : s ∈ endings) (ht : t ∈ endings)
    (heq : a ++ s = b ++ t) : a = b := by
  have hst : s = t := by
    by_contra hne
    have hsymm : Std.Symm fun s t : List α => ¬ s <:+ t ∧ ¬ t <:+ s := ⟨fun _ _ h => ⟨h.2, h.1⟩⟩
    have hsep := List.Pairwise.forall h hs ht hne
    have hs' : s <:+ b ++ t := ⟨a, heq⟩
    rcases List.suffix_or_suffix_of_suffix hs' (List.suffix_append b t) with hsuf | hsuf
    · exact hsep.1 hsuf
    · exact hsep.2 hsuf
  subst hst
  exact List.append_cancel_right heq

theorem derive_nodup (h : Separate endings) (stem : List α) : (derive endings stem).Nodup := by
  refine List.Nodup.map (fun _ _ => List.append_cancel_left) ?_
  refine List.Pairwise.imp (fun hst => ?_) h
  rintro rfl
  exact hst.1 (List.suffix_refl _)

/-- The names of all stems are different just when the stems are. -/
theorem nodup_flatMap_derive (h : Separate endings) (hne : endings ≠ []) :
    (stems.flatMap (derive endings)).Nodup ↔ stems.Nodup := by
  rw [List.nodup_flatMap]
  constructor
  · rintro ⟨-, hdisjoint⟩
    refine List.Pairwise.imp (fun {a b} hab => ?_) hdisjoint
    rintro rfl
    obtain ⟨s, hs⟩ := List.exists_mem_of_ne_nil endings hne
    exact hab (List.mem_map_of_mem hs) (List.mem_map_of_mem hs)
  · intro hstems
    refine ⟨fun stem _ => derive_nodup h stem, List.Pairwise.imp (fun {a b} hab => ?_) hstems⟩
    intro x hxa hxb
    obtain ⟨s, hs, rfl⟩ := List.mem_map.mp hxa
    obtain ⟨t, ht, heq⟩ := List.mem_map.mp hxb
    exact hab (stem_unique h hs ht heq.symm)

end JetsonVoice.Foundation.DerivedNames
