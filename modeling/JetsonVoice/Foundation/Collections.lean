import Mathlib.Algebra.BigOperators.Group.List.Basic
import Mathlib.Data.List.AList
import Mathlib.Data.List.Perm.Basic
import Mathlib.Data.List.Perm.Subperm
import Mathlib.Tactic.Ring

/-!
# Lists of threads and keyed maps under point updates

A fixed family of threads is a list updated at one index; a keyed table is an
`AList`. The lemmas say what one update does to a projection of the list, to a
sum over it, and to the entries of the table.
-/

namespace JetsonVoice.Foundation

section List
variable {α β : Type*}

/-- A read after a point update is the new element at the index and the old
element elsewhere. -/
theorem getElem?_set_cases {l : List α} {i j : Nat} {a b : α}
    (h : (l.set i a)[j]? = some b) :
    (j = i ∧ b = a ∧ i < l.length) ∨ (j ≠ i ∧ l[j]? = some b) := by
  rw [List.getElem?_set] at h
  split at h
  · rename_i hij
    subst hij
    split at h
    · rename_i hlt
      exact .inl ⟨rfl, (Option.some.inj h).symm, hlt⟩
    · cases h
  · rename_i hij
    exact .inr ⟨fun he => hij he.symm, h⟩

theorem lt_of_getElem? {l : List α} {i : Nat} {a : α} (h : l[i]? = some a) : i < l.length :=
  (List.getElem?_eq_some_iff.mp h).1

theorem getElem?_set_same {l : List α} {i : Nat} {a b : α} (h : l[i]? = some a) :
    (l.set i b)[i]? = some b := by
  rw [List.getElem?_set_self (lt_of_getElem? h)]

theorem getElem?_set_other {l : List α} {i j : Nat} {b : α} (h : j ≠ i) :
    (l.set i b)[j]? = l[j]? :=
  List.getElem?_set_ne h.symm

/-- A list is its part before an index, the element there, and the part after. -/
theorem eq_take_append_drop {l : List α} {i : Nat} {a : α} (h : l[i]? = some a) :
    l = l.take i ++ a :: l.drop (i + 1) := by
  obtain ⟨hlt, rfl⟩ := List.getElem?_eq_some_iff.mp h
  rw [← List.drop_eq_getElem_cons hlt, List.take_append_drop]

/-- Updating one element exchanges its contribution to a partial projection. -/
theorem filterMap_set_perm (f : α → Option β) {l : List α} {i : Nat} {a b : α}
    (h : l[i]? = some a) :
    ((f a).toList ++ (l.set i b).filterMap f).Perm ((f b).toList ++ l.filterMap f) := by
  have hl := eq_take_append_drop h
  have hs : l.set i b = l.take i ++ b :: l.drop (i + 1) := by
    rw [List.set_eq_take_append_cons_drop, if_pos (lt_of_getElem? h)]
  have cons (c : α) (ts : List α) :
      (c :: ts).filterMap f = (f c).toList ++ ts.filterMap f := by
    cases hc : f c <;> simp [hc]
  rw [hs]
  conv_rhs => rw [hl]
  simp only [List.filterMap_append, cons]
  calc
    ((f a).toList ++ ((l.take i).filterMap f ++
        ((f b).toList ++ (l.drop (i + 1)).filterMap f))).Perm
      ((f a).toList ++ ((f b).toList ++
        ((l.take i).filterMap f ++ (l.drop (i + 1)).filterMap f))) :=
        (List.perm_append_comm_assoc _ _ _).append_left _
    List.Perm _ ((f b).toList ++ ((f a).toList ++
        ((l.take i).filterMap f ++ (l.drop (i + 1)).filterMap f))) :=
        List.perm_append_comm_assoc _ _ _
    List.Perm _ _ := (List.perm_append_comm_assoc _ _ _).append_left _

/-- An update that keeps a projection of the element keeps the projected list. -/
theorem map_set_eq (f : α → β) {l : List α} {i : Nat} {a b : α} (h : l[i]? = some a)
    (hf : f b = f a) : (l.set i b).map f = l.map f := by
  have hi : (l.map f)[i]? = some (f a) := by rw [List.getElem?_map, h, Option.map_some]
  obtain ⟨hlt, heq⟩ := List.getElem?_eq_some_iff.mp hi
  rw [List.map_set, hf, ← heq, List.set_getElem_self]

/-- Updating one element exchanges its contribution to a sum. -/
theorem sum_map_set (f : α → Nat) {l : List α} {i : Nat} {a b : α} (h : l[i]? = some a) :
    ((l.set i b).map f).sum + f a = (l.map f).sum + f b := by
  have hl := eq_take_append_drop h
  have hs : l.set i b = l.take i ++ b :: l.drop (i + 1) := by
    rw [List.set_eq_take_append_cons_drop, if_pos (lt_of_getElem? h)]
  rw [hs]
  conv_rhs => rw [hl]
  simp only [List.map_append, List.map_cons, List.sum_append, List.sum_cons]
  ring

/-- An update that keeps the contribution of the element keeps the sum. -/
theorem sum_map_set_eq (f : α → Nat) {l : List α} {i : Nat} {a b : α} (h : l[i]? = some a)
    (hf : f b = f a) : ((l.set i b).map f).sum = (l.map f).sum := by
  have := sum_map_set f (b := b) h
  omega

/-- Updating one element exchanges its contribution to a count. -/
theorem countP_set_add (f : α → Bool) {l : List α} {i : Nat} {a b : α} (h : l[i]? = some a) :
    (l.set i b).countP f + (f a).toNat = l.countP f + (f b).toNat := by
  have hcount (l : List α) : l.countP f = (l.map fun a => (f a).toNat).sum := by
    induction l with
    | nil => rfl
    | cons a l ih => cases ha : f a <;> simp [ha, ih, Nat.add_comm]
  rw [hcount, hcount]
  exact sum_map_set (fun a => (f a).toNat) h

/-- An element added to one of the lists over a range is added once to all of them. -/
theorem flatMap_range_subperm {f g : Nat → List α} {n k : Nat} {a : α}
    (hg : ∀ j, g j = f j ++ if k = j then [a] else []) :
    ((List.range n).flatMap g).Subperm (a :: (List.range n).flatMap f) := by
  have hone : (List.range n).flatMap (fun j => if k = j then [a] else []) =
      if k < n then [a] else [] := by
    induction n with
    | zero => rfl
    | succ n ih =>
        rw [List.range_succ, List.flatMap_append, ih, List.flatMap_singleton]
        split <;> split <;> split <;> first | rfl | omega
  have hperm := List.flatMap_append_perm (List.range n) f fun j => if k = j then [a] else []
  rw [hone] at hperm
  rw [funext hg]
  have hsub : (if k < n then [a] else []).Sublist [a] := by
    split
    · exact .refl _
    · exact List.nil_sublist _
  exact hperm.symm.subperm.trans
    (List.perm_append_comm.subperm.trans (hsub.append_right _).subperm)

/-- Where the values of a list are its indices, an element's value is its index. -/
theorem index_of_map_eq_range {f : α → Nat} {l : List α} (h : l.map f = List.range l.length)
    {i : Nat} {a : α} (hi : l[i]? = some a) : f a = i := by
  have hat : (l.map f)[i]? = some (f a) := by rw [List.getElem?_map, hi, Option.map_some]
  rw [h, List.getElem?_range (lt_of_getElem? hi)] at hat
  exact (Option.some.inj hat).symm

/-- Where the values of a list are its indices, the elements with one value are
the element at that index. -/
theorem filter_of_map_eq_range {f : α → Nat} {l : List α} (h : l.map f = List.range l.length)
    (i : Nat) : l.filter (fun a => f a = i) = l[i]?.toList := by
  have hfrom (k : Nat) (l : List α) (h : l.map f = List.range' k l.length) :
      l.filter (fun a => f a = i) = if i < k then [] else l[i - k]?.toList := by
    induction l generalizing k with
    | nil => simp
    | cons a l ih =>
        rw [List.map_cons, List.length_cons, List.range'_succ, List.cons.injEq] at h
        rw [List.filter_cons, ih (k + 1) h.2, h.1]
        by_cases hik : k = i
        · subst hik
          simp
        · by_cases hlt : i < k
          · simp [hik, hlt, Nat.lt_succ_of_lt hlt]
          · have hsub : i - k = i - (k + 1) + 1 := by omega
            have hge : ¬ i < k + 1 := by omega
            simp [hik, hlt, hge, hsub]
  rw [List.range_eq_range'] at h
  simpa using hfrom 0 l h

/-- Taking out the first element with a value takes the value out of the values. -/
theorem map_eraseP [DecidableEq β] (f : α → β) (l : List α) (b : β) :
    (l.eraseP fun a => f a = b).map f = (l.map f).erase b := by
  induction l with
  | nil => rfl
  | cons a l ih =>
      by_cases h : f a = b
      · simp [h]
      · simp [h, ih]

/-- A traversal that fails at no element gives every element its result. -/
theorem forall₂_of_mapM_ok {E : Type*} {f : α → Except E β} {l : List α} {bs : List β}
    (h : l.mapM f = .ok bs) : List.Forall₂ (fun a b => f a = .ok b) l bs := by
  induction l generalizing bs with
  | nil =>
      cases h
      exact .nil
  | cons a l ih =>
      rw [List.mapM_cons] at h
      cases hf : f a with
      | error e => simp [hf, bind, Except.bind] at h
      | ok b =>
          cases hl : l.mapM f with
          | error e => simp [hf, hl, bind, Except.bind] at h
          | ok bs' =>
              simp only [hf, hl, bind, Except.bind, pure, Except.pure, Except.ok.injEq] at h
              exact h ▸ .cons hf (ih hl)

/-- A traversal fails only at an element it fails at. -/
theorem exists_mapM_ok {E : Type*} {f : α → Except E β} {l : List α}
    (h : ∀ a ∈ l, ∃ b, f a = .ok b) : ∃ bs, l.mapM f = .ok bs := by
  induction l with
  | nil => exact ⟨[], rfl⟩
  | cons a l ih =>
      obtain ⟨b, hb⟩ := h a List.mem_cons_self
      obtain ⟨bs, hbs⟩ := ih fun x hx => h x (List.mem_cons_of_mem _ hx)
      exact ⟨b :: bs, by simp [hb, hbs, bind, Except.bind, pure, Except.pure]⟩

/-- A traversal whose results are known. -/
theorem mapM_eq_some_map {f : α → Option β} {g : α → β} {l : List α}
    (h : ∀ a ∈ l, f a = some (g a)) : l.mapM f = some (l.map g) := by
  induction l with
  | nil => rfl
  | cons a l ih =>
      have htail := ih fun x hx => h x (List.mem_cons_of_mem _ hx)
      simp [List.mapM_cons, h a List.mem_cons_self, htail]

/-- A traversal that fails nowhere gives every element a result. -/
theorem exists_mapM_some {f : α → Option β} {P : β → Prop} {l : List α}
    (h : ∀ a ∈ l, ∃ b, f a = some b ∧ P b) :
    ∃ bs, l.mapM f = some bs ∧ bs.length = l.length ∧ ∀ b ∈ bs, P b := by
  induction l with
  | nil => exact ⟨[], rfl, rfl, by simp⟩
  | cons a l ih =>
      obtain ⟨b, hb, hP⟩ := h a List.mem_cons_self
      obtain ⟨bs, hbs, hlen, hall⟩ := ih fun x hx => h x (List.mem_cons_of_mem _ hx)
      refine ⟨b :: bs, by simp [List.mapM_cons, hb, hbs], by simp [hlen], ?_⟩
      rintro x (_ | ⟨_, hx⟩)
      · exact hP
      · exact hall x hx

theorem length_of_mapM_some {f : α → Option β} {l : List α} {bs : List β}
    (h : l.mapM f = some bs) : bs.length = l.length := by
  induction l generalizing bs with
  | nil =>
      cases h
      rfl
  | cons a l ih =>
      simp only [List.mapM_cons, Option.bind_eq_bind, Option.bind_eq_some_iff, Option.pure_def,
        Option.some.injEq] at h
      obtain ⟨b, -, bs', hbs, rfl⟩ := h
      rw [List.length_cons, List.length_cons, ih hbs]

/-- A fold none of whose steps fails. -/
theorem exists_foldlM_some {f : β → α → Option β} {l : List α}
    (h : ∀ b, ∀ a ∈ l, ∃ b', f b a = some b') (b : β) : ∃ b', l.foldlM f b = some b' := by
  induction l generalizing b with
  | nil => exact ⟨b, rfl⟩
  | cons a l ih =>
      obtain ⟨b', hb⟩ := h b a List.mem_cons_self
      obtain ⟨r, hr⟩ := ih (fun b x hx => h b x (List.mem_cons_of_mem _ hx)) b'
      exact ⟨r, by simp [List.foldlM_cons, hb, hr]⟩

/-- A part without an element lies in front of it. -/
theorem prefix_of_notMem {u v w z : List α} {x : α} (h : u ++ x :: v = w ++ z)
    (hx : x ∉ w) : w <+: u := by
  rcases List.append_eq_append_iff.mp h with ⟨part, rfl, hpart⟩ | ⟨part, rfl, -⟩
  · cases part with
    | nil => simp
    | cons c part =>
        obtain ⟨rfl, -⟩ := List.cons.inj hpart
        exact absurd (List.mem_append_right u List.mem_cons_self) hx
  · exact List.prefix_append _ _

end List

section Ascending
variable {l : List Nat} {i j a b : Nat}

/-- Along an ascending list the elements grow at least as fast as the indices. -/
theorem ascending_gap (h : l.Pairwise (· < ·)) (hi : l[i]? = some a) (hj : l[j]? = some b)
    (hij : i ≤ j) : a + (j - i) ≤ b := by
  induction j, hij using Nat.le_induction generalizing b with
  | base =>
      obtain rfl : a = b := Option.some.inj (hi.symm.trans hj)
      omega
  | succ j hij ih =>
      obtain ⟨hlt, rfl⟩ := List.getElem?_eq_some_iff.mp hj
      have hstep : l[j] < l[j + 1] := List.pairwise_iff_getElem.mp h j (j + 1) (by omega) hlt
        (Nat.lt_succ_self j)
      have hgap := ih (List.getElem?_eq_getElem (by omega))
      omega

theorem ascending_le (h : l.Pairwise (· < ·)) (hi : l[i]? = some a) : i ≤ a := by
  have hpos : 0 < l.length := Nat.zero_lt_of_lt (lt_of_getElem? hi)
  have hgap := ascending_gap h (List.getElem?_eq_getElem hpos) hi (Nat.zero_le i)
  omega

/-- An element of an ascending list is its own index when nothing below it is
missing. -/
theorem ascending_index_iff (h : l.Pairwise (· < ·)) (hi : l[i]? = some a) :
    (∀ b < a, b ∈ l) ↔ a = i := by
  constructor
  · intro hall
    have hsub : List.range a ⊆ l.take i := by
      intro b hb
      rw [List.mem_range] at hb
      obtain ⟨j, hj⟩ := List.mem_iff_getElem?.mp (hall b hb)
      have hji : j < i := by
        by_contra hge
        have := ascending_gap h hi hj (by omega)
        omega
      exact List.mem_iff_getElem?.mpr ⟨j, by rw [List.getElem?_take_of_lt hji, hj]⟩
    have hle : a ≤ i := by
      calc
        a = (List.range a).length := List.length_range.symm
        _ ≤ (l.take i).length := (List.subperm_of_subset List.nodup_range hsub).length_le
        _ ≤ i := List.length_take_le i l
    exact hle.antisymm (ascending_le h hi)
  · rintro rfl b hb
    have hlt : b < l.length := hb.trans (lt_of_getElem? hi)
    have hbi := List.getElem?_eq_getElem hlt
    have hgap := ascending_gap h hbi hi hb.le
    have hle := ascending_le h hbi
    have heq : l[b] = b := by omega
    exact heq ▸ List.getElem_mem hlt

end Ascending

section Writes
variable {κ ν : Type*} [DecidableEq κ] {f : κ → ν} {writes : List (κ × ν)} {k : κ} {v : ν}

/-- Perform writes in order. -/
def assign (f : κ → ν) (writes : List (κ × ν)) : κ → ν :=
  writes.foldl (fun f write => Function.update f write.1 write.2) f

theorem assign_of_notMem (h : k ∉ writes.map Prod.fst) : assign f writes k = f k := by
  induction writes generalizing f with
  | nil => rfl
  | cons write writes ih =>
      rw [List.map_cons, List.mem_cons, not_or] at h
      rw [assign, List.foldl_cons, ← assign, ih h.2, Function.update_of_ne h.1]

/-- A place holds what it held, or one of the values written to it. -/
theorem assign_cases (f : κ → ν) (writes : List (κ × ν)) (k : κ) :
    assign f writes k = f k ∨ ∃ v, (k, v) ∈ writes ∧ assign f writes k = v := by
  induction writes generalizing f with
  | nil => exact .inl rfl
  | cons write writes ih =>
      rw [assign, List.foldl_cons, ← assign]
      cases ih (Function.update f write.1 write.2) with
      | inl hkeep =>
          rw [hkeep]
          by_cases hk : k = write.1
          · subst hk
            exact .inr ⟨write.2, List.mem_cons_self, Function.update_self ..⟩
          · exact .inl (Function.update_of_ne hk ..)
      | inr hsome =>
          obtain ⟨v, hmem, hv⟩ := hsome
          exact .inr ⟨v, List.mem_cons_of_mem _ hmem, hv⟩

/-- A place that is written once holds what was written. -/
theorem assign_of_mem (hnodup : (writes.map Prod.fst).Nodup) (h : (k, v) ∈ writes) :
    assign f writes k = v := by
  induction writes generalizing f with
  | nil => cases h
  | cons write writes ih =>
      rw [List.map_cons, List.nodup_cons] at hnodup
      rw [assign, List.foldl_cons, ← assign]
      cases List.mem_cons.mp h with
      | inl heq =>
          subst heq
          rw [assign_of_notMem hnodup.1, Function.update_self]
      | inr hmem => exact ih hnodup.2 hmem

end Writes

section Table
variable {κ ν : Type*} [DecidableEq κ]

/-- A finite table from keys to values. -/
abbrev Table (κ ν : Type*) := AList fun _ : κ => ν

namespace Table

/-- The number of entries. -/
def size (m : Table κ ν) : Nat := m.entries.length

omit [DecidableEq κ] in
@[simp] theorem size_empty : size (∅ : Table κ ν) = 0 := rfl

theorem size_insert {m : Table κ ν} {k : κ} {v : ν} (h : m.lookup k = none) :
    size (m.insert k v) = size m + 1 := by
  rw [size, AList.entries_insert_of_notMem (AList.lookup_eq_none.mp h)]
  rfl

/-- A present key's entry can be taken out in front of the remaining ones. -/
theorem entries_perm_erase {m : Table κ ν} {k : κ} {v : ν} (h : m.lookup k = some v) :
    m.entries.Perm (⟨k, v⟩ :: (m.erase k).entries) := by
  have hmem : (⟨k, v⟩ : Sigma fun _ : κ => ν) ∈ m.entries := AList.mem_lookup_iff.mp h
  have hnd : m.entries.NodupKeys := m.nodupKeys
  change m.entries.Perm (⟨k, v⟩ :: List.kerase k m.entries)
  generalize m.entries = l at hmem hnd
  induction l with
  | nil => cases hmem
  | cons s l ih =>
      rcases List.mem_cons.mp hmem with rfl | htail
      · simp
      · have hne : k ≠ s.1 := by
          intro he
          have hkeys := (List.nodupKeys_cons.mp hnd).1
          exact hkeys (he ▸ List.mem_keys_of_mem htail)
        rw [List.kerase_cons_ne hne]
        exact ((ih htail (List.nodupKeys_cons.mp hnd).2).cons s).trans (List.Perm.swap _ _ _)

theorem size_erase {m : Table κ ν} {k : κ} {v : ν} (h : m.lookup k = some v) :
    size (m.erase k) + 1 = size m := by
  simpa [size] using (entries_perm_erase h).length_eq.symm

/-- Overwriting the value of a present key keeps the size. -/
theorem size_insert_present {m : Table κ ν} {k : κ} {v v' : ν} (h : m.lookup k = some v) :
    size (m.insert k v') = size m := by
  rw [size, AList.entries_insert]
  exact size_erase h

/-- Erasing a key undoes an insertion under it. -/
theorem erase_insert {m : Table κ ν} {k : κ} {v : ν} : (m.insert k v).erase k = m.erase k := by
  apply AList.ext
  have hentries : (m.insert k v).entries = ⟨k, v⟩ :: List.kerase k m.entries :=
    AList.entries_insert
  change List.kerase k ((m.insert k v).entries) = List.kerase k m.entries
  rw [hentries]
  exact List.kerase_cons_eq rfl

/-- A lookup after an insertion. -/
theorem lookup_insert_cases {m : Table κ ν} {k k' : κ} {v : ν} :
    (m.insert k v).lookup k' = if k' = k then some v else m.lookup k' := by
  split
  · rename_i h
    subst h
    exact AList.lookup_insert m
  · rename_i h
    exact AList.lookup_insert_ne h

/-- A lookup after an erasure. -/
theorem lookup_erase_cases {m : Table κ ν} {k k' : κ} :
    (m.erase k).lookup k' = if k' = k then none else m.lookup k' := by
  split
  · rename_i h
    subst h
    exact AList.lookup_erase _ m
  · rename_i h
    exact AList.lookup_erase_ne h

end Table

end Table

end JetsonVoice.Foundation
