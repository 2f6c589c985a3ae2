import JetsonVoice.Foundation.Collections

/-!
# Occurrences of a literal in a text

How often a literal occurs in a text, and how the count splits: at a symbol that the
literal does not have, and in front of the literal's first symbol when it has it once.
-/

namespace JetsonVoice.Foundation

variable {α : Type*} {lit u v text rest : List α} {x : α}

/-- A literal whose first symbol does not come again in it. -/
structure Unbordered (lit : List α) (x : α) (rest : List α) : Prop where
  eq : lit = x :: rest
  notMem : x ∉ rest

theorem Unbordered.ne_nil (h : Unbordered lit x rest) : lit ≠ [] := by
  rw [h.eq]
  exact List.cons_ne_nil x rest

theorem Unbordered.prefix_iff (h : Unbordered lit x rest) (y : α) (u v : List α) :
    lit <+: y :: (u ++ x :: v) ↔ lit <+: y :: u := by
  constructor
  · intro hpre
    rw [h.eq] at hpre ⊢
    obtain ⟨rfl, ⟨z, hz⟩⟩ := List.cons_prefix_cons.mp hpre
    exact List.cons_prefix_cons.mpr ⟨rfl, prefix_of_notMem hz.symm h.notMem⟩
  · exact fun hpre => hpre.trans (List.prefix_append (y :: u) (x :: v))

section Count
variable [DecidableEq α]

/-- The positions of a text at which a literal starts. -/
def occurrences (lit : List α) : List α → Nat
  | [] => 0
  | x :: text => occurrences lit text + if lit.isPrefixOf (x :: text) then 1 else 0

theorem occurrences_cons (lit : List α) (x : α) (text : List α) :
    occurrences lit (x :: text) =
      occurrences lit text + if lit <+: x :: text then 1 else 0 := by
  simp only [occurrences, List.isPrefixOf_iff_prefix]

/-- A text has at least the occurrences its parts have. -/
theorem occurrences_append_le (lit u v : List α) :
    occurrences lit u + occurrences lit v ≤ occurrences lit (u ++ v) := by
  induction u with
  | nil => simp [occurrences]
  | cons x u ih =>
      rw [List.cons_append, occurrences_cons, occurrences_cons]
      by_cases hpre : lit <+: x :: u
      · have hpre' : lit <+: x :: (u ++ v) := hpre.trans (List.prefix_append (x :: u) v)
        rw [if_pos hpre, if_pos hpre']
        omega
      · rw [if_neg hpre]
        split <;> omega

theorem occurrences_eq_zero_iff (hlit : lit ≠ []) :
    occurrences lit text = 0 ↔ ¬ lit <:+: text := by
  induction text with
  | nil => simp [occurrences, hlit]
  | cons x text ih =>
      rw [occurrences_cons, List.infix_cons_iff, not_or, ← ih]
      by_cases hpre : lit <+: x :: text <;> simp [hpre]

/-- No occurrence reaches across a symbol the literal does not have. -/
theorem occurrences_append_cons (hlit : lit ≠ []) (hx : x ∉ lit) (u v : List α) :
    occurrences lit (u ++ x :: v) = occurrences lit u + occurrences lit v := by
  induction u with
  | nil =>
      have hpre : ¬ lit <+: x :: v := by
        intro hpre
        obtain ⟨y, lit', rfl⟩ := List.exists_cons_of_ne_nil hlit
        obtain rfl := (List.cons_prefix_cons.mp hpre).1
        exact hx List.mem_cons_self
      simp [occurrences_cons, occurrences, hpre]
  | cons y u ih =>
      have hpre : lit <+: y :: (u ++ x :: v) ↔ lit <+: y :: u := by
        constructor
        · rintro ⟨z, hz⟩
          exact prefix_of_notMem (u := y :: u) hz.symm hx
        · exact fun h => h.trans (List.prefix_append (y :: u) (x :: v))
      rw [List.cons_append, occurrences_cons, occurrences_cons, ih]
      simp only [hpre]
      omega

/-- No occurrence reaches across the first symbol of the literal. -/
theorem Unbordered.occurrences_append (h : Unbordered lit x rest) (u v : List α) :
    occurrences lit (u ++ x :: v) = occurrences lit u + occurrences lit (x :: v) := by
  induction u with
  | nil => simp [occurrences]
  | cons y u ih =>
      rw [List.cons_append, occurrences_cons, occurrences_cons, ih]
      simp only [h.prefix_iff]
      omega

theorem Unbordered.occurrences_of_notMem (h : Unbordered lit x rest) (hu : x ∉ u) (v : List α) :
    occurrences lit (u ++ v) = occurrences lit v := by
  induction u with
  | nil => rfl
  | cons y u ih =>
      simp only [List.mem_cons, not_or] at hu
      have hpre : ¬ lit <+: y :: (u ++ v) := by
        rw [h.eq, List.cons_prefix_cons]
        exact fun hpre => hu.1 hpre.1
      rw [List.cons_append, occurrences_cons, if_neg hpre, ih hu.2, Nat.add_zero]

/-- Behind an occurrence the text is counted anew. -/
theorem Unbordered.occurrences_literal (h : Unbordered lit x rest) (v : List α) :
    occurrences lit (lit ++ v) = 1 + occurrences lit v := by
  have hpre : lit <+: x :: (rest ++ v) := by
    rw [h.eq]
    exact List.prefix_append (x :: rest) v
  have hcons : lit ++ v = x :: (rest ++ v) := by rw [h.eq, List.cons_append]
  rw [hcons, occurrences_cons, if_pos hpre, h.occurrences_of_notMem h.notMem, Nat.add_comm]

/-- Symbols a literal does not have do not complete it. -/
theorem occurrences_append_of_disjoint (hlit : lit ≠ []) (hv : ∀ x ∈ v, x ∉ lit) (u : List α) :
    occurrences lit (u ++ v) = occurrences lit u := by
  induction v generalizing u with
  | nil => rw [List.append_nil]
  | cons x v ih =>
      have hrest := ih (fun y hy => hv y (List.mem_cons_of_mem x hy)) []
      rw [occurrences_append_cons hlit (hv x List.mem_cons_self)]
      rw [List.nil_append] at hrest
      rw [hrest]
      rfl

theorem occurrences_disjoint_append (hlit : lit ≠ []) (hu : ∀ x ∈ u, x ∉ lit) (v : List α) :
    occurrences lit (u ++ v) = occurrences lit v := by
  induction u with
  | nil => rfl
  | cons x u ih =>
      have hcons := occurrences_append_cons hlit (hu x List.mem_cons_self) [] (u ++ v)
      rw [List.nil_append] at hcons
      rw [List.cons_append, hcons, ih fun y hy => hu y (List.mem_cons_of_mem x hy)]
      simp [occurrences]

end Count

end JetsonVoice.Foundation
