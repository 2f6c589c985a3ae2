import JetsonVoice.Foundation.Streaming
import Mathlib.Algebra.BigOperators.Group.List.Basic

/-!
# Overlap-add

Every item of an input is spread over the output positions from a multiple of
the stride on, and what several items give to one position is added up.
-/

namespace JetsonVoice.Foundation

section Tabulate
variable {M N : Type*} {f g : Nat → M} {a b c d i : Nat}

/-- The values of `f` at the positions from `a` up to `b`. -/
def tabulate (f : Nat → M) (a b : Nat) : List M := (List.range' a (b - a)).map f

theorem tabulate_const {v : M} : tabulate (fun _ => v) a b = List.replicate (b - a) v := by
  rw [tabulate, List.map_const', List.length_range']

@[simp] theorem length_tabulate : (tabulate f a b).length = b - a := by
  rw [tabulate, List.length_map, List.length_range']

theorem getElem?_tabulate :
    (tabulate f a b)[i]? = if a + i < b then some (f (a + i)) else none := by
  by_cases hi : a + i < b
  · rw [if_pos hi, tabulate, List.getElem?_map, List.getElem?_range' (by omega), Nat.one_mul,
      Option.map_some]
  · rw [if_neg hi, List.getElem?_eq_none (by rw [length_tabulate]; omega)]

theorem tabulate_append_tabulate (hab : a ≤ b) (hbc : b ≤ c) :
    tabulate f a b ++ tabulate f b c = tabulate f a c := by
  have hb : b = a + 1 * (b - a) := by omega
  have hlen : c - a = (b - a) + (c - b) := by omega
  rw [tabulate, tabulate, tabulate, ← List.map_append, hlen, ← List.range'_append, ← hb]

theorem tabulate_congr (h : ∀ u, a ≤ u → u < b → f u = g u) :
    tabulate f a b = tabulate g a b := by
  apply List.map_congr_left
  intro u hu
  rw [List.mem_range'_1] at hu
  exact h u hu.1 (by omega)

theorem tabulate_of_le (h : b ≤ a) : tabulate f a b = [] := by
  rw [tabulate, Nat.sub_eq_zero_of_le h, List.range'_zero, List.map_nil]

theorem map_tabulate {h : M → N} : (tabulate f a b).map h = tabulate (fun u => h (f u)) a b := by
  rw [tabulate, List.map_map]
  rfl

theorem tabulate_shift : tabulate (fun u => f (a + u)) b c = tabulate f (a + b) (a + c) := by
  apply List.ext_getElem?
  intro i
  rw [getElem?_tabulate, getElem?_tabulate, Nat.add_assoc]
  simp only [Nat.add_lt_add_iff_left]

theorem slice_tabulate (hd : a + d ≤ b) :
    slice (tabulate f a b) c d = tabulate f (a + c) (a + d) := by
  apply List.ext_getElem?
  intro i
  rw [getElem?_slice, getElem?_tabulate, getElem?_tabulate, Nat.add_assoc]
  by_cases hi : c + i < d
  · rw [if_pos hi, if_pos (by omega), if_pos (by omega)]
  · rw [if_neg hi, if_neg (by omega)]

theorem drop_tabulate : (tabulate f a b).drop c = tabulate f (a + c) b := by
  apply List.ext_getElem?
  intro i
  rw [List.getElem?_drop, getElem?_tabulate, getElem?_tabulate, Nat.add_assoc]

/-- Going on to `b` where `a` was reached, when nothing counts before `l`. -/
theorem tabulate_append_slice {l n : Nat} (hab : a ≤ b) (hbn : b ≤ n) :
    tabulate f l a ++ slice (tabulate f 0 n) (l + (a - l)) (l + (b - l)) = tabulate f l b := by
  by_cases hlb : b ≤ l
  · rw [Nat.sub_eq_zero_of_le hlb, Nat.sub_eq_zero_of_le (hab.trans hlb), slice_self,
      tabulate_of_le hlb, tabulate_of_le (hab.trans hlb), List.append_nil]
  · have hb : l + (b - l) = b := Nat.add_sub_of_le (Nat.le_of_not_le hlb)
    rw [hb, slice_tabulate (by omega), Nat.zero_add, Nat.zero_add]
    by_cases hla : l ≤ a
    · rw [Nat.add_sub_of_le hla, tabulate_append_tabulate hla hab]
    · have hal : a ≤ l := Nat.le_of_not_le hla
      rw [tabulate_of_le hal, Nat.sub_eq_zero_of_le hal, List.nil_append, Nat.add_zero]

end Tabulate

section AddAt
variable {M : Type*} [AddMonoid M] {f g : Nat → M} {n k start : Nat}

/-- Add the values of `piece` to those of `l` from the position `start` on. -/
def addAt (l : List M) (start : Nat) (piece : List M) : List M :=
  l.mapIdx fun u v => if start ≤ u then v + piece.getD (u - start) 0 else v

/-- Adding a tabulated piece whose function vanishes where the piece has ended. -/
theorem addAt_tabulate (hg : ∀ u, k ≤ u → g u = 0) :
    addAt (tabulate f 0 n) start (tabulate g 0 k) =
      tabulate (fun u => f u + if start ≤ u then g (u - start) else 0) 0 n := by
  have hgetD : ∀ u, (tabulate g 0 k).getD u 0 = g u := by
    intro u
    rw [List.getD_eq_getElem?_getD, getElem?_tabulate, Nat.zero_add]
    by_cases hu : u < k
    · rw [if_pos hu, Option.getD_some]
    · rw [if_neg hu, Option.getD_none, hg u (by omega)]
  apply List.ext_getElem?
  intro i
  rw [addAt, List.getElem?_mapIdx, getElem?_tabulate, getElem?_tabulate, Nat.zero_add]
  simp only [hgetD]
  by_cases hi : i < n
  · rw [if_pos hi, if_pos hi, Option.map_some]
    split
    · rfl
    · rw [add_zero]
  · rw [if_neg hi, if_neg hi, Option.map_none]

@[simp] theorem length_addAt {l piece : List M} : (addAt l start piece).length = l.length := by
  rw [addAt, List.length_mapIdx]

/-- From the first position on, only the front changes. -/
theorem addAt_zero {l piece : List M} (h : piece.length ≤ l.length) :
    addAt l 0 piece =
      List.zipWith (· + ·) (l.take piece.length) piece ++ l.drop piece.length := by
  have hfront : (List.zipWith (· + ·) (l.take piece.length) piece).length = piece.length := by
    rw [List.length_zipWith, List.length_take, min_eq_left h, min_self]
  apply List.ext_getElem?
  intro i
  rw [addAt, List.getElem?_mapIdx]
  by_cases hi : i < piece.length
  · rw [List.getElem?_append_left (by rw [hfront]; exact hi), List.getElem?_zipWith,
      List.getElem?_take, if_pos hi, List.getElem?_eq_getElem (hi.trans_le h),
      List.getElem?_eq_getElem hi]
    simp [hi]
  · rw [List.getElem?_append_right (by rw [hfront]; omega), hfront, List.getElem?_drop,
      Nat.add_sub_cancel' (by omega)]
    simp [List.getD_eq_getElem?_getD, List.getElem?_eq_none (show piece.length ≤ i by omega)]

@[simp] theorem addAt_nil {l : List M} : addAt l start [] = l := by
  apply List.ext_getElem?
  intro i
  simp [addAt]

end AddAt

section Overlap
variable {A M : Type*} [AddCommMonoid M] {tap : A → Nat → M} {stride width : Nat}
  {p c x : List A} {n u : Nat}

/-- What the items of `x` give to the position `u`; `tap a k` is what an item
gives to the position `k` steps after its own. -/
def overlapAt (tap : A → Nat → M) (stride : Nat) (x : List A) (u : Nat) : M :=
  (x.mapIdx fun t a => if t * stride ≤ u then tap a (u - t * stride) else 0).sum

/-- The number of positions that `n` items reach, each `width` of them. -/
def overlapSpan (stride width n : Nat) : Nat := if n = 0 then 0 else (n - 1) * stride + width

@[simp] theorem overlapAt_nil : overlapAt tap stride [] u = 0 := rfl

theorem overlapAt_append : overlapAt tap stride (p ++ c) u = overlapAt tap stride p u +
    if p.length * stride ≤ u then overlapAt tap stride c (u - p.length * stride) else 0 := by
  rw [overlapAt, List.mapIdx_append, List.sum_append, ← overlapAt]
  congr 1
  by_cases hu : p.length * stride ≤ u
  · rw [if_pos hu, overlapAt]
    congr 2
    ext t a
    have hle : (t + p.length) * stride ≤ u ↔ t * stride ≤ u - p.length * stride := by
      rw [Nat.add_mul]
      omega
    have hsub : u - (t + p.length) * stride = u - p.length * stride - t * stride := by
      rw [Nat.add_mul]
      omega
    simp only [hle, hsub]
  · rw [if_neg hu]
    apply List.sum_eq_zero
    intro v hv
    obtain ⟨t, ht, rfl⟩ := List.mem_mapIdx.mp hv
    have hlt : u < (t + p.length) * stride := by
      rw [Nat.add_mul]
      omega
    rw [if_neg (by omega)]

theorem map_overlapAt {B N : Type*} [AddCommMonoid N] (f : M →+ N) (g : B → A) (y : List B) :
    f (overlapAt tap stride (y.map g) u) = overlapAt (fun b k => f (tap (g b) k)) stride y u := by
  rw [overlapAt, overlapAt, map_list_sum]
  congr 1
  apply List.ext_getElem
  · simp
  · intro i hi hi'
    simp only [List.getElem_map, List.getElem_mapIdx, apply_ite f, map_zero]

/-- Before its first position a chunk gives nothing. -/
theorem overlapAt_append_of_lt (hu : u < p.length * stride) :
    overlapAt tap stride (p ++ c) u = overlapAt tap stride p u := by
  rw [overlapAt_append, if_neg (by omega), add_zero]

theorem overlapSpan_add {m : Nat} (hm : m ≠ 0) :
    overlapSpan stride width (n + m) = n * stride + overlapSpan stride width m := by
  have hpred : n + m - 1 = n + (m - 1) := by omega
  rw [overlapSpan, overlapSpan, if_neg (by omega), if_neg hm, hpred, Nat.add_mul, Nat.add_assoc]

theorem overlapSpan_eq (hle : stride ≤ width) (hn : n ≠ 0) :
    overlapSpan stride width n = n * stride + (width - stride) := by
  obtain ⟨k, rfl⟩ := Nat.exists_eq_succ_of_ne_zero hn
  rw [overlapSpan, if_neg hn, Nat.succ_sub_one, Nat.succ_mul]
  omega

/-- Nothing reaches past the span. -/
theorem overlapAt_of_span_le (htap : ∀ a k, width ≤ k → tap a k = 0)
    (hu : overlapSpan stride width x.length ≤ u) : overlapAt tap stride x u = 0 := by
  apply List.sum_eq_zero
  intro v hv
  obtain ⟨t, ht, rfl⟩ := List.mem_mapIdx.mp hv
  rw [overlapSpan, if_neg (by omega)] at hu
  have hmul : t * stride ≤ (x.length - 1) * stride := Nat.mul_le_mul_right _ (by omega)
  rw [if_pos (by omega)]
  exact htap _ _ (by omega)

/-- Adding the piece of a chunk at its place gives what prefix and chunk give together. -/
theorem addAt_overlap (htap : ∀ a k, width ≤ k → tap a k = 0) :
    addAt (tabulate (overlapAt tap stride p) 0 n) (p.length * stride)
      (tabulate (overlapAt tap stride c) 0 (overlapSpan stride width c.length)) =
      tabulate (overlapAt tap stride (p ++ c)) 0 n := by
  rw [addAt_tabulate fun u hu => overlapAt_of_span_le htap hu]
  apply tabulate_congr
  intro u _ _
  rw [overlapAt_append]

/-- Adding what a prefix left over to the piece of the chunk that follows it. -/
theorem addAt_pending (htap : ∀ a k, width ≤ k → tap a k = 0) (hle : stride ≤ width) :
    addAt (tabulate (overlapAt tap stride c) 0 n) 0
      (tabulate (fun u => overlapAt tap stride p (p.length * stride + u)) 0 (width - stride)) =
      tabulate (fun u => overlapAt tap stride (p ++ c) (p.length * stride + u)) 0 n := by
  have hzero : ∀ u, width - stride ≤ u → overlapAt tap stride p (p.length * stride + u) = 0 := by
    intro u hu
    by_cases hp : p.length = 0
    · rw [List.length_eq_zero_iff.mp hp, overlapAt_nil]
    · apply overlapAt_of_span_le htap
      rw [overlapSpan_eq hle hp]
      omega
  rw [addAt_tabulate hzero]
  apply tabulate_congr
  intro u _ _
  rw [overlapAt_append, if_pos (Nat.zero_le u), if_pos (Nat.le_add_right _ _),
    Nat.add_sub_cancel_left, Nat.sub_zero, add_comm]

/-- What a prefix leaves over for the chunk that follows it. -/
def pendingAt (tap : A → Nat → M) (stride width : Nat) (p : List A) : List M :=
  tabulate (fun u => overlapAt tap stride p (p.length * stride + u)) 0 (width - stride)

@[simp] theorem length_pendingAt : (pendingAt tap stride width p).length = width - stride := by
  rw [pendingAt, length_tabulate, Nat.sub_zero]

theorem pendingAt_nil : pendingAt tap stride width [] = List.replicate (width - stride) 0 := by
  rw [pendingAt, ← Nat.sub_zero (width - stride), ← tabulate_const]
  exact tabulate_congr fun _ _ _ => overlapAt_nil

/-- The piece of a chunk with what is left over: its front goes out, its end is left over again. -/
theorem addAt_pending_split (htap : ∀ a k, width ≤ k → tap a k = 0) (hle : stride ≤ width)
    (hc : c ≠ []) :
    let raw := addAt (tabulate (overlapAt tap stride c) 0 (overlapSpan stride width c.length)) 0
      (pendingAt tap stride width p)
    raw.take (c.length * stride) =
        tabulate (overlapAt tap stride (p ++ c)) (p.length * stride) ((p ++ c).length * stride) ∧
      raw.drop (c.length * stride) = pendingAt tap stride width (p ++ c) := by
  have hspan : overlapSpan stride width c.length = c.length * stride + (width - stride) :=
    overlapSpan_eq hle fun h => hc (List.length_eq_zero_iff.mp h)
  have hoff : (p ++ c).length * stride = p.length * stride + c.length * stride := by
    rw [List.length_append, Nat.add_mul]
  simp only [pendingAt, addAt_pending htap hle]
  constructor
  · rw [← slice_zero, slice_tabulate (by omega), tabulate_shift (f := overlapAt tap stride (p ++ c)),
      hoff, Nat.add_zero, Nat.zero_add]
  · rw [drop_tabulate, hspan, tabulate_shift, tabulate_shift, hoff]
    congr 1 <;> omega

end Overlap

end JetsonVoice.Foundation
