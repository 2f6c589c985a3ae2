import Mathlib.Data.List.Basic
import Mathlib.Data.List.Induction
import Mathlib.Order.Nat

/-!
# Streams cut into chunks

A stream is worked on in chunks. Ranges of its positions tile an interval when
they follow one another, and a function on sequences is window consistent when
what it makes of a position depends only on a bounded left context.
-/

namespace JetsonVoice.Foundation

section Slice
variable {α β : Type*} {l l' : List α} {x : α} {a b c i : Nat}

/-- The items at the positions from `a` up to `b`. -/
def slice (l : List α) (a b : Nat) : List α := (l.drop a).take (b - a)

theorem length_slice (hb : b ≤ l.length) : (slice l a b).length = b - a := by
  simp only [slice, List.length_take, List.length_drop]
  omega

theorem getElem?_slice : (slice l a b)[i]? = if a + i < b then l[a + i]? else none := by
  simp only [slice, List.getElem?_take, List.getElem?_drop, Nat.lt_sub_iff_add_lt']

@[simp] theorem slice_self : slice l a a = [] := by simp [slice]

@[simp] theorem slice_all : slice l 0 l.length = l := by simp [slice]

theorem slice_zero : slice l 0 b = l.take b := by simp [slice]

theorem slice_append_slice (hab : a ≤ b) (hbc : b ≤ c) :
    slice l a b ++ slice l b c = slice l a c := by
  have hc : c - a = (b - a) + (c - b) := by omega
  rw [slice, slice, slice, hc, List.take_add, List.drop_drop, Nat.add_sub_cancel' hab]

theorem drop_slice : (slice l a b).drop c = slice l (a + c) b := by
  rw [slice, List.drop_take, List.drop_drop, Nat.sub_sub, slice]

theorem map_slice {f : α → β} : (slice l a b).map f = slice (l.map f) a b := by
  rw [slice, slice, List.map_take, List.map_drop]

/-- Slices of a front do not see what follows it. -/
theorem slice_append_left (hb : b ≤ l.length) : slice (l ++ l') a b = slice l a b := by
  apply List.ext_getElem?
  intro i
  rw [getElem?_slice, getElem?_slice]
  split
  · rw [List.getElem?_append_left (by omega)]
  · rfl

theorem slice_append_add : slice (l' ++ l) (l'.length + a) (l'.length + b) = slice l a b := by
  rw [slice, ← List.drop_drop, List.drop_left, Nat.add_sub_add_left, slice]

theorem slice_of_prefix (h : l <+: l') (hb : b ≤ l.length) : slice l' a b = slice l a b := by
  obtain ⟨r, rfl⟩ := h
  exact slice_append_left hb

theorem slice_of_le (h : l.length ≤ a) : slice l a b = [] := by
  rw [slice, List.drop_of_length_le h, List.take_nil]

/-- One more item is in the slice when its position is. -/
theorem slice_concat : slice (l ++ [x]) a b =
    slice l a b ++ if a ≤ l.length ∧ l.length < b then [x] else [] := by
  by_cases hb : l.length < b
  · by_cases ha : a ≤ l.length
    · have hx : [x].take (b - a - (l.length - a)) = [x] := by
        apply List.take_of_length_le
        rw [List.length_singleton]
        omega
      rw [if_pos ⟨ha, hb⟩, slice, slice, List.drop_append_of_le_length ha, List.take_append,
        List.length_drop, hx]
    · rw [if_neg (by omega), List.append_nil, slice_of_le (by simp; omega), slice_of_le (by omega)]
  · rw [if_neg (by omega), List.append_nil, slice_append_left (by omega)]

section Indexed
variable {f : Nat → α → β} {P : β → Bool}

/-- Filtering by an interval of the positions is slicing. -/
theorem filter_mapIdx (hP : ∀ i x, P (f i x) = true ↔ a ≤ i ∧ i < b) :
    (l.mapIdx f).filter P = slice (l.mapIdx f) a b := by
  induction l using List.reverseRecOn with
  | nil => simp [slice]
  | append_singleton l x ih =>
      rw [List.mapIdx_append, List.filter_append, ih]
      have hlen : (l.mapIdx f).length = l.length := List.length_mapIdx
      simp only [List.mapIdx_cons, List.mapIdx_nil, Nat.zero_add]
      rw [slice_concat, hlen]
      congr 1
      by_cases h : a ≤ l.length ∧ l.length < b
      · rw [if_pos h, List.filter_cons_of_pos ((hP _ _).mpr h), List.filter_nil]
      · rw [if_neg h, List.filter_cons_of_neg (by rwa [hP]), List.filter_nil]

/-- What is dropped first may be anything outside of the interval. -/
theorem filter_drop_mapIdx (hP : ∀ i x, P (f i x) = true ↔ a ≤ i ∧ i < b) (hc : c ≤ a) :
    ((l.mapIdx f).drop c).filter P = slice (l.mapIdx f) a b := by
  have htake : (l.mapIdx f).take c = (l.take c).mapIdx f := by
    apply List.ext_getElem?
    intro i
    rw [List.getElem?_take, List.getElem?_mapIdx, List.getElem?_mapIdx, List.getElem?_take]
    split
    · rfl
    · rw [Option.map_none]
  have hfront : ((l.mapIdx f).take c).filter P = [] := by
    rw [htake, filter_mapIdx hP]
    apply slice_of_le
    rw [List.length_mapIdx, List.length_take]
    omega
  calc
    ((l.mapIdx f).drop c).filter P =
        ((l.mapIdx f).take c).filter P ++ ((l.mapIdx f).drop c).filter P := by
      rw [hfront, List.nil_append]
    _ = slice (l.mapIdx f) a b := by
      rw [← List.filter_append, List.take_append_drop, filter_mapIdx hP]

end Indexed

end Slice

section Tiles

/-- Ranges that follow one another from `a` to `b`, without a gap or an overlap. -/
def Tiles (a : Nat) : List (Nat × Nat) → Nat → Prop
  | [], b => a = b
  | r :: rs, b => r.1 = a ∧ a ≤ r.2 ∧ Tiles r.2 rs b

variable {a b c : Nat} {rs : List (Nat × Nat)}

theorem Tiles.snoc (h : Tiles a rs b) (hbc : b ≤ c) : Tiles a (rs ++ [(b, c)]) c := by
  induction rs generalizing a with
  | nil =>
      cases h
      exact ⟨rfl, hbc, rfl⟩
  | cons r rs ih => exact ⟨h.1, h.2.1, ih h.2.2⟩

end Tiles

section Windows
variable {T S : Type*} {rate context : Nat} {f : List T → List S} {s w : List T} {a b c e : Nat}

/-- `f` turns every item into `rate` samples, and the samples of an item are the
same in every window that starts with the sequence or holds `context` items before it. -/
structure WindowConsistent (rate context : Nat) (f : List T → List S) : Prop where
  length : ∀ w, (f w).length = rate * w.length
  item : ∀ s a b i, a ≤ i → i < b → b ≤ s.length → (a = 0 ∨ a + context ≤ i) →
    slice (f (slice s a b)) (rate * (i - a)) (rate * (i - a + 1)) =
      slice (f s) (rate * i) (rate * (i + 1))

namespace WindowConsistent

/-- The samples of several items, out of a window with their context. -/
theorem items (h : WindowConsistent rate context f) (hae : a ≤ e) (hec : e ≤ c) (hcb : c ≤ b)
    (hb : b ≤ s.length) (hctx : a = 0 ∨ a + context ≤ e) :
    slice (f (slice s a b)) (rate * (e - a)) (rate * (c - a)) =
      slice (f s) (rate * e) (rate * c) := by
  induction c, hec using Nat.le_induction with
  | base => simp only [slice_self]
  | succ c hec ih =>
      have hmono {x y : Nat} (hxy : x ≤ y) : rate * x ≤ rate * y := Nat.mul_le_mul_left rate hxy
      have hlast := h.item s a b c (by omega) (by omega) hb (by omega)
      rw [← slice_append_slice (hmono hec) (hmono c.le_succ), ← ih (by omega), ← hlast,
        show c + 1 - a = c - a + 1 from by omega,
        slice_append_slice (hmono (by omega)) (hmono (by omega))]

/-- A front of the sequence is a window that starts with it. -/
theorem front (h : WindowConsistent rate context f) (hb : b ≤ s.length) :
    f (s.take b) = (f s).take (rate * b) := by
  have hlen : (f (s.take b)).length = rate * b := by
    rw [h.length, List.length_take, min_eq_left hb]
  have hitems := h.items (Nat.zero_le 0) (Nat.zero_le b) le_rfl hb (.inl rfl)
  rw [Nat.sub_zero, Nat.sub_zero, Nat.mul_zero, slice_zero, slice_zero, slice_zero,
    List.take_of_length_le hlen.le] at hitems
  exact hitems

/-- Items that follow a sequence do not change its samples. -/
theorem padded (h : WindowConsistent rate context f) (pad : List T) :
    (f (w ++ pad)).take (rate * w.length) = f w := by
  rw [← h.front (by simp), List.take_left]

/-- A window gives the samples of its last items, once those of the context are dropped. -/
theorem dropped (h : WindowConsistent rate context f) (hae : a ≤ e) (heb : e ≤ b)
    (hb : b ≤ s.length) (hctx : a = 0 ∨ a + context ≤ e) :
    (f (slice s a b)).drop (rate * (e - a)) = slice (f s) (rate * e) (rate * b) := by
  have hlen : (f (slice s a b)).length = rate * (b - a) := by rw [h.length, length_slice hb]
  rw [← h.items hae heb le_rfl hb hctx, ← hlen]
  exact (List.take_of_length_le (by rw [List.length_drop])).symm

end WindowConsistent

theorem slice_flatMap {g : T → List S} (hg : ∀ t, (g t).length = rate) {i : Nat} {t : T}
    (hi : s[i]? = some t) : slice (s.flatMap g) (rate * i) (rate * (i + 1)) = g t := by
  induction s generalizing i with
  | nil => cases hi
  | cons t' rest ih =>
      rw [List.flatMap_cons]
      cases i with
      | zero =>
          cases hi
          rw [Nat.mul_zero, slice_zero, Nat.zero_add, Nat.mul_one, ← hg t, List.take_left]
      | succ i =>
          have hlen (k : Nat) : rate * (k + 1) = (g t').length + rate * k := by
            rw [Nat.mul_succ, hg, Nat.add_comm]
          rw [hlen, hlen, slice_append_add]
          exact ih hi

/-- A function of the items one by one needs no context. -/
theorem windowConsistent_flatMap (context : Nat) {g : T → List S} (hg : ∀ t, (g t).length = rate) :
    WindowConsistent rate context fun s => s.flatMap g where
  length w := by simp [List.length_flatMap, hg, Nat.mul_comm]
  item s a b i ha hb hs _ := by
    have hi : s[i]? = some s[i] := List.getElem?_eq_getElem (hb.trans_le hs)
    have hwindow : (slice s a b)[i - a]? = some s[i] := by
      rw [getElem?_slice, Nat.add_sub_cancel' ha, if_pos hb, hi]
    rw [slice_flatMap hg hwindow, slice_flatMap hg hi]

end Windows

end JetsonVoice.Foundation
