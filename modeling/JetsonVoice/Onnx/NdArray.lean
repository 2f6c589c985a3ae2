import Mathlib.Algebra.BigOperators.Group.List.Basic
import Mathlib.Data.List.Forall2
import Mathlib.Tactic.Ring

/-!
# Arrays in row-major order

An array of any rank over any numbers is stored flat. A place in it is a list of
indices, one for each dimension; places inside the dimensions and flat indices below
their product stand for each other.
-/

namespace JetsonVoice.Onnx

/-- Every index is below its dimension. -/
def Inside (dims place : List Nat) : Prop := List.Forall₂ (fun d i => i < d) dims place

/-- The flat index of a place. -/
def offset : List Nat → List Nat → Nat
  | _ :: dims, i :: place => i * dims.prod + offset dims place
  | _, _ => 0

/-- The place of a flat index. -/
def place : List Nat → Nat → List Nat
  | [], _ => []
  | _ :: dims, k => k / dims.prod :: place dims (k % dims.prod)

section Places
variable {dims idx : List Nat} {k : Nat}

theorem offset_lt (h : Inside dims idx) : offset dims idx < dims.prod := by
  induction h with
  | nil => exact Nat.one_pos
  | @cons d i dims idx hi _ ih =>
      rw [offset, List.prod_cons]
      calc i * dims.prod + offset dims idx < i * dims.prod + dims.prod := Nat.add_lt_add_left ih _
        _ = (i + 1) * dims.prod := (Nat.succ_mul i dims.prod).symm
        _ ≤ d * dims.prod := Nat.mul_le_mul_right _ hi

theorem place_offset (h : Inside dims idx) : place dims (offset dims idx) = idx := by
  induction h with
  | nil => rfl
  | @cons d i dims idx _ hrest ih =>
      have hlt := offset_lt hrest
      have hpos : 0 < dims.prod := Nat.zero_lt_of_lt hlt
      rw [offset, place, Nat.mul_comm i, Nat.mul_add_div hpos, Nat.div_eq_of_lt hlt,
        Nat.mul_add_mod, Nat.mod_eq_of_lt hlt, ih, Nat.add_zero]

theorem inside_place (h : k < dims.prod) : Inside dims (place dims k) := by
  induction dims generalizing k with
  | nil => exact .nil
  | cons d dims ih =>
      rw [List.prod_cons] at h
      have hpos : 0 < dims.prod := Nat.pos_of_ne_zero fun h0 => by simp [h0] at h
      exact .cons ((Nat.div_lt_iff_lt_mul hpos).mpr h) (ih (Nat.mod_lt k hpos))

theorem offset_place (h : k < dims.prod) : offset dims (place dims k) = k := by
  induction dims generalizing k with
  | nil => exact (Nat.lt_one_iff.mp h).symm
  | cons d dims ih =>
      rw [List.prod_cons] at h
      have hpos : 0 < dims.prod := Nat.pos_of_ne_zero fun h0 => by simp [h0] at h
      rw [place, offset, ih (Nat.mod_lt k hpos), Nat.div_add_mod']

end Places

structure NdArray (α : Type) where
  dims : List Nat
  data : List α
  size_eq : data.length = dims.prod
  deriving DecidableEq

namespace NdArray

variable {α : Type}

/-- The array with given numbers at its places. -/
def ofPlaces (dims : List Nat) (f : List Nat → α) : NdArray α where
  dims := dims
  data := (List.range dims.prod).map fun k => f (place dims k)
  size_eq := by simp

/-- The same numbers under other dimensions. -/
def withDims (t : NdArray α) (dims : List Nat) (h : t.dims.prod = dims.prod) : NdArray α :=
  ⟨dims, t.data, t.size_eq.trans h⟩

def map {β : Type} (f : α → β) (t : NdArray α) : NdArray β :=
  ⟨t.dims, t.data.map f, (List.length_map f).trans t.size_eq⟩

@[simp] theorem dims_ofPlaces {dims : List Nat} {f : List Nat → α} :
    (ofPlaces dims f).dims = dims := rfl

variable [Zero α]

def flat (t : NdArray α) (k : Nat) : α := t.data.getD k 0

/-- The number at a place. -/
def get (t : NdArray α) (idx : List Nat) : α := t.flat (offset t.dims idx)

section Lemmas
variable {t u : NdArray α} {dims idx : List Nat} {f g : List Nat → α}

theorem get_ofPlaces (h : Inside dims idx) : (ofPlaces dims f).get idx = f idx := by
  have hlt := offset_lt h
  rw [get, flat, dims_ofPlaces, ofPlaces]
  simp only [List.getD_eq_getElem?_getD, List.getElem?_map, List.getElem?_range hlt,
    Option.map_some, Option.getD_some, place_offset h]

/-- Arrays of the same dimensions are the same when their numbers are. -/
theorem ext_get (hd : t.dims = u.dims) (h : ∀ idx, Inside t.dims idx → t.get idx = u.get idx) :
    t = u := by
  obtain ⟨dims, data, hsize⟩ := t
  obtain ⟨dims', data', hsize'⟩ := u
  obtain rfl : dims = dims' := hd
  have hdata : data = data' := by
    refine List.ext_getElem (hsize.trans hsize'.symm) fun k hk hk' => ?_
    have hk'' : k < dims.prod := hsize ▸ hk
    have := h (place dims k) (inside_place hk'')
    simpa [get, flat, offset_place hk'', hk, hk'] using this
  subst hdata
  rfl

theorem ofPlaces_congr (h : ∀ idx, Inside dims idx → f idx = g idx) :
    ofPlaces dims f = ofPlaces dims g :=
  ext_get rfl fun idx (hidx : Inside dims idx) => by
    rw [get_ofPlaces hidx, get_ofPlaces hidx, h idx hidx]

/-- A place of other dimensions holds the number at the place with the same flat index. -/
theorem get_withDims (h : t.dims.prod = dims.prod) {idx' : List Nat}
    (hoffset : offset dims idx = offset t.dims idx') :
    (t.withDims dims h).get idx = t.get idx' := by
  rw [get, get]
  change t.flat (offset dims idx) = _
  rw [hoffset]

end Lemmas

end NdArray

end JetsonVoice.Onnx
