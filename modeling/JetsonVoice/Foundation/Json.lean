import Mathlib.Algebra.Group.Int.Defs
import Mathlib.Algebra.Group.Nat.Defs
import Mathlib.Data.Int.Basic

/-!
# JSON values and typed field access

The values both ends of the pipes exchange, with the typed field access of the
C++ workers' JSON library: `value(key, default)` throws when the receiver is
not an object or the stored value does not convert to the default's type.

## Implementation notes

A number keeps the distinction the library makes between an integer and a
decimal; `decimal m e` is `m / 10 ^ e`. Field lists are looked up from the
front, so a value made by a parser has each key at most once.
-/

namespace JetsonVoice.Foundation

/-- A result of two fallible computations in sequence has a result of each. -/
theorem bind_eq_ok {ε α β : Type} {x : Except ε α} {f : α → Except ε β} {r : β} :
    (x >>= f) = .ok r ↔ ∃ a, x = .ok a ∧ f a = .ok r := by
  cases x <;> simp [bind, Except.bind]

/-- A JSON value. -/
inductive Json where
  | null
  | bool (b : Bool)
  | int (n : Int)
  | decimal (mantissa : Int) (exponent : Nat)
  | str (s : String)
  | arr (items : List Json)
  | obj (fields : List (String × Json))
  deriving Repr

namespace Json

mutual

/-- Equality of JSON values is decidable by recursion on the first value. -/
def decEq : (a b : Json) → Decidable (a = b)
  | null, null => isTrue rfl
  | bool a, bool b => decidable_of_iff (a = b) (by simp)
  | int a, int b => decidable_of_iff (a = b) (by simp)
  | decimal a e, decimal b f => decidable_of_iff (a = b ∧ e = f) (by simp)
  | str a, str b => decidable_of_iff (a = b) (by simp)
  | arr a, arr b => @decidable_of_iff _ (a = b) (by simp) (decEqItems a b)
  | obj a, obj b => @decidable_of_iff _ (a = b) (by simp) (decEqFields a b)
  | null, bool _ | null, int _ | null, decimal _ _ | null, str _ | null, arr _ | null, obj _
  | bool _, null | bool _, int _ | bool _, decimal _ _ | bool _, str _ | bool _, arr _
  | bool _, obj _ | int _, null | int _, bool _ | int _, decimal _ _ | int _, str _
  | int _, arr _ | int _, obj _ | decimal _ _, null | decimal _ _, bool _ | decimal _ _, int _
  | decimal _ _, str _ | decimal _ _, arr _ | decimal _ _, obj _ | str _, null | str _, bool _
  | str _, int _ | str _, decimal _ _ | str _, arr _ | str _, obj _ | arr _, null
  | arr _, bool _ | arr _, int _ | arr _, decimal _ _ | arr _, str _ | arr _, obj _
  | obj _, null | obj _, bool _ | obj _, int _ | obj _, decimal _ _ | obj _, str _
  | obj _, arr _ => isFalse nofun

/-- Equality of the items of two arrays. -/
def decEqItems : (as bs : List Json) → Decidable (as = bs)
  | [], [] => isTrue rfl
  | [], _ :: _ | _ :: _, [] => isFalse nofun
  | a :: as, b :: bs =>
      @decidable_of_iff _ (a = b ∧ as = bs) (by simp)
        (@instDecidableAnd _ _ (decEq a b) (decEqItems as bs))

/-- Equality of the fields of two objects. -/
def decEqFields : (as bs : List (String × Json)) → Decidable (as = bs)
  | [], [] => isTrue rfl
  | [], _ :: _ | _ :: _, [] => isFalse nofun
  | (k, a) :: as, (k', b) :: bs =>
      @decidable_of_iff _ (k = k' ∧ a = b ∧ as = bs) (by simp [and_assoc])
        (@instDecidableAnd _ _ inferInstance
          (@instDecidableAnd _ _ (decEq a b) (decEqFields as bs)))

end

instance : DecidableEq Json := decEq

/-- The stored value of a field; a value that is not an object has no fields. -/
def field? (j : Json) (key : String) : Option Json :=
  match j with
  | obj fields => fields.lookup key
  | _ => none

/-- `contains(key)`. -/
def contains (j : Json) (key : String) : Bool := (j.field? key).isSome

/-- `is_object()`. -/
def isObject : Json → Bool
  | obj _ => true
  | _ => false

/-- The string stored under a key, when what is stored is a string. -/
def str? (j : Json) (key : String) : Option String :=
  match j.field? key with
  | some (str s) => some s
  | _ => none

/-- The library's name of a value's type in its error texts. -/
def typeName : Json → String
  | null => "null"
  | bool _ => "boolean"
  | int _ => "number"
  | decimal _ _ => "number"
  | str _ => "string"
  | arr _ => "array"
  | obj _ => "object"

/-- Assign one field of an object, replacing a value stored under the key. -/
def setField (j : Json) (key : String) (v : Json) : Json :=
  match j with
  | obj fields => obj (fields.filter (fun p => p.1 ≠ key) ++ [(key, v)])
  | _ => obj [(key, v)]

/-- `erase(key)`. -/
def eraseField (j : Json) (key : String) : Json :=
  match j with
  | obj fields => obj (fields.filter fun p => p.1 ≠ key)
  | _ => j

/-- The errors of typed access, by the number the library gives them. -/
inductive TypeError where
  | conversion (expected actual : String)
  | receiver (actual : String)
  deriving DecidableEq, Repr

/-- The text of the exception. -/
def TypeError.what : TypeError → String
  | .conversion expected actual =>
      "[json.exception.type_error.302] type must be " ++ expected ++ ", but is " ++ actual
  | .receiver actual =>
      "[json.exception.type_error.306] cannot use value() with " ++ actual

/-- `value(key, default)` for a conversion `conv` to the default's type. -/
def valueWith {α : Type} (conv : Json → Except TypeError α) (j : Json) (key : String)
    (default : α) : Except TypeError α :=
  match j with
  | obj fields =>
      match fields.lookup key with
      | some v => conv v
      | none => .ok default
  | _ => .error (.receiver j.typeName)

/-- Conversion to a string accepts strings only. -/
def toStr : Json → Except TypeError String
  | str s => .ok s
  | j => .error (.conversion "string" j.typeName)

/-- Conversion to a Boolean accepts Booleans only. -/
def toBool : Json → Except TypeError Bool
  | bool b => .ok b
  | j => .error (.conversion "boolean" j.typeName)

/-- Conversion to a 32-bit integer accepts every arithmetic value: decimals are
truncated towards zero, Booleans are 0 or 1. -/
def toInt32 : Json → Except TypeError Int
  | int n => .ok (Int.bmod n (2 ^ 32))
  | decimal m e => .ok (Int.bmod (Int.tdiv m (10 ^ e)) (2 ^ 32))
  | bool b => .ok (if b then 1 else 0)
  | j => .error (.conversion "number" j.typeName)

/-- Conversion to a floating-point number only checks that the value is
arithmetic here; the number itself is kept as it was sent. -/
def toFloat : Json → Except TypeError Json
  | int n => .ok (int n)
  | decimal m e => .ok (decimal m e)
  | bool b => .ok (bool b)
  | j => .error (.conversion "number" j.typeName)

def valueStr : Json → String → String → Except TypeError String := valueWith toStr
def valueBool : Json → String → Bool → Except TypeError Bool := valueWith toBool
def valueInt : Json → String → Int → Except TypeError Int := valueWith toInt32
def valueFloat : Json → String → Json → Except TypeError Json := valueWith toFloat

/-- Typed access succeeds on objects only. -/
theorem isObject_of_valueWith {α : Type} {conv : Json → Except TypeError α} {j : Json}
    {key : String} {d a : α} (h : valueWith conv j key d = .ok a) : j.isObject = true := by
  cases j <;> simp_all [valueWith, isObject]

/-- A string field that is read back without its default was stored as that string. -/
theorem str?_of_valueStr {j : Json} {key d s : String} (h : j.valueStr key d = .ok s)
    (hc : j.contains key = true) : j.str? key = some s := by
  cases j with
  | obj fields =>
      cases hl : fields.lookup key with
      | none => simp [contains, field?, hl] at hc
      | some v =>
          cases v <;> simp_all [valueStr, valueWith, toStr, str?, field?]
  | _ => simp [contains, field?] at hc

theorem valueStr_of_str? {j : Json} {key s : String} (d : String) (h : j.str? key = some s) :
    j.valueStr key d = .ok s := by
  cases j with
  | obj fields =>
      cases hl : fields.lookup key with
      | none => simp [str?, field?, hl] at h
      | some v => cases v <;> simp_all [valueStr, valueWith, toStr, str?, field?]
  | _ => simp [str?, field?] at h

theorem isObject_of_contains {j : Json} {key : String} (h : j.contains key = true) :
    j.isObject = true := by
  cases j <;> simp_all [contains, field?, isObject]

theorem contains_of_str? {j : Json} {key s : String} (h : j.str? key = some s) :
    j.contains key = true := by
  rw [str?] at h
  split at h
  · simp [contains, *]
  · cases h

/-- Without the field, typed access returns the default. -/
theorem valueStr_default {j : Json} {key d s : String} (h : j.valueStr key d = .ok s)
    (hc : j.contains key = false) : s = d := by
  cases j with
  | obj fields =>
      cases hl : fields.lookup key with
      | none =>
          simp only [valueStr, valueWith, hl, Except.ok.injEq] at h
          exact h.symm
      | some v => simp [contains, field?, hl] at hc
  | _ => simp [valueStr, valueWith] at h

/-- Whether typed access succeeds does not depend on the default. -/
theorem valueStr_ok {j : Json} {key d s : String} (d' : String) (h : j.valueStr key d = .ok s) :
    ∃ s', j.valueStr key d' = .ok s' := by
  cases j with
  | obj fields =>
      cases hl : fields.lookup key with
      | none => exact ⟨d', by simp [valueStr, valueWith, hl]⟩
      | some v => exact ⟨s, by simpa [valueStr, valueWith, hl] using h⟩
  | _ => simp [valueStr, valueWith] at h

/-- A value other than the default is that of the field. -/
theorem valueStr_eq_ok_iff {j : Json} {key d s : String} (hne : s ≠ d) :
    j.valueStr key d = .ok s ↔ j.str? key = some s := by
  constructor
  · intro h
    apply str?_of_valueStr h
    by_contra hc
    exact hne (valueStr_default h (by simpa using hc))
  · exact valueStr_of_str? d

/-- With the field present the default does not matter. -/
theorem valueStr_congr {j : Json} {key : String} (d d' : String)
    (hc : j.contains key = true) : j.valueStr key d = j.valueStr key d' := by
  cases j with
  | obj fields =>
      cases hl : fields.lookup key with
      | none => simp [contains, field?, hl] at hc
      | some v => simp [valueStr, valueWith, hl]
  | _ => simp [contains, field?] at hc

/-- The field is absent or holds a string. -/
def OptStr (j : Json) (key : String) : Prop := ∀ v, j.field? key = some v → ∃ s, v = .str s

/-- The field is absent or holds a Boolean. -/
def OptBool (j : Json) (key : String) : Prop := ∀ v, j.field? key = some v → ∃ b, v = .bool b

/-- Typed access succeeds on the objects whose field, when there is one, converts. -/
theorem valueWith_ok_iff {α : Type} {conv : Json → Except TypeError α} {j : Json} {key : String}
    {d : α} : (∃ a, valueWith conv j key d = .ok a) ↔
      j.isObject = true ∧ ∀ v, j.field? key = some v → ∃ a, conv v = .ok a := by
  cases j with
  | obj fields =>
      cases hl : fields.lookup key with
      | none => simp [valueWith, isObject, field?, hl]
      | some v => simp [valueWith, isObject, field?, hl]
  | _ => simp [valueWith, isObject]

theorem valueStr_ok_iff {j : Json} {key d : String} :
    (∃ s, j.valueStr key d = .ok s) ↔ j.isObject = true ∧ j.OptStr key := by
  have hconv (v : Json) : (∃ s, toStr v = .ok s) ↔ ∃ s, v = .str s := by
    cases v <;> simp [toStr]
  simp only [valueStr, valueWith_ok_iff, hconv, OptStr]

theorem valueBool_ok_iff {j : Json} {key : String} {d : Bool} :
    (∃ b, j.valueBool key d = .ok b) ↔ j.isObject = true ∧ j.OptBool key := by
  have hconv (v : Json) : (∃ b, toBool v = .ok b) ↔ ∃ b, v = .bool b := by
    cases v <;> simp [toBool]
  simp only [valueBool, valueWith_ok_iff, hconv, OptBool]

section Assignment
variable {j : Json} {key key' : String}

theorem lookup_filter_self (fields : List (String × Json)) (key : String) :
    (fields.filter fun p => p.1 ≠ key).lookup key = none := by
  induction fields with
  | nil => rfl
  | cons p fields ih =>
      by_cases hp : p.1 = key
      · rw [List.filter_cons_of_neg (by simp [hp]), ih]
      · have hne : (key == p.1) = false := beq_false_of_ne (Ne.symm hp)
        rw [List.filter_cons_of_pos (by simp [hp]), List.lookup_cons, hne]
        exact ih

theorem lookup_filter_ne (fields : List (String × Json)) (h : key' ≠ key) :
    (fields.filter fun p => p.1 ≠ key).lookup key' = fields.lookup key' := by
  induction fields with
  | nil => rfl
  | cons p fields ih =>
      by_cases hp : p.1 = key
      · have hne : (key' == p.1) = false := beq_false_of_ne (hp ▸ h)
        rw [List.filter_cons_of_neg (by simp [hp]), List.lookup_cons, hne]
        exact ih
      · rw [List.filter_cons_of_pos (by simp [hp]), List.lookup_cons, List.lookup_cons, ih]

/-- An assigned field is read back. -/
@[simp] theorem field?_setField_self (j : Json) (key : String) (v : Json) :
    (j.setField key v).field? key = some v := by
  cases j with
  | obj fields =>
      rw [setField, field?, List.lookup_append, lookup_filter_self]
      simp
  | _ => simp [setField, field?]

/-- Assigning a field leaves the others alone. -/
theorem field?_setField_ne (v : Json) (h : key' ≠ key) :
    (j.setField key v).field? key' = j.field? key' := by
  have hne : (key' == key) = false := beq_false_of_ne h
  cases j with
  | obj fields =>
      rw [setField, field?, List.lookup_append, lookup_filter_ne fields h, List.lookup_cons, hne]
      simp [field?]
  | _ => simp [setField, field?, h]

theorem str?_setField_ne (v : Json) (h : key' ≠ key) :
    (j.setField key v).str? key' = j.str? key' := by
  rw [str?, field?_setField_ne v h, str?]

/-- Typed access to an object depends on the one field only. -/
theorem valueWith_congr {α : Type} {conv : Json → Except TypeError α} {j j' : Json} {d : α}
    (hj : j.isObject = true) (hj' : j'.isObject = true) (h : j.field? key = j'.field? key) :
    valueWith conv j key d = valueWith conv j' key d := by
  cases j with
  | obj fields =>
      cases j' with
      | obj fields' => simp only [valueWith, show fields.lookup key = fields'.lookup key from h]
      | _ => cases hj'
  | _ => cases hj

@[simp] theorem isObject_setField (j : Json) (key : String) (v : Json) :
    (j.setField key v).isObject = true := by
  cases j <;> rfl

end Assignment

end Json

end JetsonVoice.Foundation
