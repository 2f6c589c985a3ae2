import Mathlib.Algebra.Field.Defs
import Mathlib.Data.Complex.Basic
import Mathlib.Tactic.Ring

/-!
# The complex numbers of the transform library

`kiss_fft_cpx` over any ring of scalars, with the operations of its macros. They
make a commutative ring of it, and over the reals it is the complex numbers.
-/

namespace JetsonVoice.KissFft

/-- `kiss_fft_cpx`. -/
@[ext] structure Cpx (R : Type*) where
  r : R
  i : R
deriving DecidableEq

namespace Cpx
variable {R : Type*} [CommRing R]

/-- `C_MUL`. -/
def cMul (a b : Cpx R) : Cpx R := ⟨a.r * b.r - a.i * b.i, a.r * b.i + a.i * b.r⟩

/-- `C_ADD`; `C_ADDTO` adds to its first argument. -/
def cAdd (a b : Cpx R) : Cpx R := ⟨a.r + b.r, a.i + b.i⟩

/-- `C_SUB`. -/
def cSub (a b : Cpx R) : Cpx R := ⟨a.r - b.r, a.i - b.i⟩

/-- `C_MULBYSCALAR`. -/
def cMulByScalar (c : Cpx R) (s : R) : Cpx R := ⟨c.r * s, c.i * s⟩

instance : Zero (Cpx R) := ⟨⟨0, 0⟩⟩
instance : One (Cpx R) := ⟨⟨1, 0⟩⟩
instance : Add (Cpx R) := ⟨cAdd⟩
instance : Sub (Cpx R) := ⟨cSub⟩
instance : Mul (Cpx R) := ⟨cMul⟩
instance : Neg (Cpx R) := ⟨fun a => ⟨-a.r, -a.i⟩⟩

variable (a b : Cpx R)

theorem cMul_eq : cMul a b = a * b := rfl
theorem cAdd_eq : cAdd a b = a + b := rfl
theorem cSub_eq : cSub a b = a - b := rfl

@[simp] theorem zero_r : (0 : Cpx R).r = 0 := rfl
@[simp] theorem zero_i : (0 : Cpx R).i = 0 := rfl
@[simp] theorem one_r : (1 : Cpx R).r = 1 := rfl
@[simp] theorem one_i : (1 : Cpx R).i = 0 := rfl
@[simp] theorem add_r : (a + b).r = a.r + b.r := rfl
@[simp] theorem add_i : (a + b).i = a.i + b.i := rfl
@[simp] theorem sub_r : (a - b).r = a.r - b.r := rfl
@[simp] theorem sub_i : (a - b).i = a.i - b.i := rfl
@[simp] theorem neg_r : (-a).r = -a.r := rfl
@[simp] theorem neg_i : (-a).i = -a.i := rfl
@[simp] theorem mul_r : (a * b).r = a.r * b.r - a.i * b.i := rfl
@[simp] theorem mul_i : (a * b).i = a.r * b.i + a.i * b.r := rfl

instance : CommRing (Cpx R) where
  add_assoc a b c := by ext <;> simp only [add_r, add_i] <;> ring
  zero_add a := by ext <;> simp
  add_zero a := by ext <;> simp
  add_comm a b := by ext <;> simp only [add_r, add_i] <;> ring
  neg_add_cancel a := by ext <;> simp
  sub_eq_add_neg a b := by ext <;> simp only [sub_r, sub_i, add_r, add_i, neg_r, neg_i] <;> ring
  nsmul := nsmulRec
  zsmul := zsmulRec
  mul_assoc a b c := by ext <;> simp only [mul_r, mul_i] <;> ring
  one_mul a := by ext <;> simp
  mul_one a := by ext <;> simp
  mul_comm a b := by ext <;> simp only [mul_r, mul_i] <;> ring
  left_distrib a b c := by ext <;> simp only [mul_r, mul_i, add_r, add_i] <;> ring
  right_distrib a b c := by ext <;> simp only [mul_r, mul_i, add_r, add_i] <;> ring
  zero_mul a := by ext <;> simp
  mul_zero a := by ext <;> simp

/-- The conjugate. -/
def conj : Cpx R →+* Cpx R where
  toFun a := ⟨a.r, -a.i⟩
  map_one' := by ext <;> simp
  map_zero' := by ext <;> simp
  map_add' a b := by
    ext
    · simp
    · simp only [add_i]
      ring
  map_mul' a b := by
    ext
    · simp
    · simp only [mul_i]
      ring

@[simp] theorem conj_r : (conj a).r = a.r := rfl
@[simp] theorem conj_i : (conj a).i = -a.i := rfl

theorem conj_conj : conj (conj a) = a := by ext <;> simp

/-- A real number. -/
def ofReal (x : R) : Cpx R := ⟨x, 0⟩

@[simp] theorem ofReal_r (x : R) : (ofReal x).r = x := rfl
@[simp] theorem ofReal_i (x : R) : (ofReal x).i = 0 := rfl

theorem natCast_eq (n : Nat) : (n : Cpx R) = ofReal (n : R) := by
  induction n with
  | zero => ext <;> simp
  | succ n ih =>
      rw [Nat.cast_succ, ih]
      ext <;> simp

theorem conj_ofReal (x : R) : conj (ofReal x) = ofReal x := by ext <;> simp

/-- The imaginary unit. -/
def I : Cpx R := ⟨0, 1⟩

@[simp] theorem I_r : (I : Cpx R).r = 0 := rfl
@[simp] theorem I_i : (I : Cpx R).i = 1 := rfl

theorem I_mul_I : (I : Cpx R) * I = -1 := by ext <;> simp

/-- The numbers of norm one. -/
def Unit (a : Cpx R) : Prop := a.r * a.r + a.i * a.i = 1

theorem Unit.mul_conj {a : Cpx R} (h : a.Unit) : a * conj a = 1 := by
  ext
  · simp only [mul_r, conj_r, conj_i, one_r]
    rw [← h]
    ring
  · simp only [mul_i, conj_r, conj_i, one_i]
    ring

theorem unit_one : (1 : Cpx R).Unit := by simp [Unit]

theorem Unit.mul {a b : Cpx R} (ha : a.Unit) (hb : b.Unit) : (a * b).Unit := by
  calc
    (a * b).r * (a * b).r + (a * b).i * (a * b).i =
        (a.r * a.r + a.i * a.i) * (b.r * b.r + b.i * b.i) := by
      simp only [mul_r, mul_i]
      ring
    _ = 1 := by rw [ha, hb, one_mul]

theorem Unit.pow {a : Cpx R} (ha : a.Unit) (n : Nat) : (a ^ n).Unit := by
  induction n with
  | zero => simpa using unit_one
  | succ n ih =>
      rw [pow_succ]
      exact ih.mul ha

/-- The conjugate of a root of unity is the power that completes its order. -/
theorem Unit.conj_eq {a b : Cpx R} (ha : a.Unit) (h : a * b = 1) : conj a = b := by
  calc
    conj a = conj a * (a * b) := by rw [h, mul_one]
    _ = a * conj a * b := by ring
    _ = b := by rw [ha.mul_conj, one_mul]

end Cpx

/-- The complex number with the same parts. -/
def toComplex : Cpx ℝ →+* ℂ where
  toFun a := ⟨a.r, a.i⟩
  map_one' := rfl
  map_zero' := rfl
  map_add' _ _ := rfl
  map_mul' a b := by
    apply Complex.ext
    · simp
    · simp

@[simp] theorem toComplex_re (a : Cpx ℝ) : (toComplex a).re = a.r := rfl
@[simp] theorem toComplex_im (a : Cpx ℝ) : (toComplex a).im = a.i := rfl

theorem toComplex_injective : Function.Injective toComplex := fun _ _ h =>
  Cpx.ext (congrArg Complex.re h) (congrArg Complex.im h)

end JetsonVoice.KissFft
