import Mathlib.Data.Nat.ModEq

/-!
# Bits collected in a machine word

Groups of bits are pushed in at the low end of a word, and bytes are read off
above the bits that are left. The word is never masked: what was pushed before
is shifted out at the other end, or stays above the bits that are read.
-/

namespace JetsonVoice.Foundation

namespace BitAccumulator

variable {w k n s x : Nat} {acc : BitVec w}

/-- The lowest `n` bits of a word. -/
def low (acc : BitVec w) (n : Nat) : Nat := acc.toNat % 2 ^ n

/-- A word with `k` more bits at its low end. -/
def push (k : Nat) (acc : BitVec w) (x : Nat) : BitVec w := acc <<< k ||| BitVec.ofNat w x

/-- The byte above the lowest `s` bits, found by an arithmetic shift. -/
def byteAbove (acc : BitVec w) (s : Nat) : UInt8 :=
  UInt8.ofBitVec ((acc.sshiftRight s &&& 0xFF).setWidth 8)

@[simp] theorem low_zero : low acc 0 = 0 := Nat.mod_one _

theorem low_mod (h : n ≤ s) : low acc s % 2 ^ n = low acc n :=
  Nat.mod_mod_of_dvd _ (Nat.pow_dvd_pow 2 h)

theorem toNat_push (hx : x < 2 ^ k) (hk : k ≤ w) :
    (push k acc x).toNat = low acc (w - k) * 2 ^ k + x := by
  have hw : 2 ^ w = 2 ^ (w - k) * 2 ^ k := by rw [← Nat.pow_add, Nat.sub_add_cancel hk]
  have hxw : x < 2 ^ w := hx.trans_le (Nat.pow_le_pow_right Nat.two_pos hk)
  rw [push, BitVec.toNat_or, BitVec.toNat_shiftLeft, BitVec.toNat_ofNat, Nat.mod_eq_of_lt hxw,
    Nat.shiftLeft_eq, hw, Nat.mul_mod_mul_right, ← Nat.shiftLeft_eq,
    ← Nat.shiftLeft_add_eq_or_of_lt hx, Nat.shiftLeft_eq, low]

/-- The low bits after a push are those before it and the bits pushed. -/
theorem low_push (hx : x < 2 ^ k) (h : n + k ≤ w) :
    low (push k acc x) (n + k) = low acc n * 2 ^ k + x := by
  have hlow : low acc n * 2 ^ k + x < 2 ^ (n + k) := by
    have hlt : low acc n < 2 ^ n := Nat.mod_lt _ (Nat.two_pow_pos n)
    rw [Nat.pow_add]
    calc low acc n * 2 ^ k + x < low acc n * 2 ^ k + 2 ^ k := Nat.add_lt_add_left hx _
      _ = (low acc n + 1) * 2 ^ k := (Nat.succ_mul ..).symm
      _ ≤ 2 ^ n * 2 ^ k := Nat.mul_le_mul_right _ hlt
  rw [low, toNat_push hx (by omega), ← low_mod (n := n) (s := w - k) (by omega)]
  rw [← low_mod (n := n) (s := w - k) (by omega)] at hlow
  rw [← Nat.mod_eq_of_lt hlow, Nat.pow_add]
  exact ((Nat.mod_modEq _ _).mul_right' _ |>.add_right x).symm

/-- A push may add the bits instead of joining them. -/
theorem shiftLeft_add (hx : x < 2 ^ k) (hk : k ≤ w) :
    acc <<< k + BitVec.ofNat w x = push k acc x := by
  have hw : 2 ^ w = 2 ^ (w - k) * 2 ^ k := by rw [← Nat.pow_add, Nat.sub_add_cancel hk]
  have hxw : x < 2 ^ w := hx.trans_le (Nat.pow_le_pow_right Nat.two_pos hk)
  apply BitVec.eq_of_toNat_eq
  have hpush : (push k acc x).toNat = low acc (w - k) * 2 ^ k + x := toNat_push hx hk
  have hlt := (push k acc x).isLt
  rw [hpush] at hlt ⊢
  rw [BitVec.toNat_add, BitVec.toNat_shiftLeft, BitVec.toNat_ofNat, Nat.mod_eq_of_lt hxw,
    Nat.shiftLeft_eq, hw, Nat.mul_mod_mul_right, ← hw]
  exact Nat.mod_eq_of_lt hlt

theorem toNat_byteAbove (h : s + 8 ≤ w) : (byteAbove acc s).toNat = low acc (s + 8) / 2 ^ s := by
  have hbits : (acc.sshiftRight s &&& 0xFF).setWidth 8 =
      BitVec.ofNat 8 (low acc (s + 8) / 2 ^ s) := by
    apply BitVec.eq_of_getLsbD_eq
    intro i hi
    have hmask : (0xFF : BitVec w).getLsbD i = true := by
      have h255 : (0xFF : BitVec w) = BitVec.ofNat w (2 ^ 8 - 1) := rfl
      rw [h255, BitVec.getLsbD_ofNat, Nat.testBit_two_pow_sub_one]
      simp only [decide_eq_true hi, Bool.and_true, decide_eq_true_eq]
      omega
    rw [BitVec.getLsbD_setWidth, BitVec.getLsbD_and, hmask, BitVec.getLsbD_sshiftRight,
      BitVec.getLsbD_ofNat, low, Nat.testBit_div_two_pow, Nat.testBit_mod_two_pow]
    simp [hi, show s + i < w by omega, show i < w by omega, BitVec.getLsbD, Nat.add_comm]
  have hlt : low acc (s + 8) / 2 ^ s < 2 ^ 8 := by
    rw [Nat.div_lt_iff_lt_mul (Nat.two_pow_pos s), ← Nat.pow_add, Nat.add_comm 8]
    exact Nat.mod_lt _ (Nat.two_pow_pos _)
  rw [byteAbove, hbits, UInt8.toNat_ofBitVec, BitVec.toNat_ofNat, Nat.mod_eq_of_lt hlt]

end BitAccumulator

end JetsonVoice.Foundation
