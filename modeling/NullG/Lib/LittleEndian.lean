/-
Little-endian fields: a number written into a field of `w` bytes, and read back.

* `decode_encode` — a field holds its number modulo `256 ^ w`;
* `decode_encode_of_lt` — and the number itself when it fits.
-/

import Mathlib.Algebra.Ring.Int.Defs
import Mathlib.Algebra.Ring.Nat
import Mathlib.Data.List.Basic

namespace NullG.Lib.LittleEndian

/-- The low `w` bytes of `n`, the lowest first. -/
def encode : Nat → Nat → List UInt8
  | 0, _ => []
  | w + 1, n => n.toUInt8 :: encode w (n / 256)

/-- The number a field holds. -/
def decode : List UInt8 → Nat
  | [] => 0
  | b :: bs => b.toNat + 256 * decode bs

@[simp] theorem length_encode (w n : Nat) : (encode w n).length = w := by
  induction w generalizing n with
  | zero => rfl
  | succ w ih => simp only [encode, List.length_cons, ih]

theorem decode_encode (w n : Nat) : decode (encode w n) = n % 256 ^ w := by
  induction w generalizing n with
  | zero => simp only [encode, decode, Nat.pow_zero, Nat.mod_one]
  | succ w ih =>
      have hb : n.toUInt8.toNat = n % 256 := by simp [Nat.toUInt8]
      rw [encode, decode, ih, hb, Nat.pow_succ, Nat.mul_comm (256 ^ w) 256, Nat.mod_mul]

theorem decode_encode_of_lt {w n : Nat} (h : n < 256 ^ w) : decode (encode w n) = n := by
  rw [decode_encode, Nat.mod_eq_of_lt h]

/-- Only the number modulo `256 ^ w` matters to a field. -/
theorem encode_mod (w n : Nat) : encode w (n % 256 ^ w) = encode w n := by
  induction w generalizing n with
  | zero => rfl
  | succ w ih =>
      have hlow : (n % 256 ^ (w + 1)).toUInt8 = n.toUInt8 := by
        apply UInt8.toNat.inj
        simp only [Nat.toUInt8, UInt8.toNat_ofNat', Nat.reducePow]
        exact Nat.mod_mod_of_dvd n ⟨256 ^ w, by rw [Nat.pow_succ, Nat.mul_comm]⟩
      have hhigh : n % 256 ^ (w + 1) / 256 = n / 256 % 256 ^ w := by
        rw [Nat.pow_succ, Nat.mul_comm, Nat.mod_mul_right_div_self]
      rw [encode, encode, hlow, hhigh, ih]

end NullG.Lib.LittleEndian
