/-
Bytes and sextets.

The bits of three bytes are cut into four sextets, and two neighbours among these have the bits of the byte between
them.
-/

import Mathlib.Tactic.IntervalCases

namespace NullG.Lib.Sextets

/-! ### Cutting -/

/-- The first six bits of a byte. -/
def first (a : UInt8) : UInt8 := a >>> 2

/-- The last two bits of a byte and the first four of the next one. -/
def second (a b : UInt8) : UInt8 := ((a <<< 4) &&& (0x30 : UInt8)) ||| (b >>> 4)

/-- The last four bits of a byte and the first two of the next one. -/
def third (b c : UInt8) : UInt8 := ((b <<< 2) &&& (0x3c : UInt8)) ||| (c >>> 6)

/-- The last six bits of a byte. -/
def fourth (c : UInt8) : UInt8 := c &&& (0x3f : UInt8)

section

variable (a b c : UInt8)

/-- A byte is its bits. -/
theorem ext_bits {x y : UInt8} (h : ∀ i < 8, x.toBitVec.getLsbD i = y.toBitVec.getLsbD i) : x = y :=
  UInt8.eq_of_toBitVec_eq (BitVec.eq_of_getLsbD_eq h)

theorem second_zero : second a 0 = (a <<< 4) &&& (0x30 : UInt8) := UInt8.or_zero

theorem third_zero : third b 0 = (b <<< 2) &&& (0x3c : UInt8) := UInt8.or_zero

/-! ### Putting together -/

theorem join_first : ((first a) <<< 2) ||| ((second a b) >>> 4) = a := by
  refine ext_bits fun i hi => ?_
  interval_cases i <;> simp [first, second]

theorem join_second : (((second a b) &&& (0x0f : UInt8)) <<< 4) ||| ((third b c) >>> 2) = b := by
  refine ext_bits fun i hi => ?_
  interval_cases i <;> simp [second, third]

theorem join_third : (((third b c) &&& (0x03 : UInt8)) <<< 6) ||| fourth c = c := by
  refine ext_bits fun i hi => ?_
  interval_cases i <;> simp [third, fourth]

/-! ### Bounds -/

/-- A byte without its first two bits is a sextet. -/
theorem sextet_of_bits {x : UInt8} (h6 : x.toBitVec.getLsbD 6 = false) (h7 : x.toBitVec.getLsbD 7 = false) : x < 64 := by
  have hmask : x &&& (0x3f : UInt8) = x := by
    refine ext_bits fun i hi => ?_
    interval_cases i <;> simp_all
  have hle : x.toNat ≤ 0x3f := by
    rw [← hmask, UInt8.toNat_and]
    exact Nat.and_le_right
  exact UInt8.lt_iff_toNat_lt.mpr (Nat.lt_succ_of_le hle)

theorem first_lt : first a < 64 := sextet_of_bits (by simp [first]) (by simp [first])

theorem second_lt : second a b < 64 := sextet_of_bits (by simp [second]) (by simp [second])

theorem third_lt : third b c < 64 := sextet_of_bits (by simp [third]) (by simp [third])

theorem fourth_lt : fourth c < 64 := sextet_of_bits (by simp [fourth]) (by simp [fourth])

/-- What holds of the numbers below 64 holds of every sextet. -/
theorem sextet_all {p : UInt8 → Bool} (h : (List.range 64).all (fun n => p n.toUInt8) = true) {x : UInt8}
    (hx : x < 64) : p x = true := by
  have hp := List.all_eq_true.mp h x.toNat (List.mem_range.mpr (UInt8.lt_iff_toNat_lt.mp hx))
  rwa [Nat.toUInt8, UInt8.ofNat_toNat] at hp

end

end NullG.Lib.Sextets
