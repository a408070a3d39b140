/-
Rounding to a number of significant bits, to the nearest and at a tie to the even one: a natural number that has so many
bits is exact, and a quotient of naturals is rounded to an integer only where it is one (`round_div_eq_iff`).
-/

import Mathlib.Data.Int.Log
import Mathlib.Data.Rat.Floor
import Mathlib.Algebra.Order.Round
import Mathlib.Tactic.Linarith
import Mathlib.Tactic.Positivity
import Mathlib.Tactic.FieldSimp
import Mathlib.Tactic.Ring

namespace NullG.Lib.Rounding

/-- The integer next to a number, the even one of two. -/
def nearest (q : ℚ) : ℤ :=
  if q - ⌊q⌋ < 1 / 2 then ⌊q⌋
  else if 1 / 2 < q - ⌊q⌋ then ⌊q⌋ + 1
  else if ⌊q⌋ % 2 = 0 then ⌊q⌋ else ⌊q⌋ + 1

/-- What the last of `p` significant bits is worth. -/
def ulp (p : ℕ) (q : ℚ) : ℚ := 2 ^ (Int.log 2 |q| + 1 - p)

/-- A number in `p` significant bits. -/
def round (p : ℕ) (q : ℚ) : ℚ := nearest (q / ulp p q) * ulp p q

theorem nearest_intCast (k : ℤ) : nearest k = k := by
  simp [nearest]

theorem nearest_error (q : ℚ) : |(nearest q : ℚ) - q| ≤ 1 / 2 := by
  have hlo := Int.floor_le q
  have hhi := Int.lt_floor_add_one q
  unfold nearest
  split_ifs <;> rw [abs_le] <;> constructor <;> push_cast <;> linarith

theorem ulp_pos (p : ℕ) (q : ℚ) : 0 < ulp p q := zpow_pos (by norm_num) _

theorem round_zero (p : ℕ) : round p 0 = 0 := by
  simp [round, nearest]

/-- Half a unit of the last bit is the most that is lost. -/
theorem round_error (p : ℕ) (q : ℚ) : |round p q - q| ≤ ulp p q / 2 := by
  have hpos := ulp_pos p q
  have hscale : round p q - q = (nearest (q / ulp p q) - q / ulp p q) * ulp p q := by
    unfold round
    rw [sub_mul, div_mul_cancel₀ q hpos.ne']
  rw [hscale, abs_mul, abs_of_pos hpos]
  calc |(nearest (q / ulp p q) : ℚ) - q / ulp p q| * ulp p q
      ≤ 1 / 2 * ulp p q := mul_le_mul_of_nonneg_right (nearest_error _) hpos.le
    _ = ulp p q / 2 := by ring

/-- The unit is small beside the number. -/
theorem ulp_le (p : ℕ) {q : ℚ} (hq : 0 < q) : ulp p q / 2 ≤ q / 2 ^ p := by
  have hlog : (2 : ℚ) ^ Int.log 2 |q| ≤ q := by
    have h := Int.zpow_log_le_self (b := 2) (r := |q|) (by decide) (abs_pos.mpr hq.ne')
    rwa [abs_of_pos hq] at h ⊢
  have hsplit : ulp p q = 2 ^ Int.log 2 |q| * 2 / 2 ^ p := by
    unfold ulp
    rw [zpow_sub₀ (by norm_num), zpow_add₀ (by norm_num), zpow_one, zpow_natCast]
  rw [hsplit, div_right_comm, mul_div_cancel_right₀ _ (by norm_num : (2 : ℚ) ≠ 0)]
  exact div_le_div_of_nonneg_right hlog (by positivity)

theorem ulp_neg (p : ℕ) (q : ℚ) : ulp p (-q) = ulp p q := by
  rw [ulp, abs_neg, ulp]

/-- The unit of a natural number of `p` bits divides it. -/
theorem exists_div_ulp {p n : ℕ} (h : n < 2 ^ p) : ∃ k : ℤ, (n : ℚ) / ulp p (n : ℚ) = k := by
  rcases Nat.eq_zero_or_pos n with rfl | hn
  · exact ⟨0, by rw [Nat.cast_zero, zero_div, Int.cast_zero]⟩
  have hlog : Nat.log 2 n < p := Nat.log_lt_of_lt_pow hn.ne' h
  obtain ⟨k, hk⟩ : ∃ k : ℕ, p = Nat.log 2 n + 1 + k := Nat.exists_eq_add_of_le hlog
  have hulp : ulp p (n : ℚ) = (2 ^ k)⁻¹ := by
    unfold ulp
    rw [Nat.abs_cast, Int.log_natCast, hk, ← zpow_natCast, ← zpow_neg]
    congr 1
    push_cast
    ring
  refine ⟨((n * 2 ^ k : ℕ) : ℤ), ?_⟩
  rw [hulp, div_inv_eq_mul]
  push_cast
  rfl

/-- A natural number of `p` bits is kept. -/
theorem round_natCast {p n : ℕ} (h : n < 2 ^ p) : round p (n : ℚ) = n := by
  obtain ⟨k, hk⟩ := exists_div_ulp h
  rw [round, hk, nearest_intCast, ← hk, div_mul_cancel₀ _ (ulp_pos p _).ne']

/-- So is one with a minus sign. -/
theorem round_neg_natCast {p n : ℕ} (h : n < 2 ^ p) : round p (-(n : ℚ)) = -n := by
  obtain ⟨k, hk⟩ := exists_div_ulp h
  rw [round, ulp_neg, neg_div, hk, ← Int.cast_neg, nearest_intCast, Int.cast_neg, ← hk, neg_mul,
    div_mul_cancel₀ _ (ulp_pos p _).ne']

/-- A quotient of naturals comes out as an integer only where it is one. -/
theorem round_div_eq_iff {p n b k : ℕ} (hn : n < 2 ^ p) (hb : 0 < b) :
    round p ((n : ℚ) / b) = k ↔ n = k * b := by
  have hbq : (0 : ℚ) < b := Nat.cast_pos.mpr hb
  constructor
  · intro h
    rcases Nat.eq_zero_or_pos n with rfl | hpos
    · rw [Nat.cast_zero, zero_div, round_zero] at h
      have hk : k = 0 := Nat.cast_eq_zero.mp h.symm
      rw [hk, Nat.zero_mul]
    have hnq : (0 : ℚ) < n := Nat.cast_pos.mpr hpos
    have herror := (round_error p ((n : ℚ) / b)).trans (ulp_le p (div_pos hnq hbq))
    rw [h] at herror
    -- The loss times the divisor is an integer, and less than one.
    have hint : |((k * b : ℕ) : ℤ) - (n : ℤ)| < 1 := by
      have hscale : |((k * b : ℕ) : ℚ) - n| = |(k : ℚ) - n / b| * b := by
        rw [← abs_of_pos hbq, ← abs_mul, abs_of_pos hbq, sub_mul, div_mul_cancel₀ _ hbq.ne', Nat.cast_mul]
      have hsmall : |((k * b : ℕ) : ℚ) - n| < 1 := by
        calc |((k * b : ℕ) : ℚ) - n| = |(k : ℚ) - n / b| * b := hscale
          _ ≤ n / b / 2 ^ p * b := mul_le_mul_of_nonneg_right herror hbq.le
          _ = n / 2 ^ p := by field_simp
          _ < 1 := by
              rw [div_lt_one (by positivity)]
              exact_mod_cast hn
      exact_mod_cast hsmall
    rw [Int.abs_lt_one_iff] at hint
    omega
  · rintro rfl
    rw [Nat.cast_mul, mul_div_cancel_right₀ _ hbq.ne']
    exact round_natCast ((Nat.le_mul_of_pos_right k hb).trans_lt hn)

end NullG.Lib.Rounding
