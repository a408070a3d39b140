/-
Numbers as they are printed.
-/

import NullG.Mail.Text
import Mathlib.Data.Rat.Cast.Order

namespace NullG.Mail

open NullG.Nsp

theorem mem_natDigits {n : Nat} {c : Byte} (hc : c ∈ natDigits n) : 48 ≤ c.toNat ∧ c.toNat ≤ 57 := by
  obtain ⟨d, hd, rfl⟩ := List.mem_map.mp hc
  have hdigit := Char.isDigit_iff_toNat.mp (Nat.isDigit_of_mem_toDigits (by decide) (by decide) hd)
  have hlo : '0'.toNat = 48 := rfl
  have hhi : '9'.toNat = 57 := rfl
  have hval : (ch d).toNat = d.toNat := UInt8.toNat_ofNat_of_lt' (show d.toNat < 256 by omega)
  omega

/-- A byte that is no digit is not in the text of a number. -/
theorem notMem_natDigits (n : Nat) {c : Byte} (hc : c.toNat < 48 ∨ 57 < c.toNat) : c ∉ natDigits n := by
  intro hmem
  have hdigit := mem_natDigits hmem
  omega

theorem notMem_decimal (n : Int) {c : Byte} (hc : c.toNat < 48 ∨ 57 < c.toNat) (hsign : c ≠ ch '-') :
    c ∉ decimal n := by
  unfold decimal
  split
  · rw [List.mem_cons, not_or]
    exact ⟨hsign, notMem_natDigits _ hc⟩
  · exact notMem_natDigits _ hc

/-- The number that the digits of a number spell. -/
theorem foldl_natDigits {f : Byte → Nat} (hf : ∀ c : Byte, 48 ≤ c.toNat → c.toNat ≤ 57 → f c = c.toNat - 48) (k : Nat) :
    (natDigits k).foldl (fun n c => 10 * n + f c) 0 = k := by
  have hfold : ∀ (cs : List Char) (n : Nat), (∀ c ∈ cs, c.isDigit = true) →
      (cs.map ch).foldl (fun n c => 10 * n + f c) n = Nat.ofDigitChars 10 cs n := by
    intro cs
    induction cs with
    | nil => exact fun n _ => rfl
    | cons c cs ih =>
        intro n hcs
        have hdigit := Char.isDigit_iff_toNat.mp (hcs c List.mem_cons_self)
        have hlo : '0'.toNat = 48 := rfl
        have hhi : '9'.toNat = 57 := rfl
        have hval : (ch c).toNat = c.toNat := UInt8.toNat_ofNat_of_lt' (show c.toNat < 256 by omega)
        rw [List.map_cons, List.foldl_cons, ih _ fun d hd => hcs d (List.mem_cons_of_mem c hd),
          hf (ch c) (by omega) (by omega), hval, Nat.ofDigitChars_cons]
        rfl
  have hdigits : ∀ c ∈ Nat.toDigits 10 k, c.isDigit = true :=
    fun c hc => Nat.isDigit_of_mem_toDigits (by decide) (by decide) hc
  rw [natDigits, hfold _ _ hdigits, Nat.ofDigitChars_ten_toDigits]

theorem digit_not_blank {c : Byte} (h : ncIsdigit c = true) : ¬ (c == ch ' ' || (9 ≤ c && c ≤ 13)) = true := by
  have h0 : (ch '0').toNat = 48 := by decide
  have h9 : (ch '9').toNat = 57 := by decide
  have hblank : (ch ' ').toNat = 32 := by decide
  simp only [ncIsdigit, Bool.and_eq_true, Bool.or_eq_true, beq_iff_eq, decide_eq_true_eq, UInt8.le_iff_toNat_le,
    UInt8.reduceToNat, ← UInt8.toNat_inj] at h ⊢
  omega

/-- A number that an `int` holds is read as it is. -/
theorem atoi_eq {c : Byte} {p : List Byte} (hc : ncIsdigit c = true)
    (h : ((c :: p).takeWhile ncIsdigit).foldl (fun n c => n * 10 + (c - ch '0').toNat) 0 < 2 ^ 31) :
    atoi (c :: p) = ((c :: p).takeWhile ncIsdigit).foldl (fun n c => n * 10 + (c - ch '0').toNat) 0 := by
  have hminus : c ≠ ch '-' := by
    rintro rfl
    cases hc
  have hplus : c ≠ ch '+' := by
    rintro rfl
    cases hc
  unfold atoi
  have hdrop := List.dropWhile_cons_of_neg (p := fun c => c == ch ' ' || (9 ≤ c && c ≤ 13)) (l := p)
    (digit_not_blank hc)
  rw [hdrop]
  dsimp only
  rw [if_neg hminus, if_neg hplus, Int.min_eq_left (by omega)]
  exact Int.bmod_eq_of_le (by omega) (by omega)

theorem ncIsdigit_natDigits {n : Nat} {c : Byte} (hc : c ∈ natDigits n) : ncIsdigit c = true := by
  have h := mem_natDigits hc
  have h0 : (ch '0').toNat = 48 := by decide
  have h9 : (ch '9').toNat = 57 := by decide
  simp only [ncIsdigit, Bool.and_eq_true, decide_eq_true_eq, UInt8.le_iff_toNat_le]
  omega

theorem natDigits_ne_nil (n : Nat) : natDigits n ≠ [] := by
  unfold natDigits
  rw [Ne, List.map_eq_nil_iff]
  exact Nat.toDigits_ne_nil

/-- No zero stands before other digits. -/
theorem natDigits_of_head? {n : Nat} (h : (natDigits n).head? = some (ch '0')) : natDigits n = [ch '0'] := by
  induction n using Nat.strongRecOn with
  | ind n ih =>
      by_cases hn : n < 10
      · have hone : natDigits n = [ch n.digitChar] := by rw [natDigits, Nat.toDigits_of_lt_base hn, List.map_singleton]
        rw [hone, List.head?_cons, Option.some.injEq] at h
        rw [hone, h]
      · have hdigits : natDigits n = natDigits (n / 10) ++ [ch (n % 10).digitChar] := by
          rw [natDigits, Nat.toDigits_of_base_le (by decide) (by omega), List.map_append, List.map_singleton, natDigits]
        rw [hdigits, List.head?_append_of_ne_nil _ (natDigits_ne_nil _)] at h
        -- a number from ten on has a tenth part
        have hzero := foldl_natDigits (f := fun c => c.toNat - 48) (fun _ _ _ => rfl) (n / 10)
        rw [ih (n / 10) (by omega) h] at hzero
        have hval : [ch '0'].foldl (fun n c => 10 * n + (c.toNat - 48)) 0 = 0 := by decide
        omega

/-- All of a padded number is digits, and there is one. -/
theorem padded_digits (width n : Nat) :
    (∀ c ∈ padded width n, ncIsdigit c = true) ∧ ∃ c p, padded width n = c :: p := by
  unfold padded
  constructor
  · intro c hc
    rcases List.mem_append.mp hc with hzero | hdigit
    · rw [List.eq_of_mem_replicate hzero]
      decide
    · exact ncIsdigit_natDigits hdigit
  · exact List.exists_cons_of_ne_nil (List.append_ne_nil_of_right_ne_nil _ (natDigits_ne_nil n))

/-- What the digits of a padded number are worth, up to what follows them. -/
theorem foldl_padded (width n : Nat) {rest : List Byte} (hrest : ∀ c ∈ rest.head?, ncIsdigit c = false) :
    ((padded width n ++ rest).takeWhile ncIsdigit).foldl (fun n c => n * 10 + (c - ch '0').toNat) 0 = n := by
  have htake : (padded width n ++ rest).takeWhile ncIsdigit = padded width n := by
    rw [List.takeWhile_append_of_pos (padded_digits width n).1]
    cases rest with
    | nil => exact List.append_nil _
    | cons d rest => rw [List.takeWhile_cons_of_neg (by rw [hrest d rfl]; decide), List.append_nil]
  have hzeros : ∀ k : Nat, (List.replicate k (ch '0')).foldl (fun n c => n * 10 + (c - ch '0').toNat) 0 = 0 := by
    intro k
    induction k with
    | zero => rfl
    | succ k ih => exact ih
  have hdigit : ∀ c : Byte, 48 ≤ c.toNat → c.toNat ≤ 57 → (c - ch '0').toNat = c.toNat - 48 := by
    intro c hlo _
    have h0 : (ch '0').toNat = 48 := by decide
    rw [UInt8.toNat_sub_of_le _ _ (by rw [UInt8.le_iff_toNat_le]; omega), h0]
  rw [htake, padded, List.foldl_append, hzeros]
  simpa only [Nat.mul_comm] using foldl_natDigits hdigit n

/-- A padded number is read back, up to what follows it. -/
theorem atoi_padded {width n : Nat} {rest : List Byte} (hn : n < 2 ^ 31)
    (hrest : ∀ c ∈ rest.head?, ncIsdigit c = false) : atoi (padded width n ++ rest) = n := by
  obtain ⟨hdigits, c, p, hcons⟩ := padded_digits width n
  have hvalue := foldl_padded width n hrest
  have hc : ncIsdigit c = true := hdigits c (hcons ▸ List.mem_cons_self)
  rw [hcons, List.cons_append] at hvalue ⊢
  rw [atoi_eq hc (by rw [hvalue]; exact hn), hvalue]

/-- A padded number behind a minus sign. -/
theorem atoi_minus {width n : Nat} {rest : List Byte} (hn : n < 2 ^ 31)
    (hrest : ∀ c ∈ rest.head?, ncIsdigit c = false) : atoi (ch '-' :: (padded width n ++ rest)) = -n := by
  have hblank : ¬ (ch '-' == ch ' ' || (9 ≤ ch '-' && ch '-' ≤ 13)) = true := by decide
  unfold atoi
  rw [List.dropWhile_cons_of_neg (p := fun c => c == ch ' ' || (9 ≤ c && c ≤ 13)) hblank]
  dsimp only
  rw [if_pos rfl, foldl_padded width n hrest, Int.max_eq_left (by omega)]
  exact Int.bmod_eq_of_le (by omega) (by omega)

/-- A number without a fraction has zeros behind the dot. -/
theorem fraction_zero (dec : Nat) : fraction 0 dec = List.replicate dec (ch '0') := by
  induction dec with
  | zero => rfl
  | succ dec ih =>
      rw [fraction, List.replicate_succ, zero_mul, ih]
      rfl

/-- The zeros behind the dot are cut, and the dot. -/
theorem trimZeros_zeros (str : List Byte) (dec : Nat) :
    trimZeros (str ++ ch '.' :: List.replicate dec (ch '0')) = str := by
  have hreverse : (str ++ ch '.' :: List.replicate dec (ch '0')).reverse =
      List.replicate dec (ch '0') ++ ch '.' :: str.reverse := by simp
  have hdrop : (List.replicate dec (ch '0') ++ ch '.' :: str.reverse).dropWhile (· == ch '0') =
      ch '.' :: str.reverse := by
    rw [List.dropWhile_append_of_pos (by simp), List.dropWhile_cons_of_neg (by decide)]
  unfold trimZeros
  rw [hreverse, hdrop]
  dsimp only
  rw [if_pos rfl, List.reverse_reverse]

/-- An integer is printed without decimals. -/
theorem nNtoa_integer (n : Int) (dec : Nat) : nNtoa n true dec = decimal n := by
  have htrunc : Nsp.Num.trunc (n : Nsp.Num) = n := by simp [Nsp.Num.trunc]
  have htext : ∀ str : List Byte, (if dec = 0 then str else trimZeros (str ++ ch '.' :: fraction 0 dec)) = str := by
    intro str
    split
    · rfl
    · rw [fraction_zero, trimZeros_zeros]
  rw [nNtoa, decimal]
  by_cases hneg : n < 0
  · have hsign : (true && decide ((n : Nsp.Num) < 0)) = true := by simpa using hneg
    have hmod : ¬(-n).tmod 10 < 0 := Int.not_lt.mpr (Int.tmod_nonneg 10 (by omega))
    simp only [hsign, if_true, htrunc, sub_self, neg_zero, htext, if_pos hneg]
    have habs : (-n).toNat = n.natAbs := by omega
    rw [if_neg hmod, if_neg (by omega), habs]
    rfl
  · have hsign : (true && decide ((n : Nsp.Num) < 0)) = false := by simpa using hneg
    have hmod : ¬n.tmod 10 < 0 := Int.not_lt.mpr (Int.tmod_nonneg 10 (by omega))
    simp only [hsign, Bool.false_eq_true, if_false, htrunc, sub_self, htext, if_neg hneg]
    rw [if_neg hmod, List.nil_append]

theorem nNtoa_intCast (n : Int) : nNtoa n true 6 = decimal n := nNtoa_integer n 6

end NullG.Mail
