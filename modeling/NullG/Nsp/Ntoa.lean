/-
Numerals in memory (`n_ntoa` and `n_aton` of `libc.c`).

`n_ntoa` writes the digits from the last one on, the sign behind them, and turns them round in place; then it writes the
decimals and cuts the zeros behind the last one that is none. A `double` is a rational of 53 significant bits, and what
is computed of doubles is rounded, so that an integer of 53 bits is read back as it was written
(`integer_round_trip`).
-/

import NullG.Lib.Memory
import NullG.Lib.Rounding
import NullG.Mail.Numbers
import Mathlib.Data.List.Induction

namespace NullG.Nsp.Ntoa

open NullG.Lib NullG.Mail

/-- A `double`, of what was computed exactly. -/
def double (q : Num) : Num := Rounding.round 53 q

/-! ### `n_aton` -/

/-- `while (nc_isdigit(*s)) rval = 10 * rval + (*s++ - '0')`. -/
def atonDigits (rval : Num) : List Byte → Num × List Byte
  | [] => (rval, [])
  | c :: s => if ncIsdigit c then atonDigits (double (double (10 * rval) + (c - ch '0').toNat)) s else (rval, c :: s)

/-- The digits behind a dot. -/
def atonDecimals (rval rdot : Num) : List Byte → Num
  | [] => rval
  | c :: s =>
      if ncIsdigit c then
        atonDecimals (double (rval + double ((c - ch '0').toNat * rdot))) (double (rdot * double (1 / 10))) s
      else rval

/-- `n_aton` behind the sign. -/
def atonUnsigned (str : List Byte) : Num :=
  match atonDigits 0 str with
  | (rval, c :: s) => if c = ch '.' then atonDecimals rval (double (1 / 10)) s else rval
  | (rval, []) => rval

/-- `n_aton`. -/
def nAton (str : List Byte) : Num :=
  match str with
  | c :: s => if c = ch '-' then double (0 - atonUnsigned s) else atonUnsigned str
  | [] => 0

/-! ### `n_ntoa` -/

/-- `nchars[i]`, where `i` is in the array. -/
def nchar (i : Int) : Option Byte := if i < 0 then none else (bytes "0123456789ABCDEF")[i.toNat]?

/-- A `long long`. -/
def longLong (n : Int) : Option Int := if -(2 ^ 63) ≤ n ∧ n < 2 ^ 63 then some n else none

/-- `n *= -1` of a number below zero. -/
def negated (neg : Bool) (n : Int) : Option Int := if neg then longLong (-n) else some n

/-- `do { *p++ = nchars[n % base]; } while ((n /= base) > 0);` -/
def ntoaDigits (base : Int) : Nat → Int → Nat → List Byte → Option (Nat × List Byte)
  | 0, _, _, _ => none
  | fuel + 1, n, p, mem => do
      let mem ← Memory.write mem p [← nchar (n.tmod base)]
      let n := n.tdiv base
      if n > 0 then ntoaDigits base fuel n (p + 1) mem else return (p + 1, mem)

/-- `while (q < --p) { c = *q; *q++ = *p; *p = c; }`: where `p` is left. -/
def flip : Nat → Nat → Nat → List Byte → Option (Nat × List Byte)
  | 0, _, _, _ => none
  | fuel + 1, q, p, mem =>
      let p := p - 1
      if q < p then do
        let c ← mem[q]?
        let mem ← Memory.write mem q [← mem[p]?]
        let mem ← Memory.write mem p [c]
        flip fuel (q + 1) p mem
      else some (p, mem)

/-- `for (i = 0; i < dec; i++) { f *= base; *p++ = nchars[(int)f % base]; }` -/
def ntoaDecimals (base : Int) : Nat → Num → Nat → List Byte → Option (Nat × List Byte)
  | 0, _, p, mem => some (p, mem)
  | dec + 1, f, p, mem => do
      let f := double (f * base)
      let mem ← Memory.write mem p [← nchar ((Num.trunc f).tmod base)]
      ntoaDecimals base dec f (p + 1) mem

/-- `while (str[i] == '0') str[i--] = '\0';` -/
def trimLoop : Nat → Nat → List Byte → Option (Nat × List Byte)
  | 0, _, _ => none
  | fuel + 1, i, mem => do
      if (← mem[i]?) = ch '0' then
        if i = 0 then none else trimLoop fuel (i - 1) (← Memory.write mem i [0])
      else return (i, mem)

/-- The zeros at the end are cut, and a dot that is left there. -/
def trim (mem : List Byte) : Option (List Byte) := do
  let (i, mem) ← trimLoop mem.length ((← Memory.str 0 mem 0).length - 1) mem
  if (← mem[i]?) = ch '.' then Memory.write mem i [0] else return mem

/-- What `n_ntoa` does where `dec` is not zero, from `p` on. -/
def ntoaFraction (base : Int) (dec : Nat) (f : Num) (p : Nat) (mem : List Byte) : Option (List Byte) := do
  let p ← Memory.skip mem (· != 0) (mem.length + 1) p
  let mem ← Memory.write mem p [ch '.']
  let (p, mem) ← ntoaDecimals base dec f (p + 1) mem
  trim (← Memory.write mem p [0])

/-- The digits and the sign, turned round: where `p` is left. -/
def ntoaInteger (base n : Int) (neg : Bool) (mem : List Byte) : Option (Nat × List Byte) := do
  let (p, mem) ← ntoaDigits base 64 n 0 mem
  let (p, mem) ← if neg then (Memory.write mem p [ch '-']).map fun mem => (p + 1, mem) else some (p, mem)
  let mem ← Memory.write mem p [0]
  flip mem.length 0 p mem

/-- `n_ntoa(N, str, num, base, dec)` where `mem` is at `str`. There is no result if a byte is written or read outside of
it, or a number is none of its type. -/
def nNtoa (mem : List Byte) (num : Num) (base : Int) (dec : Nat) : Option (List Byte) := do
  let n ← longLong (Num.trunc num)
  let f := double (num - n)
  let neg := decide (base < 0) && decide (num < 0)
  let n ← negated neg n
  let f := if neg then -f else f
  let base := if base < 0 then -base else base
  if n.tmod base < 0 then Memory.write mem 0 (bytes "nan" ++ [0])
  else
    let (p, mem) ← ntoaInteger base n neg mem
    if dec = 0 then return mem else ntoaFraction base dec f p mem

/-! ### Numerals -/

/-- A canonical numeral: a minus sign for a number below zero only, and digits without a zero in front. -/
structure IsNumeral (n : Int) (s : List Byte) : Prop where
  split : ∃ digits, s = (if n < 0 then [ch '-'] else []) ++ digits ∧ digits ≠ [] ∧ (∀ c ∈ digits, ncIsdigit c = true) ∧
    (digits.head? = some (ch '0') → digits = [ch '0']) ∧
    digits.foldl (fun n c => 10 * n + (c.toNat - 48)) 0 = n.natAbs

theorem decimal_isNumeral (n : Int) : IsNumeral n (decimal n) := by
  refine ⟨natDigits n.natAbs, ?_, natDigits_ne_nil _, fun c hc => ncIsdigit_natDigits hc, natDigits_of_head?,
    foldl_natDigits (fun _ _ _ => rfl) _⟩
  unfold decimal
  split
  · rfl
  · rename_i h
    have habs : n.toNat = n.natAbs := by omega
    rw [habs, List.nil_append]

/-! ### The digits -/

section Digits

variable {mem : List Byte} {n : Nat}

theorem natDigits_lt (h : n < 10) : natDigits n = [ch n.digitChar] := by
  rw [natDigits, Nat.toDigits_of_lt_base h, List.map_singleton]

theorem natDigits_ge (h : 10 ≤ n) : natDigits n = natDigits (n / 10) ++ [ch (n % 10).digitChar] := by
  rw [natDigits, Nat.toDigits_of_base_le (by decide) h, List.map_append, List.map_singleton, natDigits]

theorem nchar_digit : ∀ d < 10, nchar (d : Nat) = some (ch d.digitChar) := by
  decide

/-- A round of the loop that writes the digits. -/
theorem ntoaDigits_step (fuel n p : Nat) (mem : List Byte) : ntoaDigits 10 (fuel + 1) n p mem =
    (Memory.write mem p [ch (n % 10).digitChar]).bind fun mem =>
      if 10 ≤ n then ntoaDigits 10 fuel (n / 10 : Nat) (p + 1) mem else some (p + 1, mem) := by
  have hmod : (n : Int).tmod 10 = (n % 10 : Nat) := rfl
  have hdiv : (n : Int).tdiv 10 = (n / 10 : Nat) := rfl
  have hpos : ((n / 10 : Nat) : Int) > 0 ↔ 10 ≤ n := by omega
  rw [ntoaDigits, hmod, hdiv, nchar_digit _ (Nat.mod_lt n (by decide))]
  simp only [hpos]
  rfl

/-- The first digit is written last. -/
theorem ntoaDigits_last {n : Nat} (h : n < 10) (fuel p : Nat) (mem : List Byte) : ntoaDigits 10 (fuel + 1) n p mem =
    (Memory.write mem p (natDigits n).reverse).map fun mem' => (p + (natDigits n).length, mem') := by
  have hge : ¬ 10 ≤ n := by omega
  rw [ntoaDigits_step, natDigits_lt h, Nat.mod_eq_of_lt h]
  simp only [if_neg hge, List.reverse_singleton, List.length_singleton]
  rw [Option.map_eq_bind]
  rfl

/-- The digits are written, the last one first. -/
theorem ntoaDigits_run {fuel n : Nat} (hn : n < 10 ^ (fuel + 1)) (p : Nat) (mem : List Byte) :
    ntoaDigits 10 (fuel + 1) n p mem =
      (Memory.write mem p (natDigits n).reverse).map fun mem' => (p + (natDigits n).length, mem') := by
  induction fuel generalizing n p mem with
  | zero => exact ntoaDigits_last hn 0 p mem
  | succ fuel ih =>
      by_cases hge : 10 ≤ n
      · have hrest : n / 10 < 10 ^ (fuel + 1) := by
          rw [Nat.pow_succ] at hn
          exact Nat.div_lt_of_lt_mul (by omega)
        have hdigits : (natDigits n).reverse = [ch (n % 10).digitChar] ++ (natDigits (n / 10)).reverse := by
          rw [natDigits_ge hge, List.reverse_append, List.reverse_singleton]
        have hlen : p + 1 + (natDigits (n / 10)).length = p + (natDigits n).length := by
          rw [natDigits_ge hge, List.length_append, List.length_singleton]
          omega
        rw [ntoaDigits_step, hdigits, Memory.write_append, Option.map_bind]
        refine congrArg _ (funext fun mem => ?_)
        rw [if_pos hge, ih hrest, hlen]
        rfl
      · exact ntoaDigits_last (by omega) _ p mem

end Digits

/-! ### The text is turned round -/

section Flip

variable {mem front text rest : List Byte}

/-- A cell is written. -/
theorem write_cell (front rest : List Byte) (c x : Byte) :
    Memory.write (front ++ x :: rest) front.length [c] = some (front ++ c :: rest) :=
  Memory.write_over [c] [x] rfl front rest

/-- The loop turns a text round, and leaves `p` in it. -/
theorem flip_run {fuel : Nat} (hfuel : text.length < fuel) (front rest : List Byte) :
    ∃ p, p ≤ front.length + text.length ∧
      flip fuel front.length (front.length + text.length) (front ++ text ++ rest) =
        some (p, front ++ text.reverse ++ rest) := by
  obtain ⟨fuel, rfl⟩ : ∃ k, fuel = k + 1 := ⟨fuel - 1, by omega⟩
  induction text using List.bidirectionalRec generalizing fuel front rest with
  | nil =>
      refine ⟨front.length - 1, by omega, ?_⟩
      rw [flip, if_neg (by simp)]
      rfl
  | singleton c =>
      refine ⟨front.length, by omega, ?_⟩
      rw [flip, if_neg (by simp)]
      rfl
  | cons_append c text d ih =>
      obtain ⟨k, rfl⟩ : ∃ k, fuel = k + 1 := ⟨fuel - 1, by simp at hfuel; omega⟩
      have hlast : front.length + (c :: (text ++ [d])).length - 1 = (front ++ [d] ++ text).length := by
        simp only [List.length_append, List.length_cons, List.length_nil]
        omega
      have hnext : front.length + 1 = (front ++ [d]).length := by rw [List.length_append, List.length_singleton]
      have hlt : front.length < (front ++ [d] ++ text).length := by
        rw [List.length_append, ← hnext]
        omega
      have hcells : front ++ c :: (text ++ [d]) ++ rest = front ++ c :: (text ++ d :: rest) := by simp
      have hmiddle : front ++ d :: (text ++ d :: rest) = front ++ [d] ++ text ++ d :: rest := by simp
      have hd : (front ++ c :: (text ++ d :: rest))[(front ++ [d] ++ text).length]? = some d := by simp
      have hlength : (front ++ [d] ++ text).length = (front ++ [d]).length + text.length := List.length_append
      obtain ⟨p, hp, hrun⟩ := ih (front ++ [d]) (c :: rest) k (by simp at hfuel; omega)
      refine ⟨p, ?_, ?_⟩
      · rw [← hnext] at hp
        simp only [List.length_cons, List.length_append, List.length_nil]
        omega
      · rw [flip, hlast, if_pos hlt, hcells, Memory.read_end, hd]
        simp only [Option.bind_eq_bind, Option.bind_some, write_cell]
        rw [hmiddle, write_cell, Option.bind_some, hnext, hlength, hrun]
        simp

end Flip

/-! ### The integer -/

section Integer

variable {mem : List Byte} {k : Nat} {neg : Bool}

/-- The sign and the digits. -/
def signed (neg : Bool) (k : Nat) : List Byte := (if neg then [ch '-'] else []) ++ natDigits k

/-- The digits, the sign and the NUL are one write. -/
theorem ntoaInteger_eq (hk : k < 10 ^ 64) : ntoaInteger 10 k neg mem =
    (Memory.write mem 0 ((signed neg k).reverse ++ [0])).bind fun mem =>
      flip mem.length 0 (signed neg k).length mem := by
  have hlen : (signed neg k).length = 0 + (signed neg k).reverse.length := by rw [List.length_reverse, Nat.zero_add]
  rw [ntoaInteger, ntoaDigits_run hk, Memory.write_append, ← hlen]
  cases neg with
  | false =>
      have htext : signed false k = natDigits k := rfl
      rw [htext]
      cases Memory.write mem 0 (natDigits k).reverse with
      | none => rfl
      | some mem => simp
  | true =>
      have htext : signed true k = ch '-' :: natDigits k := rfl
      rw [htext, List.reverse_cons, Memory.write_append, List.length_reverse]
      cases Memory.write mem 0 (natDigits k).reverse with
      | none => rfl
      | some mem =>
          simp only [Nat.zero_add, if_true, Option.bind_eq_bind, Option.bind_some, Option.map_some, List.length_cons]
          cases Memory.write mem (natDigits k).length [ch '-'] <;> rfl

/-- What is there behind the integer: its text, and a `p` that is not behind it. -/
theorem ntoaInteger_run (hk : k < 10 ^ 64) (hmem : (signed neg k).length < mem.length) :
    ∃ p, p ≤ (signed neg k).length ∧
      ntoaInteger 10 k neg mem = some (p, signed neg k ++ 0 :: mem.drop ((signed neg k).length + 1)) := by
  have hwrite : Memory.write mem 0 ((signed neg k).reverse ++ [0]) =
      some ((signed neg k).reverse ++ 0 :: mem.drop ((signed neg k).length + 1)) := by
    rw [Memory.write_of_le (by simp; omega)]
    simp
  have hfuel : (signed neg k).reverse.length <
      ((signed neg k).reverse ++ 0 :: mem.drop ((signed neg k).length + 1)).length := by
    rw [List.length_append, List.length_cons]
    omega
  obtain ⟨p, hp, hrun⟩ := flip_run hfuel [] (0 :: mem.drop ((signed neg k).length + 1))
  rw [List.length_reverse, List.length_nil, Nat.zero_add] at hrun hp
  rw [List.reverse_reverse] at hrun
  refine ⟨p, hp, ?_⟩
  rw [ntoaInteger_eq hk, hwrite, Option.bind_some]
  exact hrun

end Integer

/-! ### The decimals of an integer -/

section Decimals

variable {mem text rest : List Byte}

/-- An integer has zeros behind the dot. -/
theorem ntoaDecimals_zero {dec : Nat} {old : List Byte} (hold : old.length = dec) (out rest : List Byte) :
    ntoaDecimals 10 dec 0 out.length (out ++ (old ++ rest)) =
      some (out.length + dec, out ++ (List.replicate dec (ch '0') ++ rest)) := by
  induction dec generalizing old out with
  | zero => rw [List.length_eq_zero_iff.mp hold, ntoaDecimals, List.replicate_zero, Nat.add_zero]
  | succ dec ih =>
      obtain ⟨x, old, rfl⟩ : ∃ x l, old = x :: l := List.exists_cons_of_length_eq_add_one hold
      have hzero : double (0 * (10 : Int)) = 0 := by
        rw [zero_mul]
        exact Rounding.round_zero 53
      have hdigit : nchar ((Num.trunc 0).tmod 10) = some (ch '0') := by decide
      have hnext := ih (Nat.succ.inj hold) (out ++ [ch '0'])
      rw [List.length_append, List.length_singleton] at hnext
      simp only [List.append_assoc, List.singleton_append] at hnext
      rw [ntoaDecimals, hzero, hdigit, List.cons_append]
      simp only [Option.bind_eq_bind, Option.bind_some, write_cell, hnext, List.replicate_succ, List.cons_append]
      rw [Nat.add_assoc, Nat.add_comm 1]

/-- The zeros at the end are cut. -/
theorem trimLoop_run {fuel k : Nat} (hfuel : k < fuel) {c : Byte} (hc : c ≠ ch '0') (text rest : List Byte) :
    trimLoop fuel (text.length + k) (text ++ c :: (List.replicate k (ch '0') ++ rest)) =
      some (text.length, text ++ c :: (List.replicate k 0 ++ rest)) := by
  obtain ⟨fuel, rfl⟩ : ∃ n, fuel = n + 1 := ⟨fuel - 1, by omega⟩
  induction k generalizing fuel rest with
  | zero =>
      rw [trimLoop, Nat.add_zero, Memory.read_end, Option.bind_eq_bind, Option.bind_some, if_neg hc]
      rfl
  | succ k ih =>
      obtain ⟨fuel, rfl⟩ : ∃ n, fuel = n + 1 := ⟨fuel - 1, by omega⟩
      have hcells : text ++ c :: (List.replicate (k + 1) (ch '0') ++ rest) =
          (text ++ c :: List.replicate k (ch '0')) ++ ch '0' :: rest := by
        rw [List.replicate_succ']
        simp
      have hi : text.length + (k + 1) = (text ++ c :: List.replicate k (ch '0')).length := by simp
      have hcut : (text ++ c :: List.replicate k (ch '0')) ++ 0 :: rest =
          text ++ c :: (List.replicate k (ch '0') ++ 0 :: rest) := by simp
      have hprev : text.length + (k + 1) - 1 = text.length + k := rfl
      rw [trimLoop, hcells, hi, Memory.read_end, Option.bind_eq_bind, Option.bind_some, if_pos rfl, if_neg (by simp),
        write_cell, Option.bind_eq_bind, Option.bind_some, ← hi, hprev, hcut, ih (0 :: rest) _ (by omega),
        List.replicate_succ']
      simp

/-- A dot and zeros are cut. -/
theorem trim_run {text : List Byte} (h0 : 0 ∉ text) (k : Nat) (rest : List Byte) :
    trim (text ++ ch '.' :: (List.replicate k (ch '0') ++ 0 :: rest)) =
      some (text ++ 0 :: (List.replicate k 0 ++ 0 :: rest)) := by
  have hnul : (0 : Byte) ∉ text ++ ch '.' :: List.replicate k (ch '0') := by
    intro h
    rcases List.mem_append.mp h with h | h
    · exact h0 h
    · rcases List.mem_cons.mp h with h | h
      · exact absurd h (by decide)
      · exact absurd (List.eq_of_mem_replicate h) (by decide)
  have hcells : text ++ ch '.' :: (List.replicate k (ch '0') ++ 0 :: rest) =
      text ++ ch '.' :: List.replicate k (ch '0') ++ 0 :: rest := by simp
  have hstr : Memory.str 0 (text ++ ch '.' :: (List.replicate k (ch '0') ++ 0 :: rest)) 0 =
      some (text ++ ch '.' :: List.replicate k (ch '0')) := by
    rw [hcells]
    exact Memory.str_run rfl hnul
  have hlen : (text ++ ch '.' :: List.replicate k (ch '0')).length - 1 = text.length + k := by simp
  rw [trim, hstr, Option.bind_eq_bind, Option.bind_some, hlen, trimLoop_run (by simp; omega) (by decide)]
  simp only [Option.bind_eq_bind, Option.bind_some, Memory.read_end, if_true, write_cell]

/-- The decimals of an integer leave its text. -/
theorem ntoaFraction_run {dec p : Nat} (h0 : 0 ∉ text) (hp : p ≤ text.length) (hrest : dec < rest.length) :
    ∃ rest', ntoaFraction 10 dec 0 p (text ++ 0 :: rest) = some (text ++ 0 :: rest') := by
  obtain ⟨old, x, rest, rfl, hold⟩ : ∃ old x rest', rest = old ++ x :: rest' ∧ old.length = dec :=
    ⟨rest.take dec, rest[dec], rest.drop (dec + 1), by rw [← List.drop_eq_getElem_cons hrest, List.take_append_drop],
      List.length_take_of_le hrest.le⟩
  have hall : ∀ c ∈ text.drop p, (c != 0) = true :=
    fun c hc => bne_iff_ne.mpr fun heq => h0 (heq ▸ List.mem_of_mem_drop hc)
  have hskip : Memory.skip (text ++ 0 :: (old ++ x :: rest)) (· != 0) ((text ++ 0 :: (old ++ x :: rest)).length + 1) p =
      some text.length := by
    rw [Memory.skip_run (by decide) hp (by simp; omega), List.takeWhile_eq_self_iff.mpr hall, List.length_drop,
      Option.some.injEq]
    omega
  have hdecimals := ntoaDecimals_zero hold (text ++ [ch '.']) (x :: rest)
  rw [List.length_append, List.length_singleton, List.append_assoc, List.append_assoc, List.singleton_append,
    List.singleton_append] at hdecimals
  have hend : text.length + 1 + dec = (text ++ ch '.' :: List.replicate dec (ch '0')).length := by
    simp
    omega
  have hcells : ∀ y : Byte, text ++ ch '.' :: (List.replicate dec (ch '0') ++ y :: rest) =
      text ++ ch '.' :: List.replicate dec (ch '0') ++ y :: rest := by simp
  refine ⟨List.replicate dec 0 ++ 0 :: rest, ?_⟩
  rw [ntoaFraction, hskip, Option.bind_eq_bind, Option.bind_some, write_cell, Option.bind_eq_bind, Option.bind_some,
    hdecimals]
  simp only [Option.bind_eq_bind, Option.bind_some]
  rw [hend, hcells, write_cell, Option.bind_some, ← hcells]
  exact trim_run h0 dec rest

end Decimals

/-! ### Integers -/

section Integers

variable {mem : List Byte} {n : Int} {dec : Nat}

theorem notMem_decimal_nul (n : Int) : 0 ∉ decimal n := notMem_decimal n (by decide) (by decide)

theorem decimal_signed (n : Int) : decimal n = signed (decide (n < 0)) n.natAbs := by
  unfold decimal signed
  by_cases h : n < 0
  · rw [if_pos h, if_pos (decide_eq_true h), List.singleton_append]
  · have habs : n.toNat = n.natAbs := by omega
    rw [if_neg h, if_neg (by simpa using h), List.nil_append, habs]

/-- What an integer is without its sign, for `n_ntoa`. -/
theorem negated_abs (hn : |n| < 2 ^ 53) : negated (decide (n < 0)) n = some (n.natAbs : Int) := by
  rw [abs_lt] at hn
  unfold negated
  by_cases h : n < 0
  · have habs : -n = n.natAbs := by omega
    rw [if_pos (decide_eq_true h), longLong, if_pos (by omega), habs]
  · have habs : n = n.natAbs := by omega
    rw [if_neg (by simpa using h), ← habs]

/-- An integer is written as its numeral. -/
theorem nNtoa_run (hn : |n| < 2 ^ 53) (hmem : (decimal n).length + dec + 1 < mem.length) :
    ∃ rest, nNtoa mem n (-10) dec = some (decimal n ++ 0 :: rest) := by
  have hlong : longLong n = some n := by
    rw [abs_lt] at hn
    exact if_pos (by omega)
  have htrunc : Num.trunc (n : Num) = n := by simp [Num.trunc]
  have hsign : (decide ((-10 : Int) < 0) && decide ((n : Num) < 0)) = decide (n < 0) := by simp
  have hzero : double ((n : Num) - n) = 0 := by
    rw [sub_self]
    exact Rounding.round_zero 53
  have hmod : ¬ (n.natAbs : Int).tmod 10 < 0 := Int.not_lt.mpr (Int.tmod_nonneg 10 (Int.natCast_nonneg _))
  have hk : n.natAbs < 10 ^ 64 := by
    rw [abs_lt] at hn
    omega
  rw [decimal_signed] at hmem ⊢
  have hroom : (signed (decide (n < 0)) n.natAbs).length < mem.length := by omega
  obtain ⟨p, hp, hrun⟩ := ntoaInteger_run hk hroom
  rw [nNtoa, htrunc, hlong]
  simp only [Option.bind_eq_bind, Option.bind_some, hsign, hzero, negated_abs hn, neg_zero, ite_self]
  rw [if_pos (show (-10 : Int) < 0 by decide), Int.neg_neg, if_neg hmod, hrun, Option.bind_some]
  by_cases hdec : dec = 0
  · rw [if_pos hdec]
    exact ⟨_, rfl⟩
  · rw [if_neg hdec]
    refine ntoaFraction_run ?_ hp ?_
    · rw [← decimal_signed]
      exact notMem_decimal_nul n
    · rw [List.length_drop]
      omega

/-- A natural number that a `double` holds. -/
theorem double_natCast {k : Nat} (hk : k < 2 ^ 53) : double (k : Num) = k := Rounding.round_natCast hk

theorem le_foldl_digits (p : List Byte) (k : Nat) : k ≤ p.foldl (fun n c => 10 * n + (c - ch '0').toNat) k := by
  induction p generalizing k with
  | nil => exact Nat.le_refl k
  | cons c p ih => exact (by omega : k ≤ 10 * k + (c - ch '0').toNat).trans (ih _)

/-- Digits are read exactly, as long as they spell an integer of 53 bits. -/
theorem atonDigits_run {p : List Byte} (hp : ∀ c ∈ p, ncIsdigit c = true) {k : Nat}
    (hk : p.foldl (fun n c => 10 * n + (c - ch '0').toNat) k < 2 ^ 53) :
    atonDigits (k : Num) p = (((p.foldl (fun n c => 10 * n + (c - ch '0').toNat) k : Nat) : Num), []) := by
  induction p generalizing k with
  | nil => rfl
  | cons c p ih =>
      rw [List.foldl_cons] at hk ⊢
      have hle := le_foldl_digits p (10 * k + (c - ch '0').toNat)
      have htens : double (10 * (k : Num)) = ((10 * k : Nat) : Num) := by
        have hcast : 10 * (k : Num) = ((10 * k : Nat) : Num) := by push_cast; rfl
        rw [hcast]
        exact double_natCast (by omega)
      have hsum : double (((10 * k : Nat) : Num) + ((c - ch '0').toNat : Num)) =
          ((10 * k + (c - ch '0').toNat : Nat) : Num) := by
        rw [← Nat.cast_add]
        exact double_natCast (by omega)
      rw [atonDigits, if_pos (hp c List.mem_cons_self), htens, hsum]
      exact ih (fun d hd => hp d (List.mem_cons_of_mem c hd)) hk

/-- The digits of a natural number are read. -/
theorem atonUnsigned_run {k : Nat} (hk : k < 2 ^ 53) : atonUnsigned (natDigits k) = (k : Num) := by
  have hvalue : (natDigits k).foldl (fun n c => 10 * n + (c - ch '0').toNat) 0 = k := by
    refine foldl_natDigits (f := fun c => (c - ch '0').toNat) (fun c hlo _ => ?_) k
    have h0 : (ch '0').toNat = 48 := by decide
    rw [UInt8.toNat_sub_of_le _ _ (by rw [UInt8.le_iff_toNat_le]; omega), h0]
  have hrun := atonDigits_run (p := natDigits k) (k := 0) (fun c hc => ncIsdigit_natDigits hc)
    (by rw [hvalue]; exact hk)
  rw [hvalue, Nat.cast_zero] at hrun
  rw [atonUnsigned, hrun]

/-- The numeral of an integer is read. -/
theorem nAton_run (hn : |n| < 2 ^ 53) : nAton (decimal n) = n := by
  rw [abs_lt] at hn
  unfold decimal
  by_cases h : n < 0
  · have hint : -(n.natAbs : Num) = n := by
      have habs : (n.natAbs : Int) = -n := by omega
      rw [← Int.cast_natCast, habs, Int.cast_neg, neg_neg]
    rw [if_pos h, nAton, if_pos rfl, atonUnsigned_run (by omega), zero_sub, double,
      Rounding.round_neg_natCast (by omega), hint]
  · have hint : (n.toNat : Num) = n := by
      have habs : (n.toNat : Int) = n := by omega
      rw [← Int.cast_natCast, habs]
    obtain ⟨c, p, hcons⟩ := List.exists_cons_of_ne_nil (natDigits_ne_nil n.toNat)
    have hminus : c ≠ ch '-' := by
      rintro rfl
      have hdigit := ncIsdigit_natDigits (n := n.toNat) (c := ch '-') (hcons ▸ List.mem_cons_self)
      exact absurd hdigit (by decide)
    rw [if_neg h, hcons, nAton, if_neg hminus, ← hcons, atonUnsigned_run (by omega), hint]

/-- What is written is what `nNtoa` says of an exact number. -/
theorem nNtoa_text (hn : |n| < 2 ^ 53) (hmem : (decimal n).length + dec + 1 < mem.length) :
    ∃ mem', nNtoa mem n (-10) dec = some mem' ∧ Memory.str 0 mem' 0 = some (Nsp.nNtoa n true dec) := by
  obtain ⟨rest, hrun⟩ := nNtoa_run hn hmem
  rw [nNtoa_integer]
  exact ⟨_, hrun, Memory.str_run rfl (notMem_decimal_nul n)⟩

theorem decimal_short (hn : |n| < 2 ^ 53) : (decimal n).length ≤ 17 := by
  have hdigits : ∀ k : Nat, k < 2 ^ 53 → (natDigits k).length ≤ 16 := by
    intro k hk
    unfold natDigits
    rw [List.length_map, Nat.length_toDigits_le_iff (by decide) (by decide)]
    omega
  rw [abs_lt] at hn
  unfold decimal
  split
  · exact Nat.succ_le_succ (hdigits n.natAbs (by omega))
  · exact (hdigits n.toNat (by omega)).trans (by decide)

/-- The text of an integer, whether decimals are asked for or not, is its canonical numeral, and that is read as the
integer. -/
theorem integer_round_trip (hn : |n| < 2 ^ 53) (hdec : dec = 0 ∨ dec = 6) (hmem : 25 ≤ mem.length) :
    ∃ mem', nNtoa mem n (-10) dec = some mem' ∧ Memory.str 0 mem' 0 = some (decimal n) ∧ IsNumeral n (decimal n) ∧
      nAton (decimal n) = n := by
  have hlen := decimal_short hn
  have hroom : (decimal n).length + dec + 1 < mem.length := by omega
  obtain ⟨mem', hrun, hstr⟩ := nNtoa_text hn hroom
  rw [nNtoa_integer] at hstr
  exact ⟨mem', hrun, hstr, decimal_isNumeral n, nAton_run hn⟩

theorem integer_round_trip_zeros : ∃ mem', nNtoa (List.replicate 128 7) ((-1200 : Int) : Num) (-10) 6 = some mem' ∧
    Memory.str 0 mem' 0 = some (decimal (-1200)) ∧ IsNumeral (-1200) (decimal (-1200)) ∧
      nAton (decimal (-1200)) = ((-1200 : Int) : Num) :=
  integer_round_trip (by norm_num) (.inr rfl) (by rw [List.length_replicate]; decide)

end Integers

end NullG.Nsp.Ntoa
