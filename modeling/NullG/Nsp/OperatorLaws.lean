/-
Laws of the operators (`n_evalop` of `parser.c`): which of them come to an operation of `int`s that C has no result of,
and where `==` depends on the side a value stands at.
-/

import NullG.Mail.Lines
import NullG.Mail.Numbers
import NullG.Nsp.Operators
import NullG.Nsp.TableMap
import Mathlib.Algebra.Order.Ring.Abs
import Mathlib.Algebra.Order.Ring.Rat

namespace NullG.Nsp

open NullG.Lib NullG.Mail

/-! ### Operators of `int`s -/

/-- The operators that cast both numbers to `int`. -/
def IntOp (op : Byte) : Prop :=
  op = opMmod ∨ op = opMshiftl ∨ op = opMshiftr ∨ op = opMand ∨ op = opMor ∨ op = opMxor

/-- A run that ends with a result or with an error of the script. -/
def Defined (r : EStateM.Result Fault Store Unit) : Prop := ∀ e t, r = .error e t → ∃ e', e = .raised e'

/-- The number at the right is one for the operator. -/
structure Divides (op : Byte) (b : Num) : Prop where
  divisor : op = opMmod → b = 0 ∨ b.trunc ≠ 0
  count : op = opMshiftl ∨ op = opMshiftr → 0 ≤ b.trunc ∧ b.trunc < 32

section

variable {s : Store} {o p : ObjId} {v w : ValId} {a b : Num} {op : Byte}

theorem natAbs_trunc_lt {q : Num} (h : |q| < 2 ^ 31) : q.trunc.natAbs < 2 ^ 31 := by
  have hden : (0 : ℚ) < q.den := Nat.cast_pos.mpr q.den_pos
  have hlt : (q.num.natAbs : ℚ) < 2 ^ 31 * q.den := by
    calc (q.num.natAbs : ℚ) = |q * q.den| := by rw [Rat.mul_den_eq_num, Nat.cast_natAbs, Int.cast_abs]
      _ = |q| * q.den := by rw [abs_mul, abs_of_pos hden]
      _ < 2 ^ 31 * q.den := mul_lt_mul_of_pos_right h hden
  have hnat : q.num.natAbs < 2 ^ 31 * q.den := by exact_mod_cast hlt
  unfold Num.trunc
  rw [Int.natAbs_tdiv]
  exact Nat.div_lt_of_lt_mul (by rwa [Nat.mul_comm] at hnat)

/-- A number below 2^31 is cast to what is before its dot. -/
theorem toInt_eq_trunc {q : Num} (h : |q| < 2 ^ 31) : q.toInt = q.trunc := by
  have hlt := natAbs_trunc_lt h
  unfold Num.toInt
  exact Int.bmod_eq_of_le (by omega) (by omega)

theorem ends_defined_iff {out : Outcome} {r : EStateM.Result Fault Store Unit} (h : out.Ends s o v w r) :
    Defined r ↔ out ≠ .undefined := by
  cases out with
  | value x =>
      obtain ⟨t, rfl, -⟩ := h
      exact ⟨fun _ => Outcome.noConfusion, fun _ _ _ h => by cases h⟩
  | refused =>
      obtain ⟨e, t, rfl⟩ := h
      refine ⟨fun _ => Outcome.noConfusion, ?_⟩
      intro _ e' t' h
      cases h
      exact ⟨e, rfl⟩
  | undefined =>
      obtain ⟨e, t, rfl, he⟩ := h
      refine ⟨?_, fun h => absurd rfl h⟩
      intro h
      obtain ⟨e', rfl⟩ := h e t rfl
      exact absurd rfl (he e')

theorem evalop_number (op : Byte) (a b : Num) : Scalar.evalop op (.number a) (.number b) = .ofNum (numOp op a b) := by
  unfold Scalar.evalop
  rw [if_neg (fun h => h.2 rfl), if_neg Scalar.noConfusion]
  rfl

theorem numOp_mod (a b : Num) : numOp opMmod a b = if b = 0 then .ok .null
    else if b.toInt = 0 ∨ (a.toInt = -2 ^ 31 ∧ b.toInt = -1) then .error .arithmetic
    else .ok (.num (a.toInt.tmod b.toInt)) := rfl

theorem numOp_shiftl (a b : Num) : numOp opMshiftl a b = shiftOp (· <<< ·) a b := rfl

theorem numOp_shiftr (a b : Num) : numOp opMshiftr a b = shiftOp BitVec.sshiftRight a b := rfl

theorem ofNum_undefined_iff {r : Except Fault NumResult} : Outcome.ofNum r ≠ .undefined ↔ ∃ x, r = .ok x := by
  rcases r with e | x
  · exact ⟨fun h => absurd rfl h, fun h => by obtain ⟨x, hx⟩ := h; cases hx⟩
  · refine ⟨fun _ => ⟨x, rfl⟩, fun _ => ?_⟩
    cases x <;> exact Outcome.noConfusion

theorem shiftOp_ok_iff {f : BitVec 32 → Nat → BitVec 32} (hb : |b| < 2 ^ 31) :
    (∃ x, shiftOp f a b = .ok x) ↔ 0 ≤ b.trunc ∧ b.trunc < 32 := by
  unfold shiftOp
  rw [toInt_eq_trunc hb]
  split_ifs with h
  · exact ⟨fun _ => h, fun _ => ⟨_, rfl⟩⟩
  · exact ⟨fun ⟨x, hx⟩ => (by cases hx), fun h' => absurd h' h⟩

theorem numOp_mod_ok_iff (ha : |a| < 2 ^ 31) (hb : |b| < 2 ^ 31) :
    (∃ x, numOp opMmod a b = .ok x) ↔ b = 0 ∨ b.trunc ≠ 0 := by
  have hmin : a.trunc ≠ -2 ^ 31 := by
    have hlt := natAbs_trunc_lt ha
    omega
  rw [numOp_mod, toInt_eq_trunc ha, toInt_eq_trunc hb]
  by_cases hzero : b = 0
  · rw [if_pos hzero]
    exact ⟨fun _ => .inl hzero, fun _ => ⟨_, rfl⟩⟩
  · rw [if_neg hzero]
    split_ifs with h
    · refine ⟨fun ⟨x, hx⟩ => (by cases hx), ?_⟩
      intro hb
      exact absurd (h.resolve_right fun h => hmin h.1) (hb.resolve_left hzero)
    · exact ⟨fun _ => .inr fun h' => h (.inl h'), fun _ => ⟨_, rfl⟩⟩

/-- The operators of `int`s have a result where the number at the right is one for them. -/
theorem numOp_ok_iff (hop : IntOp op) (ha : |a| < 2 ^ 31) (hb : |b| < 2 ^ 31) :
    (∃ x, numOp op a b = .ok x) ↔ Divides op b := by
  rcases hop with rfl | rfl | rfl | rfl | rfl | rfl
  · rw [numOp_mod_ok_iff ha hb]
    exact ⟨fun h => ⟨fun _ => h, fun h => absurd h (by decide)⟩, fun h => h.divisor rfl⟩
  · rw [numOp_shiftl, shiftOp_ok_iff hb]
    exact ⟨fun h => ⟨fun h => absurd h (by decide), fun _ => h⟩, fun h => h.count (.inl rfl)⟩
  · rw [numOp_shiftr, shiftOp_ok_iff hb]
    exact ⟨fun h => ⟨fun h => absurd h (by decide), fun _ => h⟩, fun h => h.count (.inr rfl)⟩
  all_goals exact ⟨fun _ => ⟨fun h => absurd h (by decide), fun h => absurd h (by decide)⟩, fun _ => ⟨_, rfl⟩⟩

/-- `n_evalop` on numbers below 2^31 comes to no operation of `int`s without a result exactly where the divisor is zero
or has an integer part, and the count of a shift is one of an `int`. -/
theorem intOp_defined_iff (hop : IntOp op) (ha : |a| < 2 ^ 31) (hb : |b| < 2 ^ 31) (ho : Has s o v (.number a))
    (hp : Has s p w (.number b)) (hne : o ≠ p) (hvw : v ≠ w) : Defined ((nEvalop o op p).run s) ↔ Divides op b := by
  rw [ends_defined_iff (nEvalop_run op ho hp hne hvw), evalop_number, ofNum_undefined_iff, numOp_ok_iff hop ha hb]

end

/-- A memory with the null object, `N->g`, `N->r` and two more objects. -/
def pairOf (y z : Val) : Store where
  objs := ((((Cells.empty.alloc { val := some 0 }).alloc { val := some 1 }).alloc { val := some 2 }).alloc
    { val := some 3 }).alloc { val := some 4 }
  vals := ((((Cells.empty.alloc { type := .null }).alloc { type := .table }).alloc { type := .null }).alloc y).alloc z
  locals := globalObj

theorem pairOf_left {y z : Val} {x : Scalar} (hy : y.ztable = none) (hx : y.Is x) : Has (pairOf y z) 3 3 x :=
  ⟨⟨y, rfl, hy, hx⟩, by decide⟩

theorem pairOf_right {y z : Val} {x : Scalar} (hz : z.ztable = none) (hx : z.Is x) : Has (pairOf y z) 4 4 x :=
  ⟨⟨z, rfl, hz, hx⟩, by decide⟩

/-- A number in memory. -/
def numVal (q : Num) : Val := { type := .number, d := .num q }

theorem numVal_is (q : Num) : (numVal q).Is (.number q) := ⟨rfl, rfl⟩

theorem intOp_defined_shift : Defined ((nEvalop 3 opMshiftl 4).run (pairOf (numVal 5) (numVal 2))) ↔
    Divides opMshiftl 2 :=
  intOp_defined_iff (a := 5) (.inr (.inl rfl)) (by norm_num) (by norm_num) (pairOf_left rfl (numVal_is _))
    (pairOf_right rfl (numVal_is _)) (by decide) (by decide)

/-- `5 % 0.5`: the divisor is tested as a `double`, and is an `int` in the operation. -/
theorem not_intOp_defined_mod : ¬ ∀ (s : Store) (o p : ObjId) (v w : ValId) (a b : Num) (op : Byte), IntOp op →
    |a| < 2 ^ 31 → |b| < 2 ^ 31 → Has s o v (.number a) → Has s p w (.number b) → o ≠ p → v ≠ w →
    Defined ((nEvalop o op p).run s) := by
  intro h
  have hrun := h (pairOf (numVal 5) (numVal (1 / 2))) 3 4 3 4 5 (1 / 2) opMmod (.inl rfl) (by norm_num) (by norm_num)
    (pairOf_left rfl (numVal_is _)) (pairOf_right rfl (numVal_is _)) (by decide) (by decide)
  have hends := nEvalop_run opMmod (pairOf_left (z := numVal (1 / 2)) rfl (numVal_is 5))
    (pairOf_right rfl (numVal_is (1 / 2))) (by decide) (by decide)
  rw [ends_defined_iff hends, evalop_number] at hrun
  exact hrun (by decide +kernel)

/-! ### Equality -/

/-- A null, a boolean, an integer or a string without a NUL. -/
def Scalar.Plain : Scalar → Prop
  | .number q => ∃ i : Int, q = i
  | .string b => 0 ∉ b
  | _ => True

/-- A string that reads as the number is its decimal text. No text of a negative number is written, but "nan" or "0"
is. -/
def IsText (i : Int) (b : List Byte) : Prop :=
  if 0 ≤ i then nAton b = i → b = natDigits i.toNat
  else nAton b ≠ i ∧ b ≠ if 10 ∣ i then bytes "0" else bytes "nan"

/-- The two values are compared alike from both sides. -/
def Scalar.Alike : Scalar → Scalar → Prop
  | .boolean a, .string b | .string b, .boolean a => a = true ∨ b ≠ []
  | .number q, .string b | .string b, .number q => IsText q.num b
  | _, _ => True

section

variable {s : Store} {o p : ObjId} {v w : ValId} {x y : Scalar} {a b : List Byte}

theorem nameCmp_eq_zero (ha : 0 ∉ a) (hb : 0 ∉ b) : nameCmp a b = 0 ↔ a = b := by
  refine ⟨eq_of_nameCmp ha hb, ?_⟩
  rintro rfl
  have hswap := nameCmp_swap a a
  omega

/-- An object has one truth value. -/
theorem Has.boolean_inj {r r' : Bool} (h : Has s o v (.boolean r)) (h' : Has s o v (.boolean r')) : r = r' := by
  have heq := h.tobool.symm.trans h'.tobool
  cases heq
  rfl

end

/-- A string in memory, which is NULL where it is empty. -/
def strVal (b : List Byte) : Val :=
  { type := .string, size := b.length, d := if b = [] then .num 0 else .str b }

theorem strVal_is (b : List Byte) : (strVal b).Is (.string b) := by
  refine ⟨rfl, rfl, ?_⟩
  unfold strVal
  dsimp only
  split_ifs with hb
  · exact ⟨none, rfl, hb.symm⟩
  · exact ⟨some b, rfl, rfl⟩

end NullG.Nsp
