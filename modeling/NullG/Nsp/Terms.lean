/-
Expressions as runs of tokens, with the value that `n_evalsub` gives them, and the walks that leave a part of one out.

An expression is an operand and a tail. `Tail.eval` is the rule of `n_evalsub`: an operator that is followed by one of
higher priority is applied last, to the value of everything behind it, and any other operator is applied at once.
`Passes` is a walk from op to op, with each block passed as a whole: `n_skipto` and the loop that skips the second
branch of a conditional are such walks.
-/

import NullG.Nsp.Arithmetic
import NullG.Nsp.Stream

namespace NullG.Nsp.Expressions

open NullG.Lib NullG.Nsp.Arithmetic

/-! ### Expressions -/

mutual

/-- What `n_evalobj` reads: a literal, a variable or a parenthesis. A sign stands before no parenthesis. -/
inductive Operand where
  | number (sign : Sign) (e : Literal)
  | string (sign : Sign) (text : List Byte)
  | name (sign : Sign) (name : List Byte)
  | paren (first : Operand) (rest : Tail)

/-- What `n_evalsub` goes through behind an operand: operators with their right operands, or a conditional. -/
inductive Tail where
  | done
  | step (op : Byte) (right : Operand) (rest : Tail)
  | cond (yes no : Operand) (rest : Tail)

end

/-- The operators of `n_evalop`. -/
def binaries : List Byte :=
  [opMadd, opMsub, opMmul, opMdiv, opMmod, opMand, opMor, opMxor, opMshiftl, opMshiftr, opMceq, opMceeq, opMcne, opMcle,
    opMcge, opMclt, opMcgt, opMland, opMlor]

/-- The tokens of a sign. -/
def signToks (sign : Sign) : List Tok := sign.ops.map fun op => .op op []

mutual

/-- The tokens of an operand. -/
def Operand.toks : Operand → List Tok
  | .number sign e => signToks sign ++ [.op opNumdata e.text]
  | .string sign text => signToks sign ++ [.op opStrdata text]
  | .name sign name => signToks sign ++ [.op opLabel name]
  | .paren first rest => .op opPoparen [] :: ((first.toks ++ rest.toks) ++ [.op opPcparen []])

/-- The tokens of a tail. -/
def Tail.toks : Tail → List Tok
  | .done => []
  | .step op right rest => .op op [] :: (right.toks ++ rest.toks)
  | .cond yes no rest => .op opMquestion [] :: (yes.toks ++ .op opMcolon [] :: (no.toks ++ rest.toks))

end

/-- The op that a tail starts with. -/
def Tail.head : Tail → Option Byte
  | .done => none
  | .step op _ _ => some op
  | .cond _ _ _ => some opMquestion

/-- The first operator of the tail has a higher priority. -/
def Tail.binds (op : Byte) (rest : Tail) : Bool :=
  match rest.head with
  | some op' => priority op < priority op'
  | none => false

/-- An op where the second branch of a conditional is no longer skipped. -/
abbrev BranchEnd (op : Byte) : Prop := op = opPcparen ∨ op = opPcomma ∨ op = opPsemicol

mutual

/-- The operand may stand in an expression with the variables of `known`. -/
def Operand.Ok (known : List Byte → Prop) : Operand → Prop
  | .number _ _ => True
  | .string _ text => text.length < 2 ^ 31
  | .name _ name => known name
  | .paren first rest => first.Ok known ∧ rest.Ok known opPcparen

/-- The tail may stand before the op `e`: `&&` stands in a parenthesis, where `n_skipto` finds the end of what it
skips, and a conditional ends at an op where its second branch is no longer skipped. -/
def Tail.Ok (known : List Byte → Prop) : Tail → Byte → Prop
  | .done, _ => True
  | .step op right rest, e => op ∈ binaries ∧ (op = opMland → e = opPcparen) ∧ right.Ok known ∧ rest.Ok known e
  | .cond yes no rest, e => BranchEnd e ∧ yes.Ok known ∧ no.Ok known ∧ rest.Ok known e

end

mutual

/-- The value of an operand, with the values of the variables. `!` has no effect on a literal. -/
def Operand.eval (m : List Byte → Scalar) : Operand → Outcome
  | .number sign e => .value (.number (if sign = .minus then -e.value else e.value))
  | .string _ text => .value (.string text)
  | .name sign name => .value (sign.apply (m name))
  | .paren first rest => (first.eval m).andThen (rest.eval m)

/-- What a tail makes of the value that it stands behind. -/
def Tail.eval (m : List Byte → Scalar) : Tail → Scalar → Outcome
  | .done, x => .value x
  | .step op right rest, x =>
      if op = opMland ∧ x.tobool = false then .value x
      else (right.eval m).andThen fun y =>
        if rest.binds op then (rest.eval m y).andThen (x.evalop op) else (x.evalop op y).andThen (rest.eval m)
  | .cond yes no rest, x => if x.tobool then yes.eval m else (no.eval m).andThen (rest.eval m)

end

mutual

/-- The depth of calls that is enough for an operand. -/
def Operand.cost : Operand → Nat
  | .number _ _ => 2
  | .string _ _ => 2
  | .name _ _ => 2
  | .paren first rest => first.cost + rest.cost + 3

/-- The depth of calls, and the number of rounds, that is enough for a tail. -/
def Tail.cost : Tail → Nat
  | .done => 1
  | .step _ right rest => right.cost + rest.cost + 2
  | .cond yes no rest => yes.cost + no.cost + rest.cost + 2

end

/-- An expression. -/
structure Expr where
  first : Operand
  rest : Tail

namespace Expr

/-- The tokens of an expression. -/
def toks (e : Expr) : List Tok := e.first.toks ++ e.rest.toks

/-- The expression may stand before the op `op`. -/
def Ok (e : Expr) (known : List Byte → Prop) (op : Byte) : Prop := e.first.Ok known ∧ e.rest.Ok known op

/-- The value of an expression. -/
def eval (e : Expr) (m : List Byte → Scalar) : Outcome := (e.first.eval m).andThen (e.rest.eval m)

/-- The depth of calls that is enough for an expression. -/
def cost (e : Expr) : Nat := e.first.cost + e.rest.cost + 3

end Expr

/-! ### Walks -/

/-- A token that every walk passes. -/
def Sound (t : Tok) : Prop := t.Valid ∧ t.Fits ∧ t.Short

/-- A properly nested run of sound tokens that has tokens of `P` outside of its blocks. -/
inductive Level : (Byte → Prop) → List Tok → Prop where
  | nil {P : Byte → Prop} : Level P []
  | leaf {P : Byte → Prop} {t : Tok} {ts : List Tok} : Sound t → ¬ t.IsBracket → P t.opByte → Level P ts →
      Level P (t :: ts)
  | block {P : Byte → Prop} {o c : Tok} {inner ts : List Tok} : Pair o c → Sound o → Sound c → P o.opByte →
      Level (fun _ => True) inner → Level P ts → Level P (o :: (inner ++ c :: ts))

section

variable {P : Byte → Prop} {ts us : List Tok} {bs p q r : List Byte} {c : Byte} {s : St}

theorem Level.append (h : Level P ts) (h' : Level P us) : Level P (ts ++ us) := by
  induction h with
  | nil => exact h'
  | leaf hs ht hP _ ih => exact .leaf hs ht hP (ih h')
  | @block P o c inner ts hp ho hc hP hin _ _ ih =>
      rw [List.cons_append, List.append_assoc, List.cons_append]
      exact .block hp ho hc hP hin (ih h')

theorem Level.nested (h : Level P ts) : Nested ts := by
  induction h with
  | nil => exact .nil
  | leaf _ ht _ _ ih => exact .leaf ht ih
  | block hp _ _ _ _ _ ihin ih => exact .block hp ihin ih

theorem Level.sound (h : Level P ts) : ∀ t ∈ ts, Sound t := by
  induction h with
  | nil =>
      intro t ht
      cases ht
  | leaf hs _ _ _ ih => exact List.forall_mem_cons.mpr ⟨hs, ih⟩
  | block _ ho hc _ _ _ ihin ih =>
      refine List.forall_mem_cons.mpr ⟨ho, fun t ht => ?_⟩
      exact (List.mem_append.mp ht).elim (ihin t) (List.forall_mem_cons.mpr ⟨hc, ih⟩ t)

end

/-! ### Walks over expressions -/

section

variable {P : Byte → Prop} {known : List Byte → Prop}

end

end NullG.Nsp.Expressions
