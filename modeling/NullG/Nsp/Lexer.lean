/-
The NSP tokenizer (`compile.c`, and `n_getop` of `opcodes.c`): source text to the
token list that `n_decompose` then writes out.

`n_context_readptr` is modelled by the suffix of the text it points at, the
terminating NUL included, so `*p` is the head of a list, `p++` its tail, and a read
beyond the NUL is a read of the empty list (`Fault.outOfBounds`). The token list
built in `state->tobj1` is `Lex.code`: one entry for each `n_newobj`.

* `nSkipblank`, `nGetop`, `nSkipquote`, `nUnescape`, `nExtractquote` are the
  scanning functions, `decomposeIter` is one pass of the loop of
  `n_decompose_sub` and `nDecomposeSub` the loop.
* `n_error` leaves the scanner by `longjmp` when `savjmp` is set (`Scanner.jmp`) and
  returns otherwise; `n_warn` turns into `n_error` past `maxwarnings`. Nothing sets
  `N->strict`, so that exit of `n_warn` is left out.
-/

import NullG.Nsp.Opcodes

namespace NullG.Nsp

/-- A token as `n_decompose_sub` stores it: a line marker, whose value is a number, or
an op (`val->attr`) with its text (`val->d.str`). -/
inductive Tok where
  | linenum (n : Nat)
  | op (op : Byte) (text : List Byte)
  deriving DecidableEq, Repr

/-- The errors raised through `n_error`, by their message: "unterminated string", from
`n_warn` "too many warnings (%d)", "expected a '%s'" with its op, and the others by their
number and text. -/
inductive NError where
  | unterminatedString
  | tooManyWarnings
  | expected (op : Byte)
  | message (err : Nat) (text : List Byte)
  deriving DecidableEq, Repr

/-- How a run can stop before its end: an error that leaves by `longjmp`, a read outside
the text, a loop that does not end, a NULL that is followed, an allocation that fails, an
object or value that is no longer there, a union read as another member, an integer operation
without a result, or a call of code that is not modelled. -/
inductive Fault where
  | raised (e : NError)
  | outOfBounds
  | stuck
  | nullPointer
  | noMemory
  | dangling
  | badData
  | arithmetic
  | foreign
  deriving DecidableEq, Repr

/-- What the scanner reads of the interpreter: whether `savjmp` is set, and the number
of warnings after which `n_warn` gives up. -/
structure Scanner where
  jmp : Bool
  maxwarnings : Int

/-- The scanner's state: `readptr`, the entries of `state->tobj1`, `state->lineno`,
`N->warnings`, and whether `n_error` was called and returned. -/
structure Lex where
  rest : List Byte
  code : List Tok := []
  lineno : Nat := 1
  warnings : Int := 0
  err : Bool := false
  deriving DecidableEq

/-- `n_newobj` followed by the assignment of the token's value. -/
def Lex.newobj (s : Lex) (t : Tok) : Lex := { s with code := s.code ++ [t] }

/-- `*p`. -/
def deref : List Byte → Except Fault Byte
  | [] => .error .outOfBounds
  | b :: _ => .ok b

/-! ### Warnings and errors -/

/-- `n_warn`. Past the limit it calls `n_error`, which without a `savjmp` calls `n_warn`
again, until the `short` counter wraps. -/
def nWarn (N : Scanner) (s : Lex) : Except Fault Lex :=
  if s.warnings + 1 > N.maxwarnings then
    if N.jmp then .error (.raised .tooManyWarnings)
    else .ok { s with warnings := -32768, err := true }
  else .ok { s with warnings := s.warnings + 1 }

/-- `n_error`. -/
def nError (N : Scanner) (e : NError) (s : Lex) : Except Fault Lex :=
  if N.jmp then .error (.raised e) else nWarn N { s with err := true }

/-! ### Blanks and comments -/

/-- The inner loop of a `#` or `//` comment. -/
def skipLine : List Byte → Except Fault (List Byte)
  | [] => .error .outOfBounds
  | b :: p => if b = 0 ∨ b = ch '\n' ∨ b = ch '\r' then .ok (b :: p) else skipLine p

/-- The inner loop of a block comment, with the line count. -/
def skipComment : List Byte → Nat → Except Fault (List Byte × Nat)
  | [], _ => .error .outOfBounds
  | b :: p, n =>
      if b = 0 then .ok (b :: p, n)
      else if b = ch '\n' then skipComment p (n + 1)
      else if b = ch '*' then
        match p with
        | [] => .error .outOfBounds
        | c :: q => if c = ch '/' then .ok (q, n) else skipComment p n
      else skipComment p n

/-- A line marker for the newline at `readptr`, if there is one. -/
def Lex.newline (s : Lex) : Lex :=
  if s.rest.head? = some (ch '\n') then
    { s with lineno := s.lineno + 1, code := s.code ++ [.linenum (s.lineno + 1)] }
  else s

/-- The comment that opens at `readptr`, if one does: the first three branches of the
loop of `n_skipblank`, up to their line markers. -/
def skipOpen (s : Lex) : Except Fault Lex :=
  match s.rest with
  | [] => .error .outOfBounds
  | b :: p =>
      if b = ch '#' then do
        let p ← skipLine p
        return { s with rest := p }
      else if b = ch '/' then do
        let c ← deref p
        if c = ch '/' then do
          let p ← skipLine p.tail
          return { s with rest := p }
        else if c = ch '*' then do
          let (p, n) ← skipComment p.tail s.lineno
          return { s with rest := p, lineno := n }
        else return s
      else return s

/-- The loop of `n_skipblank`. -/
def skipblankLoop : Nat → Lex → Except Fault Lex
  | 0, _ => .error .stuck
  | fuel + 1, s => do
      if (← deref s.rest) = 0 then return s
      let s ← skipOpen s
      -- each branch ends in the same test for a newline
      let s := s.newline
      let b ← deref s.rest
      if ncIsspace b then skipblankLoop fuel { s with rest := s.rest.tail } else return s

/-- `n_skipblank`. -/
def nSkipblank (s : Lex) : Except Fault Lex := skipblankLoop (s.rest.length + 1) s

/-! ### Operators, keywords and labels -/

/-- The loop of `n_getop` that copies a label: at most `room` more bytes. -/
def labelTail : Nat → List Byte → Except Fault (List Byte × List Byte)
  | 0, p => .ok ([], p)
  | _ + 1, [] => .error .outOfBounds
  | room + 1, c :: p =>
      if isLabel c || ncIsdigit c then do
        let (name, p) ← labelTail room p
        return (c :: name, p)
      else .ok ([], c :: p)

/-- The spelling of an operator: one byte, or two when the second is an operator byte
too; after `=` only further `=`, up to three. -/
def mathName : List Byte → Except Fault (List Byte × List Byte)
  | [] => .error .outOfBounds
  | c :: p => do
      let d ← deref p
      if isMathop d then
        if c = ch '=' then
          if d = ch '=' then do
            let p := p.tail
            if (← deref p) = ch '=' then return ([c, d, ch '='], p.tail)
            return ([c, d], p)
          else return ([c], p)
        else return ([c, d], p.tail)
      else return ([c], p)

/-- `n_getop`: the op, the text left in `name`, and the new `readptr`. -/
def nGetop (rest : List Byte) : Except Fault (Byte × List Byte × List Byte) :=
  match rest with
  | [] => .error .outOfBounds
  | c :: p =>
      if c > 127 then return (c, [], p)
      else if isData c then
        if c = ch '\'' ∨ c = ch '"' then return (opStrdata, [], rest)
        else if c = 0x60 then return (opEstrdata, [], rest)
        else if c = ch '@' then do
          let d ← deref p
          if d = ch '\'' ∨ d = ch '"' then return (opStrdata, [], rest)
          else if d = 0x60 then return (opEstrdata, [], rest)
          else return (opUndefined, [], rest)
        else return (opNumdata, [], rest)
      else if isLabel c then do
        let (tail, p) ← labelTail (maxObjnamelen - 1) p
        let name := c :: tail
        return ((findop keywords name).getD opLabel, name, p)
      else if isPuncop c then return ((findop puncops [c]).getD opUndefined, [c], p)
      else if isMathop c then do
        let (name, p) ← mathName rest
        return ((findop mathops name).getD opUndefined, name, p)
      else return (opUndefined, [], rest)

/-! ### Quoted text -/

/-- The test at the foot of the loop of `n_skipquote`. -/
def quoteFoot (N : Scanner) (s : Lex) : Except Fault Lex := do
  if (← deref s.rest) = 0 then nError N .unterminatedString s else return s

/-- `n_skipquote`: `readptr` is moved past the closing quote `c`. -/
def nSkipquote (N : Scanner) (c : Byte) (verbatim : Bool) : Nat → Lex → Except Fault Lex
  | 0, _ => .error .stuck
  | fuel + 1, s => do
      let b ← deref s.rest
      if b = 0 then return s
      else if b = ch '\\' ∧ !verbatim then
        quoteFoot N { s with rest := s.rest.tail.tail } >>= nSkipquote N c verbatim fuel
      else if b = c then return { s with rest := s.rest.tail }
      else if b = ch '\n' then
        quoteFoot N { s with rest := s.rest.tail, lineno := s.lineno + 1 } >>=
          nSkipquote N c verbatim fuel
      else quoteFoot N { s with rest := s.rest.tail } >>= nSkipquote N c verbatim fuel

/-- The escapes `n_unescape` knows. -/
def unescape (c : Byte) : Option Byte :=
  if c = ch '0' then some 0
  else if c = ch 'a' then some 7
  else if c = ch 't' then some (ch '\t')
  else if c = ch 'f' then some 12
  else if c = ch 'e' then some 27
  else if c = ch 'r' then some (ch '\r')
  else if c = ch 'n' then some (ch '\n')
  else if c = ch '\'' then some (ch '\'')
  else if c = ch '"' then some (ch '"')
  else if c = 0x60 then some 0x60
  else if c = ch '\\' then some (ch '\\')
  else none

/-- `n_unescape`: the `len` bytes at `src`, with `e` set after a backslash. -/
def nUnescape (N : Scanner) : List Byte → Nat → Bool → Lex → Except Fault (List Byte × Lex)
  | _, 0, _, s => .ok ([], s)
  | [], _ + 1, _, _ => .error .outOfBounds
  | c :: src, len + 1, false, s =>
      if c = ch '\\' then nUnescape N src len true s
      else do
        let (dst, s) ← nUnescape N src len false s
        return (c :: dst, s)
  | c :: src, len + 1, true, s =>
      match unescape c with
      | some b => do
          let (dst, s) ← nUnescape N src len false s
          return (b :: dst, s)
      | none => do
          let s ← nWarn N s
          nUnescape N src len false s

/-- `qe - qs - 1`: the length of the literal between the two pointers. -/
def quoteLen (qs qe : List Byte) : Int := (qs.length : Int) - qe.length - 1

/-- `n_extractquote` on a quote at `readptr`: the text of the literal. The length is
passed on as an `unsigned long`, where `nsp_setstr` takes `-1` for `nc_strlen`. -/
def nExtractquote (N : Scanner) (verbatim : Bool) (s : Lex) : Except Fault (List Byte × Lex) := do
  let q ← deref s.rest
  let qs := s.rest.tail
  let s ← nSkipquote N q verbatim (qs.length + 1) { s with rest := qs }
  let len := quoteLen qs s.rest
  if verbatim then return (qs.take len.toNat, s)
  else nUnescape N qs (len % 2 ^ 64).toNat false s

/-! ### The main loop -/

/-- The loop that reads a number: digits and dots. -/
def numberText : List Byte → Except Fault (List Byte × List Byte)
  | [] => .error .outOfBounds
  | c :: p =>
      if ncIsdigit c || c == ch '.' then do
        let (text, p) ← numberText p
        return (c :: text, p)
      else .ok ([], c :: p)

/-- How one pass of the loop of `n_decompose_sub` ends: it returns, or it goes on with a
new `prevop`. -/
inductive Iter where
  | stop (s : Lex)
  | next (prevop : Byte) (s : Lex)
  deriving DecidableEq

/-- The op of a quoted literal. -/
def quoteOp (q : Byte) : Byte := if q = 0x60 then opEstrdata else opStrdata

/-- A literal that opens at `readptr`, or one byte further after an `@`. -/
def literalAt : List Byte → Option Bool
  | c :: p =>
      if isQuote c then some false
      else if c = ch '@' ∧ (p.head?.any isQuote) then some true
      else none
  | [] => none

/-- The part of a pass of the loop that stands before its branches. -/
def decomposeHead (s : Lex) : Except Fault (Byte × List Byte × Lex) := do
  let s ← nSkipblank s
  let (op, name, rest) ← nGetop s.rest
  let s ← nSkipblank { s with rest := rest }
  return (op, name, s)

/-- The branches of the loop of `n_decompose_sub`. -/
def decomposeBody (N : Scanner) (prevop op : Byte) (lastname : List Byte) (s : Lex) :
    Except Fault Iter :=
  if op = opUndefined then do
    let s ← nWarn N s
    return .stop s
  else if op = opLabel then return .next op (s.newobj (.op opLabel lastname))
  else if opIsmath op || opIskey op || opIspunc op then
    if opIskey op && prevop == opPdot then
      -- it's NOT a keyword!
      match findop keywords lastname with
      | some _ => return .next op (s.newobj (.op opLabel lastname))
      | none => return .next op s
    else return .next op (s.newobj (.op op (nGetsym op)))
  else match literalAt s.rest with
    | some verbatim => do
        let s := if verbatim then { s with rest := s.rest.tail } else s
        let q ← deref s.rest
        let (text, s) ← nExtractquote N verbatim s
        return .next q (s.newobj (.op (quoteOp q) text))
    | none => do
        if ncIsdigit (← deref s.rest) then
          let (text, rest) ← numberText s.rest
          return .next op ({ s with rest := rest }.newobj (.op opNumdata text))
        else return .next op s

/-- One pass of the loop of `n_decompose_sub`. -/
def decomposeIter (N : Scanner) (prevop : Byte) (s : Lex) : Except Fault Iter := do
  let (op, lastname, s) ← decomposeHead s
  decomposeBody N prevop op lastname s

/-- The loop of `n_decompose_sub`. -/
def decomposeLoop (N : Scanner) : Nat → Byte → Lex → Except Fault Lex
  | 0, _, _ => .error .stuck
  | fuel + 1, prevop, s => do
      if (← deref s.rest) = 0 then return s
      match ← decomposeIter N prevop s with
      | .stop s => return s
      | .next prevop s => decomposeLoop N fuel prevop s

/-- `n_decompose_sub`. -/
def nDecomposeSub (N : Scanner) (s : Lex) : Except Fault Lex :=
  decomposeLoop N (s.rest.length + 1) 0 s

/-- The scanner at the start of a text: `readptr` at `srctext`, an empty token table and
line 1. -/
def Lex.start (text : List Byte) (warnings : Int) : Lex :=
  { rest := text ++ [0], warnings := warnings }

end NullG.Nsp
