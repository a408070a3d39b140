/-
The state of a running script, and the primitive actions of the interpreter on it.

`readptr` is the suffix of the op stream that it points at, as in the walks over a stream. The
heap is changed by the actions of `Objects` only (`heap`). What a script prints is left out, and
with it the flush of the output buffer in `n_error`.

Two fields of `St` are not in the source. `frames` holds the loops, switches, guards and calls
that are open, and `log` the steps of the run, the last one first; no action reads them.
-/

import NullG.Nsp.Bytecode
import NullG.Nsp.Objects

namespace NullG.Nsp

open NullG.Lib

/-- A construct of a script that is open; a `guard` is a `try`, `catch` or `finally`. -/
inductive Frame where
  | loop
  | switch
  | guard
  | call
  deriving DecidableEq, Repr

/-- A statement that leaves constructs: `break n`, `continue` and `return`. -/
inductive Jump where
  | brk (n : Int)
  | cnt
  | ret
  deriving DecidableEq, Repr

/-- A step of a run: a statement starts at `p`, a jump is made, a loop goes on with its next
round, a construct is over, an error is caught with these values of `brk`, `cnt` and `ret`, or an
error leaves the end of a call while a `return` is pending. -/
inductive Step where
  | stmt (p : List Byte)
  | jump (j : Jump)
  | again
  | behind (f : Frame)
  | caught (brk cnt : Int) (ret : Bool)
  | failed
  deriving DecidableEq, Repr

/-- `nsp_state` and its `context`; the heap is `store`. -/
structure St where
  store : Store
  readptr : List Byte
  linenum : Int := 0
  funcname : Option (List Byte) := none
  filename : Option (List Byte) := none
  brk : Int := 0
  cnt : Int := 0
  ret : Bool := false
  single : Bool := false
  yielded : Bool := false
  signal : Bool := false
  err : Int := 0
  errbuf : List Byte := []
  frames : List Frame := []
  log : List (Step × List Frame) := []

/-- An action of the interpreter. -/
abbrev M := EStateM Fault St

/-! ### Errors -/

/-- The part of a path behind its last slash, as `n_error` and `n_warn` search it from its end;
the first byte is not looked at. -/
def baseName (path : List Byte) : List Byte :=
  match path with
  | [] => []
  | c :: rest =>
      let tail := (rest.reverse.takeWhile fun b => b != ch '/' && b != ch '\\').reverse
      if tail.length < rest.length then tail else c :: rest

/-- What `n_error` writes before the text when it is given the name of a C function. -/
def St.place (s : St) : List Byte :=
  match s.funcname with
  | some f =>
      (match s.filename with
        | some n => n ++ bytes ":"
        | none => []) ++
      baseName f ++ bytes "() line " ++ nNtoa s.linenum true 0 ++ bytes ", "
  | none => bytes "line " ++ nNtoa s.linenum true 0 ++ bytes ", "

/-- `NE_SYNTAX`, `NE_EXCEPTION` and `NE_INTERNAL`. -/
abbrev neSyntax : Nat := 2

abbrev neException : Nat := 3

abbrev neInternal : Nat := 4

/-- `n_error` in a run: `errbuf` has 256 bytes, two of which are never written by it. `located`
tells that `fname` is not NULL. -/
def nErr {α : Type} (err : Int) (located : Bool) (text : List Byte) : M α := do
  modify fun s =>
    { s with err := err, errbuf := ((if located then s.place else []) ++ text).take 254 }
  throw (.raised (.message err.toNat text))

/-- The number that `n_error` stores for an error of the heap or of the scanner. -/
def NError.errno : NError → Nat
  | .message err _ => err
  | _ => neSyntax

/-- The text of such an error. -/
def NError.text : NError → List Byte
  | .unterminatedString => bytes "unterminated string"
  | .tooManyWarnings => bytes "too many warnings"
  | .expected op => bytes "expected a '" ++ nGetsym op ++ bytes "'"
  | .message _ text => text

/-- The error of a part, as the interpreter raises it. -/
def raiseFault {α : Type} : Fault → M α
  | .raised e => nErr e.errno true e.text
  | f => throw f

/-- The value of a partial function. -/
def ofExcept {α : Type} : Except Fault α → M α
  | .ok a => pure a
  | .error e => raiseFault e

/-- An action on the heap. -/
def heap {α : Type} (x : H α) : M α := fun s =>
  match x.run s.store with
  | .ok a store => .ok a { s with store := store }
  | .error e store => raiseFault e { s with store := store }

/-- `n_warn`. -/
def warn : M Unit := heap nWarning

/-! ### The op stream -/

/-- `readptr`. -/
def here : M (List Byte) := do
  let s ← get
  return s.readptr

/-- `readptr = p`. -/
def goto (p : List Byte) : M Unit := modify fun s => { s with readptr := p }

/-- `*readptr`. -/
def cur : M Byte := do
  let p ← here
  ofExcept (deref p)

/-- `readptr += n`. -/
def skip (n : Nat) : M Unit := do
  let p ← here
  goto (p.drop n)

/-- `n_skip_ws`: the number of the last line marker that it passes is the line. -/
def skipMarkers : M Unit := do
  let p ← here
  let q ← ofExcept (nSkipWs p)
  if q.length < p.length then
    let line ← ofExcept (readi4 (p.drop (p.length - q.length - 4)))
    modify fun s => { s with readptr := q, linenum := line }

/-- `n_peekop`. -/
def peekop : M Byte := do
  skipMarkers
  cur

/-- `n_expect`; `fn` is `__FN__`. -/
def expect (fn : String) (op : Byte) : M Unit := do
  let b ← peekop
  if b ≠ op then
    nErr neSyntax true (bytes fn ++ bytes " expected a '" ++ nGetsym op ++ bytes "' found '" ++
      nGetsym b ++ bytes "'" ++ natDigits b.toNat)

/-- `readptr = n_seekop(readptr, sb)`. -/
def seek (sb : Bool) : M Unit := do
  let p ← here
  goto (← ofExcept (nSeekop p sb))

/-- The loop of `n_skipto`. -/
def skiptoFrom (c : Byte) : Nat → M Unit
  | 0 => throw .stuck
  | n + 1 => do
      if (← cur) = 0 then
        nErr neSyntax true (bytes "expected a '" ++ nGetsym c ++ bytes "'")
      else
        skipMarkers
        if (← cur) = c then return
        seek true
        skiptoFrom c n

/-- `n_skipto`. -/
def skipto (c : Byte) : M Unit := do
  let p ← here
  skiptoFrom c (p.length + 1)

/-- `n_getlabel`. -/
def getlabel : M (List Byte) := do
  let p ← here
  let n ← ofExcept (deref p.tail)
  goto (p.drop (3 + n.toNat))
  return cstr (p.drop 2)

/-- `n_getnumber`. -/
def getnumber : M Num := do
  let p ← here
  let n ← ofExcept (deref p.tail)
  goto (p.drop (3 + n.toNat))
  return unsignedNum (p.drop 2)

/-- The string at `readptr`, and on behind it. -/
def strdata : M (List Byte) := do
  let p ← here
  let size ← ofExcept (readi4 p.tail)
  let q ← ofExcept (advance p size)
  goto (q.drop 6)
  return (p.drop 5).take size.toNat

/-- `n_getstring`. -/
def getstring (cobj : ObjId) : M Unit := do
  let str ← strdata
  let _ ← heap (nspSetobj cobj (some []) (.string str))

/-- `if (n_peekop(N) == op) readptr++`. -/
def accept (op : Byte) : M Unit := do
  if (← peekop) = op then skip 1

/-- `n_error` of a syntax error under a condition. -/
def refuse (c : Prop) [Decidable c] (text : List Byte) : M Unit :=
  if c then nErr neSyntax true text else pure ()

/-! ### Control -/

/-- `N->single`. -/
def setSingle (b : Bool) : M Unit := modify fun s => { s with single := b }

/-- Note a step of the run. -/
def note (e : Step) : M Unit := modify fun s => { s with log := (e, s.frames) :: s.log }

/-- A `break`, a `continue` or a `return`. -/
def jump (j : Jump) : M Unit := do
  note (.jump j)
  match j with
  | .brk n => modify fun s => { s with brk := n }
  | .cnt => modify fun s => { s with cnt := 1 }
  | .ret => modify fun s => { s with ret := true }

/-- Run the part of a script that stands in a construct. -/
def within {α : Type} (f : Frame) (x : M α) : M α := fun s =>
  match x { s with frames := f :: s.frames } with
  | .ok a s' => .ok a { s' with frames := s.frames }
  | .error e s' => .error e { s' with frames := s.frames }

/-- `setjmp` around a part: the errors that leave it by `longjmp` are caught, with the
construct's frames as they were. -/
def attempt {α : Type} (x : M α) : M (Except NError α) := fun s =>
  match x s with
  | .ok a s' => .ok (.ok a) s'
  | .error (.raised e) s' =>
      .ok (.error e) { s' with
        frames := s.frames, log := (.caught s'.brk s'.cnt s'.ret, s.frames) :: s'.log }
  | .error f s' => .error f s'

/-- The end of a call: an error that leaves it while a `return` is pending is noted. -/
def ending (x : M Unit) : M Unit := fun s =>
  match x s with
  | .ok a s' => .ok a s'
  | .error e s' =>
      .error e { s' with log := if s'.ret then (.failed, s.frames) :: s'.log else s'.log }

/-- A call: the body runs with its errors caught, and when what follows it is done no `return` is
pending. -/
def calling {α : Type} (body : M α) (after : Except NError α → M Unit) : M (Except NError α) := do
  let r ← within .call (attempt body)
  ending (after r)
  modify fun s => { s with ret := false }
  note (.behind .call)
  return r

/-- `longjmp` out of a part that was caught. -/
def rethrow {α : Type} (e : NError) : M α := throw (.raised e)

end NullG.Nsp
