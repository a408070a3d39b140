/-
The op stream (`n_decompose` of `compile.c`, `n_seekop` of `opcodes.c`, `n_skipto` of
`block.c`): the token list written out as bytes, and the walks over it.

A pointer into the stream is the suffix it points at, as in the scanner. The buffer
`destbuf` is the list of the bytes written so far; the bytes behind it are not
initialised, and a read there is `Fault.outOfBounds`.

* `encTok` is the layout of one token and `emitLoop` the loop that writes them, with
  the file name that follows a `function`.
* `fixupLoop` fills in the lengths of braces and parentheses.
* `walkOps` walks a stream with `n_seekop(p, 0)` from the optab offset up to the file
  size, and reads each op's data through its length field.
-/

import NullG.Lib.LittleEndian
import NullG.Nsp.Lexer

namespace NullG.Nsp

open NullG.Lib

/-! ### Fields -/

/-- `writei4`. -/
def writei4 (n : Int) : List Byte := LittleEndian.encode 4 (n % 2 ^ 32).toNat

/-- `writei2`. -/
def writei2 (n : Int) : List Byte := LittleEndian.encode 2 (n % 2 ^ 16).toNat

/-- `readi4`: an `int`, so the top bit is its sign. -/
def readi4 (p : List Byte) : Except Fault Int :=
  if p.length < 4 then .error .outOfBounds
  else .ok ((LittleEndian.decode (p.take 4) : Int).bmod (2 ^ 32))

/-- `readi2`. -/
def readi2 (p : List Byte) : Except Fault Int :=
  if p.length < 2 then .error .outOfBounds else .ok (LittleEndian.decode (p.take 2))

/-- `p + n`. -/
def advance (p : List Byte) (n : Int) : Except Fault (List Byte) :=
  if n < 0 then .error .outOfBounds else .ok (p.drop n.toNat)

/-! ### Walks -/

/-- `skipblock`: on to the close op and past it, or to a NUL. -/
def skipblock (seek : List Byte → Except Fault (List Byte)) (close : Byte) :
    Nat → List Byte → Except Fault (List Byte)
  | 0, _ => .error .stuck
  | fuel + 1, p => do
      let b ← deref p
      if b = 0 then return p
      else if b = close then return p.tail
      else seek p >>= skipblock seek close fuel

/-- `n_seekop`, with a bound on its calls. -/
def seekop : Nat → List Byte → Bool → Except Fault (List Byte)
  | 0, _, _ => .error .stuck
  | fuel + 1, p, sb => do
      let op ← deref p
      if op = opStrdata ∨ op = opEstrdata then readi4 p.tail >>= fun n => advance p (6 + n)
      else if op = opNumdata ∨ op = opLabel then
        let n ← deref p.tail
        return p.drop (3 + n.toNat)
      else if op = opLinenum then return p.drop 5
      else if op = opPobrace then
        if sb then skipblock (fun p => seekop fuel p true) opPcbrace fuel (p.drop 5)
        else return p.drop 5
      else if op = opPoparen then
        if sb then skipblock (fun p => seekop fuel p true) opPcparen fuel (p.drop 3)
        else return p.drop 3
      else return p.tail

/-- `n_seekop`. -/
def nSeekop (p : List Byte) (sb : Bool) : Except Fault (List Byte) := seekop (p.length + 1) p sb

/-- The loop of `n_skip_ws`, without the line number it notes. -/
def skipWs : Nat → List Byte → Except Fault (List Byte)
  | 0, _ => .error .stuck
  | fuel + 1, p => do
      if (← deref p) = opLinenum then skipWs fuel (p.drop 5) else return p

/-- `n_skip_ws`. -/
def nSkipWs (p : List Byte) : Except Fault (List Byte) := skipWs (p.length + 1) p

/-- The loop of `n_skipto`. -/
def skiptoLoop (c : Byte) : Nat → List Byte → Except Fault (List Byte)
  | 0, _ => .error .stuck
  | fuel + 1, p => do
      if (← deref p) = 0 then .error (.raised (.expected c))
      else
        let p ← nSkipWs p
        if (← deref p) = c then return p
        else nSeekop p true >>= skiptoLoop c fuel

/-- `n_skipto`. -/
def nSkipto (c : Byte) (p : List Byte) : Except Fault (List Byte) := skiptoLoop c (p.length + 1) p

/-! ### Writing the tokens -/

/-- The bytes written for a token. -/
def encTok : Tok → List Byte
  | .linenum n => opLinenum :: writei4 n
  | .op op text =>
      if op = opPobrace then op :: writei4 0
      else if op = opPoparen then op :: writei2 0
      else if op = opStrdata ∨ op = opEstrdata then op :: (writei4 text.length ++ text ++ [0])
      else if op = opNumdata ∨ op = opLabel then op :: text.length.toUInt8 :: (text ++ [0])
      else [op]

/-- The output side of `cstate`, with what the scanner left. -/
structure Dest where
  lex : Lex
  destbuf : List Byte
  destmax : Nat
  deriving DecidableEq

/-- `testgrow`. `n_realloc` takes an `int`: a size from `2 ^ 31` on is negative there, and
the call fails. -/
def Dest.testgrow (d : Dest) (b : Nat) : Except Fault Dest :=
  if d.destbuf.length + b + 1 > d.destmax then
    if 2 ^ 31 ≤ d.destmax + b + 1024 then .error .noMemory
    else .ok { d with destmax := d.destmax + b + 1024 }
  else .ok d

/-- `testgrow` and the writes behind it: every branch of the loop asks for the number of
bytes it writes. -/
def Dest.put (d : Dest) (bs : List Byte) : Except Fault Dest := do
  let d ← d.testgrow bs.length
  return { d with destbuf := d.destbuf ++ bs }

/-- The label that follows a `function` and its name: the source file's name. -/
def fileLabel (srcfile : Option (List Byte)) : Tok := .op opLabel (srcfile.getD [])

/-- The branches of the loop of `n_decompose` that write an op. -/
def emitOp (N : Scanner) (op : Byte) (text : List Byte) (d : Dest) : Except Fault Dest :=
  if op = opPobrace ∨ op = opPoparen ∨ op = opStrdata ∨ op = opEstrdata ∨ op = opNumdata ∨
      op = opLabel ∨ opIsmath op ∨ opIskey op ∨ opIspunc op then
    d.put (encTok (.op op text))
  else do
    let s ← nWarn N d.lex
    return { d with lex := s }

/-- What follows a `function` op, with `cobj` the entry behind it: the function's name, if it
has one, and the file's. Says whether the name was taken (`cobj = cobj->next`). -/
def emitFunc (srcfile : Option (List Byte)) (cobj : List Tok) (d : Dest) :
    Except Fault (Bool × Dest) :=
  match cobj with
  -- `cobj->next->val` is read without a test for NULL
  | [] => .error .nullPointer
  | .op op name :: _ =>
      if op = opLabel then do
        let d ← d.put (encTok (.op op name))
        let d ← d.put (encTok (fileLabel srcfile))
        return (true, d)
      else do
        let d ← d.put (encTok (fileLabel srcfile))
        return (false, d)
  | .linenum _ :: _ => do
      let d ← d.put (encTok (fileLabel srcfile))
      return (false, d)

/-- The loop of `n_decompose` over the token table; `taken` tells that the first entry has
been written. -/
def emitLoop (N : Scanner) (srcfile : Option (List Byte)) :
    Bool → List Tok → Dest → Except Fault Dest
  | _, [], d => .ok d
  | true, _ :: cobj, d => emitLoop N srcfile false cobj d
  | false, .linenum n :: cobj, d => d.put (encTok (.linenum n)) >>= emitLoop N srcfile false cobj
  | false, .op op text :: cobj, d =>
      if op = opUndefined then .ok d
      else do
        let d ← emitOp N op text d
        if op = opKfunc then
          let (taken, d) ← emitFunc srcfile cobj d
          emitLoop N srcfile taken cobj d
        else emitLoop N srcfile false cobj d

/-- The header: magic bytes, file size, optab offset (20), symtab offset. -/
def header : List Byte := [0x0D, 0xAC, 0, 0, 0, 0, 0, 0] ++ writei4 0 ++ writei4 20 ++ writei4 0

/-- Write the field of a file size at byte 8. -/
def setFilesize (n : Int) (buf : List Byte) : List Byte := buf.take 8 ++ writei4 n ++ buf.drop 12

/-! ### The lengths of blocks -/

/-- One branch of the fix-up loop: the length field of the open op at `p`, whose close op
is `close` and whose field is `width` bytes wide. `none` is the `break`. -/
def fixup (N : Scanner) (s : Lex) (p : List Byte) (close : Byte) (width : Nat) :
    Except Fault (Lex × Option (List Byte)) := do
  let p2 ← nSeekop p true
  if p.length ≤ p2.length then
    let s ← nWarn N s
    return (s, none)
  else
    -- `--p2`
    let n := p.length - p2.length - 1
    let s ← if (← deref (p.drop n)) ≠ close then nWarn N s else pure s
    let field := LittleEndian.encode width (((n : Int) - (width + 1)) % 256 ^ width).toNat
    return (s, some (p.take 1 ++ field ++ p.drop (width + 1)))

/-- The loop that fills in the lengths; `pre` holds the bytes before `p`. -/
def fixupLoop (N : Scanner) : Nat → Lex → List Byte → List Byte → Except Fault (Lex × List Byte)
  | 0, _, _, _ => .error .stuck
  | fuel + 1, s, pre, p =>
      if p.length ≤ 4 then .ok (s, pre ++ p)
      else do
        let op ← deref p
        if op = opLinenum then fixupLoop N fuel s (pre ++ p.take 5) (p.drop 5)
        else
          let (s, fixed) ←
            if op = opPobrace then fixup N s p opPcbrace 4
            else if op = opPoparen then fixup N s p opPcparen 2
            else pure (s, some p)
          match fixed with
          | none => return (s, pre ++ p)
          | some p =>
              let p' ← nSeekop p false
              fixupLoop N fuel s (pre ++ p.take (p.length - p'.length)) p'

/-- A text that starts like an op stream. -/
def chewed (text : List Byte) : Bool := text.take 2 == [0x0D, 0xAC]

/-- `n_decompose` up to the fix-up: the tokens are written out. -/
def emit (N : Scanner) (srcfile : Option (List Byte)) (s : Lex) : Except Fault Dest := do
  let d : Dest := { lex := s, destbuf := [], destmax := 1024 }
  let d ← d.testgrow 8
  let d := { d with destbuf := header }
  let d ← d.put (encTok (.linenum 1))
  let d ← emitLoop N srcfile false s.code d
  -- the size does not count the trailing NULs
  let d := { d with destbuf := setFilesize d.destbuf.length d.destbuf }
  d.put (writei4 0)

/-- `n_decompose`: the stream (`*dsttext`), which is NULL when the text is one already. -/
def nDecompose (N : Scanner) (srcfile : Option (List Byte)) (text : List Byte) (warnings : Int) :
    Except Fault (Option (List Byte)) :=
  if chewed text then do
    let _ ← nWarn N (Lex.start text warnings)
    return none
  else do
    let s ← nDecomposeSub N (Lex.start text warnings)
    let d ← emit N srcfile s
    let (_, buf) ← fixupLoop N (d.destbuf.length + 1) d.lex (d.destbuf.take 12) (d.destbuf.drop 12)
    return some buf

/-! ### Reading a stream -/

/-- An op at `p` with its data, as `n_getstring`, `n_getnumber` and `n_getlabel` find it
through the length field; of a line marker the four bytes of its number. -/
def opData (p : List Byte) : Except Fault (Byte × List Byte) := do
  let op ← deref p
  if op = opStrdata ∨ op = opEstrdata then
    let size ← readi4 p.tail
    return (op, (p.drop 5).take size.toNat)
  else if op = opNumdata ∨ op = opLabel then
    let n ← deref p.tail
    return (op, (p.drop 2).take n.toNat)
  else if op = opLinenum then return (op, p.tail.take 4)
  else return (op, [])

/-- A walk with `n_seekop(p, 0)` until at most `stop` bytes are left. -/
def walk (stop : Nat) : Nat → List Byte → Except Fault (List (Byte × List Byte) × List Byte)
  | 0, _ => .error .stuck
  | fuel + 1, p =>
      if p.length ≤ stop then .ok ([], p)
      else do
        let v ← opData p
        let p ← nSeekop p false
        let (vs, e) ← walk stop fuel p
        return (v :: vs, e)

/-- The walk over a whole stream, from the optab offset to the file size: the ops it visits
and the offset it ends at. -/
def walkOps (buf : List Byte) : Except Fault (List (Byte × List Byte) × Int) := do
  let size ← readi4 (buf.drop 8)
  let optab ← readi4 (buf.drop 12)
  let (vs, e) ← walk (buf.length - size.toNat) (buf.length + 1) (buf.drop optab.toNat)
  return (vs, (buf.length : Int) - e.length)

end NullG.Nsp
