/-
The objects and values of the interpreter (`nsp.h`), and the numbers and names of `libc.c`
and `objects.c`.

An `obj_t` and a `val_t` are cells of two memories; a pointer is an address, `Option` where it
can be NULL. `num_t` is a `double` in the source and an exact rational here. The union of a
`val_t` is the value that was stored last, so that a read of another member shows.
-/

import NullG.Nsp.Lexer
import Mathlib.Data.Rat.Defs

namespace NullG.Nsp

/-- The address of an `obj_t`. -/
abbrev ObjId := Nat

/-- The address of a `val_t`. -/
abbrev ValId := Nat

/-- `num_t`. -/
abbrev Num := Rat

/-- The object types (`NT_NULL` and so on). -/
inductive Ty where
  | null
  | boolean
  | number
  | string
  | nfunc
  | cfunc
  | table
  | cdata
  deriving DecidableEq, Repr

/-- The C functions that run scripts or that `n_execfunction` tells apart, and the others by a
number. -/
inductive CFun where
  | nlInclude
  | nlBreak
  | nlCoroutineConstructor
  | nlCoroutine
  | nlBaseMethod
  | nlEval
  | nlExec
  | lib (n : Nat)
  deriving DecidableEq, Repr

/-- The union `d` of a value. -/
inductive Data where
  | num (q : Num)
  | str (b : List Byte)
  | cfunc (f : CFun)
  | table (f i l : Option ObjId)
  deriving DecidableEq

/-- `nsp_valrec`. Of `attr` the flags that are read: `NST_AUTOSORT`, `NST_STACKVAL` and
`NST_SYSTEM`; nothing sets `NST_LINK`. `refs` is an `unsigned short`. -/
structure Val where
  type : Ty
  autosort : Bool := false
  stackval : Bool := false
  system : Bool := false
  refs : Nat := 1
  size : Nat := 0
  ztable : Option ObjId := none
  d : Data := .num 0
  deriving DecidableEq

/-- `nsp_objrec`. -/
structure Obj where
  prev : Option ObjId := none
  next : Option ObjId := none
  val : Option ValId := none
  hash : UInt32 := 0
  nval : Int := 0
  name : List Byte := []
  deriving DecidableEq

/-! ### The union -/

/-- `d.num`. -/
def Data.asNum : Data → Except Fault Num
  | .num q => .ok q
  | _ => .error .badData

/-- `d.str` with its length: NULL where the bytes of the union are zero. -/
def Data.asStr : Data → Except Fault (Option (List Byte))
  | .str b => .ok (some b)
  | .num q => if q = 0 then .ok none else .error .badData
  | .table none _ _ => .ok none
  | _ => .error .badData

/-- `d.table.f`, `d.table.i` and `d.table.l`. -/
def Data.asTable : Data → Except Fault (Option ObjId × Option ObjId × Option ObjId)
  | .table f i l => .ok (f, i, l)
  | .num q => if q = 0 then .ok (none, none, none) else .error .badData
  | _ => .error .badData

/-- `d.cfunc`. -/
def Data.asCfunc : Data → Except Fault CFun
  | .cfunc f => .ok f
  | _ => .error .badData

/-! ### Numbers -/

/-- The digits at `p`, read onto `acc`, and what follows them. -/
def digits (acc : Num) : List Byte → Num × List Byte
  | [] => (acc, [])
  | c :: p => if ncIsdigit c then digits (10 * acc + (c - ch '0').toNat) p else (acc, c :: p)

/-- The digits behind a dot. -/
def decimals (acc rdot : Num) : List Byte → Num
  | [] => acc
  | c :: p => if ncIsdigit c then decimals (acc + (c - ch '0').toNat * rdot) (rdot / 10) p else acc

/-- `n_aton` behind the sign. -/
def unsignedNum (str : List Byte) : Num :=
  match digits 0 str with
  | (rval, c :: s) => if c = ch '.' then decimals rval (1 / 10) s else rval
  | (rval, []) => rval

/-- `n_aton`. -/
def nAton (str : List Byte) : Num :=
  match str with
  | c :: s => if c = ch '-' then 0 - unsignedNum s else unsignedNum str
  | [] => 0

/-- Truncation, as in a cast to an integer. -/
def Num.trunc (q : Num) : Int := q.num.tdiv q.den

/-- The digits of a number. -/
def natDigits (n : Nat) : List Byte := (Nat.toDigits 10 n).map ch

/-- The loop that writes decimals: `dec` digits of the fraction `f`. -/
def fraction (f : Num) : Nat → List Byte
  | 0 => []
  | dec + 1 =>
      let f := f * 10
      (ch '0' + (Num.trunc f % 10).toNat.toUInt8) :: fraction f dec

/-- Cut the zeros at the end, and a dot that is left there. -/
def trimZeros (str : List Byte) : List Byte :=
  match str.reverse.dropWhile (· == ch '0') with
  | c :: s => if c = ch '.' then s.reverse else (c :: s).reverse
  | [] => []

/-- `n_ntoa` to base ten; `neg` tells that the base is -10. -/
def nNtoa (num : Num) (neg : Bool) (dec : Nat) : List Byte :=
  let sign := neg && num < 0
  let n := if sign then -Num.trunc num else Num.trunc num
  let f := if sign then -(num - Num.trunc num) else num - Num.trunc num
  if n.tmod 10 < 0 then bytes "nan"
  else
    let str := (if sign then [ch '-'] else []) ++ (if n < 0 then [ch '0'] else natDigits n.toNat)
    if dec = 0 then str else trimZeros (str ++ ch '.' :: fraction f dec)

/-! ### Names -/

/-- `cdb_hash`. The bytes are those of a `char`. -/
def cdbHash (p : List Byte) : UInt32 :=
  p.foldl (fun hash c => (hash + (hash <<< 5)) ^^^ c.toInt8.toInt32.toUInt32) 5381

/-- The bytes of a C string. -/
def cstr (b : List Byte) : List Byte := b.takeWhile (· != 0)

/-- The name that `nc_strncpy(name, str, MAX_OBJNAMELEN)` leaves. -/
def clip (name : List Byte) : List Byte := name.take (maxObjnamelen - 1)

/-- All bytes are digits. -/
def allDigits (name : List Byte) : Bool := !name.isEmpty && name.all ncIsdigit

/-- The `nval` of a name: its number when it is all digits. -/
def nameNval (name : List Byte) : Int := if allDigits name then Num.trunc (nAton name) else -1

/-- `*a - *b` behind the bytes that two strings share, as `nc_strcmp` and the loops of
`n_locateobj` find it. -/
def nameCmp : List Byte → List Byte → Int
  | [], [] => 0
  | [], b :: _ => -(b.toNat : Int)
  | a :: _, [] => a.toNat
  | a :: p, b :: q => if a = b then nameCmp p q else (a.toNat : Int) - b.toNat

/-- `n_setname`. -/
def Obj.setname (o : Obj) (name : List Byte) : Obj :=
  { o with name := clip name, hash := cdbHash (clip name), nval := nameNval (clip name) }

/-- `n_setnamei`. -/
def Obj.setnamei (o : Obj) (i : Nat) : Obj :=
  { o with name := natDigits i, hash := cdbHash (natDigits i), nval := i }

end NullG.Nsp
