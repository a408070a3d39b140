/-
Expressions, variables and table constructors (`parser.c`).

The functions of `parser.c`, `block.c` and `exec.c` call each other. Those that are called before
they are defined here are the fields of `Calls`; `Exec` ties the knot, with a bound on the depth
of the calls that also bounds the loops (`Calls.fuel`). `nsp_eval` leaves its result in `N->r`.
-/

import NullG.Nsp.Machine

namespace NullG.Nsp

open NullG.Lib

/-- `n_execfunctiontype`, as far as it is used. -/
inductive FType where
  | function
  | constructor
  deriving DecidableEq, Repr

/-- The functions that are called before they are defined. -/
structure Calls where
  fuel : Nat
  eval : List Byte → M Unit
  evalobj : ObjId → Bool → M Unit
  evalsub : Byte → ObjId → M Unit
  readtable : ObjId → M Unit
  execfunction : ObjId → Option ObjId → FType → M Unit
  execbasemethod : List Byte → Option ObjId → M Unit
  execconstructor : ObjId → ObjId → M Unit
  exec : List Byte → M Unit

/-- `&N->context->l`. -/
def locals : M ObjId := do
  let s ← get
  return s.store.locals

/-! ### Operators -/

/-- `n_gettype`. -/
def nGettype : Ty → List Byte
  | .null => bytes "null"
  | .boolean => bytes "boolean"
  | .number => bytes "number"
  | .string => bytes "string"
  | .table => bytes "table"
  | .nfunc | .cfunc => bytes "function"
  | .cdata => bytes "cdata"

/-- A cast to `int`. -/
def Num.toInt (q : Num) : Int := (Num.trunc q).bmod (2 ^ 32)

/-- What an operator leaves on two numbers. -/
inductive NumResult where
  | bool (b : Bool)
  | num (q : Num)
  | null
  | unhandled
  deriving DecidableEq

/-- An operator of two `int`s. -/
def intOp (f : BitVec 32 → BitVec 32 → BitVec 32) (a b : Num) : NumResult :=
  .num (f (.ofInt 32 a.toInt) (.ofInt 32 b.toInt)).toInt

/-- A shift of an `int`: the count must be below its width. -/
def shiftOp (f : BitVec 32 → Nat → BitVec 32) (a b : Num) : Except Fault NumResult :=
  if 0 ≤ b.toInt ∧ b.toInt < 32 then .ok (.num (f (.ofInt 32 a.toInt) b.toInt.toNat).toInt)
  else .error .arithmetic

/-- The operators on two numbers. -/
def numOp (op : Byte) (a b : Num) : Except Fault NumResult :=
  if op = opMceeq ∨ op = opMceq then .ok (.bool (a = b))
  else if op = opMcne then .ok (.bool (a ≠ b))
  else if op = opMclt then .ok (.bool (a < b))
  else if op = opMcle then .ok (.bool (a ≤ b))
  else if op = opMcgt then .ok (.bool (b < a))
  else if op = opMcge then .ok (.bool (b ≤ a))
  else if op = opMland then .ok (.bool (a ≠ 0 ∧ b ≠ 0))
  else if op = opMlor then .ok (.bool (a ≠ 0 ∨ b ≠ 0))
  else if op = opMadd ∨ op = opMaddadd ∨ op = opMaddeq then .ok (.num (a + b))
  else if op = opMsub ∨ op = opMsubsub ∨ op = opMsubeq then .ok (.num (a - b))
  else if op = opMmul ∨ op = opMmuleq then .ok (.num (a * b))
  else if op = opMdiv ∨ op = opMdiveq then .ok (if b = 0 then .null else .num (a / b))
  else if op = opMmod then
    if b = 0 then .ok .null
    else if b.toInt = 0 ∨ (a.toInt = -2 ^ 31 ∧ b.toInt = -1) then .error .arithmetic
    else .ok (.num (a.toInt.tmod b.toInt))
  else if op = opMand then .ok (intOp (· &&& ·) a b)
  else if op = opMor then .ok (intOp (· ||| ·) a b)
  else if op = opMxor then .ok (intOp (· ^^^ ·) a b)
  else if op = opMshiftl then shiftOp (· <<< ·) a b
  else if op = opMshiftr then shiftOp BitVec.sshiftRight a b
  else .ok .unhandled

/-- `cobj->val->d.num = q`. -/
def setNum (cobj : ObjId) (q : Num) : H Unit := modVal cobj fun y => { y with d := .num q }

/-- `cobj->val->d.num = b ? 1 : 0`. -/
def setTruth (cobj : ObjId) (b : Bool) : H Unit := setNum cobj (if b then 1 else 0)

/-- `cobj->val->d.num`. -/
def getNum (cobj : ObjId) : H Num := do
  let y ← getVal cobj
  member y.d.asNum

/-- `cobj->val->d.str` as a C string; NULL reads as the empty one. -/
def getCstr (cobj : ObjId) : H (List Byte) := do
  let y ← getVal cobj
  let str ← member y.d.asStr
  return cstr (str.getD [])

/-- The end of `n_evalop`. -/
def unhandled (cobj : ObjId) (op : Byte) (nobj : ObjId) : H Unit := do
  let t ← typeOf cobj
  let u ← typeOf nobj
  nRaise (.message neSyntax (bytes "unhandled operator '" ++ nGettype t ++ bytes "' " ++
    nGetsym op ++ bytes " '" ++ nGettype u ++ bytes "'"))

/-- `n_evalop` with a null at its right. -/
def evalopNull (cobj : ObjId) (op : Byte) (nobj : ObjId) : H Unit := do
  let n ← nspIsnull cobj
  let t ← nspTobool cobj
  if ← nspIstable cobj then nspUnlinkval cobj
  nspSetvaltype cobj .boolean
  if op = opMceeq ∨ op = opMceq then setTruth cobj n
  else if op = opMcne then setTruth cobj (!n)
  else if op = opMland then setTruth cobj false
  else if op = opMlor then setTruth cobj (!n && t)
  else
    nspUnlinkval cobj
    unhandled cobj op nobj

/-- `n_evalop` with a null at its left and none at its right. -/
def evalopFromNull (cobj : ObjId) (op : Byte) (nobj : ObjId) : H Unit := do
  nspSetvaltype cobj .boolean
  if op = opMceeq ∨ op = opMceq then setTruth cobj false
  else if op = opMcne then setTruth cobj true
  else if op = opMland then setTruth cobj false
  else if op = opMlor then
    let q ← nspTonum nobj
    setTruth cobj (q ≠ 0)
  else unhandled cobj op nobj

/-- `n_evalop` with a boolean at its left. -/
def evalopBoolean (cobj : ObjId) (op : Byte) (nobj : ObjId) (type : Ty) : H Unit := do
  let a ← getNum cobj
  match type with
  | .number | .boolean => do
      let b ← getNum nobj
      if op = opMceeq ∨ op = opMceq then setTruth cobj ((a ≠ 0) == (b ≠ 0))
      else if op = opMcne then setTruth cobj ((a ≠ 0) != (b ≠ 0))
      else if op = opMland then setTruth cobj (a ≠ 0 ∧ b ≠ 0)
      else if op = opMlor then setTruth cobj (a ≠ 0 ∨ b ≠ 0)
      else unhandled cobj op nobj
  | .string => do
      if op = opMceeq ∨ op = opMceq then
        let str ← getCstr nobj
        setTruth cobj (a ≠ 0 ∧ str ≠ [])
      else unhandled cobj op nobj
  | .table => do
      let y ← getVal nobj
      let (f, _, _) ← member y.d.asTable
      if op = opMceeq ∨ op = opMceq then setTruth cobj ((a ≠ 0) == f.isSome)
      else if op = opMcne then setTruth cobj ((a ≠ 0) != f.isSome)
      else unhandled cobj op nobj
  | _ => unhandled cobj op nobj

/-- `n_evalop` on two numbers. -/
def evalopNumbers (cobj : ObjId) (op : Byte) (nobj : ObjId) : H Unit := do
  let a ← getNum cobj
  let b ← getNum nobj
  match ← member (numOp op a b) with
  | .bool c => modVal cobj fun y => { y with type := .boolean, d := .num (if c then 1 else 0) }
  | .num q => setNum cobj q
  | .null => modVal cobj fun y => { y with type := .null }
  | .unhandled => unhandled cobj op nobj

/-- `n_evalop` with a number at its left. -/
def evalopNumber (cobj : ObjId) (op : Byte) (nobj : ObjId) (type : Ty) : H Unit := do
  match type with
  | .string => do
      let str ← getCstr nobj
      let _ ← nspSetobj nobj (some []) (.number (nAton str))
      evalopNumbers cobj op nobj
  | .number => evalopNumbers cobj op nobj
  | .boolean => do
      modVal cobj fun y => { y with type := .boolean }
      if op = opMceeq ∨ op = opMceq then
        let a ← getNum cobj
        let b ← getNum nobj
        setTruth cobj ((a ≠ 0) == (b ≠ 0))
      else unhandled cobj op nobj
  | _ => unhandled cobj op nobj

/-- `n_evalop` on two strings. -/
def evalopStrings (cobj : ObjId) (op : Byte) (nobj : ObjId) : H Unit := do
  if op = opMadd then
    let y ← getVal nobj
    let str ← member y.d.asStr
    nspStrcat cobj ((str.getD []).take y.size)
  else
    let a ← getCstr cobj
    let b ← getCstr nobj
    let cmp := nameCmp a b
    nspSetvaltype cobj .boolean
    if op = opMceeq ∨ op = opMceq then setTruth cobj (cmp = 0)
    else if op = opMcne then setTruth cobj (cmp ≠ 0)
    else if op = opMcle then setTruth cobj (cmp ≤ 0)
    else if op = opMcge then setTruth cobj (0 ≤ cmp)
    else if op = opMclt then setTruth cobj (cmp < 0)
    else if op = opMcgt then setTruth cobj (0 < cmp)
    else unhandled cobj op nobj

/-- `n_evalop` with a string at its left. -/
def evalopString (cobj : ObjId) (op : Byte) (nobj : ObjId) (type : Ty) : H Unit := do
  match type with
  | .number => do
      let b ← getNum nobj
      if op = opMmul then nspStrmul cobj (if b < 0 then 0 else (Num.toInt b).toNat)
      else
        let _ ← nspSetobj nobj (some []) (.string (nNtoa b false 6))
        evalopStrings cobj op nobj
  | .string => evalopStrings cobj op nobj
  | .boolean => do
      if op = opMceeq ∨ op = opMceq then
        let a ← getCstr cobj
        let b ← getNum nobj
        let _ ← nspSetobj cobj (some []) (.number (if (a ≠ []) == (b ≠ 0) then 1 else 0))
        modVal cobj fun y => { y with type := .boolean }
      else unhandled cobj op nobj
  | _ => unhandled cobj op nobj

/-- `n_evalop` with a table at its left. -/
def evalopTable (cobj : ObjId) (op : Byte) (nobj : ObjId) (type : Ty) : H Unit := do
  if type = .table then
    let y ← getVal cobj
    let (f, _, _) ← member y.d.asTable
    let y ← getVal nobj
    let (g, _, _) ← member y.d.asTable
    nspSetvaltype cobj .boolean
    if op = opMceeq ∨ op = opMceq then setTruth cobj (f == g)
    else if op = opMcne then setTruth cobj (f != g)
    else unhandled cobj op nobj
  else unhandled cobj op nobj

/-- `n_evalop`: `cobj = cobj op nobj`. -/
def nEvalop (cobj : ObjId) (op : Byte) (nobj : ObjId) : H Unit := do
  let type1 ← typeOf cobj
  let type2 ← typeOf nobj
  if op = opMceeq ∧ type1 ≠ type2 then
    nspSetvaltype cobj .boolean
    setTruth cobj false
  else if type2 = .null then evalopNull cobj op nobj
  else
    match type1 with
    | .null => evalopFromNull cobj op nobj
    | .boolean => evalopBoolean cobj op nobj type2
    | .number => evalopNumber cobj op nobj type2
    | .string => evalopString cobj op nobj type2
    | .table => evalopTable cobj op nobj type2
    | _ => unhandled cobj op nobj

/-! ### Variables -/

section

variable (k : Calls)

/-- `n_getfunction`. -/
def getfunction (cobj : ObjId) : M Unit := do
  expect "parser.c:n_getfunction()" opLabel
  let as ← here
  let _ ← getlabel
  expect "parser.c:n_getfunction()" opPoparen
  let p ← here
  let n ← ofExcept (readi2 p.tail)
  goto (p.drop (n.toNat + 3))
  expect "parser.c:n_getfunction()" opPcparen
  skip 1
  expect "parser.c:n_getfunction()" opPobrace
  seek false
  skipto opPcbrace
  skip 1
  let be ← here
  let _ ← heap (nspSetobj cobj none (.nfunc (as.take (as.length - be.length))))

/-- `n_readindex`: the object, what it stores in `lastname` and in `z`. -/
def readindex (tobj : Option ObjId) : M (ObjId × List Byte × Bool) := do
  let op ← peekop
  if op = opPdot then
    skip 1
    expect "parser.c:n_readindex()" opLabel
    let p ← getlabel
    let (cobj, z) ← heap (nspGetobjEx tobj p)
    return (cobj, clip p, z)
  else if op = opPobracket then
    skip 1
    k.eval (← here)
    expect "parser.c:n_readindex()" opPcbracket
    skip 1
    let p ← heap (do if ← nspIsnull retObj then pure [] else nspTostr retObj)
    let (cobj, z) ← heap (nspGetobjEx tobj p)
    return (cobj, clip p, z)
  else
    match tobj with
    | some cobj => return (cobj, [], false)
    | none => throw .nullPointer

/-- `n_storeval`, the part behind an `=`: the value of the expression is stored. -/
def storeEval (cobj : ObjId) : M Unit := do
  k.eval (← here)
  let type ← heap (typeOf retObj)
  if type = .table ∨ type = .cdata then heap (nspLinkval cobj (some retObj))
  else heap (do
    let y ← getVal cobj
    if 1 < y.refs ∧ (y.type = .table ∨ y.type = .cdata) then nspUnlinkval cobj
    nMoveval cobj retObj)

/-- `n_storeval` of a compound assignment to a number. -/
def storeArith (cobj : ObjId) : M Unit := do
  let op ← cur
  skip 1
  refuse ((← heap (typeOf cobj)) ≠ .number) (bytes "object is not a number")
  k.eval (← here)
  refuse ((← heap (typeOf retObj)) ≠ .number) (bytes "object is not a number")
  refuse (!opIsend (← cur)) (bytes "expected ';'")
  let a ← heap (getNum cobj)
  let b ← heap (getNum retObj)
  if op = opMaddeq then heap (setNum cobj (a + b))
  else if op = opMsubeq then heap (setNum cobj (a - b))
  else if op = opMmuleq then heap (setNum cobj (a * b))
  -- an infinity is no rational
  else if b = 0 then throw .arithmetic
  else heap (setNum cobj (a / b))

/-- `n_storeval` of `+=` and `*=` to a string. -/
def storeText (cobj : ObjId) (op : Byte) : M Unit := do
  skip 1
  k.eval (← here)
  heap (do
    if op = opMaddeq then
      if (← typeOf retObj) = .string then
        let y ← getVal retObj
        let str ← member y.d.asStr
        nspStrcat cobj ((str.getD []).take y.size)
      else nspStrcat cobj (← nspTostr retObj)
    else
      let q ← getNum retObj
      nspStrmul cobj (if q < 0 then 0 else (Num.toInt q).toNat))

/-- `++` and `--` behind an object. -/
def storeStep (cobj : ObjId) (d : Num) : M Unit := do
  skip 1
  refuse ((← heap (typeOf cobj)) ≠ .number) (bytes "object is not a number")
  let a ← heap (getNum cobj)
  heap (setNum cobj (a + d))

/-- The last part of `n_storeval`: a function or the value of an expression is stored. -/
def storeRest (cobj : ObjId) : M Unit := do
  if (← peekop) = opKfunc then
    skip 1
    getfunction cobj
    if (← peekop) = opPoparen then
      k.execfunction cobj none .function
      heap (nMoveval cobj retObj)
  else storeEval k cobj

/-- `n_storeval` behind an `=`. -/
def storeEq (cobj : ObjId) : M Unit := do
  let op ← peekop
  if op = opKnew then
    skip 1
    k.evalobj cobj true
  else if op = opMand then
    skip 1
    expect "parser.c:n_storeval()" opLabel
    let name ← getlabel
    heap (do nspLinkval cobj (some (← nspGetobj none name)))
  else if op = opMmul then
    skip 1
    expect "parser.c:n_storeval()" opLabel
    k.eval (← here)
    heap (nspLinkval cobj (some retObj))
  else storeRest k cobj

/-- `n_storeval`. -/
def storeval (cobj : ObjId) : M Unit := do
  let op ← peekop
  if op = opMaddadd then storeStep cobj 1
  else if op = opMsubsub then storeStep cobj (-1)
  else if (op = opMaddeq ∨ op = opMmuleq) ∧ (← heap (typeOf cobj)) = .string then
    storeText k cobj op
  else if op = opMaddeq ∨ op = opMmuleq ∨ op = opMsubeq ∨ op = opMdiveq then storeArith k cobj
  else if op = opMeq then
    skip 1
    storeEq k cobj
  else if op = opLabel ∨ op = opNumdata ∨ op = opStrdata ∨ op = opPsemicol ∨ op = opMadd ∨
      op = opMsub ∨ op = opPobrace ∨ op = opPoparen ∨ op = opKfunc then
    storeRest k cobj
  else
    warn
    storeRest k cobj

/-- The loop of `n_readvar` over the indexes of a table. -/
def readvarIndexes : Nat → ObjId → ObjId → Option (List Byte) → M (ObjId × ObjId × Option (List Byte))
  | 0, _, _, _ => throw .stuck
  | n + 1, tobj, cobj, name => do
      if (← heap (getVal cobj)).type = .table then
        let op ← cur
        if op ≠ opPobracket ∧ op ≠ opPdot then return (cobj, cobj, name)
        let (next, lastname, _) ← readindex k (some cobj)
        readvarIndexes n cobj next (some lastname)
      else return (tobj, cobj, name)

/-- `n_readvar` from the object that was found: what is read before it is in `preop`, and `name`
is `none` where `nameptr` points at nothing yet. -/
def readvarFrom (tobj cobj : ObjId) (name : Option (List Byte)) (preop : Byte) : M (Option ObjId) := do
  let (tobj, cobj, name) ← readvarIndexes k k.fuel tobj cobj name
  let cobj ← heap (do
    if ← nspIsnull cobj then
      match name with
      | some name => nspSetobj tobj (some name) (.number 0)
      | none => .fail .badData
    else pure cobj)
  heap (do
    if (← getVal cobj).type = .number then
      if preop = opMaddadd then setNum cobj ((← getNum cobj) + 1)
      else if preop = opMsubsub then setNum cobj ((← getNum cobj) - 1))
  if opIsmath (← cur) then storeval k cobj
  return some cobj

/-- `n_readvar`. -/
def readvar (tobj : ObjId) (cobj : Option ObjId) : M (Option ObjId) := do
  let op ← cur
  if op = opKclass then
    skip 1
    expect "parser.c:n_readvar()1" opLabel
    let name ← getlabel
    let cobj ← heap (nspSetobj tobj (some name) .table)
    expect "parser.c:n_readvar()1" opPobrace
    k.readtable cobj
    expect "parser.c:n_readvar()" opPcbrace
    skip 1
    return some cobj
  else if op = opKfunc then
    skip 1
    expect "parser.c:n_readvar()1" opLabel
    let name ← getlabel
    let cobj ← heap (nspSetobj tobj (some name) (.nfunc []))
    getfunction cobj
    return some cobj
  else
    match cobj with
    | some cobj => readvarFrom k tobj cobj none 0
    | none => do
        let op ← peekop
        if op = 0 then return none
        let preop := if op = opMaddadd ∨ op = opMsubsub then op else 0
        skip (if preop = 0 then 0 else 1)
        expect "parser.c:n_readvar()2" opLabel
        let name ← getlabel
        let cobj ← heap (nspGetobj (some tobj) name)
        readvarFrom k tobj cobj (some name) preop

/-! ### Table constructors -/

/-- What `n_readtable` finds where an entry starts. -/
inductive Entered where
  /-- `goto end`. -/
  | done
  /-- A function was read: `break`, or `continue` with the next number. -/
  | func (more : Bool) (i : Nat)
  /-- The value follows, or with `sep` an `=` or a `:` may stand before it. -/
  | value (namebuf : List Byte) (sep : Bool)

/-- A name in brackets. -/
def readkey : M (List Byte) := do
  let op ← peekop
  if op = opLabel then return clip (← getlabel)
  else if op = opNumdata then return nNtoa (← getnumber) false 0
  else if op = opStrdata then return clip (cstr (← strdata))
  else return []

/-- A function in a table. -/
def readfunc (tobj : ObjId) (i : Nat) : M Entered := do
  expect "parser.c:n_readtable()" opLabel
  let p ← here
  let name ← getlabel
  let named := (← peekop) = opLabel
  let q ← here
  goto (if named then q else p)
  let cobj ← heap (nspSetobj tobj (some (if named then clip name else natDigits i)) (.nfunc []))
  getfunction cobj
  let i := if named then i else i + 1
  if (← cur) = opPcbrace then return .func false i
  else
    accept opPsemicol
    return .func true i

/-- The first part of a round of `n_readtable`: a name. -/
def readname (tobj : ObjId) (i : Nat) : M Entered := do
  let op ← peekop
  if op = opPobrace then return .value [] false
  else if op = opLabel then
    let p ← here
    let name ← getlabel
    let op ← peekop
    if op = opPoparen ∨ op = opPobracket ∨ op = opPdot then
      goto p
      return .value [] true
    else return .value (clip name) true
  else if op = opPobracket then
    skip 1
    let name ← readkey
    expect "parser.c:n_readtable()" opPcbracket
    skip 1
    return .value name true
  else if op = opPcbrace then return .done
  else if op = opNumdata ∨ op = opStrdata then return .value [] false
  else if op = opMsub ∨ op = opMadd then
    if (← ofExcept (deref (← here).tail)) = opNumdata then return .value [] false
    else
      warn
      return .value [] true
  else if op = opKclass then
    skip 1
    let name ← if (← peekop) = opLabel then getlabel else pure []
    expect "parser.c:n_readtable()" opPobrace
    return .value (clip name) false
  else if op = opKfunc then
    skip 1
    readfunc tobj i
  else
    warn
    return .value [] true

/-- What may stand between a name and its value. -/
def separator (sep : Bool) : M Unit := do
  if sep then
    let op ← peekop
    if op = opMeq ∨ op = opMcolon then skip 1

/-- The second part of a round: a value for the name. -/
def readdata (tobj : ObjId) (name : List Byte) : M Unit := do
  if (← peekop) = opPobrace then
    let cobj ← heap (do
      let cobj ← nspGetobj (some tobj) name
      if (← getVal cobj).type ≠ .table then nspSetobj tobj (some name) .table else pure tobj)
    k.readtable cobj
    expect "parser.c:n_readtable()" opPcbrace
    skip 1
  else
    let op ← cur
    if op ≠ opPcomma ∧ op ≠ opPsemicol ∧ op ≠ opPcbrace then
      let cobj ← heap (do
        let cobj ← nspGetobj (some tobj) name
        if ← nspIsnull cobj then nspSetobj tobj (some name) (.number 0) else pure cobj)
      storeval k cobj

/-- The loop of `n_readtable`. -/
def readentries (tobj : ObjId) : Nat → Nat → M Unit
  | 0, _ => throw .stuck
  | n + 1, i => do
      if (← cur) = 0 then return
      match ← readname tobj i with
      | .done => return
      | .func more i => if more then readentries tobj n i
      | .value name sep => do
          separator sep
          readdata k tobj (if name = [] then natDigits i else name)
          let op ← peekop
          if op = opPcomma ∨ op = opPsemicol then
            skip 1
            readentries tobj n (if name = [] then i + 1 else i)
          else expect "parser.c:n_readtable()" opPcbrace

/-- `n_readtable`. -/
def readtable (tobj : ObjId) : M Unit := do
  expect "parser.c:n_readtable()" opPobrace
  seek false
  readentries k tobj k.fuel 0

/-! ### Expressions -/

/-- The loop of `n_evalobj` over indexes: the object, its parent and `namebuf`. -/
def operandIndexes : Nat → ObjId → Option ObjId → List Byte → M (ObjId × Option ObjId × List Byte)
  | 0, _, _, _ => throw .stuck
  | n + 1, nobj, pobj, name => do
      let op ← peekop
      if op = opPobracket ∨ op = opPdot then
        let t := (← heap (getVal nobj)).type
        let (next, lastname, _) ← readindex k (if t = .table then some nobj else none)
        operandIndexes n next (some nobj) lastname
      else return (nobj, pobj, name)

/-- `n_evalobj` from its label `x` on, up to the object that the operand names; `none` when a
constructor made the value. `p` is where the operand starts. -/
def operandFrom (cobj : ObjId) (p : List Byte) :
    Nat → ObjId → Option ObjId → Bool → M (Option (Option ObjId × Bool))
  | 0, _, _, _ => throw .stuck
  | n + 1, nobj, pobj, isnew => do
      let (nobj, pobj, name) ← operandIndexes k k.fuel nobj pobj []
      let op ← cur
      if op = opPoparen then
        let t := (← heap (getVal nobj)).type
        if t = .nfunc ∨ t = .cfunc then
          k.execfunction nobj (if isnew then none else pobj)
            (if isnew then .constructor else .function)
          if (← peekop) = opPdot then operandFrom cobj p n retObj pobj isnew
          else return some (some retObj, false)
        else if t = .table ∧ isnew then
          k.execconstructor cobj nobj
          return none
        else
          k.execbasemethod name pobj
          if (← peekop) = opPdot then operandFrom cobj p n retObj pobj isnew
          else return some (some retObj, isnew)
      else if op = opMaddeq ∨ op = opMsubeq ∨ op = opMmuleq ∨ op = opMdiveq ∨ op = opMeq then
        refuse (op ≠ opMeq ∧ (← heap (nspIsnull nobj))) (bytes "null object")
        goto p
        let nobj ← readvar k (← locals) none
        return some (nobj, isnew)
      else return some (some nobj, isnew)

/-- The number of an operand, with what stands before and behind it. -/
def numberOperand (cobj nobj : ObjId) (preop : Byte) : M Unit := do
  heap (do
    nspSetvaltype cobj .number
    let q ← getNum nobj
    if preop = opMsub then setNum cobj (-q)
    else if preop = opMaddadd then
      setNum nobj (q + 1)
      setNum cobj (q + 1)
    else if preop = opMsubsub then
      setNum nobj (q - 1)
      setNum cobj (q - 1)
    else setNum cobj q)
  let op ← cur
  if op = opMaddadd then
    skip 1
    heap (do setNum nobj ((← getNum nobj) + 1))
  else if op = opMsubsub then
    skip 1
    heap (do setNum nobj ((← getNum nobj) - 1))

/-- The value of the object that an operand names, by its type. -/
def operandCopy (cobj : ObjId) (nobj : Option ObjId) (preop : Byte) (isnew : Bool) : M Unit := do
  match nobj with
  | none => heap (nspSetvaltype cobj .null)
  | some nobj => do
      match ← heap (typeOf nobj) with
      | .null => heap (nspSetvaltype cobj .null)
      | .number => numberOperand cobj nobj preop
      | .string => heap (if nobj ≠ cobj then nCopyval cobj nobj else pure ())
      | .table => do
          -- the branch of a new object has no `break`
          if isnew then k.execconstructor cobj nobj
          heap (nspLinkval cobj (some nobj))
      | .cdata => heap (nspLinkval cobj (some nobj))
      | _ => heap (nCopyval cobj nobj)

/-- The last part of `n_evalobj`. -/
def operandValue (cobj : ObjId) (nobj : Option ObjId) (preop : Byte) (isnew : Bool) : M Unit := do
  operandCopy k cobj nobj preop isnew
  if preop = opMlnot then
    heap (do
      let b ← nspTobool cobj
      let _ ← nspSetobj cobj (some []) (.boolean (if b then 0 else 1)))

/-- `n_evalobj`. -/
def evalobj (cobj : ObjId) (isnew : Bool) : M Unit := do
  let op ← peekop
  if op = opPobrace then
    heap (nspSetvaltype cobj .table)
    k.readtable cobj
    expect "parser.c:n_evalobj()" opPcbrace
    skip 1
  else if op = opPoparen then
    seek false
    k.eval (← here)
    heap (nspLinkval cobj (some retObj))
    expect "parser.c:n_evalobj()" opPcparen
    skip 1
  else
    let preop := if opIsmath op then op else 0
    skip (if opIsmath op then 1 else 0)
    let op ← peekop
    if op = opStrdata ∨ op = opEstrdata then getstring cobj
    else if op = opNumdata then
      let q ← getnumber
      let _ ← heap (nspSetobj cobj none (.number (if preop ≠ opMsub then q else -q)))
    else if op = opLabel then
      let p ← here
      let name ← getlabel
      let nobj ← heap (nspGetobj none name)
      match ← operandFrom k cobj p k.fuel nobj none isnew with
      | none => return
      | some (nobj, isnew) => operandValue k cobj nobj preop isnew

/-- The loop that skips the second branch of a conditional. -/
def skipBranch : Nat → M Unit
  | 0 => throw .stuck
  | n + 1 => do
      if (← cur) = 0 then return
      let op ← peekop
      if op = opPcparen ∨ op = opPcomma ∨ op = opPsemicol then return
      seek true
      skipBranch n

/-- `n_evalsub` behind an operator: the operator is applied to `obj1`. -/
def evalsubOp (op2 : Byte) (obj1 obj2 : ObjId) : M Unit := do
  if op2 = opMquestion then
    if ← heap (nspTobool obj1) then
      evalobj k obj2 false
      heap (nMoveval obj1 obj2)
      expect "parser.c:n_evalsub()" opMcolon
      skip 1
      skipBranch ((← here).length + 1)
    else
      skipto opMcolon
      skip 1
      evalobj k obj2 false
      k.evalsub 0 obj2
      heap (nMoveval obj1 obj2)
  else
    evalobj k obj2 false
    let op ← cur
    if opIsmath op ∧ priority op2 < priority op then k.evalsub op2 obj2
    heap (nEvalop obj1 op2 obj2)

/-- The loop of `n_evalsub`; `val2` is the value on the stack that `obj2` starts with. -/
def evalsubLoop (obj1 obj2 : ObjId) (val2 : ValId) : Nat → M Unit
  | 0 => throw .stuck
  | n + 1 => do
      let op2 ← peekop
      if !opIsmath op2 then return
      skip 1
      let short ← heap (if op2 = opMland then (do return !(← nspTobool obj1)) else pure false)
      if short then
        skipto opPcparen
        evalsubLoop obj1 obj2 val2 n
      else
        evalsubOp k op2 obj1 obj2
        heap (do
          let x ← getObj obj2
          if x.val ≠ some val2 then
            nspUnlinkval obj2
            linkPtr obj2 val2
          nFreeval obj2)
        evalsubLoop obj1 obj2 val2 n

/-- `n_evalsub`. Nothing reads `op1`. -/
def evalsub (_op1 : Byte) (obj1 : ObjId) : M Unit := do
  let (obj2, val2) ← heap stackObj
  evalsubLoop k obj1 obj2 val2 k.fuel
  heap (dropObj obj2 val2)

/-- The end of `nsp_eval`: the value goes to `N->r`. -/
def giveResult (obj1 : ObjId) (val1 : ValId) : H Unit := do
  let type ← typeOf obj1
  if type = .table ∨ type = .cdata then
    let y ← getVal obj1
    if 1 < y.refs then nspLinkval retObj (some obj1) else nMoveval retObj obj1
  else nMoveval retObj obj1
  let x ← getObj obj1
  if x.val ≠ some val1 then nspUnlinkval obj1

/-- `nsp_eval` in a run. -/
def nspEval (string : List Byte) : M Unit := do
  let (obj1, val1) ← heap stackObj
  goto string
  evalobj k obj1 false
  k.evalsub 0 obj1
  heap (giveResult obj1 val1)
  heap (dropObj obj1 val1)

end

end NullG.Nsp
