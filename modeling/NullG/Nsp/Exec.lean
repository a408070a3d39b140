/-
Statements, functions and whole scripts (`block.c`, `exec.c`).

`interp` ties the functions of `Eval` and of this module together. Library functions that work
on the heap only, and the files that scripts include, are the fields of `Env`; those that run
scripts themselves (`nl_eval`, `nl_exec`, `nl_base_method`) are modelled.
-/

import NullG.Nsp.Eval

namespace NullG.Nsp

open NullG.Lib

/-- What an interpreter is given: the library functions that work on the heap only, the part of
`nl_base_method` that does, and the files. -/
structure Env where
  lib : Nat → H Unit
  baseMethod : List Byte → Ty → H Unit
  file : List Byte → Option (List Byte)

/-! ### Contexts -/

/-- `nsp_execcontext`. -/
structure Context where
  locals : ObjId
  readptr : List Byte
  linenum : Int
  funcname : Option (List Byte)
  filename : Option (List Byte)

/-- `N->context`. -/
def getContext : M Context := do
  let s ← get
  return ⟨s.store.locals, s.readptr, s.linenum, s.funcname, s.filename⟩

/-- `N->context = c`. -/
def setContext (c : Context) : M Unit := do
  heap (modState (fun s => { s with locals := c.locals }) fun _ => ⟨rfl, rfl, rfl⟩)
  modify fun s =>
    { s with readptr := c.readptr, linenum := c.linenum, funcname := c.funcname, filename := c.filename }

/-- `N->context->funcname` and `N->context->filename`. -/
def setNames (funcname filename : Option (List Byte)) : M Unit :=
  modify fun s => { s with funcname := funcname, filename := filename }

/-- `n_newexeccontext`: the new locals; what else there is in a context is copied. -/
def newexeccontext : H ObjId := do
  let l ← newObj
  nspSetvaltype l .table
  nSetname l (bytes "!LOCALS!")
  return l

/-- `n_freeexeccontext`. -/
def freeexeccontext (l : ObjId) : H Unit := do
  nspUnlinkval l
  freeObj l

/-- `n_decompose` in a run: the place where the ops of the text start, unless it is a stream. -/
def decompose (srcfile : Option (List Byte)) (text : List Byte) : M (Option (List Byte)) := do
  let s ← get
  let N : Scanner := ⟨true, s.store.maxwarnings⟩
  let lex := Lex.start text s.store.warnings
  if chewed text then
    warn
    return none
  else
    let lex ← ofExcept (nDecomposeSub N lex)
    let d ← ofExcept (emit N srcfile lex)
    let (lex, buf) ← ofExcept
      (fixupLoop N (d.destbuf.length + 1) d.lex (d.destbuf.take 12) (d.destbuf.drop 12))
    heap (modState (fun s => { s with warnings := lex.warnings }) fun _ => ⟨rfl, rfl, rfl⟩)
    let optab ← ofExcept (readi4 (buf.drop 12))
    return some (buf.drop optab.toNat)

/-! ### Loops -/

/-- The tests that follow the body of a loop: the loop is left. `n_do` and `n_while` test for
positive numbers (`pos`). -/
def afterBody (pos : Bool) : M Bool := do
  modify fun s => { s with cnt := if pos ∧ s.cnt ≤ 0 then s.cnt else 0 }
  let s ← get
  if (if pos then 0 < s.brk else s.brk ≠ 0) then
    modify fun s => { s with brk := s.brk - 1 }
    return true
  return s.ret

/-- One round of a loop: its body, and whether the loop is left. -/
def round (pos : Bool) (body : M Unit) : M Bool := do
  within .loop body
  let leave ← afterBody pos
  if !leave then note .again
  return leave

/-- The statements of a case, and whether the `switch` is left. -/
def arm (body : M Unit) : M Bool := do
  within .switch body
  let s ← get
  if s.brk ≠ 0 then
    modify fun s => { s with brk := s.brk - 1 }
    return true
  return s.ret

section

variable (k : Calls)

/-- The extent of a body that starts here: where its last op stands, where it ends, and whether
it is a single statement. -/
def extent : M (List Byte × List Byte × Bool) := do
  let single ←
    if (← peekop) = opPobrace then do
      seek false
      skipto opPcbrace
      pure false
    else do
      skipto opPsemicol
      pure true
  let last ← here
  skip 1
  return (last, ← here, single)

/-- The end of a loop: behind its body, or at the last op of a single statement. -/
def leaveBody (last be : List Byte) (single : Bool) : M Unit := do
  note (.behind .loop)
  goto (if single then last else be)

/-- `nsp_exec` of a body. -/
def runBody (bs : List Byte) (single : Bool) : M Unit := do
  goto bs
  setSingle single
  k.exec bs

/-- The condition of an `if`: `t` at the label `l2`. -/
def ifCondition (t done : Bool) : M Bool := do
  if (← peekop) = opPoparen then
    let p ← here
    let n ← ofExcept (readi2 p.tail)
    let ce := p.drop (n.toNat + 3)
    seek false
    let t ←
      if !done then do
        k.eval (← here)
        heap (do
          let t ← nspTobool retObj
          if 1 < (← getVal retObj).refs then nspUnlinkval retObj
          return t)
      else pure t
    goto ce
    expect "block.c:n_if()" opPcparen
    skip 1
    return t
  else return t

/-- One branch of an `if`, which is run or skipped. -/
def ifBranch (run : Bool) : M Unit := do
  if (← peekop) = opPobrace then
    let p ← here
    let n ← ofExcept (readi4 p.tail)
    let be ← ofExcept (advance p (5 + n))
    if run then k.exec p else pure ()
    goto be
    expect "block.c:n_if()" opPcbrace
    skip 1
  else
    if run then
      setSingle true
      k.exec (← here)
    else skipto opPsemicol
    accept opPsemicol

/-- `n_if` from the label `l1`, or without a condition from `l2`. -/
def ifFrom : Nat → Bool → Bool → Bool → M Unit
  | 0, _, _, _ => throw .stuck
  | n + 1, cond, t, done => do
      let t ← if cond then ifCondition k t done else pure t
      let run := t && !done
      ifBranch k run
      let s ← get
      if s.ret then return
      if (← peekop) = opKelse then
        skip 1
        if (← peekop) = opKif then
          skip 1
          ifFrom n true t (done || run)
        else ifFrom n false true (done || run)

/-- `n_if`. -/
def nIf : M Unit := ifFrom k k.fuel true false false

/-- The loop of `n_for`. -/
def forLoop (argcomp argexec bs : List Byte) (single : Bool) : Nat → M Unit
  | 0 => throw .stuck
  | n + 1 => do
      let go ←
        if (← ofExcept (deref argcomp)) ≠ opPsemicol then do
          k.eval argcomp
          expect "block.c:n_for()" opPsemicol
          skip 1
          pure (decide ((← heap (nspTonum retObj)) ≠ 0))
        else pure true
      if go then
        let leave ← round false (runBody k bs single)
        if !leave then
          goto argexec
          let _ ← readvar k (← locals) none
          forLoop argcomp argexec bs single n

/-- `n_for`. -/
def nFor : M Unit := do
  expect "block.c:n_for()" opPoparen
  seek false
  let arginit ← here
  skipto opPsemicol
  skip 1
  let argcomp ← here
  skipto opPsemicol
  skip 1
  let argexec ← here
  skipto opPcparen
  skip 1
  let bs ← here
  let single ←
    if (← peekop) = opPobrace then do
      let p ← here
      let n ← ofExcept (readi4 p.tail)
      goto (← ofExcept (advance p (5 + n)))
      expect "block.c:n_for()" opPcbrace
      pure false
    else do
      skipto opPsemicol
      pure true
  let last ← here
  skip 1
  let be ← here
  goto arginit
  let _ ← readvar k (← locals) none
  forLoop k argcomp argexec bs single k.fuel
  leaveBody last be single

/-- The name of an entry, for the variable that `n_foreach` gives it to. -/
def foreachName (namep : Option (List Byte)) (iobj : ObjId) : H Unit := do
  match namep with
  | some namep =>
      let x ← getObj iobj
      let _ ← nspSetobj (← .read Store.locals) (some namep) (.string x.name)
  | none => pure ()

/-- The body of `n_foreach` for an entry; `tobj` holds the table, whose first entry was `first`. -/
def foreachBody (tobj : ObjId) (first : Option ObjId) (valp bs : List Byte) (single : Bool)
    (iobj : ObjId) : M Unit := do
  goto bs
  setSingle single
  let xobj ← heap (do
    let xobj ← nspSetobj (← .read Store.locals) (some valp) (.number 0)
    nspLinkval xobj (some iobj)
    return xobj)
  k.exec bs
  let type ← heap (do
    nspUnlinkval xobj
    let y ← getVal tobj
    if y.type ≠ .table then nspUnlinkval tobj
    return y.type)
  refuse (type ≠ .table) (bytes "expected a table for set obj")
  heap (do if (← firstOf tobj) ≠ first then nWarning)

/-- The loop of `n_foreach` over the entries of a table. -/
def foreachLoop (tobj : ObjId) (first : Option ObjId) (namep : Option (List Byte)) (valp : List Byte)
    (bs : List Byte) (single : Bool) : Nat → Option ObjId → M Unit
  | 0, _ => throw .stuck
  | _ + 1, none => pure ()
  | n + 1, some iobj => do
      let pass ← heap (do
        if ← nspIsnull iobj then pure true else return (← getVal iobj).system)
      let leave ←
        if pass then pure false
        else do
          heap (foreachName namep iobj)
          round false (foreachBody k tobj first valp bs single iobj)
      if !leave then
        foreachLoop tobj first namep valp bs single n (← heap (getObj iobj)).next

/-- The name that the next entry name is given to, and the one that its value is given to. -/
def foreachVars : M (Option (List Byte) × List Byte) := do
  let name ← getlabel
  if (← peekop) = opPcomma then
    skip 1
    expect "block.c:n_foreach()" opLabel
    return (some name, ← getlabel)
  else return (none, name)

/-- `n_foreach`. -/
def nForeach : M Unit := do
  expect "block.c:n_foreach()" opPoparen
  seek false
  expect "block.c:n_foreach()" opLabel
  let (namep, valp) ← foreachVars
  expect "block.c:n_foreach()" opLabel
  if (← getlabel) ≠ bytes "in" then nErr neInternal true (bytes "expected 'in'")
  k.eval (← here)
  refuse ((← heap (typeOf retObj)) ≠ .table) (bytes "expected a table for set obj")
  let tobj ← heap newObj
  heap (nspLinkval tobj (some retObj))
  let first ← heap (firstOf tobj)
  expect "block.c:n_foreach()" opPcparen
  skip 1
  let bs ← here
  let (last, be, single) ← extent
  foreachLoop k tobj first namep valp bs single k.fuel first
  heap (do nspUnlinkval tobj; freeObj tobj)
  leaveBody last be single

/-- The loop of `n_do`; the condition stands at `be`. -/
def doLoop (bs be : List Byte) (single : Bool) : Nat → M Unit
  | 0 => throw .stuck
  | n + 1 => do
      let leave ← round true (runBody k bs single)
      if !leave then
        goto be
        expect "block.c:n_do()" opKwhile
        skip 1
        expect "block.c:n_do()" opPoparen
        seek false
        k.eval (← here)
        expect "block.c:n_do()" opPcparen
        if (← heap (nspTonum retObj)) ≠ 0 then doLoop bs be single n

/-- `n_do`. With a single statement `readptr` ends one byte before the last `;`. -/
def nDo : M Unit := do
  let bs ← here
  let (_, be, single) ← extent
  doLoop k bs be single k.fuel
  goto be
  expect "block.c:n_do()" opKwhile
  skipto opPsemicol
  expect "block.c:n_do()" opPsemicol
  let p ← here
  leaveBody (be.drop (be.length - p.length - 1)) p single

/-- The loop of `n_while`. -/
def whileLoop (argcomp bs : List Byte) (single : Bool) : Nat → M Unit
  | 0 => throw .stuck
  | n + 1 => do
      k.eval argcomp
      expect "block.c:n_while()" opPcparen
      skip 1
      if (← heap (nspTonum retObj)) ≠ 0 then
        let leave ← round true (runBody k bs single)
        if !leave then whileLoop argcomp bs single n

/-- `n_while`. -/
def nWhile : M Unit := do
  expect "block.c:n_while()" opPoparen
  seek false
  let argcomp ← here
  skipto opPcparen
  skip 1
  let bs ← here
  let (last, be, single) ← extent
  whileLoop k argcomp bs single k.fuel
  leaveBody last be single

/-! ### `switch` -/

/-- An op that ends the statements of a case. -/
def endsCase (op : Byte) : Bool := op == opKcase || op == opKdefault || op == opPcbrace

/-- The statements up to an op that `stop` picks. -/
def caseLoop (stop : Byte → Bool) : Nat → M Unit
  | 0 => throw .stuck
  | n + 1 => do
      if stop (← cur) then return
      setSingle true
      k.exec (← here)
      let s ← get
      if s.brk ≠ 0 ∨ s.ret then return
      caseLoop stop n

/-- The loop that passes the statements of a case. -/
def skipCase : Nat → M Unit
  | 0 => throw .stuck
  | n + 1 => do
      if endsCase (← cur) then return
      seek true
      skipCase n

/-- The literal of a case, compared with the value of the `switch` in `tobj`. -/
def caseMatches (tobj : ObjId) : M Bool := do
  match ← heap (typeOf tobj) with
  | .string => do
      refuse ((← cur) ≠ opStrdata) (bytes "invalid comparison")
      let lit ← strdata
      let str ← heap (getCstr tobj)
      return str = cstr lit
  | .number => do
      refuse ((← cur) ≠ opNumdata) (bytes "invalid comparison")
      let q ← getnumber
      return (← heap (getNum tobj)) = q
  | _ => nErr neSyntax true (bytes "invalid switch type")

/-- The loop of `n_switch`. -/
def switchLoop (tobj : ObjId) : Nat → Bool → M Unit
  | 0, _ => throw .stuck
  | n + 1, found => do
      let op ← cur
      if op = opPcbrace then return
      else if op = opKcase then
        skip 1
        let found := (← caseMatches tobj) || found
        expect "block.c:n_switch()" opMcolon
        skip 1
        if !found then
          skipCase ((← here).length + 1)
          switchLoop tobj n found
        else
          let leave ← arm (caseLoop k endsCase k.fuel)
          if !leave then switchLoop tobj n found
      else if op = opKdefault then
        skip 1
        expect "block.c:n_switch()" opMcolon
        skip 1
        let leave ← arm (caseLoop k (· == opPcbrace) k.fuel)
        if !leave then switchLoop tobj n found
      else expect "block.c:n_switch()" opKcase

/-- `n_switch`. -/
def nSwitch : M Unit := do
  expect "block.c:n_switch()" opPoparen
  seek false
  let tobj ← heap newObj
  k.eval (← here)
  heap (nspLinkval tobj (some retObj))
  expect "block.c:n_switch()" opPcparen
  skip 1
  expect "block.c:n_switch()" opPobrace
  seek false
  let bs ← here
  skipto opPcbrace
  skip 1
  let be ← here
  goto bs
  switchLoop k tobj k.fuel false
  note (.behind .switch)
  goto be
  heap (do nspUnlinkval tobj; freeObj tobj)

/-! ### `try` -/

/-- `except = setjmp(...) ? 1 : 0` around `nsp_exec`. -/
def tryExec (bs : List Byte) : M Bool := do
  goto bs
  match ← attempt (within .guard (k.exec bs)) with
  | .ok _ => return false
  | .error _ => return true

/-- The table that a `catch` names. -/
def catchTable (exname : List Byte) : M Unit := do
  let s ← get
  heap (do
    let l ← .read Store.locals
    let tobj ← nspSetobj l (some exname) .table
    nspSetvaltype tobj .table
    let _ ← nspSetobj tobj (some (bytes "errno")) (.number s.err)
    let _ ← nspSetobj tobj (some (bytes "errtext")) (.string s.errbuf)
    let _ ← nspSetobj tobj (some (bytes "description")) (.string s.errbuf))
  modify fun s => { s with err := 0 }

/-- The `catch` of `n_try`: whether an exception is left, and where its body ends. -/
def catchPart (except : Bool) : M (Bool × List Byte × Bool) := do
  skip 1
  expect "block.c:n_try()" opPoparen
  seek false
  expect "block.c:n_try()" opLabel
  let exname := clip (← getlabel)
  expect "block.c:n_try()" opPcparen
  skip 1
  let bs ← here
  let (last, be, single) ← extent
  let except ←
    if except then do
      goto bs
      catchTable exname
      let except ← tryExec k bs
      heap (do nFreeval (← nspGetobj (some (← .read Store.locals)) exname))
      pure except
    else pure false
  goto be
  return (except, last, single)

/-- The `finally` of `n_try`. -/
def finallyPart : M (List Byte × Bool) := do
  skip 1
  let bs ← here
  let (last, be, single) ← extent
  goto bs
  within .guard (k.exec bs)
  goto be
  return (last, single)

/-- `n_try`. -/
def nTry : M Unit := do
  let bs ← here
  let (last, be, single) ← extent
  let except ← tryExec k bs
  goto be
  let (except, last, single) ←
    if (← peekop) = opKcatch then catchPart k except else pure (except, last, single)
  let (last, single) ← if (← peekop) = opKfinally then finallyPart k else pure (last, single)
  if except then
    let s ← get
    nErr neSyntax false s.errbuf
  if single then goto last

/-! ### Functions -/

/-- `n_execfunction_setargs` from an argument on. -/
def setargsFrom (listobj : ObjId) : Nat → Nat → M Unit
  | 0, _ => throw .stuck
  | n + 1, i => do
      seek false
      if (← peekop) = opPcparen then return
      let cobj ← heap (nspAppendobj listobj none)
      heap (nSetnamei cobj i)
      if (← peekop) = opMand then
        skip 1
        expect "exec.c:n_execfunction_setargs()" opLabel
        let name ← getlabel
        heap (do nspLinkval cobj (some (← nspGetobj none name)))
      else
        k.eval (← here)
        heap (nspLinkval cobj (some retObj))
      if (← peekop) = opPcomma then setargsFrom listobj n (i + 1)
      else expect "exec.c:n_execfunction_setargs()" opPcparen

/-- `n_execfunction_setargs`. -/
def setargs (listobj : ObjId) : M Unit := do
  if (← peekop) = opPoparen then setargsFrom k listobj k.fuel 1
  skip 1

/-- The loop of `n_execfunction_setargnames`. -/
def setargnamesFrom : Nat → Nat → M Unit
  | 0, _ => throw .stuck
  | n + 1, i => do
      seek false
      let cobj ← heap (do nspGetobj (some (← .read Store.locals)) (natDigits i))
      if (← peekop) = opLabel then
        let name ← getlabel
        heap (nSetname cobj name)
      if (← peekop) = opPcomma then setargnamesFrom n (i + 1)
      else
        expect "exec.c:n_execfunction_getargs()" opPcparen
        skip 1

/-- `n_execfunction_setargnames`. -/
def setargnames (fobj : ObjId) : M Unit := do
  let y ← heap (getVal fobj)
  let str ← ofExcept y.d.asStr
  goto (str.getD [])
  expect "exec.c:n_execfunction_getargs()" opLabel
  let _ ← getlabel
  expect "exec.c:n_execfunction_getargs()" opPoparen
  setargnamesFrom k.fuel 1
  expect "exec.c:n_execfunction_getargs()" opPobrace

/-- How `n_execfunction` runs what it is given: a script function, a C function, `nl_break`, or
`include` with its first or second argument. -/
inductive Callee where
  | script
  | cfunc (f : CFun)
  | include1 (file : List Byte)
  | include2 (text : List Byte)

/-- The callee, with the arguments in `listobj`; `none` where `include` has none. -/
def callee (fobj listobj : ObjId) (type : Ty) : H (Option Callee) := do
  if type = .nfunc then return some .script
  else
    let y ← getVal fobj
    let f ← member y.d.asCfunc
    if f = .nlInclude then
      let o2 ← nspGetobj (some listobj) (bytes "2")
      if (← typeOf o2) = .string then return some (.include2 (← getCstr o2))
      else
        let o1 ← nspGetobj (some listobj) (bytes "1")
        if (← typeOf o1) = .string then return some (.include1 (← getCstr o1)) else return none
    else return some (.cfunc f)

variable (env : Env)

/-- `nsp_execfile` in a run: whether the file was there. -/
def execfile (file : List Byte) : M Bool := do
  match env.file file with
  | none => return false
  | some text => do
      let p ← here
      let old ← getContext
      let q ← decompose (some (baseName file)) text
      goto (q.getD p)
      setNames old.funcname (some file)
      k.exec (q.getD p)
      goto p
      setNames old.funcname old.filename
      return true

/-- `nl_eval` and `nl_exec`: errors end here. -/
def runText (name : String) (run : List Byte → M Unit) : M Unit := do
  let l ← locals
  let fname ← heap (do nspTostr (← nspGetobj (some l) (bytes "0")))
  refuse (fname ≠ bytes name) (bytes "cowardly refusing to run aliased " ++ bytes name)
  let cobj1 ← heap (nspGetobj (some l) (bytes "1"))
  let y ← heap (getVal cobj1)
  let str ← if y.type = .string then ofExcept y.d.asStr else pure none
  match str with
  | some str => do
      let p ← here
      let q ← decompose none (cstr str)
      goto (q.getD p)
      let _ ← attempt (run (q.getD p))
      goto p
  | none => heap (nspLinkval retObj (some cobj1))

/-- `NT_NULL` and so on as numbers. -/
def Ty.code : Ty → Nat
  | .null => 0
  | .boolean => 1
  | .number => 2
  | .string => 3
  | .nfunc => 4
  | .cfunc => 5
  | .table => 6
  | .cdata => 7

/-- A C function that works on the heap, or runs a script from a text. -/
def callLib : CFun → M Unit
  | .lib n => heap (env.lib n)
  | .nlEval => runText "eval" fun p => do
      k.eval p
      heap (nspLinkval retObj (some retObj))
  | .nlExec => runText "exec" fun p => do
      k.exec p
      heap (nspLinkval retObj none)
  | .nlInclude => pure ()
  | _ => throw .foreign

/-- `nl_base_method`. -/
def nlBaseMethod : M Unit := do
  let l ← locals
  let (fname, type) ← heap (do
    let fname ← nspTostr (← nspGetobj (some l) (bytes "0"))
    let type ← typeOf (← nspGetobj (some l) (bytes "this"))
    let _ ← nspSetobj l (some (bytes "basetype")) (.number type.code)
    return (fname, type))
  if fname ≠ bytes "gettype" ∧ type = .string then
    let cobj ← heap (do
      let lib ← nspGetobj (some globalObj) (bytes "lib")
      let string ← nspGetobj (some lib) (bytes "string")
      nspGetobj (some string) fname)
    match ← heap (typeOf cobj) with
    | .cfunc => do
        let y ← heap (getVal cobj)
        callLib k env (← ofExcept y.d.asCfunc)
    | .nfunc => do
        let p ← here
        let y ← heap (getVal cobj)
        let str ← ofExcept y.d.asStr
        k.exec (str.getD [])
        goto p
    | _ => heap (env.baseMethod fname type)
  else heap (env.baseMethod fname type)

/-- `fobj->val->d.cfunc(N)`. -/
def callC (f : CFun) : M Unit :=
  if f = .nlBaseMethod then nlBaseMethod k env else callLib k env f

/-- The locals, the names and the place of the new context. -/
def enterContext (fobj listobj l : ObjId) (old : Context) : Callee → M Unit
  | .script => do
      setNames (some (← heap (getObj fobj)).name) old.filename
      heap (nspLinkval l (some listobj))
      setargnames k fobj
  | .cfunc f => do
      if f = .nlBreak then heap (nspLinkval l (some old.locals))
      else
        setNames (some (← heap (getObj fobj)).name) old.filename
        heap (nspLinkval l (some listobj))
  | .include1 file => do
      setNames (some []) (some file)
      heap (nspLinkval l (some old.locals))
  | .include2 text => do
      match ← decompose none text with
      | some p => goto p
      | none => pure ()
      setNames (some []) old.filename
      heap (nspLinkval l (some old.locals))

/-- The part of `n_execfunction` that runs the callee; `false` where a file is missing. -/
def runCallee : Callee → M Bool
  | .script => do
      k.exec (← here)
      return true
  | .cfunc f => do
      callC k env f
      return true
  | .include1 file => execfile k env file
  | .include2 _ => do
      k.exec (← here)
      heap (nspLinkval retObj none)
      return true

/-- What `n_execfunction` leaves in `N->r` of an `include` or a constructor. -/
def calleeResult (c : Callee) (found : Bool) (ftype : FType) : M Unit :=
  match c with
  | .include1 _ | .include2 _ => do
      if !found then warn
      let _ ← heap (nspSetobj retObj (some []) (.boolean (if found then 1 else 0)))
  | _ => do
      if ftype = .constructor then
        let l ← locals
        heap (nspLinkval retObj (some l))

/-- The list of arguments with `this` and the name of the function. -/
def argumentList (fobj : ObjId) (pobj : Option ObjId) (ftype : FType) : H ObjId := do
  let listobj ← newObj
  newValFor listobj { type := .table }
  if pobj.isSome ∨ ftype = .constructor then
    let cobj ← nspAppendobj listobj (some (bytes "this"))
    nspLinkval cobj (some (pobj.getD listobj))
  let cobj ← nspAppendobj listobj (some (bytes "0"))
  let _ ← nspSetobj cobj (some (bytes "0")) (.string (← getObj fobj).name)
  return listobj

/-- `n_execfunction` of a callee, from its new context on. -/
def runCall (fobj listobj : ObjId) (c : Callee) (ftype : FType) : M Unit := do
  let old ← getContext
  let l ← heap newexeccontext
  setContext { old with locals := l }
  enterContext k fobj listobj l old c
  let r ← calling (runCallee k env c) fun r => do
    calleeResult c (match r with | .ok found => found | .error _ => true) ftype
    heap (freeexeccontext (← locals))
    setContext old
    heap (do nspUnlinkval listobj; freeObj listobj)
  match r with
  | .ok _ => return
  | .error e => rethrow e

/-- `n_execfunction`. Its result is in `N->r`. -/
def execfunction (fobj : ObjId) (pobj : Option ObjId) (ftype : FType) : M Unit := do
  let type ← heap (typeOf fobj)
  let x ← heap (getObj fobj)
  refuse (type ≠ .cfunc ∧ type ≠ .nfunc) (bytes "'" ++ x.name ++ bytes "' is not a function")
  let listobj ← heap (argumentList fobj pobj ftype)
  setargs k listobj
  heap (nspUnlinkval retObj)
  match ← heap (callee fobj listobj type) with
  | none => return
  | some c => runCall k env fobj listobj c ftype

/-- `n_execbasemethod`. -/
def execbasemethod (name : List Byte) (pobj : Option ObjId) : M Unit := do
  expect "exec.c:n_execbasemethod()" opPoparen
  let tobj ← heap (do
    let tobj ← newObj
    let _ ← nspSetobj tobj (some (bytes "base_method")) (.cfunc .nlBaseMethod)
    modObj tobj (fun x => { x with name := clip name }) fun _ => rfl
    return tobj)
  let r ← attempt (execfunction k env tobj pobj .function)
  heap (do nspUnlinkval tobj; freeObj tobj)
  match r with
  | .ok _ => return
  | .error _ => do
      let s ← get
      nErr neSyntax false s.errbuf

/-- The first of some entries of an object that is not null. -/
def firstMember (cobj : ObjId) : List (List Byte) → H (Option ObjId)
  | [] => pure none
  | name :: names => do
      let xobj ← nspGetobj (some cobj) name
      if ← nspIsnull xobj then firstMember cobj names else return some xobj

/-- `n_execconstructor`. -/
def execconstructor (cobj pobj : ObjId) : M Unit := do
  let xobj ← heap (do
    nspSetvaltype cobj .table
    nspZlink cobj pobj
    firstMember cobj [bytes "constructor", bytes "_constructor", (← getObj pobj).name])
  match xobj with
  | some xobj => execfunction k env xobj (some cobj) .constructor
  | none => do
      if (← peekop) = opPoparen then
        let p ← here
        let n ← ofExcept (readi2 p.tail)
        goto (p.drop (n.toNat + 3))
        expect "exec.c:n_execconstrutor()" opPcparen
        skip 1

/-- `n_execdestructor`. -/
def execdestructor (cobj : ObjId) : M Unit := do
  match ← heap (firstMember cobj [bytes "destructor", bytes "_destructor"]) with
  | some xobj => execfunction k env xobj (some cobj) .function
  | none => pure ()

/-! ### Statements -/

/-- The loop of `nsp_exec` over the indexes of a statement: `none` where the statement ends. -/
def stmtIndexes : Nat → ObjId → ObjId → Option ObjId → List Byte →
    M (Option (ObjId × ObjId × Option ObjId × List Byte))
  | 0, _, _, _, _ => throw .stuck
  | n + 1, tobj, cobj, pobj, name => do
      let op ← peekop
      if op = opPobracket ∨ op = opPdot then
        let (next, lastname, z) ← readindex k (some cobj)
        if lastname ≠ [] ∧ (← cur) ≠ opPoparen ∧ (z ∨ (← heap (nspIsnull next))) then
          if ← heap (nspIsnull cobj) then return none
          let next ← heap (nspSetobj cobj (some lastname) (.number 0))
          stmtIndexes n cobj next (some cobj) lastname
        else stmtIndexes n cobj next (some cobj) lastname
      else return some (tobj, cobj, pobj, name)

/-- A statement that starts with an object, from the label `x` of `nsp_exec` on. -/
def objectStmt : Nat → ObjId → ObjId → Option ObjId → List Byte → M Unit
  | 0, _, _, _, _ => throw .stuck
  | n + 1, tobj, cobj, pobj, name => do
      match ← stmtIndexes k k.fuel tobj cobj pobj name with
      | none => return
      | some (tobj, cobj, pobj, name) => do
          let type ← heap (typeOf cobj)
          if (← peekop) = opPoparen then
            if type = .nfunc ∨ type = .cfunc then
              execfunction k env cobj pobj .function
              let s ← get
              if s.yielded then return
            else execbasemethod k env name pobj
            if (← peekop) = opPdot then objectStmt n tobj cobj pobj name
          else
            refuse (type = .null ∧ name = []) (bytes "expected a label")
            let cobj ← heap (if type = .null then nspSetobj tobj (some name) (.boolean 0) else pure cobj)
            let _ ← readvar k tobj (some cobj)

/-- A statement that starts with punctuation: a function that was returned can be called. -/
def puncStmt : M Unit := do
  let type ← heap (typeOf retObj)
  if (type = .nfunc ∨ type = .cfunc) ∧ (← peekop) = opPoparen then
    let tobj ← heap (do
      let tobj ← newObj
      newValFor tobj { type := .table }
      nspLinkval tobj (some retObj)
      return tobj)
    execfunction k env tobj none .function
    heap (do nspUnlinkval tobj; freeObj tobj)
    let s ← get
    if s.yielded then return
    if (← peekop) = opPdot then objectStmt k env k.fuel retObj retObj none []
  else
    warn
    skip 1

/-- The loop of `namespace`: the table that the dotted name names. -/
def namespaceTable : Nat → ObjId → M ObjId
  | 0, _ => throw .stuck
  | n + 1, tobj => do
      expect "exec.c:nsp_exec()" opLabel
      let name := clip (← getlabel)
      let cobj ← heap (do
        let cobj ← nspGetobj (some tobj) name
        if ← nspIstable cobj then pure cobj else nspSetobj tobj (some name) .table)
      if (← peekop) = opPdot then
        skip 1
        namespaceTable n cobj
      else return cobj

/-- A table constructor in braces, as `class` and `namespace` read it. -/
def bracedTable (fn : String) (cobj : ObjId) : M Unit := do
  expect fn opPobrace
  k.readtable cobj
  expect "exec.c:nsp_exec()" opPcbrace
  skip 1

/-- A `break` or `continue` outside of a block. -/
def needsBlock (block single : Bool) (name : String) : M Unit :=
  refuse (block = false ∧ single = false) (bytes name ++ bytes " without block")

/-- The number of a `break` or an `exit`, as a `short`. -/
def shortNumber (dflt : Int) : M Int := do
  if (← peekop) = opNumdata then return (Num.trunc (← getnumber)).bmod (2 ^ 16) else return dflt

/-- The statements of `block.c`. -/
def compound (op : Byte) : Option (M Unit) :=
  if op = opKif then some (nIf k)
  else if op = opKfor then some (nFor k)
  else if op = opKforeach then some (nForeach k)
  else if op = opKswitch then some (nSwitch k)
  else if op = opKdo then some (nDo k)
  else if op = opKwhile then some (nWhile k)
  else if op = opKtry then some (nTry k)
  else none

/-- `break`, `continue` and `return`. -/
def jumpStmt (block single : Bool) (op : Byte) : M Unit := do
  if op = opKbreak then
    needsBlock block single "break"
    let n ← shortNumber 1
    jump (.brk n)
    accept opPsemicol
  else if op = opKcont then
    needsBlock block single "continue"
    jump .cnt
    accept opPsemicol
  else
    storeval k retObj
    accept opPsemicol
    jump .ret

/-- `throw`, `exit` and a stray `else`. -/
def raiseStmt (op : Byte) : M Unit := do
  if op = opKthrow then
    storeval k retObj
    let text ← heap (nspTostr retObj)
    nErr neException false text
  else if op = opKexit then
    let err ← shortNumber 0
    nErr err true (bytes "exiting normally")
  else nErr neSyntax true (bytes "stray else")

/-- The other statements that start with a keyword. -/
def declStmt (op : Byte) : M Unit := do
  if op = opKlocal ∨ op = opKvar then
    let _ ← readvar k (← locals) none
  else if op = opKglob then
    let _ ← readvar k globalObj none
  else if op = opKnamespace then
    let tobj ← namespaceTable k.fuel globalObj
    bracedTable k "exec.c:nsp_exec()" tobj
  else if op = opKclass then
    expect "exec.c:nsp_exec()1" opLabel
    let name ← getlabel
    let cobj ← heap (nspSetobj globalObj (some name) .table)
    bracedTable k "exec.c:nsp_exec()1" cobj
  else if op = opKfunc then
    expect "exec.c:nsp_exec()" opLabel
    let name ← getlabel
    let cobj ← heap (nspSetobj globalObj (some name) (.nfunc []))
    getfunction cobj
  else if op = opKdelete then
    expect "exec.c:nsp_exec()" opLabel
    let name ← getlabel
    let cobj ← heap (nspGetobj none name)
    execdestructor k env cobj
    heap (nspLinkval cobj none)
  else warn

/-- A statement that starts with a keyword, which was read: whether `nsp_exec` ends. -/
def keyStmt (block single : Bool) (op : Byte) : M Bool := do
  match compound k op with
  | some x => do
      x
      let s ← get
      return s.ret
  | none => do
      if op = opKbreak ∨ op = opKcont ∨ op = opKret then
        jumpStmt k block single op
        return true
      else if op = opKthrow ∨ op = opKexit ∨ op = opKelse then
        raiseStmt k op
        return true
      else
        declStmt k env op
        return false

/-- One statement of `nsp_exec`: whether it ends (`goto end`). -/
def statement (block single : Bool) : M Bool := do
  let op ← cur
  note (.stmt (← here))
  if opIsmath op then
    skip 1
    if op = opMquestion then
      storeval k retObj
      accept opPsemicol
      let _ ← heap (nspTostr retObj)
    else
      warn
      skip 1
    return false
  else if opIspunc op then
    puncStmt k env
    return false
  else if opIskey op then
    skip 1
    keyStmt k env block single op
  else
    refuse (op ≠ opLabel)
      (bytes "expected a label [" ++ natDigits op.toNat ++ bytes "][" ++ nGetsym op ++ bytes "]")
    let tobj ← locals
    let name := clip (← getlabel)
    let cobj ← heap (nspGetobj none name)
    objectStmt k env k.fuel tobj cobj none name
    return false

/-- The loop of `nsp_exec`. -/
def execLoop (block single : Bool) : Nat → M Unit
  | 0 => throw .stuck
  | n + 1 => do
      let op ← peekop
      if op = 0 then return
      let s ← get
      if s.signal then nErr neInternal true (bytes "killed by external request")
      if block ∧ (0 < s.brk ∨ 0 < s.cnt ∨ op = opPcbrace) then return
      let fin ← if op = opPcbrace then do skip 1; pure false else statement k env block single
      if fin then return
      accept opPsemicol
      let s ← get
      if s.yielded ∨ single then return
      execLoop block single n

/-- `nsp_exec` in a run. -/
def nspExec (string : List Byte) : M Unit := do
  let s ← get
  setSingle false
  if s.yielded then return
  goto string
  let block ← if (← peekop) = opPobrace then do seek false; pure true else pure false
  execLoop k env block s.single k.fuel

end

/-! ### The interpreter -/

/-- The functions, with calls up to a depth of `fuel`. -/
def interp (env : Env) : Nat → Calls
  | 0 =>
      { fuel := 0
        eval := fun _ => throw .stuck
        evalobj := fun _ _ => throw .stuck
        evalsub := fun _ _ => throw .stuck
        readtable := fun _ => throw .stuck
        execfunction := fun _ _ _ => throw .stuck
        execbasemethod := fun _ _ => throw .stuck
        execconstructor := fun _ _ => throw .stuck
        exec := fun _ => throw .stuck }
  | n + 1 =>
      let k := interp env n
      { fuel := n
        eval := nspEval k
        evalobj := evalobj k
        evalsub := evalsub k
        readtable := readtable k
        execfunction := execfunction k env
        execbasemethod := execbasemethod k env
        execconstructor := execconstructor k env
        exec := nspExec k env }

/-- `nsp_exec` of a text, outside of a run: errors end here. -/
def runScript (env : Env) (fuel : Nat) (text : List Byte) : M Unit := do
  heap (nspUnlinkval retObj)
  if text = [] then return
  let _ ← attempt do
    match ← decompose none text with
    | some p => (interp env fuel).exec p
    | none => throw .outOfBounds

end NullG.Nsp
