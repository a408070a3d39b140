/-
Objects, values and tables (`objects.c`).

The functions that free values call each other along the memory, and so do those that copy
tables; a loop or a recursion that is not over after as many steps as there are addresses does
not end (`Fault.stuck`). A name is `none` where the source passes NULL.
-/

import NullG.Nsp.Store

namespace NullG.Nsp

open NullG.Lib

/-! ### Values -/

/-- `--refs` and `++refs` of an `unsigned short`. -/
def decRefs (n : Nat) : Nat := (n + 65535) % 65536

def incRefs (n : Nat) : Nat := (n + 1) % 65536

/-- As many steps as a walk over the memory can take. -/
def walkFuel : H Nat := .read fun s => s.objs.next + s.vals.next + 1

section Free

/-- `nsp_unlinkval`, with what frees a value. -/
def unlinkWith (freeval : ObjId → H Unit) (cobj : ObjId) : H Unit := do
  let x ← getObj cobj
  if x.val.isNone then return
  let y ← getVal cobj
  if y.refs ≠ 0 then
    if y.type = .table ∧ y.refs = 2 then
      let (f, _, _) ← member y.d.asTable
      match f with
      | none => pure ()
      | some f =>
          let xf ← getObj f
          if xf.val = x.val ∧ xf.name = bytes "this" then
            modRefs f decRefs
            clearPtr f
    -- the object may have been that `this`
    let x ← getObj cobj
    if x.val.isSome then
      modRefs cobj decRefs
      let y ← getVal cobj
      if y.refs < 1 then
        freeval cobj
        let y ← getVal cobj
        if !y.stackval then freeVal cobj
  clearPtr cobj

/-- The loop of `nsp_freetable`. -/
def freeEntries (freeval : ObjId → H Unit) : Nat → Option ObjId → H Unit
  | 0, _ => .fail .stuck
  | _ + 1, none => pure ()
  | n + 1, some oobj => do
      let x ← getObj oobj
      unlinkWith freeval oobj
      freeObj oobj
      freeEntries freeval n x.next

/-- `nsp_freetable`. -/
def freetableWith (freeval : ObjId → H Unit) (n : Nat) (tobj : ObjId) : H Unit := do
  if ← nspIstable tobj then
    let y ← getVal tobj
    let (f, _, _) ← member y.d.asTable
    freeEntries freeval n f
    modVal tobj fun y => { y with d := .table none none none }

/-- The reaper in the header of an `NSP_CDATA` is set. -/
def hasReaper (d : Data) : Except Fault Bool :=
  d.asStr.map fun b => ((b.getD []).drop 16 |>.take 8).any (· != 0)

/-- `n_freeval`. -/
def freeval : Nat → ObjId → H Unit
  | 0, _ => .fail .stuck
  | n + 1, cobj => do
      let t ← typeOf cobj
      if t = .null then
        let x ← getObj cobj
        -- "wrong null"
        if x.val = some nullVal then nWarning
      else
        if t = .cdata then
          let y ← getVal cobj
          -- the reaper is code of another library
          if ← member (hasReaper y.d) then .fail .foreign
        if t = .table then freetableWith (freeval n) n cobj
        modVal cobj fun y => { y with type := .null, size := 0, d := .num 0 }
        let y ← getVal cobj
        match y.ztable with
        | none => pure ()
        | some z =>
            unlinkWith (freeval n) z
            freeObj z
            modVal cobj fun y => { y with ztable := none }

end Free

/-- `n_freeval`. -/
def nFreeval (cobj : ObjId) : H Unit := do freeval (← walkFuel) cobj

/-- The end of `n_freeval`: the value is cleared, and what its variable keeps is taken off. -/
def clearVal (n : Nat) (cobj : ObjId) : H Unit := do
  modVal cobj fun y => { y with type := .null, size := 0, d := .num 0 }
  let y ← getVal cobj
  match y.ztable with
  | none => pure ()
  | some z =>
      unlinkWith (freeval n) z
      freeObj z
      modVal cobj fun y => { y with ztable := none }

/-- `nsp_unlinkval`. -/
def nspUnlinkval (cobj : ObjId) : H Unit := do
  let n ← walkFuel
  unlinkWith (freeval n) cobj

/-- `nsp_freetable`. -/
def nspFreetable (tobj : ObjId) : H Unit := do
  let n ← walkFuel
  freetableWith (freeval n) n tobj

/-- `nsp_setvaltype`. -/
def nspSetvaltype (cobj : ObjId) (type : Ty) : H Unit := do
  let x ← getObj cobj
  match x.val with
  | none => newValFor cobj { type := type }
  | some _ =>
      let t ← typeOf cobj
      if t ≠ .null then
        if t = .table then
          nspUnlinkval cobj
          newValFor cobj { type := type }
        else
          nFreeval cobj
          modVal cobj fun y => { y with type := type }
      else modVal cobj fun y => { y with type := type }
  if type = .table then modVal cobj fun y => { y with autosort := true }

/-- `nsp_linkval`. -/
def nspLinkval (cobj1 : ObjId) (cobj2 : Option ObjId) : H Unit := do
  match cobj2 with
  | none =>
      nspUnlinkval cobj1
      newValFor cobj1 { type := .null }
  | some cobj2 =>
      if cobj1 = cobj2 then return
      let x1 ← getObj cobj1
      let x2 ← getObj cobj2
      if x2.val.isNone then
        nspUnlinkval cobj1
        newValFor cobj1 { type := .null }
      else if x1.val = x2.val then return
      else
        if x1.val.isSome then nspUnlinkval cobj1
        let x2 ← getObj cobj2
        match x2.val with
        | none => clearPtr cobj1
        | some v =>
            linkPtr cobj1 v
            if cobj2 = retObj then clearPtr cobj2 else modRefs cobj1 incRefs

/-! ### Strings -/

/-- `nsp_strcat` of the bytes `str`. -/
def nspStrcat (cobj : ObjId) (str : List Byte) : H Unit := do
  let t ← typeOf cobj
  if t = .string ∨ t = .nfunc ∨ t = .cdata then
    if str.length < 1 then return
    let y ← getVal cobj
    let old ← if y.size = 0 then pure [] else member (y.d.asStr.map (·.getD []))
    modVal cobj fun y => { y with size := y.size + str.length, d := .str (old.take y.size ++ str) }

/-- `nsp_strmul`. -/
def nspStrmul (cobj : ObjId) (n : Nat) : H Unit := do
  let t ← typeOf cobj
  if t ≠ .string ∨ n < 2 then return
  let y ← getVal cobj
  let old ← if y.size = 0 then pure [] else member (y.d.asStr.map (·.getD []))
  modVal cobj fun y =>
    { y with size := y.size * n, d := .str ((List.replicate n (old.take y.size)).flatten) }

/-! ### Readings -/

/-- `nsp_tobool`. -/
def nspTobool (cobj : ObjId) : H Bool := do
  match ← typeOf cobj with
  | .null => return false
  | .boolean | .number => do
      let y ← getVal cobj
      let q ← member y.d.asNum
      return q ≠ 0
  | .string => do
      let y ← getVal cobj
      return y.size ≠ 0
  | .table => do
      let y ← getVal cobj
      let (f, _, _) ← member y.d.asTable
      return f.isSome
  | .nfunc | .cfunc => return true
  | .cdata => return false

/-- `nsp_tonum`. -/
def nspTonum (cobj : ObjId) : H Num := do
  match ← typeOf cobj with
  | .number => do
      let y ← getVal cobj
      member y.d.asNum
  | .boolean => do
      let y ← getVal cobj
      let q ← member y.d.asNum
      return if q ≠ 0 then 1 else 0
  | .string => do
      let y ← getVal cobj
      let str ← member y.d.asStr
      return nAton (cstr (str.getD []))
  | _ => return 0

/-- `nsp_tostr`. -/
def nspTostr (cobj : ObjId) : H (List Byte) := do
  match ← typeOf cobj with
  | .string => do
      let y ← getVal cobj
      let str ← member y.d.asStr
      return cstr (str.getD [])
  | .boolean => do
      let y ← getVal cobj
      let q ← member y.d.asNum
      return if q ≠ 0 then bytes "true" else bytes "false"
  | .number => do
      let y ← getVal cobj
      let q ← member y.d.asNum
      return nNtoa q true 6
  | .null => return bytes "null"
  | _ => return []

/-! ### Copies -/

/-- `n_setname` of an object. -/
def nSetname (cobj : ObjId) (name : List Byte) : H Unit :=
  modObj cobj (fun x => x.setname name) fun _ => rfl

/-- `n_setnamei` of an object. -/
def nSetnamei (cobj : ObjId) (i : Nat) : H Unit :=
  modObj cobj (fun x => x.setnamei i) fun _ => rfl

def setNext (cobj : ObjId) (p : Option ObjId) : H Unit :=
  modObj cobj (fun x => { x with next := p }) fun _ => rfl

def setPrev (cobj : ObjId) (p : Option ObjId) : H Unit :=
  modObj cobj (fun x => { x with prev := p }) fun _ => rfl

/-- Write `d.table` through an object. -/
def modTable (tobj : ObjId)
    (g : Option ObjId × Option ObjId × Option ObjId → Option ObjId × Option ObjId × Option ObjId) :
    H Unit := do
  let y ← getVal tobj
  let t ← member y.d.asTable
  modVal tobj fun y => { y with d := .table (g t).1 (g t).2.1 (g t).2.2 }

/-- The first part of `n_copyval` and `n_moveval`: the old value is freed. -/
def renewVal (cobj1 : ObjId) (type2 : Ty) : H Unit := do
  let x1 ← getObj cobj1
  if x1.val.isSome then
    nFreeval cobj1
    modVal cobj1 fun y => { y with type := type2 }
  else newValFor cobj1 { type := type2 }

/-- The loop of `n_copytable`; `oobj` is the entry that was copied last. -/
def copyEntries (copyval : ObjId → ObjId → H Unit) (cobj1 : ObjId) :
    Nat → Option ObjId → Option ObjId → H (Option ObjId)
  | 0, _, _ => .fail .stuck
  | _ + 1, oobj, none => pure oobj
  | n + 1, oobj, some iobj => do
      let cobj ← newObj
      match oobj with
      | some oobj =>
          setNext oobj cobj
          setPrev cobj oobj
      | none => modTable cobj1 fun (_, i, l) => (some cobj, i, l)
      let xi ← getObj iobj
      nSetname cobj xi.name
      copyval cobj iobj
      copyEntries copyval cobj1 n (some cobj) xi.next

/-- `n_copyval`, with the `n_copytable` it calls. -/
def copyval : Nat → ObjId → ObjId → H Unit
  | 0, _, _ => .fail .stuck
  | n + 1, cobj1, cobj2 => do
      let type2 ← typeOf cobj2
      if cobj1 = cobj2 then return
      renewVal cobj1 type2
      match type2 with
      | .null => return
      | .boolean | .number =>
          let y2 ← getVal cobj2
          let q ← member y2.d.asNum
          modVal cobj1 fun y => { y with d := .num q }
      | .table =>
          let y2 ← getVal cobj2
          let (f2, _, _) ← member y2.d.asTable
          let l ← copyEntries (copyval n) cobj1 n none f2
          modTable cobj1 fun (f, _, _) => (f, f, l)
          let y2 ← getVal cobj2
          modVal cobj1 fun y => { y with autosort := y.autosort || y2.autosort }
      | .cdata | .string | .nfunc =>
          if type2 = .cdata then nWarning
          let y2 ← getVal cobj2
          let str ← member y2.d.asStr
          nspStrcat cobj1 ((str.getD []).take y2.size)
      | .cfunc =>
          let y2 ← getVal cobj2
          let f ← member y2.d.asCfunc
          modVal cobj1 fun y => { y with d := .cfunc f }

/-- `n_copyval`. -/
def nCopyval (cobj1 cobj2 : ObjId) : H Unit := do copyval (← walkFuel) cobj1 cobj2

/-- `n_moveval`. The value that is left keeps its union and its size. -/
def nMoveval (cobj1 cobj2 : ObjId) : H Unit := do
  let type2 ← typeOf cobj2
  if cobj1 = cobj2 then return
  renewVal cobj1 type2
  match type2 with
  | .null => return
  | .boolean | .number =>
      let y2 ← getVal cobj2
      let q ← member y2.d.asNum
      modVal cobj1 fun y => { y with d := .num q }
  | .table =>
      let y2 ← getVal cobj2
      let (f, _, l) ← member y2.d.asTable
      modVal cobj1 fun y => { y with d := .table f f l, autosort := y.autosort || y2.autosort }
  | .cdata | .string | .nfunc =>
      let y2 ← getVal cobj2
      modVal cobj1 fun y => { y with d := y2.d, size := y2.size }
  | .cfunc =>
      let y2 ← getVal cobj2
      let f ← member y2.d.asCfunc
      modVal cobj1 fun y => { y with d := .cfunc f }
  modVal cobj2 fun y => { y with type := .null }

/-! ### Tables -/

/-- `nsp_appendobj`; without a name the new entry has none yet. -/
def nspAppendobj (tobj : ObjId) (name : Option (List Byte)) : H ObjId := do
  let y ← getVal tobj
  let (f, _, l) ← member y.d.asTable
  let cobj ← newObj
  match f with
  | none => modTable tobj fun (_, i, l) => (some cobj, i, l)
  | some _ =>
      match l with
      | none => .fail .nullPointer
      | some l =>
          setNext l cobj
          setPrev cobj l
  modTable tobj fun (f, i, _) => (f, i, some cobj)
  match name with
  | some name => nSetname cobj name
  | none => pure ()
  return cobj

/-- The comparison of an entry with the name that is searched: by number when that name is one,
and else by bytes. -/
def locateCmp (nval : Int) (oname : List Byte) (x : Obj) : Int :=
  if nval > -1 then x.nval - nval else nameCmp x.name oname

/-- `tobj->val->d.table.i = cobj`. -/
def setCursor (tobj cobj : ObjId) : H Unit := modTable tobj fun (f, _, l) => (f, some cobj, l)

/-- The forward loop of `n_locateobj`: the last comparison, `cobj` and `oobj`. -/
def locateForward (tobj : ObjId) (sortattr : Bool) (cmpTo : Obj → Int) :
    Nat → Int → Option ObjId → Option ObjId → H (Int × Option ObjId × Option ObjId)
  | 0, _, _, _ => .fail .stuck
  | _ + 1, cmp, oobj, none => return (cmp, none, oobj)
  | n + 1, _, oobj, some cobj => do
      let x ← getObj cobj
      let cmp := cmpTo x
      if cmp = 0 ∨ (cmp > 0 ∧ sortattr) then return (cmp, some cobj, oobj)
      setCursor tobj cobj
      locateForward tobj sortattr cmpTo n cmp (some cobj) x.next

/-- The backward loop of `n_locateobj`. -/
def locateBackward (tobj : ObjId) (cmpTo : Obj → Int) :
    Nat → Int → Option ObjId → Option ObjId → H (Int × Option ObjId × Option ObjId)
  | 0, _, _, _ => .fail .stuck
  | _ + 1, cmp, oobj, none => return (cmp, none, oobj)
  | n + 1, _, oobj, some cobj => do
      let x ← getObj cobj
      let cmp := cmpTo x
      if cmp ≤ 0 then return (cmp, some cobj, oobj)
      setCursor tobj cobj
      locateBackward tobj cmpTo n cmp (some cobj) x.prev

/-- The search of `n_locateobj`: `none` where it returns NULL, and else the comparison, `cobj`
and `oobj` that its last part starts with. -/
def locateSearch (tobj : ObjId) (oname : List Byte) (setobj : Bool) :
    H (Option (Int × Option ObjId × Option ObjId)) := do
  let y ← getVal tobj
  let (f, i, _) ← member y.d.asTable
  let n ← walkFuel
  let nval := nameNval oname
  let start := if y.autosort then (i <|> f) else f
  let cmp ←
    if y.autosort then
      match start with
      | none => .fail .nullPointer
      | some cobj => do
          let x ← getObj cobj
          pure (locateCmp nval oname x)
    else pure (-1)
  if cmp < 0 then
    let (cmp, cobj, oobj) ←
      locateForward tobj y.autosort (locateCmp nval oname) n cmp start start
    if !setobj ∧ cmp ≠ 0 then return none
    return some (cmp, cobj, oobj)
  else if y.autosort ∧ cmp > 0 then
    let (cmp, cobj, oobj) ← locateBackward tobj (locateCmp nval oname) n cmp start start
    if !setobj ∧ cmp ≠ 0 then return none
    if cmp < 0 then
      match cobj with
      | none => .fail .nullPointer
      | some c => do
          let x ← getObj c
          return some (1, x.next <|> some c, some c)
    else if cmp > 0 then return some (cmp, oobj, oobj)
    else return some (cmp, cobj, oobj)
  else return some (cmp, start, start)

/-- A new entry of a table. -/
def newEntry (oname : List Byte) (otype : Ty) (prev next : Option ObjId) : H ObjId := do
  let cobj ← newObj
  setPrev cobj prev
  setNext cobj next
  newValFor cobj { type := otype }
  nSetname cobj oname
  return cobj

/-- The last part of `n_locateobj` when it sets: a new entry before `cobj`, a new one behind
`oobj`, or `cobj` itself with its type changed. -/
def locateSet (tobj : ObjId) (oname : List Byte) (otype : Ty) (cmp : Int)
    (cobj oobj : Option ObjId) : H ObjId := do
  let y ← getVal tobj
  if cmp > 0 ∧ y.autosort then
    match cobj with
    | none => .fail .nullPointer
    | some oobj => do
        let x ← getObj oobj
        let cobj ← newEntry oname otype x.prev (some oobj)
        let (f, _, _) ← member y.d.asTable
        if f = some oobj then modTable tobj fun (_, i, l) => (some cobj, i, l)
        match x.prev with
        | some p => setNext p cobj
        | none => pure ()
        setPrev oobj cobj
        return cobj
  else
    match cobj with
    | none => do
        let cobj ← newEntry oname otype oobj none
        match oobj with
        | some o => setNext o cobj
        | none => pure ()
        modTable tobj fun (f, i, _) => (f, i, some cobj)
        return cobj
    | some cobj => do
        if (← typeOf cobj) = .table then modVal cobj fun y => { y with type := otype }
        else nspSetvaltype cobj otype
        return cobj

/-- `n_locateobj` when it looks a name up. -/
def nLocateobjGet (tobj : ObjId) (oname : List Byte) : H (Option ObjId) := do
  let y ← getVal tobj
  let (f, _, _) ← member y.d.asTable
  if f.isNone then return none
  match ← locateSearch tobj oname false with
  | none => return none
  | some (_, cobj, _) => return cobj

/-- `n_locateobj` when it sets a name. -/
def nLocateobjSet (tobj : ObjId) (oname : List Byte) (otype : Ty) : H ObjId := do
  match ← locateSearch tobj oname true with
  | none => .fail .nullPointer
  | some (cmp, cobj, oobj) => locateSet tobj oname otype cmp cobj oobj

/-- A scan of a list of entries for a name; `this` is the last entry of that name before it. -/
def scanNames (oname : List Byte) :
    Nat → Option ObjId → Option ObjId → H (Option ObjId × Option ObjId)
  | 0, _, _ => .fail .stuck
  | _ + 1, this, none => return (none, this)
  | n + 1, this, some cobj => do
      let x ← getObj cobj
      if x.hash = cdbHash oname ∧ x.name = oname then return (some cobj, this)
      let this := if x.hash = 2087959715 ∧ x.name = bytes "this" then some cobj else this
      scanNames oname n this x.next

/-- The entries of a table, from its first. -/
def firstOf (tobj : ObjId) : H (Option ObjId) := do
  let y ← getVal tobj
  let (f, _, _) ← member y.d.asTable
  return f

/-- `nsp_getobj_ex` of a name without a table: the locals, `this` and the globals. -/
def lookupName (oname : List Byte) : H ObjId := do
  let n ← walkFuel
  let locals ← .read Store.locals
  let (found, this) ← scanNames oname n none (← firstOf locals)
  match found with
  | some cobj => return cobj
  | none =>
      let found ←
        match this with
        | some this => do
            if ← nspIstable this then
              let (found, _) ← scanNames oname n none (← firstOf this)
              pure found
            else pure none
        | none => pure none
      match found with
      | some cobj => return cobj
      | none =>
          let (found, _) ← scanNames oname n none (← firstOf globalObj)
          return found.getD nullObj

/-- The loop of `nsp_getobj_ex` over the tables of `ztable`. -/
def searchZ (getobj : ObjId → H (ObjId × Bool)) : Nat → Option ObjId → H (Option ObjId)
  | 0, _ => .fail .stuck
  | _ + 1, none => return none
  | n + 1, some cobj => do
      let x ← getObj cobj
      if ← nspIstable cobj then
        let (cobj2, _) ← getobj cobj
        if !(← nspIsnull cobj2) then return some cobj2
      searchZ getobj n x.next

/-- `nsp_getobj_ex` of a name in a table, with what it stores in `foundz`. -/
def getobjIn (oname : List Byte) : Nat → ObjId → H (ObjId × Bool)
  | 0, _ => .fail .stuck
  | n + 1, tobj => do
      if tobj = retObj then return (tobj, false)
      if ← nspIstable tobj then
        match ← nLocateobjGet tobj oname with
        | some cobj => return (cobj, false)
        | none =>
            let y ← getVal tobj
            match y.ztable with
            | none => return (nullObj, false)
            | some z =>
                if ← nspIstable z then
                  match ← searchZ (getobjIn oname n) n (← firstOf z) with
                  | some cobj2 => return (cobj2, true)
                  | none => return (nullObj, false)
                else return (nullObj, false)
      else return (nullObj, false)

/-- `nsp_getobj_ex`; every caller follows the `ztable`. -/
def nspGetobjEx (tobj : Option ObjId) (oname : List Byte) : H (ObjId × Bool) := do
  match tobj with
  | none => do
      let cobj ← lookupName oname
      return (cobj, false)
  | some tobj => do getobjIn oname (← walkFuel) tobj

/-- `nsp_getobj`. -/
def nspGetobj (tobj : Option ObjId) (oname : List Byte) : H ObjId := do
  let (cobj, _) ← nspGetobjEx tobj oname
  return cobj

/-- What `nsp_setobj` is to store: the macros `nsp_setnull`, `nsp_setbool` and so on. -/
inductive Setting where
  | null
  | boolean (q : Num)
  | number (q : Num)
  | string (b : List Byte)
  | table
  | cfunc (f : CFun)
  | nfunc (b : List Byte)
  | cdata (b : List Byte)
  deriving DecidableEq

/-- The type of a setting (`otype`). -/
def Setting.type : Setting → Ty
  | .null => .null
  | .boolean _ => .boolean
  | .number _ => .number
  | .string _ => .string
  | .table => .table
  | .cfunc _ => .cfunc
  | .nfunc _ => .nfunc
  | .cdata _ => .cdata

/-- The last part of `nsp_setobj`. -/
def storeSetting (cobj : ObjId) : Setting → H Unit
  | .null | .table => pure ()
  | .boolean q => modVal cobj fun y => { y with d := .num (if q ≠ 0 then 1 else 0) }
  | .number q => modVal cobj fun y => { y with d := .num q }
  | .cfunc f => modVal cobj fun y => { y with d := .cfunc f }
  | .string b | .nfunc b | .cdata b => nspStrcat cobj b

/-- The first entry of a table, as `nsp_setobj` makes it. -/
def firstEntry (tobj : ObjId) (oname : List Byte) (otype : Ty) : H ObjId := do
  let cobj ← newObj
  modTable tobj fun _ => (some cobj, some cobj, some cobj)
  newValFor cobj { type := otype }
  nSetname cobj oname
  let y ← getVal tobj
  modVal cobj fun x => { x with autosort := x.autosort || y.autosort }
  return cobj

/-- `nsp_setobj`. -/
def nspSetobj (tobj : ObjId) (oname : Option (List Byte)) (v : Setting) : H ObjId := do
  if tobj ≠ retObj ∧ (← nspIstable tobj) then
    match oname with
    | none => .fail .nullPointer
    | some [] => return nullObj
    | some oname =>
        let cobj ←
          if (← firstOf tobj).isNone then firstEntry tobj oname v.type
          else nLocateobjSet tobj oname v.type
        storeSetting cobj v
        return cobj
  else
    nspSetvaltype tobj v.type
    storeSetting tobj v
    return tobj

/-- `nsp_zlink`. The entries of the `z` table are appended. -/
def nspZlink (cobj1 cobj2 : ObjId) : H Unit := do
  let y ← getVal cobj1
  let z ←
    match y.ztable with
    | some z => pure z
    | none => do
        let z ← newObj
        modVal cobj1 fun y => { y with ztable := some z }
        newValFor z { type := .table }
        nSetname z (bytes "z")
        pure z
  let n ← walkFuel
  let (i, last) ← countEntries n 0 none (← firstOf z)
  let cobj ← newObj
  match last with
  | none => modTable z fun (_, i, l) => (some cobj, i, l)
  | some last =>
      setNext last cobj
      setPrev cobj last
  nSetnamei cobj i
  modTable z fun (f, i, _) => (f, i, some cobj)
  nspLinkval cobj (some cobj2)
where
  /-- The number of the last entry, and that entry. -/
  countEntries : Nat → Nat → Option ObjId → Option ObjId → H (Nat × Option ObjId)
    | 0, _, _, _ => .fail .stuck
    | _ + 1, i, last, none => return (i, last)
    | n + 1, i, last, some cobj => do
        let x ← getObj cobj
        countEntries n (if last.isSome then i + 1 else i) (some cobj) x.next

end NullG.Nsp
