/-
The rule of laws for the interpreter: a law that the primitive actions obey is obeyed by every
function of the interpreter.

* `Lawful` — the actions that expressions are made of obey the law, and so do the functions of
  `Eval` when the calls do;
* `Governs` — so do those of statements, and with them `interp` at every depth.
-/

import NullG.Lib.Law
import NullG.Nsp.Exec

namespace NullG.Nsp

open NullG.Lib

/-- A change of the place in the op stream and of what else of a context an error shows. -/
def Quiet (f : St → St) : Prop :=
  ∀ s, ∃ p l fn fi sg e, f s =
    { s with readptr := p, linenum := l, funcname := fn, filename := fi, single := sg, err := e }

/-- The law is obeyed by the actions that expressions are made of. -/
structure Lawful (L : Law Fault St) : Prop where
  heap : ∀ {α : Type} (x : H α), L.Obeys (heap x)
  quiet : ∀ {f : St → St}, Quiet f → L.Obeys (modify f : M Unit)
  raise : ∀ {α : Type} (err : Int) (located : Bool) (text : List Byte),
    L.Obeys (nErr err located text : M α)

theorem heap_run {α : Type} (x : H α) (s : St) :
    heap x s = match x.run s.store with
      | .ok a store => .ok a { s with store := store }
      | .error e store => raiseFault e { s with store := store } := rfl

/-- An action on the heap changes the heap, and then it may raise an error. -/
theorem obeys_heap {L : Law Fault St} {α : Type} {x : H α}
    (hstore : ∀ s, L.ok s { s with store := final (x.run s.store) })
    (hraise : ∀ (err : Int) (located : Bool) (text : List Byte), L.Obeys (nErr err located text : M α)) :
    L.Obeys (heap x) := by
  intro s
  have hs := hstore s
  rw [heap_run]
  cases hrun : x.run s.store with
  | ok a t =>
      rw [hrun] at hs
      exact hs
  | error e t =>
      rw [hrun] at hs
      have hfault : L.Obeys (raiseFault e : M α) := by
        cases e with
        | raised e => exact hraise _ _ _
        | _ => exact .throw _
      have hrest := hfault { s with store := t }
      dsimp only
      cases hr : raiseFault (α := α) e { s with store := t } with
      | ok a s' => exact L.ok_trans hs (hrest.of_ok hr)
      | error e' s' => exact L.err_trans hs (hrest.of_error hr)

/-- The calls obey the law. -/
structure Calls.Obeys (L : Law Fault St) (k : Calls) : Prop where
  eval : ∀ p, L.Obeys (k.eval p)
  evalobj : ∀ o b, L.Obeys (k.evalobj o b)
  evalsub : ∀ op o, L.Obeys (k.evalsub op o)
  readtable : ∀ o, L.Obeys (k.readtable o)
  execfunction : ∀ f p t, L.Obeys (k.execfunction f p t)
  execbasemethod : ∀ n p, L.Obeys (k.execbasemethod n p)
  execconstructor : ∀ o p, L.Obeys (k.execconstructor o p)

namespace Lawful

variable {L : Law Fault St}

theorem here : L.Obeys here := .read fun s => .pure s.readptr

theorem locals : L.Obeys locals := .read fun s => .pure s.store.locals

variable (h : Lawful L)

include h

/-! ### The op stream -/

theorem ofExcept {α : Type} (x : Except Fault α) : L.Obeys (ofExcept x) := by
  cases x with
  | ok a => exact .pure a
  | error e =>
      cases e with
      | raised e => exact h.raise _ _ _
      | _ => exact .throw _

theorem goto (p : List Byte) : L.Obeys (goto p) := h.quiet fun _ => ⟨p, _, _, _, _, _, rfl⟩

theorem cur : L.Obeys cur := .bind here fun _ => h.ofExcept _

theorem skip (n : Nat) : L.Obeys (skip n) := .bind here fun _ => h.goto _

theorem skipMarkers : L.Obeys skipMarkers := by
  refine .bind here fun p => .bind (h.ofExcept _) fun q => .ite ?_ (.pure _)
  exact .bind (h.ofExcept _) fun line => h.quiet fun s => ⟨q, line, _, _, _, _, rfl⟩

theorem peekop : L.Obeys peekop := .bind h.skipMarkers fun _ => h.cur

theorem expect (fn : String) (op : Byte) : L.Obeys (expect fn op) :=
  .bind h.peekop fun _ => .ite (h.raise _ _ _) (.pure _)

theorem seek (sb : Bool) : L.Obeys (seek sb) :=
  .bind here fun _ => .bind (h.ofExcept _) fun _ => h.goto _

theorem skiptoFrom (c : Byte) (n : Nat) : L.Obeys (skiptoFrom c n) := by
  induction n with
  | zero => exact .throw _
  | succ n ih =>
      refine .bind h.cur fun _ => .ite (h.raise _ _ _) ?_
      refine .bind h.skipMarkers fun _ => .bind h.cur fun _ => .ite (.pure _) ?_
      exact .bind (h.seek true) fun _ => ih

theorem skipto (c : Byte) : L.Obeys (skipto c) := .bind here fun _ => h.skiptoFrom c _

theorem getlabel : L.Obeys getlabel :=
  .bind here fun _ => .bind (h.ofExcept _) fun _ => .bind (h.goto _) fun _ => .pure _

theorem getnumber : L.Obeys getnumber :=
  .bind here fun _ => .bind (h.ofExcept _) fun _ => .bind (h.goto _) fun _ => .pure _

theorem strdata : L.Obeys strdata := by
  refine .bind here fun _ => .bind (h.ofExcept _) fun _ => ?_
  exact .bind (h.ofExcept _) fun _ => .bind (h.goto _) fun _ => .pure _

theorem getstring (cobj : ObjId) : L.Obeys (getstring cobj) :=
  .bind h.strdata fun _ => .bind (h.heap _) fun _ => .pure _

theorem accept (op : Byte) : L.Obeys (accept op) := .bind h.peekop fun _ => .ite (h.skip 1) (.pure _)

theorem refuse (c : Prop) [Decidable c] (text : List Byte) : L.Obeys (refuse c text) :=
  .ite (h.raise _ _ _) (.pure _)

theorem warn : L.Obeys warn := h.heap _

theorem setSingle (b : Bool) : L.Obeys (setSingle b) := h.quiet fun _ => ⟨_, _, _, _, b, _, rfl⟩

theorem setNames (funcname filename : Option (List Byte)) : L.Obeys (setNames funcname filename) :=
  h.quiet fun _ => ⟨_, _, funcname, filename, _, _, rfl⟩

/-! ### Expressions -/

theorem getfunction (cobj : ObjId) : L.Obeys (getfunction cobj) := by
  refine .bind (h.expect _ _) fun _ => .bind here fun as => .bind h.getlabel fun _ => ?_
  refine .bind (h.expect _ _) fun _ => .bind here fun p => .bind (h.ofExcept _) fun n => ?_
  refine .bind (h.goto _) fun _ => .bind (h.expect _ _) fun _ => .bind (h.skip 1) fun _ => ?_
  refine .bind (h.expect _ _) fun _ => .bind (h.seek false) fun _ => .bind (h.skipto _) fun _ => ?_
  exact .bind (h.skip 1) fun _ => .bind here fun be => .bind (h.heap _) fun _ => .pure _

variable {k : Calls} (hk : k.Obeys L)

include hk

theorem readindex (tobj : Option ObjId) : L.Obeys (readindex k tobj) := by
  refine .bind h.peekop fun op => .ite ?_ (.ite ?_ ?_)
  · refine .bind (h.skip 1) fun _ => .bind (h.expect _ _) fun _ => .bind h.getlabel fun p => ?_
    exact .bind (h.heap _) fun _ => .pure _
  · refine .bind (h.skip 1) fun _ => .bind here fun _ => .bind (hk.eval _) fun _ => ?_
    refine .bind (h.expect _ _) fun _ => .bind (h.skip 1) fun _ => .bind (h.heap _) fun p => ?_
    exact .bind (h.heap _) fun _ => .pure _
  · cases tobj with
    | some cobj => exact .pure _
    | none => exact .throw _

theorem storeEval (cobj : ObjId) : L.Obeys (storeEval k cobj) := by
  refine .bind here fun _ => .bind (hk.eval _) fun _ => .bind (h.heap _) fun type => ?_
  exact .ite (h.heap _) (h.heap _)

theorem storeArith (cobj : ObjId) : L.Obeys (storeArith k cobj) := by
  refine .bind h.cur fun op => .bind (h.skip 1) fun _ => .bind (h.heap _) fun _ => ?_
  refine .bind (h.refuse _ _) fun _ => .bind here fun _ => .bind (hk.eval _) fun _ => ?_
  refine .bind (h.heap _) fun _ => .bind (h.refuse _ _) fun _ => .bind h.cur fun _ => ?_
  refine .bind (h.refuse _ _) fun _ => .bind (h.heap _) fun a => .bind (h.heap _) fun b => ?_
  refine .ite (h.heap _) (.ite (h.heap _) (.ite (h.heap _) ?_))
  exact .ite (.throw _) (h.heap _)

omit hk in
theorem storeStep (cobj : ObjId) (d : Num) : L.Obeys (storeStep cobj d) := by
  refine .bind (h.skip 1) fun _ => .bind (h.heap _) fun _ => .bind (h.refuse _ _) fun _ => ?_
  exact .bind (h.heap _) fun _ => h.heap _

theorem storeRest (cobj : ObjId) : L.Obeys (storeRest k cobj) := by
  refine .bind h.peekop fun _ => .ite ?_ (h.storeEval hk cobj)
  refine .bind (h.skip 1) fun _ => .bind (h.getfunction cobj) fun _ => .bind h.peekop fun _ => ?_
  exact .ite (.bind (hk.execfunction _ _ _) fun _ => h.heap _) (.pure _)

theorem storeText (cobj : ObjId) (op : Byte) : L.Obeys (storeText k cobj op) :=
  .bind (h.skip 1) fun _ => .bind here fun _ => .bind (hk.eval _) fun _ => h.heap _

theorem storeEq (cobj : ObjId) : L.Obeys (storeEq k cobj) := by
  refine .bind h.peekop fun op => .ite ?_ (.ite ?_ (.ite ?_ (h.storeRest hk cobj)))
  · exact .bind (h.skip 1) fun _ => hk.evalobj _ _
  · refine .bind (h.skip 1) fun _ => .bind (h.expect _ _) fun _ => .bind h.getlabel fun name => ?_
    exact h.heap _
  · refine .bind (h.skip 1) fun _ => .bind (h.expect _ _) fun _ => .bind here fun _ => ?_
    exact .bind (hk.eval _) fun _ => h.heap _

theorem storeval (cobj : ObjId) : L.Obeys (storeval k cobj) := by
  refine .bind h.peekop fun op => .ite (h.storeStep _ _) (.ite (h.storeStep _ _) ?_)
  refine .bind (h.heap _) fun type => .ite (h.storeText hk _ _) (.ite (h.storeArith hk _) ?_)
  refine .ite (.bind (h.skip 1) fun _ => h.storeEq hk _) (.ite (h.storeRest hk _) ?_)
  exact .bind h.warn fun _ => h.storeRest hk _

theorem readvarIndexes (n : Nat) (tobj cobj : ObjId) (name : Option (List Byte)) :
    L.Obeys (readvarIndexes k n tobj cobj name) := by
  induction n generalizing tobj cobj name with
  | zero => exact .throw _
  | succ n ih =>
      refine .bind (h.heap _) fun y => .ite ?_ (.pure _)
      refine .bind h.cur fun op => .ite (.pure _) ?_
      exact .bind (h.readindex hk _) fun (next, lastname, _) => ih _ _ _

theorem readvarFrom (tobj cobj : ObjId) (name : Option (List Byte)) (preop : Byte) :
    L.Obeys (readvarFrom k tobj cobj name preop) := by
  refine .bind (h.readvarIndexes hk _ _ _ _) fun (tobj, cobj, name) => ?_
  refine .bind (h.heap _) fun cobj => .bind (h.heap _) fun _ => .bind h.cur fun _ => ?_
  exact .ite (.bind (h.storeval hk cobj) fun _ => .pure _) (.pure _)

theorem readvar (tobj : ObjId) (cobj : Option ObjId) : L.Obeys (readvar k tobj cobj) := by
  refine .bind h.cur fun op => .ite ?_ (.ite ?_ ?_)
  · refine .bind (h.skip 1) fun _ => .bind (h.expect _ _) fun _ => .bind h.getlabel fun name => ?_
    refine .bind (h.heap _) fun cobj => .bind (h.expect _ _) fun _ => ?_
    refine .bind (hk.readtable _) fun _ => .bind (h.expect _ _) fun _ => ?_
    exact .bind (h.skip 1) fun _ => .pure _
  · refine .bind (h.skip 1) fun _ => .bind (h.expect _ _) fun _ => .bind h.getlabel fun name => ?_
    exact .bind (h.heap _) fun cobj => .bind (h.getfunction cobj) fun _ => .pure _
  · cases cobj with
    | some cobj => exact h.readvarFrom hk _ _ _ _
    | none =>
        refine .bind h.peekop fun op => .ite (.pure _) ?_
        refine .bind (h.skip _) fun _ => .bind (h.expect _ _) fun _ => .bind h.getlabel fun name => ?_
        exact .bind (h.heap _) fun cobj => h.readvarFrom hk _ _ _ _

omit hk in
theorem readkey : L.Obeys readkey := by
  refine .bind h.peekop fun op => .ite ?_ (.ite ?_ (.ite ?_ (.pure _)))
  · exact .bind h.getlabel fun _ => .pure _
  · exact .bind h.getnumber fun _ => .pure _
  · exact .bind h.strdata fun _ => .pure _

omit hk in
theorem readfunc (tobj : ObjId) (i : Nat) : L.Obeys (readfunc tobj i) := by
  refine .bind (h.expect _ _) fun _ => .bind here fun p => .bind h.getlabel fun name => ?_
  refine .bind h.peekop fun op => .bind here fun q => .bind (h.goto _) fun _ => ?_
  refine .bind (h.heap _) fun cobj => .bind (h.getfunction cobj) fun _ => .bind h.cur fun op => ?_
  exact .ite (.pure _) (.bind (h.accept _) fun _ => .pure _)

omit hk in
theorem readname (tobj : ObjId) (i : Nat) : L.Obeys (readname tobj i) := by
  refine .bind h.peekop fun op => .ite (.pure _) (.ite ?_ (.ite ?_ (.ite (.pure _) (.ite (.pure _) ?_))))
  · refine .bind here fun p => .bind h.getlabel fun name => .bind h.peekop fun op => ?_
    exact .ite (.bind (h.goto p) fun _ => .pure _) (.pure _)
  · refine .bind (h.skip 1) fun _ => .bind h.readkey fun name => .bind (h.expect _ _) fun _ => ?_
    exact .bind (h.skip 1) fun _ => .pure _
  · refine .ite ?_ (.ite ?_ (.ite ?_ (.bind h.warn fun _ => .pure _)))
    · refine .bind here fun p => .bind (h.ofExcept _) fun op => .ite (.pure _) ?_
      exact .bind h.warn fun _ => .pure _
    · refine .bind (h.skip 1) fun _ => .bind h.peekop fun op => ?_
      have hrest : ∀ name : List Byte, L.Obeys (do
          Nsp.expect "parser.c:n_readtable()" opPobrace
          return Entered.value (clip name) false) := fun name =>
        .bind (h.expect _ _) fun _ => .pure _
      exact .ite (.bind h.getlabel hrest) (.bind (.pure _) hrest)
    · exact .bind (h.skip 1) fun _ => h.readfunc tobj i

omit hk in
theorem separator (sep : Bool) : L.Obeys (separator sep) :=
  .ite (.bind h.peekop fun _ => .ite (h.skip 1) (.pure _)) (.pure _)

theorem readdata (tobj : ObjId) (name : List Byte) : L.Obeys (readdata k tobj name) := by
  refine .bind h.peekop fun op => .ite ?_ ?_
  · refine .bind (h.heap _) fun cobj => .bind (hk.readtable _) fun _ => ?_
    exact .bind (h.expect _ _) fun _ => h.skip 1
  · refine .bind h.cur fun op => .ite ?_ (.pure _)
    exact .bind (h.heap _) fun cobj => h.storeval hk cobj

theorem readentries (tobj : ObjId) (n i : Nat) : L.Obeys (readentries k tobj n i) := by
  induction n generalizing i with
  | zero => exact .throw _
  | succ n ih =>
      refine .bind h.cur fun op => .ite (.pure _) (.bind (h.readname tobj i) fun e => ?_)
      cases e with
      | done => exact .pure _
      | func more i => exact .ite (ih i) (.pure _)
      | value name sep =>
          refine .bind (h.separator sep) fun _ => .bind (h.readdata hk _ _) fun _ => ?_
          refine .bind h.peekop fun op => .ite ?_ (h.expect _ _)
          exact .bind (h.skip 1) fun _ => ih _

theorem readtable (tobj : ObjId) : L.Obeys (readtable k tobj) :=
  .bind (h.expect _ _) fun _ => .bind (h.seek false) fun _ => h.readentries hk _ _ _

theorem operandIndexes (n : Nat) (nobj : ObjId) (pobj : Option ObjId) (name : List Byte) :
    L.Obeys (operandIndexes k n nobj pobj name) := by
  induction n generalizing nobj pobj name with
  | zero => exact .throw _
  | succ n ih =>
      refine .bind h.peekop fun op => .ite ?_ (.pure _)
      refine .bind (h.heap _) fun y => .bind (h.readindex hk _) fun (next, lastname, _) => ?_
      exact ih _ _ _

theorem operandFrom (cobj : ObjId) (p : List Byte) (n : Nat) (nobj : ObjId) (pobj : Option ObjId)
    (isnew : Bool) : L.Obeys (operandFrom k cobj p n nobj pobj isnew) := by
  induction n generalizing nobj pobj isnew with
  | zero => exact .throw _
  | succ n ih =>
      refine .bind (h.operandIndexes hk _ _ _ _) fun (nobj, pobj, name) => ?_
      refine .bind h.cur fun op => .ite ?_ (.ite ?_ (.pure _))
      · refine .bind (h.heap _) fun y => .ite ?_ (.ite ?_ ?_)
        · refine .bind (hk.execfunction _ _ _) fun _ => .bind h.peekop fun op => ?_
          exact .ite (ih _ _ _) (.pure _)
        · exact .bind (hk.execconstructor _ _) fun _ => .pure _
        · refine .bind (hk.execbasemethod _ _) fun _ => .bind h.peekop fun op => ?_
          exact .ite (ih _ _ _) (.pure _)
      · refine .bind (h.heap _) fun b => .bind (h.refuse _ _) fun _ => .bind (h.goto p) fun _ => ?_
        exact .bind locals fun l => .bind (h.readvar hk _ _) fun _ => .pure _

omit hk in
theorem numberOperand (cobj nobj : ObjId) (preop : Byte) : L.Obeys (numberOperand cobj nobj preop) := by
  refine .bind (h.heap _) fun _ => .bind h.cur fun op => .ite ?_ (.ite ?_ (.pure _))
  · exact .bind (h.skip 1) fun _ => h.heap _
  · exact .bind (h.skip 1) fun _ => h.heap _

theorem operandCopy (cobj : ObjId) (nobj : Option ObjId) (preop : Byte) (isnew : Bool) :
    L.Obeys (operandCopy k cobj nobj preop isnew) := by
  cases nobj with
  | none => exact h.heap _
  | some nobj =>
      refine .bind (h.heap _) fun t => ?_
      cases t with
      | number => exact h.numberOperand _ _ _
      | table => exact .ite (.bind (hk.execconstructor _ _) fun _ => h.heap _) (h.heap _)
      | _ => exact h.heap _

theorem operandValue (cobj : ObjId) (nobj : Option ObjId) (preop : Byte) (isnew : Bool) :
    L.Obeys (operandValue k cobj nobj preop isnew) :=
  .bind (h.operandCopy hk _ _ _ _) fun _ => .ite (h.heap _) (.pure _)

theorem evalobj (cobj : ObjId) (isnew : Bool) : L.Obeys (evalobj k cobj isnew) := by
  refine .bind h.peekop fun op => .ite ?_ (.ite ?_ ?_)
  · refine .bind (h.heap _) fun _ => .bind (hk.readtable _) fun _ => ?_
    exact .bind (h.expect _ _) fun _ => h.skip 1
  · refine .bind (h.seek false) fun _ => .bind here fun _ => .bind (hk.eval _) fun _ => ?_
    exact .bind (h.heap _) fun _ => .bind (h.expect _ _) fun _ => h.skip 1
  · refine .bind (h.skip _) fun _ => .bind h.peekop fun op => ?_
    refine .ite (h.getstring cobj) (.ite ?_ (.ite ?_ (.pure _)))
    · exact .bind h.getnumber fun q => .bind (h.heap _) fun _ => .pure _
    · refine .bind here fun p => .bind h.getlabel fun name => .bind (h.heap _) fun nobj => ?_
      refine .bind (h.operandFrom hk _ _ _ _ _ _) fun r => ?_
      cases r with
      | none => exact .pure _
      | some r => exact h.operandValue hk _ _ _ _

omit hk in
theorem skipBranch (n : Nat) : L.Obeys (skipBranch n) := by
  induction n with
  | zero => exact .throw _
  | succ n ih =>
      refine .bind h.cur fun _ => .ite (.pure _) (.bind h.peekop fun _ => .ite (.pure _) ?_)
      exact .bind (h.seek true) fun _ => ih

theorem evalsubOp (op2 : Byte) (obj1 obj2 : ObjId) : L.Obeys (evalsubOp k op2 obj1 obj2) := by
  refine .ite (.bind (h.heap _) fun b => .ite ?_ ?_) ?_
  · refine .bind (h.evalobj hk _ _) fun _ => .bind (h.heap _) fun _ => .bind (h.expect _ _) fun _ => ?_
    exact .bind (h.skip 1) fun _ => .bind here fun _ => h.skipBranch _
  · refine .bind (h.skipto _) fun _ => .bind (h.skip 1) fun _ => .bind (h.evalobj hk _ _) fun _ => ?_
    exact .bind (hk.evalsub _ _) fun _ => h.heap _
  · refine .bind (h.evalobj hk _ _) fun _ => .bind h.cur fun op => .ite ?_ (h.heap _)
    exact .bind (hk.evalsub _ _) fun _ => h.heap _

theorem evalsubLoop (obj1 obj2 : ObjId) (val2 : ValId) (n : Nat) :
    L.Obeys (evalsubLoop k obj1 obj2 val2 n) := by
  induction n with
  | zero => exact .throw _
  | succ n ih =>
      refine .bind h.peekop fun op2 => .ite (.pure _) ?_
      refine .bind (h.skip 1) fun _ => .bind (h.heap _) fun short => .ite ?_ ?_
      · exact .bind (h.skipto _) fun _ => ih
      · exact .bind (h.evalsubOp hk _ _ _) fun _ => .bind (h.heap _) fun _ => ih

theorem evalsub (op1 : Byte) (obj1 : ObjId) : L.Obeys (evalsub k op1 obj1) := by
  refine .bind (h.heap _) fun (obj2, val2) => ?_
  exact .bind (h.evalsubLoop hk _ _ _ _) fun _ => h.heap _

theorem nspEval (p : List Byte) : L.Obeys (nspEval k p) := by
  refine .bind (h.heap _) fun (obj1, val1) => .bind (h.goto p) fun _ => ?_
  refine .bind (h.evalobj hk _ _) fun _ => .bind (hk.evalsub _ _) fun _ => ?_
  exact .bind (h.heap _) fun _ => h.heap _

/-! ### Functions -/

omit h hk in
theorem getContext : L.Obeys getContext := .read fun _ => .pure _

omit hk in
theorem setContext (c : Context) : L.Obeys (setContext c) :=
  .bind (h.heap _) fun _ =>
    h.quiet fun _ => ⟨c.readptr, c.linenum, c.funcname, c.filename, _, _, rfl⟩

omit hk in
theorem decompose (srcfile : Option (List Byte)) (text : List Byte) : L.Obeys (decompose srcfile text) := by
  refine .read fun s => .ite (.bind h.warn fun _ => .pure _) ?_
  refine .bind (h.ofExcept _) fun lex => .bind (h.ofExcept _) fun d => .bind (h.ofExcept _) fun r => ?_
  exact .bind (h.heap _) fun _ => .bind (h.ofExcept _) fun _ => .pure _

theorem setargsFrom (listobj : ObjId) (n i : Nat) : L.Obeys (setargsFrom k listobj n i) := by
  induction n generalizing i with
  | zero => exact .throw _
  | succ n ih =>
      refine .bind (h.seek false) fun _ => .bind h.peekop fun _ => .ite (.pure _) ?_
      refine .bind (h.heap _) fun cobj => .bind (h.heap _) fun _ => .bind h.peekop fun op => ?_
      refine .ite ?_ ?_
      · refine .bind (h.skip 1) fun _ => .bind (h.expect _ _) fun _ => .bind h.getlabel fun name => ?_
        exact .bind (h.heap _) fun _ => .bind h.peekop fun _ => .ite (ih _) (h.expect _ _)
      · refine .bind here fun _ => .bind (hk.eval _) fun _ => .bind (h.heap _) fun _ => ?_
        exact .bind h.peekop fun _ => .ite (ih _) (h.expect _ _)

theorem setargs (listobj : ObjId) : L.Obeys (setargs k listobj) := by
  refine .bind h.peekop fun _ => .ite ?_ (h.skip 1)
  exact .bind (h.setargsFrom hk _ _ _) fun _ => h.skip 1

omit hk in
theorem setargnamesFrom (n i : Nat) : L.Obeys (setargnamesFrom n i) := by
  induction n generalizing i with
  | zero => exact .throw _
  | succ n ih =>
      have hrest : L.Obeys (do
          if (← Nsp.peekop) = opPcomma then Nsp.setargnamesFrom n (i + 1)
          else
            Nsp.expect "exec.c:n_execfunction_getargs()" opPcparen
            Nsp.skip 1) :=
        .bind h.peekop fun _ => .ite (ih _) (.bind (h.expect _ _) fun _ => h.skip 1)
      refine .bind (h.seek false) fun _ => .bind (h.heap _) fun cobj => .bind h.peekop fun _ => ?_
      exact .ite (.bind h.getlabel fun _ => .bind (h.heap _) fun _ => hrest) hrest

omit hk in
theorem setargnames (fobj : ObjId) : L.Obeys (setargnames k fobj) := by
  refine .bind (h.heap _) fun y => .bind (h.ofExcept _) fun str => .bind (h.goto _) fun _ => ?_
  refine .bind (h.expect _ _) fun _ => .bind h.getlabel fun _ => .bind (h.expect _ _) fun _ => ?_
  exact .bind (h.setargnamesFrom _ _) fun _ => h.expect _ _

omit hk in
theorem enterContext (fobj listobj l : ObjId) (old : Context) (c : Callee) :
    L.Obeys (enterContext k fobj listobj l old c) := by
  cases c with
  | script =>
      refine .bind (h.heap _) fun x => .bind (h.setNames _ _) fun _ => .bind (h.heap _) fun _ => ?_
      exact h.setargnames fobj
  | cfunc f =>
      refine .ite (h.heap _) ?_
      exact .bind (h.heap _) fun x => .bind (h.setNames _ _) fun _ => h.heap _
  | include1 file => exact .bind (h.setNames _ _) fun _ => h.heap _
  | include2 text =>
      refine .bind (h.decompose _ _) fun p => ?_
      cases p with
      | some p => exact .bind (h.goto p) fun _ => .bind (h.setNames _ _) fun _ => h.heap _
      | none => exact .bind (h.setNames _ _) fun _ => h.heap _

omit hk in
theorem calleeResult (c : Callee) (found : Bool) (ftype : FType) :
    L.Obeys (calleeResult c found ftype) := by
  have hinclude : L.Obeys (do
      if !found then Nsp.warn
      let _ ← Nsp.heap (nspSetobj retObj (some []) (.boolean (if found then 1 else 0)))) :=
    .ite (.bind h.warn fun _ => .bind (h.heap _) fun _ => .pure _) (.bind (h.heap _) fun _ => .pure _)
  have hother : L.Obeys (do
      if ftype = .constructor then
        let l ← Nsp.locals
        Nsp.heap (nspLinkval retObj (some l))) :=
    .ite (.bind locals fun _ => h.heap _) (.pure _)
  cases c with
  | script => exact hother
  | cfunc f => exact hother
  | include1 file => exact hinclude
  | include2 text => exact hinclude

omit hk in
/-- What follows a call that was run. -/
theorem afterCall (listobj : ObjId) (old : Context) (c : Callee) (ftype : FType)
    (r : Except NError Bool) : L.Obeys (do
      Nsp.calleeResult c (match r with | .ok found => found | .error _ => true) ftype
      Nsp.heap (freeexeccontext (← Nsp.locals))
      Nsp.setContext old
      Nsp.heap (do nspUnlinkval listobj; freeObj listobj)) := by
  refine .bind (h.calleeResult _ _ _) fun _ => .bind locals fun l => .bind (h.heap _) fun _ => ?_
  exact .bind (h.setContext old) fun _ => h.heap _

variable {env : Env}

/-- `n_execfunction`, when its calls are governed. -/
theorem execfunction (hrun : ∀ fobj listobj c ftype, L.Obeys (runCall k env fobj listobj c ftype))
    (fobj : ObjId) (pobj : Option ObjId) (ftype : FType) :
    L.Obeys (execfunction k env fobj pobj ftype) := by
  refine .bind (h.heap _) fun type => .bind (h.heap _) fun x => .bind (h.refuse _ _) fun _ => ?_
  refine .bind (h.heap _) fun listobj => .bind (h.setargs hk _) fun _ => .bind (h.heap _) fun _ => ?_
  refine .bind (h.heap _) fun c => ?_
  cases c with
  | none => exact .pure _
  | some c => exact hrun _ _ _ _

theorem execconstructor (hrun : ∀ fobj listobj c ftype, L.Obeys (runCall k env fobj listobj c ftype))
    (cobj pobj : ObjId) : L.Obeys (execconstructor k env cobj pobj) := by
  refine .bind (h.heap _) fun xobj => ?_
  cases xobj with
  | some xobj => exact h.execfunction hk hrun _ _ _
  | none =>
      refine .bind h.peekop fun _ => .ite ?_ (.pure _)
      refine .bind here fun _ => .bind (h.ofExcept _) fun _ => .bind (h.goto _) fun _ => ?_
      exact .bind (h.expect _ _) fun _ => h.skip 1

theorem execdestructor (hrun : ∀ fobj listobj c ftype, L.Obeys (runCall k env fobj listobj c ftype))
    (cobj : ObjId) : L.Obeys (execdestructor k env cobj) := by
  refine .bind (h.heap _) fun xobj => ?_
  cases xobj with
  | some xobj => exact h.execfunction hk hrun _ _ _
  | none => exact .pure _

theorem execbasemethod (hrun : ∀ fobj listobj c ftype, L.Obeys (runCall k env fobj listobj c ftype))
    (hattempt : ∀ {x : M Unit}, L.Obeys x → L.Obeys (attempt x))
    (name : List Byte) (pobj : Option ObjId) : L.Obeys (execbasemethod k env name pobj) := by
  refine .bind (h.expect _ _) fun _ => .bind (h.heap _) fun tobj => ?_
  refine .bind (hattempt (h.execfunction hk hrun _ _ _)) fun r => .bind (h.heap _) fun _ => ?_
  cases r with
  | ok a => exact .pure _
  | error e => exact .read fun s => h.raise _ _ _

/-! ### Statements that start with an object -/

theorem stmtIndexes (n : Nat) (tobj cobj : ObjId) (pobj : Option ObjId) (name : List Byte) :
    L.Obeys (stmtIndexes k n tobj cobj pobj name) := by
  induction n generalizing tobj cobj pobj name with
  | zero => exact .throw _
  | succ n ih =>
      refine .bind h.peekop fun op => .ite ?_ (.pure _)
      refine .bind (h.readindex hk _) fun (next, lastname, z) => .bind h.cur fun op => ?_
      refine .bind (h.heap _) fun null => .ite ?_ (ih _ _ _ _)
      refine .bind (h.heap _) fun null => .ite (.pure _) ?_
      exact .bind (h.heap _) fun next => ih _ _ _ _

theorem objectStmt (hrun : ∀ fobj listobj c ftype, L.Obeys (runCall k env fobj listobj c ftype))
    (hattempt : ∀ {x : M Unit}, L.Obeys x → L.Obeys (attempt x))
    (n : Nat) (tobj cobj : ObjId) (pobj : Option ObjId) (name : List Byte) :
    L.Obeys (objectStmt k env n tobj cobj pobj name) := by
  induction n generalizing tobj cobj pobj name with
  | zero => exact .throw _
  | succ n ih =>
      refine .bind (h.stmtIndexes hk _ _ _ _ _) fun r => ?_
      obtain _ | ⟨tobj, cobj, pobj, name⟩ := r
      · exact .pure _
      · have hdot : L.Obeys (do
            if (← Nsp.peekop) = opPdot then Nsp.objectStmt k env n tobj cobj pobj name) :=
          .bind h.peekop fun _ => .ite (ih _ _ _ _) (.pure _)
        refine .bind (h.heap _) fun type => .bind h.peekop fun op => .ite (.ite ?_ ?_) ?_
        · refine .bind (h.execfunction hk hrun _ _ _) fun _ => .read fun s => ?_
          exact .ite (.pure _) hdot
        · exact .bind (h.execbasemethod hk hrun hattempt _ _) fun _ => hdot
        · refine .bind (h.refuse _ _) fun _ => .bind (h.heap _) fun cobj => ?_
          exact .bind (h.readvar hk _ _) fun _ => .pure _

theorem puncStmt (hrun : ∀ fobj listobj c ftype, L.Obeys (runCall k env fobj listobj c ftype))
    (hattempt : ∀ {x : M Unit}, L.Obeys x → L.Obeys (attempt x)) : L.Obeys (puncStmt k env) := by
  refine .bind (h.heap _) fun type => .bind h.peekop fun op => .ite ?_ ?_
  · refine .bind (h.heap _) fun tobj => .bind (h.execfunction hk hrun _ _ _) fun _ => ?_
    refine .bind (h.heap _) fun _ => .read fun s => .ite (.pure _) ?_
    exact .bind h.peekop fun _ => .ite (h.objectStmt hk hrun hattempt _ _ _ _ _) (.pure _)
  · exact .bind h.warn fun _ => h.skip 1

omit hk in
theorem namespaceTable (n : Nat) (tobj : ObjId) : L.Obeys (namespaceTable n tobj) := by
  induction n generalizing tobj with
  | zero => exact .throw _
  | succ n ih =>
      refine .bind (h.expect _ _) fun _ => .bind h.getlabel fun name => .bind (h.heap _) fun cobj => ?_
      exact .bind h.peekop fun _ => .ite (.bind (h.skip 1) fun _ => ih _) (.pure _)

theorem bracedTable (fn : String) (cobj : ObjId) : L.Obeys (bracedTable k fn cobj) := by
  refine .bind (h.expect _ _) fun _ => .bind (hk.readtable _) fun _ => ?_
  exact .bind (h.expect _ _) fun _ => h.skip 1

/-! ### The extents of bodies -/

omit hk in
theorem extent : L.Obeys extent := by
  have hrest : ∀ single : Bool, L.Obeys (do
      let last ← Nsp.here
      Nsp.skip 1
      return (last, ← Nsp.here, single)) := fun single =>
    .bind here fun _ => .bind (h.skip 1) fun _ => .bind here fun _ => .pure _
  refine .bind h.peekop fun _ => .ite ?_ ?_
  · exact .bind (h.seek false) fun _ => .bind (h.skipto _) fun _ => .bind (.pure _) hrest
  · exact .bind (h.skipto _) fun _ => .bind (.pure _) hrest

omit hk in
theorem foreachVars : L.Obeys foreachVars := by
  refine .bind h.getlabel fun name => .bind h.peekop fun _ => .ite ?_ (.pure _)
  refine .bind (h.skip 1) fun _ => .bind (h.expect _ _) fun _ => ?_
  exact .bind h.getlabel fun valp => .pure _

theorem ifCondition (t done : Bool) : L.Obeys (ifCondition k t done) := by
  refine .bind h.peekop fun _ => .ite ?_ (.pure _)
  refine .bind here fun p => .bind (h.ofExcept _) fun n => .bind (h.seek false) fun _ => ?_
  have hrest : ∀ t : Bool, L.Obeys (do
      Nsp.goto (p.drop (n.toNat + 3))
      Nsp.expect "block.c:n_if()" opPcparen
      Nsp.skip 1
      return t : M Bool) := fun t =>
    .bind (h.goto _) fun _ => .bind (h.expect _ _) fun _ => .bind (h.skip 1) fun _ => .pure _
  refine .ite ?_ (.bind (.pure _) hrest)
  exact .bind here fun _ => .bind (hk.eval _) fun _ => .bind (h.heap _) hrest

omit hk in
theorem skipCase (n : Nat) : L.Obeys (skipCase n) := by
  induction n with
  | zero => exact .throw _
  | succ n ih =>
      exact .bind h.cur fun _ => .ite (.pure _) (.bind (h.seek true) fun _ => ih)

omit hk in
theorem caseMatches (tobj : ObjId) : L.Obeys (caseMatches tobj) := by
  refine .bind (h.heap _) fun t => ?_
  cases t with
  | string =>
      refine .bind h.cur fun _ => .bind (h.refuse _ _) fun _ => .bind h.strdata fun lit => ?_
      exact .bind (h.heap _) fun _ => .pure _
  | number =>
      refine .bind h.cur fun _ => .bind (h.refuse _ _) fun _ => .bind h.getnumber fun lit => ?_
      exact .bind (h.heap _) fun _ => .pure _
  | _ => exact h.raise _ _ _

omit hk in
theorem catchTable (exname : List Byte) : L.Obeys (catchTable exname) :=
  .read fun _ => .bind (h.heap _) fun _ => h.quiet fun _ => ⟨_, _, _, _, _, 0, rfl⟩

omit hk in
theorem shortNumber (dflt : Int) : L.Obeys (shortNumber dflt) :=
  .bind h.peekop fun _ => .ite (.bind h.getnumber fun _ => .pure _) (.pure _)

theorem raiseStmt (op : Byte) : L.Obeys (raiseStmt k op) := by
  refine .ite ?_ (.ite ?_ (h.raise _ _ _))
  · exact .bind (h.storeval hk _) fun _ => .bind (h.heap _) fun _ => h.raise _ _ _
  · exact .bind (h.shortNumber 0) fun _ => h.raise _ _ _

theorem declStmt (hrun : ∀ fobj listobj c ftype, L.Obeys (runCall k env fobj listobj c ftype))
    (op : Byte) : L.Obeys (declStmt k env op) := by
  refine .ite ?_ (.ite ?_ (.ite ?_ (.ite ?_ (.ite ?_ (.ite ?_ h.warn)))))
  · exact .bind locals fun l => .bind (h.readvar hk _ _) fun _ => .pure _
  · exact .bind (h.readvar hk _ _) fun _ => .pure _
  · exact .bind (h.namespaceTable _ _) fun tobj => h.bracedTable hk _ _
  · refine .bind (h.expect _ _) fun _ => .bind h.getlabel fun name => .bind (h.heap _) fun cobj => ?_
    exact h.bracedTable hk _ _
  · refine .bind (h.expect _ _) fun _ => .bind h.getlabel fun name => .bind (h.heap _) fun cobj => ?_
    exact h.getfunction cobj
  · refine .bind (h.expect _ _) fun _ => .bind h.getlabel fun name => .bind (h.heap _) fun cobj => ?_
    exact .bind (h.execdestructor hk hrun _) fun _ => h.heap _

/-! ### `try` -/

section

variable (hattempt : ∀ {x : M Unit}, L.Obeys x → L.Obeys (attempt x))
  (hguard : ∀ p, L.Obeys (within .guard (k.exec p)))

omit hk

include hguard

theorem finallyPart : L.Obeys (finallyPart k) := by
  refine .bind (h.skip 1) fun _ => .bind here fun bs => .bind h.extent fun (last, be, single) => ?_
  exact .bind (h.goto _) fun _ => .bind (hguard _) fun _ => .bind (h.goto _) fun _ => .pure _

include hattempt

theorem tryExec (bs : List Byte) : L.Obeys (tryExec k bs) := by
  refine .bind (h.goto _) fun _ => .bind (hattempt (hguard _)) fun r => ?_
  cases r with
  | ok a => exact .pure _
  | error e => exact .pure _

theorem catchPart (except : Bool) : L.Obeys (catchPart k except) := by
  refine .bind (h.skip 1) fun _ => .bind (h.expect _ _) fun _ => .bind (h.seek false) fun _ => ?_
  refine .bind (h.expect _ _) fun _ => .bind h.getlabel fun name => .bind (h.expect _ _) fun _ => ?_
  refine .bind (h.skip 1) fun _ => .bind here fun bs => .bind h.extent fun (last, be, single) => ?_
  have hrest : ∀ except : Bool, L.Obeys (do
      Nsp.goto be
      return (except, last, single)) := fun except => .bind (h.goto _) fun _ => .pure _
  refine .ite ?_ (.bind (.pure _) hrest)
  refine .bind (h.goto _) fun _ => .bind (h.catchTable _) fun _ => ?_
  refine .bind (h.tryExec hattempt hguard _) fun r => ?_
  exact .bind (h.heap _) fun _ => .bind (.pure _) hrest

theorem nTry : L.Obeys (nTry k) := by
  refine .bind here fun bs => .bind h.extent fun r => ?_
  obtain ⟨last, be, single⟩ := r
  refine .bind (h.tryExec hattempt hguard _) fun except => .bind (h.goto _) fun _ => ?_
  refine .bind h.peekop fun _ => ?_
  have hend : ∀ (except : Bool) (r : List Byte × Bool), L.Obeys (do
      if except then
        let s ← get
        nErr neSyntax false s.errbuf
      if r.2 then Nsp.goto r.1 : M Unit) := fun except r =>
    have hgoto : L.Obeys (if r.2 then Nsp.goto r.1 else pure () : M Unit) := .ite (h.goto _) (.pure _)
    .ite (.read fun s => .bind (h.raise _ _ _) fun _ => hgoto) hgoto
  refine .ite (.bind (h.catchPart hattempt hguard _) fun r => ?_) (.bind (.pure _) fun r => ?_)
  all_goals
    exact .bind h.peekop fun _ => .ite (.bind (h.finallyPart hguard) fun r' => hend r.1 r')
      (.bind (.pure _) fun r' => hend r.1 r')

end

end Lawful

/-! ### Statements -/

/-- The law is obeyed by the actions that statements and calls are made of. -/
structure Governs (L : Law Fault St) : Prop extends Lawful L where
  stmt : ∀ p, L.Obeys (note (.stmt p))
  behind : ∀ f, L.Obeys (note (.behind f))
  jump : ∀ j, L.Obeys (jump j)
  attempt : ∀ {α : Type} {x : M α}, L.Obeys x → L.Obeys (attempt x)
  guarded : ∀ {x : M Unit}, L.Obeys x → L.Obeys (within .guard x)
  round : ∀ {x : M Unit} (pos : Bool), L.Obeys x → L.Obeys (round pos x)
  arm : ∀ {x : M Unit}, L.Obeys x → L.Obeys (arm x)
  calling : ∀ {x : M Bool} {after : Except NError Bool → M Unit}, L.Obeys x →
    (∀ r, L.Obeys (after r)) → L.Obeys (calling x after)

namespace Governs

variable {L : Law Fault St} (h : Governs L) {k : Calls} (hk : k.Obeys L)
  (hexec : ∀ p, L.Obeys (k.exec p)) {env : Env}

include h

theorem leaveBody (last be : List Byte) (single : Bool) : L.Obeys (leaveBody last be single) :=
  .bind (h.behind _) fun _ => h.goto _

section

include hexec

theorem runBody (bs : List Byte) (single : Bool) : L.Obeys (runBody k bs single) :=
  .bind (h.goto _) fun _ => .bind (h.setSingle _) fun _ => hexec _

theorem ifBranch (run : Bool) : L.Obeys (ifBranch k run) := by
  refine .bind h.peekop fun _ => .ite ?_ ?_
  · refine .bind Lawful.here fun p => .bind (h.ofExcept _) fun n => .bind (h.ofExcept _) fun be => ?_
    have hrest : L.Obeys (do
        goto be
        expect "block.c:n_if()" opPcbrace
        skip 1) := .bind (h.goto _) fun _ => .bind (h.expect _ _) fun _ => h.skip 1
    exact .ite (.bind (hexec _) fun _ => hrest) hrest
  · refine .ite ?_ (.bind (h.skipto _) fun _ => h.accept _)
    refine .bind (h.setSingle _) fun _ => .bind Lawful.here fun _ => .bind (hexec _) fun _ => ?_
    exact h.accept _

theorem caseLoop (stop : Byte → Bool) (n : Nat) : L.Obeys (caseLoop k stop n) := by
  induction n with
  | zero => exact .throw _
  | succ n ih =>
      refine .bind h.cur fun _ => .ite (.pure _) (.bind (h.setSingle _) fun _ => ?_)
      exact .bind Lawful.here fun _ => .bind (hexec _) fun _ => .read fun _ => .ite (.pure _) ih

section

include hk

theorem ifFrom (n : Nat) (cond t done : Bool) : L.Obeys (ifFrom k n cond t done) := by
  induction n generalizing cond t done with
  | zero => exact .throw _
  | succ n ih =>
      have hrest : ∀ t : Bool, L.Obeys (do
          let run := t && !done
          Nsp.ifBranch k run
          let s ← get
          if s.ret then return
          if (← peekop) = opKelse then
            skip 1
            if (← peekop) = opKif then
              skip 1
              Nsp.ifFrom k n true t (done || run)
            else Nsp.ifFrom k n false true (done || run)) := by
        intro t
        refine .bind (h.ifBranch hexec _) fun _ => .read fun s => .ite (.pure _) ?_
        refine .bind h.peekop fun _ => .ite ?_ (.pure _)
        refine .bind (h.skip 1) fun _ => .bind h.peekop fun _ => .ite ?_ (ih _ _ _)
        exact .bind (h.skip 1) fun _ => ih _ _ _
      exact .ite (.bind (h.ifCondition hk _ _) hrest) (.bind (.pure _) hrest)

theorem forLoop (argcomp argexec bs : List Byte) (single : Bool) (n : Nat) :
    L.Obeys (forLoop k argcomp argexec bs single n) := by
  induction n with
  | zero => exact .throw _
  | succ n ih =>
      have hrest : ∀ go : Bool, L.Obeys (do
          if go then
            let leave ← Nsp.round false (Nsp.runBody k bs single)
            if !leave then
              goto argexec
              let _ ← readvar k (← locals) none
              Nsp.forLoop k argcomp argexec bs single n) := by
        intro go
        refine .ite (.bind (h.round _ (h.runBody hexec _ _)) fun leave => .ite ?_ (.pure _)) (.pure _)
        refine .bind (h.goto _) fun _ => .bind Lawful.locals fun l => ?_
        exact .bind (h.readvar hk _ _) fun _ => ih
      refine .bind (h.ofExcept _) fun op => .ite ?_ (.bind (.pure _) hrest)
      refine .bind (hk.eval _) fun _ => .bind (h.expect _ _) fun _ => .bind (h.skip 1) fun _ => ?_
      exact .bind (h.heap _) fun q => .bind (.pure _) hrest

theorem nFor : L.Obeys (nFor k) := by
  refine .bind (h.expect _ _) fun _ => .bind (h.seek false) fun _ => .bind Lawful.here fun arginit => ?_
  refine .bind (h.skipto _) fun _ => .bind (h.skip 1) fun _ => .bind Lawful.here fun argcomp => ?_
  refine .bind (h.skipto _) fun _ => .bind (h.skip 1) fun _ => .bind Lawful.here fun argexec => ?_
  refine .bind (h.skipto _) fun _ => .bind (h.skip 1) fun _ => .bind Lawful.here fun bs => ?_
  have hrest : ∀ single : Bool, L.Obeys (do
      let last ← here
      skip 1
      let be ← here
      goto arginit
      let _ ← readvar k (← locals) none
      Nsp.forLoop k argcomp argexec bs single k.fuel
      Nsp.leaveBody last be single) := by
    intro single
    refine .bind Lawful.here fun last => .bind (h.skip 1) fun _ => .bind Lawful.here fun be => ?_
    refine .bind (h.goto _) fun _ => .bind Lawful.locals fun l => .bind (h.readvar hk _ _) fun _ => ?_
    exact .bind (h.forLoop hk hexec _ _ _ _ _) fun _ => h.leaveBody _ _ _
  refine .bind h.peekop fun _ => .ite ?_ (.bind (h.skipto _) fun _ => .bind (.pure _) hrest)
  refine .bind Lawful.here fun p => .bind (h.ofExcept _) fun n => .bind (h.ofExcept _) fun q => ?_
  exact .bind (h.goto _) fun _ => .bind (h.expect _ _) fun _ => .bind (.pure _) hrest

omit hk in
theorem foreachBody (tobj : ObjId) (first : Option ObjId) (valp bs : List Byte) (single : Bool)
    (iobj : ObjId) : L.Obeys (foreachBody k tobj first valp bs single iobj) := by
  refine .bind (h.goto _) fun _ => .bind (h.setSingle _) fun _ => .bind (h.heap _) fun xobj => ?_
  refine .bind (hexec _) fun _ => .bind (h.heap _) fun type => .bind (h.refuse _ _) fun _ => ?_
  exact h.heap _

omit hk in
theorem foreachLoop (tobj : ObjId) (first : Option ObjId) (namep : Option (List Byte))
    (valp bs : List Byte) (single : Bool) (n : Nat) (iobj : Option ObjId) :
    L.Obeys (foreachLoop k tobj first namep valp bs single n iobj) := by
  induction n generalizing iobj with
  | zero => exact .throw _
  | succ n ih =>
      cases iobj with
      | none => exact .pure _
      | some iobj =>
          have hrest : ∀ leave : Bool, L.Obeys (do
              if !leave then
                Nsp.foreachLoop k tobj first namep valp bs single n (← heap (getObj iobj)).next) :=
            fun leave => .ite (.bind (h.heap _) fun x => ih _) (.pure _)
          refine .bind (h.heap _) fun pass => .ite (.bind (.pure _) hrest) ?_
          exact .bind (h.heap _) fun _ => .bind (h.round _ (h.foreachBody hexec _ _ _ _ _ _)) hrest

theorem nForeach : L.Obeys (nForeach k) := by
  refine .bind (h.expect _ _) fun _ => .bind (h.seek _) fun _ => .bind (h.expect _ _) fun _ => ?_
  refine .bind h.foreachVars fun (namep, valp) => .bind (h.expect _ _) fun _ => ?_
  refine .bind h.getlabel fun name => .ite (.bind (h.raise _ _ _) fun _ => ?_) ?_
  all_goals
    refine .bind Lawful.here fun _ => .bind (hk.eval _) fun _ => .bind (h.heap _) fun _ => ?_
    refine .bind (h.refuse _ _) fun _ => .bind (h.heap _) fun tobj => .bind (h.heap _) fun _ => ?_
    refine .bind (h.heap _) fun first => .bind (h.expect _ _) fun _ => .bind (h.skip 1) fun _ => ?_
    refine .bind Lawful.here fun bs => .bind h.extent fun (last, be, single) => ?_
    refine .bind (h.foreachLoop hexec _ _ _ _ _ _ _ _) fun _ => .bind (h.heap _) fun _ => ?_
    exact h.leaveBody _ _ _

theorem doLoop (bs be : List Byte) (single : Bool) (n : Nat) : L.Obeys (doLoop k bs be single n) := by
  induction n with
  | zero => exact .throw _
  | succ n ih =>
      refine .bind (h.round _ (h.runBody hexec _ _)) fun leave => .ite ?_ (.pure _)
      refine .bind (h.goto _) fun _ => .bind (h.expect _ _) fun _ => .bind (h.skip 1) fun _ => ?_
      refine .bind (h.expect _ _) fun _ => .bind (h.seek _) fun _ => .bind Lawful.here fun _ => ?_
      refine .bind (hk.eval _) fun _ => .bind (h.expect _ _) fun _ => .bind (h.heap _) fun q => ?_
      exact .ite ih (.pure _)

theorem nDo : L.Obeys (nDo k) := by
  refine .bind Lawful.here fun bs => .bind h.extent fun (last, be, single) => ?_
  refine .bind (h.doLoop hk hexec _ _ _ _) fun _ => .bind (h.goto _) fun _ => ?_
  refine .bind (h.expect _ _) fun _ => .bind (h.skipto _) fun _ => .bind (h.expect _ _) fun _ => ?_
  exact .bind Lawful.here fun p => h.leaveBody _ _ _

theorem whileLoop (argcomp bs : List Byte) (single : Bool) (n : Nat) :
    L.Obeys (whileLoop k argcomp bs single n) := by
  induction n with
  | zero => exact .throw _
  | succ n ih =>
      refine .bind (hk.eval _) fun _ => .bind (h.expect _ _) fun _ => .bind (h.skip 1) fun _ => ?_
      refine .bind (h.heap _) fun q => .ite ?_ (.pure _)
      exact .bind (h.round _ (h.runBody hexec _ _)) fun leave => .ite ih (.pure _)

theorem nWhile : L.Obeys (nWhile k) := by
  refine .bind (h.expect _ _) fun _ => .bind (h.seek _) fun _ => .bind Lawful.here fun argcomp => ?_
  refine .bind (h.skipto _) fun _ => .bind (h.skip 1) fun _ => .bind Lawful.here fun bs => ?_
  refine .bind h.extent fun (last, be, single) => ?_
  exact .bind (h.whileLoop hk hexec _ _ _ _) fun _ => h.leaveBody _ _ _

omit hk in
theorem switchLoop (tobj : ObjId) (n : Nat) (found : Bool) : L.Obeys (switchLoop k tobj n found) := by
  induction n generalizing found with
  | zero => exact .throw _
  | succ n ih =>
      refine .bind h.cur fun op => .ite (.pure _) (.ite ?_ (.ite ?_ (h.expect _ _)))
      · refine .bind (h.skip 1) fun _ => .bind (h.caseMatches _) fun hit => ?_
        refine .bind (h.expect _ _) fun _ => .bind (h.skip 1) fun _ => .ite ?_ ?_
        · exact .bind Lawful.here fun _ => .bind (h.skipCase _) fun _ => ih _
        · exact .bind (h.arm (h.caseLoop hexec _ _)) fun leave => .ite (ih _) (.pure _)
      · refine .bind (h.skip 1) fun _ => .bind (h.expect _ _) fun _ => .bind (h.skip 1) fun _ => ?_
        exact .bind (h.arm (h.caseLoop hexec _ _)) fun leave => .ite (ih _) (.pure _)

theorem nSwitch : L.Obeys (nSwitch k) := by
  refine .bind (h.expect _ _) fun _ => .bind (h.seek _) fun _ => .bind (h.heap _) fun tobj => ?_
  refine .bind Lawful.here fun _ => .bind (hk.eval _) fun _ => .bind (h.heap _) fun _ => ?_
  refine .bind (h.expect _ _) fun _ => .bind (h.skip 1) fun _ => .bind (h.expect _ _) fun _ => ?_
  refine .bind (h.seek _) fun _ => .bind Lawful.here fun bs => .bind (h.skipto _) fun _ => ?_
  refine .bind (h.skip 1) fun _ => .bind Lawful.here fun be => .bind (h.goto _) fun _ => ?_
  refine .bind (h.switchLoop hexec _ _ _) fun _ => .bind (h.behind _) fun _ => ?_
  exact .bind (h.goto _) fun _ => h.heap _

/-! ### Calls -/

omit hk in
theorem execfile (file : List Byte) : L.Obeys (execfile k env file) := by
  unfold Nsp.execfile
  cases env.file file with
  | none => exact .pure _
  | some text =>
      refine .bind Lawful.here fun p => .bind Lawful.getContext fun old => .bind (h.decompose _ _) fun q => ?_
      refine .bind (h.goto _) fun _ => .bind (h.setNames _ _) fun _ => .bind (hexec _) fun _ => ?_
      exact .bind (h.goto _) fun _ => .bind (h.setNames _ _) fun _ => .pure _

end

end

theorem runText (name : String) {run : List Byte → M Unit} (hrun : ∀ p, L.Obeys (run p)) :
    L.Obeys (runText name run) := by
  refine .bind Lawful.locals fun l => .bind (h.heap _) fun fname => .bind (h.refuse _ _) fun _ => ?_
  refine .bind (h.heap _) fun cobj1 => .bind (h.heap _) fun y => ?_
  refine .ite (.bind (h.ofExcept _) fun str => ?_) (.bind (.pure _) fun str => ?_)
  all_goals
    cases str with
    | none => exact h.heap _
    | some str =>
        refine .bind Lawful.here fun p => .bind (h.decompose _ _) fun q => .bind (h.goto _) fun _ => ?_
        exact .bind (h.attempt (hrun _)) fun _ => h.goto _

section

include hk hexec

theorem callLib (f : CFun) : L.Obeys (callLib k env f) := by
  unfold Nsp.callLib
  cases f with
  | lib n => exact h.heap _
  | nlEval => exact h.runText "eval" fun p => .bind (hk.eval p) fun _ => h.heap _
  | nlExec => exact h.runText "exec" fun p => .bind (hexec p) fun _ => h.heap _
  | nlInclude => exact .pure _
  | _ => exact .throw _

theorem nlBaseMethod : L.Obeys (nlBaseMethod k env) := by
  refine .bind Lawful.locals fun l => .bind (h.heap _) fun (fname, type) => .ite ?_ (h.heap _)
  refine .bind (h.heap _) fun cobj => .bind (h.heap _) fun t => ?_
  cases t with
  | cfunc => exact .bind (h.heap _) fun y => .bind (h.ofExcept _) fun f => h.callLib hk hexec f
  | nfunc =>
      refine .bind Lawful.here fun p => .bind (h.heap _) fun y => .bind (h.ofExcept _) fun str => ?_
      exact .bind (hexec _) fun _ => h.goto p
  | _ => exact h.heap _

theorem runCallee (c : Callee) : L.Obeys (runCallee k env c) := by
  cases c with
  | script => exact .bind Lawful.here fun _ => .bind (hexec _) fun _ => .pure _
  | cfunc f =>
      refine .bind ?_ fun _ => .pure _
      exact .ite (h.nlBaseMethod hk hexec) (h.callLib hk hexec f)
  | include1 file => exact h.execfile hexec file
  | include2 text =>
      exact .bind Lawful.here fun _ => .bind (hexec _) fun _ => .bind (h.heap _) fun _ => .pure _

theorem runCall (fobj listobj : ObjId) (c : Callee) (ftype : FType) :
    L.Obeys (runCall k env fobj listobj c ftype) := by
  refine .bind Lawful.getContext fun old => .bind (h.heap _) fun l => .bind (h.setContext _) fun _ => ?_
  refine .bind (h.enterContext _ _ _ _ _) fun _ => ?_
  refine .bind (h.calling (h.runCallee hk hexec c) fun r => h.afterCall listobj old c ftype r) fun r => ?_
  cases r with
  | ok found => exact .pure _
  | error e => exact .throw _

theorem compound {op : Byte} {x : M Unit} (hx : compound k op = some x) : L.Obeys x := by
  unfold Nsp.compound at hx
  repeat' split at hx
  all_goals cases hx
  · exact h.ifFrom hk hexec _ _ _ _
  · exact h.nFor hk hexec
  · exact h.nForeach hk hexec
  · exact h.nSwitch hk hexec
  · exact h.nDo hk hexec
  · exact h.nWhile hk hexec
  · exact h.toLawful.nTry h.attempt fun p => h.guarded (hexec p)

omit hexec in
theorem jumpStmt (block single : Bool) (op : Byte) : L.Obeys (jumpStmt k block single op) := by
  refine .ite ?_ (.ite ?_ ?_)
  · refine .bind (h.refuse _ _) fun _ => .bind (h.shortNumber 1) fun n => ?_
    exact .bind (h.jump _) fun _ => h.accept _
  · exact .bind (h.refuse _ _) fun _ => .bind (h.jump _) fun _ => h.accept _
  · exact .bind (h.storeval hk _) fun _ => .bind (h.accept _) fun _ => h.jump _

theorem keyStmt (block single : Bool) (op : Byte) : L.Obeys (keyStmt k env block single op) := by
  unfold Nsp.keyStmt
  cases hx : Nsp.compound k op with
  | some x => exact .bind (h.compound hk hexec hx) fun _ => .read fun _ => .pure _
  | none =>
      refine .ite (.bind (h.jumpStmt hk _ _ _) fun _ => .pure _) ?_
      exact .ite (.bind (h.raiseStmt hk _) fun _ => .pure _) (.bind (h.declStmt hk (h.runCall hk hexec) _) fun _ => .pure _)

/-- A statement behind its start. -/
theorem statementRest (block single : Bool) (op : Byte) : L.Obeys (do
    if opIsmath op then
      skip 1
      if op = opMquestion then
        storeval k retObj
        accept opPsemicol
        let _ ← heap (nspTostr retObj)
      else
        warn
        skip 1
      return false
    else if opIspunc op then
      puncStmt k env
      return false
    else if opIskey op then
      skip 1
      Nsp.keyStmt k env block single op
    else
      refuse (op ≠ opLabel)
        (bytes "expected a label [" ++ natDigits op.toNat ++ bytes "][" ++ nGetsym op ++ bytes "]")
      let tobj ← locals
      let name := clip (← getlabel)
      let cobj ← heap (nspGetobj none name)
      objectStmt k env k.fuel tobj cobj none name
      return false) := by
  have hrun : ∀ fobj listobj c ftype, L.Obeys (Nsp.runCall k env fobj listobj c ftype) :=
    h.runCall hk hexec
  refine .ite ?_ (.ite ?_ (.ite ?_ ?_))
  · refine .bind (h.skip 1) fun _ => .ite ?_ ?_
    · refine .bind (h.storeval hk _) fun _ => .bind (h.accept _) fun _ => ?_
      exact .bind (h.heap _) fun _ => .pure _
    · exact .bind h.warn fun _ => .bind (h.skip 1) fun _ => .pure _
  · exact .bind (h.puncStmt hk hrun h.attempt) fun _ => .pure _
  · exact .bind (h.skip 1) fun _ => h.keyStmt hk hexec _ _ _
  · refine .bind (h.refuse _ _) fun _ => .bind Lawful.locals fun tobj => .bind h.getlabel fun name => ?_
    refine .bind (h.heap _) fun cobj => ?_
    exact .bind (h.objectStmt hk hrun h.attempt _ _ _ _ _) fun _ => .pure _

theorem statement (block single : Bool) : L.Obeys (statement k env block single) :=
  .bind h.cur fun op => .bind Lawful.here fun p => .bind (h.stmt p) fun _ =>
    h.statementRest hk hexec block single op

theorem execLoop (block single : Bool) (n : Nat) : L.Obeys (execLoop k env block single n) := by
  induction n with
  | zero => exact .throw _
  | succ n ih =>
      have hrest : ∀ fin : Bool, L.Obeys (do
          if fin then return
          accept opPsemicol
          let s ← get
          if s.yielded ∨ single then return
          Nsp.execLoop k env block single n) := fun fin =>
        .ite (.pure _) (.bind (h.accept _) fun _ => .read fun s => .ite (.pure _) ih)
      refine .bind h.peekop fun op => .ite (.pure _) (.read fun s => .ite (.bind (h.raise _ _ _) fun _ => ?_) ?_)
      all_goals
        refine .ite (.pure _) (.ite ?_ (.bind (h.statement hk hexec _ _) hrest))
        exact .bind (h.skip 1) fun _ => .bind (.pure _) hrest

theorem nspExec (p : List Byte) : L.Obeys (nspExec k env p) := by
  refine .read fun s => .bind (h.setSingle _) fun _ => .ite (.pure _) (.bind (h.goto p) fun _ => ?_)
  refine .bind h.peekop fun _ => .ite (.bind (h.seek _) fun _ => .bind (.pure _) fun block => ?_)
    (.bind (.pure _) fun block => ?_)
  all_goals exact h.execLoop hk hexec _ _ _

end

/-! ### The interpreter -/

/-- A law of the primitive actions is obeyed by the interpreter at every depth. -/
theorem interp (env : Env) (n : Nat) :
    (interp env n).Obeys L ∧ ∀ p, L.Obeys ((interp env n).exec p) := by
  induction n with
  | zero =>
      exact ⟨⟨fun _ => .throw _, fun _ _ => .throw _, fun _ _ => .throw _, fun _ => .throw _,
        fun _ _ _ => .throw _, fun _ _ => .throw _, fun _ _ => .throw _⟩, fun _ => .throw _⟩
  | succ n ih =>
      obtain ⟨hk, hexec⟩ := ih
      refine ⟨⟨?_, ?_, ?_, ?_, ?_, ?_, ?_⟩, h.nspExec hk hexec⟩
      · exact h.nspEval hk
      · exact h.evalobj hk
      · exact h.evalsub hk
      · exact h.readtable hk
      · exact h.execfunction hk (h.runCall hk hexec)
      · exact h.execbasemethod hk (h.runCall hk hexec) h.attempt
      · exact h.execconstructor hk (h.runCall hk hexec)

theorem runScript (env : Env) (fuel : Nat) (text : List Byte) : L.Obeys (runScript env fuel text) := by
  refine .bind (h.heap _) fun _ => .ite (.pure _) (.bind (h.attempt ?_) fun _ => .pure _)
  refine .bind (h.decompose _ _) fun p => ?_
  cases p with
  | none => exact .throw _
  | some p => exact (h.interp env fuel).2 p

end Governs

/-! ### Laws that say nothing of the control -/

/-- The states differ in the flags, the open constructs and the steps only. -/
def SameData (s s' : St) : Prop :=
  ∃ b c r K l, s' = { s with brk := b, cnt := c, ret := r, frames := K, log := l }

/-- The law says nothing of the control, and of errors it says what it says of values. -/
structure Blind (L : Law Fault St) : Prop extends Lawful L where
  control : ∀ {s s' : St}, SameData s s' → L.ok s s'
  after : ∀ {e : Fault} {s t t' : St}, L.err e s t → SameData t t' → L.err e s t'
  caught : ∀ {e : NError} {s t : St}, L.err (.raised e) s t → L.ok s t

namespace Blind

variable {L : Law Fault St} (h : Blind L) {α : Type}

include h

theorem modify {f : St → St} (hf : ∀ s, SameData s (f s)) : L.Obeys (modify f : M Unit) :=
  fun s => h.control (hf s)

theorem note (e : Step) : L.Obeys (note e) := h.modify fun _ => ⟨_, _, _, _, _, rfl⟩

theorem within {x : M α} (f : Frame) (hx : L.Obeys x) : L.Obeys (within f x) := by
  intro s
  have hin : L.ok s { s with frames := f :: s.frames } := h.control ⟨_, _, _, _, _, rfl⟩
  have hrest := hx { s with frames := f :: s.frames }
  unfold Nsp.within
  cases hrun : x { s with frames := f :: s.frames } with
  | ok a s' =>
      exact L.ok_trans hin (L.ok_trans (hrest.of_ok hrun) (h.control ⟨_, _, _, _, _, rfl⟩))
  | error e s' =>
      exact h.after (L.err_trans hin (hrest.of_error hrun)) ⟨_, _, _, _, _, rfl⟩

theorem attempt {x : M α} (hx : L.Obeys x) : L.Obeys (attempt x) := by
  intro s
  have hrest := hx s
  unfold Nsp.attempt
  cases hrun : x s with
  | ok a s' => exact hrest.of_ok hrun
  | error e s' =>
      have herr : L.err e s s' := hrest.of_error hrun
      cases e with
      | raised e => exact L.ok_trans (h.caught herr) (h.control ⟨_, _, _, _, _, rfl⟩)
      | _ => exact herr

theorem ending {x : M Unit} (hx : L.Obeys x) : L.Obeys (ending x) := by
  intro s
  have hrest := hx s
  unfold Nsp.ending
  cases hrun : x s with
  | ok a s' => exact hrest.of_ok hrun
  | error e s' => exact h.after (hrest.of_error hrun) ⟨_, _, _, _, _, rfl⟩

theorem afterBody (pos : Bool) : L.Obeys (afterBody pos) := by
  refine .bind (h.modify fun _ => ⟨_, _, _, _, _, rfl⟩) fun _ => .read fun s => .ite ?_ (.pure _)
  exact .bind (h.modify fun _ => ⟨_, _, _, _, _, rfl⟩) fun _ => .pure _

/-- Such a law is obeyed by every function of the interpreter. -/
theorem governs : Governs L where
  toLawful := h.toLawful
  stmt _ := h.note _
  behind _ := h.note _
  jump j := .bind (h.note _) fun _ => by
    cases j <;> exact h.modify fun _ => ⟨_, _, _, _, _, rfl⟩
  attempt := h.attempt
  guarded := h.within .guard
  round pos hx := by
    refine .bind (h.within .loop hx) fun _ => .bind (h.afterBody pos) fun leave => ?_
    exact .ite (.bind (h.note _) fun _ => .pure _) (.pure _)
  arm hx := by
    refine .bind (h.within .switch hx) fun _ => .read fun s => .ite ?_ (.pure _)
    exact .bind (h.modify fun _ => ⟨_, _, _, _, _, rfl⟩) fun _ => .pure _
  calling hx hafter := by
    refine .bind (h.within .call (h.attempt hx)) fun r => .bind (h.ending (hafter r)) fun _ => ?_
    exact .bind (h.modify fun _ => ⟨_, _, _, _, _, rfl⟩) fun _ => .bind (h.note _) fun _ => .pure _

end Blind

end NullG.Nsp
