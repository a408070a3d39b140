/-
Arithmetic expressions (`n_evalobj`, `n_evalsub` and `nsp_eval` of `parser.c`): two operands and an operator between
them, with the value that `n_evalop` gives or its error.

`Evaluates` is what an operand is: number literals and the names of variables are operands. `eval_operand` and
`eval_arith` are the runs of `nsp_eval`.
-/

import NullG.Nsp.Evaluation
import NullG.Nsp.Operators
import NullG.Mail.Lines

namespace NullG.Nsp.Arithmetic

open NullG.Lib

/-! ### Operators -/

/-- The operators that have a compound assignment. -/
inductive Arith where
  | add
  | sub
  | mul
  | div
  deriving DecidableEq

/-- The op of the operator. -/
def Arith.op : Arith → Byte
  | .add => opMadd
  | .sub => opMsub
  | .mul => opMmul
  | .div => opMdiv

/-- The op of its assignment. -/
def Arith.assign : Arith → Byte
  | .add => opMaddeq
  | .sub => opMsubeq
  | .mul => opMmuleq
  | .div => opMdiveq

/-- The operator on two numbers. -/
def Arith.on : Arith → Num → Num → Num
  | .add, p, q => p + q
  | .sub, p, q => p - q
  | .mul, p, q => p * q
  | .div, p, q => p / q

/-- The operator on two numbers in an expression. -/
theorem numOp_arith (a : Arith) (p q : Num) :
    numOp a.op p q = .ok (if a = .div ∧ q = 0 then .null else .num (a.on p q)) := by
  cases a with
  | add => rfl
  | sub => rfl
  | mul => rfl
  | div =>
      by_cases hq : q = 0
      · rw [if_pos ⟨rfl, hq⟩, hq]
        rfl
      · rw [if_neg fun h => hq h.2]
        show (Except.ok (if q = 0 then NumResult.null else .num (p / q)) : Except Fault NumResult) = _
        rw [if_neg hq]
        rfl

section

variable (a : Arith) (p q : Num) (b : Bool) (str str' : List Byte) (y : Scalar)

theorem evalop_null : Scalar.null.evalop a.op y = .refused := by
  cases a <;> cases y <;> rfl

theorem evalop_boolean : (Scalar.boolean b).evalop a.op y = .refused := by
  cases a <;> cases y <;> rfl

theorem evalop_number_null : (Scalar.number p).evalop a.op .null = .refused := by
  cases a <;> rfl

theorem evalop_number_boolean : (Scalar.number p).evalop a.op (.boolean b) = .refused := by
  cases a <;> rfl

theorem evalop_string_null : (Scalar.string str).evalop a.op .null = .refused := by
  cases a <;> rfl

theorem evalop_string_boolean : (Scalar.string str).evalop a.op (.boolean b) = .refused := by
  cases a <;> rfl

theorem evalop_numbers : (Scalar.number p).evalop a.op (.number q) =
    .value (if a = .div ∧ q = 0 then .null else .number (a.on p q)) := by
  rw [show (Scalar.number p).evalop a.op (.number q) = .ofNum (numOp a.op p q) by cases a <;> rfl, numOp_arith]
  split <;> rfl

/-- A string at the right of a number is read as a number. -/
theorem evalop_number_string : (Scalar.number p).evalop a.op (.string str) =
    .value (if a = .div ∧ nAton (cstr str) = 0 then .null else .number (a.on p (nAton (cstr str)))) := by
  rw [← evalop_numbers]
  cases a <;> rfl

end

/-! ### Operands -/

/-- An op that ends an operand: an arithmetic operator, or the end of a statement or of a parenthesis. -/
def Closes (op : Byte) : Prop := opIsend op = true ∨ ∃ a : Arith, op = a.op

/-- The operand at `p` has the value `y`: that is what `n_evalobj` leaves in a new object that it evaluates it in. -/
def Evaluates (s : Store) (p : List Byte) (y : Scalar) : Prop :=
  ∀ (k : Calls) (t : St) (c : ObjId) (v : ValId) (op : Byte) (rest : List Byte), 0 < k.fuel → Closes op →
    Spares noCell noCell s t.store → t.store.look c = .ok (v, stackVal) → v ≠ nullVal → s.objs.get c = none →
    s.vals.get v = none → t.readptr = p ++ op :: rest →
    ∃ u, evalobj k c false t = .ok () u ∧ u.readptr = op :: rest ∧ Has u.store c v y ∧
      Spares noCell (· = v) t.store u.store

/-- The tokens of a name. -/
def nameStream (name : List Byte) : List Byte := encTok (.op opLabel name)

theorem nameStream_eq (name rest : List Byte) :
    nameStream name ++ rest = opLabel :: name.length.toUInt8 :: (name ++ 0 :: rest) := by
  show (opLabel :: name.length.toUInt8 :: (name ++ [0])) ++ rest = _
  simp

/-- `n_getlabel` at a name. -/
theorem getlabel_name {t : St} {name rest : List Byte} (h : t.readptr = nameStream name ++ rest) (h0 : 0 ∉ name)
    (hlen : name.length < 256) : getlabel t = .ok name { t with readptr := rest } := by
  rw [nameStream_eq] at h
  have hcount : name.length.toUInt8.toNat = name.length := by
    rw [Nat.toUInt8, UInt8.toNat_ofNat']
    exact Nat.mod_eq_of_lt hlen
  have hdrop : (opLabel :: name.length.toUInt8 :: (name ++ 0 :: rest)).drop (3 + name.length) = rest := by
    have hcut : 3 + name.length = (name ++ [0]).length + 2 := by
      rw [List.length_append, List.length_singleton]
      omega
    have hsplit : name ++ 0 :: rest = (name ++ [0]) ++ rest := List.append_cons name 0 rest
    rw [hcut, List.drop_succ_cons, List.drop_succ_cons, hsplit, List.drop_left]
  have hname : cstr (name ++ 0 :: rest) = name := by
    rw [Mail.cstr_append_zero, Mail.cstr_eq h0]
  have hderef : deref (opLabel :: name.length.toUInt8 :: (name ++ 0 :: rest)).tail = .ok name.length.toUInt8 := rfl
  show (ofExcept (deref t.readptr.tail) >>= _ : M (List Byte)) t = _
  rw [h, hderef, run_bind_of_ok (ofExcept_run _ t), hcount, hdrop]
  show EStateM.Result.ok (cstr (name ++ 0 :: rest)) { t with readptr := rest } = _
  rw [hname]

/-- The name denotes the object `o` as long as the cells in use stay as they are. -/
def Denotes (s : Store) (name : List Byte) (o : ObjId) : Prop :=
  ∀ t, Spares noCell noCell s t → (lookupName name).run t = .ok o t

section

variable {s : Store} {c o : ObjId} {v w : ValId} {y : Scalar}

/-- `n_copyval` of a boolean or a string into an object that holds nothing. -/
theorem copyval_has {z : Val} (hc : s.look c = .ok (v, z)) (hv : v ≠ nullVal) (hz : Void z) (ho : Has s o w y)
    (hco : c ≠ o) (hvw : v ≠ w) (hy : y.type = .boolean ∨ y.type = .string) :
    ∃ t, (nCopyval c o).run s = .ok () t ∧ Fills s c v y t := by
  obtain ⟨t₁, hrenew, h₁⟩ := renewVal_run hc hv hz.plain y.type
  have ho₁ : Has t₁ o w y := ho.spares h₁.frame id (Ne.symm hvw)
  unfold nCopyval
  rw [Action.run_bind_ok (walkFuel_run s), copyval, Action.run_bind_ok ho.typeOf, if_neg hco, Action.run_bind_ok hrenew]
  obtain ⟨⟨z', hlook, -, hz'⟩, -⟩ := ho₁
  cases y with
  | null => rcases hy with hy | hy <;> cases hy
  | number q => rcases hy with hy | hy <;> cases hy
  | boolean b =>
      dsimp only [Scalar.type]
      rw [Action.run_bind_ok (getVal_run hlook), hz'.2]
      have h₂ := h₁.trans (sets_write (f := fun y => { y with d := .num (if b then 1 else 0) }) h₁.look rfl)
      refine ⟨_, modVal_write h₁.look _, ⟨⟨_, h₂.look, (Val.freed_ztable z).trans hz.ztable, rfl, rfl⟩, hv⟩, h₂.frame,
        ?_⟩
      refine h₂.tidy hc (Val.freed_stackval z) fun h => .inr ⟨?_, fun h => Ty.noConfusion h⟩
      exact ((Val.retyped_clean h .boolean).resolve_left Ty.noConfusion).1
  | string b =>
      obtain ⟨-, hsize, str, hstr, rfl⟩ := hz'
      obtain ⟨t, hrun, hfills⟩ := (hz.retyped_fills hc h₁ hv hz.retyped_string).strcat (str.getD [])
      show ∃ t, (do
        let y2 ← getVal o
        let str ← member y2.d.asStr
        nspStrcat c ((str.getD []).take y2.size) : H Unit).run t₁ = .ok () t ∧ _
      rw [Action.run_bind_ok (getVal_run hlook), Action.run_bind_ok (member_of_eq hstr), hsize, List.take_length]
      exact ⟨t, hrun, hfills⟩

end

/-! ### Signs -/

/-- What stands before an operand. -/
inductive Sign where
  | plain
  | minus
  | lnot
  deriving DecidableEq

/-- What `n_evalobj` keeps of it in `preop`. -/
def Sign.preop : Sign → Byte
  | .plain => 0
  | .minus => opMsub
  | .lnot => opMlnot

/-- Its op. -/
def Sign.ops : Sign → List Byte
  | .plain => []
  | .minus => [opMsub]
  | .lnot => [opMlnot]

/-- What is copied of a variable: a number with its sign. -/
def Sign.copied : Sign → Scalar → Scalar
  | .minus, .number q => .number (-q)
  | _, y => y

/-- The value of a variable behind a sign. -/
def Sign.apply (sign : Sign) (y : Scalar) : Scalar :=
  match sign with
  | .lnot => .boolean (!y.tobool)
  | sign => sign.copied y

/-- What `n_evalobj` does behind a sign. -/
def evalobjFrom (k : Calls) (cobj : ObjId) (isnew : Bool) (preop op : Byte) : M Unit := do
  if op = opStrdata ∨ op = opEstrdata then getstring cobj
  else if op = opNumdata then
    let q ← getnumber
    let _ ← heap (nspSetobj cobj none (.number (if preop ≠ opMsub then q else -q)))
  else if op = opLabel then
    let p ← here
    let name ← getlabel
    let nobj ← heap (nspGetobj none name)
    match ← operandFrom k cobj p k.fuel nobj none isnew with
    | none => return
    | some (nobj, isnew) => operandValue k cobj nobj preop isnew

/-- An op that nothing of an operand can start with that was begun. -/
def Follows (op : Byte) : Prop :=
  op ∉ [opLinenum, opPobracket, opPdot, opPoparen, opMaddeq, opMsubeq, opMmuleq, opMdiveq, opMeq, opMaddadd, opMsubsub]

instance (op : Byte) : Decidable (Follows op) := inferInstanceAs (Decidable (_ ∉ _))

theorem Follows.ne {op op' : Byte} (h : Follows op) (hmem : op' ∈ [opLinenum, opPobracket, opPdot, opPoparen, opMaddeq,
    opMsubeq, opMmuleq, opMdiveq, opMeq, opMaddadd, opMsubsub]) : op ≠ op' := by
  rintro rfl
  exact h hmem

theorem isend_follows {op : Byte} (h : opIsend op = true) : Follows op := by
  have hall : ∀ op' ∈ [opLinenum, opPobracket, opPdot, opPoparen, opMaddeq, opMsubeq, opMmuleq, opMdiveq, opMeq,
      opMaddadd, opMsubsub], opIsend op' = false := by decide +kernel
  intro hmem
  rw [hall op hmem] at h
  cases h

theorem Closes.follows {op : Byte} (h : Closes op) : Follows op := by
  rcases h with h | ⟨a, rfl⟩
  · exact isend_follows h
  · cases a <;> decide

/-! ### Variables -/

section

variable {k : Calls} {s t : St} {c o : ObjId} {v w : ValId} {y : Scalar} {op : Byte} {p rest : List Byte}

/-- `n_evalobj` at a sign and an op that is data. -/
theorem evalobj_sign (sign : Sign) {isnew : Bool} (hop : op = opStrdata ∨ op = opNumdata ∨ op = opLabel)
    (hread : s.readptr = sign.ops ++ op :: p) :
    evalobj k c isnew s = evalobjFrom k c isnew sign.preop op { s with readptr := op :: p } := by
  have hdata : opIsmath op = false ∧ op ≠ opLinenum ∧ op ≠ opPobrace ∧ op ≠ opPoparen := by
    rcases hop with rfl | rfl | rfl <;> decide
  obtain ⟨hmath, hline, hbrace, hparen⟩ := hdata
  have hback : ∀ preop : Byte, opIsmath preop = true → preop ≠ opLinenum → preop ≠ opPobrace → preop ≠ opPoparen →
      s.readptr = preop :: op :: p →
      evalobj k c isnew s = evalobjFrom k c isnew preop op { s with readptr := op :: p } := by
    intro preop hpre hline' hbrace' hparen' hread
    have hskip : skip (if opIsmath preop then 1 else 0) s = .ok () { s with readptr := op :: p } := by
      rw [if_pos hpre, skip_run, hread]
      rfl
    unfold evalobj
    rw [run_bind_of_ok (peekop_at hread hline'), if_neg hbrace', if_neg hparen', run_bind_of_ok hskip,
      run_bind_of_ok (peekop_at rfl hline), if_pos hpre]
    rfl
  cases sign with
  | minus => exact hback opMsub (by decide) (by decide) (by decide) (by decide) hread
  | lnot => exact hback opMlnot (by decide) (by decide) (by decide) (by decide) hread
  | plain =>
      have hsame : { s with readptr := op :: p } = s := by
        cases s
        cases hread
        rfl
      have hskip : skip (if opIsmath op then 1 else 0) s = .ok () s := by
        rw [hmath]
        rfl
      have hpreop : (if opIsmath op then op else 0) = 0 := by
        rw [hmath]
        rfl
      unfold evalobj
      rw [run_bind_of_ok (peekop_at hread hline), if_neg hbrace, if_neg hparen, run_bind_of_ok hskip,
        run_bind_of_ok (peekop_at hread hline), hpreop, hsame]
      rfl

/-- A name that nothing follows that belongs to it. -/
theorem operandFrom_run (hk : 0 < k.fuel) (hop : Follows op) (hread : t.readptr = op :: rest) (p : List Byte) :
    operandFrom k c p k.fuel o none false t = .ok (some (some o, false)) t := by
  obtain ⟨n, hn⟩ : ∃ n, k.fuel = n + 1 := ⟨k.fuel - 1, by omega⟩
  have hplain : ¬ (op = opPobracket ∨ op = opPdot) := by
    rintro (h | h)
    · exact hop.ne (by decide) h
    · exact hop.ne (by decide) h
  have hassign : ¬ (op = opMaddeq ∨ op = opMsubeq ∨ op = opMmuleq ∨ op = opMdiveq ∨ op = opMeq) := by
    rintro (h | h | h | h | h) <;> exact hop.ne (by decide) h
  have hpeek : peekop t = .ok op t := peekop_at hread (hop.ne (by decide))
  have hindexes : operandIndexes k k.fuel o none [] t = .ok (o, none, []) t := by
    rw [hn, operandIndexes, run_bind_of_ok hpeek, if_neg hplain]
    rfl
  rw [hn, operandFrom, run_bind_of_ok hindexes]
  dsimp only
  rw [run_bind_of_ok (cur_at hread), if_neg (hop.ne (by decide)), if_neg hassign]
  rfl

/-- The value of a variable is copied, by its type. -/
theorem operandCopy_run (sign : Sign) {z : Val} (hc : t.store.look c = .ok (v, z)) (hv : v ≠ nullVal) (hz : Void z)
    (ho : Has t.store o w y) (hco : c ≠ o) (hvw : v ≠ w) (hop : Follows op) (hread : t.readptr = op :: rest) :
    ∃ u, operandCopy k c (some o) sign.preop false t = .ok () { t with store := u } ∧
      Fills t.store c v (sign.copied y) u := by
  have hnew : Has t.store c v .null := ⟨⟨_, hc, hz.ztable, hz.type⟩, hv⟩
  have hcopied : y.type ≠ .number → sign.copied y = y := by
    intro hy
    cases sign with
    | plain | lnot => rfl
    | minus =>
        cases y with
        | number q => exact absurd rfl hy
        | null | boolean _ | string _ => rfl
  rw [operandCopy]
  dsimp only
  rw [run_bind_of_ok (heap_ok ho.typeOf)]
  cases y with
  | null =>
      obtain ⟨u, hrun, hsets⟩ := nspSetvaltype_run hc hv hz.plain (show Ty.null ≠ .table from Ty.noConfusion)
      rw [hcopied Ty.noConfusion]
      exact ⟨u, heap_ok hrun, hz.retyped_fills hc hsets hv rfl⟩
  | boolean b =>
      obtain ⟨u, hrun, hfills⟩ := copyval_has hc hv hz ho hco hvw (.inl rfl)
      rw [hcopied Ty.noConfusion]
      exact ⟨u, heap_ok hrun, hfills⟩
  | string b =>
      obtain ⟨u, hrun, hfills⟩ := copyval_has hc hv hz ho hco hvw (.inr rfl)
      rw [hcopied Ty.noConfusion]
      refine ⟨u, ?_, hfills⟩
      show heap (if o ≠ c then nCopyval c o else pure ()) t = _
      rw [if_pos (Ne.symm hco)]
      exact heap_ok hrun
  | number q =>
      obtain ⟨store, z', hrun, hsets, hz', hzt, -⟩ := hnew.setvaltype .number Ty.noConfusion
      have htidy := hnew.setvaltype_tidy Ty.noConfusion hrun
      have hq : (getNum o).run store = .ok q store := (ho.spares hsets.frame id (Ne.symm hvw)).getNum
      have hfill : ∀ q : Num, (setNum c q).run store = .ok () (store.write c v fun y => { y with d := .num q }) ∧
          Fills t.store c v (.number q) (store.write c v fun y => { y with d := .num q }) := by
        intro q
        have hset := hsets.trans (sets_write (f := fun y => { y with d := .num q }) hsets.look rfl)
        refine ⟨modVal_write hsets.look _, ⟨⟨_, hset.look, hzt, hz', rfl⟩, hv⟩, hset.frame, htidy.trans ?_⟩
        refine tidy_write hsets.look rfl fun h => .inr ⟨?_, fun h => ?_⟩
        · exact (h.resolve_left fun h => Ty.noConfusion (hz'.symm.trans h)).1
        · exact absurd (hz'.symm.trans h) Ty.noConfusion
      have hfull : ∃ u, (do
          nspSetvaltype c .number
          let q ← getNum o
          if sign.preop = opMsub then setNum c (-q)
          else if sign.preop = opMaddadd then
            setNum o (q + 1)
            setNum c (q + 1)
          else if sign.preop = opMsubsub then
            setNum o (q - 1)
            setNum c (q - 1)
          else setNum c q : H Unit).run t.store = .ok () u ∧ Fills t.store c v (sign.copied (.number q)) u := by
        rw [Action.run_bind_ok hrun, Action.run_bind_ok hq]
        cases sign with
        | minus =>
            rw [if_pos (show Sign.minus.preop = opMsub from rfl)]
            exact ⟨_, hfill (-q)⟩
        | plain | lnot =>
            rw [if_neg (by decide), if_neg (by decide), if_neg (by decide)]
            exact ⟨_, hfill q⟩
      obtain ⟨u, hfull, hfills⟩ := hfull
      refine ⟨u, ?_, hfills⟩
      have hplace : ({ t with store := u } : St).readptr = op :: rest := hread
      show numberOperand c o sign.preop t = _
      rw [numberOperand, run_bind_of_ok (heap_ok hfull), run_bind_of_ok (cur_at hplace),
        if_neg (hop.ne (by decide)), if_neg (hop.ne (by decide))]
      rfl

/-- The last part of `n_evalobj` for a variable. -/
theorem operandValue_run (sign : Sign) {z : Val} (hc : t.store.look c = .ok (v, z)) (hv : v ≠ nullVal) (hz : Void z)
    (ho : Has t.store o w y) (hco : c ≠ o) (hvw : v ≠ w) (hop : Follows op) (hread : t.readptr = op :: rest) :
    ∃ u, operandValue k c (some o) sign.preop false t = .ok () { t with store := u } ∧
      Fills t.store c v (sign.apply y) u := by
  obtain ⟨u, hrun, hfills⟩ := operandCopy_run (k := k) sign hc hv hz ho hco hvw hop hread
  rw [operandValue, run_bind_of_ok hrun]
  cases sign with
  | plain => exact ⟨u, rfl, hfills⟩
  | minus => exact ⟨u, rfl, hfills⟩
  | lnot =>
      obtain ⟨u', hset, hfills'⟩ := hfills.has.setobj_boolean (if y.tobool then 0 else 1)
      have htruth : (decide ((if y.tobool then 0 else 1 : Num) ≠ 0)) = !y.tobool := by
        cases y.tobool <;> rfl
      rw [htruth] at hfills'
      refine ⟨u', ?_, hfills'.has, hfills.spares.trans hfills'.spares (fun _ h => h.elim) fun _ => .inl,
        hfills.tidy.trans hfills'.tidy⟩
      rw [if_pos (show Sign.lnot.preop = opMlnot from rfl)]
      refine heap_ok (s := { t with store := u }) ?_
      have hcopied : (nspTobool c).run u = .ok y.tobool u := hfills.has.tobool
      rw [Action.run_bind_ok hcopied, Action.run_bind_ok hset]
      rfl

/-- `n_evalobj` at a variable. -/
theorem evalobj_name (sign : Sign) {z : Val} {name : List Byte} (hk : 0 < k.fuel) (hop : Follows op)
    (hname : (lookupName name).run t.store = .ok o t.store) (h0 : 0 ∉ name) (hlen : name.length < 256)
    (hc : t.store.look c = .ok (v, z)) (hv : v ≠ nullVal) (hz : Void z) (ho : Has t.store o w y) (hco : c ≠ o)
    (hvw : v ≠ w) (hread : t.readptr = sign.ops ++ (nameStream name ++ op :: rest)) :
    ∃ u, evalobj k c false t = .ok () { t with store := u, readptr := op :: rest } ∧
      Fills t.store c v (sign.apply y) u := by
  have hget : heap (nspGetobj none name) { t with readptr := op :: rest } = .ok o { t with readptr := op :: rest } := by
    refine heap_ok ?_
    have hfound : (nspGetobjEx none name).run t.store = .ok (o, false) t.store := by
      rw [nspGetobjEx, Action.run_bind_ok hname]
      rfl
    rw [nspGetobj, Action.run_bind_ok hfound]
    rfl
  obtain ⟨u, hrun, hfills⟩ := operandValue_run (k := k) (t := { t with readptr := op :: rest }) sign hc hv hz ho hco hvw
    hop rfl
  refine ⟨u, ?_, hfills⟩
  rw [nameStream_eq] at hread
  rw [evalobj_sign sign (.inr (.inr rfl)) hread, ← nameStream_eq]
  unfold evalobjFrom
  rw [if_neg (by decide), if_neg (by decide), if_pos rfl,
    run_bind_of_ok (show here { t with readptr := nameStream name ++ op :: rest } = .ok _ _ from rfl),
    run_bind_of_ok (getlabel_name rfl h0 hlen), run_bind_of_ok hget, run_bind_of_ok (operandFrom_run hk hop rfl _)]
  exact hrun

end

/-- A variable is an operand with the value that it holds. -/
theorem evaluates_variable {s : Store} {name : List Byte} {o : ObjId} {w : ValId} {y : Scalar} (h : Denotes s name o)
    (ho : Has s o w y) (h0 : 0 ∉ name) (hlen : name.length < 256) : Evaluates s (nameStream name) y := by
  intro k t c v op rest hk hop hspares hlook hv hc hvs hread
  have hco : c ≠ o := by
    rintro rfl
    obtain ⟨⟨z, hz, -⟩, -⟩ := ho
    obtain ⟨x, hx, -⟩ := look_iff.mp hz
    rw [hc] at hx
    cases hx
  have hvw : v ≠ w := by
    rintro rfl
    obtain ⟨⟨z, hz, -⟩, -⟩ := ho
    rw [(Store.ptr_of_look hz).2] at hvs
    cases hvs
  obtain ⟨u, hrun, hfills⟩ := evalobj_name (k := k) .plain hk hop.follows (h t.store hspares) h0 hlen hlook hv
    stackVal_void (ho.spares hspares id id) hco hvw hread
  exact ⟨_, hrun, rfl, hfills.has, hfills.spares⟩

/-- The scan of a table for a name goes from the entry on to the object `o`, in at most so many rounds. -/
inductive Listed (s : Store) (name : List Byte) (o : ObjId) : Nat → ObjId → Prop where
  | here {n : Nat} {x : Obj} : o ≠ retObj → s.objs.get o = some x → x.hash = cdbHash name ∧ x.name = name →
      Listed s name o (n + 1) o
  | next {n : Nat} {p q : ObjId} {x : Obj} : p ≠ retObj → s.objs.get p = some x →
      ¬ (x.hash = cdbHash name ∧ x.name = name) → x.next = some q → Listed s name o n q → Listed s name o (n + 1) p

section

variable {s t : Store} {O : ObjId → Prop} {W : ValId → Prop} {name : List Byte} {o p : ObjId} {n : Nat}

theorem Listed.scan (h : Listed s name o n p) (hs : Spares O W s t) (hO : ∀ p, O p → p = retObj) {n' : Nat}
    (hn : n ≤ n') (this : Option ObjId) :
    ∃ this', (scanNames name n' this (some p)).run t = .ok (some o, this') t := by
  induction h generalizing n' this with
  | @here n x ho hx hfound =>
      obtain ⟨k, rfl⟩ : ∃ k, n' = k + 1 := ⟨n' - 1, by omega⟩
      refine ⟨this, ?_⟩
      unfold scanNames
      rw [Action.run_bind_ok (getObj_run (hs.objs (fun h => ho (hO _ h)) hx)), if_pos hfound]
      rfl
  | @next n p q x hp hx hother hnext _ ih =>
      obtain ⟨k, rfl⟩ : ∃ k, n' = k + 1 := ⟨n' - 1, by omega⟩
      obtain ⟨this', hrun⟩ := ih (Nat.le_of_succ_le_succ hn)
        (if x.hash = 2087959715 ∧ x.name = bytes "this" then some p else this)
      refine ⟨this', ?_⟩
      unfold scanNames
      rw [Action.run_bind_ok (getObj_run (hs.objs (fun h => hp (hO _ h)) hx)), if_neg hother]
      dsimp only
      rw [hnext]
      exact hrun

/-- A variable of the context is found as long as the list of the variables is as it was. -/
theorem denotes_listed {v : ValId} {y : Val} {f : ObjId} {i l : Option ObjId} (hlook : s.look s.locals = .ok (v, y))
    (hlocals : s.locals ≠ retObj) (hv : ¬ W v) (hd : y.d.asTable = .ok (some f, i, l)) (hlist : Listed s name o n f)
    (hn : n ≤ s.objs.next + s.vals.next + 1) (hs : Spares O W s t) (hO : ∀ p, O p → p = retObj) :
    (lookupName name).run t = .ok o t := by
  have hlook' : t.look s.locals = .ok (v, y) := hs.look (fun h => hlocals (hO _ h)) hv hlook
  have hread : (Action.read Store.locals : H ObjId).run t = .ok s.locals t := by
    rw [← hs.locals]
    rfl
  have hfirst : (firstOf s.locals).run t = .ok (some f) t := by
    unfold firstOf
    rw [Action.run_bind_ok (getVal_run hlook'), hd]
    rfl
  have hfuel : n ≤ t.objs.next + t.vals.next + 1 :=
    Nat.le_trans hn (Nat.succ_le_succ (Nat.add_le_add hs.nextObj hs.nextVal))
  obtain ⟨this, hscan⟩ := hlist.scan hs hO hfuel none
  unfold lookupName
  rw [Action.run_bind_ok (walkFuel_run t), Action.run_bind_ok hread, Action.run_bind_ok hfirst,
    Action.run_bind_ok hscan]
  rfl

end

/-! ### Evaluations -/

theorem isend_facts {op : Byte} (h : opIsend op = true) : opIsmath op = false ∧ op ≠ opLinenum := by
  constructor
  · rw [opIsend, Bool.and_eq_true, decide_eq_true_eq] at h
    rw [opIsmath, Bool.and_eq_false_iff]
    right
    rw [decide_eq_false_iff_not, UInt8.not_le]
    exact UInt8.lt_of_lt_of_le (by decide) h.1
  · rintro rfl
    exact absurd h (by decide)

theorem raises_heap {x : H Unit} {s : St} (h : ∃ e t, x.run s.store = .error (.raised e) t) :
    ∃ e t, heap x s = .error (.raised e) t := by
  obtain ⟨e, t, hrun⟩ := h
  have hheap : heap x s = raiseFault (.raised e) { s with store := t } := by
    unfold heap
    rw [hrun]
  exact ⟨_, _, hheap.trans rfl⟩

section

variable {k : Calls} {s : St} {s₀ : Store} {o : ObjId} {v : ValId} {x y : Scalar} {op : Byte} {p rest : List Byte}

/-- `n_evalsub` at the end of an expression. -/
theorem evalsub_end (hk : 0 < k.fuel) (hread : s.readptr = op :: rest) (hop : opIsend op = true) :
    ∃ u, evalsub k 0 o s = .ok () { s with store := u } ∧ Spares noCell noCell s.store u := by
  obtain ⟨n, hn⟩ : ∃ n, k.fuel = n + 1 := ⟨k.fuel - 1, by omega⟩
  obtain ⟨hmath, hmark⟩ := isend_facts hop
  obtain ⟨t, hstack, hlook, hspares⟩ := stackObj_run s.store
  obtain ⟨c, hc, -⟩ := look_iff.mp hlook
  obtain ⟨u, hdrop, hdropped⟩ := dropObj_run s.store.vals.next hc
  refine ⟨u, ?_, hspares.trans hdropped ?_ ?_⟩
  · unfold evalsub
    rw [run_bind_of_ok (heap_ok hstack)]
    dsimp only
    have hend : evalsubLoop k o s.store.objs.next s.store.vals.next k.fuel { s with store := t } =
        .ok () { s with store := t } := by
      rw [hn]
      exact evalsubLoop_end hread hmath hmark
    rw [run_bind_of_ok hend]
    exact heap_ok (s := { s with store := t }) hdrop
  · rintro a rfl
    exact .inr (Cells.get_next _)
  · rintro a rfl
    exact .inr (Cells.get_next _)

end

section

variable {s : Store} {c n : ObjId} {v w : ValId} {x y : Scalar} {p q : Num} (a : Arith)

/-- An arithmetic operator gives a value or refuses its operands. -/
theorem evalop_defined (x y : Scalar) : x.evalop a.op y ≠ .undefined := by
  cases x with
  | null => rw [evalop_null]; exact Outcome.noConfusion
  | boolean b => rw [evalop_boolean]; exact Outcome.noConfusion
  | number p =>
      cases y with
      | null => rw [evalop_number_null]; exact Outcome.noConfusion
      | boolean b => rw [evalop_number_boolean]; exact Outcome.noConfusion
      | number q => rw [evalop_numbers]; exact Outcome.noConfusion
      | string b => rw [evalop_number_string]; exact Outcome.noConfusion
  | string str =>
      cases y with
      | null => rw [evalop_string_null]; exact Outcome.noConfusion
      | boolean b => rw [evalop_string_boolean]; exact Outcome.noConfusion
      | number q => cases a <;> exact Outcome.noConfusion
      | string b => cases a <;> exact Outcome.noConfusion

/-- `n_evalop` of an arithmetic operator: the value at the right may be converted. -/
theorem nEvalop_arith (hc : Has s c v x) (hn : Has s n w y) (hcn : c ≠ n) (hvw : v ≠ w) :
    (∃ u y' t, x.evalop a.op y = .value u ∧ (nEvalop c a.op n).run s = .ok () t ∧ Has t c v u ∧ Has t n w y' ∧
      Spares noCell (fun b => b = v ∨ b = w) s t) ∨
    (x.evalop a.op y = .refused ∧ ∃ e t, (nEvalop c a.op n).run s = .error (.raised e) t) := by
  have hleaves := nEvalop_leaves a.op hc hn hcn hvw
  cases hout : x.evalop a.op y with
  | value u =>
      rw [hout] at hleaves
      obtain ⟨t, y', hrun, hu, hy, hspares, -⟩ := hleaves
      exact .inl ⟨u, y', t, rfl, hrun, hu, hy, hspares⟩
  | refused =>
      rw [hout] at hleaves
      exact .inr ⟨rfl, hleaves⟩
  | undefined => exact absurd hout (evalop_defined a x y)

end

section

variable {k : Calls} {s : St} {s₀ : Store} {o : ObjId} {v : ValId} {x y : Scalar} {op : Byte} {p rest : List Byte}

/-- The value of an outcome, in the object `o` at `v`, or an error; the op stream is at `p` behind a value. -/
def Comes (out : Outcome) (s : Store) (o : ObjId) (v : ValId) (p : List Byte)
    (r : EStateM.Result Fault St Unit) : Prop :=
  (∃ u t, out = .value u ∧ r = .ok () t ∧ t.readptr = p ∧ Has t.store o v u ∧ Spares noCell (· = v) s t.store) ∨
    (out = .refused ∧ ∃ e t, r = .error (.raised e) t)

/-- The object and the value of a run that makes one of its own. -/
theorem fresh_of_has {t : Store} (h : Has t o v x) : o ≠ t.objs.next ∧ v ≠ t.vals.next ∧ t.vals.next ≠ nullVal := by
  obtain ⟨⟨z, hlook, -⟩, hnull⟩ := h
  obtain ⟨c, hc, -, hz⟩ := look_iff.mp hlook
  have hlt := Cells.lt_next hz
  refine ⟨Cells.ne_next hc, Cells.ne_next hz, ?_⟩
  intro h
  rw [h] at hlt
  exact Nat.not_lt_zero v hlt

/-- The cells that a run makes were not in use before. -/
theorem unused {s t : Store} (h : Spares noCell noCell s t) :
    s.objs.get t.objs.next = none ∧ s.vals.get t.vals.next = none := by
  constructor
  · cases hget : s.objs.get t.objs.next with
    | none => rfl
    | some c => exact absurd (Cells.lt_next hget) (Nat.not_lt.mpr h.nextObj)
  · cases hget : s.vals.get t.vals.next with
    | none => rfl
    | some c => exact absurd (Cells.lt_next hget) (Nat.not_lt.mpr h.nextVal)

/-- `n_evalsub` at an arithmetic operator and its right operand. -/
theorem evalsub_arith (a : Arith) (hk : 1 < k.fuel) (he : Evaluates s₀ p y) (hs : Spares noCell noCell s₀ s.store)
    (hx : Has s.store o v x) (hread : s.readptr = a.op :: (p ++ op :: rest)) (hop : opIsend op = true) :
    Comes (x.evalop a.op y) s.store o v (op :: rest) (evalsub k 0 o s) := by
  obtain ⟨n, hn⟩ : ∃ n, k.fuel = n + 2 := ⟨k.fuel - 2, by omega⟩
  obtain ⟨hmath, hmark⟩ := isend_facts hop
  obtain ⟨hofresh, hvfresh, hnull⟩ := fresh_of_has hx
  obtain ⟨hobj₀, hval₀⟩ := unused hs
  obtain ⟨t₁, hstack, hlook, hspares₁⟩ := stackObj_run s.store
  -- the right operand
  obtain ⟨t₂, hobj, hplace₂, hy, hspares₂⟩ := he k { s with store := t₁, readptr := p ++ op :: rest } s.store.objs.next
    s.store.vals.next op rest (by omega) (.inl hop)
    (hs.trans hspares₁ (fun _ h => h.elim) fun _ h => h.elim) hlook hnull hobj₀ hval₀ rfl
  have hx₂ : Has t₂.store o v x := (hx.spares hspares₁ id id).spares hspares₂ id hvfresh
  have hspares₂' : Spares noCell noCell s.store t₂.store :=
    hspares₁.trans hspares₂ (fun _ h => h.elim) (by rintro b rfl; exact .inr (Cells.get_next _))
  have hcur : (opIsmath op && decide (priority a.op < priority op)) = false := by
    rw [hmath]
    rfl
  have hopRun : evalsubOp k a.op o s.store.objs.next { s with store := t₁, readptr := p ++ op :: rest } =
      heap (nEvalop o a.op s.store.objs.next) t₂ := by
    have hquestion : a.op ≠ opMquestion := by cases a <;> decide
    unfold evalsubOp
    rw [if_neg hquestion, run_bind_of_ok hobj, run_bind_of_ok (cur_at hplace₂), hmath]
    rfl
  have hstart : evalsub k 0 o s = (evalsubLoop k o s.store.objs.next s.store.vals.next k.fuel >>= fun _ =>
      heap (dropObj s.store.objs.next s.store.vals.next)) { s with store := t₁ } := by
    unfold evalsub
    rw [run_bind_of_ok (heap_ok hstack)]
  have hmath' : opIsmath a.op = true := by cases a <;> decide
  have hand : a.op ≠ opMland := by cases a <;> decide
  rcases nEvalop_arith a hx₂ hy hofresh hvfresh with
    ⟨u, y', t₃, hu, hrun, hhas, hy', hspares₃⟩ | ⟨hrefused, e, t₃, hrun⟩
  · left
    obtain ⟨⟨z, hlook₃, hz, hzis⟩, -⟩ := hy'
    obtain ⟨t₄, hround, hsets⟩ := evalsubLoop_round (n := n + 1) (s := { s with store := t₁ }) hread hmath' hand
      (hopRun.trans (heap_ok hrun)) hlook₃ hnull (hzis.plain hz)
    have hend : evalsubLoop k o s.store.objs.next s.store.vals.next k.fuel { s with store := t₁ } =
        .ok () { t₂ with store := t₄ } := by
      rw [hn, hround]
      exact evalsubLoop_end hplace₂ hmath hmark
    obtain ⟨c, hc, -⟩ := look_iff.mp hsets.look
    obtain ⟨t₅, hdrop, hdropped⟩ := dropObj_run s.store.vals.next hc
    refine ⟨u, { t₂ with store := t₅ }, hu, ?_, hplace₂, ?_, ?_⟩
    · rw [hstart, run_bind_of_ok hend]
      exact heap_ok (s := { t₂ with store := t₄ }) hdrop
    · exact (hhas.spares hsets.frame id hvfresh).spares hdropped hofresh hvfresh
    · have hspares₅ : Spares noCell (· = v) s.store t₃ :=
        (hspares₂'.mono (fun _ h => h) fun _ h => h.elim).trans hspares₃ (fun _ h => h.elim) (by
          rintro b (rfl | rfl)
          · exact .inl rfl
          · exact .inr (Cells.get_next _))
      refine (hspares₅.trans hsets.frame (fun _ h => h.elim) ?_).trans hdropped ?_ ?_
      · rintro b rfl
        exact .inr (Cells.get_next _)
      · rintro b rfl
        exact .inr (Cells.get_next _)
      · rintro b rfl
        exact .inr (Cells.get_next _)
  · right
    obtain ⟨e', t₄, hheap⟩ := raises_heap (s := t₂) ⟨e, t₃, hrun⟩
    refine ⟨hrefused, e', t₄, ?_⟩
    have hloop : evalsubLoop k o s.store.objs.next s.store.vals.next k.fuel { s with store := t₁ } =
        .error (.raised e') t₄ := by
      rw [hn, evalsubLoop_head (n := n + 1) (s := { s with store := t₁ }) hread hmath' hand]
      exact run_bind_of_error (hopRun.trans hheap)
    rw [hstart]
    exact run_bind_of_error hloop

end

/-! ### The value of an expression -/

section

variable {k : Calls} {s : St} {s₀ : Store} {o : ObjId} {v : ValId} {x y : Scalar} {op : Byte} {p q rest : List Byte}

/-- A value is one value. -/
theorem has_inj {t : Store} (hx : Has t o v x) (hy : Has t o v y) : x = y := by
  obtain ⟨⟨z, hlook, -, hx⟩, -⟩ := hx
  obtain ⟨⟨z', hlook', -, hy⟩, -⟩ := hy
  obtain rfl : z = z' := by
    rw [hlook] at hlook'
    cases hlook'
    rfl
  have htype : x.type = y.type := (Val.Is.type hx).symm.trans (Val.Is.type hy)
  cases x with
  | null =>
      cases y with
      | null => rfl
      | boolean _ | number _ | string _ => cases htype
  | boolean b =>
      cases y with
      | boolean c =>
          have hd := hx.2.symm.trans hy.2
          cases b <;> cases c <;> first | rfl | (simp at hd)
      | null | number _ | string _ => cases htype
  | number q =>
      cases y with
      | number r =>
          have hd := hx.2.symm.trans hy.2
          rw [Data.num.injEq] at hd
          rw [hd]
      | null | boolean _ | string _ => cases htype
  | string b =>
      cases y with
      | string c =>
          obtain ⟨-, -, str, hstr, rfl⟩ := hx
          obtain ⟨-, -, str', hstr', rfl⟩ := hy
          rw [hstr] at hstr'
          cases hstr'
          rfl
      | null | boolean _ | number _ => cases htype

theorem sound_of_is {z : Val} (h : z.Is x) : z.Sound := by
  unfold Val.Sound
  rw [h.type]
  cases x with
  | null => trivial
  | boolean b => exact ⟨_, h.2⟩
  | number q => exact ⟨q, h.2⟩
  | string b => trivial

/-- A value that is moved is the same. -/
theorem fill_is {z z' : Val} (h : z.Is x) (htype : z'.type = z.type) : (z'.fill z).Is x := by
  unfold Val.fill
  rw [h.type] at htype ⊢
  cases x with
  | null => exact htype
  | boolean b => exact ⟨htype, h.2⟩
  | number q => exact ⟨htype, h.2⟩
  | string b => exact ⟨htype, h.2.1, h.2.2⟩

/-- The value `y` is in `N->r`, at `a`, and no other cell in use has changed. -/
structure Result (s : Store) (a : ValId) (y : Scalar) (p : List Byte) (t : St) : Prop where
  has : Has t.store retObj a y
  new : s.ptr retObj = some a ∨ s.vals.get a = none
  place : t.readptr = p
  spares : Spares (· = retObj) (fun b => s.ptr retObj = some b) s t.store

/-- The variable is as it was when an expression was evaluated. -/
theorem Result.keeps {a : ValId} {t : St} (h : Result s.store a y p t) (hx : Has s.store o v x) (ho : o ≠ retObj)
    (hv : s.store.ptr retObj ≠ some v) : Has t.store o v x ∧ v ≠ a := by
  refine ⟨hx.spares h.spares ho hv, ?_⟩
  rintro rfl
  rcases h.new with hptr | hnone
  · exact hv hptr
  · obtain ⟨⟨z, hlook, -⟩, -⟩ := hx
    rw [(Store.ptr_of_look hlook).2] at hnone
    cases hnone

/-- `nsp_eval`, when the expression ends with an error. -/
theorem nspEval_error {u : Store} {e : Fault} {t : St} (hstack : stackObj.run s.store = .ok (o, v) u)
    (hon : evalOn k o p { s with store := u } = .error e t) : nspEval k p s = .error e t := by
  unfold nspEval
  rw [run_bind_of_ok (heap_ok hstack)]
  rcases bind_run_error hon with h | ⟨_, t₁, hgoto, hon⟩
  · exact run_bind_of_error h
  show (goto p >>= _ : M Unit) _ = _
  rw [run_bind_of_ok hgoto]
  rcases bind_run_error hon with h | ⟨_, t₂, hobj, hsub⟩
  · exact run_bind_of_error h
  · rw [run_bind_of_ok hobj]
    exact run_bind_of_error hsub

/-- `nsp_eval`, when the expression leaves a value in its object. -/
theorem nspEval_value (hready : Ready s.store) (hon : ∀ u, Spares noCell noCell s.store u →
      u.look s.store.objs.next = .ok (s.store.vals.next, stackVal) → ∃ t,
        evalOn k s.store.objs.next p { s with store := u } = .ok () t ∧
          Has t.store s.store.objs.next s.store.vals.next y ∧ t.readptr = q ∧ Spares noCell noCell s.store t.store) :
    ∃ a t, nspEval k p s = .ok () t ∧ Result s.store a y q t := by
  obtain ⟨u, hstack, hlook, hspares⟩ := stackObj_run s.store
  obtain ⟨t, hrun, hhas, hplace, hspares'⟩ := hon u hspares hlook
  obtain ⟨hready', hptr⟩ := hready.spares hspares' id fun _ _ => id
  obtain ⟨⟨z, hz, hzt, hzis⟩, hnull⟩ := hhas
  have hapart : t.store.ptr retObj ≠ some s.store.vals.next := by
    rw [hptr]
    intro h
    exact Nat.lt_irrefl _ (hready.ptr_lt h)
  have hgives : Gives t.store s.store.objs.next s.store.vals.next z := by
    refine ⟨hready', hz, ?_, hapart, hnull, sound_of_is hzis, ?_⟩
    · intro h
      exact Nat.lt_irrefl _ (h ▸ hready.retObj_lt)
    · intro h
      have hplain := Val.Is.plain hzis hzt
      exact (h.elim hplain.table hplain.cdata).elim
  have hlt := Cells.lt_next (Store.ptr_of_look hz).2
  obtain ⟨t', a, z', heval, hret, htype, hzt', ha, hkept⟩ := nspEval_run hstack hrun hgives hlt hapart
  rw [hptr] at ha hkept
  refine ⟨a, _, heval, ⟨⟨_, hret, (Val.fill_ztable z' z).trans hzt', fill_is hzis htype⟩, ?_⟩, ?_, hplace, ?_⟩
  · rcases ha with ha | rfl
    · obtain ⟨c, hc, hval⟩ := hready.result
      have hcval : s.store.ptr retObj = c.val := by
        rw [Store.ptr, hc]
        rfl
      exact (hval a (hcval.symm.trans ha)).1
    · intro h
      rw [h] at hlt
      exact Nat.not_lt_zero _ hlt
  · refine ha.imp_right ?_
    rintro rfl
    exact (unused hspares').2
  · refine (hspares'.mono (fun _ h => h.elim) fun _ h => h.elim).trans hkept ?_ ?_
    · rintro b (h | rfl)
      · exact .inl h
      · exact .inr (Cells.get_next _)
    · rintro b (rfl | rfl | h)
      · exact .inr (Cells.get_next _)
      · exact .inr (Cells.get_next _)
      · exact .inl h

/-- An operand as an expression. -/
theorem eval_operand (env : Env) (n : Nat) (rest : List Byte) (hready : Ready s.store) (he : Evaluates s.store p y)
    (hop : opIsend op = true) :
    ∃ a t, (interp env (n + 5)).eval (p ++ op :: rest) s = .ok () t ∧ Result s.store a y (op :: rest) t := by
  refine nspEval_value hready fun u hspares hlook => ?_
  obtain ⟨hobj, hval⟩ := unused (.refl (O := noCell) (W := noCell) s.store)
  have hnull : s.store.vals.next ≠ nullVal := Nat.pos_iff_ne_zero.mp hready.values
  obtain ⟨t, hrun, hplace, hhas, hspares'⟩ := he (interp env (n + 4)) { s with store := u, readptr := p ++ op :: rest }
    s.store.objs.next s.store.vals.next op rest (by show 0 < n + 3; omega) (.inl hop) hspares hlook hnull hobj hval rfl
  obtain ⟨t', hsub, hspares''⟩ := evalsub_end (k := interp env (n + 3)) (o := s.store.objs.next)
    (by show 0 < n + 2; omega) hplace hop
  refine ⟨{ t with store := t' }, ?_, hhas.spares hspares'' id id, hplace, ?_⟩
  · unfold evalOn
    rw [run_bind_of_ok (show goto (p ++ op :: rest) { s with store := u } =
      .ok () { s with store := u, readptr := p ++ op :: rest } from rfl), run_bind_of_ok hrun]
    exact hsub
  · refine (hspares.trans hspares' (fun _ h => h.elim) ?_).trans hspares'' (fun _ h => h.elim) fun _ h => h.elim
    rintro b rfl
    exact .inr hval

/-- A binary expression. -/
theorem eval_arith (env : Env) (n : Nat) (a : Arith) (rest : List Byte) (hready : Ready s.store)
    (hx : Evaluates s.store q x) (he : Evaluates s.store p y) (hop : opIsend op = true) :
    (∃ u b t, x.evalop a.op y = .value u ∧ (interp env (n + 5)).eval (q ++ a.op :: (p ++ op :: rest)) s = .ok () t ∧
      Result s.store b u (op :: rest) t) ∨
    (x.evalop a.op y = .refused ∧
      ∃ e t, (interp env (n + 5)).eval (q ++ a.op :: (p ++ op :: rest)) s = .error (.raised e) t) := by
  obtain ⟨hobj, hval⟩ := unused (.refl (O := noCell) (W := noCell) s.store)
  have hnull : s.store.vals.next ≠ nullVal := Nat.pos_iff_ne_zero.mp hready.values
  -- the left operand is evaluated in the object of `nsp_eval`, and `n_evalsub` goes on from there
  have hon : ∀ u, Spares noCell noCell s.store u → u.look s.store.objs.next = .ok (s.store.vals.next, stackVal) →
      ∃ t₁ : St, evalOn (interp env (n + 4)) s.store.objs.next (q ++ a.op :: (p ++ op :: rest)) { s with store := u } =
          evalsub (interp env (n + 3)) 0 s.store.objs.next t₁ ∧ Spares noCell noCell s.store t₁.store ∧
        Comes (x.evalop a.op y) t₁.store s.store.objs.next s.store.vals.next (op :: rest)
          (evalsub (interp env (n + 3)) 0 s.store.objs.next t₁) := by
    intro u hspares hlook
    obtain ⟨t₁, hrun, hplace, hhas, hspares'⟩ := hx (interp env (n + 4))
      { s with store := u, readptr := q ++ a.op :: (p ++ op :: rest) } s.store.objs.next s.store.vals.next a.op
      (p ++ op :: rest) (by show 0 < n + 3; omega) (.inr ⟨a, rfl⟩) hspares hlook hnull hobj hval rfl
    have hspares₁ : Spares noCell noCell s.store t₁.store := by
      refine hspares.trans hspares' (fun _ h => h.elim) ?_
      rintro b rfl
      exact .inr hval
    refine ⟨t₁, ?_, hspares₁, ?_⟩
    · unfold evalOn
      rw [run_bind_of_ok (show goto (q ++ a.op :: (p ++ op :: rest)) { s with store := u } =
        .ok () { s with store := u, readptr := q ++ a.op :: (p ++ op :: rest) } from rfl), run_bind_of_ok hrun]
      rfl
    · exact evalsub_arith a (by show 1 < n + 2; omega) he hspares₁ hhas hplace hop
  cases hout : x.evalop a.op y with
  | value u =>
      left
      obtain ⟨b, t, heval, hresult⟩ := nspEval_value (k := interp env (n + 4)) (p := q ++ a.op :: (p ++ op :: rest))
        (q := op :: rest) (y := u) hready fun u' hspares hlook => by
          obtain ⟨t₁, hstart, hspares₁, hcomes⟩ := hon u' hspares hlook
          rcases hcomes with ⟨u₁, t, hu₁, hrun, hplace, hhas, hspares₂⟩ | ⟨hrefused, -⟩
          · obtain rfl : u = u₁ := by
              rw [hout] at hu₁
              exact Outcome.value.inj hu₁
            refine ⟨t, hstart.trans hrun, hhas, hplace, hspares₁.trans hspares₂ (fun _ h => h.elim) ?_⟩
            rintro b rfl
            exact .inr hval
          · rw [hout] at hrefused
            cases hrefused
      exact ⟨u, b, t, rfl, heval, hresult⟩
  | refused =>
      right
      obtain ⟨u, hstack, hlook, hspares⟩ := stackObj_run s.store
      obtain ⟨t₁, hstart, -, hcomes⟩ := hon u hspares hlook
      rcases hcomes with ⟨u₁, -, hu₁, -⟩ | ⟨-, e, t, hrun⟩
      · rw [hout] at hu₁
        cases hu₁
      · refine ⟨rfl, e, t, ?_⟩
        exact nspEval_error hstack (hstart.trans hrun)
  | undefined =>
      obtain ⟨u, hstack, hlook, hspares⟩ := stackObj_run s.store
      obtain ⟨t₁, -, -, hcomes⟩ := hon u hspares hlook
      rcases hcomes with ⟨u₁, -, hu₁, -⟩ | ⟨hrefused, -⟩
      · rw [hout] at hu₁
        cases hu₁
      · rw [hout] at hrefused
        cases hrefused

end

end NullG.Nsp.Arithmetic
