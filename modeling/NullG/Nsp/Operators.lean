/-
The operators on nulls, booleans, numbers and strings (`n_evalop` of `parser.c`).

`Scalar` is what such a value is, and `Scalar.evalop` what an operator makes of two of them. `nEvalop_run` says that
`n_evalop` does so in every memory: it leaves the result in the object at the left, it raises an error, or it comes to
an operation of two `int`s that has no result. The type at the left decides which code runs, and what the value at the
right is converted to.
-/

import NullG.Nsp.Registers

namespace NullG.Nsp

open NullG.Lib

/-! ### Values -/

/-- A value that is no table, function or foreign data. -/
inductive Scalar where
  | null
  | boolean (b : Bool)
  | number (q : Num)
  | string (b : List Byte)
  deriving DecidableEq

namespace Scalar

/-- `nsp_typeof`. -/
def type : Scalar → Ty
  | null => .null
  | boolean _ => .boolean
  | number _ => .number
  | string _ => .string

/-- `nsp_tobool`. -/
def tobool : Scalar → Bool
  | null => false
  | boolean b => b
  | number q => q ≠ 0
  | string b => b.length ≠ 0

/-- `nsp_tonum`. -/
def tonum : Scalar → Num
  | null => 0
  | boolean b => if b then 1 else 0
  | number q => q
  | string b => nAton (cstr b)

/-- `nsp_tostr`. -/
def tostr : Scalar → List Byte
  | null => bytes "null"
  | boolean b => if b then bytes "true" else bytes "false"
  | number q => nNtoa q true 6
  | string b => cstr b

end Scalar

/-- `nsp_strmul`. -/
def strmul (b : List Byte) (n : Nat) : List Byte := if n < 2 then b else (List.replicate n b).flatten

/-! ### Operators -/

/-- How an operator ends: with a value, with an error, or where C has no result. -/
inductive Outcome where
  | value (x : Scalar)
  | refused
  | undefined
  deriving DecidableEq

/-- The rest of an evaluation, from a value on. -/
def Outcome.andThen (out : Outcome) (f : Scalar → Outcome) : Outcome :=
  match out with
  | .value x => f x
  | .refused => .refused
  | .undefined => .undefined

theorem Outcome.andThen_value (out : Outcome) : out.andThen .value = out := by
  cases out <;> rfl

/-- A truth value, or an error. -/
def Outcome.truth : Option Bool → Outcome
  | some b => .value (.boolean b)
  | none => .refused

/-- The operators with a null at one side: `n` tells that the other side is null, and `t` whether it is true. -/
def nullOp (op : Byte) (n t : Bool) : Option Bool :=
  if op = opMceeq ∨ op = opMceq then some n
  else if op = opMcne then some (!n)
  else if op = opMland then some false
  else if op = opMlor then some t
  else none

/-- The operators on two truth values. -/
def boolOp (op : Byte) (a b : Bool) : Option Bool :=
  if op = opMceeq ∨ op = opMceq then some (a == b)
  else if op = opMcne then some (a != b)
  else if op = opMland then some (a && b)
  else if op = opMlor then some (a || b)
  else none

/-- The operators of which there is only `==`. -/
def equalOp (op : Byte) (r : Bool) : Option Bool := if op = opMceeq ∨ op = opMceq then some r else none

/-- The operators on two strings, by the result of `nc_strcmp`. -/
def cmpOp (op : Byte) (cmp : Int) : Option Bool :=
  if op = opMceeq ∨ op = opMceq then some (cmp = 0)
  else if op = opMcne then some (cmp ≠ 0)
  else if op = opMcle then some (cmp ≤ 0)
  else if op = opMcge then some (0 ≤ cmp)
  else if op = opMclt then some (cmp < 0)
  else if op = opMcgt then some (0 < cmp)
  else none

/-- What two numbers come to. -/
def Outcome.ofNum : Except Fault NumResult → Outcome
  | .ok (.bool b) => .value (.boolean b)
  | .ok (.num q) => .value (.number q)
  | .ok .null => .value .null
  | .ok .unhandled => .refused
  | .error _ => .undefined

/-- The operators on two strings. -/
def stringOp (op : Byte) (a b : List Byte) : Outcome :=
  if op = opMadd then .value (.string (a ++ b)) else .truth (cmpOp op (nameCmp (cstr a) (cstr b)))

/-- `n_evalop` with no null at its right. -/
def Scalar.evalopWith (op : Byte) : Scalar → Scalar → Outcome
  | .null, y => .truth (nullOp op false (y.tonum ≠ 0))
  | .boolean a, .null => .truth (boolOp op a false)
  | .boolean a, .boolean b => .truth (boolOp op a b)
  | .boolean a, .number b => .truth (boolOp op a (b ≠ 0))
  | .boolean a, .string b => .truth (equalOp op (a && cstr b != []))
  | .number _, .null => .refused
  | .number a, .boolean b => .truth (equalOp op ((a ≠ 0) == b))
  | .number a, .number b => .ofNum (numOp op a b)
  | .number a, .string b => .ofNum (numOp op a (nAton (cstr b)))
  | .string _, .null => .refused
  | .string a, .boolean b => .truth (equalOp op ((cstr a != []) == b))
  | .string a, .number b =>
      if op = opMmul then .value (.string (strmul a (if b < 0 then 0 else (Num.toInt b).toNat)))
      else stringOp op a (nNtoa b false 6)
  | .string a, .string b => stringOp op a b

/-- `n_evalop`. -/
def Scalar.evalop (op : Byte) (x y : Scalar) : Outcome :=
  if op = opMceeq ∧ x.type ≠ y.type then .value (.boolean false)
  else if y = .null then .truth (nullOp op (x = .null) (x ≠ .null ∧ x.tobool))
  else x.evalopWith op y

/-! ### Values in memory -/

/-- A value is `x`. -/
def Val.Is (y : Val) : Scalar → Prop
  | .null => y.type = .null
  | .boolean b => y.type = .boolean ∧ y.d = .num (if b then 1 else 0)
  | .number q => y.type = .number ∧ y.d = .num q
  | .string b => y.type = .string ∧ y.size = b.length ∧ ∃ str, y.d.asStr = .ok str ∧ str.getD [] = b

/-- The object `o` has the value `x` at `v`. -/
structure Has (s : Store) (o : ObjId) (v : ValId) (x : Scalar) : Prop where
  val : ∃ y, s.look o = .ok (v, y) ∧ y.ztable = none ∧ y.Is x
  notNull : v ≠ nullVal

/-- A value that is no string has no length, and a null has no data. -/
def Val.Clean (y : Val) : Prop := y.type = .string ∨ (y.size = 0 ∧ (y.type = .null → y.d = .num 0))

/-- A null value on the stack that holds nothing. -/
structure Void (y : Val) : Prop where
  type : y.type = .null
  size : y.size = 0
  d : y.d = .num 0
  ztable : y.ztable = none
  stack : y.stackval = true

/-- The value at `v` is still there, on the stack or not as it was, and is clean if it was. -/
def Tidy (s t : Store) (v : ValId) : Prop :=
  ∀ y, s.vals.get v = some y → ∃ z, t.vals.get v = some z ∧ z.stackval = y.stackval ∧ (y.Clean → z.Clean)

/-- The value `x` was stored in the object `c`, at `v`, which is tidy. -/
structure Fills (s : Store) (c : ObjId) (v : ValId) (x : Scalar) (t : Store) : Prop where
  has : Has t c v x
  spares : Spares noCell (· = v) s t
  tidy : Tidy s t v

/-- A run ends as `out` says, with a result in the object `c`, and touches nothing but `c` and the value `w`. -/
def Outcome.Ends (out : Outcome) (s : Store) (c : ObjId) (v w : ValId) (r : EStateM.Result Fault Store Unit) : Prop :=
  match out with
  | .value x => ∃ t, r = .ok () t ∧ Has t c v x ∧ Spares noCell (fun a => a = v ∨ a = w) s t
  | .refused => ∃ e t, r = .error (.raised e) t
  | .undefined => ∃ e t, r = .error e t ∧ ∀ e', e ≠ .raised e'

/-- The same, where the object at the right is left with a value, too, which is tidy. -/
def Outcome.Leaves (out : Outcome) (s : Store) (c : ObjId) (v : ValId) (n : ObjId) (w : ValId)
    (r : EStateM.Result Fault Store Unit) : Prop :=
  match out with
  | .value x => ∃ t y, r = .ok () t ∧ Has t c v x ∧ Has t n w y ∧ Spares noCell (fun a => a = v ∨ a = w) s t ∧
      Tidy s t w
  | .refused => ∃ e t, r = .error (.raised e) t
  | .undefined => ∃ e t, r = .error e t ∧ ∀ e', e ≠ .raised e'

section

variable {s t : Store} {o c n : ObjId} {v w : ValId} {x y : Scalar} {op : Byte}

theorem Val.Is.type {z : Val} (h : z.Is x) : z.type = x.type := by
  cases x with
  | null => exact h
  | boolean b => exact h.1
  | number q => exact h.1
  | string b => exact h.1

theorem Val.Is.plain {z : Val} (h : z.Is x) (hz : z.ztable = none) : z.Plain := by
  refine ⟨?_, ?_, hz⟩
  · rw [h.type]
    cases x <;> exact Ty.noConfusion
  · rw [h.type]
    cases x <;> exact Ty.noConfusion

theorem Void.plain {z : Val} (h : Void z) : z.Plain := by
  refine ⟨?_, ?_, h.ztable⟩
  · rw [h.type]
    exact Ty.noConfusion
  · rw [h.type]
    exact Ty.noConfusion

theorem stackVal_void : Void stackVal := ⟨rfl, rfl, rfl, rfl, rfl⟩

theorem Tidy.refl (s : Store) (v : ValId) : Tidy s s v := fun y hy => ⟨y, hy, rfl, id⟩

theorem Tidy.trans {u : Store} (h : Tidy s t v) (h' : Tidy t u v) : Tidy s u v := by
  intro y hy
  obtain ⟨z, hz, hstack, hclean⟩ := h y hy
  obtain ⟨z', hz', hstack', hclean'⟩ := h' z hz
  exact ⟨z', hz', hstack'.trans hstack, fun h => hclean' (hclean h)⟩

theorem Spares.tidy {O : ObjId → Prop} {W : ValId → Prop} (h : Spares O W s t) (hv : ¬ W v) : Tidy s t v :=
  fun y hy => ⟨y, h.vals hv hy, rfl, id⟩

theorem Val.retyped_clean {y : Val} (h : y.Clean) (type : Ty) : (y.retyped type).Clean := by
  unfold Val.retyped Val.freed
  split
  · rename_i hnull
    obtain ⟨hsize, hd⟩ := h.resolve_left (by rw [hnull]; exact Ty.noConfusion)
    exact .inr ⟨hsize, fun _ => hd hnull⟩
  · exact .inr ⟨rfl, fun _ => rfl⟩

theorem Sets.tidy {y z : Val} (h : Sets s o v z t) (hlook : s.look o = .ok (v, y)) (hstack : z.stackval = y.stackval)
    (hclean : y.Clean → z.Clean) : Tidy s t v := by
  intro y' hy'
  obtain rfl : y = y' := Option.some.inj ((Store.ptr_of_look hlook).2.symm.trans hy')
  exact ⟨z, (Store.ptr_of_look h.look).2, hstack, hclean⟩

theorem tidy_write {y : Val} {f : Val → Val} (h : s.look o = .ok (v, y)) (hstack : (f y).stackval = y.stackval)
    (hclean : y.Clean → (f y).Clean) : Tidy s (s.write o v f) v :=
  (sets_write (f := f) h rfl).tidy h hstack hclean

theorem Outcome.Leaves.ends {out : Outcome} {r : EStateM.Result Fault Store Unit} (h : out.Leaves s c v n w r) :
    out.Ends s c v w r := by
  cases out with
  | value x =>
      obtain ⟨t, y, hr, hc, -, hspares, -⟩ := h
      exact ⟨t, hr, hc, hspares⟩
  | refused => exact h
  | undefined => exact h

/-- A value that is not touched is still there. -/
theorem Has.spares {O : ObjId → Prop} {W : ValId → Prop} (h : Has s o v x) (hs : Spares O W s t) (ho : ¬ O o)
    (hv : ¬ W v) : Has t o v x := by
  obtain ⟨⟨z, hlook, hz, hx⟩, hnull⟩ := h
  exact ⟨⟨z, hs.look ho hv hlook, hz, hx⟩, hnull⟩

theorem Has.typeOf (h : Has s o v x) : (NullG.Nsp.typeOf o).run s = .ok x.type s := by
  obtain ⟨⟨z, hlook, -, hx⟩, -⟩ := h
  rw [typeOf_run hlook, hx.type]

theorem Has.isnull (h : Has s o v x) : (nspIsnull o).run s = .ok (x == .null) s := by
  unfold nspIsnull
  rw [Action.run_bind_ok h.typeOf]
  cases x <;> rfl

theorem Has.istable (h : Has s o v x) : (nspIstable o).run s = .ok false s := by
  unfold nspIstable
  rw [Action.run_bind_ok h.typeOf]
  cases x <;> rfl

theorem Has.getNum {q : Num} (h : Has s o v (.number q)) : (NullG.Nsp.getNum o).run s = .ok q s := by
  obtain ⟨⟨z, hlook, -, -, hd⟩, -⟩ := h
  exact getNum_run hlook hd

theorem Has.getNum_boolean {b : Bool} (h : Has s o v (.boolean b)) :
    (NullG.Nsp.getNum o).run s = .ok (if b then 1 else 0) s := by
  obtain ⟨⟨z, hlook, -, -, hd⟩, -⟩ := h
  exact getNum_run hlook hd

theorem Has.getCstr {b : List Byte} (h : Has s o v (.string b)) : (NullG.Nsp.getCstr o).run s = .ok (cstr b) s := by
  obtain ⟨⟨z, hlook, -, -, -, str, hstr, rfl⟩, -⟩ := h
  unfold NullG.Nsp.getCstr
  rw [Action.run_bind_ok (getVal_run hlook), Action.run_bind_ok (member_of_eq hstr)]
  rfl

theorem Has.tobool (h : Has s o v x) : (nspTobool o).run s = .ok x.tobool s := by
  unfold nspTobool
  rw [Action.run_bind_ok h.typeOf]
  obtain ⟨⟨z, hlook, -, hx⟩, -⟩ := h
  cases x with
  | null => rfl
  | boolean b =>
      dsimp only [Scalar.type]
      rw [Action.run_bind_ok (getVal_run hlook), hx.2]
      cases b <;> rfl
  | number q =>
      dsimp only [Scalar.type]
      rw [Action.run_bind_ok (getVal_run hlook), hx.2]
      rfl
  | string b =>
      dsimp only [Scalar.type]
      rw [Action.run_bind_ok (getVal_run hlook), hx.2.1]
      rfl

theorem Has.tonum (h : Has s o v x) : (nspTonum o).run s = .ok x.tonum s := by
  unfold nspTonum
  rw [Action.run_bind_ok h.typeOf]
  obtain ⟨⟨z, hlook, -, hx⟩, -⟩ := h
  cases x with
  | null => rfl
  | boolean b =>
      dsimp only [Scalar.type]
      rw [Action.run_bind_ok (getVal_run hlook), hx.2]
      cases b <;> rfl
  | number q =>
      dsimp only [Scalar.type]
      rw [Action.run_bind_ok (getVal_run hlook), hx.2]
      rfl
  | string b =>
      obtain ⟨-, -, str, hstr, rfl⟩ := hx
      dsimp only [Scalar.type]
      rw [Action.run_bind_ok (getVal_run hlook), Action.run_bind_ok (member_of_eq hstr)]
      rfl

theorem Has.tostr (h : Has s o v x) : (nspTostr o).run s = .ok x.tostr s := by
  unfold nspTostr
  rw [Action.run_bind_ok h.typeOf]
  obtain ⟨⟨z, hlook, -, hx⟩, -⟩ := h
  cases x with
  | null => rfl
  | boolean b =>
      dsimp only [Scalar.type]
      rw [Action.run_bind_ok (getVal_run hlook), hx.2]
      cases b <;> rfl
  | number q =>
      dsimp only [Scalar.type]
      rw [Action.run_bind_ok (getVal_run hlook), hx.2]
      rfl
  | string b =>
      obtain ⟨-, -, str, hstr, rfl⟩ := hx
      dsimp only [Scalar.type]
      rw [Action.run_bind_ok (getVal_run hlook), Action.run_bind_ok (member_of_eq hstr)]
      rfl

/-- `nsp_setvaltype`: what is left has a type only. -/
theorem Has.setvaltype (h : Has s o v x) (type : Ty) (htype : type ≠ .table) :
    ∃ t z, (nspSetvaltype o type).run s = .ok () t ∧ Sets s o v z t ∧ z.type = type ∧ z.ztable = none ∧
      (x.type ≠ .null → z.size = 0 ∧ z.d = .num 0) := by
  obtain ⟨⟨z, hlook, hz, hx⟩, hnull⟩ := h
  obtain ⟨t, hrun, hsets⟩ := nspSetvaltype_run hlook hnull (hx.plain hz) htype
  refine ⟨t, _, hrun, hsets, rfl, (Val.freed_ztable z).trans hz, ?_⟩
  intro hne
  rw [← hx.type] at hne
  unfold Val.retyped Val.freed
  rw [if_neg hne]
  exact ⟨rfl, rfl⟩

theorem Has.setvaltype_tidy {type : Ty} (h : Has s o v x) (htype : type ≠ .table)
    (hrun : (nspSetvaltype o type).run s = .ok () t) : Tidy s t v := by
  obtain ⟨⟨z, hlook, hz, hx⟩, hv⟩ := h
  obtain ⟨t', hrun', hsets⟩ := nspSetvaltype_run hlook hv (hx.plain hz) htype
  rw [hrun] at hrun'
  cases hrun'
  exact hsets.tidy hlook (Val.freed_stackval z) fun h => Val.retyped_clean h type

/-- `cobj->val->d.num = b ? 1 : 0` in a value of type boolean. -/
theorem setTruth_has {z : Val} (h : s.look o = .ok (v, z)) (hv : v ≠ nullVal) (htype : z.type = .boolean)
    (hz : z.ztable = none) (b : Bool) :
    ∃ t, (setTruth o b).run s = .ok () t ∧ Has t o v (.boolean b) ∧ Spares noCell (· = v) s t := by
  refine ⟨_, setTruth_run h b, ⟨⟨_, look_write_self h _ o, hz, htype, rfl⟩, hv⟩, frame_write s o v _⟩

end

/-! ### Runs of `n_evalop` -/

section

variable {s t : Store} {o c n : ObjId} {v w : ValId} {x y : Scalar} {op : Byte}

/-- An action that ends with an error of the script, whatever the value at the left is by then. -/
def Refuses (c : ObjId) (v w : ValId) (n : ObjId) (y : Scalar) (rest : H Unit) : Prop :=
  ∀ t z, t.look c = .ok (v, z) → z.Plain → Has t n w y → ∃ e u, rest.run t = .error (.raised e) u

theorem unhandled_raises {type type' : Ty} (hc : (typeOf c).run s = .ok type s) (hn : (typeOf n).run s = .ok type' s) :
    ∃ e u, (unhandled c op n).run s = .error (.raised e) u := by
  unfold unhandled
  rw [Action.run_bind_ok hc, Action.run_bind_ok hn]
  exact ⟨_, s, rfl⟩

theorem unhandled_refuses (op : Byte) : Refuses c v w n y (unhandled c op n) :=
  fun _ _ hc _ hn => unhandled_raises (typeOf_run hc) hn.typeOf

/-- The end of `n_evalop` with a null at its right: the value at the left is gone. -/
theorem unlink_refuses (op : Byte) (hcn : c ≠ n) (hvw : v ≠ w) (hv : v ≠ nullVal) :
    Refuses c v w n y (do nspUnlinkval c; unhandled c op n) := by
  intro t z hlook hz hn
  obtain ⟨u, hrun, ⟨⟨x', hx', hval⟩, hframe⟩, -⟩ := nspUnlinkval_run hlook hv hz.light
  rw [Action.run_bind_ok hrun]
  have hc : (typeOf c).run u = .ok .null u := by
    unfold typeOf
    refine Action.run_require_ok ?_
    rw [hx']
    dsimp only
    rw [hval]
  exact unhandled_raises hc (hn.spares hframe (Ne.symm hcn) (Ne.symm hvw)).typeOf

/-- A run that touches the value at the left only. -/
theorem spares_left {W : ValId → Prop} (h : Spares noCell W s t) (hW : ∀ a, W a → a = v) :
    Spares noCell (fun a => a = v ∨ a = w) s t := h.mono (fun _ h => h) fun a ha => .inl (hW a ha)

theorem leaves_left {r : EStateM.Result Fault Store Unit} (hn : Has s n w y) (hvw : v ≠ w) (hr : r = .ok () t)
    (hc : Has t c v x) (hspares : Spares noCell (· = v) s t) : (Outcome.value x).Leaves s c v n w r :=
  ⟨t, y, hr, hc, hn.spares hspares id (Ne.symm hvw), spares_left hspares fun _ h => h, hspares.tidy (Ne.symm hvw)⟩

/-- A truth value in a value of type boolean, or an error. -/
theorem setTruth_leaves {z : Val} (hc : s.look c = .ok (v, z)) (hv : v ≠ nullVal) (htype : z.type = .boolean)
    (hz : z.ztable = none) (hn : Has s n w y) (hvw : v ≠ w) {rest : H Unit} (hrest : Refuses c v w n y rest)
    (r : Option Bool) : (Outcome.truth r).Leaves s c v n w
      ((match r with | some b => setTruth c b | none => rest : H Unit).run s) := by
  cases r with
  | some b =>
      obtain ⟨u, hrun, hhas, hspares⟩ := setTruth_has hc hv htype hz b
      exact leaves_left hn hvw hrun hhas hspares
  | none =>
      refine hrest s z hc ⟨?_, ?_, hz⟩ hn
      · rw [htype]
        exact Ty.noConfusion
      · rw [htype]
        exact Ty.noConfusion

/-- What runs behind a part that has touched the two values only. -/
theorem Outcome.Leaves.after {out : Outcome} {r : EStateM.Result Fault Store Unit} (h : out.Leaves t c v n w r)
    (hst : Spares noCell (fun a => a = v ∨ a = w) s t) (hw : Tidy s t w) : out.Leaves s c v n w r := by
  cases out with
  | value x =>
      obtain ⟨u, y, hr, hc, hn, hspares, hw'⟩ := h
      exact ⟨u, y, hr, hc, hn, hst.trans hspares (fun _ h => h.elim) fun _ h => .inl h, hw.trans hw'⟩
  | refused => exact h
  | undefined => exact h

/-- What runs behind a part that has touched the value at the left only. -/
theorem Outcome.Leaves.after_left {out : Outcome} {r : EStateM.Result Fault Store Unit} (h : out.Leaves t c v n w r)
    (hst : Spares noCell (· = v) s t) (hvw : v ≠ w) : out.Leaves s c v n w r :=
  h.after (spares_left hst fun _ h => h) (hst.tidy (Ne.symm hvw))

/-- A truth value, or an error, behind the change of the type. -/
theorem Has.retyped_leaves (hc : Has s c v x) (hn : Has s n w y) (hvw : v ≠ w) {rest : H Unit}
    (hrest : Refuses c v w n y rest) (r : Option Bool) : (Outcome.truth r).Leaves s c v n w
      ((do nspSetvaltype c .boolean; match r with | some b => setTruth c b | none => rest : H Unit).run s) := by
  obtain ⟨t, z, hrun, hsets, htype, hz, -⟩ := hc.setvaltype .boolean Ty.noConfusion
  rw [Action.run_bind_ok hrun]
  have hn' := hn.spares hsets.frame (fun h => h.elim) (Ne.symm hvw)
  exact (setTruth_leaves hsets.look hc.notNull htype hz hn' hvw hrest r).after_left hsets.frame hvw

/-! #### By the type at the left -/

theorem evalopNull_leaves (hc : Has s c v x) (hn : Has s n w .null) (hcn : c ≠ n) (hvw : v ≠ w) :
    (Outcome.truth (nullOp op (x = .null) (x ≠ .null ∧ x.tobool))).Leaves s c v n w ((evalopNull c op n).run s) := by
  have hchain : (do
      nspSetvaltype c .boolean
      if op = opMceeq ∨ op = opMceq then setTruth c (x == .null)
      else if op = opMcne then setTruth c (!(x == .null))
      else if op = opMland then setTruth c false
      else if op = opMlor then setTruth c (!(x == .null) && x.tobool)
      else do nspUnlinkval c; unhandled c op n : H Unit) = (do
      nspSetvaltype c .boolean
      match nullOp op (x = .null) (x ≠ .null ∧ x.tobool) with
      | some b => setTruth c b
      | none => do nspUnlinkval c; unhandled c op n) := by
    have hlor : (!(x == .null) && x.tobool) = decide (x ≠ .null ∧ x.tobool) := by
      cases x <;> simp
    unfold nullOp
    rw [hlor]
    split_ifs <;> rfl
  unfold evalopNull
  rw [Action.run_bind_ok hc.isnull, Action.run_bind_ok hc.tobool, Action.run_bind_ok hc.istable]
  have hleaves := hc.retyped_leaves hn hvw (unlink_refuses op hcn hvw hc.notNull)
    (nullOp op (x = .null) (x ≠ .null ∧ x.tobool))
  rw [← hchain] at hleaves
  exact hleaves

theorem evalopFromNull_leaves (hc : Has s c v .null) (hn : Has s n w y) (hvw : v ≠ w) :
    (Outcome.truth (nullOp op false (y.tonum ≠ 0))).Leaves s c v n w ((evalopFromNull c op n).run s) := by
  obtain ⟨t, z, hrun, hsets, htype, hz, -⟩ := hc.setvaltype .boolean Ty.noConfusion
  have hn' := hn.spares hsets.frame (fun h => h.elim) (Ne.symm hvw)
  have hleaves := (setTruth_leaves hsets.look hc.notNull htype hz hn' hvw (unhandled_refuses op)
    (nullOp op false (y.tonum ≠ 0))).after_left hsets.frame hvw
  unfold evalopFromNull
  rw [Action.run_bind_ok hrun]
  unfold nullOp at hleaves ⊢
  split_ifs at hleaves ⊢
  · exact hleaves
  · exact hleaves
  · exact hleaves
  · rw [Action.run_bind_ok hn'.tonum]
    exact hleaves
  · exact hleaves

theorem boolean_ne_zero (b : Bool) : decide ((if b then 1 else 0 : Num) ≠ 0) = b := by
  cases b <;> rfl

/-- `n_evalop` on a boolean and a value that is a number in memory. -/
theorem evalopBoolean_num {a b : Bool} {q : Num} {type : Ty} (hc : Has s c v (.boolean a)) (hn : Has s n w y)
    (hvw : v ≠ w) (hq : (getNum n).run s = .ok q s) (hb : decide (q ≠ 0) = b)
    (htype : type = .number ∨ type = .boolean) :
    (Outcome.truth (boolOp op a b)).Leaves s c v n w ((evalopBoolean c op n type).run s) := by
  have ha := boolean_ne_zero a
  have hchain : (evalopBoolean c op n type).run s =
      ((match boolOp op a b with | some r => setTruth c r | none => unhandled c op n : H Unit).run s) := by
    unfold evalopBoolean boolOp
    rw [Action.run_bind_ok hc.getNum_boolean]
    rcases htype with rfl | rfl
    all_goals
      dsimp only
      rw [Action.run_bind_ok hq, Bool.decide_and, Bool.decide_or, ha, hb]
      split_ifs <;> rfl
  rw [hchain]
  obtain ⟨⟨z, hlook, hz, hx⟩, hnull⟩ := hc
  exact setTruth_leaves hlook hnull hx.1 hz hn hvw (unhandled_refuses op) _

theorem evalopBoolean_leaves {a : Bool} (hc : Has s c v (.boolean a)) (hn : Has s n w y) (hvw : v ≠ w)
    (hy : y ≠ .null) : (Scalar.evalopWith op (.boolean a) y).Leaves s c v n w
      ((evalopBoolean c op n y.type).run s) := by
  cases y with
  | null => exact absurd rfl hy
  | boolean b => exact evalopBoolean_num hc hn hvw hn.getNum_boolean (boolean_ne_zero b) (.inr rfl)
  | number q => exact evalopBoolean_num hc hn hvw hn.getNum rfl (.inl rfl)
  | string b =>
      have hchain : (evalopBoolean c op n .string).run s = ((match equalOp op (a && cstr b != []) with
          | some r => setTruth c r | none => unhandled c op n : H Unit).run s) := by
        unfold evalopBoolean equalOp
        rw [Action.run_bind_ok hc.getNum_boolean]
        dsimp only
        by_cases hop : op = opMceeq ∨ op = opMceq
        · rw [if_pos hop, if_pos hop, Action.run_bind_ok hn.getCstr, Bool.decide_and, boolean_ne_zero]
          have hb : decide (cstr b ≠ []) = (cstr b != []) := by cases cstr b <;> rfl
          rw [hb]
        · rw [if_neg hop, if_neg hop]
      obtain ⟨⟨z, hlook, hz, hx⟩, hnull⟩ := hc
      show Outcome.Leaves _ s c v n w ((evalopBoolean c op n .string).run s)
      rw [hchain]
      exact setTruth_leaves hlook hnull hx.1 hz hn hvw (unhandled_refuses op) _

theorem else_error {α : Type} {p : Prop} [Decidable p] {r : α} {x : Except Fault α} {e : Fault}
    (h : (if p then .ok r else x) = .error e) : x = .error e := by
  by_cases hp : p
  · rw [if_pos hp] at h
    cases h
  · rwa [if_neg hp] at h

theorem shiftOp_error {f : BitVec 32 → Nat → BitVec 32} {a b : Num} {e : Fault} (h : shiftOp f a b = .error e) :
    e = .arithmetic := by
  cases else_error h
  rfl

/-- The operators on numbers have a result, or C has none. -/
theorem numOp_error {a b : Num} {e : Fault} (h : numOp op a b = .error e) : e = .arithmetic := by
  unfold numOp at h
  iterate 12 replace h := else_error h
  by_cases hmod : op = opMmod
  · rw [if_pos hmod] at h
    replace h := else_error h
    split_ifs at h
    cases h
    rfl
  · rw [if_neg hmod] at h
    iterate 3 replace h := else_error h
    split_ifs at h
    · exact shiftOp_error h
    · exact shiftOp_error h

/-- A value that is changed at its place. -/
theorem modVal_gives {z : Val} {f : Val → Val} {u : Scalar} (h : s.look c = .ok (v, z)) (hv : v ≠ nullVal)
    (hn : Has s n w y) (hvw : v ≠ w) (hz : (f z).ztable = none) (hu : (f z).Is u) :
    (Outcome.value u).Leaves s c v n w ((modVal c f).run s) :=
  leaves_left hn hvw (modVal_write h f) ⟨⟨_, look_write_self h f c, hz, hu⟩, hv⟩ (frame_write s c v f)

theorem evalopNumbers_leaves {a b : Num} (hc : Has s c v (.number a)) (hn : Has s n w (.number b)) (hvw : v ≠ w) :
    (Outcome.ofNum (numOp op a b)).Leaves s c v n w ((evalopNumbers c op n).run s) := by
  unfold evalopNumbers
  rw [Action.run_bind_ok hc.getNum, Action.run_bind_ok hn.getNum]
  cases hop : numOp op a b with
  | error e =>
      refine ⟨e, s, rfl, ?_⟩
      intro e' he
      rw [numOp_error hop] at he
      cases he
  | ok r =>
      have hr : (member (.ok r)).run s = .ok r s := rfl
      rw [Action.run_bind_ok hr]
      have hctype := hc.typeOf
      obtain ⟨⟨z, hlook, hz, hx⟩, hnull⟩ := hc
      cases r with
      | bool b =>
          have hb : Val.Is { z with type := .boolean, d := .num (if b then 1 else 0) } (.boolean b) := ⟨rfl, rfl⟩
          exact modVal_gives hlook hnull hn hvw hz hb
      | num q =>
          have hq : Val.Is { z with d := .num q } (.number q) := ⟨hx.1, rfl⟩
          exact modVal_gives hlook hnull hn hvw hz hq
      | null =>
          have hq : Val.Is { z with type := .null } .null := rfl
          exact modVal_gives hlook hnull hn hvw hz hq
      | unhandled => exact unhandled_raises hctype hn.typeOf

/-- The bytes of a string that is not NULL. -/
theorem member_str (s : Store) (a : List Byte) :
    (member ((Except.ok (some a) : Except Fault (Option (List Byte))).map (·.getD []))).run s = .ok a s := rfl

theorem member_same {α : Type} {r : Except Fault α} {a : α} (h : (member r).run s = .ok a t) : t = s := by
  cases r with
  | ok b =>
      rw [member_run] at h
      cases h
      rfl
  | error e => cases h

/-- `nsp_strcat` to a string. -/
theorem strcat_has {z : Val} {a : List Byte} (h : s.look o = .ok (v, z)) (hv : v ≠ nullVal) (htype : z.type = .string)
    (hz : z.ztable = none) (hsize : z.size = a.length) (ha : a = [] ∨ z.d.asStr = .ok (some a)) (b : List Byte)
    (hb : b ≠ []) : ∃ t, (nspStrcat o b).run s = .ok () t ∧ Has t o v (.string (a ++ b)) ∧
      Spares noCell (· = v) s t := by
  have hnew : ∀ old : List Byte, old.take z.size = a → ∃ t,
      (modVal o fun y => { y with size := y.size + b.length, d := .str (old.take y.size ++ b) }).run s = .ok () t ∧
      Has t o v (.string (a ++ b)) ∧ Spares noCell (· = v) s t := by
    intro old hold
    refine ⟨_, modVal_write h _, ⟨⟨_, look_write_self h _ o, hz, htype, ?_, _, rfl, ?_⟩, hv⟩, frame_write s o v _⟩
    · dsimp only
      rw [hsize]
      exact List.length_append.symm
    · rw [hold]
      rfl
  have hlength : ¬ b.length < 1 := by
    rw [Nat.lt_one_iff, List.length_eq_zero_iff]
    exact hb
  unfold nspStrcat
  rw [Action.run_bind_ok (typeOf_run h), if_pos (.inl htype), if_neg hlength, Action.run_bind_ok (getVal_run h)]
  dsimp only
  by_cases hzero : z.size = 0
  · rw [if_pos hzero]
    refine hnew [] ?_
    rw [hsize] at hzero
    rw [List.length_eq_zero_iff.mp hzero]
    exact List.take_nil
  · have ha' : z.d.asStr = .ok (some a) := by
      refine ha.resolve_left ?_
      rintro rfl
      exact hzero hsize
    rw [if_neg hzero, ha', Action.run_bind_ok (member_str s a)]
    refine hnew a ?_
    rw [hsize, List.take_length]

/-- The length and the bytes of a string. -/
theorem Val.Is.string {z : Val} {a : List Byte} (h : z.Is (.string a)) : a = [] ∨ z.d.asStr = .ok (some a) := by
  obtain ⟨-, -, str, hstr, rfl⟩ := h
  cases str with
  | none => exact .inl rfl
  | some a => exact .inr hstr

theorem Has.strcat {a : List Byte} (h : Has s o v (.string a)) (b : List Byte) :
    ∃ t, (nspStrcat o b).run s = .ok () t ∧ Has t o v (.string (a ++ b)) ∧ Spares noCell (· = v) s t := by
  by_cases hb : b = []
  · subst hb
    refine ⟨s, ?_, by rwa [List.append_nil], Spares.refl s⟩
    unfold nspStrcat
    rw [Action.run_bind_ok h.typeOf]
    rfl
  · obtain ⟨⟨z, hlook, hz, hx⟩, hnull⟩ := h
    exact strcat_has hlook hnull hx.1 hz hx.2.1 hx.string b hb

/-- `nsp_strmul` of a string. -/
theorem Has.strmul {a : List Byte} (h : Has s o v (.string a)) (k : Nat) :
    ∃ t, (nspStrmul o k).run s = .ok () t ∧ Has t o v (.string (strmul a k)) ∧ Spares noCell (· = v) s t := by
  unfold nspStrmul NullG.Nsp.strmul
  rw [Action.run_bind_ok h.typeOf]
  by_cases hk : k < 2
  · rw [if_pos (.inr hk), if_pos hk]
    exact ⟨s, rfl, h, Spares.refl s⟩
  obtain ⟨⟨z, hlook, hz, hx⟩, hnull⟩ := h
  have hnew : ∀ old : List Byte, old.take z.size = a → ∃ t,
      (modVal o fun y =>
        { y with size := y.size * k, d := .str ((List.replicate k (old.take y.size)).flatten) }).run s = .ok () t ∧
      Has t o v (.string (List.replicate k a).flatten) ∧ Spares noCell (· = v) s t := by
    intro old hold
    refine ⟨_, modVal_write hlook _, ⟨⟨_, look_write_self hlook _ o, hz, hx.1, ?_, _, rfl, ?_⟩, hnull⟩,
      frame_write s o v _⟩
    · dsimp only
      rw [hx.2.1, Nat.mul_comm]
      simp
    · rw [hold]
      rfl
  have hrepeats : ¬ ((Scalar.string a).type ≠ .string ∨ k < 2) := not_or.mpr ⟨not_not.mpr rfl, hk⟩
  rw [if_neg hrepeats, if_neg hk, Action.run_bind_ok (getVal_run hlook)]
  dsimp only
  by_cases hzero : z.size = 0
  · rw [if_pos hzero]
    refine hnew [] ?_
    rw [List.length_eq_zero_iff.mp (hx.2.1.symm.trans hzero)]
    exact List.take_nil
  · have ha : z.d.asStr = .ok (some a) := by
      refine hx.string.resolve_left ?_
      rintro rfl
      exact hzero hx.2.1
    rw [if_neg hzero, ha, Action.run_bind_ok (member_str s a)]
    refine hnew a ?_
    rw [hx.2.1, List.take_length]

theorem Has.strcat_tidy {a b : List Byte} (h : Has s o v (.string a)) (hrun : (nspStrcat o b).run s = .ok () t) :
    Tidy s t v := by
  unfold nspStrcat at hrun
  rw [Action.run_bind_ok h.typeOf, if_pos (show (Scalar.string a).type = .string ∨ _ from .inl rfl)] at hrun
  obtain ⟨⟨z, hlook, -, hx⟩, -⟩ := h
  by_cases hb : b.length < 1
  · rw [if_pos hb] at hrun
    cases hrun
    exact .refl s v
  · rw [if_neg hb, Action.run_bind_ok (getVal_run hlook)] at hrun
    dsimp only at hrun
    split at hrun
    · obtain ⟨old, u, hold, hrun⟩ := Action.bind_run_eq_ok.mp hrun
      cases hold
      rw [modVal_write hlook] at hrun
      cases hrun
      exact tidy_write hlook rfl fun _ => .inl hx.1
    · obtain ⟨old, u, hold, hwrite⟩ := Action.bind_run_eq_ok.mp hrun
      obtain rfl := member_same hold
      rw [modVal_write hlook] at hwrite
      cases hwrite
      exact tidy_write hlook rfl fun _ => .inl hx.1

/-- A number is stored in place of a value that is no null. -/
theorem Has.setobj_number (h : Has s o v x) (q : Num) :
    ∃ t, (nspSetobj o (some []) (.number q)).run s = .ok o t ∧ Has t o v (.number q) ∧ Spares noCell (· = v) s t := by
  obtain ⟨⟨z, hlook, hz, hx⟩, hnull⟩ := h
  obtain ⟨t, hrun, hsets⟩ := nspSetobj_number (S := .number q) hlook hnull (hx.plain hz) (some []) Ty.noConfusion rfl
  exact ⟨t, hrun, ⟨⟨_, hsets.look, (Val.freed_ztable z).trans hz, rfl, rfl⟩, hnull⟩, hsets.frame⟩

/-- A string is stored in place of a value that is no null. -/
theorem Has.setobj_string (h : Has s o v x) (hx : x ≠ .null) (b : List Byte) :
    ∃ t, (nspSetobj o (some []) (.string b)).run s = .ok o t ∧ Has t o v (.string b) ∧ Spares noCell (· = v) s t := by
  obtain ⟨t, z, hrun, hsets, htype, hz, hempty⟩ := h.setvaltype .string Ty.noConfusion
  obtain ⟨hsize, hd⟩ := hempty (by cases x <;> first | exact Ty.noConfusion | exact fun _ => hx rfl)
  have hnew : Has t o v (.string []) := ⟨⟨z, hsets.look, hz, htype, hsize, none, by rw [hd]; rfl, rfl⟩, h.notNull⟩
  obtain ⟨t', hrun', hhas, hspares⟩ := hnew.strcat b
  refine ⟨t', ?_, hhas, hsets.frame.trans hspares (fun _ h => h.elim) fun _ h => .inl h⟩
  unfold nspSetobj
  rw [Action.run_bind_ok h.istable, if_neg fun h => Bool.noConfusion h.2]
  dsimp only [Setting.type, storeSetting]
  rw [Action.run_bind_ok hrun, Action.run_bind_ok hrun']
  rfl

theorem Has.setobj_boolean (h : Has s o v x) (q : Num) :
    ∃ t, (nspSetobj o (some []) (.boolean q)).run s = .ok o t ∧ Fills s o v (.boolean (q ≠ 0)) t := by
  obtain ⟨⟨z, hlook, hz, hx⟩, hnull⟩ := h
  obtain ⟨t, hrun, hsets⟩ := nspSetobj_number (S := .boolean q) (q := if q ≠ 0 then 1 else 0) hlook hnull (hx.plain hz)
    (some []) Ty.noConfusion rfl
  have hd : (Data.num (if q ≠ 0 then 1 else 0)) = .num (if decide (q ≠ 0) then 1 else 0) := by
    by_cases hq : q = 0
    · rw [if_neg (not_not.mpr hq), decide_eq_false (not_not.mpr hq)]
      rfl
    · rw [if_pos hq, decide_eq_true hq]
      rfl
  refine ⟨t, hrun, ⟨⟨_, hsets.look, (Val.freed_ztable z).trans hz, rfl, hd⟩, hnull⟩, hsets.frame, ?_⟩
  refine hsets.tidy hlook (Val.freed_stackval z) fun h => .inr ⟨?_, fun h => Ty.noConfusion h⟩
  exact ((Val.retyped_clean h .boolean).resolve_left Ty.noConfusion).1

theorem Has.setobj_number_tidy {q : Num} (h : Has s o v x)
    (hrun : (nspSetobj o (some []) (.number q)).run s = .ok o t) : Tidy s t v := by
  obtain ⟨⟨z, hlook, hz, hx⟩, hnull⟩ := h
  obtain ⟨t', hrun', hsets⟩ := nspSetobj_number (S := .number q) hlook hnull (hx.plain hz) (some []) Ty.noConfusion rfl
  rw [hrun] at hrun'
  cases hrun'
  refine hsets.tidy hlook (Val.freed_stackval z) fun h => .inr ⟨?_, fun h => Ty.noConfusion h⟩
  rcases Val.retyped_clean h .number with h | h
  · exact Ty.noConfusion h
  · exact h.1

theorem Has.setobj_string_tidy {b : List Byte} (h : Has s o v x) (hx : x ≠ .null)
    (hrun : (nspSetobj o (some []) (.string b)).run s = .ok o t) : Tidy s t v := by
  obtain ⟨u, z, hset, hsets, htype, hz, hempty⟩ := h.setvaltype .string Ty.noConfusion
  obtain ⟨hsize, hd⟩ := hempty (by cases x <;> first | exact Ty.noConfusion | exact fun _ => hx rfl)
  have hnew : Has u o v (.string []) := ⟨⟨z, hsets.look, hz, htype, hsize, none, by rw [hd]; rfl, rfl⟩, h.notNull⟩
  obtain ⟨u', hcat, -⟩ := hnew.strcat b
  have hrun' : (nspSetobj o (some []) (.string b)).run s = .ok o u' := by
    unfold nspSetobj
    rw [Action.run_bind_ok h.istable, if_neg fun h => Bool.noConfusion h.2]
    dsimp only [Setting.type, storeSetting]
    rw [Action.run_bind_ok hset, Action.run_bind_ok hcat]
    rfl
  rw [hrun] at hrun'
  cases hrun'
  exact (h.setvaltype_tidy Ty.noConfusion hset).trans (hnew.strcat_tidy hcat)

/-- A number is stored in a value that holds nothing. -/
theorem Void.setobj_number {z : Val} (hlook : s.look o = .ok (v, z)) (hv : v ≠ nullVal) (h : Void z)
    (name : Option (List Byte)) (q : Num) :
    ∃ t, (nspSetobj o name (.number q)).run s = .ok o t ∧ Fills s o v (.number q) t := by
  obtain ⟨t, hrun, hsets⟩ := nspSetobj_number (S := .number q) hlook hv h.plain name Ty.noConfusion rfl
  refine ⟨t, hrun, ⟨⟨_, hsets.look, (Val.freed_ztable z).trans h.ztable, rfl, rfl⟩, hv⟩, hsets.frame, ?_⟩
  refine hsets.tidy hlook (Val.freed_stackval z) fun h => .inr ⟨?_, fun h => Ty.noConfusion h⟩
  exact ((Val.retyped_clean h .number).resolve_left Ty.noConfusion).1

/-- A text is stored in a value of type string that holds nothing. -/
theorem Fills.strcat {t : Store} (h : Fills s o v (.string []) t) (b : List Byte) :
    ∃ u, (nspStrcat o b).run t = .ok () u ∧ Fills s o v (.string b) u := by
  obtain ⟨u, hrun, hhas, hspares⟩ := h.has.strcat b
  exact ⟨u, hrun, hhas, h.spares.trans hspares (fun _ h => h.elim) fun _ => .inl,
    h.tidy.trans (h.has.strcat_tidy hrun)⟩

/-- The type of a value that holds nothing is set. -/
theorem Void.retyped_fills {z : Val} {t : Store} {type : Ty} (h : Void z) (hlook : s.look o = .ok (v, z))
    (hsets : Sets s o v (z.retyped type) t) (hv : v ≠ nullVal) {x : Scalar} (hx : (z.retyped type).Is x) :
    Fills s o v x t :=
  ⟨⟨⟨_, hsets.look, (Val.freed_ztable z).trans h.ztable, hx⟩, hv⟩, hsets.frame,
    hsets.tidy hlook (Val.freed_stackval z) fun h => Val.retyped_clean h type⟩

theorem Void.retyped_string {z : Val} (h : Void z) : (z.retyped .string).Is (.string []) := by
  have hfreed : z.freed = z := if_pos h.type
  unfold Val.retyped
  rw [hfreed]
  exact ⟨rfl, h.size, none, by rw [h.d]; rfl, rfl⟩

/-- A string is stored in a value that holds nothing. -/
theorem Void.setobj_string {z : Val} (hlook : s.look o = .ok (v, z)) (hv : v ≠ nullVal) (h : Void z) (b : List Byte) :
    ∃ t, (nspSetobj o (some []) (.string b)).run s = .ok o t ∧ Fills s o v (.string b) t := by
  obtain ⟨t, hrun, hsets⟩ := nspSetvaltype_run hlook hv h.plain (show Ty.string ≠ .table from Ty.noConfusion)
  obtain ⟨u, hcat, hfills⟩ := (h.retyped_fills hlook hsets hv h.retyped_string).strcat b
  refine ⟨u, ?_, hfills⟩
  have hhas : Has s o v .null := ⟨⟨z, hlook, h.ztable, h.type⟩, hv⟩
  unfold nspSetobj
  rw [Action.run_bind_ok hhas.istable, if_neg fun h => Bool.noConfusion h.2]
  dsimp only [Setting.type, storeSetting]
  rw [Action.run_bind_ok hrun, Action.run_bind_ok hcat]
  rfl

/-- A run that touches the value at the right only. -/
theorem spares_right {W : ValId → Prop} (h : Spares noCell W s t) (hW : ∀ a, W a → a = w) :
    Spares noCell (fun a => a = v ∨ a = w) s t := h.mono (fun _ h => h) fun a ha => .inr (hW a ha)

theorem evalopStrings_leaves {a b : List Byte} (hc : Has s c v (.string a)) (hn : Has s n w (.string b))
    (hvw : v ≠ w) : (stringOp op a b).Leaves s c v n w ((evalopStrings c op n).run s) := by
  unfold evalopStrings stringOp
  by_cases hadd : op = opMadd
  · obtain ⟨t, hrun, hhas, hspares⟩ := hc.strcat b
    have hleaves := leaves_left hn hvw hrun hhas hspares
    obtain ⟨⟨z, hlook, -, -, hsize, str, hstr, rfl⟩, -⟩ := hn
    rw [if_pos hadd, if_pos hadd, Action.run_bind_ok (getVal_run hlook), Action.run_bind_ok (member_of_eq hstr), hsize,
      List.take_length]
    exact hleaves
  · rw [if_neg hadd, if_neg hadd, Action.run_bind_ok hc.getCstr, Action.run_bind_ok hn.getCstr]
    have hleaves := hc.retyped_leaves hn hvw (unhandled_refuses op) (cmpOp op (nameCmp (cstr a) (cstr b)))
    have hchain : (do
        nspSetvaltype c .boolean
        match cmpOp op (nameCmp (cstr a) (cstr b)) with
        | some r => setTruth c r
        | none => unhandled c op n : H Unit) = (do
        nspSetvaltype c .boolean
        if op = opMceeq ∨ op = opMceq then setTruth c (nameCmp (cstr a) (cstr b) = 0)
        else if op = opMcne then setTruth c (nameCmp (cstr a) (cstr b) ≠ 0)
        else if op = opMcle then setTruth c (nameCmp (cstr a) (cstr b) ≤ 0)
        else if op = opMcge then setTruth c (0 ≤ nameCmp (cstr a) (cstr b))
        else if op = opMclt then setTruth c (nameCmp (cstr a) (cstr b) < 0)
        else if op = opMcgt then setTruth c (0 < nameCmp (cstr a) (cstr b))
        else unhandled c op n) := by
      unfold cmpOp
      split_ifs <;> rfl
    rw [hchain] at hleaves
    exact hleaves

theorem evalopString_leaves {a : List Byte} (hc : Has s c v (.string a)) (hn : Has s n w y) (hvw : v ≠ w)
    (hy : y ≠ .null) : (Scalar.evalopWith op (.string a) y).Leaves s c v n w
      ((evalopString c op n y.type).run s) := by
  cases y with
  | null => exact absurd rfl hy
  | boolean b =>
      show Outcome.Leaves _ s c v n w ((evalopString c op n .boolean).run s)
      unfold evalopString Scalar.evalopWith equalOp
      dsimp only
      by_cases hop : op = opMceeq ∨ op = opMceq
      · obtain ⟨t, hrun, hhas, hspares⟩ := hc.setobj_number
          (if (cstr a ≠ []) == (((if b then 1 else 0 : Num)) ≠ 0) then 1 else 0)
        have hn' := hn.spares hspares id (Ne.symm hvw)
        rw [if_pos hop, if_pos hop, Action.run_bind_ok hc.getCstr, Action.run_bind_ok hn.getNum_boolean,
          Action.run_bind_ok hrun]
        obtain ⟨⟨z, hlook, hz, hx⟩, hnull⟩ := hhas
        have htruth : (decide (cstr a ≠ []) == decide ((if b then 1 else 0 : Num) ≠ 0)) = ((cstr a != []) == b) := by
          rw [boolean_ne_zero]
          cases cstr a <;> rfl
        rw [htruth] at hx
        have hu : Val.Is { z with type := .boolean } (.boolean ((cstr a != []) == b)) := ⟨rfl, hx.2⟩
        exact (modVal_gives (f := fun y => { y with type := .boolean }) hlook hnull hn' hvw hz hu).after_left
          hspares hvw
      · rw [if_neg hop, if_neg hop]
        exact unhandled_raises hc.typeOf hn.typeOf
  | number q =>
      show Outcome.Leaves _ s c v n w ((evalopString c op n .number).run s)
      unfold evalopString Scalar.evalopWith
      dsimp only
      rw [Action.run_bind_ok hn.getNum]
      by_cases hmul : op = opMmul
      · obtain ⟨t, hrun, hhas, hspares⟩ := hc.strmul (if q < 0 then 0 else (Num.toInt q).toNat)
        rw [if_pos hmul, if_pos hmul]
        exact leaves_left hn hvw hrun hhas hspares
      · obtain ⟨t, hrun, hhas, hspares⟩ := hn.setobj_string Scalar.noConfusion (nNtoa q false 6)
        rw [if_neg hmul, if_neg hmul, Action.run_bind_ok hrun]
        have hc' := hc.spares hspares (fun h => h.elim) hvw
        exact (evalopStrings_leaves hc' hhas hvw).after (spares_right hspares fun _ h => h)
          (hn.setobj_string_tidy Scalar.noConfusion hrun)
  | string b => exact evalopStrings_leaves hc hn hvw

theorem evalopNumber_leaves {a : Num} (hc : Has s c v (.number a)) (hn : Has s n w y) (hvw : v ≠ w)
    (hy : y ≠ .null) : (Scalar.evalopWith op (.number a) y).Leaves s c v n w
      ((evalopNumber c op n y.type).run s) := by
  cases y with
  | null => exact absurd rfl hy
  | boolean b =>
      show Outcome.Leaves _ s c v n w ((evalopNumber c op n .boolean).run s)
      unfold evalopNumber Scalar.evalopWith equalOp
      dsimp only
      obtain ⟨⟨z, hlook, hz, hx⟩, hnull⟩ := hc
      have hlook' := look_write_self hlook (fun y => { y with type := Ty.boolean }) c
      have hspares := frame_write s c v (fun y => { y with type := Ty.boolean })
      have hn' := hn.spares hspares (fun h => h.elim) (Ne.symm hvw)
      rw [Action.run_bind_ok (modVal_write hlook _)]
      by_cases hop : op = opMceeq ∨ op = opMceq
      · rw [if_pos hop, if_pos hop, Action.run_bind_ok (getNum_run hlook' hx.2), Action.run_bind_ok hn'.getNum_boolean,
          boolean_ne_zero]
        exact (setTruth_leaves hlook' hnull rfl hz hn' hvw (unhandled_refuses op) (some _)).after_left hspares hvw
      · rw [if_neg hop, if_neg hop]
        exact unhandled_raises (typeOf_run hlook') hn'.typeOf
  | number q => exact evalopNumbers_leaves hc hn hvw
  | string b =>
      show Outcome.Leaves _ s c v n w ((evalopNumber c op n .string).run s)
      unfold evalopNumber Scalar.evalopWith
      dsimp only
      obtain ⟨t, hrun, hhas, hspares⟩ := hn.setobj_number (nAton (cstr b))
      rw [Action.run_bind_ok hn.getCstr, Action.run_bind_ok hrun]
      have hc' := hc.spares hspares (fun h => h.elim) hvw
      exact (evalopNumbers_leaves hc' hhas hvw).after (spares_right hspares fun _ h => h)
        (hn.setobj_number_tidy hrun)

/-- `n_evalop` is what `Scalar.evalop` says, in every memory, and leaves the value at the right tidy. -/
theorem nEvalop_leaves (op : Byte) (hc : Has s c v x) (hn : Has s n w y) (hcn : c ≠ n) (hvw : v ≠ w) :
    (x.evalop op y).Leaves s c v n w ((nEvalop c op n).run s) := by
  unfold nEvalop Scalar.evalop
  rw [Action.run_bind_ok hc.typeOf, Action.run_bind_ok hn.typeOf]
  by_cases hsame : op = opMceeq ∧ x.type ≠ y.type
  · rw [if_pos hsame, if_pos hsame]
    exact hc.retyped_leaves hn hvw (unhandled_refuses op) (some false)
  rw [if_neg hsame, if_neg hsame]
  by_cases hy : y = .null
  · subst hy
    rw [if_pos rfl, if_pos (show Scalar.null.type = Ty.null from rfl)]
    exact evalopNull_leaves hc hn hcn hvw
  have htype : y.type ≠ .null := by
    cases y with
    | null => exact absurd rfl hy
    | boolean b => exact Ty.noConfusion
    | number q => exact Ty.noConfusion
    | string b => exact Ty.noConfusion
  rw [if_neg hy, if_neg htype]
  cases x with
  | null => exact evalopFromNull_leaves hc hn hvw
  | boolean a => exact evalopBoolean_leaves hc hn hvw hy
  | number a => exact evalopNumber_leaves hc hn hvw hy
  | string a => exact evalopString_leaves hc hn hvw hy

/-- `n_evalop` is what `Scalar.evalop` says, in every memory. -/
theorem nEvalop_run (op : Byte) (hc : Has s c v x) (hn : Has s n w y) (hcn : c ≠ n) (hvw : v ≠ w) :
    (x.evalop op y).Ends s c v w ((nEvalop c op n).run s) := (nEvalop_leaves op hc hn hcn hvw).ends

end

end NullG.Nsp
