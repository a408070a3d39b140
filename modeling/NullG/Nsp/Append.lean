/-
`nl_append`.

`nsp_appendobj` links the new entry behind the last one, whatever the order of the table, and the entry takes the
number behind the one that `atoi` reads in the name of the last entry. A table whose names agree stays in order where
that number is above all of its names (`AppendRun`), and then the append adds an entry of a new name that later calls
find with all the others (`appendsFresh_of_run`).
-/

import NullG.Mail.Numbers
import NullG.Nsp.TableMap

namespace NullG.Nsp

open NullG.Lib
open NullG.Mail (atoi foldl_natDigits ncIsdigit_natDigits natDigits_ne_nil natDigits_of_head?)

/-! ### The function -/

/-- `atoi(name) + 1`, which an `int` has to hold, as `n_setnamei` takes it: `n_ntoa` casts it to `long long`. -/
def numberAfter (name : List Byte) : Except Fault Nat :=
  if 0 ≤ atoi name + 1 ∧ atoi name + 1 < 2 ^ 31 then .ok (atoi name + 1).toNat else .error .arithmetic

/-- `if (nobj->prev != NULL) n_setnamei(N, nobj, atoi(nobj->prev->name) + 1)`. -/
def numberBehind (nobj : ObjId) : Option ObjId → H Unit
  | none => pure ()
  | some prev => do
      let x ← getObj prev
      nSetnamei nobj (← member (numberAfter x.name))

/-- `nl_append` behind its checks. -/
def appendStr (cobj1 : ObjId) (str : List Byte) : H Unit := do
  let nobj ← nspAppendobj cobj1 (some (bytes "0"))
  let x ← getObj nobj
  numberBehind nobj x.prev
  let _ ← nspSetobj nobj (some []) (.string str)

/-- The checks of `nl_append`. The string of `cobj2` is read first; nothing behind that writes to it. -/
def appendObj (cobj1 cobj2 : ObjId) : H Unit := do
  if !(← nspIstable cobj1) then
    .fail (.raised (.message 2 (bytes "can't append to a non-table")))
  if (← typeOf cobj2) ≠ .string then
    .fail (.raised (.message 2 (bytes "can't append non-string")))
  let y ← getVal cobj2
  let str ← member y.d.asStr
  appendStr cobj1 ((str.getD []).take y.size)

/-- `nl_append`. -/
def nlAppend : H Unit := do
  let l ← .read fun s => s.locals
  let thisobj ← nspGetobj (some l) (bytes "this")
  let basetype ← nspGetobj (some l) (bytes "basetype")
  let cobj1 ← nspGetobj (some l) (bytes "1")
  let cobj2 ← nspGetobj (some l) (bytes "2")
  if (← typeOf basetype) ≠ .null then appendObj thisobj cobj1
  else appendObj cobj1 cobj2

/-! ### The text of a number -/

theorem decimal_natDigits (n : Nat) : decimal (natDigits n) = n := by
  refine foldl_natDigits (fun c hlo hhi => ?_) n
  have h0 : (ch '0').toNat = 48 := by decide
  rw [UInt8.toNat_sub_of_le _ _ (by rw [UInt8.le_iff_toNat_le]; omega), h0]

theorem allDigits_natDigits (n : Nat) : allDigits (natDigits n) = true := by
  have hne : (natDigits n).isEmpty = false := by
    rw [List.isEmpty_eq_false_iff]
    exact natDigits_ne_nil n
  rw [allDigits, hne, Bool.not_false, Bool.true_and, List.all_eq_true]
  exact fun c hc => ncIsdigit_natDigits hc

theorem nameNval_natDigits (n : Nat) : nameNval (natDigits n) = n := by
  rw [nameNval_numeral (allDigits_natDigits n), decimal_natDigits]

/-- The text of an `int` that is not negative is a name. -/
theorem validName_natDigits {n : Nat} (h : n < 2 ^ 31) : ValidName (natDigits n) := by
  refine ⟨natDigits_ne_nil n, ?_, ?_, ?_⟩
  · have hlength : (natDigits n).length ≤ 10 := by
      rw [natDigits, List.length_map, Nat.length_toDigits_le_iff (by decide) (by decide)]
      omega
    omega
  · intro hzero
    exact absurd (ncIsdigit_natDigits hzero) (by decide)
  · intro _
    constructor
    · by_cases hhead : (natDigits n).head? = some (ch '0')
      · exact .inl (natDigits_of_head? hhead)
      · exact .inr hhead
    · rw [decimal_natDigits]
      omega

/-- The number of a last entry's name is the one behind it. -/
theorem numberAfter_lt {name : List Byte} {n : Nat} (h : numberAfter name = .ok n) : n < 2 ^ 31 := by
  unfold numberAfter at h
  split at h
  · rename_i hint
    injection h with h
    omega
  · cases h

/-- `n_setnamei` leaves what `n_setname` leaves for the text of the number. -/
theorem setnamei_eq (x : Obj) (p : List Byte) {n : Nat} (h : n < 2 ^ 31) :
    (x.setname p).setnamei n = x.setname (natDigits n) := by
  have hclip : clip (natDigits n) = natDigits n := (validName_natDigits h).clip
  simp only [Obj.setnamei, Obj.setname, hclip, nameNval_natDigits]

/-! ### What an append does to the entries -/

/-- The name of the entry behind the last one. -/
def nextName (es : List Entry) : Except Fault (List Byte) :=
  match es.getLast? with
  | none => .ok (bytes "0")
  | some l => (numberAfter l.name).map natDigits

section Run

variable {s s' : Store} {t : ObjId} {vt : ValId} {es : List Entry}

/-- The cursor of a table without entries is NULL. -/
def CursorFits (s : Store) (vt : ValId) (es : List Entry) : Prop :=
  es = [] → ∃ y f l, s.vals.get vt = some y ∧ y.d.asTable = .ok (f, none, l)

/-- What `nsp_appendobj` leaves: a new object, linked behind the entries, that has no value. -/
structure Appended (s s' : Store) (vt : ValId) (es : List Entry) (oname : List Byte) : Prop where
  obj : s'.objs.get s.objs.next = some (Obj.setname { prev := es.getLast?.map Entry.obj } oname)
  objs : ∀ o x, s.objs.get o = some x → s'.objs.get o = some (relink es [] s.objs.next o x)
  next : s'.vals.next = s.vals.next
  vals : ∀ v, v ≠ vt → s'.vals.get v = s.vals.get v
  table : ∃ y, s'.vals.get vt = some y ∧ ∀ name type, TableVal (es ++ [s.fresh name type]) y

/-- A change of the new object's name only. -/
theorem Appended.rename {oname name : List Byte} (h : Appended s s' vt es oname) {s'' : Store}
    (hobj : s''.objs.get s.objs.next = some (Obj.setname { prev := es.getLast?.map Entry.obj } name))
    (hobjs : ∀ o, o ≠ s.objs.next → s''.objs.get o = s'.objs.get o) (hvals : s''.vals = s'.vals) :
    Appended s s'' vt es name := by
  refine ⟨hobj, ?_, by rw [hvals, h.next], by rw [hvals]; exact h.vals, by rw [hvals]; exact h.table⟩
  intro o x hx
  rw [hobjs o (Cells.ne_next hx), h.objs o x hx]

/-- The new object of `nsp_appendobj` leaves the table's value. -/
theorem newObj_run {y : Val} (hlook : s.look t = .ok (vt, y)) :
    ∃ s₁, newObj.run s = .ok s.objs.next s₁ ∧ s₁.objs = s.objs.alloc {} ∧ s₁.vals = s.vals ∧
      s₁.objs.get s.objs.next = some {} ∧ s₁.look t = .ok (vt, y) := by
  refine ⟨_, rfl, rfl, rfl, Cells.get_alloc_self .., ?_⟩
  obtain ⟨hptr, hy⟩ := Store.ptr_of_look hlook
  obtain ⟨x, hx, hxv⟩ := Option.bind_eq_some_iff.mp hptr
  exact Store.look_eq (Cells.get_alloc_of_some hx) hxv hy

/-- `nsp_appendobj` on a table without entries: the cursor stays NULL. -/
theorem nspAppendobj_first (h : TableRep s t vt []) (hcursor : CursorFits s vt []) (oname : List Byte) :
    ∃ s', (nspAppendobj t (some oname)).run s = .ok s.objs.next s' ∧ Appended s s' vt [] oname := by
  obtain ⟨y, hlook, ht⟩ := h.look
  obtain ⟨f, i, l, hd⟩ : ∃ f i l, y.d.asTable = .ok (f, i, l) := by
    obtain ⟨i, hd, -⟩ := ht.links
    exact ⟨_, i, _, hd⟩
  obtain ⟨rfl, rfl⟩ : f = none ∧ i = none := by
    obtain ⟨i', hd', -⟩ := ht.links
    obtain ⟨y', f', l', hy', hnull⟩ := hcursor rfl
    obtain rfl : y = y' := Option.some.inj ((Store.ptr_of_look hlook).2.symm.trans hy')
    rw [hd] at hd' hnull
    cases hd'
    cases hnull
    exact ⟨rfl, rfl⟩
  obtain ⟨s₁, hrun₁, ho₁, hv₁, hx₁, hlook₁⟩ := newObj_run hlook
  obtain ⟨s₂, hrun₂, ho₂, hn₂, hv₂, hy₂⟩ := modTable_step (g := fun x => (some s.objs.next, x.2.1, x.2.2)) hlook₁ hd
  have hlook₂ : s₂.look t = .ok (vt, _) :=
    Store.look_of_ptr (by rw [Store.ptr, ho₂]; exact (Store.ptr_of_look hlook₁).1) hy₂
  obtain ⟨s₃, hrun₃, ho₃, hn₃, hv₃, hy₃⟩ := modTable_step (g := fun x => (x.1, x.2.1, some s.objs.next)) hlook₂ rfl
  have hx₃ : s₃.objs.get s.objs.next = some {} := by rw [ho₃, ho₂, hx₁]
  obtain ⟨s₄, hrun₄, ho₄, hv₄⟩ := modObj_step (f := fun x => x.setname oname) (g := fun _ => rfl) hx₃
  refine ⟨s₄, ?_, ⟨?_, ?_, ?_, ?_, ?_⟩⟩
  · rw [nspAppendobj, Action.run_bind_ok (getVal_run hlook), hd, Action.run_bind_ok (member_run _ _)]
    dsimp only
    rw [Action.run_bind_ok hrun₁, Action.run_bind_ok hrun₂, Action.run_bind_ok hrun₃, nSetname,
      Action.run_bind_ok hrun₄]
    rfl
  · rw [ho₄, Cells.get_modify_self, hx₃]
    rfl
  · intro o x hx
    rw [ho₄, Cells.get_modify_of_ne _ (Cells.ne_next hx), ho₃, ho₂, ho₁, Cells.get_alloc_of_some hx]
    rfl
  · rw [hv₄, hn₃, hn₂, hv₁]
  · intro v hv
    rw [hv₄, hv₃ v hv, hv₂ v hv, hv₁]
  · rw [← hv₄] at hy₃
    refine ⟨_, hy₃, fun name type => ⟨ht.type, ht.autosort, ht.ztable, none, rfl, ?_⟩⟩
    intro _ o ho
    cases ho

/-- The entry that `nsp_appendobj` makes, without its links: it has no value, and without a name none either. -/
def newBody : Option (List Byte) → Obj
  | none => {}
  | some name => Obj.setname {} name

/-- `nsp_appendobj` links its entry behind the object in `table.l`. -/
theorem nspAppendobj_last {y : Val} {f i : Option ObjId} {a : ObjId} {xa : Obj} (hlook : s.look t = .ok (vt, y))
    (hd : y.d.asTable = .ok (f, i, some a)) (hf : f ≠ none) (ha : s.objs.get a = some xa) (name : Option (List Byte)) :
    ∃ s', (nspAppendobj t name).run s = .ok s.objs.next s' ∧
      s'.objs.get s.objs.next = some { newBody name with prev := some a } ∧
      (∀ o x, s.objs.get o = some x → s'.objs.get o = some (if o = a then { x with next := some s.objs.next } else x)) ∧
      s'.vals.next = s.vals.next ∧ (∀ v, v ≠ vt → s'.vals.get v = s.vals.get v) ∧
      s'.vals.get vt = some { y with d := .table f i (some s.objs.next) } := by
  obtain ⟨s₁, hrun₁, ho₁, hv₁, hx₁, hlook₁⟩ := newObj_run hlook
  have ha₁ : s₁.objs.get a = some xa := by rw [ho₁, Cells.get_alloc_of_some ha]
  obtain ⟨s₂, hrun₂, ho₂, hv₂⟩ := modObj_step (f := fun x => { x with next := some s.objs.next })
    (g := fun _ => rfl) ha₁
  have hx₂ : s₂.objs.get s.objs.next = some {} := by
    rw [ho₂, Cells.get_modify_of_ne _ (Cells.ne_next ha).symm, hx₁]
  obtain ⟨s₃, hrun₃, ho₃, hv₃⟩ := modObj_step (f := fun x => { x with prev := some a }) (g := fun _ => rfl) hx₂
  have hx₃ : s₃.objs.get s.objs.next = some { prev := some a } := by
    rw [ho₃, Cells.get_modify_self, hx₂, Option.map_some]
  have hold : ∀ o x, s.objs.get o = some x →
      s₃.objs.get o = some (if o = a then { x with next := some s.objs.next } else x) := by
    intro o x hx
    rw [ho₃, Cells.get_modify_of_ne _ (Cells.ne_next hx), ho₂]
    by_cases ho : o = a
    · subst ho
      obtain rfl : xa = x := Option.some.inj (ha.symm.trans hx)
      rw [Cells.get_modify_self, ha₁, Option.map_some, if_pos rfl]
    · rw [Cells.get_modify_of_ne _ ho, ho₁, Cells.get_alloc_of_some hx, if_neg ho]
  -- the links change neither the table's object nor its value
  have hlook₃ : s₃.look t = .ok (vt, y) := by
    obtain ⟨hptr, hy⟩ := Store.ptr_of_look hlook
    obtain ⟨x, hx, hxv⟩ := Option.bind_eq_some_iff.mp hptr
    refine Store.look_eq (hold t x hx) ?_ (by rw [hv₃, hv₂, hv₁, hy])
    split <;> exact hxv
  obtain ⟨s₄, hrun₄, ho₄, hn₄, hv₄, hy₄⟩ := modTable_step (g := fun x => (x.1, x.2.1, some s.objs.next)) hlook₃ hd
  have hx₄ : s₄.objs.get s.objs.next = some { prev := some a } := by rw [ho₄, hx₃]
  have hlast : ∀ {name s' r}, (do
      name.elim (pure ()) (nSetname s.objs.next)
      return s.objs.next : H ObjId).run s₄ = .ok r s' → (nspAppendobj t name).run s = .ok r s' := by
    intro name s' r hrun
    obtain ⟨f, rfl⟩ := Option.ne_none_iff_exists'.mp hf
    rw [nspAppendobj, Action.run_bind_ok (getVal_run hlook), hd, Action.run_bind_ok (member_run _ _)]
    dsimp only
    rw [Action.run_bind_ok hrun₁, setNext, setPrev, Action.run_bind_ok hrun₂, Action.run_bind_ok hrun₃,
      Action.run_bind_ok hrun₄]
    cases name <;> exact hrun
  cases name with
  | none =>
      refine ⟨s₄, hlast rfl, hx₄, fun o x hx => by rw [ho₄, hold o x hx], ?_, ?_, hy₄⟩
      · rw [hn₄, hv₃, hv₂, hv₁]
      · intro v hv
        rw [hv₄ v hv, hv₃, hv₂, hv₁]
  | some name =>
      obtain ⟨s₅, hrun₅, ho₅, hv₅⟩ := modObj_step (f := fun x => x.setname name) (g := fun _ => rfl) hx₄
      refine ⟨s₅, hlast ?_, ?_, ?_, ?_, ?_, by rw [hv₅, hy₄]⟩
      · rw [Option.elim_some, nSetname, Action.run_bind_ok hrun₅]
        rfl
      · rw [ho₅, Cells.get_modify_self, hx₄]
        rfl
      · intro o x hx
        rw [ho₅, Cells.get_modify_of_ne _ (Cells.ne_next hx), ho₄, hold o x hx]
      · rw [hv₅, hn₄, hv₃, hv₂, hv₁]
      · intro v hv
        rw [hv₅, hv₄ v hv, hv₃, hv₂, hv₁]

/-- `nsp_appendobj` behind the last entry. -/
theorem nspAppendobj_behind {A : List Entry} {a : Entry} (h : TableRep s t vt (A ++ [a])) (oname : List Byte) :
    ∃ s', (nspAppendobj t (some oname)).run s = .ok s.objs.next s' ∧ Appended s s' vt (A ++ [a]) oname := by
  obtain ⟨y, hlook, ht⟩ := h.look
  obtain ⟨i, hd, -⟩ := ht.links
  obtain ⟨xa, hxa, -⟩ := h.entry (e := a) (by simp)
  rw [List.getLast?_concat, Option.map_some] at hd
  obtain ⟨s', hrun, hnew, hold, hnext, hvals, hval⟩ :=
    nspAppendobj_last hlook hd (by cases A <;> exact nofun) hxa (some oname)
  refine ⟨s', hrun, ⟨?_, ?_, hnext, hvals, ?_⟩⟩
  · rw [hnew, List.getLast?_concat]
    rfl
  · intro o x hx
    rw [hold o x hx]
    by_cases ho : o = a.obj
    · simp [relink, ho]
    · simp [relink, ho, Ne.symm ho]
  · rw [← List.append_nil (A ++ [a])] at ht
    refine ⟨_, hval, fun name type => ?_⟩
    refine ht.insert (by simp) hd ⟨rfl, rfl, rfl⟩ ?_
    simp [Data.asTable, Store.fresh, List.head?_append]

theorem nspAppendobj_run (h : TableRep s t vt es) (hcursor : CursorFits s vt es) (oname : List Byte) :
    ∃ s', (nspAppendobj t (some oname)).run s = .ok s.objs.next s' ∧ Appended s s' vt es oname := by
  rcases List.eq_nil_or_concat es with rfl | ⟨A, a, rfl⟩
  · exact nspAppendobj_first h hcursor oname
  · rw [List.concat_eq_append] at h ⊢
    exact nspAppendobj_behind h oname

/-- The value that `nsp_setstr` gives to the new object makes it an entry. -/
theorem Appended.stored (h : TableRep s t vt es) {oname : List Byte} (h' : Appended s s' vt es oname)
    (hname : clip oname = oname) (str : List Byte) :
    ∃ s'', (nspSetobj s.objs.next (some []) (.string str)).run s' = .ok s.objs.next s'' ∧
      TableRep s'' t vt (es ++ [{ s.fresh oname .string with content := (Setting.string str).content }]) := by
  have htable : (nspIstable s.objs.next).run s' = .ok false s' := by
    have htype : (typeOf s.objs.next).run s' = .ok .null s' := Action.run_require_ok (by rw [h'.obj]; rfl)
    rw [nspIstable, Action.run_bind_ok htype]
    rfl
  obtain ⟨s₁, hrun₁, ho₁, hv₁⟩ := newValFor_step (y := { type := .string }) h'.obj
  have hvt : vt ≠ s.vals.next := by
    obtain ⟨y, hy, -⟩ := h.table
    exact Cells.ne_next hy
  have h₁ : TableRep s₁ t vt (es ++ s.fresh oname .string :: []) := by
    rw [← List.append_nil es] at h
    refine h.inserted hname ⟨?_, ?_, ?_, ?_⟩
    · rw [ho₁, Cells.get_modify_self, h'.obj, h'.next]
      rfl
    · intro o x hx
      rw [ho₁, Cells.get_modify_of_ne _ (Cells.ne_next hx), h'.objs o x hx]
    · intro v hv
      rw [hv₁]
      by_cases hnew : v = s.vals.next
      · subst hnew
        rw [Cells.get_alloc_self, ← h'.next, Cells.get_alloc_self]
      · rw [Cells.get_alloc_of_ne _ hnew, Cells.get_alloc_of_ne _ (h'.next ▸ hnew), h'.vals v hv]
    · obtain ⟨y, hy, ht⟩ := h'.table
      refine ⟨y, ?_, ht oname .string⟩
      rw [hv₁]
      exact Cells.get_alloc_of_some hy
  obtain ⟨s₂, hrun₂, h₂⟩ := storeSetting_entry h₁ (.string str) rfl
  have hset : (nspSetvaltype s.objs.next .string).run s' = .ok () s₁ := by
    rw [nspSetvaltype, Action.run_bind_ok (getObj_run h'.obj)]
    exact Action.run_bind_ok hrun₁
  rw [Setting.over_zero] at h₂
  refine ⟨s₂, ?_, h₂⟩
  rw [nspSetobj, Action.run_bind_ok htable, if_neg (by simp), Setting.type, Action.run_bind_ok hset]
  exact Action.run_bind_ok hrun₂

/-- `n_setnamei` on the new object. -/
theorem Appended.setnamei {oname : List Byte} (h : Appended s s' vt es oname) {n : Nat} (hn : n < 2 ^ 31) :
    ∃ s'', (nSetnamei s.objs.next n).run s' = .ok () s'' ∧ Appended s s'' vt es (natDigits n) := by
  obtain ⟨s₁, hrun, ho, hv⟩ := modObj_step (f := fun x => x.setnamei n) (g := fun _ => rfl) h.obj
  refine ⟨s₁, hrun, h.rename ?_ (fun o hne => ?_) hv⟩
  · rw [ho, Cells.get_modify_self, h.obj, Option.map_some, setnamei_eq _ _ hn]
  · rw [ho, Cells.get_modify_of_ne _ hne]

/-- `nl_append` adds one entry behind the last one. -/
theorem appendStr_run (h : TableRep s t vt es) (hcursor : CursorFits s vt es) {name : List Byte}
    (hname : nextName es = .ok name) (str : List Byte) :
    ∃ e s', (appendStr t str).run s = .ok () s' ∧ TableRep s' t vt (es ++ [e]) ∧ e.name = name ∧
      e.content = (Setting.string str).content := by
  obtain ⟨s₁, hrun₁, h₁⟩ := nspAppendobj_run h hcursor (bytes "0")
  obtain ⟨s₂, hrun₂, h₂, hclip⟩ : ∃ s₂, (numberBehind s.objs.next (es.getLast?.map Entry.obj)).run s₁ = .ok () s₂ ∧
      Appended s s₂ vt es name ∧ clip name = name := by
    cases hlast : es.getLast? with
    | none =>
        simp only [nextName, hlast] at hname
        injection hname with hname
        subst hname
        exact ⟨s₁, rfl, h₁, by decide⟩
    | some l =>
        simp only [nextName, hlast] at hname
        cases hnext : numberAfter l.name with
        | error f =>
            rw [hnext] at hname
            cases hname
        | ok n =>
            rw [hnext] at hname
            injection hname with hname
            subst hname
            obtain ⟨x, hx, -, hxname, -⟩ := h.entry (List.mem_of_getLast? hlast)
            obtain ⟨s₂, hrun₂, h₂⟩ := h₁.setnamei (numberAfter_lt hnext)
            refine ⟨s₂, ?_, h₂, (validName_natDigits (numberAfter_lt hnext)).clip⟩
            rw [Option.map_some, numberBehind, Action.run_bind_ok (getObj_run (h₁.objs l.obj x hx)), relink, hxname,
              hnext, Action.run_bind_ok (member_run _ _), hrun₂]
  obtain ⟨s₃, hrun₃, h₃⟩ := h₂.stored h hclip str
  refine ⟨_, s₃, ?_, h₃, rfl, rfl⟩
  rw [appendStr, Action.run_bind_ok hrun₁, Action.run_bind_ok (getObj_run h₁.obj), Obj.setname,
    Action.run_bind_ok hrun₂, Action.run_bind_ok hrun₃]
  rfl

end Run

/-! ### Runs -/

/-- A name that the table takes as it is, and whose number is that of a `double`. -/
structure PlainName (name : List Byte) : Prop where
  nonempty : name ≠ []
  short : name.length ≤ 63
  nulFree : 0 ∉ name
  numeral : allDigits name = true → decimal name < 2 ^ 53

/-- The search for `k` finds an entry of the name `p`: numerals are names of their number. -/
def Matches (k p : List Byte) : Prop := if nameNval k > -1 then nameNval p = nameNval k else p = k

/-- The name and the names of the table: every other name is below every numeral by bytes. -/
def NameFits (S : Set (List Byte)) (oname : List Byte) : Prop := ∀ k ∈ S, Agree k oname ∧ Agree oname k

/-- The last name in the order of the table. -/
def LastName (S : Set (List Byte)) (l : List Byte) : Prop := l ∈ S ∧ ∀ k ∈ S, k = l ∨ Below k l

/-- The name that an append gives keeps the order: the table is empty, or the name is above the last one and fits. -/
inductive AppendFits (S : Set (List Byte)) : List Byte → Prop where
  | first : S = ∅ → AppendFits S (bytes "0")
  | behind {l n} : LastName S l → numberAfter l = .ok n → Below l (natDigits n) → NameFits S (natDigits n) →
      AppendFits S (natDigits n)

/-- A call on a table: an assignment, a read or an append. -/
inductive AppendCall where
  | on (c : TableCall)
  | append (str : List Byte)

/-- A call as the code makes it. -/
def AppendCall.run (t : ObjId) : AppendCall → H Unit
  | .on c => do
      let _ ← c.run t
  | .append str => appendStr t str

/-- Calls in their order. -/
def runAppends (t : ObjId) : List AppendCall → H Unit
  | [] => pure ()
  | c :: cs => do
      c.run t
      runAppends t cs

/-- Calls that fit lead from one set of names to another. -/
inductive AppendRun : Set (List Byte) → List AppendCall → Set (List Byte) → Prop where
  | nil {S} : AppendRun S [] S
  | get {S S' oname cs} : AppendRun S cs S' → AppendRun S (.on (.get oname) :: cs) S'
  | unnamed {S S' v cs} : AppendRun S cs S' → AppendRun S (.on (.set [] v) :: cs) S'
  | old {S S' oname p v cs} : PlainName oname → v.Inert → p ∈ S → Matches oname p → AppendRun S cs S' →
      AppendRun S (.on (.set oname v) :: cs) S'
  | new {S S' oname v cs} : PlainName oname → v.Inert → (∀ p ∈ S, ¬ Matches oname p) → NameFits S oname →
      AppendRun (insert oname S) cs S' → AppendRun S (.on (.set oname v) :: cs) S'
  | append {S S' name str cs} : AppendFits S name → AppendRun (insert name S) cs S' → AppendRun S (.append str :: cs) S'

/-- `nsp_getobj` of the name returns the object, with this content. -/
def Found (s : Store) (t : ObjId) (oname : List Byte) (o : ObjId) (c : Content) : Prop :=
  ∃ s' w y, (nspGetobj (some t) oname).run s = .ok o s' ∧ s'.look o = .ok (w, y) ∧ y.content = c

/-- The append adds one entry of a new name. After any reads, the name has the string, and every name that was
bound has its object with the content that it had. -/
def AppendsFresh (s : Store) (t : ObjId) (str : List Byte) : Prop :=
  ∃ vt es e s', TableRep s t vt es ∧ (appendStr t str).run s = .ok () s' ∧ TableRep s' t vt (es ++ [e]) ∧
    (∀ e' ∈ es, e'.name ≠ e.name) ∧
    ∀ ks : List (List Byte), ∃ s'', (runAppends t (ks.map fun k => .on (.get k))).run s' = .ok () s'' ∧
      Found s'' t e.name e.obj (Setting.string str).content ∧
      ∀ k o c, 0 ∉ k → o ≠ nullObj → Found s t k o c → Found s'' t k o c

/-- The entries have the names, in their order. -/
structure Named (S : Set (List Byte)) (es : List Entry) : Prop where
  ordered : Ordered es
  names : ∀ e ∈ es, e.name ∈ S ∧ 0 ∉ e.name
  covers : ∀ k ∈ S, ∃ e ∈ es, e.name = k
  agree : ∀ p ∈ S, ∀ q ∈ S, Agree p q
  inert : ∀ e ∈ es, ∃ v : Setting, v.Inert ∧ e.content = v.content

section Named

variable {S : Set (List Byte)} {es : List Entry} {e : Entry} {k p q : List Byte}

theorem Matches.refl (k : List Byte) : Matches k k := by
  unfold Matches
  split
  · rfl
  · rfl

/-- Names that one name matches are not in order. -/
theorem Matches.not_below (hp : Matches k p) (hq : Matches k q) : ¬ Below p q := by
  unfold Matches at hp hq
  intro hlt
  by_cases hnum : nameNval k > -1
  · rw [if_pos hnum] at hp hq
    rcases hlt with hlt | ⟨hother, -, -⟩
    · omega
    · omega
  · rw [if_neg hnum] at hp hq
    exact hlt.ne (hp.trans hq.symm)

theorem entryCmp_eq_zero_iff (hk : 0 ∉ k) (he : 0 ∉ e.name) : entryCmp k e = 0 ↔ Matches k e.name := by
  rw [entryCmp, Matches]
  split
  · omega
  · constructor
    · exact eq_of_nameCmp he hk
    · rintro rfl
      have := nameCmp_swap e.name e.name
      omega

/-- An entry that the name matches is the only one. -/
theorem Named.unique (h : Named S es) {e' : Entry} (he : e ∈ es) (he' : e' ∈ es) (hm : Matches k e.name)
    (hm' : Matches k e'.name) : e = e' := by
  obtain ⟨A, B, rfl⟩ := List.append_of_mem he
  obtain ⟨-, hB, hAB⟩ := List.pairwise_append.mp h.ordered
  rcases List.mem_append.mp he' with hA | hmem
  · exact absurd (hAB e' hA e List.mem_cons_self) (hm'.not_below hm)
  · rcases List.mem_cons.mp hmem with rfl | hmem
    · rfl
    · exact absurd ((List.pairwise_cons.mp hB).1 e' hmem) (hm.not_below hm')

/-- There is no place for a name that matches an entry. -/
theorem Named.not_between {A B : List Entry} (h : Named S (A ++ B)) (he : e ∈ A ++ B) (hm : Matches k e.name) :
    ¬ Between k A B := by
  intro hplace
  have hagree : ∀ a ∈ A, Agree k a.name := by
    intro a ha hother hdigits
    have hname : e.name = k := by
      have hnum : ¬ nameNval k > -1 := fun hnum => hother (nameNval_gt_iff.mp hnum)
      rwa [Matches, if_neg hnum] at hm
    rw [← hname] at hother ⊢
    exact h.agree _ (h.names e he).1 _ (h.names a (List.mem_append_left B ha)).1 hother hdigits
  obtain ⟨hA, hB⟩ := h.ordered.between hplace hagree
  rcases List.mem_append.mp he with hmem | hmem
  · exact hm.not_below (Matches.refl k) (hA e hmem)
  · exact (Matches.refl k).not_below hm (hB e hmem)

/-- A new name takes the place that the search finds. -/
theorem Named.insert {A B : List Entry} {v : Setting} (h : Named S (A ++ B)) (hk : 0 ∉ k) (hfits : NameFits S k)
    (hplace : Between k A B) (hname : e.name = k) (hcontent : e.content = v.content) (hv : v.Inert) :
    Named (insert k S) (A ++ e :: B) := by
  subst hname
  obtain ⟨hA, hB⟩ := h.ordered.between hplace
    fun a ha => (hfits _ (h.names a (List.mem_append_left B ha)).1).2
  have hself : Agree e.name e.name := fun hother hdigits => absurd hdigits hother
  refine ⟨?_, ?_, ?_, ?_, ?_⟩
  · exact h.ordered.insert hA hB
  · intro e' he'
    rcases mem_middle.mp he' with rfl | he'
    · exact ⟨Set.mem_insert _ S, hk⟩
    · obtain ⟨hmem, hzero⟩ := h.names e' he'
      exact ⟨Set.mem_insert_of_mem _ hmem, hzero⟩
  · intro q hq
    rcases Set.mem_insert_iff.mp hq with rfl | hq
    · exact ⟨e, by simp, rfl⟩
    · obtain ⟨e', he', rfl⟩ := h.covers q hq
      exact ⟨e', mem_middle.mpr (.inr he'), rfl⟩
  · intro p hp q hq
    rcases Set.mem_insert_iff.mp hp with rfl | hp
    · rcases Set.mem_insert_iff.mp hq with rfl | hq
      · exact hself
      · exact (hfits q hq).2
    · rcases Set.mem_insert_iff.mp hq with rfl | hq
      · exact (hfits p hp).1
      · exact h.agree p hp q hq
  · intro e' he'
    rcases mem_middle.mp he' with rfl | he'
    · exact ⟨v, hv, hcontent⟩
    · exact h.inert e' he'

/-- A name that is set again. -/
theorem Named.update {A B : List Entry} {b : Entry} {v : Setting} (h : Named S (A ++ b :: B)) (hv : v.Inert) :
    Named S (A ++ { b with content := v.content } :: B) := by
  have hmem : ∀ e ∈ A ++ { b with content := v.content } :: B, e = { b with content := v.content } ∨ e ∈ A ++ B :=
    fun e he => mem_middle.mp he
  have hold : ∀ {e}, e ∈ A ++ B → e ∈ A ++ b :: B :=
    fun he => mem_middle.mpr (.inr he)
  refine ⟨?_, ?_, ?_, h.agree, ?_⟩
  · exact h.ordered.write v.content
  · intro e he
    rcases hmem e he with rfl | he
    · exact h.names b (by simp)
    · exact h.names e (hold he)
  · intro k hk
    obtain ⟨e, he, rfl⟩ := h.covers k hk
    rcases mem_middle.mp he with rfl | he
    · exact ⟨{ e with content := v.content }, by simp, rfl⟩
    · exact ⟨e, mem_middle.mpr (.inr he), rfl⟩
  · intro e he
    rcases hmem e he with rfl | he
    · exact ⟨v, hv, rfl⟩
    · exact h.inert e (hold he)

theorem Named.bare (h : Named S es) : ∀ e ∈ es, e.content.Bare := by
  intro e he
  obtain ⟨v, -, hv⟩ := h.inert e he
  exact hv ▸ v.bare_content

/-- The last name is that of the last entry. -/
theorem Named.last {A : List Entry} {a : Entry} (h : Named S (A ++ [a])) {l : List Byte} (hl : LastName S l) :
    a.name = l := by
  rcases hl.2 a.name (h.names a (by simp)).1 with heq | habove
  · exact heq
  · obtain ⟨e, he, rfl⟩ := h.covers l hl.1
    rcases List.mem_append.mp he with he | he
    · have hbelow := (List.pairwise_append.mp h.ordered).2.2 e he a (by simp)
      exact absurd rfl (hbelow.trans habove).ne
    · rw [List.mem_singleton.mp he]

end Named

section Steps

variable {s : Store} {t : ObjId} {vt : ValId} {S : Set (List Byte)} {es : List Entry}

/-- The table has the names, and its cursor fits. -/
structure Keeps (s : Store) (t : ObjId) (vt : ValId) (S : Set (List Byte)) (es : List Entry) : Prop where
  rep : TableRep s t vt es
  cursor : CursorFits s vt es
  named : Named S es

theorem cursorFits_of_ne (h : es ≠ []) (s : Store) (vt : ValId) : CursorFits s vt es := fun hnil => absurd hnil h

/-- A read keeps the table. -/
theorem Keeps.get (h : Keeps s t vt S es) (ht : t ≠ retObj) (oname : List Byte) :
    ∃ o s', (nspGetobj (some t) oname).run s = .ok o s' ∧ Keeps s' t vt S es := by
  obtain ⟨o, s', hrun, hrep, hempty, -⟩ := nspGetobj_run h.rep ht oname
  refine ⟨o, s', hrun, hrep, ?_, h.named⟩
  intro hnil
  rw [hempty hnil]
  exact h.cursor hnil

/-- A read of a name that an entry has returns the entry. -/
theorem Keeps.found (h : Keeps s t vt S es) (ht : t ≠ retObj) {k : List Byte} (hk : 0 ∉ k) {e : Entry} (he : e ∈ es)
    (hm : Matches k e.name) : Found s t k e.obj e.content := by
  obtain ⟨o, s', hrun, hrep, -, hfound⟩ := nspGetobj_run h.rep ht k
  rcases hfound with ⟨e', he', hzero, rfl⟩ | ⟨-, A, B, rfl, hplace⟩
  · obtain rfl := h.named.unique he he' hm ((entryCmp_eq_zero_iff hk (h.named.names e' he').2).mp hzero)
    obtain ⟨y, hlook, -, hy⟩ := hrep.look_entry he
    exact ⟨s', e.val, y, hrun, hlook, hy⟩
  · exact absurd hplace (h.named.not_between he hm)

/-- What a read returns, if not the null object, is an entry that the name matches. -/
theorem Keeps.entry_of_found (h : Keeps s t vt S es) (ht : t ≠ retObj) {k : List Byte} (hk : 0 ∉ k) {o : ObjId}
    {c : Content} (ho : o ≠ nullObj) (hfound : Found s t k o c) :
    ∃ e ∈ es, Matches k e.name ∧ e.obj = o ∧ e.content = c := by
  obtain ⟨s₁, w, y, hrun, hlook, rfl⟩ := hfound
  obtain ⟨o', s', hrun', hrep, -, hentry⟩ := nspGetobj_run h.rep ht k
  obtain ⟨rfl, rfl⟩ : o = o' ∧ s₁ = s' := by
    rw [hrun] at hrun'
    cases hrun'
    exact ⟨rfl, rfl⟩
  rcases hentry with ⟨e, he, hzero, rfl⟩ | ⟨rfl, -⟩
  · obtain ⟨y', hlook', -, hy'⟩ := hrep.look_entry he
    rw [hlook] at hlook'
    cases hlook'
    exact ⟨e, he, (entryCmp_eq_zero_iff hk (h.named.names e he).2).mp hzero, rfl, hy'.symm⟩
  · exact absurd rfl ho

/-- An assignment writes or adds one entry: no value of the table has a reaper. -/
theorem Keeps.set (h : Keeps s t vt S es) (ht : t ≠ retObj) {oname : List Byte} (hk : PlainName oname) (v : Setting) :
    ∃ o s' es', (nspSetobj t (some oname) v).run s = .ok o s' ∧ TableRep s' t vt es' ∧ CursorFits s' vt es' ∧
      SetTo oname v es es' := by
  rcases nspSetobj_run h.rep ht hk.nonempty (List.take_of_length_le hk.short) h.named.bare v with
    ⟨o, s', es', hrun, hrep, hto⟩ | ⟨b, hb, -, f, s', hreap, -⟩
  · have hne : es' ≠ [] := by cases hto <;> simp
    exact ⟨o, s', es', hrun, hrep, cursorFits_of_ne hne s' vt, hto⟩
  · obtain ⟨w, hinert, hw⟩ := h.named.inert b hb
    rw [hw, hinert.reap] at hreap
    cases hreap

/-- An assignment to a name of the table. -/
theorem Keeps.set_old (h : Keeps s t vt S es) (ht : t ≠ retObj) {oname p : List Byte} (hk : PlainName oname)
    {v : Setting} (hv : v.Inert) (hp : p ∈ S) (hm : Matches oname p) :
    ∃ o s' es', (nspSetobj t (some oname) v).run s = .ok o s' ∧ Keeps s' t vt S es' := by
  obtain ⟨e, he, rfl⟩ := h.named.covers p hp
  obtain ⟨o, s', es', hrun, hrep, hcursor, hto⟩ := h.set ht hk v
  refine ⟨o, s', es', hrun, hrep, hcursor, ?_⟩
  have hnamed := h.named
  cases hto with
  | @old A b B hzero =>
      obtain ⟨w, -, hw⟩ := hnamed.inert b (by simp)
      rw [hw, w.kept_content, v.over_zero]
      exact hnamed.update hv
  | new hplace hname hcontent => exact absurd hplace (hnamed.not_between he hm)

/-- An assignment to a new name. -/
theorem Keeps.set_new (h : Keeps s t vt S es) (ht : t ≠ retObj) {oname : List Byte} (hk : PlainName oname)
    {v : Setting} (hv : v.Inert) (hnew : ∀ p ∈ S, ¬ Matches oname p) (hfits : NameFits S oname) :
    ∃ o s' es', (nspSetobj t (some oname) v).run s = .ok o s' ∧ Keeps s' t vt (insert oname S) es' := by
  obtain ⟨o, s', es', hrun, hrep, hcursor, hto⟩ := h.set ht hk v
  refine ⟨o, s', es', hrun, hrep, hcursor, ?_⟩
  have hnamed := h.named
  cases hto with
  | @old A b B hzero =>
      obtain ⟨hmem, hb⟩ := hnamed.names b (by simp)
      exact absurd ((entryCmp_eq_zero_iff hk.nulFree hb).mp hzero) (hnew _ hmem)
  | new hplace hname hcontent => exact hnamed.insert hk.nulFree hfits hplace hname hcontent hv

/-- A name that fits is the one that `nl_append` gives, and it is above all names. -/
theorem Named.of_appendFits (h : Named S es) {name : List Byte} (hfit : AppendFits S name) :
    nextName es = .ok name ∧ 0 ∉ name ∧ NameFits S name ∧ Between name es [] ∧ ∀ e ∈ es, e.name ≠ name := by
  cases hfit with
  | first hempty =>
      obtain rfl : es = [] := by
        refine List.eq_nil_iff_forall_not_mem.mpr fun e he => ?_
        have hmem := (h.names e he).1
        rw [hempty] at hmem
        exact hmem
      exact ⟨rfl, by decide, by simp [NameFits, hempty], by simp [Between], by simp⟩
  | @behind l n hl hnext hbelow hfits =>
      have hne : es ≠ [] := by
        obtain ⟨e, he, -⟩ := h.covers l hl.1
        exact List.ne_nil_of_mem he
      obtain ⟨A, a, rfl⟩ : ∃ A a, es = A ++ [a] :=
        ⟨es.dropLast, es.getLast hne, (List.dropLast_append_getLast hne).symm⟩
      have hlast := h.last hl
      refine ⟨?_, (validName_natDigits (numberAfter_lt hnext)).nulFree, hfits, ⟨?_, by simp⟩, ?_⟩
      · rw [nextName, List.getLast?_concat]
        dsimp only
        rw [hlast, hnext]
        rfl
      · intro a' ha'
        rw [List.getLast?_concat] at ha'
        obtain rfl := Option.some.inj ha'
        have hnum : nameNval (natDigits n) > -1 := by
          rw [nameNval_natDigits]
          omega
        rw [entryCmp, if_pos hnum, hlast]
        rcases hbelow with hlt | ⟨-, hother, -⟩
        · omega
        · omega
      · intro e he
        rcases hl.2 e.name (h.names e he).1 with heq | hlt
        · rw [heq]
          exact hbelow.ne
        · exact (hlt.trans hbelow).ne

/-- An append whose name fits. -/
theorem Keeps.append (h : Keeps s t vt S es) {name : List Byte} (hfit : AppendFits S name) (str : List Byte) :
    ∃ e s', (appendStr t str).run s = .ok () s' ∧ e.content = (Setting.string str).content ∧
      (∀ e' ∈ es, e'.name ≠ e.name) ∧ Keeps s' t vt (insert name S) (es ++ [e]) := by
  obtain ⟨hname, hzero, hfits, hplace, hnew⟩ := h.named.of_appendFits hfit
  obtain ⟨e, s', hrun, hrep, rfl, hcontent⟩ := appendStr_run h.rep h.cursor hname str
  refine ⟨e, s', hrun, hcontent, hnew, hrep, cursorFits_of_ne (by simp) s' vt, ?_⟩
  have hnamed := h.named
  rw [← List.append_nil es] at hnamed
  exact hnamed.insert hzero hfits hplace rfl hcontent (by intro htype; cases htype)

theorem AppendCall.run_on {c : TableCall} {o : ObjId} {s₁ : Store} (h : (c.run t).run s = .ok o s₁) :
    ((AppendCall.on c).run t).run s = .ok () s₁ := by
  rw [AppendCall.run, Action.run_bind_ok h]
  rfl

/-- A call that keeps the table, and calls behind it that do. -/
theorem runAppends_cons {c : AppendCall} {cs : List AppendCall} {s₁ : Store} {P : Store → Prop}
    (h₁ : (c.run t).run s = .ok () s₁) (h : ∃ s', (runAppends t cs).run s₁ = .ok () s' ∧ P s') :
    ∃ s', (runAppends t (c :: cs)).run s = .ok () s' ∧ P s' := by
  obtain ⟨s', hrun', hp⟩ := h
  refine ⟨s', ?_, hp⟩
  rw [runAppends, Action.run_bind_ok h₁, hrun']

/-- Calls that fit keep the table. -/
theorem Keeps.run (ht : t ≠ retObj) {S' : Set (List Byte)} {cs : List AppendCall} (hcs : AppendRun S cs S') :
    ∀ {s : Store} {es : List Entry}, Keeps s t vt S es →
      ∃ s', (runAppends t cs).run s = .ok () s' ∧ ∃ es', Keeps s' t vt S' es' := by
  induction hcs with
  | nil => exact fun h => ⟨_, rfl, _, h⟩
  | @get S S' oname cs hcs ih =>
      intro s es h
      obtain ⟨o, s₁, hrun₁, h₁⟩ := h.get ht oname
      exact runAppends_cons (AppendCall.run_on hrun₁) (ih h₁)
  | @unnamed S S' v cs hcs ih =>
      intro s es h
      obtain ⟨y, hlook, hy⟩ := h.rep.look
      have hrun₁ : (nspSetobj t (some []) v).run s = .ok nullObj s := by
        rw [nspSetobj, Action.run_bind_ok (nspIstable_run hlook), hy.type, if_pos ⟨ht, rfl⟩]
        rfl
      exact runAppends_cons (AppendCall.run_on hrun₁) (ih h)
  | @old S S' oname p v cs hk hv hp hm hcs ih =>
      intro s es h
      obtain ⟨o, s₁, es₁, hrun₁, h₁⟩ := h.set_old ht hk hv hp hm
      exact runAppends_cons (AppendCall.run_on hrun₁) (ih h₁)
  | @new S S' oname v cs hk hv hnew hfits hcs ih =>
      intro s es h
      obtain ⟨o, s₁, es₁, hrun₁, h₁⟩ := h.set_new ht hk hv hnew hfits
      exact runAppends_cons (AppendCall.run_on hrun₁) (ih h₁)
  | @append S S' name str cs hfit hcs ih =>
      intro s es h
      obtain ⟨e, s₁, hrun₁, -, -, h₁⟩ := h.append hfit str
      exact runAppends_cons hrun₁ (ih h₁)

/-- The table keeps its entries under reads. -/
theorem Keeps.gets (h : Keeps s t vt S es) (ht : t ≠ retObj) (ks : List (List Byte)) :
    ∃ s', (runAppends t (ks.map fun k => .on (.get k))).run s = .ok () s' ∧ Keeps s' t vt S es := by
  induction ks generalizing s with
  | nil => exact ⟨s, rfl, h⟩
  | cons k ks ih =>
      obtain ⟨o, s₁, hrun₁, h₁⟩ := h.get ht k
      exact runAppends_cons (AppendCall.run_on hrun₁) (ih h₁)

/-- An append whose name fits is of a new name, and everything is found behind it. -/
theorem Keeps.appendsFresh (h : Keeps s t vt S es) (ht : t ≠ retObj) {name : List Byte} (hfit : AppendFits S name)
    (str : List Byte) : AppendsFresh s t str := by
  obtain ⟨e, s', hrun, hcontent, hnew, h'⟩ := h.append hfit str
  refine ⟨vt, es, e, s', h.rep, hrun, h'.rep, hnew, fun ks => ?_⟩
  obtain ⟨s'', hrun'', h''⟩ := h'.gets ht ks
  refine ⟨s'', hrun'', ?_, ?_⟩
  · rw [← hcontent]
    exact h''.found ht (h''.named.names e (by simp)).2 (by simp) (Matches.refl e.name)
  · intro k o c hk ho hfound
    obtain ⟨e', he', hm, rfl, rfl⟩ := h.entry_of_found ht hk ho hfound
    exact h''.found ht hk (List.mem_append_left [e] he') hm

end Steps

/-- An append yields a new name in every run of calls that fit, from a table without entries. -/
theorem appendsFresh_of_run {s : Store} {t : ObjId} {vt : ValId} (h : TableRep s t vt [])
    (hcursor : CursorFits s vt []) (ht : t ≠ retObj) {cs : List AppendCall} {S : Set (List Byte)}
    (hcs : AppendRun ∅ cs S) {name : List Byte} (hfit : AppendFits S name) (str : List Byte) :
    ∃ s', (runAppends t cs).run s = .ok () s' ∧ AppendsFresh s' t str := by
  have hkeeps : Keeps s t vt ∅ [] := ⟨h, hcursor, .nil, by simp, by simp, by simp, by simp⟩
  obtain ⟨s', hrun, es, h'⟩ := hkeeps.run ht hcs
  exact ⟨s', hrun, h'.appendsFresh ht hfit str⟩

theorem oneTable_cursor : CursorFits oneTable 3 [] := fun _ => ⟨_, none, none, rfl, rfl⟩

/-- The text of a number fits where the other names are below it by bytes. -/
theorem nameFits_natDigits {S : Set (List Byte)} {n : Nat}
    (h : ∀ k ∈ S, allDigits k ≠ true → nameCmp k (natDigits n) < 0) : NameFits S (natDigits n) :=
  fun k hk => ⟨fun hother _ => h k hk hother, fun hother => absurd (allDigits_natDigits n) hother⟩

theorem appendsFresh_mixed : ∃ s', (runAppends 3 [.on (.set (bytes "-") (.number 1)), .append (bytes "x"),
    .on (.get (bytes "7")), .on (.set (bytes "01") .null)]).run oneTable = .ok () s' ∧
      AppendsFresh s' 3 (bytes "y") := by
  have hplain : ∀ k ∈ [bytes "-", bytes "01"], PlainName k := by
    intro k hk
    simp only [List.mem_cons, List.not_mem_nil, or_false] at hk
    rcases hk with rfl | rfl
    all_goals exact ⟨by decide, by decide, by decide, fun _ => by decide⟩
  have hother : nameNval (bytes "-") = -1 := nameNval_other (by decide)
  have hbelow : Below (bytes "-") (natDigits 1) := .inl (by rw [hother, nameNval_natDigits]; decide)
  have hsame : Matches (bytes "01") (natDigits 1) := by
    have hnum : nameNval (bytes "01") = 1 := nameNval_numeral (by decide)
    rw [Matches, hnum, nameNval_natDigits, if_pos (by decide)]
    rfl
  refine appendsFresh_of_run oneTable_rep oneTable_cursor (by decide)
    (S := insert (natDigits 1) (insert (bytes "-") ∅)) ?_ (show AppendFits _ (natDigits 2) from ?_) (bytes "y")
  · refine .new (hplain _ (by decide)) (by intro h; cases h) (by simp) (by simp [NameFits]) ?_
    refine .append (show AppendFits _ (natDigits 1) from .behind (l := bytes "-") ⟨by simp, by simp⟩ rfl hbelow ?_) ?_
    · refine nameFits_natDigits fun k hk _ => ?_
      obtain rfl : k = bytes "-" := by simpa using hk
      decide
    · exact .get (.old (hplain _ (by decide)) (by intro h; cases h) (by simp) hsame .nil)
  · refine .behind (l := natDigits 1) ⟨by simp, ?_⟩ rfl (.inl ?_) (nameFits_natDigits ?_)
    · intro k hk
      rcases Set.mem_insert_iff.mp hk with rfl | hk
      · exact .inl rfl
      · obtain rfl : k = bytes "-" := by simpa using hk
        exact .inr hbelow
    · rw [nameNval_natDigits, nameNval_natDigits]
      decide
    · intro k hk hdigits
      rcases Set.mem_insert_iff.mp hk with rfl | hk
      · exact absurd (allDigits_natDigits 1) hdigits
      · obtain rfl : k = bytes "-" := by simpa using hk
        decide

/-- What `nsp_getobj` of the name returns after the calls, and what it holds. -/
def foundAfter (s : Store) (t : ObjId) (cs : List AppendCall) (oname : List Byte) : Option (ObjId × Content) :=
  match (runAppends t cs).run s with
  | .error _ _ => none
  | .ok _ s' =>
      match (nspGetobj (some t) oname).run s' with
      | .error _ _ => none
      | .ok o s'' =>
          match s''.look o with
          | .error _ => none
          | .ok r => some (o, r.2.content)

theorem foundAfter_iff {s s' : Store} {t o : ObjId} {cs : List AppendCall} {k : List Byte} {c : Content}
    (hrun : (runAppends t cs).run s = .ok () s') : foundAfter s t cs k = some (o, c) ↔ Found s' t k o c := by
  simp only [foundAfter, hrun, Found]
  cases hget : (nspGetobj (some t) k).run s' with
  | error f s'' => simp
  | ok o' s'' =>
      dsimp only
      cases hlook : s''.look o' with
      | error f =>
          simp only [reduceCtorEq, false_iff]
          rintro ⟨s₁, w, y, hget', hlook', -⟩
          cases hget'
          rw [hlook] at hlook'
          cases hlook'
      | ok r =>
          constructor
          · intro h
            cases h
            exact ⟨s'', r.1, r.2, rfl, hlook, rfl⟩
          · rintro ⟨s₁, w, y, hget', hlook', rfl⟩
            cases hget'
            rw [hlook] at hlook'
            cases hlook'
            rfl

theorem runAppends_append {s s₁ s₂ : Store} {t : ObjId} {cs ds : List AppendCall}
    (h₁ : (runAppends t cs).run s = .ok () s₁) (h₂ : (runAppends t ds).run s₁ = .ok () s₂) :
    (runAppends t (cs ++ ds)).run s = .ok () s₂ := by
  induction cs generalizing s with
  | nil =>
      cases h₁
      exact h₂
  | cons c cs ih =>
      rw [runAppends, Action.run_bind] at h₁
      cases hc : (c.run t).run s with
      | error f s' =>
          rw [hc] at h₁
          cases h₁
      | ok u s' =>
          rw [hc] at h₁
          rw [List.cons_append, runAppends, Action.run_bind_ok hc]
          exact ih h₁

/-- The read of the second number leaves the cursor on the first, and the search for the other name goes forward from
there. -/
theorem not_appendsFresh_other : ¬ ∃ s', (runAppends 3 [.on (.set (bytes "a") (.number 1)), .append (bytes "x")]).run
    oneTable = .ok () s' ∧ AppendsFresh s' 3 (bytes "y") := by
  rintro ⟨s', hrun, vt, es, e, s₁, -, happend, -, -, hreads⟩
  obtain ⟨s₂, hrun₂, -, hkept⟩ := hreads [bytes "2"]
  have hbound : Found s' 3 (bytes "a") 4 ⟨.number, 0, .num 1⟩ := (foundAfter_iff hrun).mp (by decide +kernel)
  have hone : (runAppends 3 [.append (bytes "y")]).run s' = .ok () s₁ := by
    rw [runAppends, AppendCall.run, Action.run_bind_ok happend]
    rfl
  have hlost := (foundAfter_iff (runAppends_append hrun (runAppends_append hone hrun₂))).mpr
    (hkept _ 4 _ (by decide) (by decide) hbound)
  exact absurd hlost (by decide +kernel)

end NullG.Nsp
