/-
Reading and setting the entries of a table.

`nspSetobj_run` and `nspGetobj_run` say what `nsp_setobj` and `nsp_getobj` do to a table that is
given as a list of entries: which entry is read, written or added follows from where the search
stops (`Stops`).
-/

import NullG.Nsp.TableList

namespace NullG.Nsp

open NullG.Lib

/-! ### Contents -/

/-- The content of a value that only has a type. -/
def blank (type : Ty) : Content := ⟨type, 0, .num 0⟩

/-- The `size` of a value that was set. -/
def Setting.size : Setting → Nat
  | .string b | .nfunc b | .cdata b => b.length
  | _ => 0

/-- The union of a value that was set. -/
def Setting.data : Setting → Data
  | .boolean q => .num (if q ≠ 0 then 1 else 0)
  | .number q => .num q
  | .cfunc f => .cfunc f
  | .string b | .nfunc b | .cdata b => if b = [] then .num 0 else .str b
  | .null | .table => .num 0

/-- What a value holds once it was set. -/
def Setting.content (v : Setting) : Content := ⟨v.type, v.size, v.data⟩

/-- A value that is freed without code of another library: it is not an `NSP_CDATA` with a
reaper. -/
def Setting.Inert (v : Setting) : Prop := v.type = .cdata → hasReaper v.data = .ok false

/-- A table or a null value has no size: those of strings are the only ones. -/
def Content.Bare (c : Content) : Prop := c.type = .table ∨ c.type = .null → c.size = 0

/-- Where `n_freeval` of a value stops: at an `NSP_CDATA` whose reaper it calls, or whose header
is none. -/
def Content.reap (c : Content) : Option Fault :=
  if c.type = .cdata then
    match hasReaper c.data with
    | .ok false => none
    | .ok true => some .foreign
    | .error f => some f
  else none

/-- What is left of the union of a value once it is set to a type: the entries of a table stay. -/
def Content.kept (c : Content) : Data := if c.type = .table ∨ c.type = .null then c.data else .num 0

/-- What a value with the union `d` holds once it was set. -/
def Setting.over (v : Setting) (d : Data) : Content :=
  ⟨v.type, v.size,
    match v with
    | .null | .table => d
    | .string b | .nfunc b | .cdata b => if b = [] then d else .str b
    | _ => v.data⟩

section Contents

variable {v : Setting}

theorem Setting.over_zero (v : Setting) : v.over (.num 0) = v.content := by
  cases v <;> rfl

theorem Setting.kept_content (v : Setting) : v.content.kept = .num 0 := by
  cases v <;> rfl

theorem Setting.bare_content (v : Setting) : v.content.Bare := by
  intro h
  cases v <;> first | rfl | (rcases h with h | h <;> cases h)

theorem Setting.bare_over (v : Setting) (d : Data) : (v.over d).Bare := v.bare_content

theorem Setting.Inert.reap (h : v.Inert) : v.content.reap = none := by
  rw [Content.reap]
  split
  · rename_i hcdata
    have hnone : hasReaper v.content.data = .ok false := h hcdata
    rw [hnone]
  · rfl

theorem Content.reap_of_ne {c : Content} (h : c.type ≠ .cdata) : c.reap = none := if_neg h

end Contents

section Run

variable {s : Store} {t : ObjId} {vt : ValId} {es : List Entry}

theorem modObj_step {o : ObjId} {x : Obj} {f : Obj → Obj} {g} (h : s.objs.get o = some x) :
    ∃ s', (modObj o f g).run s = .ok () s' ∧ s'.objs = s.objs.modify o f ∧ s'.vals = s.vals :=
  ⟨_, modObj_run h, rfl, rfl⟩

theorem newValFor_step {o : ObjId} {x : Obj} {y : Val} (h : s.objs.get o = some x) :
    ∃ s', (newValFor o y).run s = .ok () s' ∧
      s'.objs = s.objs.modify o (fun x => { x with val := some s.vals.next }) ∧ s'.vals = s.vals.alloc y := by
  simp only [newValFor, h]
  exact ⟨_, rfl, rfl, rfl⟩

/-- A write through the object of an entry. -/
theorem modVal_entry {A B : List Entry} {e : Entry} (h : TableRep s t vt (A ++ e :: B)) {f : Val → Val}
    {c : Content} (hf : ∀ y, (f y).ztable = y.ztable)
    (hc : ∀ y : Val, y.content = e.content → (f y).content = c) :
    ∃ s', (modVal e.obj f).run s = .ok () s' ∧ TableRep s' t vt (A ++ { e with content := c } :: B) := by
  obtain ⟨y, hlook, hz, hy⟩ := h.look_entry (e := e) (by simp)
  refine ⟨_, modVal_run hlook, ?_⟩
  rw [← hc y hy]
  refine h.write rfl (fun v hv => Cells.get_modify_of_ne _ hv) ?_ ((hf y).trans hz)
  rw [Cells.get_modify_self, (Store.ptr_of_look hlook).2, Option.map_some]

/-- A value is freed and its object keeps it, or `n_freeval` stops there. -/
theorem nFreeval_entry {A B : List Entry} {e : Entry} (h : TableRep s t vt (A ++ e :: B))
    (hnull : e.content.type ≠ .null) (htable : e.content.type ≠ .table) :
    match e.content.reap with
    | some f => (nFreeval e.obj).run s = .error f s
    | none => ∃ s', (nFreeval e.obj).run s = .ok () s' ∧
        TableRep s' t vt (A ++ { e with content := blank .null } :: B) := by
  obtain ⟨y, hlook, hz, hc⟩ := h.look_entry (e := e) (by simp)
  obtain ⟨htype, hd⟩ : y.type = e.content.type ∧ y.d = e.content.data :=
    ⟨congrArg Content.type hc, congrArg Content.data hc⟩
  obtain ⟨s', hrun, h'⟩ := modVal_entry h (c := blank .null)
    (f := fun y => { y with type := .null, size := 0, d := .num 0 }) (fun _ => rfl) (fun _ _ => rfl)
  obtain ⟨y', hlook', hz', -⟩ := h'.look_entry (e := { e with content := blank .null }) (by simp)
  have hfree : (clearVal (s.objs.next + s.vals.next) e.obj).run s = .ok () s' := by
    rw [clearVal, Action.run_bind_ok hrun, Action.run_bind_ok (getVal_run hlook'), hz']
    rfl
  rw [nFreeval, Action.run_bind_ok (walkFuel_run s), freeval, Action.run_bind_ok (typeOf_run hlook),
    if_neg (by rw [htype]; exact hnull), htype]
  dsimp only
  rw [if_neg htable, Content.reap]
  by_cases hcdata : e.content.type = .cdata
  · rw [if_pos hcdata, if_pos hcdata, Action.run_bind_ok (getVal_run hlook), hd]
    cases hreaper : hasReaper e.content.data with
    | error f => exact Action.run_bind_error rfl
    | ok reaper =>
        rw [Action.run_bind_ok (member_run _ _)]
        cases reaper with
        | false => exact ⟨s', hfree, h'⟩
        | true => exact Action.run_bind_error rfl
  · rw [if_neg hcdata, if_neg hcdata]
    exact ⟨s', hfree, h'⟩

/-- The type of a value is changed. -/
theorem retype_entry {A B : List Entry} {e : Entry} (h : TableRep s t vt (A ++ e :: B)) (type : Ty) :
    ∃ s', (modVal e.obj fun y => { y with type := type }).run s = .ok () s' ∧
      TableRep s' t vt (A ++ { e with content := ⟨type, e.content.size, e.content.data⟩ } :: B) := by
  refine modVal_entry h (fun _ => rfl) ?_
  intro y hy
  rw [← hy]
  rfl

/-- `nsp_setvaltype` of an entry that is no table leaves a value that has a type but no size, or
it stops where it frees the old one. -/
theorem nspSetvaltype_entry {A B : List Entry} {e : Entry} (h : TableRep s t vt (A ++ e :: B))
    (hbare : e.content.Bare) (htable : e.content.type ≠ .table) (type : Ty) :
    match e.content.reap with
    | some f => (nspSetvaltype e.obj type).run s = .error f s
    | none => ∃ s', (nspSetvaltype e.obj type).run s = .ok () s' ∧
        TableRep s' t vt (A ++ { e with content := ⟨type, 0, e.content.kept⟩ } :: B) := by
  obtain ⟨y, hlook, hz, hc⟩ := h.look_entry (e := e) (by simp)
  obtain ⟨x, hx, hval, -⟩ := h.entry (e := e) (by simp)
  have htype : y.type = e.content.type := congrArg Content.type hc
  -- the last part of `nsp_setvaltype`
  have hlast : ∀ {s₁ : Store} {c : Content},
      TableRep s₁ t vt (A ++ { e with content := c } :: B) → ∃ s',
        ((do
          modVal e.obj fun y => { y with type := type }
          if type = Ty.table then modVal e.obj fun y => { y with autosort := true }) : H Unit).run s₁ =
            .ok () s' ∧ TableRep s' t vt (A ++ { e with content := ⟨type, c.size, c.data⟩ } :: B) := by
    intro s₁ c h₁
    obtain ⟨s₂, hrun, h₂⟩ := retype_entry h₁ type
    dsimp only at hrun h₂
    rw [Action.run_bind_ok hrun]
    split
    · exact modVal_entry h₂ (fun _ => rfl) (fun _ hy => hy)
    · exact ⟨s₂, rfl, h₂⟩
  rw [nspSetvaltype, Action.run_bind_ok (getObj_run hx), hval]
  dsimp only
  rw [Action.run_bind_ok (typeOf_run hlook), htype]
  by_cases hnull : e.content.type = .null
  · have hkept : e.content.kept = e.content.data := if_pos (Or.inr hnull)
    rw [if_neg (not_not.mpr hnull), Content.reap_of_ne (by rw [hnull]; decide), hkept]
    obtain ⟨s', hrun, h'⟩ := hlast (c := e.content) h
    rw [hbare (.inr hnull)] at h'
    exact ⟨s', hrun, h'⟩
  · have hkept : e.content.kept = .num 0 := if_neg fun h => h.elim htable hnull
    have hfree := nFreeval_entry h hnull htable
    rw [if_pos hnull, hkept, if_neg htable]
    cases hreap : e.content.reap with
    | some f =>
        rw [hreap] at hfree
        exact Action.run_bind_error hfree
    | none =>
        rw [hreap] at hfree
        obtain ⟨s₁, hrun, h₁⟩ := hfree
        rw [Action.run_bind_ok hrun]
        exact hlast h₁

/-- `nsp_strcat` to a value that only has a type. -/
theorem nspStrcat_entry {A B : List Entry} {e : Entry} (h : TableRep s t vt (A ++ e :: B)) {type : Ty}
    (htype : type = .string ∨ type = .nfunc ∨ type = .cdata) {d : Data} (he : e.content = ⟨type, 0, d⟩)
    (b : List Byte) : ∃ s', (nspStrcat e.obj b).run s = .ok () s' ∧
      TableRep s' t vt (A ++ { e with content := ⟨type, b.length, if b = [] then d else .str b⟩ } :: B) := by
  obtain ⟨y, hlook, -, hc⟩ := h.look_entry (e := e) (by simp)
  rw [he] at hc
  have hy : y.type = type := congrArg Content.type hc
  have hsize : y.size = 0 := congrArg Content.size hc
  rw [nspStrcat, Action.run_bind_ok (typeOf_run hlook), hy, if_pos htype]
  cases b with
  | nil =>
      refine ⟨s, rfl, ?_⟩
      rw [List.length_nil, if_pos rfl, ← he]
      exact h
  | cons c b =>
      rw [if_neg (by simp), Action.run_bind_ok (getVal_run hlook), if_pos hsize,
        Action.run_bind_ok (Action.run_pure _ _), if_neg (List.cons_ne_nil c b)]
      refine modVal_entry h (fun _ => rfl) ?_
      intro y hy
      rw [he] at hy
      simp only [Val.content, Content.mk.injEq] at hy ⊢
      exact ⟨hy.1, by rw [hy.2.1, Nat.zero_add], by rw [List.take_nil, List.nil_append]⟩

/-- The data of a setting is stored in a value that has its type and no size. -/
theorem storeSetting_entry {A B : List Entry} {e : Entry} (h : TableRep s t vt (A ++ e :: B))
    (v : Setting) {d : Data} (he : e.content = ⟨v.type, 0, d⟩) :
    ∃ s', (storeSetting e.obj v).run s = .ok () s' ∧
      TableRep s' t vt (A ++ { e with content := v.over d } :: B) := by
  have number : ∀ d : Data, ∃ s', (modVal e.obj fun y => { y with d := d }).run s = .ok () s' ∧
      TableRep s' t vt (A ++ { e with content := ⟨v.type, 0, d⟩ } :: B) := by
    intro d
    refine modVal_entry h (fun _ => rfl) ?_
    intro y hy
    rw [he] at hy
    simp only [Val.content, Content.mk.injEq, and_true] at hy ⊢
    exact ⟨hy.1, hy.2.1⟩
  have same : v.over d = ⟨v.type, 0, d⟩ → TableRep s t vt (A ++ { e with content := v.over d } :: B) := by
    intro hv
    rw [hv, ← he]
    exact h
  cases v with
  | null => exact ⟨s, rfl, same rfl⟩
  | table => exact ⟨s, rfl, same rfl⟩
  | boolean q => exact number _
  | number q => exact number _
  | cfunc f => exact number _
  | string b => exact nspStrcat_entry h (.inl rfl) he b
  | nfunc b => exact nspStrcat_entry h (.inr (.inl rfl)) he b
  | cdata b => exact nspStrcat_entry h (.inr (.inr rfl)) he b

/-! ### New entries -/

/-- A new entry is an object and a value of its own. -/
theorem newEntry_run (s : Store) (oname : List Byte) (otype : Ty) (p n : Option ObjId) :
    ∃ s', (newEntry oname otype p n).run s = .ok s.objs.next s' ∧
      s'.objs.get s.objs.next = some (Obj.setname { prev := p, next := n, val := some s.vals.next } oname) ∧
      (∀ o, o ≠ s.objs.next → s'.objs.get o = s.objs.get o) ∧ s'.vals = s.vals.alloc { type := otype } := by
  obtain ⟨s₁, hrun₁, ho₁, hv₁⟩ : ∃ s₁, newObj.run s = .ok s.objs.next s₁ ∧ s₁.objs = s.objs.alloc {} ∧
    s₁.vals = s.vals := ⟨_, rfl, rfl, rfl⟩
  have hx₁ : s₁.objs.get s.objs.next = some {} := by rw [ho₁, Cells.get_alloc_self]
  obtain ⟨s₂, hrun₂, ho₂, hv₂⟩ := modObj_step (f := fun x => { x with prev := p }) (g := fun _ => rfl) hx₁
  have hx₂ : s₂.objs.get s.objs.next = some { prev := p } := by
    rw [ho₂, Cells.get_modify_self, hx₁, Option.map_some]
  obtain ⟨s₃, hrun₃, ho₃, hv₃⟩ := modObj_step (f := fun x => { x with next := n }) (g := fun _ => rfl) hx₂
  have hx₃ : s₃.objs.get s.objs.next = some { prev := p, next := n } := by
    rw [ho₃, Cells.get_modify_self, hx₂, Option.map_some]
  obtain ⟨s₄, hrun₄, ho₄, hv₄⟩ := newValFor_step (y := { type := otype }) hx₃
  have hx₄ : s₄.objs.get s.objs.next = some { prev := p, next := n, val := some s.vals.next } := by
    rw [ho₄, Cells.get_modify_self, hx₃, Option.map_some, hv₃, hv₂, hv₁]
  obtain ⟨s₅, hrun₅, ho₅, hv₅⟩ := modObj_step (f := fun x => x.setname oname) (g := fun _ => rfl) hx₄
  refine ⟨s₅, ?_, ?_, ?_, ?_⟩
  · rw [newEntry, Action.run_bind_ok hrun₁, setPrev, Action.run_bind_ok hrun₂, setNext,
      Action.run_bind_ok hrun₃, Action.run_bind_ok hrun₄, nSetname, Action.run_bind_ok hrun₅]
    rfl
  · rw [ho₅, Cells.get_modify_self, hx₄, Option.map_some]
  · intro o ho
    rw [ho₅, Cells.get_modify_of_ne _ ho, ho₄, Cells.get_modify_of_ne _ ho, ho₃, Cells.get_modify_of_ne _ ho,
      ho₂, Cells.get_modify_of_ne _ ho, ho₁, Cells.get_alloc_of_ne _ ho]
  · rw [hv₅, hv₄, hv₃, hv₂, hv₁]

/-- A new entry leaves the table's value. -/
theorem look_newEntry {s₁ : Store} {y y' : Val} (hlook : s.look t = .ok (vt, y))
    (hobjs : ∀ o, o ≠ s.objs.next → s₁.objs.get o = s.objs.get o) (hvals : s₁.vals = s.vals.alloc y') :
    s₁.look t = .ok (vt, y) := by
  obtain ⟨hptr, hy⟩ := Store.ptr_of_look hlook
  obtain ⟨x, hx, hxv⟩ := Option.bind_eq_some_iff.mp hptr
  refine Store.look_eq (by rw [hobjs _ (Cells.ne_next hx), hx]) hxv ?_
  rw [hvals]
  exact Cells.get_alloc_of_some hy

/-- The entry that `newEntry` makes. -/
def Store.fresh (s : Store) (oname : List Byte) (otype : Ty) : Entry :=
  ⟨s.objs.next, s.vals.next, oname, blank otype⟩

/-- The value of a table with one more entry: the cursor is where it was. -/
theorem TableVal.insert {A B : List Entry} {e : Entry} {y y' : Val} (h : TableVal (A ++ B) y)
    (hne : A ++ B ≠ []) {f i l : Option ObjId} (hd : y.d.asTable = .ok (f, i, l))
    (hy' : y'.type = y.type ∧ y'.autosort = y.autosort ∧ y'.ztable = y.ztable)
    (hd' : y'.d.asTable =
      .ok ((A ++ e :: B).head?.map Entry.obj, i, (A ++ e :: B).getLast?.map Entry.obj)) :
    TableVal (A ++ e :: B) y' := by
  obtain ⟨htype, hauto, hz, j, hdj, hj⟩ := h
  obtain rfl : j = i := by
    rw [hdj] at hd
    cases hd
    rfl
  refine ⟨hy'.1.trans htype, hy'.2.1.trans hauto, hy'.2.2.trans hz, j, hd', ?_⟩
  intro _ o ho
  obtain ⟨e', he', rfl⟩ := hj hne o ho
  exact ⟨e', mem_middle.mpr (.inr he'), rfl⟩

theorem modTable_step {g} {y : Val} {f i l : Option ObjId} (hlook : s.look t = .ok (vt, y))
    (hd : y.d.asTable = .ok (f, i, l)) :
    ∃ s', (modTable t g).run s = .ok () s' ∧ s'.objs = s.objs ∧ s'.vals.next = s.vals.next ∧
      (∀ v, v ≠ vt → s'.vals.get v = s.vals.get v) ∧ s'.vals.get vt = some { y with
        d := .table (g (f, i, l)).1 (g (f, i, l)).2.1 (g (f, i, l)).2.2 } := by
  refine ⟨_, modTable_run hlook hd, rfl, rfl, fun v hv => Cells.get_modify_of_ne _ hv, ?_⟩
  rw [Cells.get_modify_self, (Store.ptr_of_look hlook).2, Option.map_some]

/-- What a new entry and the links to it leave of the memory. -/
structure Inserted (s s' : Store) (vt : ValId) (A B : List Entry) (oname : List Byte) (otype : Ty) : Prop where
  obj : s'.objs.get s.objs.next = some (Obj.setname
    { prev := A.getLast?.map Entry.obj, next := B.head?.map Entry.obj, val := some s.vals.next } oname)
  objs : ∀ o x, s.objs.get o = some x → s'.objs.get o = some (relink A B s.objs.next o x)
  vals : ∀ v, v ≠ vt → s'.vals.get v = (s.vals.alloc { type := otype }).get v
  table : ∃ y, s'.vals.get vt = some y ∧ TableVal (A ++ s.fresh oname otype :: B) y

theorem TableRep.inserted {A B : List Entry} (h : TableRep s t vt (A ++ B)) {s' : Store}
    {oname : List Byte} {otype : Ty} (hname : clip oname = oname) (h' : Inserted s s' vt A B oname otype) :
    TableRep s' t vt (A ++ s.fresh oname otype :: B) := by
  have hvt : s.vals.next ≠ vt := by
    obtain ⟨y, hy, -⟩ := h.table
    exact (Cells.ne_next hy).symm
  refine h.insert s.objs.get_next s.vals.get_next ⟨_, h'.obj, rfl, rfl, rfl, hname, ?_⟩ h'.objs
    ⟨{ type := otype }, ?_, rfl, rfl⟩ ?_ h'.table
  · show nameNval (clip oname) = nameNval oname
    rw [hname]
  · show s'.vals.get s.vals.next = _
    rw [h'.vals _ hvt, Cells.get_alloc_self]
  · intro v hv hne
    rw [h'.vals v hv, Cells.get_alloc_of_ne _ hne]

/-- `n_locateobj` before an entry: a new one is linked in there. -/
theorem locateSet_before {A B : List Entry} {b : Entry} (h : TableRep s t vt (A ++ b :: B))
    {oname : List Byte} (hname : clip oname = oname) (otype : Ty) {c : Int} (hc : 0 < c)
    (o : Option ObjId) : ∃ s', (locateSet t oname otype c (some b.obj) o).run s = .ok s.objs.next s' ∧
      TableRep s' t vt (A ++ s.fresh oname otype :: b :: B) := by
  obtain ⟨y, hlook, ht⟩ := h.look
  obtain ⟨i, hd, hi⟩ := ht.links
  obtain ⟨x, hx, hat⟩ := h.linked A b B rfl
  obtain ⟨s₁, hrun₁, hc₁, ho₁, hv₁⟩ := newEntry_run s oname otype x.prev (some b.obj)
  have hb₁ : s₁.objs.get b.obj = some x := by rw [ho₁ _ (Cells.ne_next hx), hx]
  rw [locateSet, Action.run_bind_ok (getVal_run hlook), if_pos ⟨hc, ht.autosort⟩]
  dsimp only
  rw [Action.run_bind_ok (getObj_run hx), Action.run_bind_ok hrun₁, hd,
    Action.run_bind_ok (member_run _ _)]
  have hlook₁ := look_newEntry hlook ho₁ hv₁
  cases hA : A.getLast? with
  | none =>
      -- the new entry is the first one
      obtain rfl := List.getLast?_eq_none_iff.mp hA
      obtain ⟨s₂, hrun₂, ho₂, -, hv₂, hy₂⟩ := modTable_step
        (g := fun x => (some s.objs.next, x.2.1, x.2.2)) hlook₁ hd
      have hb₂ : s₂.objs.get b.obj = some x := by rw [ho₂, hb₁]
      obtain ⟨s₃, hrun₃, ho₃, hv₃⟩ := modObj_step (f := fun x => { x with prev := some s.objs.next })
        (g := fun _ => rfl) hb₂
      refine ⟨s₃, ?_, ?_⟩
      · have hfirst : ([] ++ b :: B).head?.map Entry.obj = some b.obj := rfl
        rw [if_pos hfirst, Action.run_bind_ok hrun₂, hat.1]
        dsimp only [List.getLast?_nil, Option.map_none]
        rw [setPrev, Action.run_bind_ok hrun₃]
        rfl
      · refine h.inserted hname ⟨?_, ?_, ?_, ?_⟩
        · rw [ho₃, Cells.get_modify_of_ne _ (Cells.ne_next hx).symm, ho₂, hc₁, hat.1]
          rfl
        · intro o x' hx'
          rw [ho₃]
          by_cases ho : o = b.obj
          · subst ho
            obtain rfl : x = x' := Option.some.inj (hx.symm.trans hx')
            rw [Cells.get_modify_self, hb₂]
            simp [relink]
          · rw [Cells.get_modify_of_ne _ ho, ho₂, ho₁ _ (Cells.ne_next hx'), hx']
            simp [relink, Ne.symm ho]
        · intro v hv
          rw [hv₃, hv₂ v hv, hv₁]
        · rw [← hv₃] at hy₂
          refine ⟨_, hy₂, ?_⟩
          refine ht.insert (A := []) (by simp) hd ⟨rfl, rfl, rfl⟩ ?_
          simp [Data.asTable, Store.fresh, List.getLast?_cons]
  | some a =>
      obtain ⟨A', rfl⟩ : ∃ A', A = A' ++ [a] := List.getLast?_eq_some_iff.mp hA
      have hab : a.obj ≠ b.obj := h.obj_ne rfl (by simp) (List.mem_cons_self ..)
      have hfirst : (A' ++ [a] ++ b :: B).head?.map Entry.obj ≠ some b.obj := by
        intro heq
        obtain ⟨e, he, heq⟩ := Option.map_eq_some_iff.mp heq
        rw [List.head?_append_of_ne_nil _ (by simp)] at he
        exact h.obj_ne rfl (List.mem_of_head? he) (List.mem_cons_self ..) heq
      obtain ⟨xa, hxa, -⟩ := h.entry (e := a) (by simp)
      have ha₁ : s₁.objs.get a.obj = some xa := by rw [ho₁ _ (Cells.ne_next hxa), hxa]
      obtain ⟨s₂, hrun₂, ho₂, hv₂⟩ := modObj_step (f := fun x => { x with next := some s.objs.next })
        (g := fun _ => rfl) ha₁
      have hb₂ : s₂.objs.get b.obj = some x := by rw [ho₂, Cells.get_modify_of_ne _ hab.symm, hb₁]
      obtain ⟨s₃, hrun₃, ho₃, hv₃⟩ := modObj_step (f := fun x => { x with prev := some s.objs.next })
        (g := fun _ => rfl) hb₂
      refine ⟨s₃, ?_, ?_⟩
      · rw [if_neg hfirst, hat.1, hA]
        dsimp only [Option.map_some]
        rw [setNext, Action.run_bind_ok hrun₂, setPrev, Action.run_bind_ok hrun₃]
        rfl
      · refine h.inserted hname ⟨?_, ?_, ?_, ?_⟩
        · rw [ho₃, Cells.get_modify_of_ne _ (Cells.ne_next hx).symm, ho₂,
            Cells.get_modify_of_ne _ (Cells.ne_next hxa).symm, hc₁, hat.1]
          rfl
        · intro o x' hx'
          rw [ho₃]
          by_cases ho : o = b.obj
          · subst ho
            obtain rfl : x = x' := Option.some.inj (hx.symm.trans hx')
            rw [Cells.get_modify_self, hb₂]
            simp [relink, hab]
          · rw [Cells.get_modify_of_ne _ ho, ho₂]
            by_cases ho' : o = a.obj
            · subst ho'
              obtain rfl : xa = x' := Option.some.inj (hxa.symm.trans hx')
              rw [Cells.get_modify_self, ha₁]
              simp [relink, Ne.symm ho]
            · rw [Cells.get_modify_of_ne _ ho', ho₁ _ (Cells.ne_next hx'), hx']
              simp [relink, Ne.symm ho, Ne.symm ho']
        · intro v hv
          rw [hv₃, hv₂, hv₁]
        · refine ⟨y, ?_, ht.insert (by simp) hd ⟨rfl, rfl, rfl⟩ ?_⟩
          · rw [hv₃, hv₂]
            exact (Store.ptr_of_look hlook₁).2
          · rw [hd]
            simp [List.getLast?_append, List.getLast?_cons, List.head?_append]

/-- `n_locateobj` behind the last entry: a new one is linked in there. -/
theorem locateSet_behind (h : TableRep s t vt es) (hne : es ≠ []) {oname : List Byte}
    (hname : clip oname = oname) (otype : Ty) {c : Int} (hc : c < 0) :
    ∃ s', (locateSet t oname otype c none (es.getLast?.map Entry.obj)).run s = .ok s.objs.next s' ∧
      TableRep s' t vt (es ++ [s.fresh oname otype]) := by
  obtain ⟨y, hlook, ht⟩ := h.look
  obtain ⟨i, hd, hi⟩ := ht.links
  obtain ⟨s₁, hrun₁, hc₁, ho₁, hv₁⟩ := newEntry_run s oname otype (es.getLast?.map Entry.obj) none
  obtain ⟨A', a, rfl⟩ : ∃ A' a, es = A' ++ [a] := 
    ⟨es.dropLast, es.getLast hne, (List.dropLast_append_getLast hne).symm⟩
  obtain ⟨xa, hxa, -⟩ := h.entry (e := a) (by simp)
  have ha₁ : s₁.objs.get a.obj = some xa := by rw [ho₁ _ (Cells.ne_next hxa), hxa]
  obtain ⟨s₂, hrun₂, ho₂, hv₂⟩ := modObj_step (f := fun x => { x with next := some s.objs.next })
    (g := fun _ => rfl) ha₁
  have hlook₂ : s₂.look t = .ok (vt, y) := by
    have hlook₁ := look_newEntry hlook ho₁ hv₁
    refine Store.look_of_ptr ?_ (hv₂ ▸ (Store.ptr_of_look hlook₁).2)
    rw [← (Store.ptr_of_look hlook₁).1, Store.ptr, Store.ptr, ho₂]
    by_cases ht : t = a.obj
    · subst ht
      rw [Cells.get_modify_self, ha₁]
      rfl
    · rw [Cells.get_modify_of_ne _ ht]
  obtain ⟨s₃, hrun₃, ho₃, -, hv₃, hy₃⟩ := modTable_step
    (g := fun x => (x.1, x.2.1, some s.objs.next)) hlook₂ hd
  rw [locateSet, Action.run_bind_ok (getVal_run hlook), if_neg (by omega)]
  dsimp only
  rw [Action.run_bind_ok hrun₁, List.getLast?_concat, Option.map_some]
  dsimp only
  rw [setNext, Action.run_bind_ok hrun₂, Action.run_bind_ok hrun₃]
  have h₀ : TableRep s t vt (A' ++ [a] ++ []) := by rwa [List.append_nil]
  refine ⟨s₃, rfl, h₀.inserted hname ⟨?_, ?_, ?_, ?_⟩⟩
  · rw [ho₃, ho₂, Cells.get_modify_of_ne _ (Cells.ne_next hxa).symm, hc₁]
    rfl
  · intro o x' hx'
    rw [ho₃, ho₂]
    by_cases ho' : o = a.obj
    · subst ho'
      obtain rfl : xa = x' := Option.some.inj (hxa.symm.trans hx')
      rw [Cells.get_modify_self, ha₁]
      simp [relink]
    · rw [Cells.get_modify_of_ne _ ho', ho₁ _ (Cells.ne_next hx'), hx']
      simp [relink, Ne.symm ho']
  · intro v hv
    rw [hv₃ v hv, hv₂, hv₁]
  · refine ⟨_, hy₃, ?_⟩
    rw [← List.append_nil (A' ++ [a])] at ht
    refine ht.insert (by simp) hd ⟨rfl, rfl, rfl⟩ ?_
    simp [Data.asTable, Store.fresh, List.getLast?_append, List.head?_append]

/-- `n_locateobj` at an entry of the name: its value is left with a type and no size, or the
search stops where it frees the old one. -/
theorem locateSet_hit {A B : List Entry} {b : Entry} (h : TableRep s t vt (A ++ b :: B))
    (hbare : b.content.Bare) (oname : List Byte) (otype : Ty) (o : Option ObjId) :
    match b.content.reap with
    | some f => (locateSet t oname otype 0 (some b.obj) o).run s = .error f s
    | none => ∃ s', (locateSet t oname otype 0 (some b.obj) o).run s = .ok b.obj s' ∧
        TableRep s' t vt (A ++ { b with content := ⟨otype, 0, b.content.kept⟩ } :: B) := by
  obtain ⟨y, hlook, ht⟩ := h.look
  obtain ⟨yb, hlookb, -, hyb⟩ := h.look_entry (e := b) (by simp)
  have htype : yb.type = b.content.type := congrArg Content.type hyb
  rw [locateSet, Action.run_bind_ok (getVal_run hlook), if_neg (by simp)]
  dsimp only
  rw [Action.run_bind_ok (typeOf_run hlookb), htype]
  by_cases htable : b.content.type = .table
  · have hkept : b.content.kept = b.content.data := if_pos (Or.inl htable)
    rw [if_pos htable, Content.reap_of_ne (by rw [htable]; decide), hkept]
    obtain ⟨s', hrun, h'⟩ := retype_entry h otype
    rw [hbare (.inl htable)] at h'
    exact ⟨s', by rw [Action.run_bind_ok hrun]; rfl, h'⟩
  · have hset := nspSetvaltype_entry h hbare htable otype
    rw [if_neg htable]
    cases hreap : b.content.reap with
    | some f =>
        rw [hreap] at hset
        exact Action.run_bind_error hset
    | none =>
        rw [hreap] at hset
        obtain ⟨s', hrun, h'⟩ := hset
        exact ⟨s', by rw [Action.run_bind_ok hrun]; rfl, h'⟩

/-- The first entry of a table. -/
theorem firstEntry_run (h : TableRep s t vt []) {oname : List Byte} (hname : clip oname = oname)
    (otype : Ty) : ∃ s', (firstEntry t oname otype).run s = .ok s.objs.next s' ∧
      TableRep s' t vt [s.fresh oname otype] := by
  obtain ⟨y, hlook, ht⟩ := h.look
  obtain ⟨i, hd, -⟩ := ht.links
  obtain ⟨s₁, hrun₁, ho₁, hv₁⟩ : ∃ s₁, newObj.run s = .ok s.objs.next s₁ ∧ s₁.objs = s.objs.alloc {} ∧
    s₁.vals = s.vals := ⟨_, rfl, rfl, rfl⟩
  have hlook₁ : s₁.look t = .ok (vt, y) := by
    obtain ⟨hptr, hy⟩ := Store.ptr_of_look hlook
    obtain ⟨x, hx, hxv⟩ := Option.bind_eq_some_iff.mp hptr
    exact Store.look_eq (by rw [ho₁, Cells.get_alloc_of_some hx]) hxv (by rw [hv₁, hy])
  obtain ⟨s₂, hrun₂, ho₂, hn₂, hv₂, hy₂⟩ := modTable_step
    (g := fun _ => (some s.objs.next, some s.objs.next, some s.objs.next)) hlook₁ hd
  have hx₂ : s₂.objs.get s.objs.next = some {} := by rw [ho₂, ho₁, Cells.get_alloc_self]
  obtain ⟨s₃, hrun₃, ho₃, hv₃⟩ := newValFor_step (y := { type := otype }) hx₂
  have hx₃ : s₃.objs.get s.objs.next = some { val := some s₂.vals.next } := by
    rw [ho₃, Cells.get_modify_self, hx₂, Option.map_some]
  obtain ⟨s₄, hrun₄, ho₄, hv₄⟩ := modObj_step (f := fun x => x.setname oname) (g := fun _ => rfl) hx₃
  have hnext : s₂.vals.next = s.vals.next := by rw [hn₂, hv₁]
  have h₄ : TableRep s₄ t vt ([] ++ s.fresh oname otype :: []) := by
    have h₀ : TableRep s t vt ([] ++ []) := h
    refine h₀.inserted hname ⟨?_, ?_, ?_, ?_⟩
    · rw [ho₄, Cells.get_modify_self, hx₃, hnext]
      rfl
    · intro o x hx
      rw [ho₄, Cells.get_modify_of_ne _ (Cells.ne_next hx), ho₃, Cells.get_modify_of_ne _ (Cells.ne_next hx),
        ho₂, ho₁, Cells.get_alloc_of_some hx]
      rfl
    · intro v hv
      rw [hv₄, hv₃]
      by_cases hnew : v = s.vals.next
      · subst hnew
        rw [Cells.get_alloc_self, ← hnext, Cells.get_alloc_self]
      · rw [Cells.get_alloc_of_ne _ hnew, Cells.get_alloc_of_ne _ (hnext ▸ hnew), hv₂ v hv, hv₁]
    · rw [hv₄, hv₃]
      refine ⟨_, Cells.get_alloc_of_some hy₂, ht.type, ht.autosort, ht.ztable, some s.objs.next, rfl, ?_⟩
      intro _ o ho
      exact ⟨s.fresh oname otype, by simp, Option.some.inj ho⟩
  obtain ⟨y₄, hlook₄, -⟩ := h₄.look
  obtain ⟨s₅, hrun₅, h₅⟩ := modVal_entry h₄
    (f := fun x => { x with autosort := x.autosort || y₄.autosort }) (fun _ => rfl) (fun _ hy => hy)
  refine ⟨s₅, ?_, h₅⟩
  rw [firstEntry, Action.run_bind_ok hrun₁, Action.run_bind_ok hrun₂, Action.run_bind_ok hrun₃, nSetname,
    Action.run_bind_ok hrun₄, Action.run_bind_ok (getVal_run hlook₄)]
  exact Action.run_bind_ok hrun₅

/-! ### `nsp_setobj` and `nsp_getobj` -/

/-- A place between two entries, the one before below the name and the one behind above it. -/
def Between (oname : List Byte) (A B : List Entry) : Prop :=
  (∀ a ∈ A.getLast?, entryCmp oname a < 0) ∧ ∀ b ∈ B.head?, 0 < entryCmp oname b

/-- What `nsp_setobj` does to the entries of a table. -/
inductive SetTo (oname : List Byte) (v : Setting) : List Entry → List Entry → Prop where
  | old {A b B} : entryCmp oname b = 0 →
      SetTo oname v (A ++ b :: B) (A ++ { b with content := v.over b.content.kept } :: B)
  | new {A B e} : Between oname A B → e.name = oname → e.content = v.content →
      SetTo oname v (A ++ B) (A ++ e :: B)

/-- A run stops where the value of an entry is freed, with the table as it was but for the cursor. -/
def StopsAt {α : Type} (s : Store) (t : ObjId) (vt : ValId) (es : List Entry) (oname : List Byte) (x : H α) : Prop :=
  ∃ b ∈ es, entryCmp oname b = 0 ∧ ∃ f s', b.content.reap = some f ∧ x.run s = .error f s' ∧
    TableRep s' t vt es

/-- `n_locateobj` when it sets leaves an entry of the name with a type and no size. -/
theorem nLocateobjSet_run (h : TableRep s t vt es) (hes : es ≠ []) {oname : List Byte}
    (hname : clip oname = oname) (hbare : ∀ e ∈ es, e.content.Bare) (v : Setting) :
    (∃ A e B d s', (nLocateobjSet t oname v.type).run s = .ok e.obj s' ∧
      TableRep s' t vt (A ++ e :: B) ∧ e.content = ⟨v.type, 0, d⟩ ∧
      SetTo oname v es (A ++ { e with content := v.over d } :: B)) ∨
    StopsAt s t vt es oname (nLocateobjSet t oname v.type) := by
  obtain ⟨c, cobj, oobj, s₁, hstop, hrun, h₁⟩ := locateSearch_run (TableRep.searchable t vt es) h hes oname true
  rw [StopsAt, nLocateobjSet, Action.run_bind_ok hrun, found, if_neg (by simp)]
  dsimp only
  cases hstop with
  | @hit A b B _ hsplit hzero =>
      subst hsplit
      have hb : b ∈ A ++ b :: B := by simp
      have hset := locateSet_hit h₁ (hbare b hb) oname v.type oobj
      cases hreap : b.content.reap with
      | some f =>
          rw [hreap] at hset
          exact .inr ⟨b, hb, hzero, f, s₁, hreap, hset, h₁⟩
      | none =>
          rw [hreap] at hset
          obtain ⟨s', hrun', h'⟩ := hset
          exact .inl ⟨A, { b with content := ⟨v.type, 0, b.content.kept⟩ }, B, b.content.kept, s', hrun', h',
            rfl, .old hzero⟩
  | @before A b B _ _ hsplit hlow hhigh hc =>
      subst hsplit
      obtain ⟨s', hrun', h'⟩ := locateSet_before h₁ hname v.type hc oobj
      exact .inl ⟨A, s₁.fresh oname v.type, b :: B, .num 0, s', hrun', h', rfl,
        .new ⟨hlow, by simpa using hhigh⟩ rfl v.over_zero⟩
  | behind hlow hc =>
      obtain ⟨s', hrun', h'⟩ := locateSet_behind h₁ hes hname v.type hc
      refine .inl ⟨es, s₁.fresh oname v.type, [], .num 0, s', hrun', h', rfl, ?_⟩
      have hnew : SetTo oname v (es ++ [])
          (es ++ { s₁.fresh oname v.type with content := v.over (.num 0) } :: []) :=
        .new ⟨hlow, by simp⟩ rfl v.over_zero
      rwa [List.append_nil] at hnew

/-- `nsp_setobj` writes or adds one entry. -/
theorem nspSetobj_run (h : TableRep s t vt es) (ht : t ≠ retObj) {oname : List Byte} (hne : oname ≠ [])
    (hname : clip oname = oname) (hbare : ∀ e ∈ es, e.content.Bare) (v : Setting) :
    (∃ o s' es', (nspSetobj t (some oname) v).run s = .ok o s' ∧ TableRep s' t vt es' ∧
      SetTo oname v es es') ∨
    StopsAt s t vt es oname (nspSetobj t (some oname) v) := by
  obtain ⟨y, hlook, hy⟩ := h.look
  obtain ⟨i, hd, -⟩ := hy.links
  have htable : (nspIstable t).run s = .ok true s := by
    rw [nspIstable_run hlook, hy.type]
    rfl
  have hfirst : (firstOf t).run s = .ok (es.head?.map Entry.obj) s := by
    rw [firstOf, Action.run_bind_ok (getVal_run hlook), hd]
    rfl
  -- both ways leave an entry of the name, and the last part stores the data there
  have hstore : ∀ {x : H ObjId}, (∃ A e B d s', x.run s = .ok e.obj s' ∧ TableRep s' t vt (A ++ e :: B) ∧
      e.content = ⟨v.type, 0, d⟩ ∧ SetTo oname v es (A ++ { e with content := v.over d } :: B)) →
      ∃ o s' es', (do
        let cobj ← x
        storeSetting cobj v
        return cobj : H ObjId).run s = .ok o s' ∧ TableRep s' t vt es' ∧ SetTo oname v es es' := by
    rintro x ⟨A, e, B, d, s₁, hrun₁, h₁, hcontent, hto⟩
    obtain ⟨s', hrun', h'⟩ := storeSetting_entry h₁ v hcontent
    exact ⟨e.obj, s', _, by rw [Action.run_bind_ok hrun₁, Action.run_bind_ok hrun']; rfl, h', hto⟩
  rw [StopsAt, nspSetobj, Action.run_bind_ok htable, if_pos ⟨ht, rfl⟩, Action.run_bind_ok hfirst]
  · cases es with
    | nil =>
        obtain ⟨s', hrun, h'⟩ := firstEntry_run h hname v.type
        exact .inl (hstore ⟨[], s.fresh oname v.type, [], .num 0, s', hrun, h', rfl,
          .new (A := []) (B := []) (by simp [Between]) rfl v.over_zero⟩)
    | cons e es =>
        rcases nLocateobjSet_run h (List.cons_ne_nil e es) hname hbare v with hset | ⟨b, hb, hzero, f, s', hrest⟩
        · exact .inl (hstore hset)
        · exact .inr ⟨b, hb, hzero, f, s', hrest.1, Action.run_bind_error hrest.2.1, hrest.2.2⟩
  · exact hne

/-- `n_locateobj` when it looks up finds an entry of the name, or it returns NULL. -/
theorem nLocateobjGet_run {R : Store → Prop} (hR : Searchable t es R) (h : R s) (oname : List Byte) :
    ∃ r s', (nLocateobjGet t oname).run s = .ok r s' ∧ R s' ∧ (es = [] → s' = s) ∧
      ((∃ e ∈ es, entryCmp oname e = 0 ∧ r = some e.obj) ∨
        (r = none ∧ ∃ A B, es = A ++ B ∧ Between oname A B)) := by
  obtain ⟨v, y, hlook, -, i, hd, -⟩ := hR.look s h
  rw [nLocateobjGet, Action.run_bind_ok (getVal_run hlook), hd, Action.run_bind_ok (member_run _ _)]
  dsimp only
  cases es with
  | nil => exact ⟨none, s, rfl, h, fun _ => rfl, .inr ⟨rfl, [], [], rfl, by simp [Between]⟩⟩
  | cons e es =>
      obtain ⟨c, cobj, oobj, s', hstop, hrun, h'⟩ := locateSearch_run hR h (List.cons_ne_nil e es) oname false
      rw [if_neg (by simp), Action.run_bind_ok hrun]
      cases hstop with
      | hit hes hzero =>
          exact ⟨_, s', rfl, h', nofun, .inl ⟨_, by rw [hes]; simp, hzero, rfl⟩⟩
      | before hes hlow hhigh hc =>
          rw [found, if_pos ⟨rfl, by omega⟩]
          exact ⟨none, s', rfl, h', nofun, .inr ⟨rfl, _, _, hes, hlow, by simpa using hhigh⟩⟩
      | behind hlow hc =>
          rw [found, if_pos ⟨rfl, by omega⟩]
          exact ⟨none, s', rfl, h', nofun, .inr ⟨rfl, _, [], (List.append_nil _).symm, hlow, by simp⟩⟩

/-- What `n_locateobj` finds in a table is what `nsp_getobj` returns, if the table has no parent where it finds
nothing. -/
theorem nspGetobj_of_locate {y : Val} {oname : List Byte} {r : Option ObjId} {s' : Store} (ht : t ≠ retObj)
    (hlook : s.look t = .ok (vt, y)) (htype : y.type = .table) (hrun : (nLocateobjGet t oname).run s = .ok r s')
    (hz : r = none → ∃ v y', s'.look t = .ok (v, y') ∧ y'.ztable = none) :
    (nspGetobj (some t) oname).run s = .ok (r.getD nullObj) s' := by
  have htable : (nspIstable t).run s = .ok true s := by
    rw [nspIstable_run hlook, htype]
    rfl
  have hin : (getobjIn oname (s.objs.next + s.vals.next + 1) t).run s = .ok (r.getD nullObj, false) s' := by
    rw [getobjIn, if_neg ht, Action.run_bind_ok htable, if_pos rfl, Action.run_bind_ok hrun]
    cases r with
    | some o => rfl
    | none =>
        obtain ⟨v, y', hlook', hz'⟩ := hz rfl
        dsimp only
        rw [Action.run_bind_ok (getVal_run hlook'), hz']
        rfl
  rw [nspGetobj, nspGetobjEx, Action.run_bind, Action.run_bind_ok (walkFuel_run s), hin]
  rfl

/-- `nsp_getobj` finds an entry of the name, or it returns the null object. -/
theorem nspGetobj_search {R : Store → Prop} (hR : Searchable t es R)
    (hz : ∀ s, R s → ∃ v y, s.look t = .ok (v, y) ∧ y.type = .table ∧ y.ztable = none) (h : R s) (ht : t ≠ retObj)
    (oname : List Byte) :
    ∃ o s', (nspGetobj (some t) oname).run s = .ok o s' ∧ R s' ∧ (es = [] → s' = s) ∧
      ((∃ e ∈ es, entryCmp oname e = 0 ∧ o = e.obj) ∨
        (o = nullObj ∧ ∃ A B, es = A ++ B ∧ Between oname A B)) := by
  obtain ⟨v, y, hlook, htype, -⟩ := hz s h
  obtain ⟨r, s', hrun, h', hempty, hr⟩ := nLocateobjGet_run hR h oname
  have hget : (nspGetobj (some t) oname).run s = .ok (r.getD nullObj) s' := by
    refine nspGetobj_of_locate ht hlook htype hrun fun _ => ?_
    obtain ⟨v', y', hlook', -, hz'⟩ := hz s' h'
    exact ⟨v', y', hlook', hz'⟩
  refine ⟨_, s', hget, h', hempty, ?_⟩
  rcases hr with ⟨e, he, hzero, rfl⟩ | ⟨rfl, hgap⟩
  · exact .inl ⟨e, he, hzero, rfl⟩
  · exact .inr ⟨rfl, hgap⟩

/-- The same, in a table that stands alone. -/
theorem nspGetobj_run (h : TableRep s t vt es) (ht : t ≠ retObj) (oname : List Byte) :
    ∃ o s', (nspGetobj (some t) oname).run s = .ok o s' ∧ TableRep s' t vt es ∧ (es = [] → s' = s) ∧
      ((∃ e ∈ es, entryCmp oname e = 0 ∧ o = e.obj) ∨
        (o = nullObj ∧ ∃ A B, es = A ++ B ∧ Between oname A B)) := by
  refine nspGetobj_search (TableRep.searchable t vt es) (fun s h => ?_) h ht oname
  obtain ⟨y, hlook, hy⟩ := h.look
  exact ⟨vt, y, hlook, hy.type, hy.ztable⟩

end Run

end NullG.Nsp
