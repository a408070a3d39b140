/-
The objects that an expression is evaluated in.

`n_evalobj` and `n_evalsub` work on objects of the C stack, each with a value of its own. While it
holds no table such a value can be given a type, stored into and freed without any other object
being touched: the rules here say what the actions of `Objects` leave in it, and `Spares` that they
leave everything else alone.
-/

import NullG.Nsp.Eval
import NullG.Nsp.TableList

namespace NullG.Nsp

open NullG.Lib

/-! ### What is left alone -/

/-- The cells in use in `s` are the same in `t`, but for the objects of `O` and the values of `W`. -/
structure Spares (O : ObjId → Prop) (W : ValId → Prop) (s t : Store) : Prop where
  objs : ∀ {o x}, ¬ O o → s.objs.get o = some x → t.objs.get o = some x
  vals : ∀ {w y}, ¬ W w → s.vals.get w = some y → t.vals.get w = some y
  nextObj : s.objs.next ≤ t.objs.next
  nextVal : s.vals.next ≤ t.vals.next
  locals : t.locals = s.locals

/-- No cell. -/
abbrev noCell : Nat → Prop := fun _ => False

section

variable {O O' : ObjId → Prop} {W W' : ValId → Prop} {s t u : Store}

theorem Spares.refl (s : Store) : Spares O W s s :=
  ⟨fun _ h => h, fun _ h => h, Nat.le_refl _, Nat.le_refl _, rfl⟩

/-- Cells that were not in use before need not be named. -/
theorem Spares.trans (h : Spares O W s t) (h' : Spares O' W' t u)
    (hO : ∀ o, O' o → O o ∨ s.objs.get o = none) (hW : ∀ w, W' w → W w ∨ s.vals.get w = none) :
    Spares O W s u := by
  refine ⟨fun {o x} ho hx => ?_, fun {w y} hw hy => ?_, Nat.le_trans h.nextObj h'.nextObj,
    Nat.le_trans h.nextVal h'.nextVal, h'.locals.trans h.locals⟩
  · refine h'.objs (fun ho' => ?_) (h.objs ho hx)
    rcases hO o ho' with ho' | hnone
    · exact ho ho'
    · rw [hnone] at hx
      cases hx
  · refine h'.vals (fun hw' => ?_) (h.vals hw hy)
    rcases hW w hw' with hw' | hnone
    · exact hw hw'
    · rw [hnone] at hy
      cases hy

theorem Spares.mono (h : Spares O W s t) (hO : ∀ o, O o → O' o) (hW : ∀ w, W w → W' w) : Spares O' W' s t :=
  ⟨fun ho => h.objs fun h => ho (hO _ h), fun hw => h.vals fun h => hw (hW _ h), h.nextObj, h.nextVal, h.locals⟩

theorem look_iff {s : Store} {o : ObjId} {v : ValId} {y : Val} :
    s.look o = .ok (v, y) ↔ ∃ x, s.objs.get o = some x ∧ x.val = some v ∧ s.vals.get v = some y := by
  constructor
  · intro h
    obtain ⟨hptr, hy⟩ := Store.ptr_of_look h
    obtain ⟨x, hx, hv⟩ := Option.bind_eq_some_iff.mp hptr
    exact ⟨x, hx, hv, hy⟩
  · rintro ⟨x, hx, hv, hy⟩
    unfold Store.look
    rw [hx]
    dsimp only
    rw [hv]
    dsimp only
    rw [hy]

theorem Spares.look {o : ObjId} {v : ValId} {y : Val} (h : Spares O W s t) (ho : ¬ O o) (hv : ¬ W v)
    (hlook : s.look o = .ok (v, y)) : t.look o = .ok (v, y) := by
  obtain ⟨x, hx, hval, hy⟩ := look_iff.mp hlook
  exact look_iff.mpr ⟨x, h.objs ho hx, hval, h.vals hv hy⟩

end

/-! ### Reading and writing a value -/

/-- The store behind a write to the value `v` of `o`. -/
def Store.write (s : Store) (o : ObjId) (v : ValId) (f : Val → Val) : Store :=
  { s with vals := s.vals.modify v f, stray := s.stray || o == nullObj }

theorem member_of_eq {α : Type} {x : Except Fault α} {a : α} {s : Store} (h : x = .ok a) :
    (member x).run s = .ok a s := by
  rw [h]
  exact member_run a s

section

variable {s : Store} {o : ObjId} {v : ValId} {y : Val} (h : s.look o = .ok (v, y))

include h

theorem getObj_look : ∃ x, (getObj o).run s = .ok x s ∧ x.val = some v := by
  obtain ⟨x, hx, hv, hy⟩ := look_iff.mp h
  refine ⟨x, ?_, hv⟩
  unfold getObj
  refine Action.run_require_ok ?_
  rw [hx]

theorem modVal_write (f : Val → Val) : (modVal o f).run s = .ok () (s.write o v f) := by
  simp only [modVal, h, Store.write]

theorem look_write_self (f : Val → Val) (p : ObjId) : (s.write p v f).look o = .ok (v, f y) := by
  obtain ⟨x, hx, hv, hy⟩ := look_iff.mp h
  refine look_iff.mpr ⟨x, hx, hv, ?_⟩
  show (s.vals.modify v f).get v = _
  rw [Cells.get_modify_self, hy]
  rfl

end

theorem frame_write (s : Store) (o : ObjId) (v : ValId) (f : Val → Val) :
    Spares noCell (· = v) s (s.write o v f) := by
  refine ⟨fun _ h => h, fun {w y} hw hy => ?_, Nat.le_refl _, Nat.le_refl _, rfl⟩
  show (s.vals.modify v f).get w = _
  rw [Cells.get_modify_of_ne _ hw, hy]

/-- In `t` the object `o` has the value `y` at `v`, and nothing else has changed. -/
structure Sets (s : Store) (o : ObjId) (v : ValId) (y : Val) (t : Store) : Prop where
  look : t.look o = .ok (v, y)
  frame : Spares noCell (· = v) s t

theorem Sets.trans {s t u : Store} {o : ObjId} {v : ValId} {y z : Val} (h : Sets s o v y t)
    (h' : Sets t o v z u) : Sets s o v z u :=
  ⟨h'.look, h.frame.trans h'.frame (fun _ => .inl) fun _ => .inl⟩

theorem sets_write {s : Store} {o : ObjId} {v : ValId} {y z : Val} {f : Val → Val}
    (h : s.look o = .ok (v, y)) (hz : f y = z) : Sets s o v z (s.write o v f) :=
  ⟨hz ▸ look_write_self h f o, frame_write s o v f⟩

/-! ### Values without a table -/

/-- The value can be freed without anything else being freed. -/
structure Val.Light (y : Val) : Prop where
  table : y.type ≠ .table
  cdata : y.type ≠ .cdata
  ztable : y.type = .null ∨ y.ztable = none

/-- The value holds nothing that has to be freed. -/
structure Val.Plain (y : Val) : Prop where
  table : y.type ≠ .table
  cdata : y.type ≠ .cdata
  ztable : y.ztable = none

theorem Val.Plain.light {y : Val} (hp : y.Plain) : y.Light := ⟨hp.table, hp.cdata, .inr hp.ztable⟩

section

variable {s : Store} {o : ObjId} {v : ValId} {y : Val}

/-- The value when it is freed. -/
def Val.freed (y : Val) : Val :=
  if y.type = .null then y else { y with type := .null, size := 0, d := .num 0 }

theorem Val.freed_type (y : Val) : y.freed.type = .null := by
  unfold Val.freed
  split
  · assumption
  · rfl

theorem Val.freed_stackval (y : Val) : y.freed.stackval = y.stackval := by
  unfold Val.freed
  split <;> rfl

theorem Val.freed_ztable (y : Val) : y.freed.ztable = y.ztable := by
  unfold Val.freed
  split <;> rfl

theorem Val.freed_light (y : Val) : y.freed.Light := by
  refine ⟨?_, ?_, .inl y.freed_type⟩
  · rw [y.freed_type]
    exact Ty.noConfusion
  · rw [y.freed_type]
    exact Ty.noConfusion

theorem Val.Plain.freed (hp : y.Plain) : y.freed.Plain := by
  exact ⟨y.freed_light.table, y.freed_light.cdata, y.freed_ztable.trans hp.ztable⟩

theorem freeval_run (n : Nat) (h : s.look o = .ok (v, y)) (hv : v ≠ nullVal) (hp : y.Light) :
    ∃ t, (freeval (n + 1) o).run s = .ok () t ∧ Sets s o v y.freed t := by
  unfold freeval
  rw [Action.run_bind_ok (typeOf_run h)]
  by_cases ht : y.type = .null
  · obtain ⟨x, hx, hval⟩ := getObj_look h
    have hne : ¬ x.val = some nullVal := by
      rw [hval]
      exact fun h => hv (Option.some.inj h)
    rw [if_pos ht, Action.run_bind_ok hx, if_neg hne, Val.freed, if_pos ht]
    exact ⟨s, rfl, h, .refl s⟩
  · let z : Val := { y with type := .null, size := 0, d := .num 0 }
    have hz : y.freed = z := if_neg ht
    rw [if_neg ht, if_neg hp.cdata, if_neg hp.table, hz]
    refine ⟨s.write o v fun y => { y with type := .null, size := 0, d := .num 0 }, ?_, sets_write h rfl⟩
    show (modVal o _ >>= _ : H Unit).run s = _
    rw [Action.run_bind_ok (modVal_write h _), Action.run_bind_ok (getVal_run (look_write_self h _ o))]
    dsimp only
    rw [hp.ztable.resolve_left ht]
    rfl

theorem nFreeval_run (h : s.look o = .ok (v, y)) (hv : v ≠ nullVal) (hp : y.Light) :
    ∃ t, (nFreeval o).run s = .ok () t ∧ Sets s o v y.freed t := by
  have hfuel : walkFuel.run s = .ok (s.objs.next + s.vals.next + 1) s := rfl
  unfold nFreeval
  rw [Action.run_bind_ok hfuel]
  exact freeval_run _ h hv hp

/-- The value when it is given a type. -/
def Val.retyped (y : Val) (type : Ty) : Val := { y.freed with type := type }

/-- `nsp_setvaltype` to a type that is none of a table. -/
theorem nspSetvaltype_run {type : Ty} (h : s.look o = .ok (v, y)) (hv : v ≠ nullVal) (hp : y.Plain)
    (htype : type ≠ .table) :
    ∃ t, (nspSetvaltype o type).run s = .ok () t ∧ Sets s o v (y.retyped type) t := by
  obtain ⟨x, hx, hval⟩ := getObj_look h
  unfold nspSetvaltype
  rw [Action.run_bind_ok hx, hval]
  dsimp only
  rw [Action.run_bind_ok (typeOf_run h)]
  by_cases ht : y.type = .null
  · rw [if_neg (not_not.mpr ht), Action.run_bind_ok (modVal_write h _), if_neg htype]
    refine ⟨_, rfl, ?_⟩
    have hz : y.retyped type = { y with type := type } := by
      unfold Val.retyped Val.freed
      rw [if_pos ht]
    rw [hz]
    exact sets_write h rfl
  · obtain ⟨t, hfree, hsets⟩ := nFreeval_run h hv hp.light
    rw [if_pos ht, if_neg hp.table, Action.run_bind_ok hfree, Action.run_bind_ok (modVal_write hsets.look _),
      if_neg htype]
    exact ⟨_, rfl, hsets.trans (sets_write hsets.look rfl)⟩

/-- A number or a boolean is stored. -/
theorem nspSetobj_number {S : Setting} {q : Num} (h : s.look o = .ok (v, y)) (hv : v ≠ nullVal)
    (hp : y.Plain) (name : Option (List Byte)) (htype : S.type ≠ .table)
    (hset : storeSetting o S = modVal o fun y => { y with d := .num q }) :
    ∃ t, (nspSetobj o name S).run s = .ok o t ∧ Sets s o v { y.retyped S.type with d := .num q } t := by
  have htable : (y.type == .table) = false := beq_eq_false_iff_ne.mpr hp.table
  obtain ⟨t, htyped, hsets⟩ := nspSetvaltype_run h hv hp htype
  unfold nspSetobj
  rw [Action.run_bind_ok (nspIstable_run h), htable, if_neg fun h => Bool.noConfusion h.2,
    Action.run_bind_ok htyped, hset, Action.run_bind_ok (modVal_write hsets.look _)]
  exact ⟨_, rfl, hsets.trans (sets_write hsets.look rfl)⟩

end

/-! ### Objects on the stack -/

/-- The value of a new object on the stack. -/
abbrev stackVal : Val := { type := .null, stackval := true }

theorem stackVal_plain : stackVal.Plain := ⟨Ty.noConfusion, Ty.noConfusion, rfl⟩

theorem newValFor_run {s : Store} {o : ObjId} {x : Obj} (y : Val) (hx : s.objs.get o = some x) :
    ∃ t, (newValFor o y).run s = .ok () t ∧ t.look o = .ok (s.vals.next, y) ∧ Spares (· = o) noCell s t := by
  have hrun : (newValFor o y).run s = .ok () { s with
      objs := s.objs.modify o fun x => { x with val := some s.vals.next }
      vals := s.vals.alloc y
      stray := s.stray || (o == nullObj && y.type != .null) } := by
    simp only [newValFor, hx]
  refine ⟨_, hrun, ?_, ?_⟩
  · refine look_iff.mpr ⟨{ x with val := some s.vals.next }, ?_, rfl, Cells.get_alloc_self _⟩
    rw [Cells.get_modify_self, hx]
    rfl
  · refine ⟨fun {p z} hp hz => ?_, fun _ hz => Cells.get_alloc_of_some hz, Nat.le_refl _, Nat.le_succ _, rfl⟩
    show (s.objs.modify o _).get p = some z
    rw [Cells.get_modify_of_ne _ hp, hz]

theorem stackObj_run (s : Store) : ∃ t, stackObj.run s = .ok (s.objs.next, s.vals.next) t ∧
    t.look s.objs.next = .ok (s.vals.next, stackVal) ∧ Spares noCell noCell s t := by
  let s₁ : Store := { s with objs := s.objs.alloc {} }
  have hnew : newObj.run s = .ok s.objs.next s₁ := rfl
  have hspares : Spares noCell noCell s s₁ :=
    ⟨fun _ hx => Cells.get_alloc_of_some hx, fun _ hy => hy, Nat.le_succ _, Nat.le_refl _, rfl⟩
  have hobj : s₁.objs.get s.objs.next = some {} := Cells.get_alloc_self _
  obtain ⟨t, hval, hlook, hspares'⟩ := newValFor_run stackVal hobj
  obtain ⟨x, hget, hptr⟩ := getObj_look hlook
  refine ⟨t, ?_, hlook, hspares.trans hspares' (fun o ho => .inr ?_) fun _ h => h.elim⟩
  · unfold stackObj
    rw [Action.run_bind_ok hnew, Action.run_bind_ok hval, Action.run_bind_ok hget, hptr]
    rfl
  · rw [show o = s.objs.next from ho]
    exact Cells.get_next _

theorem dropObj_run {s : Store} {o : ObjId} {x : Obj} (v : ValId) (hx : s.objs.get o = some x) :
    ∃ t, (dropObj o v).run s = .ok () t ∧ Spares (· = o) (· = v) s t := by
  have hfree : (freeObj o).run s = .ok () { s with objs := s.objs.free o } := by
    simp only [freeObj, hx]
  unfold dropObj
  rw [Action.run_bind_ok hfree]
  refine ⟨_, rfl, ?_⟩
  refine ⟨fun {p x} hp hx => ?_, fun {w y} hw hy => ?_, Nat.le_refl _, Nat.le_refl _, rfl⟩
  · show (s.objs.free o).get p = some x
    rw [Cells.get_free_of_ne _ hp, hx]
  · show (s.vals.free v).get w = some y
    rw [Cells.get_free_of_ne _ hw, hy]

/-! ### Moving a value -/

/-- The union of a value and what of it depends on the type can be read. -/
def Val.Sound (y : Val) : Prop :=
  match y.type with
  | .boolean | .number => ∃ q, y.d = .num q
  | .table => ∃ f i l, y.d.asTable = .ok (f, i, l)
  | .cfunc => ∃ f, y.d = .cfunc f
  | _ => True

/-- The table `d.table` of a value that was moved. -/
def Data.movedTable (d : Data) : Data :=
  match d.asTable with
  | .ok (f, _, l) => .table f f l
  | .error _ => d

/-- A value of the type of `z`, when what `z` holds is moved into it. -/
def Val.fill (y z : Val) : Val :=
  match z.type with
  | .null => y
  | .boolean | .number | .cfunc => { y with d := z.d }
  | .table => { y with d := z.d.movedTable, autosort := y.autosort || z.autosort }
  | .cdata | .string | .nfunc => { y with d := z.d, size := z.size }

section

variable {s t : Store} {o p : ObjId} {v w : ValId} {y z : Val}

/-- `n_moveval` from the point where the old value of the object is gone. -/
theorem nMoveval_run_of_renewed (hp : s.look p = .ok (w, z)) (hne : o ≠ p)
    (hrenew : (renewVal o z.type).run s = .ok () t) (ho : t.look o = .ok (v, y))
    (hp' : t.look p = .ok (w, z)) (hvw : v ≠ w) (hz : z.Sound) :
    ∃ u, (nMoveval o p).run s = .ok () u ∧ u.look o = .ok (v, y.fill z) ∧
      u.look p = .ok (w, { z with type := .null }) ∧ Spares noCell (fun a => a = v ∨ a = w) t u := by
  have hend : ∀ f : Val → Val, f y = y.fill z → ∃ u, (do
        modVal o f
        modVal p fun y => { y with type := .null } : H Unit).run t = .ok () u ∧
      u.look o = .ok (v, y.fill z) ∧ u.look p = .ok (w, { z with type := .null }) ∧
      Spares noCell (fun a => a = v ∨ a = w) t u := by
    intro f hf
    have h₁ := sets_write (f := f) ho hf
    have hp₁ : (t.write o v f).look p = .ok (w, z) := h₁.frame.look id (Ne.symm hvw) hp'
    have h₂ := sets_write (f := fun y => { y with type := .null }) hp₁ rfl
    refine ⟨_, ?_, h₂.frame.look id hvw h₁.look, h₂.look, ?_⟩
    · rw [Action.run_bind_ok (modVal_write ho f)]
      exact modVal_write hp₁ _
    · exact (h₁.frame.mono (fun _ h => h) fun _ => .inl).trans h₂.frame (fun _ h => h.elim)
        fun _ h => .inl (.inr h)
  unfold nMoveval
  rw [Action.run_bind_ok (typeOf_run hp), if_neg hne, Action.run_bind_ok hrenew]
  unfold Val.Sound at hz
  cases ht : z.type with
  | null =>
      have hfill : y.fill z = y := by
        unfold Val.fill
        rw [ht]
      refine ⟨t, rfl, by rw [hfill]; exact ho, ?_, .refl t⟩
      rw [← ht]
      exact hp'
  | boolean | number =>
      rw [ht] at hz
      obtain ⟨q, hq⟩ := hz
      obtain ⟨u, hrun, hu⟩ := hend (fun y => { y with d := .num q }) (by unfold Val.fill; rw [ht, hq])
      refine ⟨u, ?_, hu⟩
      show (getVal p >>= _ : H Unit).run t = _
      rw [Action.run_bind_ok (getVal_run hp'), Action.run_bind_ok (member_of_eq (a := q) (by rw [hq]; rfl))]
      exact hrun
  | table =>
      rw [ht] at hz
      obtain ⟨f, i, l, hd⟩ := hz
      obtain ⟨u, hrun, hu⟩ := hend (fun y => { y with d := .table f f l, autosort := y.autosort || z.autosort })
        (by unfold Val.fill Data.movedTable; rw [ht, hd])
      refine ⟨u, ?_, hu⟩
      show (getVal p >>= _ : H Unit).run t = _
      rw [Action.run_bind_ok (getVal_run hp'), Action.run_bind_ok (member_of_eq hd)]
      exact hrun
  | cfunc =>
      rw [ht] at hz
      obtain ⟨c, hc⟩ := hz
      obtain ⟨u, hrun, hu⟩ := hend (fun y => { y with d := .cfunc c }) (by unfold Val.fill; rw [ht, hc])
      refine ⟨u, ?_, hu⟩
      show (getVal p >>= _ : H Unit).run t = _
      rw [Action.run_bind_ok (getVal_run hp'), Action.run_bind_ok (member_of_eq (a := c) (by rw [hc]; rfl))]
      exact hrun
  | cdata | string | nfunc =>
      obtain ⟨u, hrun, hu⟩ := hend (fun y => { y with d := z.d, size := z.size }) (by unfold Val.fill; rw [ht])
      refine ⟨u, ?_, hu⟩
      show (getVal p >>= _ : H Unit).run t = _
      rw [Action.run_bind_ok (getVal_run hp')]
      exact hrun

/-- The old value of an object without a table is freed, and its type is set. -/
theorem renewVal_run (ho : s.look o = .ok (v, y)) (hv : v ≠ nullVal) (hy : y.Plain) (type : Ty) :
    ∃ t, (renewVal o type).run s = .ok () t ∧ Sets s o v (y.retyped type) t := by
  obtain ⟨x, hx, hval⟩ := getObj_look ho
  obtain ⟨t₁, hfree, h₁⟩ := nFreeval_run ho hv hy.light
  refine ⟨_, ?_, h₁.trans (sets_write (f := fun y => { y with type := type }) h₁.look rfl)⟩
  unfold renewVal
  rw [Action.run_bind_ok hx, hval, if_pos Option.isSome_some, Action.run_bind_ok hfree]
  exact modVal_write h₁.look _

/-- `n_moveval` into an object without a table. -/
theorem nMoveval_run (ho : s.look o = .ok (v, y)) (hv : v ≠ nullVal) (hy : y.Plain)
    (hp : s.look p = .ok (w, z)) (hne : o ≠ p) (hvw : v ≠ w) (hz : z.Sound) :
    ∃ t, (nMoveval o p).run s = .ok () t ∧ t.look o = .ok (v, (y.retyped z.type).fill z) ∧
      t.look p = .ok (w, { z with type := .null }) ∧ Spares noCell (fun a => a = v ∨ a = w) s t := by
  obtain ⟨t₁, hrenew, h₁⟩ := renewVal_run ho hv hy z.type
  obtain ⟨t, hrun, ho', hp', hspares⟩ := nMoveval_run_of_renewed hp hne hrenew h₁.look
    (h₁.frame.look id (Ne.symm hvw) hp) hvw hz
  exact ⟨t, hrun, ho', hp', (h₁.frame.mono (fun _ h => h) fun _ => .inl).trans hspares (fun _ h => h.elim)
    fun _ => .inl⟩

/-- `n_moveval` into an object that has no value yet. -/
theorem nMoveval_run_new {x : Obj} (ho : s.objs.get o = some x) (hx : x.val = none)
    (hp : s.look p = .ok (w, z)) (hne : o ≠ p) (hz : z.Sound) :
    ∃ t, (nMoveval o p).run s = .ok () t ∧
      t.look o = .ok (s.vals.next, ({ type := z.type } : Val).fill z) ∧
      t.look p = .ok (w, { z with type := .null }) ∧ Spares (· = o) (· = w) s t := by
  obtain ⟨t₁, hnew, h₁, hspares⟩ := newValFor_run { type := z.type } ho
  have hget : (getObj o).run s = .ok x s := by
    unfold getObj
    refine Action.run_require_ok ?_
    rw [ho]
  have hrenew : (renewVal o z.type).run s = .ok () t₁ := by
    unfold renewVal
    rw [Action.run_bind_ok hget, hx]
    exact hnew
  have hp₁ : t₁.look p = .ok (w, z) := hspares.look (Ne.symm hne) id hp
  have hvw : s.vals.next ≠ w := Ne.symm (Cells.ne_next (Store.ptr_of_look hp).2)
  obtain ⟨t, hrun, ho', hp', hspares'⟩ := nMoveval_run_of_renewed hp hne hrenew h₁ hp₁ hvw hz
  refine ⟨t, hrun, ho', hp', ?_⟩
  refine (hspares.mono (fun _ h => h) fun _ h => h.elim).trans hspares' (fun _ h => h.elim) fun a ha => ?_
  rcases ha with rfl | ha
  · exact .inr (Cells.get_next _)
  · exact .inl ha

end

/-! ### Giving a value up -/

section

variable {s : Store} {o : ObjId} {v : ValId} {y : Val}

theorem modRefs_run (h : s.look o = .ok (v, y)) (f : Nat → Nat) :
    ∃ t, (modRefs o f).run s = .ok () t ∧ Sets s o v { y with refs := f y.refs } t := by
  refine ⟨{ s with vals := s.vals.modify v fun x => { x with refs := f x.refs } }, ?_, ?_, ?_⟩
  · simp only [modRefs, h]
  · exact look_write_self (p := o) h fun x => { x with refs := f x.refs }
  · exact ⟨fun _ h => h, (frame_write s o v _).vals, Nat.le_refl _, Nat.le_refl _, rfl⟩

/-- The object has no value in `t`, and nothing has changed but for its value `v`. -/
structure Clears (s : Store) (o : ObjId) (v : ValId) (t : Store) : Prop where
  obj : ∃ x, t.objs.get o = some x ∧ x.val = none
  frame : Spares (· = o) (· = v) s t

theorem clearPtr_run {x : Obj} (hx : s.objs.get o = some x) :
    ∃ t, (clearPtr o).run s = .ok () t ∧ t.vals = s.vals ∧ Clears s o v t := by
  refine ⟨{ s with objs := s.objs.modify o fun x => { x with val := none } }, ?_, rfl, ?_, ?_⟩
  · simp only [clearPtr, hx]
  · refine ⟨{ x with val := none }, ?_, rfl⟩
    rw [Cells.get_modify_self, hx]
    rfl
  · refine ⟨fun {p z} hp hz => ?_, fun _ h => h, Nat.le_refl _, Nat.le_refl _, rfl⟩
    show (s.objs.modify o _).get p = some z
    rw [Cells.get_modify_of_ne _ hp, hz]

theorem freeVal_run (h : s.look o = .ok (v, y)) : ∃ t, (freeVal o).run s = .ok () t ∧ Clears s o v t := by
  obtain ⟨x, hx, -, -⟩ := look_iff.mp h
  refine ⟨{ s with
      objs := s.objs.modify o fun x => { x with val := none }
      vals := s.vals.free v
      stray := s.stray || v == nullVal }, ?_, ?_, ?_⟩
  · simp only [freeVal, h]
  · refine ⟨{ x with val := none }, ?_, rfl⟩
    rw [Cells.get_modify_self, hx]
    rfl
  · refine ⟨fun {p z} hp hz => ?_, fun {w z} hw hz => ?_, Nat.le_refl _, Nat.le_refl _, rfl⟩
    · show (s.objs.modify o _).get p = some z
      rw [Cells.get_modify_of_ne _ hp, hz]
    · show (s.vals.free v).get w = some z
      rw [Cells.get_free_of_ne _ hw, hz]

/-- What is left of a value on the stack when an object gives it up. -/
def Val.Given (y z : Val) : Prop := z.stackval = y.stackval ∧ z.ztable = y.ztable ∧ z.Light

/-- The end of `nsp_unlinkval`, where the last reference frees the value. -/
theorem unlinkRest_run {n : Nat} (h : s.look o = .ok (v, y)) (hv : v ≠ nullVal) (hy : y.Light) :
    ∃ t, (do
        modRefs o decRefs
        let y ← getVal o
        if y.refs < 1 then
          freeval (n + 1) o
          let y ← getVal o
          if !y.stackval then freeVal o
        clearPtr o : H Unit).run s = .ok () t ∧ Clears s o v t ∧
      (y.stackval = true → ∃ z, t.vals.get v = some z ∧ y.Given z) := by
  obtain ⟨s₁, hrefs, h₁⟩ := modRefs_run h decRefs
  have hy₁ : Val.Light { y with refs := decRefs y.refs } := ⟨hy.table, hy.cdata, hy.ztable⟩
  rw [Action.run_bind_ok hrefs, Action.run_bind_ok (getVal_run h₁.look)]
  by_cases hlast : decRefs y.refs < 1
  · obtain ⟨s₂, hfree, h₂⟩ := freeval_run n h₁.look hv hy₁
    have hframe₂ : Spares (· = o) (· = v) s s₂ := (h₁.trans h₂).frame.mono (fun _ h => h.elim) fun _ h => h
    have hstack : (Val.freed { y with refs := decRefs y.refs }).stackval = y.stackval := Val.freed_stackval _
    rw [if_pos hlast, Action.run_bind_ok hfree, Action.run_bind_ok (getVal_run h₂.look), hstack]
    by_cases hs : y.stackval = true
    · obtain ⟨x, hx, -, hy'⟩ := look_iff.mp h₂.look
      obtain ⟨t, hclear, hvals, hobj, hframe⟩ := clearPtr_run (v := v) hx
      rw [hs, Bool.not_true, if_neg Bool.false_ne_true]
      refine ⟨t, hclear, ⟨hobj, hframe₂.trans hframe (fun _ h => .inl h) fun _ h => .inl h⟩, fun _ => ?_⟩
      exact ⟨_, by rw [hvals]; exact hy', hstack, Val.freed_ztable _, Val.freed_light _⟩
    · obtain ⟨s₃, hgone, ⟨x, hx, -⟩, hframe₃⟩ := freeVal_run h₂.look
      obtain ⟨t, hclear, hvals, hobj, hframe⟩ := clearPtr_run (v := v) hx
      rw [Bool.eq_false_iff.mpr hs, Bool.not_false, if_pos rfl, Action.run_bind_ok hgone]
      refine ⟨t, hclear, ⟨hobj, ?_⟩, fun h => Bool.noConfusion h⟩
      exact (hframe₂.trans hframe₃ (fun _ h => .inl h) fun _ h => .inl h).trans hframe (fun _ h => .inl h)
        fun _ h => .inl h
  · obtain ⟨x, hx, -, hy'⟩ := look_iff.mp h₁.look
    obtain ⟨t, hclear, hvals, hobj, hframe⟩ := clearPtr_run (v := v) hx
    have hframe₁ : Spares (· = o) (· = v) s s₁ := h₁.frame.mono (fun _ h => h.elim) fun _ h => h
    rw [if_neg hlast]
    refine ⟨t, hclear, ⟨hobj, hframe₁.trans hframe (fun _ h => .inl h) fun _ h => .inl h⟩, fun _ => ?_⟩
    exact ⟨{ y with refs := decRefs y.refs }, by rw [hvals]; exact hy', rfl, rfl, hy₁⟩

theorem nspUnlinkval_run (h : s.look o = .ok (v, y)) (hv : v ≠ nullVal) (hy : y.Light) :
    ∃ t, (nspUnlinkval o).run s = .ok () t ∧ Clears s o v t ∧
      (y.stackval = true → ∃ z, t.vals.get v = some z ∧ y.Given z) := by
  have hfuel : walkFuel.run s = .ok (s.objs.next + s.vals.next + 1) s := rfl
  obtain ⟨x, hx, hval⟩ := getObj_look h
  unfold nspUnlinkval
  rw [Action.run_bind_ok hfuel]
  unfold unlinkWith
  rw [Action.run_bind_ok hx, hval, if_neg (fun h => Bool.noConfusion h), Action.run_bind_ok (getVal_run h)]
  by_cases hrefs : y.refs ≠ 0
  · have hthis : ¬ (y.type = .table ∧ y.refs = 2) := fun h => hy.table h.1
    rw [if_pos hrefs, if_neg hthis]
    show ∃ t, (getObj o >>= _ : H Unit).run s = .ok () t ∧ _
    rw [Action.run_bind_ok hx, hval, if_pos Option.isSome_some]
    exact unlinkRest_run h hv hy
  · obtain ⟨x, hx, -, hy'⟩ := look_iff.mp h
    obtain ⟨t, hclear, hvals, hcleared⟩ := clearPtr_run (v := v) hx
    rw [if_neg hrefs]
    exact ⟨t, hclear, hcleared, fun _ => ⟨y, by rw [hvals]; exact hy', rfl, rfl, hy⟩⟩

end

/-! ### The result -/

/-- `N->r` has no value, or one that can be freed without anything else being freed. -/
structure Ready (s : Store) : Prop where
  result : ∃ x, s.objs.get retObj = some x ∧
    ∀ v, x.val = some v → v ≠ nullVal ∧ ∃ y, s.vals.get v = some y ∧ y.Plain
  values : 0 < s.vals.next

theorem Ready.spares {O : ObjId → Prop} {W : ValId → Prop} {s t : Store} (h : Ready s) (hs : Spares O W s t)
    (ho : ¬ O retObj) (hw : ∀ v, s.ptr retObj = some v → ¬ W v) : Ready t ∧ t.ptr retObj = s.ptr retObj := by
  obtain ⟨x, hx, hval⟩ := h.result
  have hx' : t.objs.get retObj = some x := hs.objs ho hx
  have hptr : s.ptr retObj = x.val := by
    rw [Store.ptr, hx]
    rfl
  refine ⟨⟨⟨x, hx', fun v hv => ?_⟩, Nat.lt_of_lt_of_le h.values hs.nextVal⟩, ?_⟩
  · obtain ⟨hnull, y, hy, hplain⟩ := hval v hv
    exact ⟨hnull, y, hs.vals (hw v (hptr.trans hv)) hy, hplain⟩
  · rw [hptr, Store.ptr, hx']
    rfl

theorem Ready.ptr_lt {s : Store} (h : Ready s) {v : ValId} (hv : s.ptr retObj = some v) : v < s.vals.next := by
  obtain ⟨x, hx, hval⟩ := h.result
  have hptr : s.ptr retObj = x.val := by
    rw [Store.ptr, hx]
    rfl
  obtain ⟨-, y, hy, -⟩ := hval v (hptr.symm.trans hv)
  exact Cells.lt_next hy

theorem Ready.retObj_lt {s : Store} (h : Ready s) : retObj < s.objs.next := by
  obtain ⟨x, hx, -⟩ := h.result
  exact Cells.lt_next hx

theorem Val.fill_ztable (y z : Val) : (y.fill z).ztable = y.ztable := by
  unfold Val.fill
  split <;> rfl

section

variable {s : Store} {o : ObjId} {w : ValId} {z : Val}

/-- The object's value is moved to `N->r`. -/
theorem moveResult_run (hready : Ready s) (h : s.look o = .ok (w, z)) (ho : o ≠ retObj)
    (hw : s.ptr retObj ≠ some w) (hz : z.Sound) :
    ∃ t v, ∃ y : Val, (nMoveval retObj o).run s = .ok () t ∧ t.look retObj = .ok (v, y.fill z) ∧
      y.type = z.type ∧ y.ztable = none ∧ v ≠ w ∧ (s.ptr retObj = some v ∨ v = s.vals.next) ∧
      t.look o = .ok (w, { z with type := .null }) ∧
      Spares (· = retObj) (fun a => a = w ∨ s.ptr retObj = some a) s t := by
  obtain ⟨x, hx, hval⟩ := hready.result
  have hptr : s.ptr retObj = x.val := by
    rw [Store.ptr, hx]
    rfl
  cases hv : x.val with
  | none =>
      obtain ⟨t, hrun, hret, ho', hspares⟩ := nMoveval_run_new hx hv h (Ne.symm ho) hz
      have hvw : s.vals.next ≠ w := Ne.symm (Cells.ne_next (Store.ptr_of_look h).2)
      exact ⟨t, _, _, hrun, hret, rfl, rfl, hvw, .inr rfl, ho', hspares.mono (fun _ h => h) fun _ => .inl⟩
  | some v =>
      obtain ⟨hnull, y, hy, hplain⟩ := hval v hv
      have hlook : s.look retObj = .ok (v, y) := look_iff.mpr ⟨x, hx, hv, hy⟩
      have hvw : v ≠ w := by
        rintro rfl
        exact hw (hptr.trans hv)
      obtain ⟨t, hrun, hret, ho', hspares⟩ := nMoveval_run hlook hnull hplain h (Ne.symm ho) hvw hz
      refine ⟨t, v, _, hrun, hret, rfl, hplain.freed.ztable, hvw, .inl (hptr.trans hv), ho',
        hspares.mono (fun _ h => h.elim) ?_⟩
      rintro a (rfl | rfl)
      · exact .inr (hptr.trans hv)
      · exact .inl rfl

/-- The end of `nsp_eval`. -/
theorem giveResult_run (val1 : ValId) (hready : Ready s) (h : s.look o = .ok (w, z)) (ho : o ≠ retObj)
    (hw : s.ptr retObj ≠ some w) (hnull : w ≠ nullVal) (hz : z.Sound)
    (hshared : z.type = .table ∨ z.type = .cdata → z.refs ≤ 1) :
    ∃ t v, ∃ y : Val, (giveResult o val1).run s = .ok () t ∧ t.look retObj = .ok (v, y.fill z) ∧
      y.type = z.type ∧ y.ztable = none ∧ (s.ptr retObj = some v ∨ v = s.vals.next) ∧
      (∃ x, t.objs.get o = some x) ∧
      Spares (fun a => a = retObj ∨ a = o) (fun a => a = w ∨ s.ptr retObj = some a) s t := by
  obtain ⟨t, v, y, hmove, hret, htype, hztable, hvw, hv, ho', hspares⟩ := moveResult_run hready h ho hw hz
  have hhead : ∀ rest : H Unit, (do
      let type ← typeOf o
      if type = .table ∨ type = .cdata then
        let y ← getVal o
        if 1 < y.refs then nspLinkval retObj (some o) else nMoveval retObj o
      else nMoveval retObj o
      rest : H Unit).run s = rest.run t := by
    intro rest
    rw [Action.run_bind_ok (typeOf_run h)]
    by_cases hty : z.type = .table ∨ z.type = .cdata
    · rw [if_pos hty, Action.run_bind_ok (getVal_run h), if_neg (Nat.not_lt.mpr (hshared hty)),
        Action.run_bind_ok hmove]
    · rw [if_neg hty, Action.run_bind_ok hmove]
  obtain ⟨x, hx, hval⟩ := getObj_look ho'
  have hspares' : Spares (fun a => a = retObj ∨ a = o) (fun a => a = w ∨ s.ptr retObj = some a) s t :=
    hspares.mono (fun _ => .inl) fun _ h => h
  unfold giveResult
  rw [hhead, Action.run_bind_ok hx, hval]
  by_cases hsame : some w ≠ some val1
  · have hlight : Val.Light { z with type := .null } := ⟨Ty.noConfusion, Ty.noConfusion, .inl rfl⟩
    obtain ⟨u, hunlink, hcleared, -⟩ := nspUnlinkval_run ho' hnull hlight
    rw [if_pos hsame]
    refine ⟨u, v, y, hunlink, hcleared.frame.look (Ne.symm ho) hvw hret, htype, hztable, hv, ?_, ?_⟩
    · obtain ⟨x, hx, -⟩ := hcleared.obj
      exact ⟨x, hx⟩
    · exact hspares'.trans hcleared.frame (fun _ h => .inl (.inr h)) fun _ h => .inl (.inl h)
  · rw [if_neg hsame]
    obtain ⟨x, hx, -⟩ := look_iff.mp ho'
    exact ⟨t, v, y, rfl, hret, htype, hztable, hv, ⟨x, hx⟩, hspares'⟩

end

/-! ### Operators -/

/-- `&&` and `||`. -/
def logic (op : Byte) (a b : Bool) : Bool := if op = opMland then a && b else a || b

section

variable {s : Store} {o p : ObjId} {v w : ValId} {y z : Val} {a b : Num}

theorem getNum_run (h : s.look o = .ok (v, y)) (hd : y.d = .num a) : (getNum o).run s = .ok a s := by
  unfold getNum
  rw [Action.run_bind_ok (getVal_run h), hd]
  rfl

variable (h : s.look o = .ok (v, y)) (hd : y.d = .num a) (h' : s.look p = .ok (w, z)) (hd' : z.d = .num b)

include h hd h' hd'

omit h hd h' hd' in
theorem setTruth_run (h : s.look o = .ok (v, y)) (c : Bool) :
    (setTruth o c).run s = .ok () (s.write o v fun y => { y with d := .num (if c then 1 else 0) }) :=
  modVal_write h _

end

end NullG.Nsp
