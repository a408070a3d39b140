/-
The memory of the interpreter, and the actions that read and write it.

The actions carry the proof that they leave the shared null value alone (`NullSafe`): the field
`stray` is no field of the source, but notes that a run stored through `_nullobj` or linked its
value to another object, and until then `_nullval` is null and no other object's value.
Everything that is put together from these actions keeps the invariant by construction.
-/

import NullG.Lib.Cells
import NullG.Lib.Action
import NullG.Nsp.Value

namespace NullG.Nsp

open NullG.Lib

/-- The address of `_nullobj`. -/
def nullObj : ObjId := 0

/-- The address of `N->g`. -/
def globalObj : ObjId := 1

/-- The address of `N->r`. -/
def retObj : ObjId := 2

/-- The address of `_nullval`. -/
def nullVal : ValId := 0

/-- The memory and the number of warnings; `locals` is the address of `N->context->l`. -/
structure Store where
  objs : Cells Obj
  vals : Cells Val
  locals : ObjId
  warnings : Int := 0
  maxwarnings : Int := 500
  stray : Bool := false

/-- `o->val`. -/
def Store.ptr (s : Store) (o : ObjId) : Option ValId := (s.objs.get o).bind Obj.val

/-- The null value is null, and so is the value of the null object, and no other object has
one of them; no object has a value that was not made yet. -/
structure NullApart (s : Store) : Prop where
  null : ∃ x, s.vals.get nullVal = some x ∧ x.type = .null
  seen : ∀ v, s.ptr nullObj = some v → ∃ x, s.vals.get v = some x ∧ x.type = .null
  apart : ∀ o, o ≠ nullObj → ∀ v, s.ptr o = some v → v ≠ nullVal ∧ s.ptr nullObj ≠ some v
  made : ∀ o v, s.ptr o = some v → v < s.vals.next

/-- The invariant of every action. -/
def NullSafe (s : Store) : Prop := s.stray = false → NullApart s

/-- An action of the interpreter on its memory. -/
abbrev H := Action Fault Store NullSafe

section NullSafe

variable {s s' : Store}

/-- Fewer pointers and the same values. -/
theorem NullApart.of_ptr (h : NullApart s) (hvals : s'.vals = s.vals)
    (hptr : ∀ o v, s'.ptr o = some v → s.ptr o = some v) : NullApart s' := by
  refine ⟨?_, ?_, ?_, ?_⟩
  · rw [hvals]
    exact h.null
  · intro v hv
    rw [hvals]
    exact h.seen v (hptr _ _ hv)
  · intro o ho v hv
    obtain ⟨hne, hnull⟩ := h.apart o ho v (hptr _ _ hv)
    exact ⟨hne, fun hv' => hnull (hptr _ _ hv')⟩
  · intro o v hv
    rw [hvals]
    exact h.made o v (hptr _ _ hv)

/-- A write to a value that is neither the null value nor the null object's. -/
theorem NullApart.of_vals (h : NullApart s) {v : ValId} (hptr : s'.ptr = s.ptr)
    (hvals : ∀ w, w ≠ v → s'.vals.get w = s.vals.get w) (hnext : s'.vals.next = s.vals.next)
    (hv : v ≠ nullVal) (hv' : s.ptr nullObj ≠ some v) : NullApart s' := by
  refine ⟨?_, ?_, ?_, ?_⟩
  · rw [hvals _ (Ne.symm hv)]
    exact h.null
  · intro w hw
    rw [hptr] at hw
    rw [hvals w]
    · exact h.seen w hw
    · rintro rfl
      exact hv' hw
  · rw [hptr]
    exact h.apart
  · rw [hptr, hnext]
    exact h.made

theorem NullSafe.of_eq (h : NullSafe s) (hobjs : s'.objs = s.objs) (hvals : s'.vals = s.vals)
    (hstray : s'.stray = s.stray) : NullSafe s' := by
  intro hs
  rw [hstray] at hs
  refine (h hs).of_ptr hvals ?_
  intro o v hv
  rwa [Store.ptr, hobjs] at hv

end NullSafe

/-! ### Reading -/

/-- `*o`. -/
def getObj (o : ObjId) : H Obj :=
  .require fun s =>
    match s.objs.get o with
    | some x => .ok x
    | none => .error .dangling

/-- The object, the address of its value and the value, as `o->val->...` reads them. -/
def Store.look (s : Store) (o : ObjId) : Except Fault (ValId × Val) :=
  match s.objs.get o with
  | none => .error .dangling
  | some x =>
      match x.val with
      | none => .error .nullPointer
      | some v =>
          match s.vals.get v with
          | none => .error .dangling
          | some y => .ok (v, y)

theorem Store.ptr_of_look {s : Store} {o : ObjId} {v : ValId} {y : Val} (h : s.look o = .ok (v, y)) :
    s.ptr o = some v ∧ s.vals.get v = some y := by
  unfold Store.look at h
  split at h
  · cases h
  · rename_i x hobj
    split at h
    · cases h
    · rename_i w hw
      split at h
      · cases h
      · rename_i y hy
        cases h
        exact ⟨by rw [Store.ptr, hobj]; exact hw, hy⟩

/-- `*o->val`. -/
def getVal (o : ObjId) : H Val := .require fun s => (s.look o).map Prod.snd

/-- `nsp_isnull` and `nsp_typeof` of an object that is there: NULL and a null value have the
type `NT_NULL`. -/
def typeOf (o : ObjId) : H Ty :=
  .require fun s =>
    match s.objs.get o with
    | none => .error .dangling
    | some x =>
        match x.val with
        | none => .ok .null
        | some v =>
            match s.vals.get v with
            | none => .error .dangling
            | some y => .ok y.type

/-- `nsp_typeof`. -/
def nspTypeof (o : Option ObjId) : H Ty :=
  match o with
  | none => pure .null
  | some o => typeOf o

/-- `nsp_isnull`. -/
def nspIsnull (o : ObjId) : H Bool := do
  let t ← typeOf o
  return t == .null

/-- `nsp_istable`. -/
def nspIstable (o : ObjId) : H Bool := do
  let t ← typeOf o
  return t == .table

/-- The value of a member of the union. -/
def member {α : Type} (x : Except Fault α) : H α := .require fun _ => x

/-! ### Writing -/

/-- A new object. -/
def newObj : H ObjId where
  run s := .ok s.objs.next { s with objs := s.objs.alloc {} }
  keeps := by
    intro s h hs
    refine (h hs).of_ptr rfl ?_
    intro o v hv
    by_cases ho : o = s.objs.next
    · rw [Store.ptr, final, ho, Cells.get_alloc_self] at hv
      cases hv
    · rwa [Store.ptr, final, Cells.get_alloc_of_ne _ ho] at hv

/-- `n_free` of an object. -/
def freeObj (o : ObjId) : H Unit where
  run s :=
    match s.objs.get o with
    | none => .error .dangling s
    | some _ => .ok () { s with objs := s.objs.free o }
  keeps := by
    intro s h
    cases s.objs.get o with
    | none => exact h
    | some x =>
        intro hs
        refine (h hs).of_ptr rfl ?_
        intro p v hv
        by_cases hp : p = o
        · rw [Store.ptr, final, hp, Cells.get_free_self] at hv
          cases hv
        · rwa [Store.ptr, final, Cells.get_free_of_ne _ hp] at hv

/-- Write the links or the name of an object. -/
def modObj (o : ObjId) (f : Obj → Obj) (hf : ∀ x, (f x).val = x.val) : H Unit where
  run s :=
    match s.objs.get o with
    | none => .error .dangling s
    | some _ => .ok () { s with objs := s.objs.modify o f }
  keeps := by
    intro s h
    cases hx : s.objs.get o with
    | none => exact h
    | some x =>
        intro hs
        refine (h hs).of_ptr rfl ?_
        intro p v hv
        by_cases hp : p = o
        · subst hp
          rw [Store.ptr, final, Cells.get_modify_self, hx] at hv
          rw [Store.ptr, hx, ← hv]
          exact (hf x).symm
        · rwa [Store.ptr, final, Cells.get_modify_of_ne _ hp] at hv

/-- Write a value through an object. -/
def modVal (o : ObjId) (f : Val → Val) : H Unit where
  run s :=
    match s.look o with
    | .error e => .error e s
    | .ok (v, _) => .ok () { s with vals := s.vals.modify v f, stray := s.stray || o == nullObj }
  keeps := by
    intro s h
    cases hx : s.look o with
    | error e => exact h
    | ok r =>
        obtain ⟨v, y⟩ := r
        intro hs
        obtain ⟨hs, ho⟩ := Bool.or_eq_false_iff.mp hs
        have ho : o ≠ nullObj := beq_eq_false_iff_ne.mp ho
        obtain ⟨hne, hnull⟩ := (h hs).apart o ho v (Store.ptr_of_look hx).1
        exact (h hs).of_vals rfl (fun w hw => Cells.get_modify_of_ne _ hw) rfl hne hnull

/-- Write the number of references of a value. -/
def modRefs (o : ObjId) (f : Nat → Nat) : H Unit where
  run s :=
    match s.look o with
    | .error e => .error e s
    | .ok (v, _) => .ok () { s with vals := s.vals.modify v fun x => { x with refs := f x.refs } }
  keeps := by
    intro s h
    cases hx : s.look o with
    | error e => exact h
    | ok r =>
        obtain ⟨v, y⟩ := r
        intro hs
        have same : ∀ w, (∃ x, s.vals.get w = some x ∧ x.type = .null) →
            ∃ x, (s.vals.modify v fun x => { x with refs := f x.refs }).get w = some x ∧ x.type = .null := by
          rintro w ⟨x, hw, ht⟩
          by_cases hwv : w = v
          · subst hwv
            exact ⟨{ x with refs := f x.refs }, by rw [Cells.get_modify_self, hw]; rfl, ht⟩
          · exact ⟨x, by rw [Cells.get_modify_of_ne _ hwv]; exact hw, ht⟩
        exact ⟨same _ (h hs).null, fun w hw => same _ ((h hs).seen w hw), (h hs).apart, (h hs).made⟩

/-- `o->val = v`, where `v` is the value of another object. -/
def linkPtr (o : ObjId) (v : ValId) : H Unit where
  run s :=
    match s.objs.get o with
    | none => .error .dangling s
    | some _ =>
        if s.vals.next ≤ v then .error .dangling s
        else .ok () { s with
          objs := s.objs.modify o fun x => { x with val := some v }
          stray := s.stray || (o == nullObj || (v == nullVal || s.ptr nullObj == some v)) }
  keeps := by
    intro s h
    cases hx : s.objs.get o with
    | none => exact h
    | some x =>
        dsimp only
        split
        · exact h
        · rename_i hmade
          intro hs
          simp only [final, Bool.or_eq_false_iff, beq_eq_false_iff_ne, ne_eq] at hs
          obtain ⟨hs, ho, hv, hnull⟩ := hs
          have hself : ∀ {p w}, p ≠ o → Store.ptr { s with
              objs := s.objs.modify o fun x => { x with val := some v }
              stray := s.stray || (o == nullObj || (v == nullVal || s.ptr nullObj == some v)) } p =
                some w → s.ptr p = some w := by
            intro p w hp hw
            rwa [Store.ptr, Cells.get_modify_of_ne _ hp] at hw
          have hset : ∀ {w}, Store.ptr { s with
              objs := s.objs.modify o fun x => { x with val := some v }
              stray := s.stray || (o == nullObj || (v == nullVal || s.ptr nullObj == some v)) } o =
                some w → v = w := by
            intro w hw
            rw [Store.ptr, Cells.get_modify_self, hx] at hw
            exact Option.some.inj hw
          refine ⟨(h hs).null, fun w hw => (h hs).seen w (hself (Ne.symm ho) hw), ?_, ?_⟩
          · intro p hp w hw
            by_cases hpo : p = o
            · subst hpo
              obtain rfl := hset hw
              exact ⟨hv, fun hw' => hnull (hself (Ne.symm ho) hw')⟩
            · obtain ⟨hne, hnull'⟩ := (h hs).apart p hp w (hself hpo hw)
              exact ⟨hne, fun hw' => hnull' (hself (Ne.symm ho) hw')⟩
          · intro p w hw
            by_cases hpo : p = o
            · subst hpo
              obtain rfl := hset hw
              exact Nat.lt_of_not_le hmade
            · exact (h hs).made p w (hself hpo hw)

/-- `o->val = NULL`. -/
def clearPtr (o : ObjId) : H Unit where
  run s :=
    match s.objs.get o with
    | none => .error .dangling s
    | some _ => .ok () { s with objs := s.objs.modify o fun x => { x with val := none } }
  keeps := by
    intro s h
    cases hx : s.objs.get o with
    | none => exact h
    | some x =>
        intro hs
        refine (h hs).of_ptr rfl ?_
        intro p v hv
        by_cases hp : p = o
        · subst hp
          rw [Store.ptr, final, Cells.get_modify_self, hx] at hv
          cases hv
        · rwa [Store.ptr, final, Cells.get_modify_of_ne _ hp] at hv

/-- `o->val = y`, a value that is new. -/
def newValFor (o : ObjId) (y : Val) : H Unit where
  run s :=
    match s.objs.get o with
    | none => .error .dangling s
    | some _ =>
        .ok () { s with
          objs := s.objs.modify o fun x => { x with val := some s.vals.next }
          vals := s.vals.alloc y
          stray := s.stray || (o == nullObj && y.type != .null) }
  keeps := by
    intro s h
    cases hx : s.objs.get o with
    | none => exact h
    | some x =>
        intro hs
        simp only [final, Bool.or_eq_false_iff] at hs
        obtain ⟨hs, hnew⟩ := hs
        obtain ⟨⟨z, hz, hzn⟩, seen, apart, made⟩ := h hs
        have old : ∀ {w}, (∃ x, s.vals.get w = some x ∧ x.type = .null) →
            ∃ x, (s.vals.alloc y).get w = some x ∧ x.type = .null := by
          rintro w ⟨u, hu, ht⟩
          exact ⟨u, Cells.get_alloc_of_some hu, ht⟩
        have hself : ∀ {p w}, Store.ptr { s with
            objs := s.objs.modify o fun x => { x with val := some s.vals.next }
            vals := s.vals.alloc y
            stray := s.stray || (o == nullObj && y.type != .null) } p = some w →
              (p = o ∧ w = s.vals.next) ∨ (p ≠ o ∧ s.ptr p = some w) := by
          intro p w hw
          by_cases hp : p = o
          · subst hp
            rw [Store.ptr, Cells.get_modify_self, hx] at hw
            exact .inl ⟨rfl, (Option.some.inj hw).symm⟩
          · rw [Store.ptr, Cells.get_modify_of_ne _ hp] at hw
            exact .inr ⟨hp, hw⟩
        refine ⟨old ⟨z, hz, hzn⟩, ?_, ?_, ?_⟩
        · intro w hw
          rcases hself hw with ⟨rfl, rfl⟩ | ⟨-, hw⟩
          · refine ⟨y, Cells.get_alloc_self _, ?_⟩
            simpa using hnew
          · exact old (seen w hw)
        · intro p hp w hw
          rcases hself hw with ⟨rfl, rfl⟩ | ⟨-, hw⟩
          · refine ⟨fun heq => Cells.ne_next hz heq.symm, fun hnull => ?_⟩
            rcases hself hnull with ⟨heq, -⟩ | ⟨-, hnull⟩
            · exact hp heq.symm
            · obtain ⟨u, hu, -⟩ := seen _ hnull
              exact Cells.ne_next hu rfl
          · obtain ⟨hne, hnull⟩ := apart p hp w hw
            refine ⟨hne, fun hnull' => ?_⟩
            rcases hself hnull' with ⟨-, rfl⟩ | ⟨-, hnull'⟩
            · exact absurd (made p _ hw) (Nat.lt_irrefl _)
            · exact hnull hnull'
        · intro p w hw
          rcases hself hw with ⟨rfl, rfl⟩ | ⟨-, hw⟩
          · exact Nat.lt_succ_self _
          · exact Nat.lt_succ_of_lt (made p w hw)

/-- `n_free(N, &o->val)`. -/
def freeVal (o : ObjId) : H Unit where
  run s :=
    match s.look o with
    | .error e => .error e s
    | .ok (v, _) =>
        .ok () { s with
          objs := s.objs.modify o fun x => { x with val := none }
          vals := s.vals.free v
          stray := s.stray || v == nullVal }
  keeps := by
    intro s h
    cases hx : s.look o with
    | error e => exact h
    | ok r =>
        obtain ⟨v, y⟩ := r
        intro hs
        simp only [final, Bool.or_eq_false_iff, beq_eq_false_iff_ne, ne_eq] at hs
        obtain ⟨hs, hv⟩ := hs
        have hself : ∀ {p w}, Store.ptr { s with
            objs := s.objs.modify o fun x => { x with val := none }
            vals := s.vals.free v
            stray := s.stray || v == nullVal } p = some w → p ≠ o ∧ s.ptr p = some w := by
          intro p w hw
          by_cases hp : p = o
          · subst hp
            rw [Store.ptr, Cells.get_modify_self] at hw
            cases hobj : s.objs.get p with
            | none => rw [hobj] at hw; cases hw
            | some x => rw [hobj] at hw; cases hw
          · rw [Store.ptr, Cells.get_modify_of_ne _ hp] at hw
            exact ⟨hp, hw⟩
        refine ⟨?_, ?_, ?_, ?_⟩
        · rw [final, Cells.get_free_of_ne _ (Ne.symm hv)]
          exact (h hs).null
        · intro w hw
          obtain ⟨ho, hw'⟩ := hself hw
          have hwv : w ≠ v := by
            rintro rfl
            exact ((h hs).apart o (Ne.symm ho) w (Store.ptr_of_look hx).1).2 hw'
          rw [final, Cells.get_free_of_ne _ hwv]
          exact (h hs).seen w hw'
        · intro p hp w hw
          obtain ⟨hne, hnull⟩ := (h hs).apart p hp w (hself hw).2
          exact ⟨hne, fun hw' => hnull (hself hw').2⟩
        · intro p w hw
          exact (h hs).made p w (hself hw).2

/-- The end of a value on the stack. -/
def dropVal (v : ValId) : H Unit where
  run s := .ok () { s with
    vals := s.vals.free v
    stray := s.stray || (v == nullVal || s.ptr nullObj == some v) }
  keeps := by
    intro s h hs
    simp only [final, Bool.or_eq_false_iff, beq_eq_false_iff_ne, ne_eq] at hs
    obtain ⟨hs, hv, hnull⟩ := hs
    exact (h hs).of_vals rfl (fun w hw => Cells.get_free_of_ne _ hw) rfl hv hnull

/-- Change the fields of the state that hold no memory. -/
def modState (f : Store → Store)
    (hf : ∀ s, (f s).objs = s.objs ∧ (f s).vals = s.vals ∧ (f s).stray = s.stray) : H Unit :=
  .change f fun s h => h.of_eq (hf s).1 (hf s).2.1 (hf s).2.2

/-- An object on the stack with a value on the stack. -/
def stackObj : H (ObjId × ValId) := do
  let o ← newObj
  newValFor o { type := .null, stackval := true }
  let x ← getObj o
  match x.val with
  | some v => return (o, v)
  | none => .fail .nullPointer

/-- The end of an object on the stack and of its value. -/
def dropObj (o : ObjId) (v : ValId) : H Unit := do
  freeObj o
  dropVal v

/-! ### Errors and warnings -/

/-- `n_error`, which leaves by `longjmp` in a run. -/
def nRaise {α : Type} (e : NError) : H α := .fail (.raised e)

/-- `n_warn` in a run. -/
def nWarning : H Unit := do
  modState (fun s => { s with warnings := s.warnings + 1 }) fun _ => ⟨rfl, rfl, rfl⟩
  let tooMany ← .read fun s => decide (s.maxwarnings < s.warnings)
  if tooMany then
    let n ← .read Store.warnings
    nRaise (.message 2 (bytes "too many warnings (" ++ nNtoa n true 0 ++ bytes ")\n"))

end NullG.Nsp
