/-
What freeing leaves of the memory.

The functions that free obey each law that the actions they are made of obey (`Frees`). They only take pointers and
values away (`Shrinks`), and a value that was freed and is still there is clear: it is null, and nothing is left in
it (`nFreeval_clear`).
-/

import NullG.Lib.Law
import NullG.Nsp.Sharing

namespace NullG.Nsp

open NullG.Lib

/-! ### Laws of actions -/

section Obeys

variable {L : Law Fault Store} {α β : Type} {x : H α} {f : α → H β}

theorem obeys_pure (a : α) : L.Obeys (pure a : H α).run := L.ok_refl

theorem obeys_fail (e : Fault) : L.Obeys (Action.fail e : H α).run := L.err_refl e

theorem obeys_require (g : Store → Except Fault α) : L.Obeys (Action.require g : H α).run := by
  intro s
  cases hg : g s with
  | ok a =>
      rw [Action.run_require_ok hg]
      exact L.ok_refl s
  | error e =>
      simp only [Action.require, hg]
      exact L.err_refl e s

theorem obeys_bind (hx : L.Obeys x.run) (hf : ∀ a, L.Obeys (f a).run) : L.Obeys (x >>= f).run := Law.Obeys.bind hx hf

theorem obeys_ite {p : Prop} [Decidable p] {y : H α} (hx : L.Obeys x.run) (hy : L.Obeys y.run) :
    L.Obeys (if p then x else y).run := by
  split
  · exact hx
  · exact hy

end Obeys

/-! ### The functions that free -/

/-- What the functions that free are made of obeys the law. -/
structure Frees (L : Law Fault Store) : Prop where
  refs : ∀ o f, L.Obeys (modRefs o f).run
  ptr : ∀ o, L.Obeys (clearPtr o).run
  obj : ∀ o, L.Obeys (freeObj o).run
  val : ∀ o, L.Obeys (freeVal o).run
  warning : L.Obeys (nWarning : H Unit).run
  empty : ∀ o, L.Obeys (modVal o fun y => { y with d := .table none none none }).run
  clear : ∀ o, L.Obeys (modVal o fun y => { y with type := .null, size := 0, d := .num 0 }).run
  ztable : ∀ o, L.Obeys (modVal o fun y => { y with ztable := none }).run

namespace Frees

variable {L : Law Fault Store} (h : Frees L) {free : ObjId → H Unit}

include h

theorem unlinkWith (hfree : ∀ o, L.Obeys (free o).run) (o : ObjId) : L.Obeys (unlinkWith free o).run := by
  have hend : L.Obeys (clearPtr o).run := h.ptr o
  -- a reference less, and the value is freed with the last one
  have hcount : L.Obeys (do
      let x ← getObj o
      if x.val.isSome then
        modRefs o decRefs
        let y ← getVal o
        if y.refs < 1 then
          free o
          let y ← getVal o
          if !y.stackval then freeVal o
      clearPtr o : H Unit).run := by
    refine obeys_bind (obeys_require _) fun x => obeys_ite ?_ hend
    refine obeys_bind (h.refs o _) fun _ => obeys_bind (obeys_require _) fun y => ?_
    refine obeys_ite ?_ hend
    refine obeys_bind (hfree o) fun _ => obeys_bind (obeys_require _) fun y => ?_
    exact obeys_ite (obeys_bind (h.val o) fun _ => hend) hend
  unfold Nsp.unlinkWith
  refine obeys_bind (obeys_require _) fun x => obeys_ite (obeys_pure _) ?_
  refine obeys_bind (obeys_require _) fun y => obeys_ite ?_ hend
  refine obeys_ite (obeys_bind (obeys_require _) fun links => ?_) hcount
  obtain ⟨f, i, l⟩ := links
  cases f with
  | none => exact hcount
  | some f =>
      refine obeys_bind (obeys_require _) fun xf => obeys_ite ?_ hcount
      exact obeys_bind (h.refs f _) fun _ => obeys_bind (h.ptr f) fun _ => hcount

theorem freeEntries (hfree : ∀ o, L.Obeys (free o).run) (n : Nat) (f : Option ObjId) :
    L.Obeys (freeEntries free n f).run := by
  induction n generalizing f with
  | zero => exact obeys_fail _
  | succ n ih =>
      cases f with
      | none => exact obeys_pure _
      | some o =>
          refine obeys_bind (obeys_require _) fun x => obeys_bind (h.unlinkWith hfree o) fun _ => ?_
          exact obeys_bind (h.obj o) fun _ => ih x.next

theorem freetableWith (hfree : ∀ o, L.Obeys (free o).run) (n : Nat) (t : ObjId) :
    L.Obeys (freetableWith free n t).run := by
  unfold Nsp.freetableWith
  refine obeys_bind (obeys_bind (obeys_require _) fun _ => obeys_pure _) fun table => ?_
  refine obeys_ite ?_ (obeys_pure _)
  refine obeys_bind (obeys_require _) fun y => obeys_bind (obeys_require _) fun links => ?_
  exact obeys_bind (h.freeEntries hfree n links.1) fun _ => h.empty t

/-- `n_freeval`. -/
theorem freeval (n : Nat) (o : ObjId) : L.Obeys (freeval n o).run := by
  induction n generalizing o with
  | zero => exact obeys_fail _
  | succ n ih =>
      -- the value is cleared, and then what its variable keeps is taken off
      have hclear : L.Obeys (clearVal n o).run := by
        unfold clearVal
        refine obeys_bind (h.clear o) fun _ => obeys_bind (obeys_require _) fun y => ?_
        cases y.ztable with
        | none => exact obeys_pure _
        | some z => exact obeys_bind (h.unlinkWith ih z) fun _ => obeys_bind (h.obj z) fun _ => h.ztable o
      unfold Nsp.freeval
      refine obeys_bind (obeys_require _) fun type => obeys_ite ?_ ?_
      · exact obeys_bind (obeys_require _) fun x => obeys_ite h.warning (obeys_pure _)
      · have htable : L.Obeys (do
            if type = .table then Nsp.freetableWith (Nsp.freeval n) n o
            clearVal n o : H Unit).run :=
          obeys_ite (obeys_bind (h.freetableWith ih n o) fun _ => hclear) hclear
        refine obeys_ite (obeys_bind (obeys_require _) fun y => ?_) htable
        refine obeys_bind (obeys_require _) fun reaper => obeys_ite ?_ htable
        exact obeys_bind (obeys_fail _) fun _ => htable

theorem nFreeval (o : ObjId) : L.Obeys (nFreeval o).run := obeys_bind (fun s => L.ok_refl s) fun n => h.freeval n o

theorem nspUnlinkval (o : ObjId) : L.Obeys (nspUnlinkval o).run :=
  obeys_bind (fun s => L.ok_refl s) fun n => h.unlinkWith (h.freeval n) o

theorem nspFreetable (o : ObjId) : L.Obeys (nspFreetable o).run :=
  obeys_bind (fun s => L.ok_refl s) fun n => h.freetableWith (h.freeval n) n o

end Frees

/-! ### What is taken away -/

/-- A null value that nothing is left in. -/
def Val.Clear (y : Val) : Prop := y.type = .null ∧ y.size = 0 ∧ y.d.asStr = .ok none

/-- Pointers and values are only taken away, and a value that is clear stays clear. -/
structure Shrinks (s s' : Store) : Prop where
  ptr : ∀ o v, s'.ptr o = some v → s.ptr o = some v
  clear : ∀ v y, s'.vals.get v = some y → ∃ x, s.vals.get v = some x ∧ (x.Clear → y.Clear)

theorem Shrinks.refl (s : Store) : Shrinks s s := ⟨fun _ _ h => h, fun _ y h => ⟨y, h, id⟩⟩

theorem Shrinks.trans {s t u : Store} (h : Shrinks s t) (h' : Shrinks t u) : Shrinks s u := by
  refine ⟨fun o v hv => h.ptr o v (h'.ptr o v hv), fun v y hy => ?_⟩
  obtain ⟨x, hx, hxy⟩ := h'.clear v y hy
  obtain ⟨w, hw, hwx⟩ := h.clear v x hx
  exact ⟨w, hw, hxy ∘ hwx⟩

/-- The law of the functions that free. -/
def shrinking : Law Fault Store where
  ok := Shrinks
  err _ _ _ := True
  ok_refl := Shrinks.refl
  err_refl _ _ := trivial
  ok_trans := Shrinks.trans
  err_trans _ _ := trivial

section Shrinking

/-- A value is written that stays clear. -/
theorem Shrinks.of_modify {s s' : Store} {v : ValId} {g : Val → Val} (hobjs : s'.objs = s.objs)
    (hvals : s'.vals = s.vals.modify v g) (hg : ∀ y : Val, y.Clear → (g y).Clear) : Shrinks s s' := by
  refine ⟨fun o w hw => by rwa [Store.ptr, hobjs] at hw, fun w y hy => ?_⟩
  rw [hvals] at hy
  by_cases hw : w = v
  · subst hw
    rw [Cells.get_modify_self] at hy
    obtain ⟨x, hx, rfl⟩ := Option.map_eq_some_iff.mp hy
    exact ⟨x, hx, hg x⟩
  · rw [Cells.get_modify_of_ne _ hw] at hy
    exact ⟨y, hy, id⟩

/-- Pointers or values are taken away. -/
theorem Shrinks.of_sub {s s' : Store} (hptr : ∀ o v, s'.ptr o = some v → s.ptr o = some v)
    (hvals : ∀ v y, s'.vals.get v = some y → s.vals.get v = some y) : Shrinks s s' :=
  ⟨hptr, fun v y hy => ⟨y, hvals v y hy, id⟩⟩

theorem shrinking_modVal (o : ObjId) {g : Val → Val} (hg : ∀ y : Val, y.Clear → (g y).Clear) :
    shrinking.Obeys (modVal o g).run := by
  intro s
  cases hlook : s.look o with
  | error e =>
      simp only [modVal, hlook]
      trivial
  | ok r =>
      simp only [modVal, hlook]
      exact Shrinks.of_modify rfl rfl hg

theorem shrinking_modRefs (o : ObjId) (g : Nat → Nat) : shrinking.Obeys (modRefs o g).run := by
  intro s
  cases hlook : s.look o with
  | error e =>
      simp only [modRefs, hlook]
      trivial
  | ok r =>
      simp only [modRefs, hlook]
      exact Shrinks.of_modify rfl rfl fun _ h => h

theorem ptr_modify_none {s : Store} {o p : ObjId} {v : ValId}
    (h : ((s.objs.modify o fun x => { x with val := none }).get p).bind Obj.val = some v) : s.ptr p = some v := by
  by_cases hp : p = o
  · subst hp
    rw [Cells.get_modify_self] at h
    cases hx : s.objs.get p with
    | none =>
        rw [hx] at h
        cases h
    | some x =>
        rw [hx] at h
        cases h
  · rwa [Cells.get_modify_of_ne _ hp] at h

theorem shrinking_clearPtr (o : ObjId) : shrinking.Obeys (clearPtr o).run := by
  intro s
  cases hx : s.objs.get o with
  | none =>
      simp only [clearPtr, hx]
      trivial
  | some x =>
      simp only [clearPtr, hx]
      exact Shrinks.of_sub (fun _ _ h => ptr_modify_none h) fun _ _ h => h

theorem shrinking_freeObj (o : ObjId) : shrinking.Obeys (freeObj o).run := by
  intro s
  cases hx : s.objs.get o with
  | none =>
      simp only [freeObj, hx]
      trivial
  | some x =>
      simp only [freeObj, hx]
      refine Shrinks.of_sub (fun p v hv => ?_) fun _ _ h => h
      by_cases hp : p = o
      · subst hp
        rw [Store.ptr, Cells.get_free_self] at hv
        cases hv
      · rwa [Store.ptr, Cells.get_free_of_ne _ hp] at hv

theorem shrinking_freeVal (o : ObjId) : shrinking.Obeys (freeVal o).run := by
  intro s
  cases hlook : s.look o with
  | error e =>
      simp only [freeVal, hlook]
      trivial
  | ok r =>
      simp only [freeVal, hlook]
      refine Shrinks.of_sub (fun _ _ h => ptr_modify_none h) fun w y hy => ?_
      by_cases hw : w = r.1
      · subst hw
        rw [Cells.get_free_self] at hy
        cases hy
      · rwa [Cells.get_free_of_ne _ hw] at hy

theorem shrinking_nWarning : shrinking.Obeys (nWarning : H Unit).run := by
  unfold nWarning
  refine obeys_bind (fun s => ⟨fun _ _ h => h, fun _ y h => ⟨y, h, id⟩⟩) fun _ => ?_
  refine obeys_bind (fun s => Shrinks.refl s) fun _ => ?_
  exact obeys_ite (obeys_bind (fun s => Shrinks.refl s) fun _ => obeys_fail _) (obeys_pure _)

/-- What is freed is only taken away. -/
theorem shrinking_frees : Frees shrinking where
  refs := shrinking_modRefs
  ptr := shrinking_clearPtr
  obj := shrinking_freeObj
  val := shrinking_freeVal
  warning := shrinking_nWarning
  empty o := shrinking_modVal o fun _ hy => ⟨hy.1, hy.2.1, rfl⟩
  clear o := shrinking_modVal o fun _ _ => ⟨rfl, rfl, rfl⟩
  ztable o := shrinking_modVal o fun _ h => h

end Shrinking

section Clear

variable {s s' : Store} {o : ObjId} {v : ValId} {y : Val}

/-- What is cleared is clear in the end. -/
theorem clearVal_clear {n : Nat} (h : (clearVal n o).run s = .ok () s') (hlook : s'.look o = .ok (v, y)) : y.Clear := by
  rw [clearVal] at h
  obtain ⟨_, s₁, hmod, h⟩ := Action.bind_run_eq_ok.mp h
  obtain ⟨w, x, hlook₁, hobjs, hvals⟩ := modVal_ok hmod
  have hshrink : Shrinks s₁ s' := by
    refine Law.Holds.of_ok (L := shrinking) ?_ h
    refine obeys_bind (obeys_require _) (fun y => ?_) s₁
    cases y.ztable with
    | none => exact obeys_pure _
    | some z =>
        refine obeys_bind (shrinking_frees.unlinkWith (shrinking_frees.freeval n) z) fun _ => ?_
        exact obeys_bind (shrinking_frees.obj z) fun _ => shrinking_frees.ztable o
  obtain ⟨hptr, hy⟩ := Store.ptr_of_look hlook
  have hptr₁ := hshrink.ptr o v hptr
  rw [Store.ptr, hobjs] at hptr₁
  obtain rfl : w = v := Option.some.inj ((Store.ptr_of_look hlook₁).1.symm.trans hptr₁)
  obtain ⟨x₁, hx₁, hclear⟩ := hshrink.clear w y hy
  rw [hvals, Cells.get_modify_self, (Store.ptr_of_look hlook₁).2, Option.map_some] at hx₁
  rw [← Option.some.inj hx₁] at hclear
  exact hclear ⟨rfl, rfl, rfl⟩

/-- A value that is freed is clear in the end. -/
theorem nFreeval_clear {w : ValId} {x : Val} (h : (nFreeval o).run s = .ok () s') (hlook : s.look o = .ok (w, x))
    (hx : x.type ≠ .null) (hlook' : s'.look o = .ok (v, y)) : y.Clear := by
  rw [nFreeval, Action.run_bind_ok (walkFuel_run s), freeval, Action.run_bind_ok (typeOf_run hlook), if_neg hx] at h
  have hrest : ∀ {t : Store}, ((do
      if x.type = .table then freetableWith (freeval (s.objs.next + s.vals.next)) (s.objs.next + s.vals.next) o
      clearVal (s.objs.next + s.vals.next) o : H Unit).run t = .ok () s') → y.Clear := by
    intro t h
    by_cases htable : x.type = .table
    · rw [if_pos htable] at h
      obtain ⟨_, t₁, -, h⟩ := Action.bind_run_eq_ok.mp h
      exact clearVal_clear h hlook'
    · rw [if_neg htable] at h
      exact clearVal_clear h hlook'
  by_cases hcdata : x.type = .cdata
  · rw [if_pos hcdata] at h
    obtain ⟨z, -, h⟩ := Action.require_bind_run_eq_ok.mp h
    obtain ⟨reaper, -, h⟩ := Action.require_bind_run_eq_ok.mp h
    by_cases hreaper : reaper = true
    · rw [if_pos hreaper] at h
      cases h
    · rw [if_neg hreaper] at h
      exact hrest h
  · rw [if_neg hcdata] at h
    exact hrest h

end Clear

end NullG.Nsp
