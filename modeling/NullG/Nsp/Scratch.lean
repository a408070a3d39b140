/-
The cells that an evaluation works in: `N->r`, the objects that `nsp_eval` and `n_evalsub` have on the stack, and cells
that were not in use.

`Scratch` says that a run touches nothing else. An object of the evaluation is `Vacant` before its operand is read, and
`Held` with the operand's value: its own value on the stack, or the value of a parenthesis, which is moved there from
`N->r` (`linkResult_run`). `release_held` is the end of a round of `n_evalsub`, and `result_run` the end of `nsp_eval`.
-/

import NullG.Nsp.Arithmetic

namespace NullG.Nsp.Expressions

open NullG.Lib NullG.Nsp.Arithmetic

/-! ### What a run touches -/

/-- `N->r`, its value, the objects of `O`, the values of `W`, and cells that were not in use, are all that has
changed. -/
structure Scratch (O : ObjId → Prop) (W : ValId → Prop) (s t : Store) : Prop where
  spares : Spares (fun o => o = retObj ∨ O o) (fun w => s.ptr retObj = some w ∨ W w) s t
  ready : Ready t
  result : ∀ w, t.ptr retObj = some w → s.ptr retObj = some w ∨ s.vals.next ≤ w

section

variable {O O' : ObjId → Prop} {W W' : ValId → Prop} {s t u : Store} {o : ObjId} {v w : ValId} {x : Scalar}

theorem get_of_next_le {α : Type} {m : Cells α} {a : Nat} (h : m.next ≤ a) : m.get a = none := by
  cases hget : m.get a with
  | none => rfl
  | some c => exact absurd (Cells.lt_next hget) (Nat.not_lt.mpr h)

theorem Scratch.refl (h : Ready s) : Scratch O W s s := ⟨.refl s, h, fun _ => .inl⟩

theorem Scratch.trans (h : Scratch O W s t) (h' : Scratch O' W' t u) (hO : ∀ o, O' o → O o ∨ s.objs.get o = none)
    (hW : ∀ w, W' w → W w ∨ s.ptr retObj = some w ∨ s.vals.get w = none) : Scratch O W s u := by
  refine ⟨h.spares.trans h'.spares ?_ ?_, h'.ready, fun w hw => ?_⟩
  · rintro o (rfl | ho)
    · exact .inl (.inl rfl)
    · exact (hO o ho).imp_left .inr
  · rintro w (hw | hw)
    · exact (h.result w hw).imp .inl get_of_next_le
    · rcases hW w hw with hw | hw | hw
      · exact .inl (.inr hw)
      · exact .inl (.inl hw)
      · exact .inr hw
  · rcases h'.result w hw with hw | hw
    · exact h.result w hw
    · exact .inr (Nat.le_trans h.spares.nextVal hw)

theorem Scratch.mono (h : Scratch O W s t) (hO : ∀ o, O o → O' o) (hW : ∀ w, W w → W' w) : Scratch O' W' s t :=
  ⟨h.spares.mono (fun o => Or.imp_right (hO o)) fun w => Or.imp_right (hW w), h.ready, h.result⟩

/-- A run that leaves `N->r` alone. -/
theorem Scratch.of_spares (h : Spares O W s t) (hready : Ready s) (ho : ¬ O retObj)
    (hw : ∀ w, s.ptr retObj = some w → ¬ W w) : Scratch O W s t := by
  obtain ⟨hready', hptr⟩ := hready.spares h ho hw
  exact ⟨h.mono (fun _ => .inr) fun _ => .inr, hready', fun w hw => .inl (hptr ▸ hw)⟩

/-- A value in use is not that of `N->r` if it was not. -/
theorem Scratch.apart (h : Scratch O W s t) (hv : s.ptr retObj ≠ some v) (hlt : v < s.vals.next) :
    t.ptr retObj ≠ some v := by
  intro hptr
  rcases h.result v hptr with h | h
  · exact hv h
  · exact absurd hlt (Nat.not_lt.mpr h)

theorem has_lt (h : Has s o v x) : v < s.vals.next := by
  obtain ⟨⟨z, hlook, -⟩, -⟩ := h
  exact Cells.lt_next (Store.ptr_of_look hlook).2

theorem has_obj (h : Has s o v x) : ∃ c, s.objs.get o = some c := by
  obtain ⟨⟨z, hlook, -⟩, -⟩ := h
  obtain ⟨c, hc, -⟩ := look_iff.mp hlook
  exact ⟨c, hc⟩

theorem has_scratch (h : Has s o v x) (hs : Scratch O W s t) (ho : o ≠ retObj) (ho' : ¬ O o)
    (hv : s.ptr retObj ≠ some v) (hv' : ¬ W v) : Has t o v x :=
  h.spares hs.spares (not_or.mpr ⟨ho, ho'⟩) (not_or.mpr ⟨hv, hv'⟩)

end

/-! ### Objects on the stack -/

/-- The value `v` holds nothing that has to be freed. -/
structure Slot (s : Store) (v : ValId) : Prop where
  val : ∃ y, s.vals.get v = some y ∧ y.Plain
  notNull : v ≠ nullVal
  apart : s.ptr retObj ≠ some v

/-- The value `v` is on the stack, and is clean. -/
def Reusable (s : Store) (v : ValId) : Prop := ∃ y, s.vals.get v = some y ∧ y.stackval = true ∧ y.Clean

/-- The object `o` has its own value `v`, which is void. -/
structure Vacant (s : Store) (o : ObjId) (v : ValId) : Prop where
  look : ∃ y, s.look o = .ok (v, y) ∧ Void y
  other : o ≠ retObj
  notNull : v ≠ nullVal
  apart : s.ptr retObj ≠ some v

/-- The object `o`, whose own value is `v`, has the value `x` at `w`. -/
structure Held (s : Store) (o : ObjId) (v w : ValId) (x : Scalar) : Prop where
  has : Has s o w x
  slot : Slot s v
  other : o ≠ retObj
  apart : s.ptr retObj ≠ some w

section

variable {O : ObjId → Prop} {W : ValId → Prop} {s t : Store} {o : ObjId} {v w : ValId} {x : Scalar}

theorem Vacant.has (h : Vacant s o v) : Has s o v .null := by
  obtain ⟨y, hlook, hy⟩ := h.look
  exact ⟨⟨y, hlook, hy.ztable, hy.type⟩, h.notNull⟩

theorem Vacant.slot (h : Vacant s o v) : Slot s v := by
  obtain ⟨y, hlook, hy⟩ := h.look
  exact ⟨⟨y, (Store.ptr_of_look hlook).2, hy.plain⟩, h.notNull, h.apart⟩

theorem Vacant.reusable (h : Vacant s o v) : Reusable s v := by
  obtain ⟨y, hlook, hy⟩ := h.look
  exact ⟨y, (Store.ptr_of_look hlook).2, hy.stack, .inr ⟨hy.size, fun _ => hy.d⟩⟩

theorem Reusable.tidy (h : Reusable s v) (ht : Tidy s t v) : Reusable t v := by
  obtain ⟨y, hy, hstack, hclean⟩ := h
  obtain ⟨z, hz, hstack', hclean'⟩ := ht y hy
  exact ⟨z, hz, hstack'.trans hstack, hclean' hclean⟩

theorem Slot.lt (h : Slot s v) : v < s.vals.next := by
  obtain ⟨y, hy, -⟩ := h.val
  exact Cells.lt_next hy

theorem Slot.scratch (h : Slot s v) (hs : Scratch O W s t) (hv : ¬ W v) : Slot t v := by
  obtain ⟨y, hy, hval⟩ := h.val
  exact ⟨⟨y, hs.spares.vals (not_or.mpr ⟨h.apart, hv⟩) hy, hval⟩, h.notNull, hs.apart h.apart h.lt⟩

theorem has_slot (h : Has s o v x) (hapart : s.ptr retObj ≠ some v) : Slot s v := by
  obtain ⟨⟨z, hlook, hzt, hz⟩, hnull⟩ := h
  exact ⟨⟨z, (Store.ptr_of_look hlook).2, hz.plain hzt⟩, hnull, hapart⟩

theorem Vacant.scratch (h : Vacant s o v) (hs : Scratch O W s t) (ho : ¬ O o) (hv : ¬ W v) : Vacant t o v := by
  obtain ⟨y, hlook, hy⟩ := h.look
  exact ⟨⟨y, hs.spares.look (not_or.mpr ⟨h.other, ho⟩) (not_or.mpr ⟨h.apart, hv⟩) hlook, hy⟩, h.other, h.notNull,
    hs.apart h.apart h.slot.lt⟩

theorem Held.scratch (h : Held s o v w x) (hs : Scratch O W s t) (ho : ¬ O o) (hv : ¬ W v) (hw : ¬ W w) :
    Held t o v w x :=
  ⟨has_scratch h.has hs h.other ho h.apart hw, h.slot.scratch hs hv, h.other, hs.apart h.apart (has_lt h.has)⟩

/-- A value that was written to. -/
theorem Held.put {y : Scalar} (h : Held s o v w x) (hhas : Has t o w y) (hs : Scratch O W s t)
    (hv : v ≠ w → ¬ W v) : Held t o v w y := by
  have hapart := hs.apart h.apart (has_lt h.has)
  refine ⟨hhas, ?_, h.other, hapart⟩
  by_cases hvw : v = w
  · subst hvw
    exact has_slot hhas hapart
  · exact h.slot.scratch hs (hv hvw)

/-- A new object on the stack. -/
theorem stackObj_vacant (hready : Ready s) : ∃ t, stackObj.run s = .ok (s.objs.next, s.vals.next) t ∧
    Vacant t s.objs.next s.vals.next ∧ Spares noCell noCell s t ∧ Scratch noCell noCell s t := by
  obtain ⟨t, hrun, hlook, hspares⟩ := stackObj_run s
  have hscratch : Scratch noCell noCell s t := .of_spares hspares hready id fun _ _ => id
  refine ⟨t, hrun, ⟨⟨stackVal, hlook, rfl, rfl, rfl, rfl, rfl⟩, ?_, ?_, ?_⟩, hspares, hscratch⟩
  · exact Nat.ne_of_gt hready.retObj_lt
  · exact Nat.pos_iff_ne_zero.mp hready.values
  · rw [(hready.spares hspares id fun _ _ => id).2]
    exact fun h => Nat.lt_irrefl _ (hready.ptr_lt h)

end

/-! ### Values that are handed on -/

/-- The end of a round of `n_evalsub`: the object `c` has its own value `u` again. -/
def release (c : ObjId) (u : ValId) : H Unit := do
  let x ← getObj c
  if x.val ≠ some u then
    nspUnlinkval c
    linkPtr c u
  nFreeval c

section

variable {s t : Store} {o : ObjId} {v w a : ValId} {x : Scalar}

theorem linkPtr_run {c : Obj} (hc : s.objs.get o = some c) (ha : a < s.vals.next) :
    ∃ t, (linkPtr o a).run s = .ok () t ∧ t.vals = s.vals ∧ t.objs.get o = some { c with val := some a } ∧
      Spares (· = o) noCell s t := by
  refine ⟨{ s with
      objs := s.objs.modify o fun x => { x with val := some a }
      stray := s.stray || (o == nullObj || (a == nullVal || s.ptr nullObj == some a)) }, ?_, rfl, ?_, ?_⟩
  · simp only [linkPtr, hc, if_neg (Nat.not_le.mpr ha)]
  · rw [Cells.get_modify_self, hc]
    rfl
  · refine ⟨fun {p z} hp hz => ?_, fun _ h => h, Nat.le_refl _, Nat.le_refl _, rfl⟩
    show (s.objs.modify o _).get p = some z
    rw [Cells.get_modify_of_ne _ hp, hz]

/-- The object gets its own value back, which is freed. -/
theorem release_held (h : Held s o v w x) (hready : Ready s) :
    ∃ t, (release o v).run s = .ok () t ∧ (∃ c, t.objs.get o = some c) ∧ (Reusable s v → Vacant t o v) ∧
      Spares (· = o) (fun a => a = v ∨ a = w) s t := by
  obtain ⟨⟨z, hlook, hzt, hzx⟩, hnull⟩ := h.has
  obtain ⟨c, hc, hcval⟩ := getObj_look hlook
  obtain ⟨y, hy, hplain⟩ := h.slot.val
  have hfreed : ∀ {u : Store}, u.look o = .ok (v, y) → Spares (· = o) (fun a => a = v ∨ a = w) s u →
      ∃ t, (nFreeval o).run u = .ok () t ∧ (∃ c, t.objs.get o = some c) ∧ (Reusable s v → Vacant t o v) ∧
        Spares (· = o) (fun a => a = v ∨ a = w) s t := by
    intro u hlook hspares
    obtain ⟨t, hrun, hsets⟩ := nFreeval_run hlook h.slot.notNull hplain.light
    obtain ⟨c, hc, -⟩ := look_iff.mp hsets.look
    have hspares' : Spares (· = o) (fun a => a = v ∨ a = w) s t :=
      hspares.trans hsets.frame (fun _ h => h.elim) fun _ h => .inl (.inl h)
    refine ⟨t, hrun, ⟨c, hc⟩, ?_, hspares'⟩
    rintro ⟨y', hy', hstack, hclean⟩
    obtain rfl : y = y' := Option.some.inj (hy.symm.trans hy')
    obtain ⟨hsize, hd⟩ := (Val.retyped_clean hclean .null).resolve_left Ty.noConfusion
    refine ⟨⟨_, hsets.look, y.freed_type, hsize, hd rfl, y.freed_ztable.trans hplain.ztable,
      y.freed_stackval.trans hstack⟩, h.other, h.slot.notNull, ?_⟩
    rw [(hready.spares hspares' (Ne.symm h.other) (by
      rintro b hb (rfl | rfl)
      · exact h.slot.apart hb
      · exact h.apart hb)).2]
    exact h.slot.apart
  unfold release
  rw [Action.run_bind_ok hc]
  by_cases hwv : w = v
  · subst hwv
    obtain rfl : z = y := Option.some.inj ((Store.ptr_of_look hlook).2.symm.trans hy)
    rw [if_neg (not_not.mpr hcval)]
    exact hfreed hlook (.refl s)
  · obtain ⟨t₁, hunlink, hclears, -⟩ := nspUnlinkval_run hlook hnull (hzx.plain hzt).light
    have hy₁ : t₁.vals.get v = some y := hclears.frame.vals (Ne.symm hwv) hy
    obtain ⟨c₁, hc₁, -⟩ := hclears.obj
    obtain ⟨t₂, hlink, hvals₂, hobj₂, hframe₂⟩ := linkPtr_run hc₁ (Cells.lt_next hy₁)
    have hlook₂ : t₂.look o = .ok (v, y) := look_iff.mpr ⟨_, hobj₂, rfl, by rw [hvals₂, hy₁]⟩
    have hspares₂ : Spares (· = o) (fun a => a = v ∨ a = w) s t₂ :=
      (hclears.frame.mono (fun _ h => h) fun _ => .inr).trans hframe₂ (fun _ => .inl) fun _ h => h.elim
    rw [hcval, if_pos fun h => hwv (Option.some.inj h), Action.run_bind_ok hunlink, Action.run_bind_ok hlink]
    exact hfreed hlook₂ hspares₂

end

end NullG.Nsp.Expressions
