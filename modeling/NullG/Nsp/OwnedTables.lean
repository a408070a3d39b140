/-
`nsp_setobj` in memory that is fenced.

A search moves the cursor of its table and stays in the zone of the table (`Stop`). So what `nsp_setobj` writes is a new
entry or an old one of the zone; only an empty name leads out of it, to the null object.
-/

import NullG.Nsp.Ownership

namespace NullG.Nsp

open NullG.Lib

/-! ### The search -/

/-- Where a search stops: at an object of the zone, which has the name or stands behind it in a sorted table, and
behind an object of the zone. -/
def Stop (F : Fence) (z : Zone) (cmpTo : Obj → Int) (sorted : Bool) (s : Store) (r : Int × Option ObjId × Option ObjId) :
    Prop :=
  (∀ c ∈ r.2.1, z.At F s c ∧
    ((r.1 = 0 ∧ ∃ x, s.objs.get c = some x ∧ cmpTo x = 0) ∨ (0 < r.1 ∧ sorted = true))) ∧ ∀ o ∈ r.2.2, z.At F s o

section Search

variable {F : Fence} {s s' : Store} {t : ObjId} {z : Zone} {cmpTo : Obj → Int}

theorem setCursor_ends (h : Fenced F s) (ht : z.IsTable F t) {c : ObjId} (hc : z.At F s c) :
    Ends (fun _ s' => Fenced F s' ∧ Moved t s s') (fun _ s' => Fenced F s') ((setCursor t c).run s) := by
  apply modTable_ends h ht
  intro f i l hlinks hsome
  refine ⟨⟨hlinks.1, ?_, hlinks.2.2⟩, hsome⟩
  intro p hp
  obtain rfl := Option.some.inj hp
  exact hc

theorem locateForward_ends (ht : z.IsTable F t) (sorted : Bool) (n : Nat) (c : Int) {oobj cobj : Option ObjId}
    (h : Fenced F s) (hoobj : ∀ o ∈ oobj, z.At F s o) (hcobj : ∀ o ∈ cobj, z.At F s o) :
    Ends (fun r s' => Fenced F s' ∧ Moved t s s' ∧ Stop F z cmpTo sorted s' r) (fun _ s' => Fenced F s')
      ((locateForward t sorted cmpTo n c oobj cobj).run s) := by
  induction n generalizing c oobj cobj s with
  | zero => exact h
  | succ n ih =>
      cases cobj with
      | none =>
          refine ⟨h, .refl t s, ?_, hoobj⟩
          intro o ho
          cases ho
      | some cobj =>
          rw [locateForward]
          apply getObj_bind_ends fun _ => h
          intro x hget
          have hc := hcobj cobj rfl
          dsimp only
          split
          · rename_i hstop
            refine ⟨h, .refl t s, ?_, hoobj⟩
            intro o ho
            obtain rfl := Option.some.inj ho
            refine ⟨hc, ?_⟩
            rcases hstop with hzero | ⟨hpos, hsort⟩
            · exact .inl ⟨hzero, x, hget, hzero⟩
            · exact .inr ⟨hpos, hsort⟩
          · apply (setCursor_ends h ht hc).bind
            rintro - s₁ ⟨h₁, hmoved⟩
            apply (ih (cmpTo x) h₁ ?_ ?_).mono
            · rintro r s' ⟨h', hmoved', hstop⟩
              exact ⟨h', hmoved.trans hmoved', hstop⟩
            · exact fun _ _ h' => h'
            · intro o ho
              obtain rfl := Option.some.inj ho
              rw [Zone.at_congr hmoved.1]
              exact hc
            · rw [Zone.at_congr hmoved.1]
              exact (h.linked z cobj x hc.1 hget).1

theorem locateBackward_ends (ht : z.IsTable F t) (n : Nat) (c : Int) {oobj cobj : Option ObjId}
    (h : Fenced F s) (hoobj : ∀ o ∈ oobj, z.At F s o) (hcobj : ∀ o ∈ cobj, z.At F s o) :
    Ends (fun r s' => Fenced F s' ∧ Moved t s s' ∧
        (∀ o ∈ r.2.1, z.At F s' o ∧ ∃ x, s'.objs.get o = some x ∧ cmpTo x = r.1) ∧ ∀ o ∈ r.2.2, z.At F s' o)
      (fun _ s' => Fenced F s') ((locateBackward t cmpTo n c oobj cobj).run s) := by
  induction n generalizing c oobj cobj s with
  | zero => exact h
  | succ n ih =>
      cases cobj with
      | none =>
          refine ⟨h, .refl t s, ?_, hoobj⟩
          intro o ho
          cases ho
      | some cobj =>
          rw [locateBackward]
          apply getObj_bind_ends fun _ => h
          intro x hget
          have hc := hcobj cobj rfl
          dsimp only
          split
          · refine ⟨h, .refl t s, ?_, hoobj⟩
            intro o ho
            obtain rfl := Option.some.inj ho
            exact ⟨hc, x, hget, rfl⟩
          · apply (setCursor_ends h ht hc).bind
            rintro - s₁ ⟨h₁, hmoved⟩
            apply (ih (cmpTo x) h₁ ?_ ?_).mono
            · rintro r s' ⟨h', hmoved', hstop⟩
              exact ⟨h', hmoved.trans hmoved', hstop⟩
            · exact fun _ _ h' => h'
            · intro o ho
              obtain rfl := Option.some.inj ho
              rw [Zone.at_congr hmoved.1]
              exact hc
            · rw [Zone.at_congr hmoved.1]
              exact (h.linked z cobj x hc.1 hget).2

theorem searchFrom_ends (h : Fenced F s) (ht : z.IsTable F t) {oname : List Byte} {sorted : Bool} {n : Nat}
    {start : Option ObjId} {cmp : Int} (hstart : ∀ o ∈ start, z.At F s o)
    (hcmp : ¬ cmp < 0 → sorted = true ∧
      ∀ c ∈ start, ∃ x, s.objs.get c = some x ∧ locateCmp (nameNval oname) oname x = cmp) :
    Ends (fun r s' => Fenced F s' ∧ Moved t s s' ∧
        ∃ q, r = some q ∧ Stop F z (locateCmp (nameNval oname) oname) sorted s' q)
      (fun _ s' => Fenced F s') ((searchFrom t oname sorted true n start cmp).run s) := by
  rw [searchFrom]
  split
  · apply (locateForward_ends ht sorted n cmp h hstart hstart).bind
    rintro ⟨c, cobj, oobj⟩ s' ⟨h', hmoved, hstop⟩
    dsimp only
    rw [if_neg (by simp)]
    exact ⟨h', hmoved, _, rfl, hstop⟩
  · rename_i hneg
    obtain ⟨hsort, hx⟩ := hcmp hneg
    split
    · apply (locateBackward_ends ht n cmp h hstart hstart).bind
      rintro ⟨c, cobj, oobj⟩ s' ⟨h', hmoved, hcobj, hoobj⟩
      dsimp only at hcobj hoobj ⊢
      rw [if_neg (by simp)]
      split
      · cases cobj with
        | none => exact h'
        | some d =>
            obtain ⟨hd, -⟩ := hcobj d rfl
            dsimp only
            apply getObj_bind_ends fun _ => h'
            intro x hget
            refine ⟨h', hmoved, _, rfl, ?_, ?_⟩
            · intro o ho
              refine ⟨?_, .inr ⟨Int.zero_lt_one, hsort⟩⟩
              cases hnext : x.next with
              | none =>
                  rw [hnext] at ho
                  obtain rfl := Option.some.inj ho
                  exact hd
              | some e =>
                  rw [hnext] at ho
                  obtain rfl := Option.some.inj ho
                  exact (h'.linked z d x hd.1 hget).1 _ hnext
            · intro o ho
              obtain rfl := Option.some.inj ho
              exact hd
      · split
        · rename_i hpos
          refine ⟨h', hmoved, _, rfl, ?_, hoobj⟩
          intro o ho
          exact ⟨hoobj o ho, .inr ⟨hpos, hsort⟩⟩
        · rename_i hle hpos
          obtain rfl : c = 0 := by omega
          refine ⟨h', hmoved, _, rfl, ?_, hoobj⟩
          intro o ho
          obtain ⟨hd, x, hget, hzero⟩ := hcobj o ho
          exact ⟨hd, .inl ⟨rfl, x, hget, hzero⟩⟩
    · rename_i hpos
      obtain rfl : cmp = 0 := by
        have : ¬ 0 < cmp := fun hlt => hpos ⟨hsort, hlt⟩
        omega
      refine ⟨h, .refl t s, _, rfl, ?_, hstart⟩
      intro o ho
      exact ⟨hstart o ho, .inl ⟨rfl, hx o ho⟩⟩

/-- The search for a name that is set stays in the zone of its table. -/
theorem locateSearch_ends (h : Fenced F s) (ht : z.IsTable F t) (oname : List Byte) :
    Ends (fun r s' => Fenced F s' ∧ ∃ q v y, r = some q ∧ s'.look t = .ok (v, y) ∧
        Stop F z (locateCmp (nameNval oname) oname) y.autosort s' q)
      (fun _ s' => Fenced F s') ((locateSearch t oname true).run s) := by
  rw [locateSearch]
  apply getVal_bind_ends fun _ => h
  intro v y hlook
  apply member_bind_ends fun _ => h
  rintro ⟨f, i, l⟩ hd
  obtain ⟨hlinks, -⟩ := h.asTable ht hlook hd
  dsimp only
  rw [Action.run_bind_ok (walkFuel_run s)]
  have hstart : ∀ o ∈ (if y.autosort then (i <|> f) else f), z.At F s o := by
    intro o ho
    split at ho
    · cases i with
      | none => exact hlinks.1 o ho
      | some i => exact hlinks.2.1 o ho
    · exact hlinks.1 o ho
  have hpost : ∀ r s', (Fenced F s' ∧ Moved t s s' ∧
      ∃ q, r = some q ∧ Stop F z (locateCmp (nameNval oname) oname) y.autosort s' q) →
      Fenced F s' ∧ ∃ q v y, r = some q ∧ s'.look t = .ok (v, y) ∧
        Stop F z (locateCmp (nameNval oname) oname) y.autosort s' q := by
    rintro r s' ⟨h', hmoved, q, hq, hstop⟩
    obtain ⟨y', hlook', hsort⟩ := hmoved.2 v y hlook
    exact ⟨h', q, v, y', hq, hlook', hsort ▸ hstop⟩
  cases hauto : y.autosort with
  | false =>
      rw [hauto] at hstart hpost
      rw [if_neg Bool.false_ne_true, Action.run_bind_ok (Action.run_pure _ _)]
      exact (searchFrom_ends h ht hstart (by omega)).mono hpost fun _ _ h' => h'
  | true =>
      rw [hauto, if_pos rfl] at hstart
      rw [hauto] at hpost
      rw [if_pos rfl, if_pos rfl]
      cases hfirst : (i <|> f) with
      | none => exact h
      | some c =>
          rw [hfirst] at hstart
          dsimp only
          apply getObj_bind_ends fun _ => h
          intro x hx
          rw [Action.run_bind_ok (Action.run_pure _ _)]
          apply (searchFrom_ends h ht hstart fun _ => ⟨rfl, ?_⟩).mono hpost fun _ _ h' => h'
          intro d hd
          obtain rfl := Option.some.inj hd
          exact ⟨x, hx, rfl⟩

end Search

/-! ### New values and entries -/

section Set

variable {F : Fence} {s s' : Store} {o t : ObjId} {x : Obj} {y : Val} {z : Zone}

/-- A value of a new object is written. -/
theorem modVal_new (h : Fenced F s) (ho : F.base.objs.next ≤ o) {f : Val → Val} (hz : ∀ y, (f y).ztable = y.ztable)
    (hlinks : ∀ y : Val, y.d.Links (Zone.mine.At F s) → (f y).d.Links (Zone.mine.At F s))
    (htype : o ∉ F.tables ∨ ∀ y, (f y).type = y.type) :
    Ends (fun _ s' => Fenced F s') (fun _ s' => Fenced F s') ((modVal o f).run s) := by
  apply (modVal_ends s o f).mono
  · rintro - s' ⟨v, y, hlook, hobjs, hvals⟩
    obtain ⟨hptr, hy⟩ := Store.ptr_of_look hlook
    have hv := h.values o v ho hptr
    apply h.write hobjs hvals hv hy ((hz y).trans (h.ztable v y hv hy)) (hlinks y (h.links .mine v y hv hy))
    rcases htype with hnot | hsame
    · exact .inr ⟨o, hptr, hnot⟩
    · exact .inl (hsame y)
  · rintro - s' rfl
    exact h

theorem Fenced.notTable (h : Fenced F s) (ho : Zone.mine.Has F o) : o ∉ F.tables :=
  fun hmem => ho.2 (h.tables o hmem).1

/-- A value that is new is made. -/
theorem Fenced.allocVal (h : Fenced F s) (hobjs : s'.objs = s.objs) (hvals : s'.vals = s.vals.alloc y)
    (hz : y.ztable = none) (hlinks : y.d.Links (Zone.mine.At F s)) : Fenced F s' := by
  apply h.of_vals hobjs
  · rw [hvals]
    exact Nat.le_succ _
  · intro v hv _
    rw [hvals, Cells.get_alloc_of_ne]
    exact Nat.ne_of_lt (Nat.lt_of_lt_of_le hv h.valsNext)
  · intro v y' _ hy'
    left
    rw [hvals]
    exact Cells.get_alloc_of_some hy'
  · intro v y' hv hy'
    rw [hvals] at hy'
    by_cases heq : v = s.vals.next
    · subst heq
      rw [Cells.get_alloc_self] at hy'
      obtain rfl := Option.some.inj hy'
      exact ⟨hz, hlinks⟩
    · rw [Cells.get_alloc_of_ne _ heq] at hy'
      exact ⟨h.ztable v y' hv hy', h.links .mine v y' hv hy'⟩
  · intro t _ v y' hlook htype
    refine ⟨y', ?_, htype⟩
    rw [hvals]
    exact Cells.get_alloc_of_some (Store.ptr_of_look hlook).2

/-- An object of the zone `mine` is made or written. -/
theorem Fenced.writeMine (h : Fenced F s) (hvals : s'.vals = s.vals) (ho : Zone.mine.Has F o)
    (hx : s'.objs.get o = some x) (hother : ∀ p, p ≠ o → s'.objs.get p = s.objs.get p)
    (hnext : s.objs.next ≤ s'.objs.next)
    (hlinks : (∀ p ∈ x.next, Zone.mine.At F s' p) ∧ ∀ p ∈ x.prev, Zone.mine.At F s' p)
    (hval : ∀ v, x.val = some v → s.ptr o = some v ∨
      (F.base.vals.next ≤ v ∧ v < s.vals.next ∧ ∀ p, s.ptr p ≠ some v)) : Fenced F s' := by
  apply h.of_objs hvals hnext
  · intro p hlt _
    apply hother
    rintro rfl
    exact absurd ho.1 (Nat.not_le_of_lt hlt)
  · intro p hp x' hx'
    refine ⟨x'.prev, x'.next, ?_⟩
    rw [hother p, hx']
    rintro rfl
    exact ho.2 hp
  · intro z' p x' hp hx'
    by_cases heq : p = o
    · subst heq
      rw [hx] at hx'
      obtain rfl := Option.some.inj hx'
      cases z' with
      | mine => exact hlinks
      | globals => exact absurd hp ho.2
    · rw [hother p heq] at hx'
      obtain ⟨hn, hp⟩ := h.linked z' p x' hp hx'
      exact ⟨fun q hq => (hn q hq).mono hnext, fun q hq => (hp q hq).mono hnext⟩
  · intro p v _ hv
    by_cases heq : p = o
    · subst heq
      rw [Store.ptr, hx] at hv
      rcases hval v hv with hold | ⟨hle, hlt, hnone⟩
      · exact .inl hold
      · refine .inr ⟨hle, hlt, hnone, fun q hq => ?_⟩
        by_contra hne
        rw [Store.ptr, hother q hne] at hq
        exact hnone q hq
    · left
      rwa [Store.ptr, hother p heq] at hv

theorem newObj_mine (h : Fenced F s) : Ends (fun o s' => Fenced F s' ∧ Zone.mine.At F s' o)
    (fun _ s' => Fenced F s') (newObj.run s) := by
  have hmine := h.mine_next
  refine ⟨?_, hmine, Nat.lt_succ_self _⟩
  apply h.writeMine (x := {}) _ hmine
  · exact Cells.get_alloc_self _
  · exact fun p hp => Cells.get_alloc_of_ne _ hp
  · exact Nat.le_succ _
  · simp
  · intro v hv
    cases hv
  · rfl

/-- `o->val` becomes a new value. -/
theorem newValFor_mine (h : Fenced F s) (ho : Zone.mine.Has F o) (hz : y.ztable = none)
    (hlinks : y.d.Links (Zone.mine.At F s)) :
    Ends (fun _ s' => Fenced F s' ∧ s'.objs.next = s.objs.next) (fun _ s' => Fenced F s') ((newValFor o y).run s) := by
  simp only [newValFor]
  cases hx : s.objs.get o with
  | none => exact h
  | some x =>
      refine ⟨?_, rfl⟩
      have h₁ : Fenced F { s with vals := s.vals.alloc y } := h.allocVal rfl rfl hz hlinks
      apply h₁.writeMine (x := { x with val := some s.vals.next }) _ ho
      · show (s.objs.modify o _).get o = _
        rw [Cells.get_modify_self, hx]
        rfl
      · exact fun p hp => Cells.get_modify_of_ne _ hp
      · exact Nat.le_refl _
      · exact h.linked .mine o x ho hx
      · rintro v hv
        obtain rfl := Option.some.inj hv
        exact .inr ⟨h.valsNext, Nat.lt_succ_self _, fun p hp => absurd (h.made p _ hp) (Nat.lt_irrefl _)⟩
      · rfl

theorem nSetname_mine (h : Fenced F s) (ho : Zone.mine.Has F o) (name : List Byte) :
    Ends (fun _ s' => Fenced F s' ∧ s'.objs.next = s.objs.next) (fun _ s' => Fenced F s') ((nSetname o name).run s) := by
  apply (modObj_ends s o _ _).mono
  · rintro - s' ⟨x, hx, hobjs, hvals⟩
    have hnext : s'.objs.next = s.objs.next := by rw [hobjs]; rfl
    refine ⟨?_, hnext⟩
    have hself : s'.objs.get o = some (x.setname name) := by
      rw [hobjs, Cells.get_modify_self, hx, Option.map_some]
    apply h.writeMine hvals ho hself
    · intro p hp
      rw [hobjs, Cells.get_modify_of_ne _ hp]
    · exact Nat.le_of_eq hnext.symm
    · obtain ⟨hn, hp⟩ := h.linked .mine o x ho hx
      exact ⟨fun q hq => (hn q hq).mono (Nat.le_of_eq hnext.symm), fun q hq => (hp q hq).mono (Nat.le_of_eq hnext.symm)⟩
    · intro v hv
      left
      rw [Store.ptr, hx]
      exact hv
  · rintro - s' rfl
    exact h

/-- A value of an object of the zone that is no table is freed. -/
theorem nFreeval_mine (h : Fenced F s) (ho : Zone.mine.Has F o) {v : ValId} (hlook : s.look o = .ok (v, y))
    (hnull : y.type ≠ .null) (htable : y.type ≠ .table) :
    Ends (fun _ s' => Fenced F s') (fun _ s' => Fenced F s') ((nFreeval o).run s) := by
  have hwrite : Ends (fun _ s' => Fenced F s') (fun _ s' => Fenced F s')
      ((clearVal (s.objs.next + s.vals.next) o).run s) := by
    apply (modVal_new (f := fun y => { y with type := .null, size := 0, d := .num 0 }) h ho.1 (fun _ => rfl)
      (fun _ _ => trivial) (.inl (h.notTable ho))).bind
    intro _ s' h'
    apply getVal_bind_ends fun _ => h'
    intro v' y' hlook'
    obtain ⟨hptr, hy⟩ := Store.ptr_of_look hlook'
    rw [h'.ztable v' y' (h'.values o v' ho.1 hptr) hy]
    exact h'
  rw [nFreeval, Action.run_bind_ok (walkFuel_run s), freeval, Action.run_bind_ok (typeOf_run hlook), if_neg hnull]
  dsimp only
  split
  · apply getVal_bind_ends fun _ => h
    intro _ y' _
    apply member_bind_ends fun _ => h
    intro b _
    cases b with
    | true => exact h
    | false =>
        rw [if_neg Bool.false_ne_true]
        exact hwrite
  · exact hwrite

/-- `nsp_setvaltype` of an object of the zone that is no table. -/
theorem nspSetvaltype_mine (h : Fenced F s) (ho : Zone.mine.Has F o) (type : Ty)
    (htable : ∀ v y, s.look o = .ok (v, y) → y.type ≠ .table) :
    Ends (fun _ s' => Fenced F s') (fun _ s' => Fenced F s') ((nspSetvaltype o type).run s) := by
  have hsort : ∀ s₁, Fenced F s₁ → Ends (fun _ s' => Fenced F s') (fun _ s' => Fenced F s')
      ((if type = .table then modVal o fun y => { y with autosort := true } else pure () : H Unit).run s₁) := by
    intro s₁ h₁
    split
    · exact modVal_new h₁ ho.1 (fun _ => rfl) (fun _ hl => hl) (.inr fun _ => rfl)
    · exact h₁
  have hlast : ∀ s₁, Fenced F s₁ → Ends (fun _ s' => Fenced F s') (fun _ s' => Fenced F s') ((do
      modVal o fun y => { y with type := type }
      if type = .table then modVal o fun y => { y with autosort := true } : H Unit).run s₁) := by
    intro s₁ h₁
    exact (modVal_new (f := fun y => { y with type := type }) h₁ ho.1 (fun _ => rfl) (fun _ hl => hl)
      (.inl (h₁.notTable ho))).bind fun _ s₂ h₂ => hsort s₂ h₂
  rw [nspSetvaltype]
  apply getObj_bind_ends fun _ => h
  intro x hx
  cases hval : x.val with
  | none =>
      dsimp only
      apply (newValFor_mine (y := { type := type }) h ho rfl trivial).bind
      rintro - s₁ ⟨h₁, -⟩
      exact hsort s₁ h₁
  | some v =>
      dsimp only
      apply typeOf_bind_ends fun _ => h
      rintro ty (⟨v, y, hlook, rfl⟩ | ⟨rfl, -⟩)
      · split
        · rename_i hnull
          rw [if_neg (htable v y hlook)]
          exact (nFreeval_mine h ho hlook hnull (htable v y hlook)).bind fun _ s₁ h₁ => hlast s₁ h₁
        · exact hlast s h
      · exact hlast s h

theorem nspStrcat_new (h : Fenced F s) (ho : F.base.objs.next ≤ o) (str : List Byte) :
    Ends (fun _ s' => Fenced F s') (fun _ s' => Fenced F s') ((nspStrcat o str).run s) := by
  rw [nspStrcat]
  apply typeOf_bind_ends fun _ => h
  intro ty _
  split
  · split
    · exact h
    · apply getVal_bind_ends fun _ => h
      intro v y _
      have hwrite : ∀ old : List Byte, Ends (fun _ s' => Fenced F s') (fun _ s' => Fenced F s')
          ((modVal o fun y =>
            { y with size := y.size + str.length, d := .str (old.take y.size ++ str) }).run s) :=
        fun old => modVal_new h ho (fun _ => rfl) (fun _ _ => trivial) (.inr fun _ => rfl)
      split
      · rw [Action.run_bind_ok (Action.run_pure _ _)]
        exact hwrite []
      · apply member_bind_ends fun _ => h
        intro old _
        exact hwrite old
  · exact h

/-- The data of a setting is stored in a new object. -/
theorem storeSetting_new (h : Fenced F s) (ho : F.base.objs.next ≤ o) (v : Setting) :
    Ends (fun _ s' => Fenced F s') (fun _ s' => Fenced F s') ((storeSetting o v).run s) := by
  cases v with
  | null => exact h
  | table => exact h
  | boolean q => exact modVal_new h ho (fun _ => rfl) (fun _ _ => trivial) (.inr fun _ => rfl)
  | number q => exact modVal_new h ho (fun _ => rfl) (fun _ _ => trivial) (.inr fun _ => rfl)
  | cfunc f => exact modVal_new h ho (fun _ => rfl) (fun _ _ => trivial) (.inr fun _ => rfl)
  | string b => exact nspStrcat_new h ho b
  | nfunc b => exact nspStrcat_new h ho b
  | cdata b => exact nspStrcat_new h ho b

/-- The first entry of a new table. -/
theorem firstEntry_mine (h : Fenced F s) (ht : F.base.objs.next ≤ t) (oname : List Byte) (otype : Ty) :
    Ends (fun o s' => Fenced F s' ∧ Zone.mine.Has F o) (fun _ s' => Fenced F s')
      ((firstEntry t oname otype).run s) := by
  rw [firstEntry]
  apply (newObj_mine h).bind
  rintro o s₁ ⟨h₁, ho⟩
  apply (modTable_ends (z := .mine) h₁ ht ?_).bind
  · rintro - s₂ ⟨h₂, -⟩
    apply (newValFor_mine (y := { type := otype }) h₂ ho.1 rfl trivial).bind
    rintro - s₃ ⟨h₃, -⟩
    apply (nSetname_mine h₃ ho.1 oname).bind
    rintro - s₄ ⟨h₄, -⟩
    apply getVal_bind_ends fun _ => h₄
    intro v y _
    apply (modVal_new (f := fun x => { x with autosort := x.autosort || y.autosort }) h₄ ho.1.1 (fun _ => rfl)
      (fun _ hl => hl) (.inr fun _ => rfl)).bind
    intro _ s₅ h₅
    exact ⟨h₅, ho.1⟩
  · intro f i l _ _
    refine ⟨?_, fun hz => by cases hz⟩
    simp [Data.Links, ho]

/-- The division once an entry is added to the globals. -/
def Fence.enter (F : Fence) (o : ObjId) (oname : List Byte) (otype : Ty) : Fence :=
  { F with
    entries := o :: F.entries
    names := oname :: F.names
    tables := if otype = .table then o :: F.tables else F.tables }

/-- The division once an entry is added to a zone. -/
def Zone.enter (F : Fence) (o : ObjId) (oname : List Byte) (otype : Ty) : Zone → Fence
  | .globals => F.enter o oname otype
  | .mine => F

/-- A new entry of the globals. -/
theorem Fenced.enter (h : Fenced F s) {oname : List Byte} {otype : Ty} {p n : Option ObjId}
    (hobj : s'.objs.get s.objs.next =
      some (Obj.setname { prev := p, next := n, val := some s.vals.next } oname))
    (hother : ∀ o, o ≠ s.objs.next → s'.objs.get o = s.objs.get o) (hvals : s'.vals = s.vals.alloc { type := otype })
    (hname : oname ∈ F.allowed) (hp : ∀ q ∈ p, Zone.globals.At F s q) (hn : ∀ q ∈ n, Zone.globals.At F s q) :
    Fenced (F.enter s.objs.next oname otype) s' := by
  have hlt := Cells.lt_next hobj
  have hold : ∀ {o x}, s.objs.get o = some x → s'.objs.get o = some x := by
    intro o x hx
    rw [hother o (Cells.ne_next hx), hx]
  have hget : ∀ {v y}, s.vals.get v = some y → s'.vals.get v = some y := by
    intro v y hy
    rw [hvals]
    exact Cells.get_alloc_of_some hy
  have hfresh : ∀ {o v}, s'.ptr o = some v → s.ptr o = some v ∨ (o = s.objs.next ∧ v = s.vals.next) := by
    intro o v hv
    by_cases ho : o = s.objs.next
    · subst ho
      rw [Store.ptr, hobj] at hv
      exact .inr ⟨rfl, (Option.some.inj hv).symm⟩
    · rw [Store.ptr, hother o ho] at hv
      exact .inl hv
  have hglobals : ∀ {q}, Zone.globals.At F s q → Zone.globals.At (F.enter s.objs.next oname otype) s' q :=
    fun hq => ⟨List.mem_cons_of_mem _ hq.1, Nat.lt_trans hq.2 hlt⟩
  have hmine : ∀ {q}, Zone.mine.At F s q → Zone.mine.At (F.enter s.objs.next oname otype) s' q := by
    intro q hq
    refine ⟨⟨hq.1.1, fun hmem => ?_⟩, Nat.lt_trans hq.2 hlt⟩
    rcases List.mem_cons.mp hmem with rfl | hmem
    · exact absurd hq.2 (Nat.lt_irrefl _)
    · exact hq.1.2 hmem
  refine ⟨h.ready, Nat.le_trans h.objsNext (Nat.le_of_lt hlt), ?_, fun o x hx ho => hold (h.objs o x hx ho), ?_,
    fun v y hy hne hg => hget (h.vals v y hy hne hg), hget h.null, ?_, ?_, ?_, ?_, ?_, ?_, ?_, ?_, ?_, ?_⟩
  · rw [hvals]
    exact Nat.le_succ_of_le h.valsNext
  · intro o ho
    obtain ⟨hent, hkeep⟩ := h.olds o ho
    refine ⟨List.mem_cons_of_mem _ hent, fun x hx => ?_⟩
    obtain ⟨p', n', hs⟩ := hkeep x hx
    exact ⟨p', n', hold hs⟩
  · intro v y hlook
    obtain ⟨f, i, l, hs⟩ := h.globals v y hlook
    exact ⟨f, i, l, hget hs⟩
  · intro w hw
    rcases List.mem_cons.mp hw with rfl | hw
    · exact hname
    · exact h.names w hw
  · intro o ho hnot
    rcases List.mem_cons.mp ho with rfl | ho
    · refine ⟨h.objsNext, _, hobj, ?_⟩
      show clip oname ∈ oname :: F.names
      rw [(h.ready.plain oname hname).2.2]
      exact List.mem_cons_self ..
    · obtain ⟨hle, x, hx, hmem⟩ := h.new o ho hnot
      exact ⟨hle, x, hold hx, List.mem_cons_of_mem _ hmem⟩
  · intro z o x ho hx
    by_cases heq : o = s.objs.next
    · subst heq
      rw [hobj] at hx
      obtain rfl := Option.some.inj hx
      cases z with
      | mine => exact absurd (List.mem_cons_self ..) ho.2
      | globals => exact ⟨fun q hq => hglobals (hn q hq), fun q hq => hglobals (hp q hq)⟩
    · rw [hother o heq] at hx
      cases z with
      | mine =>
          obtain ⟨hn', hp'⟩ := h.linked .mine o x ⟨ho.1, fun hmem => ho.2 (List.mem_cons_of_mem _ hmem)⟩ hx
          exact ⟨fun q hq => hmine (hn' q hq), fun q hq => hmine (hp' q hq)⟩
      | globals =>
          rcases List.mem_cons.mp ho with rfl | ho
          · exact absurd rfl heq
          · obtain ⟨hn', hp'⟩ := h.linked .globals o x ho hx
            exact ⟨fun q hq => hglobals (hn' q hq), fun q hq => hglobals (hp' q hq)⟩
  · intro z v y hz hy
    rw [hvals] at hy
    by_cases heq : v = s.vals.next
    · subst heq
      rw [Cells.get_alloc_self] at hy
      obtain rfl := Option.some.inj hy
      trivial
    · rw [Cells.get_alloc_of_ne _ heq] at hy
      cases z with
      | mine => exact (h.links .mine v y hz hy).mono fun q hq => hmine hq
      | globals => exact (h.links .globals v y hz hy).mono fun q hq => hglobals hq
  · intro v y hv hy
    rw [hvals] at hy
    by_cases heq : v = s.vals.next
    · subst heq
      rw [Cells.get_alloc_self] at hy
      obtain rfl := Option.some.inj hy
      rfl
    · rw [Cells.get_alloc_of_ne _ heq] at hy
      exact h.ztable v y hv hy
  · intro o v ho hv
    rcases hfresh hv with hv | ⟨-, rfl⟩
    · exact h.values o v ho hv
    · exact h.valsNext
  · intro o p v hv ho hp
    rcases hfresh ho with ho | ⟨rfl, rfl⟩
    · rcases hfresh hp with hp | ⟨rfl, rfl⟩
      · exact h.single o p v hv ho hp
      · exact absurd (h.made o _ ho) (Nat.lt_irrefl _)
    · rcases hfresh hp with hp | ⟨rfl, -⟩
      · exact absurd (h.made p _ hp) (Nat.lt_irrefl _)
      · rfl
  · intro o v hv
    rw [hvals]
    rcases hfresh hv with hv | ⟨-, rfl⟩
    · exact Nat.lt_succ_of_lt (h.made o v hv)
    · exact Nat.lt_succ_self _
  · intro t ht
    have hcases : t ∈ F.tables ∨ (t = s.objs.next ∧ otype = .table) := by
      have ht : t ∈ if otype = .table then s.objs.next :: F.tables else F.tables := ht
      split at ht
      · rename_i htable
        exact (List.mem_cons.mp ht).symm.imp_right fun heq => ⟨heq, htable⟩
      · exact .inl ht
    rcases hcases with ht | ⟨rfl, rfl⟩
    · obtain ⟨hmem, hnot, v, y, hlook, htype⟩ := h.tables t ht
      obtain ⟨hptr, hy⟩ := Store.ptr_of_look hlook
      obtain ⟨x, hx, hv⟩ := Option.bind_eq_some_iff.mp hptr
      exact ⟨List.mem_cons_of_mem _ hmem, hnot, v, y, Store.look_eq (hold hx) hv (hget hy), htype⟩
    · refine ⟨List.mem_cons_self .., fun hmem => ?_, _, { type := .table }, Store.look_eq hobj rfl ?_, rfl⟩
      · exact absurd (h.entry_lt (h.olds _ hmem).1) (Nat.lt_irrefl _)
      · rw [hvals, Cells.get_alloc_self]

theorem Zone.enter_isTable (z : Zone) (F : Fence) (o : ObjId) (oname : List Byte) (otype : Ty) :
    z.IsTable (z.enter F o oname otype) t ↔ z.IsTable F t := by
  cases z <;> exact Iff.rfl

theorem Fenced.kept_enter {oname : List Byte} {otype : Ty} (h : Fenced (z.enter F o oname otype) s) : F.Kept s := by
  cases z with
  | mine => exact h.kept
  | globals => exact ⟨_, _, _, h⟩

/-- A new entry of a zone. -/
theorem newEntry_ends (h : Fenced F s) {oname : List Byte} (hname : z = .globals → oname ∈ F.allowed) (otype : Ty)
    {p n : Option ObjId} (hp : ∀ q ∈ p, z.At F s q) (hn : ∀ q ∈ n, z.At F s q) :
    Ends (fun o s' => F.base.objs.next ≤ o ∧ Fenced (z.enter F o oname otype) s' ∧
        z.At (z.enter F o oname otype) s' o ∧ ∀ q, z.At F s q → z.At (z.enter F o oname otype) s' q)
      (fun _ s' => F.Kept s') ((newEntry oname otype p n).run s) := by
  obtain ⟨s', hrun, hobj, hother, hvals⟩ := newEntry_run s oname otype p n
  have hlt := Cells.lt_next hobj
  rw [hrun]
  refine ⟨h.objsNext, ?_⟩
  cases z with
  | mine =>
      have h₁ : Fenced F { s with vals := s.vals.alloc { type := otype } } := h.allocVal rfl rfl rfl trivial
      refine ⟨?_, ⟨h.mine_next, hlt⟩, fun q hq => hq.mono (Nat.le_of_lt hlt)⟩
      apply h₁.writeMine hvals h.mine_next hobj hother (Nat.le_of_lt hlt)
      · exact ⟨fun q hq => (hn q hq).mono (Nat.le_of_lt hlt), fun q hq => (hp q hq).mono (Nat.le_of_lt hlt)⟩
      · rintro v hv
        obtain rfl := Option.some.inj hv
        exact .inr ⟨h.valsNext, Nat.lt_succ_self _, fun q hq => absurd (h.made q _ hq) (Nat.lt_irrefl _)⟩
  | globals =>
      refine ⟨h.enter hobj hother hvals (hname rfl) hp hn, ⟨List.mem_cons_self .., hlt⟩, fun q hq => ?_⟩
      exact ⟨List.mem_cons_of_mem _ hq.1, Nat.lt_trans hq.2 hlt⟩

/-- No entry of the globals has a name that was not added. -/
theorem Fenced.not_found (h : Fenced F s) {oname : List Byte} (hname : oname ∈ F.allowed) (hnew : oname ∉ F.names)
    (ho : o ∈ F.entries) (hx : s.objs.get o = some x) : locateCmp (nameNval oname) oname x ≠ 0 := by
  obtain ⟨hnval, h0, -⟩ := h.ready.plain oname hname
  rw [hnval, locateCmp, if_neg (by omega)]
  by_cases hold : o ∈ F.olds
  · obtain ⟨x', hx', -, -, hne⟩ := h.ready.linked o hold
    obtain ⟨p, n, hs⟩ := (h.olds o hold).2 x' hx'
    rw [hx] at hs
    obtain rfl := Option.some.inj hs
    exact hne oname hname
  · obtain ⟨-, x', hx', hmem⟩ := h.new o ho hold
    rw [hx] at hx'
    obtain rfl := Option.some.inj hx'
    intro heq
    obtain ⟨-, h0', -⟩ := h.ready.plain x.name (h.names _ hmem)
    exact hnew (eq_of_nameCmp h0' h0 heq ▸ hmem)

/-- The last part of `n_locateobj`, in a zone. -/
theorem locateSet_ends (h : Fenced F s) (ht : z.IsTable F t) {oname : List Byte}
    (hname : z = .globals → oname ∈ F.allowed ∧ oname ∉ F.names) (otype : Ty) {v : ValId}
    {r : Int × Option ObjId × Option ObjId} (hlook : s.look t = .ok (v, y))
    (hstop : Stop F z (locateCmp (nameNval oname) oname) y.autosort s r) :
    Ends (fun o s' => F.base.objs.next ≤ o ∧ Fenced (z.enter F o oname otype) s' ∧ (z = .mine → Zone.mine.Has F o))
      (fun _ s' => F.Kept s') ((locateSet t oname otype r.1 r.2.1 r.2.2).run s) := by
  obtain ⟨cmp, cobj, oobj⟩ := r
  obtain ⟨hcobj, hoobj⟩ := hstop
  dsimp only at hcobj hoobj ⊢
  have hlast : ∀ {o s₁}, F.base.objs.next ≤ o → Fenced (z.enter F o oname otype) s₁ →
      z.At (z.enter F o oname otype) s₁ o →
      F.base.objs.next ≤ o ∧ Fenced (z.enter F o oname otype) s₁ ∧ (z = .mine → Zone.mine.Has F o) := by
    intro o s₁ hle h₁ hat
    refine ⟨hle, h₁, ?_⟩
    rintro rfl
    exact hat.1
  unfold locateSet
  apply getVal_bind_ends fun _ => h.kept
  intro v' y' hlook'
  obtain ⟨rfl, rfl⟩ : v' = v ∧ y' = y := by
    rw [hlook] at hlook'
    cases hlook'
    exact ⟨rfl, rfl⟩
  split
  · -- a new entry before the object where the search stopped
    cases cobj with
    | none => exact h.kept
    | some d =>
        obtain ⟨hd, -⟩ := hcobj d rfl
        dsimp only
        apply getObj_bind_ends fun _ => h.kept
        intro x hx
        have hprev := (h.linked z d x hd.1 hx).2
        apply (newEntry_ends h (fun hz => (hname hz).1) otype hprev ?_).bind
        · rintro o s₁ ⟨hle, h₁, hat, hkeep⟩
          have hsetPrev : ∀ s₂, Fenced (z.enter F o oname otype) s₂ → s₂.objs.next = s₁.objs.next →
              Ends (fun o s' => F.base.objs.next ≤ o ∧ Fenced (z.enter F o oname otype) s' ∧
                (z = .mine → Zone.mine.Has F o)) (fun _ s' => F.Kept s') ((do
                  setPrev d o
                  pure o : H ObjId).run s₂) := by
            intro s₂ h₂ hnext
            apply ((setPrev_ends h₂ (hkeep d hd).1 (hat.mono (Nat.le_of_eq hnext.symm))).mono (fun _ _ h' => h')
              fun _ _ h' => h'.kept_enter).bind
            rintro - s₃ ⟨h₃, hnext'⟩
            exact hlast hle h₃ (hat.mono (Nat.le_of_eq (hnext'.trans hnext).symm))
          have hsetNext : ∀ p s₂, x.prev = some p → Fenced (z.enter F o oname otype) s₂ →
              s₂.objs.next = s₁.objs.next → Ends (fun o s' => F.base.objs.next ≤ o ∧
                Fenced (z.enter F o oname otype) s' ∧ (z = .mine → Zone.mine.Has F o)) (fun _ s' => F.Kept s') ((do
                  setNext p o
                  setPrev d o
                  pure o : H ObjId).run s₂) := by
            intro p s₂ hp h₂ hnext
            apply ((setNext_ends h₂ (hkeep p (hprev p hp)).1 (hat.mono (Nat.le_of_eq hnext.symm))).mono
              (fun _ _ h' => h') fun _ _ h' => h'.kept_enter).bind
            rintro - s₃ ⟨h₃, hnext'⟩
            exact hsetPrev s₃ h₃ (hnext'.trans hnext)
          apply member_bind_ends fun _ => h₁.kept_enter
          rintro ⟨f, i, l⟩ _
          dsimp only
          split
          · apply ((modTable_ends h₁ ((z.enter_isTable ..).mpr ht) ?_).mono (fun _ _ h' => h')
              fun _ _ h' => h'.kept_enter).bind
            · rintro - s₂ ⟨h₂, hmoved⟩
              cases hp : x.prev with
              | none => exact hsetPrev s₂ h₂ (by rw [hmoved.1])
              | some p => exact hsetNext p s₂ hp h₂ (by rw [hmoved.1])
            · intro f i l hlinks _
              refine ⟨⟨?_, hlinks.2⟩, fun _ => rfl⟩
              intro q hq
              obtain rfl := Option.some.inj hq
              exact hat
          · cases hp : x.prev with
            | none => exact hsetPrev s₁ h₁ rfl
            | some p => exact hsetNext p s₁ hp h₁ rfl
        · intro q hq
          obtain rfl := Option.some.inj hq
          exact hd
  · cases cobj with
    | none =>
        -- a new entry at the end
        dsimp only
        apply (newEntry_ends h (fun hz => (hname hz).1) otype hoobj (by simp)).bind
        rintro o s₁ ⟨hle, h₁, hat, hkeep⟩
        have hend : ∀ s₂, Fenced (z.enter F o oname otype) s₂ → s₂.objs.next = s₁.objs.next →
            Ends (fun o s' => F.base.objs.next ≤ o ∧ Fenced (z.enter F o oname otype) s' ∧
              (z = .mine → Zone.mine.Has F o)) (fun _ s' => F.Kept s') ((do
                modTable t fun r => (r.1, r.2.1, some o)
                pure o : H ObjId).run s₂) := by
          intro s₂ h₂ hnext
          apply ((modTable_ends h₂ ((z.enter_isTable ..).mpr ht) ?_).mono (fun _ _ h' => h')
            fun _ _ h' => h'.kept_enter).bind
          · rintro - s₃ ⟨h₃, hmoved⟩
            exact hlast hle h₃ (hat.mono (Nat.le_of_eq (by rw [hmoved.1, hnext])))
          · intro f i l hlinks hsome
            refine ⟨⟨hlinks.1, hlinks.2.1, ?_⟩, hsome⟩
            intro q hq
            obtain rfl := Option.some.inj hq
            exact hat.mono (Nat.le_of_eq hnext.symm)
        cases oobj with
        | none => exact hend s₁ h₁ rfl
        | some q =>
            apply ((setNext_ends h₁ (hkeep q (hoobj q rfl)).1 hat).mono (fun _ _ h' => h')
              fun _ _ h' => h'.kept_enter).bind
            rintro - s₂ ⟨h₂, hnext⟩
            exact hend s₂ h₂ hnext
    | some d =>
        -- an entry that has the name
        rename_i hcmp
        obtain ⟨hd, hfound⟩ := hcobj d rfl
        rcases hfound with ⟨-, x, hx, hzero⟩ | hlater
        · cases z with
          | globals => exact absurd hzero (h.not_found (hname rfl).1 (hname rfl).2 hd.1 hx)
          | mine =>
              dsimp only
              have hret : ∀ s', Fenced F s' → F.base.objs.next ≤ d ∧ Fenced (Zone.mine.enter F d oname otype) s' ∧
                  (Zone.mine = .mine → Zone.mine.Has F d) := fun s' h' => ⟨hd.1.1, h', fun _ => hd.1⟩
              apply typeOf_bind_ends fun _ => h.kept
              intro ty hty
              split
              · apply ((modVal_new (f := fun y => { y with type := otype }) h hd.1.1 (fun _ => rfl) (fun _ hl => hl)
                  (.inl (h.notTable hd.1))).mono (fun _ _ h' => h') fun _ _ h' => h'.kept).bind
                intro _ s' h'
                exact hret s' h'
              · rename_i hne
                apply ((nspSetvaltype_mine h hd.1 otype ?_).mono (fun _ _ h' => h') fun _ _ h' => h'.kept).bind
                · intro _ s' h'
                  exact hret s' h'
                · intro w u hlook'' htab
                  rcases hty with ⟨w', u', hlook₃, rfl⟩ | ⟨rfl, hnone⟩
                  · rw [hlook''] at hlook₃
                    cases hlook₃
                    exact hne htab
                  · rw [(Store.ptr_of_look hlook'').1] at hnone
                    cases hnone
        · exact absurd hlater hcmp

/-! ### `nsp_setobj` -/

theorem nspIstable_ends {E : Fault → Store → Prop} (t : ObjId) (hE : ∀ e, E e s) :
    Ends (fun b s' => s' = s ∧ if b then ∃ v y, s.look t = .ok (v, y) ∧ y.type = .table
      else ∀ v y, s.look t = .ok (v, y) → y.type ≠ .table) E ((nspIstable t).run s) := by
  rw [nspIstable]
  apply typeOf_bind_ends hE
  rintro ty (⟨v, y, hlook, rfl⟩ | ⟨rfl, hnone⟩)
  · refine ⟨rfl, ?_⟩
    by_cases htype : y.type = .table
    · rw [htype]
      exact ⟨v, y, hlook, htype⟩
    · rw [beq_eq_false_iff_ne.mpr htype]
      intro v' y' hlook'
      rw [hlook] at hlook'
      cases hlook'
      exact htype
  · refine ⟨rfl, ?_⟩
    intro v y hlook
    rw [(Store.ptr_of_look hlook).1] at hnone
    cases hnone

/-- `n_locateobj` when it sets, in a zone. -/
theorem nLocateobjSet_ends (h : Fenced F s) (ht : z.IsTable F t) {oname : List Byte}
    (hname : z = .globals → oname ∈ F.allowed ∧ oname ∉ F.names) (otype : Ty) :
    Ends (fun o s' => F.base.objs.next ≤ o ∧ Fenced (z.enter F o oname otype) s' ∧ (z = .mine → Zone.mine.Has F o))
      (fun _ s' => F.Kept s') ((nLocateobjSet t oname otype).run s) := by
  rw [nLocateobjSet]
  apply ((locateSearch_ends h ht oname).mono (fun _ _ h' => h') fun _ _ h' => h'.kept).bind
  rintro r s₁ ⟨h₁, q, v, y, rfl, hlook, hstop⟩
  exact locateSet_ends h₁ ht hname otype hlook hstop

/-- A name that was not added is set in the globals. -/
theorem nspSetobj_globals (h : Fenced F s) {oname : List Byte} (hname : oname ∈ F.allowed) (hnew : oname ∉ F.names)
    (hne : oname ≠ []) (v : Setting) :
    Ends (fun o s' => F.base.objs.next ≤ o ∧ Fenced (F.enter o oname v.type) s') (fun _ s' => F.Kept s')
      ((nspSetobj globalObj (some oname) v).run s) := by
  obtain ⟨vg, yg, f, i, l, hlook, htype, -⟩ := h.ready.globals
  obtain ⟨f', i', l', hs⟩ := h.globals vg yg hlook
  have hlook' : s.look globalObj = .ok (vg, { yg with d := .table (some f') i' l' }) := by
    apply Store.look_of_ptr _ hs
    rw [h.globalPtr]
    exact (Store.ptr_of_look hlook).1
  have htable : (nspIstable globalObj).run s = .ok true s := by
    rw [nspIstable_run hlook']
    simp [htype]
  have hfirst : (firstOf globalObj).run s = .ok (some f') s := by
    rw [firstOf, Action.run_bind_ok (getVal_run hlook')]
    rfl
  rw [nspSetobj, Action.run_bind_ok htable, if_pos ⟨by decide, rfl⟩, Action.run_bind_ok hfirst]
  · dsimp only
    rw [if_neg (by simp)]
    apply (nLocateobjSet_ends (z := .globals) h rfl (fun _ => ⟨hname, hnew⟩) v.type).bind
    rintro o s₁ ⟨hle, h₁, -⟩
    apply ((storeSetting_new h₁ hle v).mono (fun _ _ h' => h') fun _ _ h' => Fenced.kept_enter (z := .globals) h').bind
    intro _ s₂ h₂
    exact ⟨hle, h₂⟩
  · exact hne

/-- A name that is not empty is set in a new table. -/
theorem nspSetobj_mine (h : Fenced F s) (ht : t ∈ F.tables ∨ Zone.mine.Has F t) {oname : List Byte} (hne : oname ≠ [])
    (v : Setting) : Ends (fun o s' => Fenced F s' ∧ Zone.mine.Has F o) (fun _ s' => F.Kept s')
      ((nspSetobj t (some oname) v).run s) := by
  have hle : F.base.objs.next ≤ t := by
    rcases ht with ht | ht
    · obtain ⟨hmem, hold, -⟩ := h.tables t ht
      exact (h.new t hmem hold).1
    · exact ht.1
  have hstore : ∀ {o s₁}, Fenced F s₁ → Zone.mine.Has F o → Ends (fun o s' => Fenced F s' ∧ Zone.mine.Has F o)
      (fun _ s' => F.Kept s') ((do
        storeSetting o v
        pure o : H ObjId).run s₁) := by
    intro o s₁ h₁ ho
    apply ((storeSetting_new h₁ ho.1 v).mono (fun _ _ h' => h') fun _ _ h' => h'.kept).bind
    intro _ s₂ h₂
    exact ⟨h₂, ho⟩
  rw [nspSetobj]
  · apply (nspIstable_ends t fun _ => h.kept).bind
    rintro b s ⟨rfl, hb⟩
    cases b with
    | false =>
        rw [if_neg (by simp)]
        have hmine : Zone.mine.Has F t := by
          rcases ht with ht | ht
          · obtain ⟨-, -, v, y, hlook, htype⟩ := h.tables t ht
            exact absurd htype (hb v y hlook)
          · exact ht
        apply ((nspSetvaltype_mine h hmine v.type hb).mono (fun _ _ h' => h') fun _ _ h' => h'.kept).bind
        intro _ s₁ h₁
        exact hstore h₁ hmine
    | true =>
        rw [if_pos ⟨fun heq => absurd h.ready.ret (Nat.not_lt_of_le (heq ▸ hle)), rfl⟩]
        dsimp only
        have hfirst : Ends (fun _ s' => s' = s) (fun _ s' => F.Kept s') ((firstOf t).run s) := by
          rw [firstOf]
          apply getVal_bind_ends fun _ => h.kept
          intro v y _
          apply member_bind_ends fun _ => h.kept
          intro d _
          rfl
        apply hfirst.bind
        rintro f s rfl
        split
        · apply ((firstEntry_mine h hle oname v.type).mono (fun _ _ h' => h') fun _ _ h' => h'.kept).bind
          rintro o s₁ ⟨h₁, ho⟩
          exact hstore h₁ ho
        · apply (nLocateobjSet_ends (z := .mine) h hle (fun hz => by cases hz) v.type).bind
          rintro o s₁ ⟨-, h₁, ho⟩
          exact hstore h₁ (ho rfl)
  · exact hne

/-- An empty name in a table gives the null object. -/
theorem nspSetobj_empty (h : Fenced F s) (ht : t ∈ F.tables) (v : Setting) :
    (nspSetobj t (some []) v).run s = .ok nullObj s := by
  obtain ⟨hmem, hold, w, y, hlook, htype⟩ := h.tables t ht
  have htable : (nspIstable t).run s = .ok true s := by
    rw [nspIstable_run hlook, htype]
    rfl
  rw [nspSetobj, Action.run_bind_ok htable, if_pos]
  · rfl
  · refine ⟨fun heq => ?_, rfl⟩
    exact absurd h.ready.ret (Nat.not_lt_of_le (heq ▸ (h.new t hmem hold).1))

/-! ### The null object -/

/-- A null value that is no table and has no tables behind it. -/
def Flat (y : Val) : Prop := y.type ≠ .table ∧ y.ztable = none

/-- `n_freeval` of the null object, where it is not null. -/
theorem nFreeval_nullObj (h : Fenced F s) (hflat : Flat F.nul) (hnull : F.nul.type ≠ .null) :
    Ends (fun _ s' => ∃ y, Flat y ∧ Fenced { F with nul := y } s') (fun _ _ => True) ((nFreeval nullObj).run s) := by
  have hwrite : Ends (fun _ s' => ∃ y, Flat y ∧ Fenced { F with nul := y } s') (fun _ _ => True)
      ((clearVal (s.objs.next + s.vals.next) nullObj).run s) := by
    obtain ⟨s₁, hrun, h₁⟩ := modVal_nullObj h fun y => { y with type := .null, size := 0, d := .num 0 }
    rw [clearVal, Action.run_bind_ok hrun, Action.run_bind_ok (getVal_run h₁.look_null)]
    dsimp only
    rw [hflat.2]
    exact ⟨{ F.nul with type := .null, size := 0, d := .num 0 }, ⟨by simp, hflat.2⟩, h₁⟩
  rw [nFreeval, Action.run_bind_ok (walkFuel_run s), freeval, Action.run_bind_ok (typeOf_run h.look_null), if_neg hnull]
  dsimp only
  split
  · rw [Action.run_bind_ok (getVal_run h.look_null)]
    apply member_bind_ends fun _ => trivial
    intro b _
    cases b with
    | true => trivial
    | false =>
        rw [if_neg Bool.false_ne_true, if_neg hflat.1]
        exact hwrite
  · rw [if_neg hflat.1]
    exact hwrite

/-- `nsp_setvaltype` of the null object. -/
theorem nspSetvaltype_nullObj (h : Fenced F s) (hflat : Flat F.nul) {type : Ty} (htype : type ≠ .table) :
    Ends (fun _ s' => ∃ y, y.type = type ∧ Flat y ∧ Fenced { F with nul := y } s') (fun _ _ => True)
      ((nspSetvaltype nullObj type).run s) := by
  have hlast : ∀ (y : Val) (s₁ : Store), Flat y → Fenced { F with nul := y } s₁ →
      Ends (fun _ s' => ∃ y, y.type = type ∧ Flat y ∧ Fenced { F with nul := y } s') (fun _ _ => True)
        ((modVal nullObj fun y => { y with type := type }).run s₁) := by
    intro y s₁ hy h₁
    obtain ⟨s₂, hrun, h₂⟩ := modVal_nullObj h₁ fun y => { y with type := type }
    rw [hrun]
    exact ⟨{ y with type := type }, rfl, ⟨htype, hy.2⟩, h₂⟩
  rw [nspSetvaltype]
  apply getObj_bind_ends fun _ => trivial
  intro x hx
  have hval : x.val = some nullVal := by
    have hptr := (Store.ptr_of_look h.look_null).1
    rw [Store.ptr, hx] at hptr
    exact hptr
  rw [hval]
  dsimp only
  rw [Action.run_bind_ok (typeOf_run h.look_null), if_neg htype]
  split
  · rename_i hnull
    rw [if_neg hflat.1]
    apply (nFreeval_nullObj h hflat hnull).bind
    rintro - s₁ ⟨y, hy, h₁⟩
    apply (hlast y s₁ hy h₁).bind
    intro _ s₂ h₂
    exact h₂
  · apply (hlast F.nul s hflat h).bind
    intro _ s₂ h₂
    exact h₂

theorem storeSetting_nullObj (h : Fenced F s) (hflat : Flat F.nul) (v : Setting) :
    Ends (fun _ s' => ∃ y, y.type = F.nul.type ∧ Flat y ∧ Fenced { F with nul := y } s') (fun _ _ => True)
      ((storeSetting nullObj v).run s) := by
  have hwrite : ∀ f : Val → Val, (∀ y, (f y).type = y.type ∧ (f y).ztable = y.ztable) →
      Ends (fun _ s' => ∃ y, y.type = F.nul.type ∧ Flat y ∧ Fenced { F with nul := y } s') (fun _ _ => True)
        ((modVal nullObj f).run s) := by
    intro f hf
    obtain ⟨s₁, hrun, h₁⟩ := modVal_nullObj h f
    rw [hrun]
    refine ⟨_, (hf _).1, ⟨?_, ?_⟩, h₁⟩
    · rw [(hf _).1]
      exact hflat.1
    · rw [(hf _).2]
      exact hflat.2
  have hcat : ∀ str : List Byte, Ends (fun _ s' => ∃ y, y.type = F.nul.type ∧ Flat y ∧ Fenced { F with nul := y } s')
      (fun _ _ => True) ((nspStrcat nullObj str).run s) := by
    intro str
    rw [nspStrcat, Action.run_bind_ok (typeOf_run h.look_null)]
    split
    · split
      · exact ⟨_, rfl, hflat, h⟩
      · rw [Action.run_bind_ok (getVal_run h.look_null)]
        split
        · rw [Action.run_bind_ok (Action.run_pure _ _)]
          exact hwrite _ fun _ => ⟨rfl, rfl⟩
        · apply member_bind_ends fun _ => trivial
          intro old _
          exact hwrite _ fun _ => ⟨rfl, rfl⟩
    · exact ⟨_, rfl, hflat, h⟩
  cases v with
  | null => exact ⟨_, rfl, hflat, h⟩
  | table => exact ⟨_, rfl, hflat, h⟩
  | boolean q => exact hwrite _ fun _ => ⟨rfl, rfl⟩
  | number q => exact hwrite _ fun _ => ⟨rfl, rfl⟩
  | cfunc f => exact hwrite _ fun _ => ⟨rfl, rfl⟩
  | string b => exact hcat b
  | nfunc b => exact hcat b
  | cdata b => exact hcat b

/-- The null object is set as it is, whatever the name. -/
theorem nspSetobj_nullObj (h : Fenced F s) (hflat : Flat F.nul) (oname : Option (List Byte)) {v : Setting}
    (hv : v.type ≠ .table) :
    Ends (fun o s' => o = nullObj ∧ ∃ y, y.type = v.type ∧ Flat y ∧ Fenced { F with nul := y } s') (fun _ _ => True)
      ((nspSetobj nullObj oname v).run s) := by
  have htable : (nspIstable nullObj).run s = .ok false s := by
    rw [nspIstable_run h.look_null, beq_eq_false_iff_ne.mpr hflat.1]
  unfold nspSetobj
  rw [Action.run_bind_ok htable, if_neg (by simp)]
  apply (nspSetvaltype_nullObj h hflat hv).bind
  rintro - s₁ ⟨y, hy, hflat₁, h₁⟩
  apply (storeSetting_nullObj h₁ hflat₁ v).bind
  rintro - s₂ ⟨y', hy', hflat₂, h₂⟩
  exact ⟨rfl, y', hy'.trans hy, hflat₂, h₂⟩

end Set

end NullG.Nsp
