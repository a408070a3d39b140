/-
`nsp_setstr` of a name, and what the slot held before.

`nsp_setvaltype` frees a value, but a null value keeps what is in its union and its size, and so does a table whose type
`n_locateobj` overwrites; `nsp_strcat` then adds to what is there, or returns where the string is empty. The slot reads
back the string where a null value or a table has left nothing (`stores_iff`).
-/

import NullG.Nsp.Freeing

namespace NullG.Nsp

open NullG.Lib

/-! ### What is read back -/

/-- The C string at `d.str`; at the address of an object the bytes of its `prev` stand first. -/
def Data.cstring (s : Store) : Data → Except Fault (List Byte)
  | .table (some f) _ _ =>
      match s.objs.get f with
      | none => .error .dangling
      | some x => if x.prev.isNone then .ok [] else .error .badData
  | d => d.asStr.map fun b => cstr (b.getD [])

/-- The object is a string of these bytes, and `nsp_tostr` returns them. -/
def Reads (s : Store) (o : ObjId) (str : List Byte) : Prop :=
  ∃ v y, s.look o = .ok (v, y) ∧ y.type = .string ∧ y.size = str.length ∧ y.d.cstring s = .ok (cstr str) ∧
    (str ≠ [] → y.d = .str str)

/-! ### The string is stored -/

/-- What is left in a value takes the string as it is. -/
def Takes (s : Store) (y : Val) (str : List Byte) : Prop := y.size = 0 ∧ (str = [] → y.d.cstring s = .ok [])

section Store

variable {s s' : Store} {o : ObjId} {v : ValId} {y : Val} {str : List Byte}

theorem Val.Clear.takes {x : Val} (h : x.Clear) (s : Store) (str : List Byte) : Takes s x str := by
  obtain ⟨-, hsize, hnone⟩ := h
  refine ⟨hsize, fun _ => ?_⟩
  cases hd : x.d with
  | num q =>
      rw [hd] at hnone
      rw [Data.cstring, hnone]
      · rfl
      · nofun
  | str b =>
      rw [hd] at hnone
      cases hnone
  | cfunc f =>
      rw [hd] at hnone
      cases hnone
  | table f i l =>
      cases f with
      | none => rfl
      | some f =>
          rw [hd] at hnone
          cases hnone

/-- `nsp_strcat` to a value with the type of a string. -/
theorem nspStrcat_takes (hlook : s.look o = .ok (v, y)) (htype : y.type = .string) (h : Takes s y str) :
    ∃ s', (nspStrcat o str).run s = .ok () s' ∧ Reads s' o str := by
  rw [nspStrcat, Action.run_bind_ok (typeOf_run hlook), if_pos (.inl htype)]
  cases str with
  | nil => exact ⟨s, rfl, v, y, hlook, htype, h.1, h.2 rfl, fun hne => absurd rfl hne⟩
  | cons c str =>
      rw [if_neg (by simp), Action.run_bind_ok (getVal_run hlook), if_pos h.1, Action.run_bind_ok (Action.run_pure _ _)]
      obtain ⟨hptr, hy⟩ := Store.ptr_of_look hlook
      refine ⟨_, modVal_run hlook, v,
        { y with size := y.size + (c :: str).length, d := .str (List.take y.size [] ++ c :: str) },
        Store.look_of_ptr hptr ?_, htype, ?_, ?_, ?_⟩
      · rw [Cells.get_modify_self, hy, Option.map_some]
      · rw [h.1, Nat.zero_add]
      · rw [List.take_nil, List.nil_append]
        rfl
      · intro _
        rw [List.take_nil, List.nil_append]

/-- Where the string is read back, nothing was left. -/
theorem takes_of_reads (hlook : s.look o = .ok (v, y)) (htype : y.type = .string)
    (hrun : (nspStrcat o str).run s = .ok () s') (h : Reads s' o str) : Takes s y str := by
  obtain ⟨w, z, hlook', -, hsize, htext, -⟩ := h
  rw [nspStrcat, Action.run_bind_ok (typeOf_run hlook), if_pos (.inl htype)] at hrun
  cases str with
  | nil =>
      cases hrun
      rw [hlook] at hlook'
      cases hlook'
      exact ⟨hsize, fun _ => htext⟩
  | cons c str =>
      refine ⟨?_, fun hnil => absurd hnil (List.cons_ne_nil c str)⟩
      rw [if_neg (by simp)] at hrun
      obtain ⟨y₁, -, hrun⟩ := Action.require_bind_run_eq_ok.mp hrun
      have hwrite : ∀ {old : List Byte}, (modVal o fun y => { y with
          size := y.size + (c :: str).length, d := .str (old.take y.size ++ c :: str) }).run s = .ok () s' →
            y.size = 0 := by
        intro old hmod
        obtain ⟨w₁, y₂, hlook₁, hobjs, hvals⟩ := modVal_ok hmod
        rw [hlook] at hlook₁
        cases hlook₁
        obtain ⟨hptr', hz⟩ := Store.ptr_of_look hlook'
        rw [Store.ptr, hobjs] at hptr'
        obtain rfl : v = w := Option.some.inj ((Store.ptr_of_look hlook).1.symm.trans hptr')
        rw [hvals, Cells.get_modify_self, (Store.ptr_of_look hlook).2, Option.map_some] at hz
        rw [← Option.some.inj hz] at hsize
        dsimp only at hsize
        omega
      split at hrun
      · rw [Action.run_bind_ok (Action.run_pure _ _)] at hrun
        exact hwrite hrun
      · obtain ⟨old, -, hrun⟩ := Action.require_bind_run_eq_ok.mp hrun
        exact hwrite hrun

end Store

/-! ### The search -/

/-- A union without the cursor of a table; one of zeros is an empty table. -/
def Data.still : Data → Data
  | .table f _ l => .table f none l
  | .num q => if q = 0 then .table none none none else .num q
  | d => d

/-- A value without the cursor. -/
def Val.still (y : Val) : Val := { y with d := y.d.still }

/-- The same objects, and values that differ in the cursor only. -/
def Still (s s' : Store) : Prop := s'.objs = s.objs ∧ ∀ v, (s'.vals.get v).map Val.still = (s.vals.get v).map Val.still

/-- The law of a search. -/
def searching : Law Fault Store where
  ok := Still
  err _ _ _ := True
  ok_refl _ := ⟨rfl, fun _ => rfl⟩
  err_refl _ _ := trivial
  ok_trans h h' := ⟨h'.1.trans h.1, fun v => (h'.2 v).trans (h.2 v)⟩
  err_trans _ _ := trivial

section Search

variable {s s' : Store} {t o : ObjId} {k str : List Byte} {v : ValId} {y : Val}

theorem Still.look (h : Still s s') (hlook : s.look o = .ok (v, y)) :
    ∃ y', s'.look o = .ok (v, y') ∧ y'.still = y.still := by
  obtain ⟨hptr, hy⟩ := Store.ptr_of_look hlook
  have hstill := h.2 v
  rw [hy, Option.map_some] at hstill
  obtain ⟨y', hy', heq⟩ := Option.map_eq_some_iff.mp hstill
  exact ⟨y', Store.look_of_ptr (by rw [Store.ptr, h.1]; exact hptr) hy', heq⟩

/-- The fields that the cursor does not touch. -/
theorem Val.of_still {y' : Val} (h : y'.still = y.still) :
    y'.type = y.type ∧ y'.size = y.size ∧ y'.ztable = y.ztable ∧ y'.autosort = y.autosort := by
  simp only [Val.still, Val.mk.injEq] at h
  exact ⟨h.1, h.2.2.2.2.2.1, h.2.2.2.2.2.2.1, h.2.1⟩

theorem Data.cstring_still (s : Store) (d : Data) : d.still.cstring s = d.cstring s := by
  cases d with
  | num q =>
      by_cases hq : q = 0
      · subst hq
        rfl
      · rw [Data.still, if_neg hq]
  | str b => rfl
  | cfunc f => rfl
  | table f i l => cases f <;> rfl

theorem Data.cstring_congr (hobjs : s'.objs = s.objs) (d : Data) : d.cstring s' = d.cstring s := by
  unfold Data.cstring
  rw [hobjs]

theorem Val.cstring_of_still {y' : Val} (h : y'.still = y.still) (hobjs : s'.objs = s.objs) :
    y'.d.cstring s' = y.d.cstring s := by
  have hd : y'.d.still = y.d.still := congrArg Val.d h
  rw [← Data.cstring_still s y.d, ← hd, Data.cstring_still, Data.cstring_congr hobjs]

theorem takes_congr {d : Data} {size : Nat} (hobjs : s'.objs = s.objs) {z z' : Val} (hz : z.size = size ∧ z.d = d)
    (hz' : z'.size = size ∧ z'.d = d) : Takes s' z' str ↔ Takes s z str := by
  rw [Takes, Takes, hz.1, hz.2, hz'.1, hz'.2, Data.cstring_congr hobjs]

theorem Takes.of_still {y' : Val} (h : y'.still = y.still) (hobjs : s'.objs = s.objs) :
    Takes s' y' str ↔ Takes s y str := by
  rw [Takes, Takes, (Val.of_still h).2.1, Val.cstring_of_still h hobjs]

theorem setCursor_still (t o : ObjId) : searching.Obeys (setCursor t o).run := by
  intro s
  cases hrun : (setCursor t o).run s with
  | error e s' => trivial
  | ok u s' =>
      have h := hrun
      rw [setCursor, modTable] at h
      obtain ⟨y, hy, h⟩ := Action.require_bind_run_eq_ok.mp h
      obtain ⟨d, hd, h⟩ := Action.require_bind_run_eq_ok.mp h
      obtain ⟨v, x, hlook, hobjs, hvals⟩ := modVal_ok h
      rw [hlook] at hy
      obtain rfl : x = y := Except.ok.inj hy
      refine ⟨hobjs, fun w => ?_⟩
      rw [hvals]
      by_cases hw : w = v
      · subst hw
        rw [Cells.get_modify_self, (Store.ptr_of_look hlook).2, Option.map_some, Option.map_some, Option.map_some]
        refine congrArg some (congrArg (fun d => { x with d := d }) ?_)
        show Data.table d.1 none d.2.2 = x.d.still
        cases hx : x.d with
        | table f i l =>
            rw [hx] at hd
            rw [← Except.ok.inj hd]
            rfl
        | num q =>
            rw [hx, Data.asTable] at hd
            split at hd
            · rename_i hq
              rw [← Except.ok.inj hd, Data.still, if_pos hq]
            · cases hd
        | str b =>
            rw [hx] at hd
            cases hd
        | cfunc f =>
            rw [hx] at hd
            cases hd
      · rw [Cells.get_modify_of_ne _ hw]

/-- The forward loop stops at an entry of the name, or before one above it. -/
theorem locateForward_stop {b : Bool} {cmpTo : Obj → Int} {n : Nat} {c c' : Int} {p p' q : Option ObjId}
    (h : (locateForward t b cmpTo n c p p').run s = .ok (c', some o, q) s') : c' = 0 ∨ (c' > 0 ∧ b = true) := by
  induction n generalizing c p p' s with
  | zero => cases h
  | succ n ih =>
      cases p' with
      | none => cases h
      | some p' =>
          rw [locateForward] at h
          obtain ⟨x, -, h⟩ := Action.require_bind_run_eq_ok.mp h
          dsimp only at h
          split at h
          · rename_i hstop
            cases h
            exact hstop
          · obtain ⟨_, s₂, -, h⟩ := Action.bind_run_eq_ok.mp h
            exact ih h

/-- A search that stops at an entry, not before it, finds it when it is to look up, too. -/
theorem searchFrom_hit {b : Bool} {n : Nat} {start q : Option ObjId} {cmp c : Int}
    (hc : ¬ (c > 0 ∧ b = true)) (h : (searchFrom t k b true n start cmp).run s = .ok (some (c, some o, q)) s') :
    (searchFrom t k b false n start cmp).run s = .ok (some (c, some o, q)) s' := by
  rw [searchFrom] at h ⊢
  by_cases hneg : cmp < 0
  · rw [if_pos hneg] at h ⊢
    obtain ⟨r, s₁, hloop, h⟩ := Action.bind_run_eq_ok.mp h
    rw [Action.run_bind_ok hloop]
    obtain ⟨c', p, q'⟩ := r
    dsimp only at h ⊢
    rw [if_neg (by simp)] at h
    cases h
    have hzero := (locateForward_stop hloop).resolve_right hc
    rw [if_neg (by simp [hzero])]
    rfl
  · rw [if_neg hneg] at h ⊢
    by_cases hpos : b = true ∧ cmp > 0
    · rw [if_pos hpos] at h ⊢
      obtain ⟨r, s₁, hloop, h⟩ := Action.bind_run_eq_ok.mp h
      rw [Action.run_bind_ok hloop]
      obtain ⟨c', p, q'⟩ := r
      dsimp only at h ⊢
      rw [if_neg (by simp)] at h
      by_cases hlow : c' < 0
      · rw [if_pos hlow] at h
        cases p with
        | none => cases h
        | some p =>
            obtain ⟨x, -, h⟩ := Action.require_bind_run_eq_ok.mp h
            injection h with hvalue
            obtain rfl : 1 = c := congrArg Prod.fst (Option.some.inj hvalue)
            exact absurd ⟨Int.one_pos, hpos.1⟩ hc
      · rw [if_neg hlow] at h
        by_cases hhigh : c' > 0
        · rw [if_pos hhigh] at h
          cases h
          exact absurd ⟨hhigh, hpos.1⟩ hc
        · rw [if_neg hhigh] at h
          cases h
          rw [if_neg (by simp; omega), if_neg hlow, if_neg hhigh]
          rfl
    · rw [if_neg hpos] at h ⊢
      exact h

/-- The search is a reading of the table but for the cursor. -/
theorem locateSearch_still (t : ObjId) (k : List Byte) (setobj : Bool) :
    searching.Obeys (locateSearch t k setobj).run := by
  have hforward : ∀ (b : Bool) (cmpTo : Obj → Int) (n : Nat) (c : Int) (p q : Option ObjId),
      searching.Obeys (locateForward t b cmpTo n c p q).run := by
    intro b cmpTo n
    induction n with
    | zero => exact fun _ _ _ => obeys_fail _
    | succ n ih =>
        intro c p q
        cases q with
        | none => exact obeys_pure _
        | some q =>
            refine obeys_bind (obeys_require _) fun x => obeys_ite (obeys_pure _) ?_
            exact obeys_bind (setCursor_still t q) fun _ => ih _ _ _
  have hbackward : ∀ (cmpTo : Obj → Int) (n : Nat) (c : Int) (p q : Option ObjId),
      searching.Obeys (locateBackward t cmpTo n c p q).run := by
    intro cmpTo n
    induction n with
    | zero => exact fun _ _ _ => obeys_fail _
    | succ n ih =>
        intro c p q
        cases q with
        | none => exact obeys_pure _
        | some q =>
            refine obeys_bind (obeys_require _) fun x => obeys_ite (obeys_pure _) ?_
            exact obeys_bind (setCursor_still t q) fun _ => ih _ _ _
  have hfrom : ∀ (b : Bool) (n : Nat) (start : Option ObjId) (cmp : Int),
      searching.Obeys (searchFrom t k b setobj n start cmp).run := by
    intro b n start cmp
    unfold searchFrom
    refine obeys_ite (obeys_bind (hforward _ _ _ _ _ _) fun r => obeys_ite (obeys_pure _) (obeys_pure _)) ?_
    refine obeys_ite (obeys_bind (hbackward _ _ _ _ _) fun r => obeys_ite (obeys_pure _) ?_) (obeys_pure _)
    obtain ⟨c, p, q⟩ := r
    refine obeys_ite ?_ (obeys_ite (obeys_pure _) (obeys_pure _))
    cases p with
    | none => exact obeys_fail _
    | some p => exact obeys_bind (obeys_require _) fun _ => obeys_pure _
  unfold locateSearch
  refine obeys_bind (obeys_require _) fun y => obeys_bind (obeys_require _) fun links => ?_
  obtain ⟨f, i, l⟩ := links
  refine obeys_bind (fun s => searching.ok_refl s) fun n => ?_
  refine obeys_ite ?_ (obeys_bind (obeys_pure _) fun cmp => hfrom y.autosort n _ cmp)
  cases (if y.autosort = true then i <|> f else f) with
  | none => exact obeys_bind (obeys_fail _) fun cmp => hfrom y.autosort n _ cmp
  | some first =>
      exact obeys_bind (obeys_require _) fun x => obeys_bind (obeys_pure _) fun cmp => hfrom y.autosort n _ cmp

/-- An entry that `n_locateobj` sets in place is the one that it looks up. -/
theorem locateSearch_hit {c : Int} {q : Option ObjId} (hlook : s.look t = .ok (v, y)) 
    (hc : ¬ (c > 0 ∧ y.autosort = true)) (h : (locateSearch t k true).run s = .ok (some (c, some o, q)) s') :
    (locateSearch t k false).run s = .ok (some (c, some o, q)) s' := by
  rw [locateSearch] at h ⊢
  rw [Action.run_bind_ok (getVal_run hlook)] at h ⊢
  obtain ⟨⟨f, i, l⟩, hd, h⟩ := Action.require_bind_run_eq_ok.mp h
  rw [hd, Action.run_bind_ok (member_run _ s)]
  dsimp only at h ⊢
  rw [Action.run_bind_ok (walkFuel_run s)] at h ⊢
  cases hauto : y.autosort with
  | false =>
      rw [hauto] at h hc
      rw [if_neg Bool.false_ne_true, Action.run_bind_ok (Action.run_pure _ _)] at h ⊢
      exact searchFrom_hit hc h
  | true =>
      rw [hauto] at h hc
      rw [if_pos rfl, if_pos rfl] at h ⊢
      cases hstart : (i <|> f) with
      | none =>
          rw [hstart] at h
          cases h
      | some first =>
          rw [hstart] at h
          dsimp only at h ⊢
          obtain ⟨x, hx, h⟩ := Action.require_bind_run_eq_ok.mp h
          have hobj : (getObj first).run s = .ok x s := Action.run_require_ok hx
          rw [Action.run_bind_ok hobj, Action.run_bind_ok (Action.run_pure _ _)]
          exact searchFrom_hit hc h

end Search

/-! ### The type of a slot -/

/-- How `n_locateobj` makes a string of an entry. -/
def retype (o : ObjId) : H Unit := do
  if (← typeOf o) = .table then modVal o fun y => { y with type := .string }
  else nspSetvaltype o .string

section Retype

variable {s s' : Store} {o : ObjId} {v : ValId} {y : Val}

theorem modVal_look {g : Val → Val} (hlook : s.look o = .ok (v, y)) :
    ∃ s', (modVal o g).run s = .ok () s' ∧ s'.objs = s.objs ∧ s'.look o = .ok (v, g y) := by
  obtain ⟨hptr, hy⟩ := Store.ptr_of_look hlook
  refine ⟨_, modVal_run hlook, rfl, Store.look_of_ptr hptr ?_⟩
  rw [Cells.get_modify_self, hy, Option.map_some]

/-- A table or a null value only changes its type. -/
theorem retype_kept (hlook : s.look o = .ok (v, y)) (h : y.type = .null ∨ y.type = .table) :
    ∃ s', (retype o).run s = .ok () s' ∧ s'.objs = s.objs ∧ s'.look o = .ok (v, { y with type := .string }) := by
  obtain ⟨s', hrun, hobjs, hlook'⟩ := modVal_look (g := fun y => { y with type := .string }) hlook
  refine ⟨s', ?_, hobjs, hlook'⟩
  rw [retype, Action.run_bind_ok (typeOf_run hlook)]
  rcases h with hnull | htable
  · obtain ⟨x, hx, hxv⟩ := Option.bind_eq_some_iff.mp (Store.ptr_of_look hlook).1
    rw [if_neg (by rw [hnull]; decide), nspSetvaltype, Action.run_bind_ok (getObj_run hx), hxv]
    dsimp only
    rw [Action.run_bind_ok (typeOf_run hlook), if_neg (not_not.mpr hnull), Action.run_bind_ok hrun]
    rfl
  · rw [if_pos htable]
    exact hrun

/-- Another value is freed first. -/
theorem retype_run (hlook : s.look o = .ok (v, y)) (hnull : y.type ≠ .null) (htable : y.type ≠ .table) :
    (retype o).run s = (do
      nFreeval o
      modVal o fun y => { y with type := .string }
      if Ty.string = Ty.table then modVal o fun y => { y with autosort := true } : H Unit).run s := by
  obtain ⟨x, hx, hxv⟩ := Option.bind_eq_some_iff.mp (Store.ptr_of_look hlook).1
  rw [retype, Action.run_bind_ok (typeOf_run hlook), if_neg htable, nspSetvaltype, Action.run_bind_ok (getObj_run hx),
    hxv]
  dsimp only
  rw [Action.run_bind_ok (typeOf_run hlook), if_pos hnull, if_neg htable]

/-- Nothing is left in a value that was freed. -/
theorem retype_freed (hlook : s.look o = .ok (v, y)) (hnull : y.type ≠ .null) (htable : y.type ≠ .table)
    (h : (retype o).run s = .ok () s') :
    ∃ w z, s'.look o = .ok (w, z) ∧ z.type = .string ∧ ∀ str, Takes s' z str := by
  rw [retype_run hlook hnull htable] at h
  obtain ⟨_, s₁, hfree, h⟩ := Action.bind_run_eq_ok.mp h
  obtain ⟨_, s₂, hmod, h⟩ := Action.bind_run_eq_ok.mp h
  rw [if_neg (by decide)] at h
  cases h
  obtain ⟨w, x, hlook₁, -, -⟩ := modVal_ok hmod
  obtain ⟨s₃, hrun, -, hlook'⟩ := modVal_look (g := fun y => { y with type := .string }) hlook₁
  rw [hmod] at hrun
  cases hrun
  have hclear := nFreeval_clear hfree hlook hnull hlook₁
  exact ⟨w, { x with type := .string }, hlook', rfl, hclear.takes _⟩

/-- A number, a string or a function that keeps nothing else is freed. -/
theorem retype_returns (hlook : s.look o = .ok (v, y)) (hnull : y.type ≠ .null) (htable : y.type ≠ .table)
    (hcdata : y.type ≠ .cdata) (hz : y.ztable = none) : ∃ s', (retype o).run s = .ok () s' := by
  obtain ⟨s₁, hclear, -, hlook₁⟩ := modVal_look (g := fun y => { y with type := .null, size := 0, d := .num 0 }) hlook
  obtain ⟨s₂, hmod, -, -⟩ := modVal_look (g := fun y => { y with type := .string }) hlook₁
  have hfree : (nFreeval o).run s = .ok () s₁ := by
    rw [nFreeval, Action.run_bind_ok (walkFuel_run s), freeval, Action.run_bind_ok (typeOf_run hlook), if_neg hnull,
      if_neg hcdata, if_neg htable]
    dsimp only
    rw [Action.run_bind_ok hclear, Action.run_bind_ok (getVal_run hlook₁)]
    dsimp only
    rw [hz]
    rfl
  refine ⟨s₂, ?_⟩
  rw [retype_run hlook hnull htable, Action.run_bind_ok hfree, Action.run_bind_ok hmod]
  rfl

end Retype

/-! ### A new slot -/

/-- The law of what changes links, and values of the table `t` only: pointers stay, and so does another value. -/
def linking (t : ObjId) (v : ValId) : Law Fault Store where
  ok s s' := (∀ o, s'.ptr o = s.ptr o) ∧ (s.ptr t ≠ some v → s'.vals.get v = s.vals.get v)
  err _ _ _ := True
  ok_refl _ := ⟨fun _ => rfl, fun _ => rfl⟩
  err_refl _ _ := trivial
  ok_trans h h' := ⟨fun o => (h'.1 o).trans (h.1 o), fun ht => (h'.2 (by rwa [h.1])).trans (h.2 ht)⟩
  err_trans _ _ := trivial

section New

variable {s s' : Store} {t o : ObjId} {v vt : ValId} {y : Val} {k : List Byte}

theorem modObj_ok {g : Obj → Obj} {hg} (h : (modObj o g hg).run s = .ok () s') :
    (∀ p, s'.ptr p = s.ptr p) ∧ s'.vals = s.vals := by
  cases hx : s.objs.get o with
  | none =>
      simp only [modObj, hx] at h
      cases h
  | some x =>
      rw [modObj_run hx] at h
      cases h
      refine ⟨fun p => ?_, rfl⟩
      by_cases hp : p = o
      · subst hp
        rw [Store.ptr, Store.ptr, Cells.get_modify_self, hx]
        exact hg x
      · rw [Store.ptr, Store.ptr, Cells.get_modify_of_ne _ hp]

theorem linking_modObj (g : Obj → Obj) (hg : ∀ x, (g x).val = x.val) : (linking t v).Obeys (modObj o g hg).run := by
  intro s
  cases hrun : (modObj o g hg).run s with
  | error e s' => trivial
  | ok u s' =>
      obtain ⟨hptr, hvals⟩ := modObj_ok hrun
      exact ⟨hptr, fun _ => by rw [hvals]⟩

theorem linking_setNext (p : Option ObjId) : (linking t v).Obeys (setNext o p).run :=
  linking_modObj (fun x => { x with next := p }) fun _ => rfl

theorem linking_setPrev (p : Option ObjId) : (linking t v).Obeys (setPrev o p).run :=
  linking_modObj (fun x => { x with prev := p }) fun _ => rfl

theorem linking_modTable (g) : (linking t v).Obeys (modTable t g).run := by
  refine obeys_bind (obeys_require _) fun y => obeys_bind (obeys_require _) fun d => ?_
  intro s
  cases hlook : s.look t with
  | error e =>
      simp only [modVal, hlook]
      trivial
  | ok r =>
      simp only [modVal, hlook]
      refine ⟨fun _ => rfl, fun ht => Cells.get_modify_of_ne _ ?_⟩
      rintro rfl
      exact ht (Store.ptr_of_look hlook).1

/-- What only links leaves the object of another value as it is. -/
theorem look_linked {α : Type} {x : H α} {a : α} (hx : (linking t v).Obeys x.run) (hrun : x.run s = .ok a s')
    (hlook : s.look o = .ok (v, y)) (ht : s.ptr t ≠ some v) : s'.look o = .ok (v, y) := by
  obtain ⟨hptr, hvals⟩ := (hx s).of_ok hrun
  obtain ⟨hv, hy⟩ := Store.ptr_of_look hlook
  exact Store.look_of_ptr ((hptr o).trans hv) ((hvals ht).trans hy)

/-- A new entry, and what links it in. -/
theorem newEntry_linked {p n : Option ObjId} {f : ObjId → H ObjId} (hlook : s.look t = .ok (vt, y))
    (hf : ∀ c v, (linking t v).Obeys (f c).run) (hc : ∀ c s a s', (f c).run s = .ok a s' → a = c)
    (h : (newEntry k .string p n >>= f).run s = .ok o s') : ∃ w, s'.look o = .ok (w, { type := .string }) := by
  obtain ⟨c, s₁, hnew, h⟩ := Action.bind_run_eq_ok.mp h
  obtain ⟨s₂, hrun, hobj, hobjs, hvals⟩ := newEntry_run s k .string p n
  rw [hrun] at hnew
  cases hnew
  obtain rfl := hc _ _ _ _ h
  have hlook₁ : s₁.look s.objs.next = .ok (s.vals.next, { type := .string }) := by
    refine Store.look_eq hobj rfl ?_
    rw [hvals, Cells.get_alloc_self]
  refine ⟨s.vals.next, look_linked (hf _ s.vals.next) h hlook₁ ?_⟩
  have hptr := (Store.ptr_of_look (look_newEntry hlook hobjs hvals)).1
  rw [hptr]
  intro heq
  exact Cells.ne_next (Store.ptr_of_look hlook).2 (Option.some.inj heq)

theorem locateSet_new {c : Int} {p q : Option ObjId} (hlook : s.look t = .ok (vt, y))
    (hnew : (c > 0 ∧ y.autosort = true) ∨ p = none) (h : (locateSet t k .string c p q).run s = .ok o s') :
    ∃ w, s'.look o = .ok (w, { type := .string }) := by
  unfold locateSet at h
  rw [Action.run_bind_ok (getVal_run hlook)] at h
  by_cases hbefore : c > 0 ∧ y.autosort = true
  · rw [if_pos hbefore] at h
    cases p with
    | none => cases h
    | some b =>
        obtain ⟨x, hx, h⟩ := Action.require_bind_run_eq_ok.mp h
        have hlast : ∀ c v, (linking t v).Obeys (do
            setPrev b (some c)
            return c : H ObjId).run :=
          fun c v => obeys_bind (linking_setPrev _) fun _ => obeys_pure _
        refine newEntry_linked hlook (fun c v => ?_) (fun c s a s' hrun => ?_) h
        · refine obeys_bind (obeys_require _) fun links => ?_
          refine obeys_ite (obeys_bind (linking_modTable _) fun _ => ?_) ?_
          all_goals
            split
            · exact obeys_bind (linking_setNext _) fun _ => hlast c v
            · exact hlast c v
        · obtain ⟨links, -, hrun⟩ := Action.require_bind_run_eq_ok.mp hrun
          have hend : ∀ {s}, (do
              setPrev b (some c)
              return c : H ObjId).run s = .ok a s' → a = c := by
            intro s hrun
            obtain ⟨_, _, -, hrun⟩ := Action.bind_run_eq_ok.mp hrun
            cases hrun
            rfl
          obtain ⟨f, i, l⟩ := links
          dsimp only at hrun
          split at hrun
          · obtain ⟨_, _, -, hrun⟩ := Action.bind_run_eq_ok.mp hrun
            split at hrun
            · obtain ⟨_, _, -, hrun⟩ := Action.bind_run_eq_ok.mp hrun
              exact hend hrun
            · exact hend hrun
          · split at hrun
            · obtain ⟨_, _, -, hrun⟩ := Action.bind_run_eq_ok.mp hrun
              exact hend hrun
            · exact hend hrun
  · obtain rfl := hnew.resolve_left hbefore
    rw [if_neg hbefore] at h
    refine newEntry_linked hlook (fun c v => ?_) (fun c s a s' hrun => ?_) h
    · have hlast : (linking t v).Obeys (do
          modTable t fun x => (x.1, x.2.1, some c)
          return c : H ObjId).run :=
        obeys_bind (linking_modTable _) fun _ => obeys_pure _
      cases q with
      | none => exact hlast
      | some q => exact obeys_bind (linking_setNext _) fun _ => hlast
    · cases q with
      | none =>
          obtain ⟨_, _, -, hrun⟩ := Action.bind_run_eq_ok.mp hrun
          cases hrun
          rfl
      | some q =>
          obtain ⟨_, _, -, hrun⟩ := Action.bind_run_eq_ok.mp hrun
          obtain ⟨_, _, -, hrun⟩ := Action.bind_run_eq_ok.mp hrun
          cases hrun
          rfl

/-- The first entry of a table. -/
theorem firstEntry_look (h : (firstEntry t k .string).run s = .ok o s') :
    ∃ w z, s'.look o = .ok (w, z) ∧ z.content = blank .string := by
  rw [firstEntry] at h
  obtain ⟨c, s₁, -, h⟩ := Action.bind_run_eq_ok.mp h
  obtain ⟨_, s₂, -, h⟩ := Action.bind_run_eq_ok.mp h
  obtain ⟨_, s₃, hval, h⟩ := Action.bind_run_eq_ok.mp h
  obtain ⟨_, s₄, hname, h⟩ := Action.bind_run_eq_ok.mp h
  obtain ⟨yt, -, h⟩ := Action.require_bind_run_eq_ok.mp h
  obtain ⟨_, s₅, hmod, h⟩ := Action.bind_run_eq_ok.mp h
  cases h
  have hlook₃ : s₃.look o = .ok (s₂.vals.next, { type := .string }) := by
    cases hx : s₂.objs.get o with
    | none =>
        simp only [newValFor, hx] at hval
        cases hval
    | some x =>
        simp only [newValFor, hx] at hval
        cases hval
        refine Store.look_eq (x := { x with val := some s₂.vals.next }) ?_ rfl (Cells.get_alloc_self _)
        rw [Cells.get_modify_self, hx, Option.map_some]
  obtain ⟨hptr, hvals⟩ := modObj_ok hname
  obtain ⟨hv, hy⟩ := Store.ptr_of_look hlook₃
  have hlook₄ : s₄.look o = .ok (s₂.vals.next, { type := .string }) :=
    Store.look_of_ptr ((hptr o).trans hv) (by rw [hvals, hy])
  obtain ⟨s₆, hrun, -, hlook⟩ := modVal_look (g := fun x => { x with autosort := x.autosort || yt.autosort }) hlook₄
  rw [hmod] at hrun
  cases hrun
  exact ⟨_, _, hlook, rfl⟩

end New

/-! ### `nsp_setstr` -/

/-- The name is bound in the table to the object `o` with the value `y`. -/
def Slot (s : Store) (t : ObjId) (k : List Byte) (o : ObjId) (y : Val) : Prop :=
  (∃ s₁, (nLocateobjGet t k).run s = .ok (some o) s₁) ∧ ∃ v, s.look o = .ok (v, y)

/-- A value whose type is only overwritten. -/
def Val.InPlace (y : Val) : Prop := y.type = .null ∨ y.type = .table

/-- `nsp_setstr` leaves the string in the slot that there was, or in a new one. It returns where the value of the slot
is one of the interpreter's own that keeps nothing beside it. -/
structure StoresStr (s : Store) (t : ObjId) (k str : List Byte) : Prop where
  returns : ∀ o y, Slot s t k o y → y.InPlace ∨ (y.type ≠ .cdata ∧ y.ztable = none) →
    ∃ o' s', (nspSetobj t (some k) (.string str)).run s = .ok o' s'
  reads : ∀ o' s', (nspSetobj t (some k) (.string str)).run s = .ok o' s' →
    Reads s' o' str ∧ ∀ o y, Slot s t k o y → o' = o

section StoresStr

variable {s s' : Store} {t o : ObjId} {k str : List Byte} {v vt : ValId} {y yt : Val}

/-- An entry that is set in place. -/
theorem locateSet_retype {c : Int} {q : Option ObjId} {o' : ObjId} (hlook : s.look t = .ok (vt, yt))
    (hc : ¬ (c > 0 ∧ yt.autosort = true)) :
    (locateSet t k .string c (some o) q).run s = .ok o' s' ↔ o' = o ∧ (retype o).run s = .ok () s' := by
  unfold locateSet retype
  rw [Action.run_bind_ok (getVal_run hlook), if_neg hc]
  dsimp only
  have hreturn : ∀ x : H Unit, (do
      x
      return o : H ObjId).run s = .ok o' s' ↔ o' = o ∧ x.run s = .ok () s' := by
    intro x
    rw [Action.bind_run_eq_ok]
    constructor
    · rintro ⟨_, s₁, hx, h⟩
      cases h
      exact ⟨rfl, hx⟩
    · rintro ⟨rfl, hx⟩
      exact ⟨(), s', hx, rfl⟩
  unfold typeOf
  rw [Action.require_bind_run_eq_ok, Action.require_bind_run_eq_ok]
  constructor
  · rintro ⟨ty, hty, h⟩
    split at h
    · obtain ⟨ho, hrun⟩ := (hreturn _).mp h
      exact ⟨ho, ty, hty, by rwa [if_pos ‹_›]⟩
    · obtain ⟨ho, hrun⟩ := (hreturn _).mp h
      exact ⟨ho, ty, hty, by rwa [if_neg ‹_›]⟩
  · rintro ⟨ho, ty, hty, hrun⟩
    refine ⟨ty, hty, ?_⟩
    split at hrun
    · rw [if_pos ‹_›]
      exact (hreturn _).mpr ⟨ho, hrun⟩
    · rw [if_neg ‹_›]
      exact (hreturn _).mpr ⟨ho, hrun⟩

/-- An entry without a value has a new one. -/
theorem retype_none {x : Obj} (hx : s.objs.get o = some x) (hv : x.val = none) :
    ∃ s' w, (retype o).run s = .ok () s' ∧ s'.look o = .ok (w, { type := .string }) := by
  have htype : (typeOf o).run s = .ok .null s := Action.run_require_ok (by rw [hx]; simp only [hv])
  obtain ⟨s', hnew, hobjs, hvals⟩ := newValFor_step (y := { type := .string }) hx
  refine ⟨s', s.vals.next, ?_, Store.look_eq (x := { x with val := some s.vals.next }) ?_ rfl ?_⟩
  · rw [retype, Action.run_bind_ok htype, if_neg (by decide), nspSetvaltype, Action.run_bind_ok (getObj_run hx), hv]
    dsimp only
    rw [Action.run_bind_ok hnew]
    rfl
  · rw [hobjs, Cells.get_modify_self, hx, Option.map_some]
  · rw [hvals, Cells.get_alloc_self]

/-- A slot is where the search of `nsp_setobj` stops. -/
theorem Slot.search (h : Slot s t k o y) : (∃ f, (firstOf t).run s = .ok (some f) s) ∧
    ∃ q s₁, (locateSearch t k true).run s = .ok (some (0, some o, q)) s₁ ∧ Still s s₁ := by
  obtain ⟨⟨s₁, hget⟩, -⟩ := h
  obtain ⟨hfirst, c, q, hsearch⟩ := nLocateobjGet_some hget
  obtain ⟨hzero, hset, -⟩ := locateSearch_set hsearch
  obtain rfl : c = 0 := hzero
  exact ⟨hfirst, q, s₁, hset, (locateSearch_still t k true s).of_ok hset⟩

theorem look_of_istable (h : (nspIstable t).run s = .ok true s) :
    ∃ vt yt, s.look t = .ok (vt, yt) ∧ yt.type = .table := by
  rw [nspIstable, typeOf] at h
  obtain ⟨ty, hty, h⟩ := Action.require_bind_run_eq_ok.mp h
  have htable : ty = .table := by
    injection h with hvalue
    exact beq_iff_eq.mp hvalue
  subst htable
  cases hx : s.objs.get t with
  | none =>
      rw [hx] at hty
      cases hty
  | some x =>
      cases hv : x.val with
      | none =>
          simp only [hx, hv] at hty
          cases hty
      | some v =>
          cases hy : s.vals.get v with
          | none =>
              simp only [hx, hv, hy] at hty
              cases hty
          | some y =>
              simp only [hx, hv, hy] at hty
              exact ⟨v, y, Store.look_eq hx hv hy, Except.ok.inj hty⟩

/-- The parts of `nsp_setstr`. -/
theorem nspSetobj_parts (htable : (nspIstable t).run s = .ok true s) (ht : t ≠ retObj) (hk : k ≠ []) {o' : ObjId} :
    (nspSetobj t (some k) (.string str)).run s = .ok o' s' ↔ ∃ f s₂, (firstOf t).run s = .ok f s ∧
      (if f.isNone then firstEntry t k .string else nLocateobjSet t k .string).run s = .ok o' s₂ ∧
      (nspStrcat o' str).run s₂ = .ok () s' := by
  obtain ⟨c, k, rfl⟩ := List.exists_cons_of_ne_nil hk
  have hrun : (nspSetobj t (some (c :: k)) (.string str)).run s = (do
      let f ← firstOf t
      let cobj ← if f.isNone then firstEntry t (c :: k) .string else nLocateobjSet t (c :: k) .string
      nspStrcat cobj str
      return cobj : H ObjId).run s := by
    rw [nspSetobj, Action.run_bind_ok htable, if_pos ⟨ht, rfl⟩]
    · rfl
    · intro hnil
      cases hnil
  rw [hrun, Action.bind_run_eq_ok]
  constructor
  · rintro ⟨f, s₁, hfirst, h⟩
    obtain rfl : s₁ = s := by
      have hread := hfirst
      obtain ⟨y, -, hread⟩ := Action.require_bind_run_eq_ok.mp hread
      obtain ⟨links, -, hread⟩ := Action.require_bind_run_eq_ok.mp hread
      cases hread
      rfl
    refine ⟨f, ?_⟩
    split at h
    · obtain ⟨o, s₂, hset, h⟩ := Action.bind_run_eq_ok.mp h
      obtain ⟨_, s₃, hcat, h⟩ := Action.bind_run_eq_ok.mp h
      cases h
      exact ⟨s₂, hfirst, by rwa [if_pos ‹_›], hcat⟩
    · obtain ⟨o, s₂, hset, h⟩ := Action.bind_run_eq_ok.mp h
      obtain ⟨_, s₃, hcat, h⟩ := Action.bind_run_eq_ok.mp h
      cases h
      exact ⟨s₂, hfirst, by rwa [if_neg ‹_›], hcat⟩
  · rintro ⟨f, s₂, hfirst, hset, hcat⟩
    refine ⟨f, s, hfirst, ?_⟩
    split at hset
    · rw [if_pos ‹_›, Action.run_bind_ok hset, Action.run_bind_ok hcat]
      rfl
    · rw [if_neg ‹_›, Action.run_bind_ok hset, Action.run_bind_ok hcat]
      rfl

/-- The place where `n_locateobj` sets a slot. -/
theorem Slot.locate (h : Slot s t k o y) (htable : s.look t = .ok (vt, yt)) :
    ∃ s₁, Still s s₁ ∧ ∀ o' s', (nLocateobjSet t k .string).run s = .ok o' s' ↔
      o' = o ∧ (retype o).run s₁ = .ok () s' := by
  obtain ⟨-, q, s₁, hsearch, hstill⟩ := h.search
  obtain ⟨y₁, hlook₁, -⟩ := hstill.look htable
  refine ⟨s₁, hstill, fun o' s' => ?_⟩
  rw [nLocateobjSet, Action.run_bind_ok hsearch]
  exact locateSet_retype hlook₁ (by simp)

/-- What is left in an entry that is made a string: nothing, or what was there where the type was overwritten. -/
theorem retype_left {s₁ : Store} (hstill : Still s s₁) (hrun : (retype o).run s₁ = .ok () s') :
    ∃ w z, s'.look o = .ok (w, z) ∧ z.type = .string ∧
      ((∀ str, Takes s' z str) ∨ ∃ v y, s.look o = .ok (v, y) ∧ y.InPlace ∧ ∀ str, Takes s' z str ↔ Takes s y str) := by
  have htypeOf : ∃ ty, (typeOf o).run s₁ = .ok ty s₁ := by
    have hread := hrun
    rw [retype, typeOf] at hread
    obtain ⟨ty, hty, -⟩ := Action.require_bind_run_eq_ok.mp hread
    exact ⟨ty, Action.run_require_ok hty⟩
  obtain ⟨ty, hty⟩ := htypeOf
  cases hx : s.objs.get o with
  | none =>
      simp only [typeOf, Action.require, hstill.1, hx] at hty
      cases hty
  | some x =>
      cases hv : x.val with
      | none =>
          obtain ⟨s₂, w, hrun', hlook⟩ := retype_none (by rw [hstill.1, hx]) hv
          rw [hrun] at hrun'
          cases hrun'
          exact ⟨w, _, hlook, rfl, .inl fun _ => ⟨rfl, fun _ => rfl⟩⟩
      | some v =>
          have hsame := hstill.2 v
          cases hy : s.vals.get v with
          | none =>
              rw [hy, Option.map_none, Option.map_eq_none_iff] at hsame
              simp only [typeOf, Action.require, hstill.1, hx, hv, hsame] at hty
              cases hty
          | some y =>
              have hlook : s.look o = .ok (v, y) := Store.look_eq hx hv hy
              obtain ⟨z, hz, heq⟩ := hstill.look hlook
              have htype := (Val.of_still heq).1
              by_cases hplace : y.InPlace
              · obtain ⟨s₂, hrun', hobjs, hlook'⟩ := retype_kept hz (by rw [htype]; exact hplace)
                rw [hrun] at hrun'
                cases hrun'
                refine ⟨v, _, hlook', rfl, .inr ⟨v, y, hlook, hplace, fun str => ?_⟩⟩
                rw [← Takes.of_still heq hstill.1]
                exact takes_congr hobjs ⟨rfl, rfl⟩ ⟨rfl, rfl⟩
              · obtain ⟨hnull, htable⟩ := not_or.mp hplace
                obtain ⟨w, z', hlook', hstring, htakes⟩ := retype_freed hz (by rw [htype]; exact hnull)
                  (by rw [htype]; exact htable) hrun
                exact ⟨w, z', hlook', hstring, .inl htakes⟩

theorem nLocateobjGet_of_search {f : ObjId} {c : Int} {q : Option ObjId} {s₁ : Store} (htable : s.look t = .ok (vt, yt))
    (hfirst : (firstOf t).run s = .ok (some f) s) (h : (locateSearch t k false).run s = .ok (some (c, some o, q)) s₁) :
    (nLocateobjGet t k).run s = .ok (some o) s₁ := by
  rw [firstOf, Action.run_bind_ok (getVal_run htable)] at hfirst
  obtain ⟨⟨g, i, l⟩, hlinks, hlast⟩ := Action.require_bind_run_eq_ok.mp hfirst
  obtain rfl : g = some f := by
    cases hlast
    rfl
  rw [nLocateobjGet, Action.run_bind_ok (getVal_run htable), hlinks, Action.run_bind_ok (member_run _ s)]
  dsimp only
  rw [if_neg (by simp), Action.run_bind_ok h]
  rfl

/-- What `n_locateobj` leaves for the string: nothing, or what was in a slot whose type was overwritten. -/
theorem nLocateobjSet_left {f : ObjId} (htable : s.look t = .ok (vt, yt)) (hfirst : (firstOf t).run s = .ok (some f) s)
    (h : (nLocateobjSet t k .string).run s = .ok o s') : ∃ w z, s'.look o = .ok (w, z) ∧ z.type = .string ∧
      ((∀ str, Takes s' z str) ∨ ∃ y, Slot s t k o y ∧ y.InPlace ∧ ∀ str, Takes s' z str ↔ Takes s y str) := by
  rw [nLocateobjSet] at h
  obtain ⟨r, s₁, hsearch, h⟩ := Action.bind_run_eq_ok.mp h
  have hstill : Still s s₁ := (locateSearch_still t k true s).of_ok hsearch
  obtain ⟨y₁, hlook₁, heq⟩ := hstill.look htable
  obtain ⟨-, -, -, hauto⟩ := Val.of_still heq
  cases r with
  | none => cases h
  | some r =>
      obtain ⟨c, p, q⟩ := r
      dsimp only at h
      by_cases hnew : (c > 0 ∧ y₁.autosort = true) ∨ p = none
      · obtain ⟨w, hlook⟩ := locateSet_new hlook₁ hnew h
        exact ⟨w, _, hlook, rfl, .inl fun _ => ⟨rfl, fun _ => rfl⟩⟩
      · obtain ⟨hc, hp⟩ := not_or.mp hnew
        obtain ⟨b, rfl⟩ := Option.ne_none_iff_exists'.mp hp
        obtain ⟨rfl, hrun⟩ := (locateSet_retype hlook₁ hc).mp h
        obtain ⟨w, z, hlook, hstring, hleft⟩ := retype_left hstill hrun
        refine ⟨w, z, hlook, hstring, hleft.imp id ?_⟩
        rintro ⟨v, y, hy, hplace, htakes⟩
        have hhit := locateSearch_hit htable (by rwa [← hauto]) hsearch
        exact ⟨y, ⟨⟨s₁, nLocateobjGet_of_search htable hfirst hhit⟩, v, hy⟩, hplace, htakes⟩

/-- A slot that is set ends as that slot, made a string. -/
theorem Slot.parts (h : Slot s t k o y) (str : List Byte) (htable : (nspIstable t).run s = .ok true s)
    (ht : t ≠ retObj) (hk : k ≠ []) :
    ∃ s₁, Still s s₁ ∧ ∀ o' s', (nspSetobj t (some k) (.string str)).run s = .ok o' s' ↔
      ∃ s₂, o' = o ∧ (retype o).run s₁ = .ok () s₂ ∧ (nspStrcat o str).run s₂ = .ok () s' := by
  obtain ⟨vt, yt, hlook, -⟩ := look_of_istable htable
  obtain ⟨s₁, hstill, hset⟩ := h.locate hlook
  obtain ⟨⟨f, hfirst⟩, -⟩ := h.search
  refine ⟨s₁, hstill, fun o' s' => ?_⟩
  rw [nspSetobj_parts htable ht hk]
  constructor
  · rintro ⟨g, s₂, hg, hrun, hcat⟩
    rw [hfirst] at hg
    cases hg
    obtain ⟨rfl, hretype⟩ := (hset _ _).mp hrun
    exact ⟨s₂, rfl, hretype, hcat⟩
  · rintro ⟨s₂, rfl, hretype, hcat⟩
    exact ⟨some f, s₂, hfirst, (hset _ _).mpr ⟨rfl, hretype⟩, hcat⟩

/-- The string reads back where nothing was left in a slot whose type is overwritten. -/
theorem stores_iff (htable : (nspIstable t).run s = .ok true s) (ht : t ≠ retObj) (hk : k ≠ []) :
    StoresStr s t k str ↔ ∀ o y, Slot s t k o y → y.InPlace → Takes s y str := by
  constructor
  · intro hstores o y hslot hplace
    obtain ⟨o', s', hrun⟩ := hstores.returns o y hslot (.inl hplace)
    obtain ⟨hreads, -⟩ := hstores.reads o' s' hrun
    obtain ⟨s₁, hstill, hparts⟩ := hslot.parts str htable ht hk
    obtain ⟨s₂, rfl, hretype, hcat⟩ := (hparts _ _).mp hrun
    obtain ⟨v, hlook⟩ := hslot.2
    obtain ⟨z, hz, heq⟩ := hstill.look hlook
    obtain ⟨s₃, hrun', hobjs, hlook'⟩ := retype_kept hz (by rw [(Val.of_still heq).1]; exact hplace)
    rw [hretype] at hrun'
    cases hrun'
    have hstring : Takes s₂ { z with type := .string } str := takes_of_reads hlook' rfl hcat hreads
    have htakes : Takes s₁ z str := (takes_congr hobjs ⟨rfl, rfl⟩ ⟨rfl, rfl⟩).mp hstring
    exact (Takes.of_still heq hstill.1).mp htakes
  · intro htakes
    obtain ⟨vt, yt, hlook, -⟩ := look_of_istable htable
    refine ⟨fun o y hslot hfree => ?_, fun o' s' hrun => ⟨?_, fun o y hslot => ?_⟩⟩
    · obtain ⟨s₁, hstill, hparts⟩ := hslot.parts str htable ht hk
      obtain ⟨v, hy⟩ := hslot.2
      obtain ⟨z, hz, heq⟩ := hstill.look hy
      obtain ⟨htype, -, hzt, -⟩ := Val.of_still heq
      have hretype : ∃ s₂, (retype o).run s₁ = .ok () s₂ := by
        by_cases hplace : y.InPlace
        · obtain ⟨s₂, hrun, -, -⟩ := retype_kept hz (by rw [htype]; exact hplace)
          exact ⟨s₂, hrun⟩
        · obtain ⟨hcdata, hnone⟩ := hfree.resolve_left hplace
          obtain ⟨hnull, htab⟩ := not_or.mp hplace
          rw [← htype] at hnull htab hcdata
          exact retype_returns hz hnull htab hcdata (hzt.trans hnone)
      obtain ⟨s₂, hrun⟩ := hretype
      obtain ⟨w, z', hz', hstring, hleft⟩ := retype_left hstill hrun
      have hfit : Takes s₂ z' str := by
        rcases hleft with hnone | ⟨v', y', hy', hplace, hsame⟩
        · exact hnone str
        · exact (hsame str).mpr (htakes o y' ⟨hslot.1, v', hy'⟩ hplace)
      obtain ⟨s', hcat, -⟩ := nspStrcat_takes hz' hstring hfit
      exact ⟨o, s', (hparts _ _).mpr ⟨s₂, rfl, hrun, hcat⟩⟩
    · obtain ⟨f, s₂, hfirst, hset, hcat⟩ := (nspSetobj_parts htable ht hk).mp hrun
      cases f with
      | none =>
          obtain ⟨w, z, hz, hcontent⟩ := firstEntry_look hset
          obtain ⟨htype, hsize, hd⟩ : z.type = .string ∧ z.size = 0 ∧ z.d = .num 0 :=
            ⟨congrArg Content.type hcontent, congrArg Content.size hcontent, congrArg Content.data hcontent⟩
          obtain ⟨s₃, hrun', hreads⟩ := nspStrcat_takes hz htype ⟨hsize, fun _ => by rw [hd]; rfl⟩
          rw [hcat] at hrun'
          cases hrun'
          exact hreads
      | some f =>
          obtain ⟨w, z, hz, htype, hleft⟩ := nLocateobjSet_left hlook hfirst hset
          have hfit : Takes s₂ z str := by
            rcases hleft with hnone | ⟨y, hslot, hplace, hsame⟩
            · exact hnone str
            · exact (hsame str).mpr (htakes o' y hslot hplace)
          obtain ⟨s₃, hrun', hreads⟩ := nspStrcat_takes hz htype hfit
          rw [hcat] at hrun'
          cases hrun'
          exact hreads
    · obtain ⟨s₁, -, hparts⟩ := hslot.parts str htable ht hk
      obtain ⟨s₂, ho, -, -⟩ := (hparts _ _).mp hrun
      exact ho

end StoresStr

/-- The slot `a` holds a shared table that is empty. -/
theorem stores_shared : StoresStr sharedTable 3 (bytes "a") [] := by
  refine (stores_iff rfl (by decide) (by decide)).mpr fun o y hslot _ => ?_
  obtain ⟨⟨s₁, hget⟩, v, hlook⟩ := hslot
  have hrun : (nLocateobjGet 3 (bytes "a")).run sharedTable = .ok (some 4) sharedTable := rfl
  rw [hrun] at hget
  cases hget
  cases hlook
  exact ⟨rfl, fun _ => rfl⟩

/-- A sorted table whose entry `a` holds the string `xy`, and a variable. -/
def wordSlot : Store where
  objs := (((((Cells.empty.alloc { val := some 0 }).alloc { val := some 1 }).alloc { val := some 2 }).alloc
    { val := some 3 }).alloc (Obj.setname { val := some 4 } (bytes "a"))).alloc { val := some 5 }
  vals := (((((Cells.empty.alloc { type := .null }).alloc { type := .table }).alloc { type := .null }).alloc
    { type := .table, autosort := true, d := .table (some 4) (some 4) (some 4) }).alloc
      { type := .string, size := 2, d := .str (bytes "xy") }).alloc { type := .null }
  locals := globalObj

/-- The memory after `n_moveval` of the entry to the variable. -/
def movedSlot : Store := final ((nMoveval 5 4).run wordSlot)

/-- The size of the value of an object after `nsp_setobj`. -/
def sizeAfterSet (s : Store) (t : ObjId) (k : List Byte) (v : Setting) (p : ObjId) : Option Nat :=
  match (nspSetobj t (some k) v).run s with
  | .error _ _ => none
  | .ok _ s' => ((s'.ptr p).bind s'.vals.get).map Val.size

/-- The entry that was moved away is null, and `b` is added to what it held. -/
theorem not_stores_moved : ¬ StoresStr movedSlot 3 (bytes "a") (bytes "b") := by
  intro h
  have hslot : Slot movedSlot 3 (bytes "a") 4 { type := .null, size := 2, d := .str (bytes "xy") } :=
    ⟨⟨movedSlot, rfl⟩, 4, rfl⟩
  obtain ⟨o', s', hrun⟩ := h.returns _ _ hslot (.inl (.inl rfl))
  obtain ⟨⟨v, y, hlook, -, hsize, -⟩, hsame⟩ := h.reads o' s' hrun
  obtain rfl := hsame _ _ hslot
  have hafter : sizeAfterSet movedSlot 3 (bytes "a") (.string (bytes "b")) 4 = some 1 := by
    obtain ⟨hptr, hy⟩ := Store.ptr_of_look hlook
    simp only [sizeAfterSet, hrun, hptr, Option.bind_some, hy, Option.map_some, hsize]
    rfl
  exact absurd hafter (by decide +kernel)

end NullG.Nsp
