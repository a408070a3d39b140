/-
Setting a name whose value is a table that other objects share.

`n_locateobj` changes the type of a table in place, so that every object that shares the value
loses its table with the one that is set. `nsp_setvaltype` would have unlinked it; only an empty
name, which `nsp_setobj` turns away, leaves the others alone.
-/

import NullG.Nsp.TableMap

namespace NullG.Nsp

open NullG.Lib

/-! ### What a search changes -/

/-- The same objects, and values of the same types. -/
structure SameTypes (s s' : Store) : Prop where
  objs : s'.objs = s.objs
  types : ∀ w, (s'.vals.get w).map Val.type = (s.vals.get w).map Val.type

section Search

variable {s s' : Store} {o t : ObjId} {f : Val → Val}

theorem SameTypes.refl (s : Store) : SameTypes s s := ⟨rfl, fun _ => rfl⟩

theorem SameTypes.trans {s₁ s₂ s₃ : Store} (h : SameTypes s₁ s₂) (h' : SameTypes s₂ s₃) :
    SameTypes s₁ s₃ :=
  ⟨h'.objs.trans h.objs, fun w => (h'.types w).trans (h.types w)⟩

theorem SameTypes.ptr (h : SameTypes s s') (o : ObjId) : s'.ptr o = s.ptr o := by
  rw [Store.ptr, Store.ptr, h.objs]

/-- A write through an object, if it ends, writes the value of the object. -/
theorem modVal_ok (h : (modVal o f).run s = .ok () s') :
    ∃ v y, s.look o = .ok (v, y) ∧ s'.objs = s.objs ∧ s'.vals = s.vals.modify v f := by
  simp only [modVal] at h
  cases hlook : s.look o with
  | error e =>
      rw [hlook] at h
      cases h
  | ok r =>
      rw [hlook] at h
      cases h
      exact ⟨r.1, r.2, rfl, rfl, rfl⟩

/-- A write that keeps the type. -/
theorem modVal_sameTypes (h : (modVal o f).run s = .ok () s') (hf : ∀ y, (f y).type = y.type) :
    SameTypes s s' := by
  obtain ⟨v, y, hlook, hobjs, hvals⟩ := modVal_ok h
  refine ⟨hobjs, fun w => ?_⟩
  rw [hvals]
  by_cases hw : w = v
  · subst hw
    rw [Cells.get_modify_self, Option.map_map]
    cases s.vals.get w with
    | none => rfl
    | some z => exact congrArg some (hf z)
  · rw [Cells.get_modify_of_ne _ hw]

theorem setCursor_sameTypes {c : ObjId} (h : (setCursor t c).run s = .ok () s') : SameTypes s s' := by
  rw [setCursor, modTable] at h
  obtain ⟨y, -, h⟩ := Action.require_bind_run_eq_ok.mp h
  obtain ⟨d, -, h⟩ := Action.require_bind_run_eq_ok.mp h
  exact modVal_sameTypes h fun _ => rfl

theorem getObj_ok {x : Obj} (h : (getObj o).run s = .ok x s') : s.objs.get o = some x := by
  simp only [getObj, Action.require] at h
  cases hx : s.objs.get o with
  | none =>
      rw [hx] at h
      cases h
  | some y =>
      rw [hx] at h
      cases h
      rfl

/-- The objects at which a search in `t` stands are some of those with `A`, in memories with `P`, and what holds of the
memories before and behind a move of the cursor to one of them holds of those before and behind a search. -/
structure SearchStays (t : ObjId) (A : ObjId → Prop) (P : Store → Prop) (Q : Store → Store → Prop) : Prop where
  refl : ∀ s, Q s s
  trans : ∀ s₁ s₂ s₃, Q s₁ s₂ → Q s₂ s₃ → Q s₁ s₃
  start : ∀ s y f i l, P s → (s.look t).map Prod.snd = .ok y → y.d.asTable = .ok (f, i, l) →
    (∀ c ∈ f, A c) ∧ ∀ c ∈ i, A c
  links : ∀ s c x, P s → A c → s.objs.get c = some x → (∀ p ∈ x.prev, A p) ∧ ∀ p ∈ x.next, A p
  cursor : ∀ s s' c, P s → A c → (setCursor t c).run s = .ok () s' → Q s s' ∧ P s'

/-- What holds of the memories before and behind a move of the cursor of `t` holds of those before and behind a search,
in memories with `P`. -/
structure SearchKeeps (t : ObjId) (P : Store → Prop) (Q : Store → Store → Prop) : Prop where
  refl : ∀ s, Q s s
  trans : ∀ s₁ s₂ s₃, Q s₁ s₂ → Q s₂ s₃ → Q s₁ s₃
  cursor : ∀ s s' c, P s → (setCursor t c).run s = .ok () s' → Q s s' ∧ P s'

theorem searchKeeps_sameTypes (t : ObjId) : SearchKeeps t (fun _ => True) SameTypes :=
  ⟨.refl, fun _ _ _ h h' => h.trans h', fun _ _ _ _ h => ⟨setCursor_sameTypes h, trivial⟩⟩

section Keeps

variable {A : ObjId → Prop} {P : Store → Prop} {Q : Store → Store → Prop}

theorem SearchKeeps.stays (hQ : SearchKeeps t P Q) : SearchStays t (fun _ => True) P Q :=
  ⟨hQ.refl, hQ.trans, fun _ _ _ _ _ _ _ _ => ⟨fun _ _ => trivial, fun _ _ => trivial⟩,
    fun _ _ _ _ _ _ => ⟨fun _ _ => trivial, fun _ _ => trivial⟩, fun s s' c hP _ h => hQ.cursor s s' c hP h⟩

theorem SearchStays.forward (hQ : SearchStays t A P Q) {sortattr : Bool} {cmpTo : Obj → Int} {n : Nat} {c : Int}
    {p q : Option ObjId} {r : Int × Option ObjId × Option ObjId} (hP : P s) (hq : ∀ o ∈ q, A o)
    (h : (locateForward t sortattr cmpTo n c p q).run s = .ok r s') : Q s s' := by
  induction n generalizing c p q s with
  | zero => cases h
  | succ n ih =>
      cases q with
      | none =>
          cases h
          exact hQ.refl _
      | some q =>
          rw [locateForward] at h
          obtain ⟨x, hx, h⟩ := Action.require_bind_run_eq_ok.mp h
          have hx := getObj_ok (Action.run_require_ok hx)
          dsimp only at h
          split at h
          · cases h
            exact hQ.refl _
          · obtain ⟨_, s₂, hset, h⟩ := Action.bind_run_eq_ok.mp h
            obtain ⟨hmove, hP₂⟩ := hQ.cursor _ _ _ hP (hq q rfl) hset
            exact hQ.trans _ _ _ hmove (ih hP₂ (hQ.links _ _ _ hP (hq q rfl) hx).2 h)

theorem SearchStays.backward (hQ : SearchStays t A P Q) {cmpTo : Obj → Int} {n : Nat} {c : Int} {p q : Option ObjId}
    {r : Int × Option ObjId × Option ObjId} (hP : P s) (hq : ∀ o ∈ q, A o)
    (h : (locateBackward t cmpTo n c p q).run s = .ok r s') : Q s s' := by
  induction n generalizing c p q s with
  | zero => cases h
  | succ n ih =>
      cases q with
      | none =>
          cases h
          exact hQ.refl _
      | some q =>
          rw [locateBackward] at h
          obtain ⟨x, hx, h⟩ := Action.require_bind_run_eq_ok.mp h
          have hx := getObj_ok (Action.run_require_ok hx)
          dsimp only at h
          split at h
          · cases h
            exact hQ.refl _
          · obtain ⟨_, s₂, hset, h⟩ := Action.bind_run_eq_ok.mp h
            obtain ⟨hmove, hP₂⟩ := hQ.cursor _ _ _ hP (hq q rfl) hset
            exact hQ.trans _ _ _ hmove (ih hP₂ (hQ.links _ _ _ hP (hq q rfl) hx).1 h)

theorem SearchKeeps.forward (hQ : SearchKeeps t P Q) {sortattr : Bool} {cmpTo : Obj → Int} {n : Nat} {c : Int}
    {p q : Option ObjId} {r : Int × Option ObjId × Option ObjId} (hP : P s)
    (h : (locateForward t sortattr cmpTo n c p q).run s = .ok r s') : Q s s' :=
  hQ.stays.forward hP (fun _ _ => trivial) h

theorem SearchKeeps.backward (hQ : SearchKeeps t P Q) {cmpTo : Obj → Int} {n : Nat} {c : Int} {p q : Option ObjId}
    {r : Int × Option ObjId × Option ObjId} (hP : P s) (h : (locateBackward t cmpTo n c p q).run s = .ok r s') :
    Q s s' :=
  hQ.stays.backward hP (fun _ _ => trivial) h

end Keeps

/-- The search of `n_locateobj` from the first comparison on. -/
def searchFrom (t : ObjId) (oname : List Byte) (sortattr setobj : Bool) (n : Nat) (start : Option ObjId)
    (cmp : Int) : H (Option (Int × Option ObjId × Option ObjId)) :=
  if cmp < 0 then do
    let (cmp, cobj, oobj) ← locateForward t sortattr (locateCmp (nameNval oname) oname) n cmp start start
    if !setobj ∧ cmp ≠ 0 then return none
    return some (cmp, cobj, oobj)
  else if sortattr ∧ cmp > 0 then do
    let (cmp, cobj, oobj) ← locateBackward t (locateCmp (nameNval oname) oname) n cmp start start
    if !setobj ∧ cmp ≠ 0 then return none
    if cmp < 0 then
      match cobj with
      | none => .fail .nullPointer
      | some c => do
          let x ← getObj c
          return some (1, x.next <|> some c, some c)
    else if cmp > 0 then return some (cmp, oobj, oobj)
    else return some (cmp, cobj, oobj)
  else return some (cmp, start, start)

theorem searchFrom_set {oname : List Byte} {b : Bool} {n : Nat} {start : Option ObjId} {cmp : Int}
    {r : Int × Option ObjId × Option ObjId} (hsort : b = false → cmp < 0)
    (h : (searchFrom t oname b false n start cmp).run s = .ok (some r) s') :
    r.1 = 0 ∧ (searchFrom t oname b true n start cmp).run s = .ok (some r) s' ∧
      SameTypes s s' := by
  rw [searchFrom] at h ⊢
  by_cases hneg : cmp < 0
  · rw [if_pos hneg] at h ⊢
    obtain ⟨⟨c, p, q⟩, s₁, hloop, h⟩ := Action.bind_run_eq_ok.mp h
    rw [Action.run_bind_ok hloop]
    dsimp only at h ⊢
    by_cases hc : c = 0
    · rw [if_neg (by simp [hc])] at h
      cases h
      exact ⟨hc, rfl, (searchKeeps_sameTypes t).forward trivial hloop⟩
    · rw [if_pos ⟨rfl, hc⟩] at h
      cases h
  · rw [if_neg hneg] at h ⊢
    by_cases hpos : b = true ∧ cmp > 0
    · rw [if_pos hpos] at h ⊢
      obtain ⟨⟨c, p, q⟩, s₁, hloop, h⟩ := Action.bind_run_eq_ok.mp h
      rw [Action.run_bind_ok hloop]
      dsimp only at h ⊢
      by_cases hc : c = 0
      · subst hc
        rw [if_neg (by simp)] at h
        rw [if_neg (by simp)] at h
        rw [if_neg (by simp)] at h
        cases h
        exact ⟨rfl, rfl, (searchKeeps_sameTypes t).backward trivial hloop⟩
      · rw [if_pos ⟨rfl, hc⟩] at h
        cases h
    · rw [if_neg hpos] at h ⊢
      cases h
      have hzero : cmp = 0 := by
        cases b with
        | false => exact absurd (hsort rfl) hneg
        | true => simp at hpos; omega
      exact ⟨hzero, rfl, .refl _⟩

/-- A search that finds an entry finds it when it is to set, too. -/
theorem locateSearch_set {oname : List Byte} {r : Int × Option ObjId × Option ObjId}
    (h : (locateSearch t oname false).run s = .ok (some r) s') :
    r.1 = 0 ∧ (locateSearch t oname true).run s = .ok (some r) s' ∧ SameTypes s s' := by
  rw [locateSearch] at h ⊢
  obtain ⟨y, hy, h⟩ := Action.require_bind_run_eq_ok.mp h
  have hget : (getVal t).run s = .ok y s := Action.run_require_ok hy
  rw [Action.run_bind_ok hget]
  obtain ⟨⟨f, i, l⟩, hd, h⟩ := Action.require_bind_run_eq_ok.mp h
  rw [hd, Action.run_bind_ok (member_run _ s)]
  dsimp only at h ⊢
  rw [Action.run_bind_ok (walkFuel_run s)] at h ⊢
  cases hauto : y.autosort with
  | false =>
      rw [hauto] at h
      rw [if_neg Bool.false_ne_true, Action.run_bind_ok (Action.run_pure _ _)] at h ⊢
      exact searchFrom_set (fun _ => by omega) h
  | true =>
      rw [hauto, if_pos rfl, if_pos rfl] at h
      rw [if_pos rfl, if_pos rfl]
      cases hstart : (i <|> f) with
      | none =>
          rw [hstart] at h
          cases h
      | some c =>
          rw [hstart] at h
          dsimp only at h ⊢
          obtain ⟨x, hx, h⟩ := Action.require_bind_run_eq_ok.mp h
          have hobj : (getObj c).run s = .ok x s := Action.run_require_ok hx
          rw [Action.run_bind_ok hobj, Action.run_bind_ok (Action.run_pure _ _)]
          exact searchFrom_set (b := true) (fun h => by cases h) h

/-- A look-up in the table `t`. -/
theorem SearchStays.get {A : ObjId → Prop} {P : Store → Prop} {Q : Store → Store → Prop} (hQ : SearchStays t A P Q)
    {oname : List Byte} {r : Option ObjId} (hP : P s) (h : (nLocateobjGet t oname).run s = .ok r s') : Q s s' := by
  have hfrom : ∀ {b n start cmp r}, (∀ o ∈ start, A o) → (searchFrom t oname b false n start cmp).run s = .ok r s' →
      Q s s' := by
    intro b n start cmp r hstart h
    rw [searchFrom] at h
    split at h
    · obtain ⟨⟨c, p, q⟩, s₁, hloop, h⟩ := Action.bind_run_eq_ok.mp h
      have hmove := hQ.forward hP hstart hloop
      dsimp only at h
      split at h
      · cases h
        exact hmove
      · cases h
        exact hmove
    · split at h
      · obtain ⟨⟨c, p, q⟩, s₁, hloop, h⟩ := Action.bind_run_eq_ok.mp h
        have hmove := hQ.backward hP hstart hloop
        dsimp only at h
        by_cases hc : c = 0
        · rw [if_neg (by simp [hc]), if_neg (by omega), if_neg (by omega)] at h
          cases h
          exact hmove
        · rw [if_pos ⟨rfl, hc⟩] at h
          cases h
          exact hmove
      · cases h
        exact hQ.refl _
  rw [nLocateobjGet] at h
  obtain ⟨y, hy, h⟩ := Action.require_bind_run_eq_ok.mp h
  obtain ⟨⟨f, i, l⟩, hd, h⟩ := Action.require_bind_run_eq_ok.mp h
  dsimp only at h
  split at h
  · cases h
    exact hQ.refl _
  · obtain ⟨r', s₁, hsearch, h⟩ := Action.bind_run_eq_ok.mp h
    obtain rfl : s₁ = s' := by
      cases r' with
      | none => cases h; rfl
      | some r' => cases h; rfl
    rw [locateSearch] at hsearch
    obtain ⟨y', hy', hsearch⟩ := Action.require_bind_run_eq_ok.mp hsearch
    obtain ⟨⟨f', i', l'⟩, hd', hsearch⟩ := Action.require_bind_run_eq_ok.mp hsearch
    dsimp only at hsearch
    rw [Action.run_bind_ok (walkFuel_run s)] at hsearch
    obtain ⟨hf, hi⟩ := hQ.start s y' f' i' l' hP hy' hd'
    cases hauto : y'.autosort with
    | false =>
        rw [hauto, if_neg Bool.false_ne_true, Action.run_bind_ok (Action.run_pure _ _)] at hsearch
        exact hfrom hf hsearch
    | true =>
        rw [hauto, if_pos rfl, if_pos rfl] at hsearch
        have hstart : ∀ o ∈ (i' <|> f'), A o := by
          cases i' with
          | none => exact hf
          | some i => exact hi
        cases hcursor : (i' <|> f') with
        | none =>
            rw [hcursor] at hsearch
            cases hsearch
        | some c =>
            rw [hcursor] at hsearch hstart
            dsimp only at hsearch
            obtain ⟨x, -, hsearch⟩ := Action.require_bind_run_eq_ok.mp hsearch
            rw [Action.run_bind_ok (Action.run_pure _ _)] at hsearch
            exact hfrom (b := true) hstart hsearch

theorem SearchKeeps.get {P : Store → Prop} {Q : Store → Store → Prop} (hQ : SearchKeeps t P Q) {oname : List Byte}
    {r : Option ObjId} (hP : P s) (h : (nLocateobjGet t oname).run s = .ok r s') : Q s s' :=
  hQ.stays.get hP h

/-- A name that is found, and where the search for it stops. -/
theorem nLocateobjGet_some {oname : List Byte} (h : (nLocateobjGet t oname).run s = .ok (some o) s') :
    (∃ f, (firstOf t).run s = .ok (some f) s) ∧
      ∃ c q, (locateSearch t oname false).run s = .ok (some (c, some o, q)) s' := by
  rw [nLocateobjGet] at h
  obtain ⟨y, hy, h⟩ := Action.require_bind_run_eq_ok.mp h
  have hget : (getVal t).run s = .ok y s := Action.run_require_ok hy
  obtain ⟨⟨f, i, l⟩, hd, h⟩ := Action.require_bind_run_eq_ok.mp h
  dsimp only at h
  cases f with
  | none => cases h
  | some f =>
      rw [if_neg (by simp)] at h
      obtain ⟨r, s₁, hsearch, h⟩ := Action.bind_run_eq_ok.mp h
      refine ⟨⟨f, ?_⟩, ?_⟩
      · rw [firstOf, Action.run_bind_ok hget, hd]
        rfl
      · rcases r with - | ⟨c, cobj, q⟩
        · cases h
        · cases h
          exact ⟨c, q, hsearch⟩

end Search

/-! ### Shared tables -/

/-- The name is bound in the table `t` to the object `o`, whose value is a table, and the object `p`
has that value, too. -/
structure SharedBinding (s : Store) (t : ObjId) (oname : List Byte) (o p : ObjId) (w : ValId) : Prop where
  slot : t ≠ retObj
  table : (nspIstable t).run s = .ok true s
  bound : ∃ s', (nLocateobjGet t oname).run s = .ok (some o) s'
  value : ∃ y, s.look o = .ok (w, y) ∧ y.type = .table
  other : p ≠ o
  shared : s.ptr p = some w

/-- After `nsp_setobj`, every other object that had the old value of `o` has it still, and it is the
table it was. -/
def OthersKeep (s : Store) (t : ObjId) (oname : List Byte) (v : Setting) (o : ObjId) (w : ValId) : Prop :=
  ∃ o' s', (nspSetobj t (some oname) v).run s = .ok o' s' ∧ ∀ p, p ≠ o → s.ptr p = some w →
    ∃ y y', s.vals.get w = some y ∧ s'.look p = .ok (w, y') ∧ y'.type = .table ∧
      y'.d.asTable.map Prod.fst = y.d.asTable.map Prod.fst

section Shared

variable {s s' : Store} {t o p : ObjId} {oname : List Byte} {w : ValId} {v : Setting}

/-- The data of a setting does not change the type. -/
theorem storeSetting_sameTypes (h : (storeSetting o v).run s = .ok () s') : SameTypes s s' := by
  have hcat : ∀ b, (nspStrcat o b).run s = .ok () s' → SameTypes s s' := by
    intro b h
    rw [nspStrcat] at h
    obtain ⟨ty, -, h⟩ := Action.require_bind_run_eq_ok.mp h
    split at h
    · split at h
      · cases h
        exact .refl _
      · obtain ⟨y, -, h⟩ := Action.require_bind_run_eq_ok.mp h
        split at h
        · rw [Action.run_bind_ok (Action.run_pure _ _)] at h
          exact modVal_sameTypes h fun _ => rfl
        · obtain ⟨old, -, h⟩ := Action.require_bind_run_eq_ok.mp h
          exact modVal_sameTypes h fun _ => rfl
    · cases h
      exact .refl _
  cases v with
  | null =>
      cases h
      exact .refl _
  | table =>
      cases h
      exact .refl _
  | boolean q => exact modVal_sameTypes h fun _ => rfl
  | number q => exact modVal_sameTypes h fun _ => rfl
  | cfunc f => exact modVal_sameTypes h fun _ => rfl
  | string b => exact hcat b h
  | nfunc b => exact hcat b h
  | cdata b => exact hcat b h

/-- `n_locateobj` at an entry that holds a table writes the new type into the shared value. -/
theorem locateSet_table {otype : Ty} {q : Option ObjId} {r : ObjId} {y : Val} (hlook : s.look o = .ok (w, y))
    (hy : y.type = .table) (h : (locateSet t oname otype 0 (some o) q).run s = .ok r s') :
    r = o ∧ s'.objs = s.objs ∧ (s'.vals.get w).map Val.type = some otype := by
  rw [locateSet] at h
  obtain ⟨yt, -, h⟩ := Action.require_bind_run_eq_ok.mp h
  rw [if_neg (by simp)] at h
  dsimp only at h
  rw [Action.run_bind_ok (typeOf_run hlook), if_pos hy] at h
  obtain ⟨_, s₁, hmod, h⟩ := Action.bind_run_eq_ok.mp h
  cases h
  obtain ⟨v, z, hlook', hobjs, hvals⟩ := modVal_ok hmod
  obtain ⟨rfl, rfl⟩ : v = w ∧ z = y := by
    rw [hlook] at hlook'
    cases hlook'
    exact ⟨rfl, rfl⟩
  refine ⟨rfl, hobjs, ?_⟩
  rw [hvals, Cells.get_modify_self, (Store.ptr_of_look hlook).2]
  rfl

/-- Setting a name to something else takes the table from all who share it. -/
theorem othersKeep_iff (h : SharedBinding s t oname o p w) (hv : v.type ≠ .table) :
    OthersKeep s t oname v o w ↔ oname = [] := by
  obtain ⟨y, hlook, hy⟩ := h.value
  constructor
  · rintro ⟨o', s', hrun, hkeep⟩
    by_contra hne
    obtain ⟨s₁, hbound⟩ := h.bound
    obtain ⟨⟨f, hfirst⟩, c, q, hsearch⟩ := nLocateobjGet_some hbound
    obtain ⟨rfl, hset, hsame⟩ := locateSearch_set hsearch
    rw [nspSetobj, Action.run_bind_ok h.table, if_pos ⟨h.slot, rfl⟩, Action.run_bind_ok hfirst] at hrun
    · dsimp only at hrun
      rw [if_neg (by simp), nLocateobjSet] at hrun
      obtain ⟨o₂, s₂, hloc, hrun⟩ := Action.bind_run_eq_ok.mp hrun
      rw [Action.run_bind_ok hset] at hloc
      -- the value of the entry is still a table after the search
      obtain ⟨y₁, hlook₁, hy₁⟩ : ∃ y₁, s₁.look o = .ok (w, y₁) ∧ y₁.type = .table := by
        have htype := hsame.types w
        rw [(Store.ptr_of_look hlook).2, Option.map_some, hy] at htype
        obtain ⟨y₁, hget, hy₁⟩ := Option.map_eq_some_iff.mp htype
        exact ⟨y₁, Store.look_of_ptr (by rw [hsame.ptr]; exact (Store.ptr_of_look hlook).1) hget, hy₁⟩
      obtain ⟨rfl, hobjs, htype⟩ := locateSet_table hlook₁ hy₁ hloc
      obtain ⟨_, s₃, hstore, hrun⟩ := Action.bind_run_eq_ok.mp hrun
      cases hrun
      obtain ⟨z, z', -, hlook', hz', -⟩ := hkeep p h.other h.shared
      have htype' := (storeSetting_sameTypes hstore).types w
      rw [htype, (Store.ptr_of_look hlook').2, Option.map_some, hz'] at htype'
      exact hv (Option.some.inj htype').symm
    · exact hne
  · rintro rfl
    refine ⟨nullObj, s, ?_, ?_⟩
    · rw [nspSetobj, Action.run_bind_ok h.table, if_pos ⟨h.slot, rfl⟩]
      rfl
    · intro p' _ hp'
      exact ⟨y, y, (Store.ptr_of_look hlook).2, Store.look_of_ptr hp' (Store.ptr_of_look hlook).2, hy, rfl⟩

end Shared

/-- A memory with a sorted table whose entry `a` shares a table with another object. -/
def sharedTable : Store where
  objs := (((((Cells.empty.alloc { val := some 0 }).alloc { val := some 1 }).alloc { val := some 2 }).alloc
    { val := some 3 }).alloc (Obj.setname { val := some 4 } (bytes "a"))).alloc { val := some 4 }
  vals := ((((Cells.empty.alloc { type := .null }).alloc { type := .table }).alloc { type := .null }).alloc
    { type := .table, autosort := true, d := .table (some 4) (some 4) (some 4) }).alloc
      { type := .table, refs := 2 }
  locals := globalObj

theorem othersKeep_number :
    OthersKeep sharedTable 3 (bytes "a") (.number 1) 4 4 ↔ bytes "a" = [] := by
  refine othersKeep_iff (p := 5) ⟨by decide, rfl, ⟨_, rfl⟩, ⟨_, rfl, rfl⟩, by decide, rfl⟩ ?_
  intro h
  cases h

/-- The type of the value of an object after `nsp_setobj`. -/
def typeAfterSet (s : Store) (t : ObjId) (oname : List Byte) (v : Setting) (p : ObjId) : Option Ty :=
  match (nspSetobj t (some oname) v).run s with
  | .error _ _ => none
  | .ok _ s' =>
      match s'.look p with
      | .error _ => none
      | .ok (_, y) => some y.type

/-- The other object's table is a number now. -/
theorem not_othersKeep_number : ¬ OthersKeep sharedTable 3 (bytes "a") (.number 1) 4 4 := by
  rintro ⟨o', s', hrun, hkeep⟩
  obtain ⟨y, y', -, hlook, htype, -⟩ := hkeep 5 (by decide) rfl
  have hafter : typeAfterSet sharedTable 3 (bytes "a") (.number 1) 5 = some .table := by
    simp only [typeAfterSet, hrun, hlook, htype]
  exact absurd hafter (by decide +kernel)

end NullG.Nsp
