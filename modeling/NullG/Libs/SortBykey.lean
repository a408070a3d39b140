/-
The sorting of tables by a key of their entries (`libs/base/sort.c`).

`sort_bykey` looks the keys up with `nsp_getobj` each time it compares two entries. A look-up moves the cursors of the
tables it goes through, and what it finds may depend on where they stand; in a table that is its own parent it never
ends. So the list is sorted if the look-ups end and find the same each time (`sortsBykey`).
-/

import NullG.Libs.SortByname
import NullG.Nsp.Sharing

namespace NullG.Libs.Sort

open NullG.Nsp NullG.Lib

/-! ### The code -/

/-- `sub1` and `sub2`: the object with the key of an entry. -/
def keyObj (key : List Byte) (subtab : Option (List Byte)) (cobj : ObjId) : H ObjId :=
  match subtab with
  | some subtab => do
      let sub ← nspGetobj (some cobj) subtab
      nspGetobj (some sub) key
  | none => nspGetobj (some cobj) key

/-- `(sub1->val->type == NT_NUMBER) && (sub2->val->type == NT_NUMBER)`. -/
def bothNumbers (sub1 sub2 : ObjId) : H Bool := do
  let y1 ← getVal sub1
  if y1.type ≠ .number then return false
  let y2 ← getVal sub2
  return y2.type == .number

/-- What `sort_bykey` finds of two neighbours. -/
def swapBykey (key : List Byte) (subtab : Option (List Byte)) (order : Int) (cobj nobj : ObjId) : H (Option Bool) := do
  let y ← getVal cobj
  if y.type ≠ .table then return none
  let y ← getVal nobj
  if y.type ≠ .table then return none
  let sub1 ← keyObj key subtab cobj
  let sub2 ← keyObj key subtab nobj
  if ← bothNumbers sub1 sub2 then
    let y1 ← getVal sub1
    let y2 ← getVal sub2
    let q1 ← member y1.d.asNum
    let q2 ← member y2.d.asNum
    return some (swapBy order q1 q2)
  else
    let p1 ← nspTostr sub1
    let p2 ← nspTostr sub2
    return some (swapBy order (nameCmp p1 p2) 0)

/-- `sort_bykey`. -/
def sortBykey (n : Nat) (tobj : ObjId) (key : List Byte) (subtab : Option (List Byte)) (order : Int) : H Unit :=
  sortTable (fun _ => pure ()) (swapBykey key subtab order) n tobj

/-! ### Keys -/

/-- What is compared of a key. -/
inductive Key where
  | num (q : Nsp.Num)
  | text (p : List Byte)

/-- The text of a key, as `nsp_tostr` gives it. -/
def Key.str : Key → List Byte
  | .num q => nNtoa q true 6
  | .text p => p

/-- The key in a value. -/
def keyOf (y : Val) : Except Fault Key :=
  match y.type with
  | .number => y.d.asNum.map .num
  | .string => y.d.asStr.map fun str => .text (cstr (str.getD []))
  | .boolean => y.d.asNum.map fun q => .text (if q ≠ 0 then bytes "true" else bytes "false")
  | .null => .ok (.text (bytes "null"))
  | _ => .ok (.text [])

/-- The comparison of two keys: numbers by number, and else by bytes. -/
def keysSwap (order : Int) : Key → Key → Bool
  | .num p, .num q => swapBy order p q
  | a, b => swapBy order (nameCmp a.str b.str) 0

/-- No two keys are both to come behind the other. -/
theorem keysSwap_asymm {order : Int} {a b : Key} (h : keysSwap order a b = true) : keysSwap order b a = false := by
  cases a with
  | text p => cases b <;> exact swapBy_nameCmp_asymm h
  | num p =>
      cases b with
      | text q => exact swapBy_nameCmp_asymm h
      | num q => exact swapBy_asymm h

theorem Alike.autosort {y y' : Val} (h : Alike y y') : y'.autosort = y.autosort := by
  rcases h with rfl | ⟨-, f, i, l, f', i', -, rfl⟩
  · rfl
  · rfl

theorem Alike.ztable {y y' : Val} (h : Alike y y') : y'.ztable = y.ztable := by
  rcases h with rfl | ⟨-, f, i, l, f', i', -, rfl⟩
  · rfl
  · rfl

/-- A value that is kept has the same key. -/
theorem Alike.key {y y' : Val} (h : Alike y y') : keyOf y' = keyOf y := by
  rcases h with rfl | ⟨htype, f, i, l, f', i', -, rfl⟩
  · rfl
  · simp only [keyOf, htype]

/-- Only a number has a key that is one. -/
def Key.isNum : Key → Bool
  | .num _ => true
  | .text _ => false

section Keys

variable {s : Store} {o p : ObjId} {v w : ValId} {y z : Val} {k k' : Key}

theorem keyOf_number (hk : keyOf y = .ok k) : (y.type == .number) = k.isNum ∧ ∀ q, k = .num q → y.d.asNum = .ok q := by
  have hread : ∀ {α : Type} {d : Except Fault α} {f : α → Key}, d.map f = .ok k → ∃ a, d = .ok a ∧ f a = k := by
    intro α d f h
    cases d with
    | error e => cases h
    | ok a => exact ⟨a, rfl, Except.ok.inj h⟩
  unfold keyOf at hk
  cases htype : y.type with
  | number =>
      rw [htype] at hk
      obtain ⟨q, hd, rfl⟩ := hread hk
      refine ⟨rfl, fun q' hq => ?_⟩
      obtain rfl := Key.num.inj hq
      exact hd
  | boolean | string =>
      rw [htype] at hk
      obtain ⟨q, hd, rfl⟩ := hread hk
      exact ⟨rfl, fun q' hq => by cases hq⟩
  | null | nfunc | cfunc | table | cdata =>
      rw [htype] at hk
      cases hk
      exact ⟨rfl, fun q' hq => by cases hq⟩

/-- `nsp_tostr` gives the text of the key. -/
theorem nspTostr_run (hlook : s.look o = .ok (v, y)) (hk : keyOf y = .ok k) : (nspTostr o).run s = .ok k.str s := by
  rw [nspTostr, Action.run_bind_ok (typeOf_run hlook)]
  unfold keyOf at hk
  cases htype : y.type with
  | boolean | number =>
      rw [htype] at hk
      dsimp only at hk ⊢
      rw [Action.run_bind_ok (getVal_run hlook)]
      cases hd : y.d.asNum with
      | error e =>
          rw [hd] at hk
          cases hk
      | ok q =>
          rw [hd] at hk
          cases hk
          rfl
  | string =>
      rw [htype] at hk
      dsimp only at hk ⊢
      rw [Action.run_bind_ok (getVal_run hlook)]
      cases hd : y.d.asStr with
      | error e =>
          rw [hd] at hk
          cases hk
      | ok q =>
          rw [hd] at hk
          cases hk
          rfl
  | null | nfunc | cfunc | table | cdata =>
      rw [htype] at hk
      cases hk
      rfl

theorem bothNumbers_run (ho : s.look o = .ok (v, y)) (hp : s.look p = .ok (w, z)) (hk : keyOf y = .ok k)
    (hk' : keyOf z = .ok k') : (bothNumbers o p).run s = .ok (k.isNum && k'.isNum) s := by
  obtain ⟨hnum, -⟩ := keyOf_number hk
  obtain ⟨hnum', -⟩ := keyOf_number hk'
  rw [bothNumbers, Action.run_bind_ok (getVal_run ho), ← hnum, ← hnum']
  by_cases h : y.type = .number
  · rw [if_neg (by simp [h]), Action.run_bind_ok (getVal_run hp), h]
    rfl
  · rw [if_pos h, beq_eq_false_iff_ne.mpr h]
    rfl

end Keys

/-- A comparison of two entries whose keys are found. -/
theorem swapBykey_run {s s₁ s₂ : Store} {key : List Byte} {subtab : Option (List Byte)} {order : Int} {c n a b : ObjId}
    {vc vn va vb : ValId} {yc yn ya yb : Val} {ka kb : Key} (hc : s.look c = .ok (vc, yc))
    (hn : s.look n = .ok (vn, yn)) (htc : yc.type = .table) (htn : yn.type = .table)
    (hfind : (keyObj key subtab c).run s = .ok a s₁) (hfind' : (keyObj key subtab n).run s₁ = .ok b s₂)
    (ha : s₂.look a = .ok (va, ya)) (hb : s₂.look b = .ok (vb, yb)) (hka : keyOf ya = .ok ka)
    (hkb : keyOf yb = .ok kb) :
    (swapBykey key subtab order c n).run s = .ok (some (keysSwap order ka kb)) s₂ := by
  have htext : ∀ {r}, r = swapBy order (nameCmp ka.str kb.str) 0 → (do
      let p1 ← nspTostr a
      let p2 ← nspTostr b
      return some (swapBy order (nameCmp p1 p2) 0) : H (Option Bool)).run s₂ = .ok (some r) s₂ := by
    rintro r rfl
    rw [Action.run_bind_ok (nspTostr_run ha hka), Action.run_bind_ok (nspTostr_run hb hkb)]
    rfl
  rw [swapBykey, Action.run_bind_ok (getVal_run hc), if_neg (by simp [htc]), Action.run_bind_ok (getVal_run hn),
    if_neg (by simp [htn]), Action.run_bind_ok hfind, Action.run_bind_ok hfind',
    Action.run_bind_ok (bothNumbers_run ha hb hka hkb)]
  cases ka with
  | text p =>
      rw [if_neg (by simp [Key.isNum])]
      cases kb <;> exact htext rfl
  | num p =>
      cases kb with
      | text q =>
          rw [if_neg (by simp [Key.isNum])]
          exact htext rfl
      | num q =>
          rw [if_pos (by simp [Key.isNum]), Action.run_bind_ok (getVal_run ha), Action.run_bind_ok (getVal_run hb),
            (keyOf_number hka).2 p rfl, (keyOf_number hkb).2 q rfl]
          rfl

/-! ### Look-ups -/

/-- The object holds a table. -/
def HoldsTable (s : Store) (o : ObjId) : Prop := ∃ v y, s.look o = .ok (v, y) ∧ y.type = .table

/-- A look-up moves cursors and changes nothing else. -/
def Moved (s s' : Store) : Prop := s'.objs = s.objs ∧ Kept s s'

section LookUps

variable {s s' : Store} {t o : ObjId} {oname : List Byte}

theorem Moved.refl (s : Store) : Moved s s := ⟨rfl, .refl s⟩

theorem Moved.trans {s₁ s₂ s₃ : Store} (h : Moved s₁ s₂) (h' : Moved s₂ s₃) : Moved s₁ s₃ :=
  ⟨h'.1.trans h.1, h.2.trans h'.2⟩

theorem HoldsTable.kept (h : HoldsTable s o) (hkept : Kept s s') : HoldsTable s' o := by
  obtain ⟨v, y, hlook, htype⟩ := h
  obtain ⟨y', hlook', halike⟩ := hkept.look hlook
  exact ⟨v, y', hlook', by rw [halike.type]; exact htype⟩

theorem setCursor_moved {c : ObjId} (ht : HoldsTable s t) (h : (setCursor t c).run s = .ok () s') : Moved s s' := by
  obtain ⟨v, y, hlook, htype⟩ := ht
  rw [setCursor, modTable, Action.run_bind_ok (getVal_run hlook)] at h
  obtain ⟨⟨f, i, l⟩, hd, hmod⟩ := Action.require_bind_run_eq_ok.mp h
  rw [modVal_run hlook] at hmod
  cases hmod
  refine ⟨rfl, fun o => rfl, fun w z hz => ?_⟩
  by_cases hw : w = v
  · subst hw
    obtain rfl : y = z := Option.some.inj ((Store.ptr_of_look hlook).2.symm.trans hz)
    exact ⟨_, by rw [Cells.get_modify_self, hz, Option.map_some], .inr ⟨htype, f, i, l, f, some c, hd, rfl⟩⟩
  · exact ⟨z, by rw [Cells.get_modify_of_ne _ hw, hz], .refl z⟩

theorem searchKeeps_moved (t : ObjId) : SearchKeeps t (fun s => HoldsTable s t) Moved :=
  ⟨.refl, fun _ _ _ h h' => h.trans h', fun _ _ _ ht h =>
    ⟨setCursor_moved ht h, ht.kept (setCursor_moved ht h).2⟩⟩

/-- What `nsp_istable` reads. -/
theorem nspIstable_eq {b : Bool} (h : (nspIstable o).run s = .ok b s') :
    s = s' ∧ (b = true → HoldsTable s o) := by
  obtain ⟨ty, htype, hrest⟩ := Action.require_bind_run_eq_ok.mp h
  cases hrest
  refine ⟨rfl, fun hb => ?_⟩
  obtain rfl : ty = .table := by simpa using hb
  split at htype
  · cases htype
  · rename_i x hx
    split at htype
    · cases htype
    · rename_i v hv
      split at htype
      · cases htype
      · rename_i y hy
        exact ⟨v, y, Store.look_eq hx hv hy, Except.ok.inj htype⟩

/-- What holds of the memories before and behind every look-up in a single table. -/
structure LookUps (Q : Store → Store → Prop) : Prop where
  refl : ∀ s, Q s s
  trans : ∀ s₁ s₂ s₃, Q s₁ s₂ → Q s₂ s₃ → Q s₁ s₃
  get : ∀ t oname s r s', HoldsTable s t → (nLocateobjGet t oname).run s = .ok r s' → Q s s'

theorem lookUps_moved : LookUps Moved :=
  ⟨.refl, fun _ _ _ h h' => h.trans h', fun t _ _ _ _ ht h => (searchKeeps_moved t).get ht h⟩

variable {Q : Store → Store → Prop}

theorem LookUps.searchZ (hQ : LookUps Q) {getobj : ObjId → H (ObjId × Bool)}
    (hget : ∀ c s r s', (getobj c).run s = .ok r s' → Q s s') {n : Nat} {c : Option ObjId} {r : Option ObjId}
    (h : (Nsp.searchZ getobj n c).run s = .ok r s') : Q s s' := by
  induction n generalizing c s with
  | zero => cases h
  | succ n ih =>
      cases c with
      | none =>
          cases h
          exact hQ.refl _
      | some c =>
          rw [Nsp.searchZ] at h
          obtain ⟨x, -, hrest⟩ := Action.require_bind_run_eq_ok.mp h
          obtain ⟨b, s₁, htable, hrest⟩ := Action.bind_run_eq_ok.mp hrest
          obtain ⟨rfl, -⟩ := nspIstable_eq htable
          cases b with
          | false => exact ih hrest
          | true =>
              obtain ⟨⟨c₂, z⟩, s₂, hrun, hrest⟩ := Action.bind_run_eq_ok.mp hrest
              have hmoved := hget c _ _ _ hrun
              obtain ⟨null, s₃, hnull, hrest⟩ := Action.bind_run_eq_ok.mp hrest
              obtain ⟨ty, -, hnull⟩ := Action.require_bind_run_eq_ok.mp hnull
              cases hnull
              cases htype : ty == .null with
              | false =>
                  rw [htype] at hrest
                  cases hrest
                  exact hmoved
              | true =>
                  rw [htype] at hrest
                  exact hQ.trans _ _ _ hmoved (ih hrest)

theorem LookUps.getobjIn (hQ : LookUps Q) {n : Nat} {r : ObjId × Bool}
    (h : (Nsp.getobjIn oname n t).run s = .ok r s') : Q s s' := by
  induction n generalizing t r s s' with
  | zero => cases h
  | succ n ih =>
      rw [Nsp.getobjIn] at h
      split at h
      · cases h
        exact hQ.refl _
      · obtain ⟨b, s₁, htable, hrest⟩ := Action.bind_run_eq_ok.mp h
        obtain ⟨rfl, hholds⟩ := nspIstable_eq htable
        cases b with
        | false =>
            cases hrest
            exact hQ.refl _
        | true =>
            obtain ⟨found, s₂, hloc, hrest⟩ := Action.bind_run_eq_ok.mp hrest
            have hmoved := hQ.get t oname _ _ _ (hholds rfl) hloc
            cases found with
            | some c =>
                cases hrest
                exact hmoved
            | none =>
                obtain ⟨y, -, hrest⟩ := Action.require_bind_run_eq_ok.mp hrest
                cases hz : y.ztable with
                | none =>
                    rw [hz] at hrest
                    cases hrest
                    exact hmoved
                | some z =>
                    rw [hz] at hrest
                    obtain ⟨b, s₃, htable', hrest⟩ := Action.bind_run_eq_ok.mp hrest
                    obtain ⟨rfl, -⟩ := nspIstable_eq htable'
                    cases b with
                    | false =>
                        cases hrest
                        exact hmoved
                    | true =>
                        obtain ⟨f, s₄, hfirst, hrest⟩ := Action.bind_run_eq_ok.mp hrest
                        obtain ⟨y₄, -, hfirst⟩ := Action.require_bind_run_eq_ok.mp hfirst
                        obtain ⟨d, -, hfirst⟩ := Action.require_bind_run_eq_ok.mp hfirst
                        cases hfirst
                        obtain ⟨found, s₅, hsearch, hrest⟩ := Action.bind_run_eq_ok.mp hrest
                        have hmoved' := hQ.searchZ (fun _ _ _ _ hrun => ih hrun) hsearch
                        cases found with
                        | none =>
                            cases hrest
                            exact hQ.trans _ _ _ hmoved hmoved'
                        | some c =>
                            cases hrest
                            exact hQ.trans _ _ _ hmoved hmoved'

theorem LookUps.nspGetobj (hQ : LookUps Q) (h : (Nsp.nspGetobj (some t) oname).run s = .ok o s') : Q s s' := by
  rw [Nsp.nspGetobj, nspGetobjEx] at h
  obtain ⟨r, s₁, hget, hrest⟩ := Action.bind_run_eq_ok.mp h
  rw [Action.run_bind_ok (walkFuel_run s)] at hget
  cases hrest
  exact hQ.getobjIn hget

theorem LookUps.keyObj (hQ : LookUps Q) {key : List Byte} {subtab : Option (List Byte)} {c : ObjId}
    (h : (Sort.keyObj key subtab c).run s = .ok o s') : Q s s' := by
  cases subtab with
  | none => exact hQ.nspGetobj h
  | some subtab =>
      obtain ⟨sub, s₁, hsub, hrest⟩ := Action.bind_run_eq_ok.mp h
      exact hQ.trans _ _ _ (hQ.nspGetobj hsub) (hQ.nspGetobj hrest)

end LookUps

/-! ### `sort_bykey` -/

/-- The keys of the entries that are tables are found: each look-up ends, at the object `find o`, which has a key, in
all memories `R` that the sort goes through. -/
structure Steady (s : Store) (key : List Byte) (subtab : Option (List Byte)) (v : ValId) (es : List ObjId)
    (find : ObjId → ObjId) (R : Store → Prop) : Prop where
  start : R s
  finds : ∀ s₁, R s₁ → ∀ o ∈ es, HoldsTable s o → ∃ s₂, (keyObj key subtab o).run s₁ = .ok (find o) s₂ ∧ R s₂
  reads : ∀ o ∈ es, HoldsTable s o → ∃ w y k, s.look (find o) = .ok (w, y) ∧ keyOf y = .ok k
  relink : ∀ s₁ s₂ fs, R s₁ → Relinked es s₁ s₂ → Linked s₂ none fs none → fs.Perm es → R s₂
  first : ∀ s₁ s₂ fs, R s₁ → Linked s₁ none fs none → fs.Perm es → SetFirst v fs.head? s₁ s₂ → R s₂

/-- `sort_bykey` of the table `t`, with the value `v` and the entries `es`, ends, and has sorted it. -/
def SortsBykey (s : Store) (key : List Byte) (subtab : Option (List Byte)) (order : Int) (t : ObjId) (v : ValId)
    (es : List ObjId) : Prop :=
  ∃ n₀ s' es', (∀ n, n₀ ≤ n → (sortBykey n t key subtab order).run s = .ok () s') ∧ Kept s s' ∧ Listed s' v es' ∧
    es'.Perm es ∧ ((∀ o ∈ es, HoldsTable s o) → Settles (swapBykey key subtab order) s' es')

section Bykey

variable {s s' : Store} {key : List Byte} {subtab : Option (List Byte)} {order : Int} {v : ValId} {es : List ObjId}
  {find : ObjId → ObjId} {R : Store → Prop} {a b o : ObjId}

/-- The value of an object. -/
def valAt (s : Store) (o : ObjId) : Option Val := (s.look o).toOption.map Prod.snd

/-- The object holds a table. -/
def isTable (s : Store) (o : ObjId) : Bool := (valAt s o).map Val.type == some .table

/-- The key in an object. -/
def keyAt (s : Store) (o : ObjId) : Key := ((valAt s o).bind fun y => (keyOf y).toOption).getD (.text [])

/-- What `sort_bykey` finds of two entries, by their keys at the start. -/
def keyVerdict (s : Store) (order : Int) (find : ObjId → ObjId) (a b : ObjId) : Option Bool :=
  if isTable s a && isTable s b then some (keysSwap order (keyAt s (find a)) (keyAt s (find b))) else none

theorem valAt_look {y : Val} {w : ValId} (h : s.look o = .ok (w, y)) : valAt s o = some y := by
  rw [valAt, h]
  rfl

theorem isTable_look {y : Val} {w : ValId} (h : s.look o = .ok (w, y)) : isTable s o = (y.type == .table) := by
  rw [isTable, valAt_look h]
  rfl

theorem HoldsTable.isTable (h : HoldsTable s o) : isTable s o = true := by
  obtain ⟨w, y, hlook, htype⟩ := h
  rw [isTable_look hlook, htype]
  rfl

theorem keyVerdict_asymm (s : Store) (order : Int) (find : ObjId → ObjId) :
    Bubble.Asymmetric (keyVerdict s order find) := by
  intro a b h hback
  unfold keyVerdict at h hback
  split at h
  · split at hback
    · have hno := keysSwap_asymm (Option.some.inj h)
      rw [Option.some.inj hback] at hno
      cases hno
    · cases hback
  · cases h

/-- What is found of two entries is the same whenever it is asked. -/
theorem Steady.swap_run (order : Int) (hS : Steady s key subtab v es find R)
    (hlooks : ∀ o ∈ es, ∃ w y, s.look o = .ok (w, y)) (hR : R s') (hkept : Kept s s') (ha : a ∈ es) (hb : b ∈ es) :
    ∃ s'', (swapBykey key subtab order a b).run s' = .ok (keyVerdict s order find a b) s'' ∧ R s'' ∧
      ∀ Q, LookUps Q → Q s' s'' := by
  obtain ⟨va, ya, hlooka⟩ := hlooks a ha
  obtain ⟨vb, yb, hlookb⟩ := hlooks b hb
  obtain ⟨ya', hlooka', halikea⟩ := hkept.look hlooka
  obtain ⟨yb', hlookb', halikeb⟩ := hkept.look hlookb
  by_cases hta : ya.type = .table
  · by_cases htb : yb.type = .table
    · obtain ⟨s₁, hfinda, hR₁⟩ := hS.finds s' hR a ha ⟨va, ya, hlooka, hta⟩
      obtain ⟨s₂, hfindb, hR₂⟩ := hS.finds s₁ hR₁ b hb ⟨vb, yb, hlookb, htb⟩
      obtain ⟨wa, za, ka, hreada, hka⟩ := hS.reads a ha ⟨va, ya, hlooka, hta⟩
      obtain ⟨wb, zb, kb, hreadb, hkb⟩ := hS.reads b hb ⟨vb, yb, hlookb, htb⟩
      have hlookups : ∀ Q, LookUps Q → Q s' s₂ := fun Q hQ => hQ.trans _ _ _ (hQ.keyObj hfinda) (hQ.keyObj hfindb)
      have hmoved := hlookups Moved lookUps_moved
      obtain ⟨za', hreada', halikea'⟩ := (hkept.trans hmoved.2).look hreada
      obtain ⟨zb', hreadb', halikeb'⟩ := (hkept.trans hmoved.2).look hreadb
      refine ⟨s₂, ?_, hR₂, hlookups⟩
      rw [swapBykey_run hlooka' hlookb' (halikea.type.trans hta) (halikeb.type.trans htb) hfinda hfindb hreada' hreadb'
        (halikea'.key.trans hka) (halikeb'.key.trans hkb)]
      have hkeya : keyAt s (find a) = ka := by rw [keyAt, valAt_look hreada, Option.bind_some, hka]; rfl
      have hkeyb : keyAt s (find b) = kb := by rw [keyAt, valAt_look hreadb, Option.bind_some, hkb]; rfl
      rw [keyVerdict, isTable_look hlooka, isTable_look hlookb, hta, htb, if_pos (by simp), hkeya, hkeyb]
    · refine ⟨s', ?_, hR, fun Q hQ => hQ.refl s'⟩
      rw [swapBykey, Action.run_bind_ok (getVal_run hlooka'), halikea.type, if_neg (by simp [hta]),
        Action.run_bind_ok (getVal_run hlookb'), halikeb.type, if_pos htb, keyVerdict, isTable_look hlookb,
        if_neg (by simp [htb])]
      rfl
  · refine ⟨s', ?_, hR, fun Q hQ => hQ.refl s'⟩
    rw [swapBykey, Action.run_bind_ok (getVal_run hlooka'), halikea.type, if_pos hta, keyVerdict, isTable_look hlooka,
      if_neg (by simp [hta])]
    rfl

/-- The loops of `sort_bykey` can go over the entries. -/
theorem Steady.steps (order : Int) (hS : Steady s key subtab v es find R) (hstrung : Strung s v es)
    (hlooks : ∀ o ∈ es, ∃ w y, s.look o = .ok (w, y)) :
    Steps es (fun o => typeAt s o == .null) (fun _ => pure ()) (swapBykey key subtab order) (keyVerdict s order find)
      (fun s' => R s' ∧ Kept s s') fun _ _ => True where
  present s₁ h₁ o ho := hstrung.isnull h₁.2 ho
  ends o ho hnull n := by
    obtain ⟨w, y, hlook⟩ := hlooks o ho
    have hne : (y.type == .table) = false := by
      rw [typeAt_look hlook, beq_iff_eq] at hnull
      rw [hnull]
      rfl
    rw [keyVerdict, isTable_look hlook, hne]
    rfl
  visit s₁ h₁ c _ _ := ⟨s₁, rfl, h₁, fun o _ => ⟨rfl, id⟩, trivial⟩
  swap s₁ h₁ a ha _ b hb := by
    obtain ⟨s₂, hrun, hR₂, hlookups⟩ := hS.swap_run order hlooks h₁.1 h₁.2 ha hb
    have hmoved := hlookups Moved lookUps_moved
    exact ⟨s₂, hrun, ⟨hR₂, h₁.2.trans hmoved.2⟩, fun o _ => ⟨by rw [hmoved.1], id⟩⟩
  relink s₁ s₂ fs h₁ hre hlinked hperm :=
    ⟨⟨hS.relink s₁ s₂ fs h₁.1 hre hlinked hperm, h₁.2.trans hre.kept⟩, fun _ _ => id⟩

theorem Listed.looks (h : Listed s v es) : ∀ o ∈ es, ∃ w y, s.look o = .ok (w, y) := by
  intro o ho
  obtain ⟨w, y, hlook, -⟩ := h.full o ho
  exact ⟨w, y, hlook⟩

/-- `sort_bykey` ends, and the table is sorted then. -/
theorem sortsBykey (hlisted : Listed s v es) {t : ObjId} (hptr : s.ptr t = some v)
    (hS : Steady s key subtab v es find R) (order : Int) : SortsBykey s key subtab order t v es := by
  have hlook : ∀ s₁, R s₁ ∧ Kept s s₁ → ∃ y f i l, s₁.look t = .ok (v, y) ∧ y.type = .table ∧
      y.d.asTable = .ok (f, i, l) := by
    rintro s₁ ⟨-, hkept⟩
    obtain ⟨y, i, l, hy, htype, hd⟩ := hlisted.table
    obtain ⟨y', hlook', halike⟩ := hkept.look (Store.look_of_ptr hptr hy)
    obtain ⟨f', i', l', hd'⟩ := halike.table hd
    exact ⟨y', f', i', l', hlook', halike.type.trans htype, hd'⟩
  have hinv := Bubble.inversions_le (keyVerdict s order find) es
  obtain ⟨es', s₁, s', hrun, hex, hlinked, ⟨hR₁, hkept₁⟩, hfirst, -, hdone⟩ :=
    (hS.steps order hlisted.strung hlisted.looks).table_run (keyVerdict_asymm s order find) hlook hlisted.strung
      ⟨hS.start, .refl s⟩ (n := es.length + es.length * es.length + 1) (by omega) (by omega)
  have hperm := hex.perm
  have hkept := hkept₁.trans hfirst.kept
  have hR := hS.first s₁ s' es' hR₁ hlinked hperm hfirst
  refine ⟨es.length + es.length * es.length + 1, s', es', ?_, hkept,
    (hlisted.strung.of_setFirst hkept₁ hlinked hperm hfirst).listed hlisted hkept hperm, hperm, fun htables => ?_⟩
  · exact fun n hn => sortTable_extends (fun _ => .refl _) hn t s () s' hrun
  · have hsettled := (hdone (by
      intro a ha b hb
      rw [keyVerdict, (htables a ha).isTable, (htables b hb).isTable]
      simp)).1
    refine Settles.of_settled (fun a ha b hb => ?_) hsettled
    obtain ⟨s'', hswap, -⟩ := hS.swap_run order hlisted.looks hR hkept (hperm.subset ha) (hperm.subset hb)
    exact ⟨s'', hswap⟩

end Bykey

/-! ### Entries that are plain tables -/

/-- The entry `o` is a sorted table without a parent, whose names stand in order around the key, so that the cursor
makes no difference. -/
structure Row (s : Store) (key : List Byte) (v : ValId) (es : List ObjId) (o : ObjId) (w : ValId) (fs : List Entry) :
    Prop where
  rep : TableRep s o w fs
  slot : o ≠ retObj
  other : w ≠ v
  apart : ∀ e ∈ fs, e.obj ∉ es
  order : fs.Pairwise fun a b => 0 ≤ entryCmp key a → 0 < entryCmp key b
  reads : ∀ e ∈ fs, ∃ u y k, s.look e.obj = .ok (u, y) ∧ keyOf y = .ok k

/-- The entry of a key among others. -/
def rowEntry (key : List Byte) (fs : List Entry) : ObjId :=
  ((fs.find? fun e => entryCmp key e = 0).map Entry.obj).getD nullObj

section Rows

variable {s s' : Store} {key : List Byte} {v w : ValId} {es : List ObjId} {fs : ValId → List Entry} {l : List Entry}
  {o : ObjId}

theorem rowEntry_of_hit (horder : l.Pairwise fun a b => 0 ≤ entryCmp key a → 0 < entryCmp key b) {e : Entry}
    (he : e ∈ l) (hzero : entryCmp key e = 0) : rowEntry key l = e.obj := by
  have hfind : l.find? (fun e => entryCmp key e = 0) = some e := by
    induction l with
    | nil => cases he
    | cons a l ih =>
        obtain ⟨hfirst, hrest⟩ := List.pairwise_cons.mp horder
        rcases List.mem_cons.mp he with rfl | he
        · exact List.find?_cons_of_pos (by simpa using hzero)
        · have hne : entryCmp key a ≠ 0 := by
            intro ha
            have hpos := hfirst e he (by omega)
            omega
          rw [List.find?_cons_of_neg (by simpa using hne)]
          exact ih hrest he
  rw [rowEntry, hfind]
  rfl

theorem rowEntry_of_between (horder : l.Pairwise fun a b => 0 ≤ entryCmp key a → 0 < entryCmp key b)
    {A B : List Entry} (hl : l = A ++ B) (h : Between key A B) : rowEntry key l = nullObj := by
  obtain ⟨hA, hB, hAB⟩ := List.pairwise_append.mp (hl ▸ horder)
  have hnone : l.find? (fun e => entryCmp key e = 0) = none := by
    rw [List.find?_eq_none, hl]
    intro e he hzero
    have hzero : entryCmp key e = 0 := by simpa using hzero
    rcases List.mem_append.mp he with he | he
    · -- the last entry of `A` is below the key, and behind `e` it would be above it
      obtain ⟨A', a, rfl⟩ : ∃ A' a, A = A' ++ [a] := ⟨_, _, (List.dropLast_append_getLast (List.ne_nil_of_mem he)).symm⟩
      have hlow := h.1 a (by simp)
      rcases List.mem_append.mp he with he | he
      · have hpos := (List.pairwise_append.mp hA).2.2 e he a (by simp) (by omega)
        omega
      · obtain rfl := List.mem_singleton.mp he
        omega
    · cases B with
      | nil => cases he
      | cons b B =>
          have hhigh := h.2 b rfl
          rcases List.mem_cons.mp he with rfl | he
          · omega
          · have hpos := (List.pairwise_cons.mp hB).1 e he (by omega)
            omega
  rw [rowEntry, hnone]
  rfl

/-- The memories that a sort of such a table goes through. -/
structure InRows (s : Store) (es : List ObjId) (fs : ValId → List Entry) (s' : Store) : Prop where
  kept : Kept s s'
  objsNext : s'.objs.next = s.objs.next
  valsNext : s'.vals.next = s.vals.next
  outside : ∀ o, o ∉ es → s'.objs.get o = s.objs.get o
  lists : ∀ o ∈ es, HoldsTable s o → ∀ w y, s'.look o = .ok (w, y) → y.d.Lists (fs w)

/-- The tables can be searched in them. -/
theorem Row.searchable (hrow : Row s key v es o w (fs w)) (ho : o ∈ es) (ht : HoldsTable s o) :
    Searchable o (fs w) (InRows s es fs) where
  look s' h := by
    obtain ⟨y, hlook, hy⟩ := hrow.rep.look
    obtain ⟨y', hlook', halike⟩ := h.kept.look hlook
    exact ⟨w, y', hlook', halike.autosort.trans hy.autosort, h.lists o ho ht w y' hlook'⟩
  linked s' h pre e post hsplit := by
    obtain ⟨x, hx, hat⟩ := hrow.rep.linked pre e post hsplit
    exact ⟨x, (h.outside e.obj (hrow.apart e (by simp [hsplit]))).trans hx, hat⟩
  short s' h := by
    rw [h.objsNext, h.valsNext]
    exact hrow.rep.length_lt
  cursor s' h e he := by
    obtain ⟨y, hlook, hy⟩ := hrow.rep.look
    obtain ⟨y', hlook', halike⟩ := h.kept.look hlook
    obtain ⟨i, hd, -⟩ := h.lists o ho ht w y' hlook'
    have hrun : (setCursor o e.obj).run s' = _ := modTable_run hlook' hd
    have hmoved := setCursor_moved ⟨w, y', hlook', halike.type.trans hy.type⟩ hrun
    refine ⟨_, hrun, h.kept.trans hmoved.2, h.objsNext, h.valsNext, h.outside, fun p hp htp u z hlookp => ?_⟩
    obtain ⟨hptr, hz⟩ := Store.ptr_of_look hlookp
    by_cases hu : u = w
    · subst hu
      rw [Cells.get_modify_self, (Store.ptr_of_look hlook').2, Option.map_some] at hz
      obtain rfl := Option.some.inj hz
      exact ⟨some e.obj, rfl, fun _ q hq => ⟨e, he, Option.some.inj hq⟩⟩
    · rw [Cells.get_modify_of_ne _ hu] at hz
      exact h.lists p hp htp u z (Store.look_of_ptr hptr hz)

/-- A change that leaves the values of the rows. -/
theorem InRows.step {s₁ s₂ : Store} (h : InRows s es fs s₁) (hkept : Kept s₁ s₂)
    (hrows : ∀ o ∈ es, HoldsTable s o → ∃ w, Row s key v es o w (fs w)) (hobjs : s₂.objs.next = s₁.objs.next)
    (hnext : s₂.vals.next = s₁.vals.next) (hout : ∀ o, o ∉ es → s₂.objs.get o = s₁.objs.get o)
    (hvals : ∀ w, w ≠ v → s₂.vals.get w = s₁.vals.get w) : InRows s es fs s₂ := by
  refine ⟨h.kept.trans hkept, hobjs.trans h.objsNext, hnext.trans h.valsNext,
    fun o ho => (hout o ho).trans (h.outside o ho), fun o ho ht w y hlook => ?_⟩
  obtain ⟨w', hrow⟩ := hrows o ho ht
  obtain ⟨hptr, hy⟩ := Store.ptr_of_look hlook
  have hptr₁ : s₁.ptr o = some w := (hkept.ptr o).symm.trans hptr
  obtain rfl : w' = w := Option.some.inj ((hrow.rep.ptr.symm.trans (h.kept.ptr o).symm).trans hptr₁)
  rw [hvals w' hrow.other] at hy
  exact h.lists o ho ht w' y (Store.look_of_ptr hptr₁ hy)

/-- The keys of such a table are found, wherever the cursors stand. -/
theorem steady_of_rows (hnull : ∃ u y k, s.look nullObj = .ok (u, y) ∧ keyOf y = .ok k)
    (hrows : ∀ o ∈ es, HoldsTable s o → ∃ w, Row s key v es o w (fs w)) :
    Steady s key none v es (fun o => rowEntry key (fs ((s.ptr o).getD 0))) (InRows s es fs) where
  start := by
    refine ⟨.refl s, rfl, rfl, fun _ _ => rfl, fun o ho ht w y hlook => ?_⟩
    obtain ⟨w', hrow⟩ := hrows o ho ht
    obtain ⟨y', hlook', hy'⟩ := hrow.rep.look
    obtain ⟨rfl, rfl⟩ : w' = w ∧ y' = y := by simpa using hlook'.symm.trans hlook
    exact hy'.links
  finds s₁ h o ho ht := by
    obtain ⟨w, hrow⟩ := hrows o ho ht
    obtain ⟨y, hlook, hy⟩ := hrow.rep.look
    have hz : ∀ s₂, InRows s es fs s₂ → ∃ v y, s₂.look o = .ok (v, y) ∧ y.type = .table ∧ y.ztable = none := by
      intro s₂ h₂
      obtain ⟨y₂, hlook₂, halike⟩ := h₂.kept.look hlook
      exact ⟨w, y₂, hlook₂, halike.type.trans hy.type, halike.ztable.trans hy.ztable⟩
    obtain ⟨p, s₂, hrun, h₂, -, hfound⟩ := nspGetobj_search (hrow.searchable ho ht) hz h hrow.slot key
    refine ⟨s₂, ?_, h₂⟩
    rw [hrow.rep.ptr, Option.getD_some]
    rcases hfound with ⟨e, he, hzero, rfl⟩ | ⟨rfl, A, B, hsplit, hbetween⟩
    · rw [rowEntry_of_hit hrow.order he hzero]
      exact hrun
    · rw [rowEntry_of_between hrow.order hsplit hbetween]
      exact hrun
  reads o ho ht := by
    obtain ⟨w, hrow⟩ := hrows o ho ht
    rw [hrow.rep.ptr, Option.getD_some, rowEntry]
    cases hfind : (fs w).find? fun e => entryCmp key e = 0 with
    | none => exact hnull
    | some e => exact hrow.reads e (List.mem_of_find?_eq_some hfind)
  relink s₁ s₂ _ h hre _ _ :=
    h.step hre.kept hrows hre.next (by rw [hre.rest]) hre.outside fun w _ => by rw [hre.rest]
  first s₁ s₂ _ h _ _ hfirst :=
    h.step hfirst.kept hrows (by rw [hfirst.objs]) hfirst.next (fun o _ => by rw [hfirst.objs]) hfirst.vals

end Rows

/-! ### Some memories -/

/-- The memory with the null object, `N->g`, `N->r` and the objects and values behind them. -/
def memoryOf (objs : List Obj) (vals : List Val) : Store where
  objs := objs.foldl Cells.alloc
    (((Cells.empty.alloc { val := some 0 }).alloc { val := some 1 }).alloc { val := some 2 })
  vals := vals.foldl Cells.alloc
    (((Cells.empty.alloc { type := .null }).alloc { type := .table }).alloc { type := .null })
  locals := globalObj

/-- An entry with the value `v`. -/
def entryObj (name : String) (v : ValId) (prev next : Option ObjId) : Obj :=
  Obj.setname { val := some v, prev := prev, next := next } (bytes name)

/-- A sorted table. -/
def tableVal (f i l : Option ObjId) : Val := { type := .table, autosort := true, d := .table f i l }

/-- A table with two entries. -/
theorem listed_pair {s : Store} {v : ValId} {y : Val} {i l : Option ObjId} {a b : ObjId} {va vb : ValId} {ya yb : Val}
    (hv : s.vals.get v = some y) (htype : y.type = .table) (hd : y.d.asTable = .ok (some a, i, l))
    (ha : ∃ x, s.objs.get a = some x ∧ x.prev = none ∧ x.next = some b)
    (hb : ∃ x, s.objs.get b = some x ∧ x.prev = some a ∧ x.next = none) (hne : a ≠ b) (hva : s.look a = .ok (va, ya))
    (hvb : s.look b = .ok (vb, yb)) (hya : ya.type ≠ .null) (hyb : yb.type ≠ .null) : Listed s v [a, b] := by
  refine ⟨⟨y, i, l, hv, htype, hd⟩, ⟨ha, hb, trivial⟩, by simpa using hne, ?_⟩
  simp only [List.mem_cons, List.not_mem_nil, or_false]
  rintro o (rfl | rfl)
  · exact ⟨va, ya, hva, hya⟩
  · exact ⟨vb, yb, hvb, hyb⟩

theorem holds_pair {s : Store} {a b : ObjId} (ha : HoldsTable s a) (hb : HoldsTable s b) :
    ∀ o ∈ [a, b], HoldsTable s o := by
  simp only [List.mem_cons, List.not_mem_nil, or_false]
  rintro o (rfl | rfl)
  · exact ha
  · exact hb

/-- A table with the entries `b` and `a`; `b` is a table with the entries `10` and `9`. -/
def nested : Store :=
  memoryOf [{ val := some 3 }, entryObj "b" 4 none (some 5), entryObj "a" 5 (some 4) none,
      entryObj "10" 6 none (some 7), entryObj "9" 7 (some 6) none]
    [tableVal (some 4) none (some 5), tableVal (some 6) none (some 7), { type := .number }, { type := .number },
      { type := .number }]

/-- The lists of its two tables. -/
def nestedLists (v : ValId) : Option (List ObjId) := if v = 3 then some [4, 5] else if v = 4 then some [6, 7] else none

theorem nest_nested : Nest nested 1 nestedLists fun v => if v = 3 then 1 else 0 := by
  have hlists : ∀ {v es}, nestedLists v = some es → v = 3 ∧ es = [4, 5] ∨ v = 4 ∧ es = [6, 7] := by
    intro v es h
    unfold nestedLists at h
    split at h
    · exact .inl ⟨‹_›, (Option.some.inj h).symm⟩
    · split at h
      · exact .inr ⟨‹_›, (Option.some.inj h).symm⟩
      · cases h
  refine ⟨?_, ?_, ?_⟩
  · intro v es h
    rcases hlists h with ⟨rfl, rfl⟩ | ⟨rfl, rfl⟩
    · exact listed_pair rfl rfl rfl ⟨_, rfl, rfl, rfl⟩ ⟨_, rfl, rfl, rfl⟩ (by decide) rfl rfl (by decide) (by decide)
    · exact listed_pair rfl rfl rfl ⟨_, rfl, rfl, rfl⟩ ⟨_, rfl, rfl, rfl⟩ (by decide) rfl rfl (by decide) (by decide)
  · intro v w es fs hv hw hne o ho
    rcases hlists hv with ⟨rfl, rfl⟩ | ⟨rfl, rfl⟩ <;> rcases hlists hw with ⟨rfl, rfl⟩ | ⟨rfl, rfl⟩
    · exact absurd rfl hne
    · revert o
      decide
    · revert o
      decide
    · exact absurd rfl hne
  · rintro v es h o ho w ⟨-, ⟨y, hlook, htype⟩, -⟩
    rcases hlists h with ⟨rfl, rfl⟩ | ⟨rfl, rfl⟩ <;> rcases List.mem_pair.mp ho with rfl | rfl
    · cases hlook
      exact ⟨rfl, by decide⟩
    all_goals
      cases hlook
      cases htype

/-- A table with the entries `a` and `b`; both are tables with the entry `k`, that of `a` being greater. -/
def twoRows : Store :=
  memoryOf [{ val := some 3 }, entryObj "a" 4 none (some 5), entryObj "b" 5 (some 4) none, entryObj "k" 6 none none,
      entryObj "k" 7 none none]
    [tableVal (some 4) none (some 5), tableVal (some 6) (some 6) (some 6), tableVal (some 7) (some 7) (some 7),
      { type := .number, d := .num 2 }, { type := .number, d := .num 1 }]

/-- The entries of its rows. -/
def rowEntries (w : ValId) : List Entry :=
  if w = 4 then [⟨6, 6, bytes "k", ⟨.number, 0, .num 2⟩⟩] else [⟨7, 7, bytes "k", ⟨.number, 0, .num 1⟩⟩]

/-- A sorted table with one entry. -/
theorem tableRep_single {s : Store} {o : ObjId} {w : ValId} {e : Entry} {y : Val} {x : Obj} (hptr : s.ptr o = some w)
    (hw : s.vals.get w = some (tableVal (some e.obj) (some e.obj) (some e.obj))) (hx : s.objs.get e.obj = some x)
    (hat : e.At [] [] x) (hy : s.vals.get e.val = some y) (hz : y.ztable = none) (hc : y.content = e.content)
    (hne : e.val ≠ w) : TableRep s o w [e] := by
  refine ⟨hptr, ⟨_, hw, rfl, rfl, rfl, some e.obj, rfl, ?_⟩, ?_, ?_, by simp, by simp, by simpa using hne⟩
  · rintro - q hq
    exact ⟨e, by simp, Option.some.inj hq⟩
  · intro pre d post hsplit
    cases pre with
    | nil =>
        obtain ⟨rfl, rfl⟩ : e = d ∧ [] = post := by simpa using hsplit
        exact ⟨x, hx, hat⟩
    | cons a pre => simp at hsplit
  · intro d hd
    obtain rfl := List.mem_singleton.mp hd
    exact ⟨y, hy, hz, hc⟩

theorem listed_twoRows : Listed twoRows 3 [4, 5] :=
  listed_pair rfl rfl rfl ⟨_, rfl, rfl, rfl⟩ ⟨_, rfl, rfl, rfl⟩ (by decide) rfl rfl (by decide) (by decide)

theorem row_twoRows : ∀ o ∈ [4, 5], HoldsTable twoRows o →
    ∃ w, Row twoRows (bytes "k") 3 [4, 5] o w (rowEntries w) := by
  simp only [List.mem_cons, List.not_mem_nil, or_false]
  rintro o (rfl | rfl) -
  · refine ⟨4, tableRep_single rfl rfl rfl ⟨rfl, rfl, rfl, rfl, rfl⟩ rfl rfl rfl (by decide), by decide, by decide, ?_,
      List.pairwise_singleton _ _, ?_⟩
    · decide
    · rintro e he
      obtain rfl := List.mem_singleton.mp he
      exact ⟨_, _, _, rfl, rfl⟩
  · refine ⟨5, tableRep_single rfl rfl rfl ⟨rfl, rfl, rfl, rfl, rfl⟩ rfl rfl rfl (by decide), by decide, by decide, ?_,
      List.pairwise_singleton _ _, ?_⟩
    · decide
    · rintro e he
      obtain rfl := List.mem_singleton.mp he
      exact ⟨_, _, _, rfl, rfl⟩

/-! ### Both sorts -/

/-- `sort_byname` ends and sorts a table of any depth, with those inside of it; `sort_bykey` ends and sorts a table
whose keys are found. -/
theorem tables_sorted :
    (∀ {s recurse L depth v t}, Nest s recurse L depth → s.ptr t = some v → (L v).isSome →
      ∀ order, SortsByname s recurse order L t v) ∧
    (∀ {s key subtab v es find R t}, Listed s v es → s.ptr t = some v → Steady s key subtab v es find R →
      ∀ order, SortsBykey s key subtab order t v es) :=
  ⟨fun hN hptr hv order => sortsByname hN hptr hv order, fun hlisted hptr hS order => sortsBykey hlisted hptr hS order⟩

theorem tables_sorted_examples :
    SortsByname nested 1 1 nestedLists 3 3 ∧ SortsBykey twoRows (bytes "k") none 1 3 3 [4, 5] :=
  ⟨tables_sorted.1 nest_nested rfl rfl 1,
    tables_sorted.2 listed_twoRows rfl (steady_of_rows ⟨_, _, _, rfl, rfl⟩ row_twoRows) 1⟩

/-! ### Keys that are not found -/

section Fails

variable {s : Store} {key : List Byte} {subtab : Option (List Byte)} {order : Int} {t : ObjId} {v : ValId}
  {es : List ObjId} {a b : ObjId}

/-- A sort whose first comparison fails does not end. -/
theorem not_sortsBykey_of_error (hlisted : Listed s v (a :: b :: es)) (hptr : s.ptr t = some v) {e : Fault} {s₁ : Store}
    (hswap : (swapBykey key subtab order a b).run s = .error e s₁) {fs : List ObjId} :
    ¬ SortsBykey s key subtab order t v fs := by
  rintro ⟨n, s', -, hrun, -⟩
  obtain ⟨y, i, l, hy, htype, hd⟩ := hlisted.table
  obtain ⟨x, hx, -, hnext⟩ := hlisted.linked.1
  have hnull := hlisted.present (.refl s) (o := a) (by simp)
  have hpass : ∀ m, (sortPass (fun _ => pure ()) (swapBykey key subtab order) (m + 1) a false (some a)).run s =
      .error e s₁ := by
    intro m
    rw [sortPass, Action.run_bind_ok hnull, if_neg (by simp), Action.run_bind_ok (Action.run_pure _ _),
      Action.run_bind_ok (getObj_run hx), hnext]
    exact Action.run_bind_error hswap
  have hloop : ∀ m k, (sortLoop (fun _ => pure ()) (swapBykey key subtab order) (m + 1) (k + 1) (some a)).run s =
      .error e s₁ := by
    intro m k
    rw [sortLoop, Action.run_bind_ok hnull, if_neg (by simp)]
    exact Action.run_bind_error (hpass m)
  have hfail : (sortBykey (n + 1) t key subtab order).run s = .error e s₁ := by
    rw [sortBykey, sortTable, Action.run_bind_ok (getVal_run (Store.look_of_ptr hptr hy)), hd,
      Action.run_bind_ok (member_run _ _)]
    exact Action.run_bind_error (hloop n n)
  rw [hrun (n + 1) (Nat.le_succ n)] at hfail
  cases hfail

/-- A sort that ends ends with the same memory for more fuel. -/
theorem SortsBykey.of_run (h : SortsBykey s key subtab order t v es) {n : Nat} {s' : Store}
    (hrun : (sortBykey n t key subtab order).run s = .ok () s') : ∃ es', Kept s s' ∧ Listed s' v es' ∧
      es'.Perm es ∧ ((∀ o ∈ es, HoldsTable s o) → Settles (swapBykey key subtab order) s' es') := by
  obtain ⟨n₀, s₁, es', hrun₁, hkept, hlisted, hperm, hsettles⟩ := h
  have hmore := sortTable_extends (fun _ => .refl _) (Nat.le_max_left n n₀) t s () s' hrun
  have heq := (hrun₁ (max n n₀) (Nat.le_max_right n n₀)).symm.trans hmore
  obtain rfl : s₁ = s' := by
    cases heq
    rfl
  exact ⟨es', hkept, hlisted, hperm, hsettles⟩

end Fails

/-- A table with the entries `a` and `b`, which are tables without entries; `a` is its own parent. -/
def ownParent : Store :=
  memoryOf [{ val := some 3 }, entryObj "a" 4 none (some 5), entryObj "b" 5 (some 4) none,
      Obj.setname { val := some 6 } (bytes "z"), entryObj "0" 4 none none]
    [tableVal (some 4) none (some 5), { type := .table, autosort := true, refs := 2, ztable := some 6 },
      tableVal none none none, { type := .table, d := .table (some 7) none (some 7) }]

/-- A table with the entries `a` and `b`. The entry `5x` of `b` is the table `a`, which has the entries `5x`, `10` and
`11`, with the cursor on the first. -/
def movedCursor : Store :=
  memoryOf [{ val := some 3 }, entryObj "a" 4 none (some 5), entryObj "b" 5 (some 4) none,
      entryObj "5x" 6 none (some 7), entryObj "10" 7 (some 6) (some 8), entryObj "11" 8 (some 7) none,
      entryObj "5x" 4 none none, entryObj "11" 9 none none]
    [tableVal (some 4) none (some 5), tableVal (some 6) (some 6) (some 8), tableVal (some 9) (some 9) (some 9),
      tableVal (some 10) (some 10) (some 10), { type := .number },
      { type := .string, size := 1, d := .str (bytes "m") }, { type := .string, size := 1, d := .str (bytes "a") }]

theorem listed_ownParent : Listed ownParent 3 [4, 5] :=
  listed_pair rfl rfl rfl ⟨_, rfl, rfl, rfl⟩ ⟨_, rfl, rfl, rfl⟩ (by decide) rfl rfl (by decide) (by decide)

theorem listed_movedCursor : Listed movedCursor 3 [4, 5] :=
  listed_pair rfl rfl rfl ⟨_, rfl, rfl, rfl⟩ ⟨_, rfl, rfl, rfl⟩ (by decide) rfl rfl (by decide) (by decide)

theorem holds_ownParent : ∀ o ∈ [4, 5], HoldsTable ownParent o :=
  holds_pair ⟨_, _, rfl, rfl⟩ ⟨_, _, rfl, rfl⟩

theorem holds_movedCursor : ∀ o ∈ [4, 5], HoldsTable movedCursor o :=
  holds_pair ⟨_, _, rfl, rfl⟩ ⟨_, _, rfl, rfl⟩

/-- The action fails. -/
def fails {α : Type} (x : H α) (s : Store) : Bool :=
  match x.run s with
  | .ok _ _ => false
  | .error _ _ => true

theorem error_of_fails {α : Type} {x : H α} {s : Store} (h : fails x s = true) : ∃ e s', x.run s = .error e s' := by
  unfold fails at h
  cases hrun : x.run s with
  | ok a s' =>
      rw [hrun] at h
      cases h
  | error e s' => exact ⟨e, s', rfl⟩

/-- What `sort_bykey` finds of `a` and `b` when it is asked again after the sort, and the first entry then. -/
def askAgain (s : Store) (n : Nat) (t : ObjId) (key : List Byte) (subtab : Option (List Byte)) (order : Int)
    (a b : ObjId) : Option (Option ObjId × Option Bool) :=
  match (do
    sortBykey n t key subtab order
    let f ← firstOf t
    let found ← swapBykey key subtab order a b
    return (f, found) : H (Option ObjId × Option Bool)).run s with
  | .ok r _ => some r
  | .error _ _ => none

theorem askAgain_run {s : Store} {n : Nat} {t : ObjId} {key : List Byte} {subtab : Option (List Byte)} {order : Int}
    {a b : ObjId} {f : Option ObjId} {found : Option Bool} (h : askAgain s n t key subtab order a b = some (f, found)) :
    ∃ s' s'', (sortBykey n t key subtab order).run s = .ok () s' ∧ (firstOf t).run s' = .ok f s' ∧
      (swapBykey key subtab order a b).run s' = .ok found s'' := by
  unfold askAgain at h
  split at h
  · rename_i r s₃ hrun
    obtain rfl := Option.some.inj h
    obtain ⟨u, s', hsort, hrest⟩ := Action.bind_run_eq_ok.mp hrun
    obtain ⟨f', s₁, hfirst, hrest⟩ := Action.bind_run_eq_ok.mp hrest
    obtain ⟨found', s'', hswap, hrest⟩ := Action.bind_run_eq_ok.mp hrest
    cases hrest
    obtain ⟨y, hy, hmember⟩ := Action.require_bind_run_eq_ok.mp hfirst
    obtain ⟨d, hd, hmember⟩ := Action.require_bind_run_eq_ok.mp hmember
    cases hmember
    exact ⟨s', s₃, hsort, hfirst, hswap⟩
  · cases h

/-- A look-up that does not end, and one that finds something else when it is made again. -/
theorem not_sortsBykey :
    (Listed ownParent 3 [4, 5] ∧ ownParent.ptr 3 = some 3 ∧ (∀ o ∈ [4, 5], HoldsTable ownParent o) ∧
      ¬ SortsBykey ownParent (bytes "k") none 1 3 3 [4, 5]) ∧
    (Listed movedCursor 3 [4, 5] ∧ movedCursor.ptr 3 = some 3 ∧ (∀ o ∈ [4, 5], HoldsTable movedCursor o) ∧
      ¬ SortsBykey movedCursor (bytes "11") (some (bytes "5x")) 1 3 3 [4, 5]) := by
  refine ⟨⟨listed_ownParent, rfl, holds_ownParent, ?_⟩, ⟨listed_movedCursor, rfl, holds_movedCursor, ?_⟩⟩
  · obtain ⟨e, s₁, hswap⟩ :=
      error_of_fails (x := swapBykey (bytes "k") none 1 4 5) (s := ownParent) (by decide +kernel)
    exact not_sortsBykey_of_error listed_ownParent rfl hswap
  · intro h
    have hask : askAgain movedCursor 4 3 (bytes "11") (some (bytes "5x")) 1 4 5 = some (some 4, some true) := by
      decide +kernel
    obtain ⟨s', s'', hrun, hfirst, hswap⟩ := askAgain_run hask
    obtain ⟨es', hkept, hlisted, hperm, hsettles⟩ := h.of_run hrun
    obtain ⟨y, i, l, hy, -, hd⟩ := hlisted.table
    have hlook : s'.look 3 = .ok (3, y) := Store.look_of_ptr (hkept.ptr 3) hy
    rw [firstOf, Action.run_bind_ok (getVal_run hlook), hd, Action.run_bind_ok (member_run _ _)] at hfirst
    cases es' with
    | nil => cases hfirst
    | cons c l =>
        obtain rfl : c = 4 := by
          cases hfirst
          rfl
        obtain rfl := List.perm_singleton.mp (List.Perm.cons_inv hperm)
        obtain ⟨s₃, hkeep⟩ := hsettles holds_movedCursor [] 4 5 [] rfl
        rw [hswap] at hkeep
        cases hkeep

end NullG.Libs.Sort
