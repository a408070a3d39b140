/-
Appends and look-ups on a table that is a list of objects.

`nsp_appendobj` links its entry behind `table.l`, and `n_locateobj` goes through the list from `table.f`, or in a
sorted table in both directions from the cursor. So a table stays as it should be if `table.l` is the last entry of
the list (`Chain`), and an entry is found by its name if no entry before it ends the search and, in a sorted table,
those behind it turn the search back (`Before`). Under both, appends in order and look-ups of any names leave a table
in which every entry is found (`Chained.stays`).
-/

import NullG.Libs.SortBykey
import NullG.Nsp.Append

namespace NullG.Libs.Sort

open NullG.Nsp NullG.Lib

/-! ### Comparisons -/

/-- The comparison of an entry with the name `k`. -/
def compareTo (k : List Byte) (x : Obj) : Int := locateCmp (nameNval k) k x

/-- The entry `x` may stand before `y`: a search for `y` goes past `x`, and in a sorted table one for `x` turns back
at `y`. -/
def Before (sortattr : Bool) (x y : Obj) : Prop :=
  ¬ BreaksAt sortattr (compareTo y.name x) ∧ (sortattr → 0 < compareTo x.name y)

instance (sortattr : Bool) (c : Int) : Decidable (BreaksAt sortattr c) := inferInstanceAs (Decidable (_ ∨ _))

instance (sortattr : Bool) (x y : Obj) : Decidable (Before sortattr x y) := inferInstanceAs (Decidable (_ ∧ _))

/-- The object `o` without its links. -/
def bodyAt (s : Store) (o : ObjId) : Obj := body ((s.objs.get o).getD {})

section Search

variable {α : Type} {obj : α → ObjId} {cmp : α → Int} {os A B P S pre post : List α} {e o : α} {t : ObjId}
  {R : Store → Prop} {s : Store} {k : List Byte} {b : Bool}

/-- A list has one place at which a search for the first element with `p` ends. -/
theorem split_unique {p : α → Prop} (h : A ++ B = P ++ o :: S) (hA : ∀ a ∈ A, ¬ p a) (hB : ∀ b ∈ B.head?, p b)
    (hP : ∀ a ∈ P, ¬ p a) (ho : p o) : B = o :: S := by
  induction A generalizing P with
  | nil =>
      cases P with
      | nil => exact h
      | cons a P =>
          obtain rfl : B = a :: (P ++ o :: S) := h
          exact absurd (hB a rfl) (hP a List.mem_cons_self)
  | cons a A ih =>
      cases P with
      | nil =>
          obtain ⟨rfl, -⟩ := List.cons.inj h
          exact absurd ho (hA a List.mem_cons_self)
      | cons d P =>
          obtain ⟨-, h⟩ := List.cons.inj h
          exact ih h (fun x hx => hA x (List.mem_cons_of_mem a hx)) fun x hx => hP x (List.mem_cons_of_mem d hx)

/-- The entry `o` is where a search ends wherever it starts: no entry before it ends the search, and in a sorted table
those behind it lie above the name. -/
def Target (b : Bool) (cmp : α → Int) (os : List α) (o : α) : Prop :=
  ∃ P S, os = P ++ o :: S ∧ cmp o = 0 ∧ (∀ a ∈ P, ¬ BreaksAt b (cmp a)) ∧ (b → ∀ a ∈ S, 0 < cmp a)

theorem breaksAt_zero (b : Bool) : BreaksAt b 0 := .inl rfl

/-- Seen from an entry that is not above it, or from the first one, the target is ahead. -/
theorem Target.ahead (h : Target b cmp os o) (hos : os = pre ++ e :: post) (hpre : b = false → pre = [])
    (he : b → cmp e ≤ 0) :
    ∃ P S, e :: post = P ++ o :: S ∧ cmp o = 0 ∧ ∀ a ∈ P, ¬ BreaksAt b (cmp a) := by
  obtain ⟨P, S, hsplit, hzero, hP, hS⟩ := h
  rcases List.append_eq_append_iff.mp (hos.symm.trans hsplit) with ⟨as, rfl, hrest⟩ | ⟨bs, rfl, hrest⟩
  · exact ⟨as, S, hrest, hzero, fun a ha => hP a (List.mem_append_right _ ha)⟩
  · cases bs with
    | nil => exact ⟨[], S, hrest.symm, hzero, nofun⟩
    | cons d bs =>
        obtain ⟨rfl, rfl⟩ := List.cons.inj hrest
        cases b with
        | false => exact absurd (hpre rfl) (by simp)
        | true =>
            have hpos := hS rfl e (by simp)
            have hle := he rfl
            omega

/-- Seen from an entry above it, the target is behind. -/
theorem Target.behind (h : Target true cmp os o) (hos : os = pre ++ e :: post) (he : 0 < cmp e) :
    ∃ P S, pre ++ [e] = P ++ o :: S ∧ cmp o = 0 ∧ ∀ a ∈ S, 0 < cmp a := by
  obtain ⟨P, S, hsplit, hzero, hP, hS⟩ := h
  rcases List.append_eq_append_iff.mp (hos.symm.trans hsplit) with ⟨as, rfl, hrest⟩ | ⟨bs, rfl, hrest⟩
  · cases as with
    | nil =>
        obtain ⟨rfl, -⟩ := List.cons.inj hrest
        omega
    | cons d as =>
        obtain ⟨rfl, -⟩ := List.cons.inj hrest
        have hlow := not_breaksAt_true.mp (hP e (by simp))
        omega
  · cases bs with
    | nil =>
        obtain ⟨rfl, -⟩ := List.cons.inj hrest
        omega
    | cons d bs =>
        obtain ⟨rfl, rfl⟩ := List.cons.inj hrest
        refine ⟨P, bs ++ [e], by simp, hzero, fun a ha => hS rfl a ?_⟩
        have hmem : a ∈ bs ++ e :: post := by
          rw [List.append_cons]
          exact List.mem_append_left _ ha
        exact hmem

/-- A search from the entry `e` ends, and it ends at the target. -/
theorem search_run (hW : Walked t obj (locateCmp (nameNval k) k) cmp os R) (hR : R s) (hos : os = pre ++ e :: post)
    (hpre : b = false → pre = []) {n : Nat} (hn : os.length < n) {c : Int} (hc : c = if b then cmp e else -1) :
    ∃ r s', (searchFrom t k b false n (some (obj e)) c).run s = .ok r s' ∧ R s' ∧
      ∀ o, Target b cmp os o → ∃ q, r = some (0, some (obj o), q) := by
  have hlen : (e :: post).length < n := by
    rw [hos, List.length_append] at hn
    omega
  rw [searchFrom]
  by_cases hneg : c < 0
  · rw [if_pos hneg]
    obtain ⟨A, B, c', s', hseg, hA, hB, -, hrun, hR'⟩ :=
      hW.forward b (e :: post) n c (some (obj e)) s pre hR hos hlen (absurd · (List.cons_ne_nil _ _))
    rw [List.head?_cons, Option.map_some] at hrun
    refine ⟨found false c' (B.head?.map obj) ((A.getLast?.map obj).or (some (obj e))), s', ?_, hR', fun o ho => ?_⟩
    · rw [Action.run_bind_ok hrun, found]
      dsimp only
      split <;> rfl
    · obtain ⟨P, S, hahead, hzero, hP⟩ := ho.ahead hos hpre fun hb => by rw [if_pos hb] at hc; omega
      obtain rfl := split_unique (p := fun a => BreaksAt b (cmp a)) (hseg.symm.trans hahead) hA
        (fun d hd => (hB d hd).1 ▸ (hB d hd).2) hP (hzero ▸ breaksAt_zero b)
      obtain ⟨rfl, -⟩ := hB o rfl
      exact ⟨_, by rw [found, hzero, if_neg (by simp)]; rfl⟩
  · obtain rfl : b = true := by
      cases b with
      | true => rfl
      | false => exact absurd (by rw [hc]; simp) hneg
    rw [if_pos rfl] at hc
    rw [if_neg hneg]
    by_cases hpos : c > 0
    · rw [if_pos ⟨rfl, hpos⟩]
      obtain ⟨A, B, c', s', hseg, hB, hA, -, hrun, hR'⟩ := hW.backward (pre ++ [e]) n c (some (obj e)) s post hR
        (by rw [hos, List.append_assoc]; rfl) (by rw [hos] at hn; simp at hn ⊢; omega) (by simp)
      rw [List.getLast?_concat, Option.map_some] at hrun
      refine ⟨found false c' (A.getLast?.map obj) ((B.head?.map obj).or (some (obj e))), s', ?_, hR', fun o ho => ?_⟩
      · rw [Action.run_bind_ok hrun, found]
        dsimp only
        by_cases hzero : c' = 0
        · rw [hzero, if_neg (by simp), if_neg (by simp), if_neg (by simp), if_neg (by simp)]
          rfl
        · rw [if_pos ⟨rfl, hzero⟩, if_pos ⟨rfl, hzero⟩]
          rfl
      · obtain ⟨P, S, hbehind, hzero, hS⟩ := ho.behind hos (by omega)
        have hrev : B.reverse ++ A.reverse = S.reverse ++ o :: P.reverse := by
          rw [← List.reverse_append, ← hseg, hbehind]
          simp
        have hlast := split_unique (p := fun a => cmp a ≤ 0) hrev (fun a ha => by simpa using hB a (by simpa using ha))
          (fun a ha => by
            rw [List.head?_reverse] at ha
            exact (hA a ha).1 ▸ (hA a ha).2)
          (fun a ha => by simpa using hS a (by simpa using ha)) (by omega)
        have hend : A.getLast? = some o := by rw [← List.head?_reverse, hlast]; rfl
        obtain ⟨rfl, -⟩ := hA o hend
        exact ⟨_, by rw [found, hzero, if_neg (by simp), hend]; rfl⟩
    · rw [if_neg fun h => hpos h.2]
      refine ⟨_, s, rfl, hR, fun o ho => ⟨some (obj e), ?_⟩⟩
      obtain ⟨P, S, hahead, hzero, hP⟩ := ho.ahead hos hpre fun _ => by omega
      cases P with
      | nil =>
          obtain ⟨rfl, -⟩ := List.cons.inj hahead
          rw [hc, hzero]
      | cons d P =>
          obtain ⟨rfl, -⟩ := List.cons.inj hahead
          have hlow := not_breaksAt_true.mp (hP e List.mem_cons_self)
          omega

end Search

/-! ### Lists with a last entry -/

/-- The table with the value `v` is the list `es`: it starts at `table.f` and ends at `table.l`, it is linked in both
directions, and the cursor is on one of its entries. `b` says whether it is sorted (`NST_AUTOSORT`). -/
structure Chain (s : Store) (v : ValId) (b : Bool) (es : List ObjId) : Prop where
  table : ∃ y i, s.vals.get v = some y ∧ y.type = .table ∧ y.autosort = b ∧
    y.d.asTable = .ok (es.head?, i, es.getLast?) ∧ ∀ o ∈ i, o ∈ es
  linked : Linked s none es none
  nodup : es.Nodup

/-- The table with the value `v` has the entries `es` around it: its first entry is `f`, its last one `l`, and no link
and no cursor leads out of `es`. -/
structure Fenced (v : ValId) (b : Bool) (f l : Option ObjId) (es : List ObjId) (s : Store) : Prop where
  table : ∃ y i, s.vals.get v = some y ∧ y.type = .table ∧ y.autosort = b ∧ y.d.asTable = .ok (f, i, l) ∧
    ∀ o ∈ i, o ∈ es
  first : ∀ o ∈ f, o ∈ es
  links : ∀ o ∈ es, ∀ x, s.objs.get o = some x → (∀ p ∈ x.prev, p ∈ es) ∧ ∀ p ∈ x.next, p ∈ es

section Chains

variable {s s' : Store} {t : ObjId} {v : ValId} {b : Bool} {f l : Option ObjId} {es fs : List ObjId} {o : ObjId}
  {k : List Byte}

theorem Linked.links (h : Linked s none es none) (ho : o ∈ es) {x : Obj} (hx : s.objs.get o = some x) :
    (∀ p ∈ x.prev, p ∈ es) ∧ ∀ p ∈ x.next, p ∈ es := by
  obtain ⟨A, B, rfl⟩ := List.append_of_mem ho
  obtain ⟨x', hx', hprev, hnext⟩ := h.get
  obtain rfl := Option.some.inj (hx.symm.trans hx')
  rw [Option.or_none] at hprev hnext
  rw [hprev, hnext]
  exact ⟨fun p hp => List.mem_append_left _ (List.mem_of_getLast? hp),
    fun p hp => List.mem_append_right _ (List.mem_cons_of_mem _ (List.mem_of_head? hp))⟩

theorem Chain.fenced (h : Chain s v b es) : Fenced v b es.head? es.getLast? es s :=
  ⟨h.table, fun _ ho => List.mem_of_head? ho, fun _ ho _ hx => h.linked.links ho hx⟩

/-- A table keeps its list where its objects and its ends stay. -/
theorem Chain.of_fenced (h : Chain s v b es) (hobjs : s'.objs = s.objs)
    (h' : Fenced v b es.head? es.getLast? es s') : Chain s' v b es :=
  ⟨h'.table, h.linked.congr fun o _ => by rw [hobjs], h.nodup⟩

/-- Entries of the same list stay around where their objects stay. -/
theorem Fenced.congr (h : Fenced v b f l es s) (hval : s'.vals.get v = s.vals.get v)
    (hobjs : ∀ o ∈ es, s'.objs.get o = s.objs.get o) : Fenced v b f l es s' := by
  refine ⟨by rw [hval]; exact h.table, h.first, fun o ho x hx => ?_⟩
  rw [hobjs o ho] at hx
  exact h.links o ho x hx

/-- The entries are linked in another order. -/
theorem Fenced.relinked (h : Fenced v b f l es s) (hre : Relinked es s s') (hlinked : Linked s' none fs none)
    (hperm : fs.Perm es) : Fenced v b f l es s' := by
  refine ⟨by rw [hre.rest]; exact h.table, h.first, fun o ho x hx => ?_⟩
  obtain ⟨hprev, hnext⟩ := hlinked.links (hperm.symm.subset ho) hx
  exact ⟨fun p hp => hperm.subset (hprev p hp), fun p hp => hperm.subset (hnext p hp)⟩

/-- What the cursor of an object's table is set to. -/
theorem setCursor_ok {c : ObjId} (h : (setCursor t c).run s = .ok () s') :
    ∃ w y f i l, s.look t = .ok (w, y) ∧ y.d.asTable = .ok (f, i, l) ∧ s'.objs = s.objs ∧
      (∀ u, u ≠ w → s'.vals.get u = s.vals.get u) ∧ s'.vals.get w = some { y with d := .table f (some c) l } := by
  rw [setCursor, modTable] at h
  obtain ⟨y, hy, h⟩ := Action.require_bind_run_eq_ok.mp h
  obtain ⟨⟨f, i, l⟩, hd, h⟩ := Action.require_bind_run_eq_ok.mp h
  obtain ⟨w, z, hlook, hobjs, hvals⟩ := modVal_ok h
  rw [hlook] at hy
  cases hy
  refine ⟨w, z, f, i, l, hlook, hd, hobjs, fun u hu => by rw [hvals, Cells.get_modify_of_ne _ hu], ?_⟩
  rw [hvals, Cells.get_modify_self, (Store.ptr_of_look hlook).2, Option.map_some]

/-- The cursor moves inside of the list. -/
theorem Fenced.setCursor (h : Fenced v b f l es s) (hptr : s.ptr t = some v) {c : ObjId} (hc : c ∈ es)
    (hrun : (setCursor t c).run s = .ok () s') : Fenced v b f l es s' := by
  obtain ⟨w, y, f', i', l', hlook, hd, hobjs, -, hval⟩ := setCursor_ok hrun
  obtain ⟨hptr', hy⟩ := Store.ptr_of_look hlook
  obtain rfl : v = w := Option.some.inj (hptr.symm.trans hptr')
  obtain ⟨y', i, hy', htype, hauto, hd', -⟩ := h.table
  obtain rfl : y = y' := Option.some.inj (hy.symm.trans hy')
  obtain ⟨rfl, -, rfl⟩ : f' = f ∧ i' = i ∧ l' = l := by simpa using hd.symm.trans hd'
  refine ⟨⟨_, some c, hval, htype, hauto, rfl, fun o ho => ?_⟩, h.first, fun o ho x hx => h.links o ho x (hobjs ▸ hx)⟩
  obtain rfl := Option.some.inj ho
  exact hc

/-- The cursor of another table moves. -/
theorem Fenced.setCursor_of_ne (h : Fenced v b f l es s) (hptr : s.ptr t ≠ some v) {c : ObjId}
    (hrun : (Nsp.setCursor t c).run s = .ok () s') : Fenced v b f l es s' := by
  obtain ⟨w, y, f', i', l', hlook, -, hobjs, hvals, -⟩ := setCursor_ok hrun
  refine h.congr (hvals v ?_) fun o _ => by rw [hobjs]
  rintro rfl
  exact hptr (Store.ptr_of_look hlook).1

/-- A search moves the cursor inside of the list, and one in another table does not move it. -/
theorem fenced_lookUps (v : ValId) (b : Bool) (f l : Option ObjId) (es : List ObjId) :
    LookUps fun s s' => Fenced v b f l es s → Fenced v b f l es s' where
  refl s h := h
  trans s₁ s₂ s₃ h h' hs := h' (h hs)
  get t oname s r s' _ hrun hs := by
    have hsame : ∀ {s s' : Store} {c : ObjId}, (setCursor t c).run s = .ok () s' → s'.ptr t = s.ptr t := by
      intro s s' c hset
      obtain ⟨_, _, _, _, _, -, -, hobjs, -⟩ := setCursor_ok hset
      rw [Store.ptr, Store.ptr, hobjs]
    by_cases hptr : s.ptr t = some v
    · have hstays : SearchStays t (· ∈ es) (fun s => s.ptr t = some v ∧ Fenced v b f l es s)
          fun s s' => Fenced v b f l es s → Fenced v b f l es s' := by
        refine ⟨fun _ h => h, fun _ _ _ h h' hs => h' (h hs), ?_, ?_, ?_⟩
        · rintro s y f' i' l' ⟨hptr, h⟩ hlook hd
          obtain ⟨y', i, hy', -, -, hd', hi⟩ := h.table
          rw [Store.look_of_ptr hptr hy'] at hlook
          obtain rfl : y' = y := Except.ok.inj hlook
          obtain ⟨rfl, rfl, -⟩ : f' = f ∧ i' = i ∧ l' = l := by simpa using hd.symm.trans hd'
          exact ⟨h.first, hi⟩
        · rintro s c x ⟨-, h⟩ hc hx
          exact h.links c hc x hx
        · rintro s s' c ⟨hptr, h⟩ hc hset
          exact ⟨fun _ => h.setCursor hptr hc hset, (hsame hset).trans hptr, h.setCursor hptr hc hset⟩
      exact hstays.get ⟨hptr, hs⟩ hrun hs
    · have hkeeps : SearchKeeps t (fun s => s.ptr t ≠ some v)
          fun s s' => Fenced v b f l es s → Fenced v b f l es s' := by
        refine ⟨fun _ h => h, fun _ _ _ h h' hs => h' (h hs), fun s s' c hptr hset => ⟨?_, ?_⟩⟩
        · exact fun h => h.setCursor_of_ne hptr hset
        · rw [hsame hset]
          exact hptr
      exact hkeeps.get hptr hrun hs

/-- Look-ups in any tables leave the list. -/
theorem Chain.lookedUp (h : Chain s v b es) (hrun : (nspGetobj (some t) k).run s = .ok o s') :
    Chain s' v b es ∧ s'.objs = s.objs :=
  have hobjs : s'.objs = s.objs := (lookUps_moved.nspGetobj hrun).1
  ⟨h.of_fenced hobjs ((fenced_lookUps v b _ _ es).nspGetobj hrun h.fenced), hobjs⟩

/-- A list has no more entries than a search has steps. -/
theorem Chain.length_lt (h : Chain s v b es) : es.length < s.objs.next + s.vals.next + 1 := by
  have hsub : es ⊆ List.range s.objs.next := by
    intro o ho
    obtain ⟨x, hx⟩ := h.linked.get_of_mem ho
    exact List.mem_range.mpr (Cells.lt_next hx)
  have hle := (List.subperm_of_subset h.nodup hsub).length_le
  rw [List.length_range] at hle
  omega

/-- The loops of `n_locateobj` can go over the list. -/
theorem Chain.walked (h : Chain s v b es) (t : ObjId) (k : List Byte) :
    Walked t id (locateCmp (nameNval k) k) (fun o => compareTo k (bodyAt s o)) es
      fun s' => s'.objs = s.objs ∧ ∃ y f i l, s'.look t = .ok (v, y) ∧ y.d.asTable = .ok (f, i, l) ∧
        y.ztable = (s.vals.get v).bind Val.ztable where
  linked s' hs pre o post hes := by
    subst hes
    obtain ⟨x, hx, hprev, hnext⟩ := h.linked.get
    refine ⟨x, by rw [hs.1]; exact hx, by simpa using hprev, by simpa using hnext, ?_⟩
    rw [bodyAt, hx]
    rfl
  cursor s' hs o _ := by
    obtain ⟨hobjs, y, f, i, l, hlook, hd, hz⟩ := hs
    obtain ⟨hptr, hy⟩ := Store.ptr_of_look hlook
    refine ⟨_, modTable_run hlook hd, hobjs, { y with d := .table f (some o) l }, f, some o, l,
      Store.look_of_ptr hptr ?_, rfl, hz⟩
    rw [Cells.get_modify_self, hy, Option.map_some]
    rfl

/-- What `n_locateobj` does with a list: it ends, and it finds a target. -/
theorem Chain.locate (h : Chain s v b es) (hptr : s.ptr t = some v) (hne : es ≠ []) (k : List Byte) :
    ∃ r s', (nLocateobjGet t k).run s = .ok r s' ∧
      (∃ y, s'.look t = .ok (v, y) ∧ y.ztable = (s.vals.get v).bind Val.ztable) ∧
      ∀ o, Target b (fun o => compareTo k (bodyAt s o)) es o → r = some o := by
  obtain ⟨y, i, hy, htype, hauto, hd, hi⟩ := h.table
  have hlook := Store.look_of_ptr hptr hy
  obtain ⟨a, es, rfl⟩ := List.exists_cons_of_ne_nil hne
  -- the entry where the search starts
  obtain ⟨pre, e, post, hes, hstart, hpre⟩ : ∃ pre e post, a :: es = pre ++ e :: post ∧
      (if b then (i <|> some a) else some a) = some e ∧ (b = false → pre = []) := by
    cases b with
    | false => exact ⟨[], a, es, rfl, rfl, fun _ => rfl⟩
    | true =>
        cases i with
        | none => exact ⟨[], a, es, rfl, rfl, nofun⟩
        | some i =>
            obtain ⟨pre, post, hes⟩ := List.append_of_mem (hi i rfl)
            exact ⟨pre, i, post, hes, rfl, nofun⟩
  obtain ⟨x, hx, -⟩ := (hes ▸ h.linked).get
  have hcmp : locateCmp (nameNval k) k x = compareTo k (bodyAt s e) := by
    rw [bodyAt, hx]
    rfl
  obtain ⟨r, s', hrun, ⟨-, y', f, i', l, hlook', -, hz⟩, hfind⟩ := search_run (h.walked t k)
    ⟨rfl, y, _, _, _, hlook, hd, by rw [hy]; rfl⟩ hes hpre h.length_lt rfl
  have hsearch : (locateSearch t k false).run s = .ok r s' := by
    rw [locateSearch, Action.run_bind_ok (getVal_run hlook), hd, Action.run_bind_ok (member_run _ _)]
    dsimp only
    rw [Action.run_bind_ok (walkFuel_run s), hauto, List.head?_cons, hstart]
    cases b with
    | false =>
        rw [if_neg Bool.false_ne_true, Action.run_bind_ok (Action.run_pure _ _)]
        exact hrun
    | true =>
        rw [if_pos rfl]
        dsimp only
        rw [Action.run_bind_ok (getObj_run hx), Action.run_bind_ok (Action.run_pure _ _), hcmp]
        exact hrun
  refine ⟨r.bind fun r => r.2.1, s', ?_, ⟨y', hlook', hz⟩, fun o ho => ?_⟩
  · rw [nLocateobjGet, Action.run_bind_ok (getVal_run hlook), hd, Action.run_bind_ok (member_run _ _)]
    dsimp only
    rw [if_neg (by simp), Action.run_bind_ok hsearch]
    rcases r with - | ⟨c, p, q⟩
    · rfl
    · rfl
  · obtain ⟨q, rfl⟩ := hfind o ho
    rfl

/-- What `nsp_getobj` does with a list: it finds a target, and it ends if the table has no parent. -/
theorem Chain.get (h : Chain s v b es) (hptr : s.ptr t = some v) (ht : t ≠ retObj) (hne : es ≠ []) (k : List Byte) :
    (∀ o, Target b (fun o => compareTo k (bodyAt s o)) es o → ∃ s', (nspGetobj (some t) k).run s = .ok o s') ∧
      ((s.vals.get v).bind Val.ztable = none → ∃ o s', (nspGetobj (some t) k).run s = .ok o s') := by
  obtain ⟨r, s', hrun, ⟨y', hlook', hz⟩, hfind⟩ := h.locate hptr hne k
  obtain ⟨y, i, hy, htype, -⟩ := h.table
  have hlook := Store.look_of_ptr hptr hy
  constructor
  · intro o ho
    obtain rfl := hfind o ho
    exact ⟨s', nspGetobj_of_locate ht hlook htype hrun nofun⟩
  · intro hnone
    exact ⟨_, s', nspGetobj_of_locate ht hlook htype hrun fun _ => ⟨v, y', hlook', hz.trans hnone⟩⟩

/-- What an append leaves: the new object is the last of the list, and the others are as they were. -/
structure Extended (s s' : Store) (v : ValId) (b : Bool) (es : List ObjId) (name : Option (List Byte)) : Prop where
  chain : Chain s' v b (es ++ [s.objs.next])
  new : bodyAt s' s.objs.next = newBody name
  old : ∀ o ∈ es, bodyAt s' o = bodyAt s o

/-- `nsp_appendobj` links its entry behind the last one of the list. -/
theorem Chain.append (h : Chain s v b es) (hptr : s.ptr t = some v) (hne : es ≠ []) (name : Option (List Byte)) :
    ∃ s', (nspAppendobj t name).run s = .ok s.objs.next s' ∧ Extended s s' v b es name ∧ s'.ptr t = some v := by
  obtain ⟨y, i, hy, htype, hauto, hd, hi⟩ := h.table
  obtain ⟨A, a, rfl⟩ : ∃ A a, es = A ++ [a] := ⟨_, _, (List.dropLast_append_getLast hne).symm⟩
  obtain ⟨xa, hxa, hprev, -⟩ := h.linked.get
  rw [List.getLast?_concat] at hd
  obtain ⟨s', hrun, hnew, hold, -, hvals, hval⟩ :=
    nspAppendobj_last (Store.look_of_ptr hptr hy) hd (by cases A <;> exact nofun) hxa name
  have hfresh : s.objs.next ∉ A ++ [a] := by
    intro hmem
    obtain ⟨x, hx⟩ := h.linked.get_of_mem hmem
    exact Cells.ne_next hx rfl
  have hA : ∀ o ∈ A, o ≠ a := fun o ho => (List.nodup_append.mp h.nodup).2.2 o ho a (by simp)
  refine ⟨s', hrun, ⟨⟨?_, ?_, ?_⟩, ?_, ?_⟩, ?_⟩
  · refine ⟨_, i, hval, htype, hauto, ?_, fun o ho => List.mem_append_left _ (hi o ho)⟩
    simp [Data.asTable, List.head?_append]
  · obtain ⟨hA', -⟩ := linked_append.mp h.linked
    refine linked_append.mpr ⟨linked_append.mpr ⟨?_, ⟨_, hold a xa hxa, ?_, ?_⟩, trivial⟩, ⟨_, hnew, ?_, ?_⟩, trivial⟩
    · refine hA'.congr fun o ho => ?_
      obtain ⟨x, hx⟩ := hA'.get_of_mem ho
      rw [hold o x hx, if_neg (hA o ho), hx]
    · rw [if_pos rfl]
      exact hprev
    · rw [if_pos rfl]
      rfl
    · simp
    · cases name <;> rfl
  · exact List.nodup_append.mpr ⟨h.nodup, List.nodup_singleton _, by
      rintro o ho p hp rfl
      exact hfresh (by rwa [List.mem_singleton.mp hp] at ho)⟩
  · rw [bodyAt, hnew]
    cases name <;> rfl
  · intro o ho
    obtain ⟨x, hx⟩ := h.linked.get_of_mem ho
    rw [bodyAt, bodyAt, hold o x hx, hx]
    dsimp only [Option.getD_some]
    split <;> rfl
  · obtain ⟨x, hx, hxv⟩ := Option.bind_eq_some_iff.mp hptr
    rw [Store.ptr, hold t x hx, Option.bind_some]
    split <;> exact hxv

end Chains

/-! ### Runs -/

/-- The calls that follow a sort. -/
inductive Call where
  | append (name : Option (List Byte))
  | get (k : List Byte)

/-- The entry is found by its name. -/
def FoundByName (s : Store) (t o : ObjId) : Prop := ∃ s', (nspGetobj (some t) (bodyAt s o).name).run s = .ok o s'

/-- The table `t`, with the value `v`, is a list of the entries `os`, each of them once, from `table.f` to `table.l`,
and `nsp_getobj` finds each of them. -/
def Usable (s : Store) (t : ObjId) (v : ValId) (os : List ObjId) : Prop :=
  ∃ b es, Chain s v b es ∧ es.Perm os ∧ ∀ o ∈ os, FoundByName s t o

/-- The table is usable now, with the entries `os`, and behind each of the calls, with the ones that they append. The
appends succeed, and the look-ups end if the table has no parent. -/
def StaysUsable (t : ObjId) (v : ValId) : List Call → Store → List ObjId → Prop
  | [], s, os => Usable s t v os
  | .append name :: calls, s, os => Usable s t v os ∧
      ∃ o s', (nspAppendobj t name).run s = .ok o s' ∧ StaysUsable t v calls s' (os ++ [o])
  | .get k :: calls, s, os => Usable s t v os ∧
      ((s.vals.get v).bind Val.ztable = none → ∃ o s', (nspGetobj (some t) k).run s = .ok o s') ∧
      ∀ o s', (nspGetobj (some t) k).run s = .ok o s' → StaysUsable t v calls s' os

/-- Each appended entry may stand behind all entries before it. -/
def AppendsFit (b : Bool) : List Call → List Obj → Prop
  | [], _ => True
  | .append name :: calls, xs => (∀ x ∈ xs, Before b x (newBody name)) ∧ AppendsFit b calls (xs ++ [newBody name])
  | .get _ :: calls, xs => AppendsFit b calls xs

section Runs

variable {s s' : Store} {t : ObjId} {v : ValId} {b : Bool} {es : List ObjId} {o : ObjId}

/-- A table that stays usable: its entries stand so that a search for each of them goes past those before it, and ends
at it. -/
structure Chained (s : Store) (t : ObjId) (v : ValId) (b : Bool) (es : List ObjId) : Prop where
  chain : Chain s v b es
  ptr : s.ptr t = some v
  slot : t ≠ retObj
  ne : es ≠ []
  before : es.Pairwise fun x y => Before b (bodyAt s x) (bodyAt s y)
  self : ∀ o ∈ es, compareTo (bodyAt s o).name (bodyAt s o) = 0

theorem nameCmp_self (p : List Byte) : nameCmp p p = 0 := by
  have := nameCmp_swap p p
  omega

/-- A name is compared with itself. -/
theorem compareTo_self {x : Obj} (h : nameNval x.name > -1 → x.nval = nameNval x.name) : compareTo x.name x = 0 := by
  rw [compareTo, locateCmp]
  split
  · rename_i hnum
    rw [h hnum]
    omega
  · exact nameCmp_self x.name

theorem newBody_self (name : Option (List Byte)) : compareTo (newBody name).name (newBody name) = 0 := by
  refine compareTo_self fun hnum => ?_
  cases name with
  | none => exact absurd hnum (by decide)
  | some name => rfl

theorem Chained.found (h : Chained s t v b es) (ho : o ∈ es) : FoundByName s t o := by
  refine (h.chain.get h.ptr h.slot h.ne _).1 o ?_
  obtain ⟨P, S, rfl⟩ := List.append_of_mem ho
  obtain ⟨-, hS, hP⟩ := List.pairwise_append.mp h.before
  refine ⟨P, S, rfl, h.self o ho, fun a ha => (hP a ha o List.mem_cons_self).1, fun hb a ha => ?_⟩
  exact ((List.pairwise_cons.mp hS).1 a ha).2 hb

theorem Chained.usable (h : Chained s t v b es) {os : List ObjId} (hperm : es.Perm os) : Usable s t v os :=
  ⟨b, es, h.chain, hperm, fun _ ho => h.found (hperm.symm.subset ho)⟩

/-- Look-ups keep it. -/
theorem Chained.lookedUp (h : Chained s t v b es) {u : ObjId} {k : List Byte}
    (hrun : (nspGetobj (some u) k).run s = .ok o s') : Chained s' t v b es := by
  obtain ⟨hchain, hobjs⟩ := h.chain.lookedUp hrun
  have hbody : ∀ o, bodyAt s' o = bodyAt s o := fun o => by rw [bodyAt, hobjs, bodyAt]
  refine ⟨hchain, by rw [Store.ptr, hobjs]; exact h.ptr, h.slot, h.ne, ?_, ?_⟩
  · simp only [hbody]
    exact h.before
  · simp only [hbody]
    exact h.self

/-- Appends in order keep it. -/
theorem Chained.append (h : Chained s t v b es) {name : Option (List Byte)}
    (hfit : ∀ x ∈ es.map (bodyAt s), Before b x (newBody name)) :
    ∃ s', (nspAppendobj t name).run s = .ok s.objs.next s' ∧ Chained s' t v b (es ++ [s.objs.next]) ∧
      (es ++ [s.objs.next]).map (bodyAt s') = es.map (bodyAt s) ++ [newBody name] := by
  obtain ⟨s', hrun, hext, hptr⟩ := h.chain.append h.ptr h.ne name
  refine ⟨s', hrun, ⟨hext.chain, hptr, h.slot, by simp, ?_, ?_⟩, ?_⟩
  · refine List.pairwise_append.mpr ⟨?_, List.pairwise_singleton _ _, fun x hx y hy => ?_⟩
    · refine List.Pairwise.imp_of_mem (fun {x y} hx hy hxy => ?_) h.before
      rw [hext.old x hx, hext.old y hy]
      exact hxy
    · obtain rfl := List.mem_singleton.mp hy
      rw [hext.old x hx, hext.new]
      exact hfit _ (List.mem_map_of_mem hx)
  · intro o ho
    rcases List.mem_append.mp ho with ho | ho
    · rw [hext.old o ho]
      exact h.self o ho
    · obtain rfl := List.mem_singleton.mp ho
      rw [hext.new]
      exact newBody_self name
  · rw [List.map_append, List.map_singleton, hext.new, List.map_congr_left hext.old]

/-- The table stays usable in a run whose appends are in order. -/
theorem Chained.stays (h : Chained s t v b es) {os : List ObjId} (hperm : es.Perm os) {calls : List Call}
    (hfit : AppendsFit b calls (es.map (bodyAt s))) : StaysUsable t v calls s os := by
  induction calls generalizing s es os with
  | nil => exact h.usable hperm
  | cons call calls ih =>
      cases call with
      | append name =>
          obtain ⟨hnew, hrest⟩ := hfit
          obtain ⟨s', hrun, h', hbodies⟩ := h.append hnew
          rw [← hbodies] at hrest
          exact ⟨h.usable hperm, _, s', hrun, ih h' (hperm.append_right _) hrest⟩
      | get k =>
          refine ⟨h.usable hperm, (h.chain.get h.ptr h.slot h.ne k).2, fun o s' hrun => ?_⟩
          refine ih (h.lookedUp hrun) hperm ?_
          have hobjs := (h.chain.lookedUp hrun).2
          have hbodies : es.map (bodyAt s') = es.map (bodyAt s) :=
            List.map_congr_left fun o _ => by rw [bodyAt, hobjs, bodyAt]
          rw [hbodies]
          exact hfit

end Runs

end NullG.Libs.Sort
