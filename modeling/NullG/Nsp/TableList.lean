/-
A table as a list.

`TableRep s t vt es` says that the table `t` has the entries `es`: objects that are linked in
both directions, each with a value of its own, and the cursor on one of them. `locateForward_run`
and `locateBackward_run` say where the two loops of `n_locateobj` stop; they move the cursor and
nothing else. `TableRep.insert` and `TableRep.write` are the two changes of a table.
-/

import NullG.Nsp.Objects
import Mathlib.Data.List.Induction
import Mathlib.Data.List.Nodup
import Mathlib.Data.List.Perm.Subperm

namespace NullG.Nsp

open NullG.Lib

/-! ### Single actions -/

section Run

variable {s : Store} {o : ObjId} {v : ValId} {x : Obj} {y : Val}

theorem Store.look_eq (hx : s.objs.get o = some x) (hv : x.val = some v) (hy : s.vals.get v = some y) :
    s.look o = .ok (v, y) := by
  simp only [Store.look, hx, hv, hy]

theorem Store.look_of_ptr (hv : s.ptr o = some v) (hy : s.vals.get v = some y) :
    s.look o = .ok (v, y) := by
  obtain ⟨x, hx, hxv⟩ := Option.bind_eq_some_iff.mp hv
  exact Store.look_eq hx hxv hy

theorem getObj_run (h : s.objs.get o = some x) : (getObj o).run s = .ok x s :=
  Action.run_require_ok (by rw [h])

theorem getVal_run (h : s.look o = .ok (v, y)) : (getVal o).run s = .ok y s :=
  Action.run_require_ok (by rw [h]; rfl)

theorem typeOf_run (h : s.look o = .ok (v, y)) : (typeOf o).run s = .ok y.type s := by
  obtain ⟨hv, hy⟩ := Store.ptr_of_look h
  obtain ⟨x, hx, hxv⟩ := Option.bind_eq_some_iff.mp hv
  exact Action.run_require_ok (by rw [hx]; simp only [hxv, hy])

theorem nspIstable_run (h : s.look o = .ok (v, y)) :
    (nspIstable o).run s = .ok (y.type == .table) s := by
  rw [nspIstable, Action.run_bind_ok (typeOf_run h)]
  rfl

theorem member_run {α : Type} (a : α) (s : Store) : (member (.ok a)).run s = .ok a s := rfl

theorem walkFuel_run (s : Store) : walkFuel.run s = .ok (s.objs.next + s.vals.next + 1) s := rfl

theorem modObj_run {f : Obj → Obj} {hf} (h : s.objs.get o = some x) :
    (modObj o f hf).run s = .ok () { s with objs := s.objs.modify o f } := by
  simp only [modObj, h]

theorem modVal_run {f : Val → Val} (h : s.look o = .ok (v, y)) :
    (modVal o f).run s = .ok () { s with vals := s.vals.modify v f, stray := s.stray || o == nullObj } := by
  simp only [modVal, h]

end Run

/-! ### Tables -/

/-- What a value holds. -/
structure Content where
  type : Ty
  size : Nat
  data : Data
  deriving DecidableEq

/-- The content of a value. -/
def Val.content (y : Val) : Content := ⟨y.type, y.size, y.d⟩

/-- An entry of a table: its object, its value, its name and what the value holds. -/
structure Entry where
  obj : ObjId
  val : ValId
  name : List Byte
  content : Content

/-- The object of an entry that stands between the entries `pre` and `post`. -/
def Entry.At (e : Entry) (pre post : List Entry) (x : Obj) : Prop :=
  x.prev = pre.getLast?.map Entry.obj ∧ x.next = post.head?.map Entry.obj ∧ x.val = some e.val ∧
    x.name = e.name ∧ x.nval = nameNval e.name

/-- The value of a table with the entries `es`. -/
structure TableVal (es : List Entry) (y : Val) : Prop where
  type : y.type = .table
  autosort : y.autosort = true
  ztable : y.ztable = none
  links : ∃ i, y.d.asTable = .ok (es.head?.map Entry.obj, i, es.getLast?.map Entry.obj) ∧
    (es ≠ [] → ∀ o ∈ i, ∃ e ∈ es, e.obj = o)

/-- The sorted table `t`, with the value `vt`, has the entries `es`. -/
structure TableRep (s : Store) (t : ObjId) (vt : ValId) (es : List Entry) : Prop where
  ptr : s.ptr t = some vt
  table : ∃ y, s.vals.get vt = some y ∧ TableVal es y
  linked : ∀ pre e post, es = pre ++ e :: post → ∃ x, s.objs.get e.obj = some x ∧ e.At pre post x
  values : ∀ e ∈ es, ∃ y, s.vals.get e.val = some y ∧ y.ztable = none ∧ y.content = e.content
  objs : (es.map Entry.obj).Nodup
  vals : (es.map Entry.val).Nodup
  apart : ∀ e ∈ es, e.val ≠ vt

section Rep

variable {s : Store} {t : ObjId} {vt : ValId} {es : List Entry}

theorem TableRep.entry (h : TableRep s t vt es) {e : Entry} (he : e ∈ es) :
    ∃ x, s.objs.get e.obj = some x ∧ x.val = some e.val ∧ x.name = e.name ∧
      x.nval = nameNval e.name := by
  obtain ⟨pre, post, hes⟩ := List.append_of_mem he
  obtain ⟨x, hx, -, -, hval, hname, hnval⟩ := h.linked pre e post hes
  exact ⟨x, hx, hval, hname, hnval⟩

theorem TableRep.look (h : TableRep s t vt es) : ∃ y, s.look t = .ok (vt, y) ∧ TableVal es y := by
  obtain ⟨y, hy, ht⟩ := h.table
  exact ⟨y, Store.look_of_ptr h.ptr hy, ht⟩

theorem TableRep.look_entry (h : TableRep s t vt es) {e : Entry} (he : e ∈ es) :
    ∃ y, s.look e.obj = .ok (e.val, y) ∧ y.ztable = none ∧ y.content = e.content := by
  obtain ⟨x, hx, hval, -⟩ := h.entry he
  obtain ⟨y, hy, hz, hc⟩ := h.values e he
  exact ⟨y, Store.look_eq hx hval hy, hz, hc⟩

/-- A table has no more entries than a walk has steps. -/
theorem TableRep.length_lt (h : TableRep s t vt es) : es.length < s.objs.next + s.vals.next + 1 := by
  have hsub : es.map Entry.obj ⊆ List.range s.objs.next := by
    intro o ho
    obtain ⟨e, he, rfl⟩ := List.mem_map.mp ho
    obtain ⟨x, hx, -⟩ := h.entry he
    exact List.mem_range.mpr (Cells.lt_next hx)
  have hle := (List.subperm_of_subset h.objs hsub).length_le
  rw [List.length_map, List.length_range] at hle
  omega

/-- A change of the table's value only. -/
theorem TableRep.of_table (h : TableRep s t vt es) {s' : Store} {y' : Val} (hobjs : s'.objs = s.objs)
    (hvals : ∀ v, v ≠ vt → s'.vals.get v = s.vals.get v) (hy : s'.vals.get vt = some y')
    (ht : TableVal es y') : TableRep s' t vt es where
  ptr := by
    rw [Store.ptr, hobjs]
    exact h.ptr
  table := ⟨y', hy, ht⟩
  linked := by
    rw [hobjs]
    exact h.linked
  values := by
    intro e he
    rw [hvals e.val (h.apart e he)]
    exact h.values e he
  objs := h.objs
  vals := h.vals
  apart := h.apart

theorem modTable_run {g} {y : Val} {f i l : Option ObjId} (hlook : s.look t = .ok (vt, y))
    (hd : y.d.asTable = .ok (f, i, l)) :
    (modTable t g).run s = .ok () { s with
      vals := s.vals.modify vt fun y =>
        { y with d := .table (g (f, i, l)).1 (g (f, i, l)).2.1 (g (f, i, l)).2.2 }
      stray := s.stray || t == nullObj } := by
  rw [modTable, Action.run_bind_ok (getVal_run hlook), hd, Action.run_bind_ok (member_run _ _)]
  exact modVal_run hlook

/-- The cursor moves along the entries. -/
theorem setCursor_run (h : TableRep s t vt es) {e : Entry} (he : e ∈ es) :
    ∃ s', (setCursor t e.obj).run s = .ok () s' ∧ TableRep s' t vt es := by
  obtain ⟨y, hlook, ht⟩ := h.look
  obtain ⟨i, hd, -⟩ := ht.links
  refine ⟨_, modTable_run hlook hd, ?_⟩
  refine h.of_table rfl (fun v hv => Cells.get_modify_of_ne _ hv)
    (by rw [Cells.get_modify_self, (Store.ptr_of_look hlook).2, Option.map_some]) ?_
  exact ⟨ht.type, ht.autosort, ht.ztable, some e.obj, rfl, fun _ o ho => ⟨e, he, Option.some.inj ho⟩⟩

/-- The links of a table with the entries `es`; the cursor is on one of them. -/
def Data.Lists (es : List Entry) (d : Data) : Prop :=
  ∃ i, d.asTable = .ok (es.head?.map Entry.obj, i, es.getLast?.map Entry.obj) ∧
    (es ≠ [] → ∀ o ∈ i, ∃ e ∈ es, e.obj = o)

/-- In the memories with `R` the sorted table `t` has the entries `es`, and its cursor can be set to each of them. -/
structure Searchable (t : ObjId) (es : List Entry) (R : Store → Prop) : Prop where
  look : ∀ s, R s → ∃ v y, s.look t = .ok (v, y) ∧ y.autosort = true ∧ y.d.Lists es
  linked : ∀ s, R s → ∀ pre e post, es = pre ++ e :: post → ∃ x, s.objs.get e.obj = some x ∧ e.At pre post x
  short : ∀ s, R s → es.length < s.objs.next + s.vals.next + 1
  cursor : ∀ s, R s → ∀ e ∈ es, ∃ s', (setCursor t e.obj).run s = .ok () s' ∧ R s'

theorem TableRep.searchable (t : ObjId) (vt : ValId) (es : List Entry) :
    Searchable t es fun s => TableRep s t vt es where
  look _ h := by
    obtain ⟨y, hlook, ht⟩ := h.look
    exact ⟨vt, y, hlook, ht.autosort, ht.links⟩
  linked _ h := h.linked
  short _ h := h.length_lt
  cursor _ h _ he := setCursor_run h he

/-! ### The loops of `n_locateobj` -/

/-- `cmp`, of the name of an entry. -/
def entryCmp (oname : List Byte) (e : Entry) : Int :=
  if nameNval oname > -1 then nameNval e.name - nameNval oname else nameCmp e.name oname

theorem locateCmp_entry (oname : List Byte) {e : Entry} {pre post : List Entry} {x : Obj}
    (h : e.At pre post x) : locateCmp (nameNval oname) oname x = entryCmp oname e := by
  rw [locateCmp, entryCmp, h.2.2.2.1, h.2.2.2.2]

variable {R : Store → Prop}

section Walks

variable {α : Type} {obj : α → ObjId} {cmpTo : Obj → Int} {cmp : α → Int} {os : List α}

/-- The forward loop breaks at an entry with the comparison `c`. -/
def BreaksAt (sortattr : Bool) (c : Int) : Prop := c = 0 ∨ (c > 0 ∧ sortattr)

theorem not_breaksAt_true {c : Int} : ¬ BreaksAt true c ↔ c < 0 := by
  simp only [BreaksAt, and_true]
  omega

/-- In the memories with `R` the objects of `os` are linked in both directions, and compare as `cmp` says, and the
cursor of `t` can be set to each of them. -/
structure Walked (t : ObjId) (obj : α → ObjId) (cmpTo : Obj → Int) (cmp : α → Int) (os : List α) (R : Store → Prop) :
    Prop where
  linked : ∀ s, R s → ∀ pre e post, os = pre ++ e :: post → ∃ x, s.objs.get (obj e) = some x ∧
    x.prev = pre.getLast?.map obj ∧ x.next = post.head?.map obj ∧ cmpTo x = cmp e
  cursor : ∀ s, R s → ∀ e ∈ os, ∃ s', (setCursor t (obj e)).run s = .ok () s' ∧ R s'

/-- Where the forward loop stops. -/
theorem Walked.forward (hW : Walked t obj cmpTo cmp os R) (b : Bool) : ∀ (seg : List α) (n : Nat) (c : Int)
    (o : Option ObjId) (s : Store) (pre : List α), R s → os = pre ++ seg → seg.length < n →
    (seg = [] → ¬ BreaksAt b c) → ∃ A B c' s', seg = A ++ B ∧ (∀ a ∈ A, ¬ BreaksAt b (cmp a)) ∧
      (∀ e ∈ B.head?, c' = cmp e ∧ BreaksAt b c') ∧ (B = [] → ¬ BreaksAt b c') ∧
      (locateForward t b cmpTo n c o (seg.head?.map obj)).run s =
        .ok (c', B.head?.map obj, (A.getLast?.map obj).or o) s' ∧ R s' := by
  intro seg
  induction seg with
  | nil =>
      intro n c o s pre h hos hn hc
      obtain ⟨n, rfl⟩ : ∃ m, n = m + 1 := ⟨n - 1, by simp only [List.length_nil] at hn; omega⟩
      exact ⟨[], [], c, s, rfl, by simp, by simp, fun _ => hc rfl, rfl, h⟩
  | cons e seg ih =>
      intro n c o s pre h hos hn _
      obtain ⟨n, rfl⟩ : ∃ m, n = m + 1 := ⟨n - 1, by omega⟩
      obtain ⟨x, hx, -, hnext, hcmp⟩ := hW.linked s h pre e seg hos
      rw [List.head?_cons, Option.map_some, locateForward, Action.run_bind_ok (getObj_run hx)]
      dsimp only
      rw [hcmp]
      by_cases hstop : BreaksAt b (cmp e)
      · rw [if_pos (show cmp e = 0 ∨ (cmp e > 0 ∧ b) from hstop)]
        exact ⟨[], e :: seg, _, s, rfl, by simp, by simpa using hstop, by simp, rfl, h⟩
      · rw [if_neg (show ¬ (cmp e = 0 ∨ (cmp e > 0 ∧ b)) from hstop)]
        obtain ⟨s₁, hrun, h₁⟩ := hW.cursor s h e (by simp [hos])
        obtain ⟨A, B, c', s', hseg, hA, hB, hnil, hrun', h'⟩ := ih n (cmp e) (some (obj e)) s₁ (pre ++ [e]) h₁
          (by rw [hos, List.append_assoc]; rfl) (by simpa using hn) (fun _ => hstop)
        refine ⟨e :: A, B, c', s', by rw [hseg]; rfl, ?_, hB, hnil, ?_, h'⟩
        · intro a ha
          rcases List.mem_cons.mp ha with rfl | ha
          · exact hstop
          · exact hA a ha
        · rw [Action.run_bind_ok hrun, hnext, hrun']
          cases A with
          | nil => rfl
          | cons a A => simp [List.getLast?_cons]

/-- Where the backward loop stops. -/
theorem Walked.backward (hW : Walked t obj cmpTo cmp os R) : ∀ (seg : List α) (n : Nat) (c : Int) (o : Option ObjId)
    (s : Store) (post : List α), R s → os = seg ++ post → seg.length < n → (seg = [] → 0 < c) →
    ∃ A B c' s', seg = A ++ B ∧ (∀ b ∈ B, 0 < cmp b) ∧ (∀ a ∈ A.getLast?, c' = cmp a ∧ c' ≤ 0) ∧ (A = [] → 0 < c') ∧
      (locateBackward t cmpTo n c o (seg.getLast?.map obj)).run s =
        .ok (c', A.getLast?.map obj, (B.head?.map obj).or o) s' ∧ R s' := by
  intro seg
  induction seg using List.reverseRecOn with
  | nil =>
      intro n c o s post h hos hn hc
      obtain ⟨n, rfl⟩ : ∃ m, n = m + 1 := ⟨n - 1, by simp only [List.length_nil] at hn; omega⟩
      exact ⟨[], [], c, s, rfl, by simp, by simp, fun _ => hc rfl, rfl, h⟩
  | append_singleton seg e ih =>
      intro n c o s post h hos hn _
      obtain ⟨n, rfl⟩ : ∃ m, n = m + 1 := ⟨n - 1, by omega⟩
      obtain ⟨x, hx, hprev, -, hcmp⟩ := hW.linked s h seg e post (by rw [hos, List.append_assoc]; rfl)
      rw [List.getLast?_concat, Option.map_some, locateBackward, Action.run_bind_ok (getObj_run hx)]
      dsimp only
      rw [hcmp]
      by_cases hstop : cmp e ≤ 0
      · rw [if_pos hstop]
        refine ⟨seg ++ [e], [], cmp e, s, (List.append_nil _).symm, by simp, ?_, by simp, ?_, h⟩
        · simpa using hstop
        · simp only [List.getLast?_concat]
          rfl
      · rw [if_neg hstop]
        obtain ⟨s₁, hrun, h₁⟩ := hW.cursor s h e (by simp [hos])
        obtain ⟨A, B, c', s', hseg, hB, hA, hnil, hrun', h'⟩ := ih n (cmp e) (some (obj e)) s₁ (e :: post) h₁
          (by rw [hos, List.append_assoc]; rfl) (by simp at hn; omega) (fun _ => by omega)
        refine ⟨A, B ++ [e], c', s', by rw [hseg, List.append_assoc], ?_, hA, hnil, ?_, h'⟩
        · intro b hb
          rcases List.mem_append.mp hb with hb | hb
          · exact hB b hb
          · obtain rfl := List.mem_singleton.mp hb
            omega
        · rw [Action.run_bind_ok hrun, hprev, hrun']
          cases B with
          | nil => rfl
          | cons b B => rfl

end Walks

theorem Searchable.walked (hR : Searchable t es R) (oname : List Byte) :
    Walked t Entry.obj (locateCmp (nameNval oname) oname) (entryCmp oname) es R where
  linked s h pre e post hes := by
    obtain ⟨x, hx, hat⟩ := hR.linked s h pre e post hes
    exact ⟨x, hx, hat.1, hat.2.1, locateCmp_entry oname hat⟩
  cursor := hR.cursor

/-- The forward loop stops at the first entry that is not below the name. -/
theorem locateForward_run (hR : Searchable t es R) (oname : List Byte) (seg : List Entry) (n : Nat) (c : Int)
    (o : Option ObjId) (s : Store) (pre : List Entry) (h : R s) (hes : es = pre ++ seg) (hn : seg.length < n)
    (hc : seg = [] → c < 0) : ∃ A B c' s', seg = A ++ B ∧ (∀ a ∈ A, entryCmp oname a < 0) ∧
      (∀ b ∈ B.head?, c' = entryCmp oname b ∧ 0 ≤ c') ∧ (B = [] → c' < 0) ∧
      (locateForward t true (locateCmp (nameNval oname) oname) n c o (seg.head?.map Entry.obj)).run s =
        .ok (c', B.head?.map Entry.obj, (A.getLast?.map Entry.obj).or o) s' ∧ R s' := by
  obtain ⟨A, B, c', s', hseg, hA, hB, hnil, hrun⟩ := (hR.walked oname).forward true seg n c o s pre h hes hn
    fun hnil => not_breaksAt_true.mpr (hc hnil)
  refine ⟨A, B, c', s', hseg, fun a ha => not_breaksAt_true.mp (hA a ha), fun b hb => ⟨(hB b hb).1, ?_⟩,
    fun h => not_breaksAt_true.mp (hnil h), hrun⟩
  have hstop := (hB b hb).2
  simp only [BreaksAt, and_true] at hstop
  omega

/-- The backward loop stops at the last entry that is not above the name. -/
theorem locateBackward_run (hR : Searchable t es R) (oname : List Byte) (seg : List Entry) (n : Nat) (c : Int)
    (o : Option ObjId) (s : Store) (post : List Entry) (h : R s) (hes : es = seg ++ post) (hn : seg.length < n)
    (hc : seg = [] → 0 < c) : ∃ A B c' s', seg = A ++ B ∧ (∀ b ∈ B, 0 < entryCmp oname b) ∧
      (∀ a ∈ A.getLast?, c' = entryCmp oname a ∧ c' ≤ 0) ∧ (A = [] → 0 < c') ∧
      (locateBackward t (locateCmp (nameNval oname) oname) n c o (seg.getLast?.map Entry.obj)).run s =
        .ok (c', A.getLast?.map Entry.obj, (B.head?.map Entry.obj).or o) s' ∧ R s' :=
  (hR.walked oname).backward seg n c o s post h hes hn hc

/-! ### The search of `n_locateobj` -/

/-- Where the search stops: at an entry of the name, before an entry above it, or at the end. The
entry before is below the name in both cases. -/
inductive Stops (oname : List Byte) (es : List Entry) : Int → Option ObjId → Option ObjId → Prop where
  | hit {A b B o} : es = A ++ b :: B → entryCmp oname b = 0 → Stops oname es 0 (some b.obj) o
  | before {A b B c o} : es = A ++ b :: B → (∀ a ∈ A.getLast?, entryCmp oname a < 0) →
      0 < entryCmp oname b → 0 < c → Stops oname es c (some b.obj) o
  | behind {c} : (∀ a ∈ es.getLast?, entryCmp oname a < 0) → c < 0 →
      Stops oname es c none (es.getLast?.map Entry.obj)

/-- The result of a search that stops. -/
def found (setobj : Bool) (c : Int) (cobj oobj : Option ObjId) :
    Option (Int × Option ObjId × Option ObjId) :=
  if !setobj ∧ c ≠ 0 then none else some (c, cobj, oobj)

/-- The forward loop from an entry `e` below the name. -/
theorem Stops.of_forward {oname : List Byte} {pre post A B : List Entry} {e : Entry} {c : Int}
    {o : Option ObjId} (hes : es = pre ++ e :: post) (hneg : entryCmp oname e < 0) (hseg : e :: post = A ++ B)
    (hA : ∀ a ∈ A, entryCmp oname a < 0) (hB : ∀ b ∈ B.head?, c = entryCmp oname b ∧ 0 ≤ c)
    (hnil : B = [] → c < 0) :
    Stops oname es c (B.head?.map Entry.obj) ((A.getLast?.map Entry.obj).or o) := by
  have hlast : ∃ a ∈ A, (pre ++ A).getLast? = some a ∧ A.getLast? = some a := by
    cases A with
    | nil =>
        rw [List.nil_append] at hseg
        rw [← hseg] at hB
        obtain ⟨rfl, hle⟩ := hB e rfl
        omega
    | cons a A =>
        refine ⟨(a :: A).getLast (List.cons_ne_nil a A), List.getLast_mem _, ?_, ?_⟩
        · rw [List.getLast?_append, List.getLast?_eq_some_getLast (List.cons_ne_nil a A), Option.some_or]
        · exact List.getLast?_eq_some_getLast _
  obtain ⟨a, ha, hlast, hlastA⟩ := hlast
  rw [hseg, ← List.append_assoc] at hes
  cases B with
  | nil =>
      rw [List.append_nil] at hes
      rw [hlastA, List.head?_nil, Option.map_none, Option.map_some, Option.some_or, ← Option.map_some,
        ← hlast, ← hes]
      refine .behind ?_ (hnil rfl)
      intro a' ha'
      rw [hes, hlast] at ha'
      obtain rfl := Option.some.inj ha'
      exact hA a ha
  | cons b B =>
      obtain ⟨rfl, hle⟩ := hB b rfl
      rcases Int.lt_or_eq_of_le hle with hpos | hzero
      · refine .before hes ?_ hpos hpos
        intro a' ha'
        rw [hlast] at ha'
        obtain rfl := Option.some.inj ha'
        exact hA a ha
      · rw [← hzero]
        exact .hit hes hzero.symm

/-- The entry that the search starts at: the cursor, or the first entry where there is none. -/
theorem Data.Lists.start {d : Data} (h : d.Lists es) (hne : es ≠ []) {f i l : Option ObjId}
    (hd : d.asTable = .ok (f, i, l)) : ∃ e ∈ es, (i <|> f) = some e.obj := by
  obtain ⟨j, hdj, hj⟩ := h
  obtain ⟨rfl, rfl, rfl⟩ : es.head?.map Entry.obj = f ∧ j = i ∧ es.getLast?.map Entry.obj = l := by
    rw [hdj] at hd
    simpa using hd
  cases j with
  | none =>
      obtain ⟨e, es', rfl⟩ := List.exists_cons_of_ne_nil hne
      exact ⟨e, List.mem_cons_self .., rfl⟩
  | some o =>
      obtain ⟨e, he, rfl⟩ := hj hne o rfl
      exact ⟨e, he, rfl⟩

/-- The search stops, with the table as it was but for the cursor. -/
theorem locateSearch_run (hR : Searchable t es R) (h : R s) (hne : es ≠ []) (oname : List Byte) (setobj : Bool) :
    ∃ c cobj oobj s', Stops oname es c cobj oobj ∧
      (locateSearch t oname setobj).run s = .ok (found setobj c cobj oobj) s' ∧ R s' := by
  obtain ⟨v, y, hlook, hauto, hlists⟩ := hR.look s h
  have hlinks := hlists
  obtain ⟨i, hd, -⟩ := hlinks
  obtain ⟨e, he, hstart⟩ := hlists.start hne hd
  obtain ⟨pre, post, hes⟩ := List.append_of_mem he
  obtain ⟨x, hx, hat⟩ := hR.linked s h pre e post hes
  have hlen := hR.short s h
  rw [locateSearch, Action.run_bind_ok (getVal_run hlook), hd, Action.run_bind_ok (member_run _ _)]
  dsimp only
  rw [Action.run_bind_ok (walkFuel_run s), if_pos hauto, if_pos hauto, hstart]
  dsimp only
  rw [Action.run_bind_ok (getObj_run hx), Action.run_bind_ok (Action.run_pure _ _),
    locateCmp_entry oname hat, hauto]
  rcases Int.lt_trichotomy (entryCmp oname e) 0 with hneg | hzero | hpos
  · -- forward from the cursor
    rw [if_pos hneg]
    obtain ⟨A, B, c, s', hseg, hA, hB, hnil, hrun, h'⟩ := locateForward_run hR oname (e :: post)
      (s.objs.next + s.vals.next + 1) (entryCmp oname e) (some e.obj) s pre h hes
      (by rw [hes] at hlen; simp at hlen ⊢; omega) (fun hnil => by cases hnil)
    refine ⟨c, B.head?.map Entry.obj, (A.getLast?.map Entry.obj).or (some e.obj), s',
      Stops.of_forward hes hneg hseg hA hB hnil, ?_, h'⟩
    rw [List.head?_cons, Option.map_some] at hrun
    rw [Action.run_bind_ok hrun, found]
    split <;> rfl
  · rw [if_neg (by omega), if_neg (by omega)]
    refine ⟨0, some e.obj, some e.obj, s, .hit hes hzero, ?_, h⟩
    rw [hzero, found, if_neg (by simp)]
    rfl
  · -- backward from the cursor
    rw [if_neg (by omega), if_pos ⟨rfl, hpos⟩]
    obtain ⟨A, B, c, s', hseg, hB, hA, hnil, hrun, h'⟩ := locateBackward_run hR oname (pre ++ [e])
      (s.objs.next + s.vals.next + 1) (entryCmp oname e) (some e.obj) s post h
      (by rw [hes, List.append_assoc]; rfl)
      (by rw [hes] at hlen; simp at hlen ⊢; omega) (by simp)
    rw [List.getLast?_concat, Option.map_some] at hrun
    rw [Action.run_bind_ok hrun]
    -- the cursor is above the name, so that the loop has moved
    obtain ⟨b, B, rfl⟩ : ∃ b B', B = b :: B' := by
      cases B with
      | nil =>
          rw [List.append_nil] at hseg
          rw [← hseg, List.getLast?_concat] at hA
          obtain ⟨rfl, hle⟩ := hA e rfl
          omega
      | cons b B => exact ⟨b, B, rfl⟩
    have hes' : es = A ++ b :: (B ++ post) := by
      rw [hes, List.append_cons, hseg, List.append_assoc]
      rfl
    have hb : 0 < entryCmp oname b := hB b (List.mem_cons_self ..)
    rw [List.head?_cons, Option.map_some, Option.some_or]
    dsimp only
    cases hlast : A.getLast? with
    | none =>
        have hc : 0 < c := hnil (List.getLast?_eq_none_iff.mp hlast)
        refine ⟨c, some b.obj, some b.obj, s', .before hes' (by simp [hlast]) hb hc, ?_, h'⟩
        have hge : ¬ c < 0 := by omega
        rw [found, if_neg hge, if_pos hc]
        split <;> rfl
    | some a =>
        rw [hlast] at hA
        obtain ⟨rfl, hle⟩ := hA a rfl
        obtain ⟨A', rfl⟩ : ∃ A', A = A' ++ [a] := List.getLast?_eq_some_iff.mp hlast
        rcases Int.lt_or_eq_of_le hle with hlt | hzero
        · obtain ⟨x', hx', hat'⟩ := hR.linked s' h' A' a (b :: (B ++ post)) (by rw [hes', List.append_assoc]; rfl)
          refine ⟨1, some b.obj, some a.obj, s', .before hes' ?_ hb Int.one_pos, ?_, h'⟩
          · simpa [hlast] using hlt
          · rw [found]
            cases setobj with
            | false => rw [if_pos ⟨rfl, by omega⟩, if_pos ⟨rfl, by omega⟩]; rfl
            | true =>
                rw [if_pos hlt, Option.map_some, if_neg (by simp), if_neg (by simp)]
                dsimp only
                rw [Action.run_bind_ok (getObj_run hx'), hat'.2.1]
                rfl
        · refine ⟨0, some a.obj, some b.obj, s', .hit (A := A') (B := b :: (B ++ post)) ?_ hzero, ?_, h'⟩
          · rw [hes', List.append_assoc]
            rfl
          · rw [hzero, found, if_neg (by simp), if_neg (by simp), if_neg (by simp), if_neg (by simp)]
            rfl

/-! ### Changes of a table -/

/-- An object that the new entry `c` may stand before or behind. -/
def relink (A B : List Entry) (c o : ObjId) (x : Obj) : Obj :=
  { x with
    prev := if B.head?.map Entry.obj = some o then some c else x.prev
    next := if A.getLast?.map Entry.obj = some o then some c else x.next }

/-- What the links of a table depend on. -/
def Entry.key (e : Entry) : ObjId × ValId × List Byte := (e.obj, e.val, e.name)

/-- What is in a list with `b` in the middle is `b` or is around it. -/
theorem mem_middle {α : Type} {a b : α} {xs ys : List α} : a ∈ xs ++ b :: ys ↔ a = b ∨ a ∈ xs ++ ys := by
  rw [List.perm_middle.mem_iff, List.mem_cons]

theorem getLast?_obj (es : List Entry) :
    es.getLast?.map Entry.obj = (es.map Entry.key).getLast?.map Prod.fst := by
  rw [List.getLast?_map, Option.map_map]
  rfl

theorem head?_obj (es : List Entry) : es.head?.map Entry.obj = (es.map Entry.key).head?.map Prod.fst := by
  rw [List.head?_map, Option.map_map]
  rfl

/-- The links do not depend on the contents. -/
theorem TableRep.linked_of_key (h : TableRep s t vt es) {es' : List Entry}
    (hkey : es'.map Entry.key = es.map Entry.key) {pre post : List Entry} {e : Entry}
    (hes : es' = pre ++ e :: post) : ∃ x, s.objs.get e.obj = some x ∧ e.At pre post x := by
  rw [hes, List.map_append, List.map_cons] at hkey
  obtain ⟨pre', rest, hsplit, hpre, hrest⟩ := List.map_eq_append_iff.mp hkey.symm
  obtain ⟨e', post', rfl, he, hpost⟩ := List.map_eq_cons_iff.mp hrest
  obtain ⟨x, hx, hprev, hnext, hval, hname, hnval⟩ := h.linked pre' e' post' hsplit
  obtain ⟨hobj', hval', hname'⟩ : e'.obj = e.obj ∧ e'.val = e.val ∧ e'.name = e.name := by
    simpa [Entry.key] using he
  refine ⟨x, hobj' ▸ hx, ?_, ?_, hval' ▸ hval, hname' ▸ hname, hname' ▸ hnval⟩
  · rw [hprev, getLast?_obj, getLast?_obj, hpre]
  · rw [hnext, head?_obj, head?_obj, hpost]

/-- The value of an entry is written. -/
theorem TableRep.write {A B : List Entry} {e : Entry} (h : TableRep s t vt (A ++ e :: B)) {s' : Store}
    {y : Val} (hobjs : s'.objs = s.objs) (hvals : ∀ v, v ≠ e.val → s'.vals.get v = s.vals.get v)
    (hy : s'.vals.get e.val = some y) (hz : y.ztable = none) :
    TableRep s' t vt (A ++ { e with content := y.content } :: B) := by
  have he : e ∈ A ++ e :: B := by simp
  have hkey : (A ++ { e with content := y.content } :: B).map Entry.key = (A ++ e :: B).map Entry.key := by
    simp [Entry.key]
  have hobjkey : ∀ es : List Entry, es.map Entry.obj = (es.map Entry.key).map Prod.fst := by
    simp [Entry.key]
  have hvalkey : ∀ es : List Entry, es.map Entry.val = (es.map Entry.key).map (fun k => k.2.1) := by
    simp [Entry.key]
  -- the values of the other entries are other values
  have hothers : ∀ e' ∈ A ++ B, e'.val ≠ e.val := by
    have hnodup := h.vals
    rw [List.map_append, List.map_cons, List.nodup_middle, ← List.map_append] at hnodup
    intro e' he' heq
    exact (List.nodup_cons.mp hnodup).1 (heq ▸ List.mem_map_of_mem he')
  refine ⟨?_, ?_, ?_, ?_, ?_, ?_, ?_⟩
  · rw [Store.ptr, hobjs]
    exact h.ptr
  · obtain ⟨z, hz, htype, hauto, hztable, i, hd, hi⟩ := h.table
    refine ⟨z, by rw [hvals vt (Ne.symm (h.apart e he)), hz], htype, hauto, hztable, i, ?_, ?_⟩
    · rw [hd, getLast?_obj, head?_obj, ← hkey, ← getLast?_obj, ← head?_obj]
    · intro _ o ho
      obtain ⟨e', he', rfl⟩ := hi (by simp) o ho
      have hmem : e'.obj ∈ (A ++ { e with content := y.content } :: B).map Entry.obj := by
        rw [hobjkey, hkey, ← hobjkey]
        exact List.mem_map_of_mem he'
      exact List.mem_map.mp hmem
  · intro pre e' post hsplit
    rw [hobjs]
    exact h.linked_of_key hkey hsplit
  · intro e' he'
    rcases mem_middle.mp he' with rfl | he'
    · exact ⟨y, hy, hz, rfl⟩
    · rw [hvals e'.val (hothers e' he')]
      exact h.values e' (mem_middle.mpr (.inr he'))
  · rw [hobjkey, hkey, ← hobjkey]
    exact h.objs
  · rw [hvalkey, hkey, ← hvalkey]
    exact h.vals
  · intro e' he'
    rcases mem_middle.mp he' with rfl | he'
    · exact h.apart e he
    · exact h.apart e' (mem_middle.mpr (.inr he'))

theorem TableRep.obj_ne (h : TableRep s t vt es) {A B : List Entry} (hes : es = A ++ B) {a b : Entry}
    (ha : a ∈ A) (hb : b ∈ B) : a.obj ≠ b.obj := by
  have hnodup := h.objs
  rw [hes, List.map_append] at hnodup
  exact (List.nodup_append.mp hnodup).2.2 _ (List.mem_map_of_mem ha) _ (List.mem_map_of_mem hb)

/-- The links of an entry behind the new one. -/
theorem TableRep.relink_behind {A as post : List Entry} {e' : Entry}
    (h : TableRep s t vt (A ++ (as ++ e' :: post))) (e : Entry) :
    ∃ x, s.objs.get e'.obj = some x ∧
      e'.At (A ++ e :: as) post (relink A (as ++ e' :: post) e.obj e'.obj x) := by
  obtain ⟨x, hx, hprev, hnext, hrest⟩ := h.linked (A ++ as) e' post (by rw [List.append_assoc])
  refine ⟨x, hx, ?_, ?_, hrest⟩
  · cases as with
    | nil => simp [relink]
    | cons a as =>
        have hne : a.obj ≠ e'.obj := h.obj_ne (A := A ++ a :: as) (by rw [List.append_assoc]) (by simp)
          (List.mem_cons_self ..)
        simp [relink, hne, hprev, List.getLast?_append, List.getLast?_cons]
  · have hne : A.getLast?.map Entry.obj ≠ some e'.obj := by
      intro heq
      obtain ⟨a, ha, heq⟩ := Option.map_eq_some_iff.mp heq
      exact h.obj_ne rfl (List.mem_of_getLast? ha) (by simp) heq
    simp only [relink, if_neg hne, hnext]

/-- The links of an entry before the new one. -/
theorem TableRep.relink_before {pre bs B : List Entry} {e' : Entry}
    (h : TableRep s t vt (pre ++ e' :: bs ++ B)) (e : Entry) :
    ∃ x, s.objs.get e'.obj = some x ∧
      e'.At pre (bs ++ e :: B) (relink (pre ++ e' :: bs) B e.obj e'.obj x) := by
  obtain ⟨x, hx, hprev, hnext, hrest⟩ := h.linked pre e' (bs ++ B) (by rw [List.append_assoc]; rfl)
  refine ⟨x, hx, ?_, ?_, hrest⟩
  · have hne : B.head?.map Entry.obj ≠ some e'.obj := by
      intro heq
      obtain ⟨b, hb, heq⟩ := Option.map_eq_some_iff.mp heq
      exact h.obj_ne rfl (by simp) (List.mem_of_head? hb) heq.symm
    simp only [relink, if_neg hne, hprev]
  · cases bs with
    | nil => simp [relink]
    | cons b bs =>
        have hne : (pre ++ e' :: b :: bs).getLast?.map Entry.obj ≠ some e'.obj := by
          intro heq
          obtain ⟨a, ha, heq⟩ := Option.map_eq_some_iff.mp heq
          rw [List.append_cons, List.getLast?_append_of_ne_nil _ (List.cons_ne_nil b bs)] at ha
          refine h.obj_ne (A := pre ++ [e']) (B := b :: bs ++ B) (by simp) (a := e') (by simp) ?_ heq.symm
          exact List.mem_append_left _ (List.mem_of_getLast? ha)
        simp only [relink, if_neg hne, hnext]
        rfl

/-- A new entry is linked in between `A` and `B`. -/
theorem TableRep.insert {A B : List Entry} {e : Entry} (h : TableRep s t vt (A ++ B)) {s' : Store}
    (hnew : s.objs.get e.obj = none) (hnewv : s.vals.get e.val = none)
    (hobj : ∃ x, s'.objs.get e.obj = some x ∧ e.At A B x)
    (hobjs : ∀ o x, s.objs.get o = some x → s'.objs.get o = some (relink A B e.obj o x))
    (hval : ∃ y, s'.vals.get e.val = some y ∧ y.ztable = none ∧ y.content = e.content)
    (hvals : ∀ v, v ≠ vt → v ≠ e.val → s'.vals.get v = s.vals.get v)
    (htab : ∃ y, s'.vals.get vt = some y ∧ TableVal (A ++ e :: B) y) :
    TableRep s' t vt (A ++ e :: B) := by
  have hfresh : ∀ e' ∈ A ++ B, e'.obj ≠ e.obj ∧ e'.val ≠ e.val := by
    intro e' he'
    obtain ⟨x, hx, -⟩ := h.entry he'
    obtain ⟨y, hy, -⟩ := h.values e' he'
    refine ⟨fun heq => ?_, fun heq => ?_⟩
    · rw [heq, hnew] at hx
      cases hx
    · rw [heq, hnewv] at hy
      cases hy
  have hvt : e.val ≠ vt := by
    rintro heq
    obtain ⟨y, hy, -⟩ := h.table
    rw [← heq, hnewv] at hy
    cases hy
  refine ⟨?_, htab, ?_, ?_, ?_, ?_, ?_⟩
  · obtain ⟨x, hx, hxv⟩ := Option.bind_eq_some_iff.mp h.ptr
    rw [Store.ptr, hobjs t x hx]
    exact hxv
  · intro pre e' post hsplit
    rcases List.append_eq_append_iff.mp hsplit with ⟨as, rfl, hB⟩ | ⟨bs, rfl, hpost⟩
    · cases as with
      | nil =>
          obtain ⟨rfl, rfl⟩ := List.cons.inj hB
          rw [List.append_nil]
          exact hobj
      | cons _ as =>
          obtain ⟨rfl, rfl⟩ := List.cons.inj hB
          obtain ⟨x, hx, hat⟩ := h.relink_behind e
          exact ⟨_, hobjs _ x hx, hat⟩
    · cases bs with
      | nil =>
          obtain ⟨rfl, rfl⟩ := List.cons.inj hpost
          rw [List.append_nil] at hobj
          exact hobj
      | cons _ bs =>
          obtain ⟨rfl, rfl⟩ := List.cons.inj hpost
          obtain ⟨x, hx, hat⟩ := h.relink_before e
          exact ⟨_, hobjs _ x hx, hat⟩
  · intro e' he'
    rcases mem_middle.mp he' with rfl | he'
    · exact hval
    · rw [hvals e'.val (h.apart e' he') (hfresh e' he').2]
      exact h.values e' he'
  · rw [List.map_append, List.map_cons, List.nodup_middle, ← List.map_append]
    refine List.nodup_cons.mpr ⟨fun hmem => ?_, h.objs⟩
    obtain ⟨e', he', heq⟩ := List.mem_map.mp hmem
    exact (hfresh e' he').1 heq
  · rw [List.map_append, List.map_cons, List.nodup_middle, ← List.map_append]
    refine List.nodup_cons.mpr ⟨fun hmem => ?_, h.vals⟩
    obtain ⟨e', he', heq⟩ := List.mem_map.mp hmem
    exact (hfresh e' he').2 heq
  · intro e' he'
    rcases mem_middle.mp he' with rfl | he'
    · exact hvt
    · exact h.apart e' he'

end Rep

end NullG.Nsp
