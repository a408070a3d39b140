/-
The loop that sorts a table (`libs/base/sort.c`).

`sort_byname` and `sort_bykey` are one loop, with two comparisons: passes over the entries, in which neighbours that
stand the wrong way round change places, until a pass changes nothing. `Steps.table_run` says where the loop ends, for
every comparison that tells no two entries to come behind each other.
-/

import NullG.Lib.Bubble
import NullG.Nsp.TableMap
import Mathlib.Data.List.Chain

namespace NullG.Libs.Sort

open NullG.Nsp NullG.Lib

/-! ### The code -/

/-- `if (p != NULL) p->next = next`. -/
def setNextIf (p next : Option ObjId) : H Unit :=
  match p with
  | some p => setNext p next
  | none => pure ()

/-- `if (q != NULL) q->prev = prev`. -/
def setPrevIf (q prev : Option ObjId) : H Unit :=
  match q with
  | some q => setPrev q prev
  | none => pure ()

/-- `cobj` and `nobj`, which stands behind it, change places. -/
def exchange (cobj nobj : ObjId) : H Unit := do
  let x ← getObj cobj
  setPrev nobj x.prev
  let y ← getObj nobj
  setNext cobj y.next
  setNext nobj (some cobj)
  setPrev cobj (some nobj)
  let y ← getObj nobj
  setNextIf y.prev (some nobj)
  let x ← getObj cobj
  setPrevIf x.next (some cobj)

/-- The end of a round of the inner loop: `break`, or an exchange, or neither; `go` are the rounds behind it. -/
def sortNext (go : ObjId → Bool → Option ObjId → H (ObjId × Bool)) (robj : ObjId) (change : Bool)
    (cobj nobj : ObjId) : Option Bool → H (ObjId × Bool)
  | none => return (robj, change)
  | some true => do
      let x ← getObj cobj
      let robj := if x.prev = none ∧ cobj = robj then nobj else robj
      exchange cobj nobj
      let y ← getObj nobj
      go robj true y.next
  | some false => do
      let x ← getObj cobj
      go robj change x.next

section Loops

variable (visit : ObjId → H Unit) (swap : ObjId → ObjId → H (Option Bool))

/-- The inner loop of `sort_byname` and of `sort_bykey`: `visit` is what they do at each entry, and `swap` is what they
find of two neighbours, `none` where they leave the loop. The result is `robj` and `change`. -/
def sortPass : Nat → ObjId → Bool → Option ObjId → H (ObjId × Bool)
  | 0, _, _, _ => .fail .stuck
  | _ + 1, robj, change, none => return (robj, change)
  | n + 1, robj, change, some cobj => do
      if ← nspIsnull cobj then return (robj, change)
      visit cobj
      let x ← getObj cobj
      match x.next with
      | none => return (robj, change)
      | some nobj =>
          let found ← swap cobj nobj
          sortNext (sortPass n) robj change cobj nobj found

/-- The outer loop, with `robj`. -/
def sortLoop (fuel : Nat) : Nat → Option ObjId → H (Option ObjId)
  | 0, _ => .fail .stuck
  | _ + 1, none => return none
  | n + 1, some robj => do
      if ← nspIsnull robj then return some robj
      let (robj, change) ← sortPass visit swap fuel robj false (some robj)
      if change then sortLoop fuel n (some robj) else return some robj

/-- `tobj->val->d.table.f = robj`. -/
def setFirst (tobj : ObjId) (robj : Option ObjId) : H Unit := modTable tobj fun (_, i, l) => (robj, i, l)

/-- `sort_byname` and `sort_bykey` but for what they do at the entries. -/
def sortTable (n : Nat) (tobj : ObjId) : H Unit := do
  let y ← getVal tobj
  let (f, _, _) ← member y.d.asTable
  let robj ← sortLoop visit swap n n f
  setFirst tobj robj

end Loops

/-- `swap = 1`, of two numbers in the given order. -/
def swapBy {α : Type} [LT α] [DecidableLT α] (order : Int) (a b : α) : Bool := if order < 0 then a < b else a > b

/-- No two numbers are both to come behind the other. -/
theorem swapBy_asymm {order : Int} {α : Type} [Preorder α] [DecidableLT α] {a b : α} (h : swapBy order a b = true) :
    swapBy order b a = false := by
  unfold swapBy at h ⊢
  split at h
  · rename_i horder
    rw [if_pos horder]
    exact decide_eq_false (lt_asymm (of_decide_eq_true h))
  · rename_i horder
    rw [if_neg horder]
    exact decide_eq_false (lt_asymm (of_decide_eq_true h))

/-- No two strings are both to come behind the other. -/
theorem swapBy_nameCmp_asymm {order : Int} {p q : List Byte} (h : swapBy order (nameCmp p q) 0 = true) :
    swapBy order (nameCmp q p) 0 = false := by
  have hneg : swapBy order (nameCmp q p) 0 = swapBy order 0 (nameCmp p q) := by
    simp [swapBy, nameCmp_swap p q]
  rw [hneg]
  exact swapBy_asymm h

/-! ### Fuel -/

section Fuel

variable {visit visit' : ObjId → H Unit} {swap : ObjId → ObjId → H (Option Bool)} {n m : Nat}

theorem sortNext_extends {go go' : ObjId → Bool → Option ObjId → H (ObjId × Bool)}
    (hgo : ∀ robj change cobj, (go robj change cobj).Extends (go' robj change cobj)) (robj : ObjId) (change : Bool)
    (cobj nobj : ObjId) (found : Option Bool) :
    (sortNext go robj change cobj nobj found).Extends (sortNext go' robj change cobj nobj found) := by
  rcases found with _ | _ | _
  · exact .refl _
  · exact .bind (.refl _) fun x => hgo _ _ _
  · exact .bind (.refl _) fun x => .bind (.refl _) fun _ => .bind (.refl _) fun y => hgo _ _ _

theorem sortPass_extends (hvisit : ∀ c, (visit c).Extends (visit' c)) (hle : n ≤ m) (robj : ObjId) (change : Bool)
    (cobj : Option ObjId) :
    (sortPass visit swap n robj change cobj).Extends (sortPass visit' swap m robj change cobj) := by
  induction n generalizing m robj change cobj with
  | zero => exact .fail _ _
  | succ n ih =>
      obtain ⟨m, rfl⟩ : ∃ k, m = k + 1 := ⟨m - 1, by omega⟩
      cases cobj with
      | none => exact .refl _
      | some cobj =>
          refine .bind (.refl _) fun null => .ite (.refl _) (.bind (hvisit cobj) fun _ => .bind (.refl _) fun x => ?_)
          cases x.next with
          | none => exact .refl _
          | some nobj =>
              exact .bind (.refl _) (sortNext_extends (fun robj change cobj => ih (by omega) robj change cobj) _ _ _ _)

theorem sortLoop_extends (hvisit : ∀ c, (visit c).Extends (visit' c)) {fuel fuel' : Nat} (hfuel : fuel ≤ fuel')
    (hle : n ≤ m) (robj : Option ObjId) :
    (sortLoop visit swap fuel n robj).Extends (sortLoop visit' swap fuel' m robj) := by
  induction n generalizing m robj with
  | zero => exact .fail _ _
  | succ n ih =>
      obtain ⟨m, rfl⟩ : ∃ k, m = k + 1 := ⟨m - 1, by omega⟩
      cases robj with
      | none => exact .refl _
      | some robj =>
          refine .bind (.refl _) fun null => .ite (.refl _) (.bind (sortPass_extends hvisit hfuel _ _ _) fun r => ?_)
          exact .ite (ih (by omega) _) (.refl _)

/-- More fuel does not change a sort that ended. -/
theorem sortTable_extends (hvisit : ∀ c, (visit c).Extends (visit' c)) (hle : n ≤ m) (tobj : ObjId) :
    (sortTable visit swap n tobj).Extends (sortTable visit' swap m tobj) :=
  .bind (.refl _) fun _ => .bind (.refl _) fun _ => .bind (sortLoop_extends hvisit hle hle _) fun _ => .refl _

end Fuel

/-! ### Lists of entries -/

/-- The objects `es` are linked in both directions, behind `p` and before `q`. -/
def Linked (s : Store) : Option ObjId → List ObjId → Option ObjId → Prop
  | _, [], _ => True
  | p, o :: es, q => (∃ x, s.objs.get o = some x ∧ x.prev = p ∧ x.next = es.head?.or q) ∧ Linked s (some o) es q

/-- The table with the value `v` is the list `es`: it starts at `f`, it is linked in both directions, and no entry is
null. -/
structure Listed (s : Store) (v : ValId) (es : List ObjId) : Prop where
  table : ∃ y i l, s.vals.get v = some y ∧ y.type = .table ∧ y.d.asTable = .ok (es.head?, i, l)
  linked : Linked s none es none
  nodup : es.Nodup
  full : ∀ o ∈ es, ∃ w y, s.look o = .ok (w, y) ∧ y.type ≠ .null

/-- The same of a table in which entries may be null; no value of an entry is freed. -/
structure Strung (s : Store) (v : ValId) (es : List ObjId) : Prop where
  table : ∃ y i l, s.vals.get v = some y ∧ y.type = .table ∧ y.d.asTable = .ok (es.head?, i, l)
  linked : Linked s none es none
  nodup : es.Nodup
  values : ∀ o ∈ es, ∀ w, s.ptr o = some w → ∃ y, s.vals.get w = some y

/-- The type of an object; one without a value is null. -/
def typeAt (s : Store) (o : ObjId) : Ty := ((s.look o).toOption.map fun r => r.2.type).getD .null

/-- An object without its links. -/
def body (x : Obj) : Obj := { x with prev := none, next := none }

/-- The values are the same, but for the first entry and the cursor of a table. -/
def Alike (y y' : Val) : Prop :=
  y' = y ∨ y.type = .table ∧ ∃ f i l f' i', y.d.asTable = .ok (f, i, l) ∧ y' = { y with d := .table f' i' l }

/-- Every object keeps its name and its value, and every value is the same but for the order of a table. -/
structure Kept (s s' : Store) : Prop where
  objs : ∀ o, (s'.objs.get o).map body = (s.objs.get o).map body
  vals : ∀ v y, s.vals.get v = some y → ∃ y', s'.vals.get v = some y' ∧ Alike y y'

/-- The comparison tells no two neighbours to change places. -/
def Settles (swap : ObjId → ObjId → H (Option Bool)) (s : Store) (es : List ObjId) : Prop :=
  ∀ pre a b post, es = pre ++ a :: b :: post → ∃ s', (swap a b).run s = .ok (some false) s'

section Lists

variable {s s' : Store} {p q : Option ObjId} {es A B : List ObjId} {o a b : ObjId}

theorem linked_append : Linked s p (A ++ B) q ↔ Linked s p A (B.head?.or q) ∧ Linked s (A.getLast?.or p) B q := by
  induction A generalizing p with
  | nil => simp [Linked]
  | cons o A ih =>
      have hhead : (A ++ B).head?.or q = A.head?.or (B.head?.or q) := by
        rw [List.head?_append, Option.or_assoc]
      have hlast : (o :: A).getLast?.or p = A.getLast?.or (some o) := by
        cases A <;> simp [List.getLast?_cons]
      rw [List.cons_append, Linked, Linked, ih, hhead, hlast, and_assoc]

theorem Linked.congr (h : Linked s p es q) (hobjs : ∀ o ∈ es, s'.objs.get o = s.objs.get o) : Linked s' p es q := by
  induction es generalizing p with
  | nil => trivial
  | cons o es ih =>
      obtain ⟨⟨x, hx, hlinks⟩, hrest⟩ := h
      refine ⟨⟨x, ?_, hlinks⟩, ih hrest fun a ha => hobjs a (List.mem_cons_of_mem o ha)⟩
      rw [hobjs o (List.mem_cons_self ..)]
      exact hx

theorem Linked.get (h : Linked s p (A ++ o :: B) q) :
    ∃ x, s.objs.get o = some x ∧ x.prev = A.getLast?.or p ∧ x.next = B.head?.or q :=
  (linked_append.mp h).2.1

theorem Linked.get_of_mem (h : Linked s p es q) (ho : o ∈ es) : ∃ x, s.objs.get o = some x := by
  obtain ⟨A, B, rfl⟩ := List.append_of_mem ho
  obtain ⟨x, hx, -⟩ := h.get
  exact ⟨x, hx⟩

/-- The links of the objects `es` changed, and nothing else. -/
structure Relinked (es : List ObjId) (s s' : Store) : Prop where
  rest : s' = { s with objs := s'.objs }
  next : s'.objs.next = s.objs.next
  outside : ∀ o, o ∉ es → s'.objs.get o = s.objs.get o
  inside : ∀ o, (s'.objs.get o).map body = (s.objs.get o).map body

theorem Relinked.refl (es : List ObjId) (s : Store) : Relinked es s s := ⟨rfl, rfl, fun _ _ => rfl, fun _ => rfl⟩

theorem Relinked.trans {s₁ s₂ s₃ : Store} (h : Relinked es s₁ s₂) (h' : Relinked es s₂ s₃) : Relinked es s₁ s₃ := by
  refine ⟨?_, h'.next.trans h.next, fun o ho => (h'.outside o ho).trans (h.outside o ho), ?_⟩
  · rw [h'.rest, h.rest]
  · exact fun o => (h'.inside o).trans (h.inside o)

theorem Relinked.mono {fs : List ObjId} (h : Relinked es s s') (hsub : es ⊆ fs) : Relinked fs s s' :=
  ⟨h.rest, h.next, fun o ho => h.outside o fun hmem => ho (hsub hmem), h.inside⟩

/-- One object is written, and keeps its body. -/
theorem modLinks_run {f : Obj → Obj} {hf} {x : Obj} (hbody : body (f x) = body x) (hx : s.objs.get o = some x) :
    ∃ s', (modObj o f hf).run s = .ok () s' ∧ s'.objs.get o = some (f x) ∧ Relinked [o] s s' := by
  refine ⟨_, modObj_run hx, ?_, rfl, rfl, ?_, ?_⟩
  · rw [Cells.get_modify_self, hx, Option.map_some]
  · intro a ha
    exact Cells.get_modify_of_ne _ (by simpa using ha)
  · intro a
    by_cases ha : a = o
    · subst ha
      rw [Cells.get_modify_self, hx, Option.map_some, Option.map_some, Option.map_some, hbody]
    · rw [Cells.get_modify_of_ne _ ha]

theorem setNext_links {x : Obj} (hx : s.objs.get o = some x) (q : Option ObjId) :
    ∃ s', (setNext o q).run s = .ok () s' ∧ s'.objs.get o = some { x with next := q } ∧ Relinked [o] s s' :=
  modLinks_run rfl hx

theorem setPrev_links {x : Obj} (hx : s.objs.get o = some x) (p : Option ObjId) :
    ∃ s', (setPrev o p).run s = .ok () s' ∧ s'.objs.get o = some { x with prev := p } ∧ Relinked [o] s s' :=
  modLinks_run rfl hx

/-- A segment gets another end. -/
theorem setNextIf_run (h : Linked s p A q) (hA : A.Nodup) (q' : Option ObjId) :
    ∃ s', (setNextIf A.getLast? q').run s = .ok () s' ∧ Linked s' p A q' ∧ Relinked A s s' := by
  induction A using List.reverseRecOn with
  | nil => exact ⟨s, rfl, trivial, .refl _ s⟩
  | append_singleton A a =>
      obtain ⟨x, hx, hprev, -⟩ := h.get
      obtain ⟨s', hrun, hget, hre⟩ := setNext_links hx q'
      refine ⟨s', by rw [List.getLast?_concat]; exact hrun, ?_, hre.mono (by simp)⟩
      have hfirst : Linked s p A (some a) := (linked_append.mp h).1
      refine linked_append.mpr ⟨hfirst.congr ?_, ⟨_, hget, hprev, rfl⟩, trivial⟩
      intro o ho
      refine hre.outside o ?_
      intro hmem
      obtain rfl := List.mem_singleton.mp hmem
      exact (List.nodup_append.mp hA).2.2 _ ho _ (by simp) rfl

/-- A segment gets another start. -/
theorem setPrevIf_run (h : Linked s p B q) (hB : B.Nodup) (p' : Option ObjId) :
    ∃ s', (setPrevIf B.head? p').run s = .ok () s' ∧ Linked s' p' B q ∧ Relinked B s s' := by
  cases B with
  | nil => exact ⟨s, rfl, trivial, .refl _ s⟩
  | cons b B =>
      obtain ⟨⟨x, hx, -, hnext⟩, hrest⟩ := h
      obtain ⟨s', hrun, hget, hre⟩ := setPrev_links hx p'
      refine ⟨s', hrun, ⟨⟨_, hget, rfl, hnext⟩, hrest.congr ?_⟩, hre.mono (by simp)⟩
      intro o ho
      refine hre.outside o ?_
      intro hmem
      obtain rfl := List.mem_singleton.mp hmem
      exact (List.nodup_cons.mp hB).1 ho

end Lists

/-! ### An exchange -/

section Exchange

variable {s : Store} {A B : List ObjId} {c n : ObjId}

/-- The links between the two objects, and those that lead out of them. -/
theorem turn_run {x y : Obj} (hx : s.objs.get c = some x) (hy : s.objs.get n = some y) (hne : c ≠ n) {k : H Unit} :
    ∃ s', (do
        let x ← getObj c
        setPrev n x.prev
        let y ← getObj n
        setNext c y.next
        setNext n (some c)
        setPrev c (some n)
        k : H Unit).run s = k.run s' ∧
      s'.objs.get c = some { x with next := y.next, prev := some n } ∧
      s'.objs.get n = some { y with prev := x.prev, next := some c } ∧ Relinked [c, n] s s' := by
  obtain ⟨s₁, hrun₁, hn₁, hre₁⟩ := setPrev_links hy x.prev
  have hc₁ : s₁.objs.get c = some x := (hre₁.outside c (by simpa using hne)).trans hx
  obtain ⟨s₂, hrun₂, hc₂, hre₂⟩ := setNext_links hc₁ y.next
  have hn₂ := (hre₂.outside n (by simpa using hne.symm)).trans hn₁
  obtain ⟨s₃, hrun₃, hn₃, hre₃⟩ := setNext_links hn₂ (some c)
  have hc₃ := (hre₃.outside c (by simpa using hne)).trans hc₂
  obtain ⟨s₄, hrun₄, hc₄, hre₄⟩ := setPrev_links hc₃ (some n)
  have hn₄ := (hre₄.outside n (by simpa using hne.symm)).trans hn₃
  refine ⟨s₄, ?_, hc₄, hn₄, ?_⟩
  · rw [Action.run_bind_ok (getObj_run hx), Action.run_bind_ok hrun₁, Action.run_bind_ok (getObj_run hn₁),
      Action.run_bind_ok hrun₂, Action.run_bind_ok hrun₃, Action.run_bind_ok hrun₄]
  · have hsub : ∀ o ∈ [c, n], [o] ⊆ [c, n] := by simp
    exact (((hre₁.mono (hsub n (by simp))).trans (hre₂.mono (hsub c (by simp)))).trans
      (hre₃.mono (hsub n (by simp)))).trans (hre₄.mono (hsub c (by simp)))

/-- Neighbours change places in the list. -/
theorem exchange_run (h : Linked s none (A ++ c :: n :: B) none) (hnodup : (A ++ c :: n :: B).Nodup) :
    ∃ s', (exchange c n).run s = .ok () s' ∧ Linked s' none (A ++ n :: c :: B) none ∧
      Relinked (A ++ c :: n :: B) s s' := by
  obtain ⟨hA, ⟨x, hx, hprev, -⟩, ⟨y, hy, -, hnext⟩, hB⟩ := linked_append.mp h
  obtain ⟨hnodupA, hnodupB, hapart⟩ := List.nodup_append.mp hnodup
  obtain ⟨hc, hnodupB⟩ := List.nodup_cons.mp hnodupB
  obtain ⟨hn, hnodupB⟩ := List.nodup_cons.mp hnodupB
  have hne : c ≠ n := fun heq => hc (by simp [heq])
  have hcB : c ∉ B := fun hmem => hc (List.mem_cons_of_mem n hmem)
  have hoffA : ∀ o ∈ A, o ∉ [c, n] := by
    intro o ho hmem
    rcases List.mem_cons.mp hmem with rfl | hmem
    · exact hapart o ho o (by simp) rfl
    · obtain rfl := List.mem_singleton.mp hmem
      exact hapart o ho o (by simp) rfl
  have hoffB : ∀ o ∈ B, o ∉ [c, n] := by
    intro o ho hmem
    rcases List.mem_cons.mp hmem with rfl | hmem
    · exact hcB ho
    · obtain rfl := List.mem_singleton.mp hmem
      exact hn ho
  rw [Option.or_none] at hprev hnext
  obtain ⟨s₁, hrun₁, hc₁, hn₁, hre₁⟩ := turn_run hx hy hne (k := do
    let y ← getObj n
    setNextIf y.prev (some n)
    let x ← getObj c
    setPrevIf x.next (some c))
  obtain ⟨s₂, hrun₂, hA₂, hre₂⟩ :=
    setNextIf_run (hA.congr fun o ho => hre₁.outside o (hoffA o ho)) hnodupA (some n)
  have hc₂ := (hre₂.outside c fun hmem => hoffA c hmem (by simp)).trans hc₁
  have hn₂ := (hre₂.outside n fun hmem => hoffA n hmem (by simp)).trans hn₁
  have hB₂ : Linked s₂ (some n) B none := by
    refine hB.congr fun o ho => ?_
    have hoA : o ∉ A := fun hmem => hapart o hmem o (by simp [ho]) rfl
    rw [hre₂.outside o hoA, hre₁.outside o (hoffB o ho)]
  obtain ⟨s₃, hrun₃, hB₃, hre₃⟩ := setPrevIf_run hB₂ hnodupB (some c)
  have hc₃ := (hre₃.outside c hcB).trans hc₂
  have hn₃ := (hre₃.outside n hn).trans hn₂
  refine ⟨s₃, ?_, ?_, ?_⟩
  · rw [exchange, hrun₁, Action.run_bind_ok (getObj_run hn₁), hprev, Action.run_bind_ok hrun₂,
      Action.run_bind_ok (getObj_run hc₂), hnext, hrun₃]
  · refine linked_append.mpr ⟨?_, ⟨_, hn₃, by simp [hprev], rfl⟩, ⟨_, hc₃, rfl, by simp [hnext]⟩, hB₃⟩
    exact hA₂.congr fun o ho => hre₃.outside o fun hmem => hapart o ho o (by simp [hmem]) rfl
  · exact ((hre₁.mono (by simp)).trans (hre₂.mono (by simp))).trans (hre₃.mono (by
      intro o ho
      simp [ho]))

end Exchange

/-! ### The loops -/

/-- The step leaves the links of `es`, and what is known of them. -/
def Calm (es : List ObjId) (V : ObjId → Store → Prop) (s s' : Store) : Prop :=
  ∀ o ∈ es, s'.objs.get o = s.objs.get o ∧ (V o s → V o s')

/-- In the memories with `I` the loops can go over the entries `es`: what they find of two of them is always the same,
and a visit leaves an entry with `V`. They end at an entry that is `null`. -/
structure Steps (es : List ObjId) (null : ObjId → Bool) (visit : ObjId → H Unit)
    (swap : ObjId → ObjId → H (Option Bool)) (verdict : ObjId → ObjId → Option Bool) (I : Store → Prop)
    (V : ObjId → Store → Prop) : Prop where
  present : ∀ s, I s → ∀ o ∈ es, (nspIsnull o).run s = .ok (null o) s
  ends : ∀ o ∈ es, null o = true → ∀ n, verdict o n = none
  visit : ∀ s, I s → ∀ c ∈ es, null c = false →
    ∃ s', (visit c).run s = .ok () s' ∧ I s' ∧ Calm es V s s' ∧ V c s'
  swap : ∀ s, I s → ∀ c ∈ es, null c = false → ∀ n ∈ es,
    ∃ s', (swap c n).run s = .ok (verdict c n) s' ∧ I s' ∧ Calm es V s s'
  relink : ∀ s s' fs, I s → Relinked es s s' → Linked s' none fs none → fs.Perm es →
    I s' ∧ ∀ o ∈ es, V o s → V o s'

theorem Steps.of_perm {es es' : List ObjId} {null : ObjId → Bool} {visit : ObjId → H Unit}
    {swap : ObjId → ObjId → H (Option Bool)} {verdict : ObjId → ObjId → Option Bool} {I : Store → Prop}
    {V : ObjId → Store → Prop} (hS : Steps es null visit swap verdict I V) (hperm : es'.Perm es) :
    Steps es' null visit swap verdict I V where
  present s hI o ho := hS.present s hI o (hperm.subset ho)
  ends o ho := hS.ends o (hperm.subset ho)
  visit s hI c hc hnull := by
    obtain ⟨s', hrun, hI', hcalm, hV⟩ := hS.visit s hI c (hperm.subset hc) hnull
    exact ⟨s', hrun, hI', fun o ho => hcalm o (hperm.subset ho), hV⟩
  swap s hI c hc hnull n hn := by
    obtain ⟨s', hrun, hI', hcalm⟩ := hS.swap s hI c (hperm.subset hc) hnull n (hperm.subset hn)
    exact ⟨s', hrun, hI', fun o ho => hcalm o (hperm.subset ho)⟩
  relink s s' fs hI hre hlinked hfs := by
    obtain ⟨hI', hV⟩ := hS.relink s s' fs hI (hre.mono hperm.subset) hlinked (hfs.trans hperm)
    exact ⟨hI', fun o ho => hV o (hperm.subset ho)⟩

/-- What the visits, the comparisons and the exchanges keep besides. -/
theorem Steps.and {es : List ObjId} {null : ObjId → Bool} {visit : ObjId → H Unit}
    {swap : ObjId → ObjId → H (Option Bool)} {verdict : ObjId → ObjId → Option Bool} {I J : Store → Prop}
    {V : ObjId → Store → Prop} (hS : Steps es null visit swap verdict I V)
    (hvisit : ∀ s s' c, I s → J s → c ∈ es → null c = false → (visit c).run s = .ok () s' → J s')
    (hswap : ∀ s s' c n, I s → J s → c ∈ es → null c = false → n ∈ es → (swap c n).run s = .ok (verdict c n) s' → J s')
    (hrelink : ∀ s s' fs, J s → Relinked es s s' → Linked s' none fs none → fs.Perm es → J s') :
    Steps es null visit swap verdict (fun s => I s ∧ J s) V where
  present s h o ho := hS.present s h.1 o ho
  ends := hS.ends
  visit s h c hc hnull := by
    obtain ⟨s', hrun, hI', hcalm, hV⟩ := hS.visit s h.1 c hc hnull
    exact ⟨s', hrun, ⟨hI', hvisit s s' c h.1 h.2 hc hnull hrun⟩, hcalm, hV⟩
  swap s h c hc hnull n hn := by
    obtain ⟨s', hrun, hI', hcalm⟩ := hS.swap s h.1 c hc hnull n hn
    exact ⟨s', hrun, ⟨hI', hswap s s' c n h.1 h.2 hc hnull hn hrun⟩, hcalm⟩
  relink s s' fs h hre hlinked hfs := by
    obtain ⟨hI', hV⟩ := hS.relink s s' fs h.1 hre hlinked hfs
    exact ⟨⟨hI', hrelink s s' fs h.2 hre hlinked hfs⟩, hV⟩

section Loops

variable {es : List ObjId} {null : ObjId → Bool} {visit : ObjId → H Unit} {swap : ObjId → ObjId → H (Option Bool)}
  {verdict : ObjId → ObjId → Option Bool} {I : Store → Prop} {V : ObjId → Store → Prop} {s : Store}

/-- A pass over the entries behind `A`. -/
theorem Steps.pass_run (hS : Steps es null visit swap verdict I V) (hnodup : es.Nodup) {A B : List ObjId}
    {c robj : ObjId} (hperm : (A ++ c :: B).Perm es) (h : Linked s none (A ++ c :: B) none) (hI : I s) {k : Nat}
    (hk : B.length < k) (hrobj : (A ++ c :: B).head? = some robj) (change : Bool) :
    ∃ robj' s', (sortPass visit swap k robj change (some c)).run s =
        .ok (robj', change || Bubble.moves verdict c B) s' ∧
      (A ++ Bubble.pass verdict c B).head? = some robj' ∧ Linked s' none (A ++ Bubble.pass verdict c B) none ∧ I s' ∧
      (∀ o ∈ es, V o s → V o s') ∧
      (Bubble.moves verdict c B = false → (∀ a ∈ es, ∀ b ∈ es, verdict a b ≠ none) → ∀ o ∈ c :: B, V o s') := by
  induction B generalizing A c robj s k change with
  | nil =>
      obtain ⟨k, rfl⟩ : ∃ m, k = m + 1 := ⟨k - 1, by omega⟩
      have hc : c ∈ es := hperm.subset (by simp)
      cases hnull : null c with
      | true =>
          refine ⟨robj, s, ?_, hrobj, h, hI, fun o ho hV => hV,
            fun _ hgo => absurd (hS.ends c hc hnull c) (hgo c hc c hc)⟩
          rw [sortPass, Action.run_bind_ok (hS.present s hI c hc), if_pos hnull, Bubble.moves, Bool.or_false]
          rfl
      | false =>
          obtain ⟨s₁, hvisit, hI₁, hcalm, hV⟩ := hS.visit s hI c hc hnull
          have h₁ := h.congr fun o ho => (hcalm o (hperm.subset ho)).1
          obtain ⟨x, hx, -, hnext⟩ := h₁.get
          refine ⟨robj, s₁, ?_, hrobj, h₁, hI₁, fun o ho => (hcalm o ho).2, fun _ _ o ho => ?_⟩
          · rw [sortPass, Action.run_bind_ok (hS.present s hI c hc), if_neg (by simp [hnull]),
              Action.run_bind_ok hvisit, Action.run_bind_ok (getObj_run hx), hnext, Bubble.moves, Bool.or_false]
            rfl
          · obtain rfl := List.mem_singleton.mp ho
            exact hV
  | cons n B ih =>
      obtain ⟨k, rfl⟩ : ∃ m, k = m + 1 := ⟨k - 1, by omega⟩
      have hc : c ∈ es := hperm.subset (by simp)
      have hn : n ∈ es := hperm.subset (by simp)
      have hlen : B.length < k := by simpa using hk
      -- the pass ends at a null entry
      by_cases hnull : null c = true
      · have hv := hS.ends c hc hnull n
        rw [Bubble.moves_stop hv, Bubble.pass_stop hv, Bool.or_false]
        refine ⟨robj, s, ?_, hrobj, h, hI, fun o ho hV => hV, fun _ hgo => absurd hv (hgo c hc n hn)⟩
        rw [sortPass, Action.run_bind_ok (hS.present s hI c hc), if_pos hnull]
        rfl
      have hnull := Bool.eq_false_iff.mpr hnull
      obtain ⟨s₁, hvisit, hI₁, hcalm₁, hV⟩ := hS.visit s hI c hc hnull
      have h₁ := h.congr fun o ho => (hcalm₁ o (hperm.subset ho)).1
      obtain ⟨x, hx, -, hnext⟩ := h₁.get
      obtain ⟨s₂, hswap, hI₂, hcalm₂⟩ := hS.swap s₁ hI₁ c hc hnull n hn
      have h₂ := h₁.congr fun o ho => (hcalm₂ o (hperm.subset ho)).1
      obtain ⟨x, hx₂, hprev, hnext₂⟩ := h₂.get
      have hkeep : ∀ o ∈ es, V o s → V o s₂ := fun o ho hv => (hcalm₂ o ho).2 ((hcalm₁ o ho).2 hv)
      have hask : (sortPass visit swap (k + 1) robj change (some c)).run s =
          (sortNext (sortPass visit swap k) robj change c n (verdict c n)).run s₂ := by
        rw [sortPass, Action.run_bind_ok (hS.present s hI c hc), if_neg (by simp [hnull]), Action.run_bind_ok hvisit,
          Action.run_bind_ok (getObj_run hx), hnext]
        exact Action.run_bind_ok hswap
      rcases hv : verdict c n with _ | _ | _
      · refine ⟨robj, s₂, ?_, ?_, ?_, hI₂, hkeep, fun _ hgo => absurd hv (hgo c hc n hn)⟩
        · rw [hask, hv, Bubble.moves_stop hv, Bool.or_false]
          rfl
        · rw [Bubble.pass_stop hv]
          exact hrobj
        · rw [Bubble.pass_stop hv]
          exact h₂
      · rw [List.append_cons] at hperm h₂ hrobj
        obtain ⟨robj', s₃, hrun, hhead, hlinked, hI₃, hkeep₃, hdone⟩ := ih hperm h₂ hI₂ hlen hrobj change
        rw [Bubble.pass_keep hv, Bubble.moves_keep hv, List.append_cons]
        refine ⟨robj', s₃, ?_, hhead, hlinked, hI₃, fun o ho hV => hkeep₃ o ho (hkeep o ho hV), ?_⟩
        · rw [hask, hv, sortNext, Action.run_bind_ok (getObj_run hx₂), hnext₂]
          exact hrun
        · intro hmoves hgo o ho
          rcases List.mem_cons.mp ho with rfl | ho
          · exact hkeep₃ o hc ((hcalm₂ o hc).2 hV)
          · exact hdone hmoves hgo o ho
      · obtain ⟨s₃, hexchange, h₃, hre⟩ := exchange_run h₂ (hperm.nodup_iff.mpr hnodup)
        have hturn : (A ++ n :: c :: B).Perm (A ++ c :: n :: B) := (List.Perm.swap c n B).append_left A
        obtain ⟨hI₃, hkeep₃⟩ := hS.relink s₂ s₃ _ hI₂ (hre.mono hperm.subset) h₃ (hturn.trans hperm)
        obtain ⟨y, hy, -, hnext₃⟩ := h₃.get
        have hhead : (A ++ n :: c :: B).head? = some (if x.prev = none ∧ c = robj then n else robj) := by
          cases A with
          | nil =>
              obtain rfl : c = robj := by simpa using hrobj
              rw [hprev]
              simp
          | cons a A =>
              rw [hprev]
              simpa [List.getLast?_cons] using hrobj
        rw [List.append_cons] at hturn h₃ hhead
        obtain ⟨robj', s₄, hrun, hhead₄, hlinked, hI₄, hkeep₄, -⟩ := ih (hturn.trans hperm) h₃ hI₃ hlen hhead true
        rw [Bubble.pass_exchange hv, Bubble.moves_exchange hv, List.append_cons]
        refine ⟨robj', s₄, ?_, hhead₄, hlinked, hI₄, fun o ho hV => hkeep₄ o ho (hkeep₃ o ho (hkeep o ho hV)), ?_⟩
        · rw [hask, hv, sortNext, Action.run_bind_ok (getObj_run hx₂), Action.run_bind_ok hexchange,
            Action.run_bind_ok (getObj_run hy), hnext₃, Bool.or_true]
          exact hrun
        · intro hmoves
          cases hmoves

/-- The passes end: each exchange leaves fewer pairs that stand the wrong way round. -/
theorem Steps.loop_run (hS : Steps es null visit swap verdict I V) (hnodup : es.Nodup)
    (hasym : Bubble.Asymmetric verdict) {l : List ObjId} (hperm : l.Perm es) (h : Linked s none l none) (hI : I s)
    {fuel k : Nat} (hfuel : es.length ≤ fuel) (hk : Bubble.inversions verdict l < k) :
    ∃ l' s', (sortLoop visit swap fuel k l.head?).run s = .ok l'.head? s' ∧ Bubble.Exchanged verdict l l' ∧
      Linked s' none l' none ∧ I s' ∧ (∀ o ∈ es, V o s → V o s') ∧
      ((∀ a ∈ es, ∀ b ∈ es, verdict a b ≠ none) → Bubble.Settled verdict l' ∧ ∀ o ∈ es, V o s') := by
  induction k generalizing l s with
  | zero => exact absurd hk (Nat.not_lt_zero _)
  | succ k ih =>
      cases l with
      | nil =>
          obtain rfl : es = [] := hperm.nil_eq.symm
          refine ⟨[], s, rfl, .refl, h, hI, fun o ho hV => hV, fun _ => ⟨List.IsChain.nil, ?_⟩⟩
          intro o ho
          cases ho
      | cons c B =>
          have hc : c ∈ es := hperm.subset (by simp)
          by_cases hnull : null c = true
          · refine ⟨c :: B, s, ?_, .refl, h, hI, fun o ho hV => hV,
              fun hgo => absurd (hS.ends c hc hnull c) (hgo c hc c hc)⟩
            rw [List.head?_cons, sortLoop, Action.run_bind_ok (hS.present s hI c hc), if_pos hnull]
            rfl
          have hlen : B.length < fuel := by
            have heq := hperm.length_eq
            rw [List.length_cons] at heq
            omega
          obtain ⟨robj, s₁, hrun, hhead, hlinked, hI₁, hkeep, hdone⟩ :=
            hS.pass_run (A := []) hnodup hperm h hI hlen rfl false
          rw [List.nil_append] at hhead hlinked
          have hround : (sortLoop visit swap fuel (k + 1) (some c)).run s =
              (if Bubble.moves verdict c B then sortLoop visit swap fuel k (some robj) else return some robj).run
                s₁ := by
            rw [sortLoop, Action.run_bind_ok (hS.present s hI c hc), if_neg hnull,
              Action.run_bind_ok hrun, Bool.false_or]
          cases hmoves : Bubble.moves verdict c B with
          | false =>
              rw [hmoves, if_neg Bool.false_ne_true] at hround
              rw [Bubble.pass_of_not_moves hmoves] at hhead hlinked
              obtain rfl : c = robj := Option.some.inj hhead
              refine ⟨c :: B, s₁, hround, .refl, hlinked, hI₁, hkeep, fun hgo => ⟨?_, ?_⟩⟩
              · exact Bubble.settled_of_not_moves hmoves fun a ha b hb => hgo a (hperm.subset ha) b (hperm.subset hb)
              · exact fun o ho => hdone hmoves hgo o (hperm.symm.subset ho)
          | true =>
              rw [hmoves, if_pos rfl] at hround
              have hlt := Bubble.inversions_lt hasym hmoves
              have hpass := (Bubble.pass_perm verdict c B).trans hperm
              obtain ⟨l', s₂, hrun₂, hex, hlinked₂, hI₂, hkeep₂, hdone₂⟩ := ih hpass hlinked hI₁ (by omega)
              refine ⟨l', s₂, ?_, (Bubble.pass_exchanged verdict [] c B).trans hex, hlinked₂, hI₂,
                fun o ho hV => hkeep₂ o ho (hkeep o ho hV), hdone₂⟩
              rw [List.head?_cons, hround, ← hhead]
              exact hrun₂

/-- The table `v` gets the first entry `f`. -/
structure SetFirst (v : ValId) (f : Option ObjId) (s s' : Store) : Prop where
  objs : s'.objs = s.objs
  next : s'.vals.next = s.vals.next
  vals : ∀ w, w ≠ v → s'.vals.get w = s.vals.get w
  table : ∃ y f₀ i l, s.vals.get v = some y ∧ y.type = .table ∧ y.d.asTable = .ok (f₀, i, l) ∧
    s'.vals.get v = some { y with d := .table f i l }

theorem setFirst_run {t : ObjId} {v : ValId} {y : Val} {f₀ i l : Option ObjId} (hlook : s.look t = .ok (v, y))
    (htype : y.type = .table) (hd : y.d.asTable = .ok (f₀, i, l)) (f : Option ObjId) :
    ∃ s', (setFirst t f).run s = .ok () s' ∧ SetFirst v f s s' := by
  refine ⟨_, modTable_run hlook hd, rfl, rfl, fun w hw => Cells.get_modify_of_ne _ hw, y, f₀, i, l,
    (Store.ptr_of_look hlook).2, htype, hd, ?_⟩
  rw [Cells.get_modify_self, (Store.ptr_of_look hlook).2, Option.map_some]

/-- The loops sort the list of a table, and then its first entry is set. -/
theorem Steps.table_run (hS : Steps es null visit swap verdict I V) (hasym : Bubble.Asymmetric verdict) {t : ObjId}
    {v : ValId} (hlook : ∀ s, I s → ∃ y f i l, s.look t = .ok (v, y) ∧ y.type = .table ∧ y.d.asTable = .ok (f, i, l))
    (h : Strung s v es) (hI : I s) {n : Nat} (hlen : es.length ≤ n) (hinv : Bubble.inversions verdict es < n) :
    ∃ es' s₁ s', (sortTable visit swap n t).run s = .ok () s' ∧ Bubble.Exchanged verdict es es' ∧
      Linked s₁ none es' none ∧ I s₁ ∧ SetFirst v es'.head? s₁ s' ∧
      (∀ o ∈ es, V o s → V o s₁) ∧
      ((∀ a ∈ es, ∀ b ∈ es, verdict a b ≠ none) → Bubble.Settled verdict es' ∧ ∀ o ∈ es, V o s₁) := by
  obtain ⟨y, f, i, l, hlook₀, -, hd⟩ := hlook s hI
  obtain ⟨y', i', l', hy', -, hd'⟩ := h.table
  obtain rfl : y = y' := Option.some.inj ((Store.ptr_of_look hlook₀).2.symm.trans hy')
  obtain ⟨rfl, rfl, rfl⟩ : f = es.head? ∧ i = i' ∧ l = l' := by simpa using hd.symm.trans hd'
  obtain ⟨es', s₁, hrun, hex, hlinked, hI₁, hkeep, hdone⟩ :=
    hS.loop_run h.nodup hasym (List.Perm.refl es) h.linked hI hlen hinv
  obtain ⟨y₁, f₁, i₁, l₁, hlook₁, htype₁, hd₁⟩ := hlook s₁ hI₁
  obtain ⟨s', hrun', hfirst⟩ := setFirst_run hlook₁ htype₁ hd₁ es'.head?
  refine ⟨es', s₁, s', ?_, hex, hlinked, hI₁, hfirst, hkeep, hdone⟩
  rw [sortTable, Action.run_bind_ok (getVal_run hlook₀), hd, Action.run_bind_ok (member_run _ _),
    Action.run_bind_ok hrun]
  exact hrun'

end Loops

/-! ### What a sort keeps -/

section Kept

variable {s s' : Store} {o : ObjId} {v : ValId} {y y' : Val} {es : List ObjId}

theorem Alike.refl (y : Val) : Alike y y := .inl rfl

theorem Alike.type (h : Alike y y') : y'.type = y.type := by
  rcases h with rfl | ⟨-, f, i, l, f', i', -, rfl⟩
  · rfl
  · rfl

theorem Alike.trans {y₁ y₂ y₃ : Val} (h : Alike y₁ y₂) (h' : Alike y₂ y₃) : Alike y₁ y₃ := by
  rcases h with rfl | ⟨htype, f, i, l, f', i', hd, rfl⟩
  · exact h'
  · rcases h' with rfl | ⟨-, f₂, i₂, l₂, f₃, i₃, hd', rfl⟩
    · exact .inr ⟨htype, f, i, l, f', i', hd, rfl⟩
    · obtain ⟨rfl, rfl, rfl⟩ : f' = f₂ ∧ i' = i₂ ∧ l = l₂ := by simpa [Data.asTable] using hd'
      exact .inr ⟨htype, f, i, l, f₃, i₃, hd, rfl⟩

/-- A table stays one. -/
theorem Alike.table (h : Alike y y') {f i l : Option ObjId} (hd : y.d.asTable = .ok (f, i, l)) :
    ∃ f' i' l', y'.d.asTable = .ok (f', i', l') := by
  rcases h with rfl | ⟨-, f₀, i₀, l₀, f', i', -, rfl⟩
  · exact ⟨f, i, l, hd⟩
  · exact ⟨f', i', l₀, rfl⟩

theorem Kept.refl (s : Store) : Kept s s := ⟨fun _ => rfl, fun _ y hy => ⟨y, hy, .refl y⟩⟩

theorem Kept.trans {s₁ s₂ s₃ : Store} (h : Kept s₁ s₂) (h' : Kept s₂ s₃) : Kept s₁ s₃ := by
  refine ⟨fun o => (h'.objs o).trans (h.objs o), fun v y hy => ?_⟩
  obtain ⟨y₂, hy₂, halike⟩ := h.vals v y hy
  obtain ⟨y₃, hy₃, halike'⟩ := h'.vals v y₂ hy₂
  exact ⟨y₃, hy₃, halike.trans halike'⟩

theorem Kept.get (h : Kept s s') {x : Obj} (hx : s.objs.get o = some x) :
    ∃ x', s'.objs.get o = some x' ∧ body x' = body x := by
  have hobj := h.objs o
  rw [hx, Option.map_some] at hobj
  exact Option.map_eq_some_iff.mp hobj

theorem Kept.ptr (h : Kept s s') (o : ObjId) : s'.ptr o = s.ptr o := by
  have hbind : ∀ s : Store, s.ptr o = ((s.objs.get o).map body).bind Obj.val := by
    intro s
    rw [Store.ptr, Option.bind_map]
    rfl
  rw [hbind, hbind, h.objs]

theorem Kept.look (h : Kept s s') (hlook : s.look o = .ok (v, y)) : ∃ y', s'.look o = .ok (v, y') ∧ Alike y y' := by
  obtain ⟨hptr, hy⟩ := Store.ptr_of_look hlook
  obtain ⟨y', hy', halike⟩ := h.vals v y hy
  exact ⟨y', Store.look_of_ptr ((h.ptr o).trans hptr) hy', halike⟩

theorem Relinked.kept (h : Relinked es s s') : Kept s s' := by
  refine ⟨h.inside, fun v y hy => ⟨y, ?_, .refl y⟩⟩
  rw [h.rest]
  exact hy

theorem SetFirst.kept {f : Option ObjId} (h : SetFirst v f s s') : Kept s s' := by
  refine ⟨fun o => by rw [h.objs], fun w z hz => ?_⟩
  by_cases hw : w = v
  · subst hw
    obtain ⟨y, f₀, i, l, hy, htype, hd, hy'⟩ := h.table
    obtain rfl : y = z := Option.some.inj (hy.symm.trans hz)
    exact ⟨_, hy', .inr ⟨htype, f₀, i, l, f, i, hd, rfl⟩⟩
  · exact ⟨z, (h.vals w hw).trans hz, .refl z⟩

theorem typeAt_look (h : s.look o = .ok (v, y)) : typeAt s o = y.type := by
  rw [typeAt, h]
  rfl

/-- An object that is not null has a value. -/
theorem look_of_typeAt (h : typeAt s o ≠ .null) : ∃ w y, s.look o = .ok (w, y) ∧ y.type = typeAt s o := by
  cases hlook : s.look o with
  | error e => exact absurd (by rw [typeAt, hlook]; rfl) h
  | ok r => exact ⟨r.1, r.2, rfl, (typeAt_look hlook).symm⟩

theorem typeAt_of_ptr (h : s.ptr o = none) : typeAt s o = .null := by
  rw [typeAt]
  cases hlook : s.look o with
  | error e => rfl
  | ok r =>
      rw [(Store.ptr_of_look hlook).1] at h
      cases h

/-- The types of the objects stay. -/
theorem Kept.typeAt (h : Kept s s') (hval : ∀ w, s.ptr o = some w → ∃ y, s.vals.get w = some y) :
    typeAt s' o = typeAt s o := by
  cases hptr : s.ptr o with
  | none => rw [typeAt_of_ptr hptr, typeAt_of_ptr ((h.ptr o).trans hptr)]
  | some w =>
      obtain ⟨y, hy⟩ := hval w hptr
      have hlook := Store.look_of_ptr hptr hy
      obtain ⟨y', hlook', halike⟩ := h.look hlook
      rw [typeAt_look hlook, typeAt_look hlook', halike.type]

theorem nspIsnull_run {x : Obj} (hx : s.objs.get o = some x)
    (hval : ∀ w, s.ptr o = some w → ∃ y, s.vals.get w = some y) :
    (nspIsnull o).run s = .ok (typeAt s o == .null) s := by
  cases hptr : s.ptr o with
  | none =>
      have hnone : x.val = none := by rwa [Store.ptr, hx, Option.bind_some] at hptr
      have htype : (typeOf o).run s = .ok .null s := Action.run_require_ok (by simp only [hx, hnone])
      rw [nspIsnull, Action.run_bind_ok htype, typeAt_of_ptr hptr]
      rfl
  | some w =>
      obtain ⟨y, hy⟩ := hval w hptr
      have hlook := Store.look_of_ptr hptr hy
      rw [nspIsnull, Action.run_bind_ok (typeOf_run hlook), typeAt_look hlook]
      rfl

/-- The entries stay where the table and the links stay. -/
theorem Strung.congr (h : Strung s v es) (hkept : Kept s s') (hval : s'.vals.get v = s.vals.get v)
    (hobjs : ∀ o ∈ es, s'.objs.get o = s.objs.get o) : Strung s' v es := by
  refine ⟨?_, h.linked.congr hobjs, h.nodup, fun o ho w hptr => ?_⟩
  · rw [hval]
    exact h.table
  · obtain ⟨y, hy⟩ := h.values o ho w ((hkept.ptr o).symm.trans hptr)
    obtain ⟨y', hy', -⟩ := hkept.vals w y hy
    exact ⟨y', hy'⟩

/-- The list of a table after a sort. -/
theorem Strung.of_setFirst {s₁ : Store} {es' : List ObjId} (h : Strung s v es) (hkept : Kept s s₁)
    (hlinked : Linked s₁ none es' none) (hperm : es'.Perm es) (hfirst : SetFirst v es'.head? s₁ s') :
    Strung s' v es' := by
  obtain ⟨y, f₀, i, l, -, htype, -, hy'⟩ := hfirst.table
  refine ⟨⟨_, i, l, hy', htype, rfl⟩, hlinked.congr fun o _ => by rw [hfirst.objs], hperm.nodup_iff.mpr h.nodup, ?_⟩
  intro o ho w hptr
  have hkept' := hkept.trans hfirst.kept
  obtain ⟨y, hy⟩ := h.values o (hperm.subset ho) w ((hkept'.ptr o).symm.trans hptr)
  obtain ⟨y', hy', -⟩ := hkept'.vals w y hy
  exact ⟨y', hy'⟩

/-- Whether an entry of a list is null, whatever was sorted since. -/
theorem Strung.isnull (h : Strung s v es) (hkept : Kept s s') (ho : o ∈ es) :
    (nspIsnull o).run s' = .ok (typeAt s o == .null) s' := by
  obtain ⟨x, hx⟩ := h.linked.get_of_mem ho
  obtain ⟨x', hx', -⟩ := hkept.get hx
  rw [nspIsnull_run hx' fun w hptr => ?_, hkept.typeAt (h.values o ho)]
  obtain ⟨y, hy⟩ := h.values o ho w ((hkept.ptr o).symm.trans hptr)
  obtain ⟨y', hy', -⟩ := hkept.vals w y hy
  exact ⟨y', hy'⟩

theorem Listed.strung (h : Listed s v es) : Strung s v es := by
  refine ⟨h.table, h.linked, h.nodup, fun o ho w hptr => ?_⟩
  obtain ⟨w', y, hlook, -⟩ := h.full o ho
  obtain ⟨hptr', hy⟩ := Store.ptr_of_look hlook
  obtain rfl := Option.some.inj (hptr.symm.trans hptr')
  exact ⟨y, hy⟩

theorem Listed.typeAt_ne (h : Listed s v es) (ho : o ∈ es) : typeAt s o ≠ .null := by
  obtain ⟨w, y, hlook, hne⟩ := h.full o ho
  rw [typeAt_look hlook]
  exact hne

/-- Entries that were not null are not null where their values are kept. -/
theorem Strung.listed {es' : List ObjId} (h : Strung s' v es') (hL : Listed s v es) (hkept : Kept s s')
    (hperm : es'.Perm es) : Listed s' v es' := by
  refine ⟨h.table, h.linked, h.nodup, fun o ho => ?_⟩
  obtain ⟨w, y, hlook, hne⟩ := hL.full o (hperm.subset ho)
  obtain ⟨y', hlook', halike⟩ := hkept.look hlook
  exact ⟨w, y', hlook', by rw [halike.type]; exact hne⟩

/-- No entry of a list is null, whatever was sorted since. -/
theorem Listed.present (h : Listed s v es) (hkept : Kept s s') (ho : o ∈ es) : (nspIsnull o).run s' = .ok false s' := by
  rw [h.strung.isnull hkept ho, beq_eq_false_iff_ne.mpr (h.typeAt_ne ho)]

/-- A list that a comparison has settled. -/
theorem Settles.of_settled {swap : ObjId → ObjId → H (Option Bool)} {verdict : ObjId → ObjId → Option Bool}
    (hswap : ∀ a ∈ es, ∀ b ∈ es, ∃ s', (swap a b).run s = .ok (verdict a b) s') (h : Bubble.Settled verdict es) :
    Settles swap s es := by
  rintro pre a b post rfl
  obtain ⟨s', hrun⟩ := hswap a (by simp) b (by simp)
  have hchain : List.IsChain (fun a b => verdict a b = some false) (a :: b :: post) := List.IsChain.right_of_append h
  rw [(List.isChain_cons_cons.mp hchain).1] at hrun
  exact ⟨s', hrun⟩

end Kept

end NullG.Libs.Sort
