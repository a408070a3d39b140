/-
The sorting of tables by name (`libs/base/sort.c`).

`sort_byname` sorts the tables inside of a table before it compares their entry with the next one. So it ends for
tables of any depth, and then all of them are sorted (`sortsByname`).
-/

import NullG.Libs.Sort
import NullG.Mail.Text
import Mathlib.Order.Filter.AtTopBot.Basic
import Mathlib.Order.Filter.Finite

namespace NullG.Libs.Sort

open NullG.Nsp NullG.Lib NullG.Mail

/-! ### The code -/

/-- `nc_isdigit(name[0])`. -/
def digitFirst (name : List Byte) : Bool := (name.head?.map ncIsdigit).getD false

/-- The comparison of `sort_byname`: by number where both names start with a digit, and else by bytes. -/
def namesSwap (order : Int) (p q : List Byte) : Bool :=
  if digitFirst p && digitFirst q then swapBy order (atoi p) (atoi q) else swapBy order (nameCmp p q) 0

/-- What `sort_byname` finds of two neighbours. -/
def swapByname (order : Int) (cobj nobj : ObjId) : H (Option Bool) := do
  let x ← getObj cobj
  let y ← getObj nobj
  return some (namesSwap order x.name y.name)

/-- What `sort_byname` does at an entry: `sort` is the call of itself. -/
def visitByname (recurse : Int) (sort : ObjId → H Unit) (cobj : ObjId) : H Unit := do
  let y ← getVal cobj
  if y.type = .table ∧ recurse ≠ 0 then
    let x ← getObj cobj
    let g ← .read fun s => s.ptr globalObj
    if x.val ≠ g then sort cobj

/-- `sort_byname`. -/
def sortByname (recurse order : Int) : Nat → ObjId → H Unit
  | 0, _ => .fail .stuck
  | n + 1, tobj =>
      sortTable (visitByname recurse (sortByname recurse order n)) (swapByname order) n tobj

/-- More fuel does not change a sort that ended. -/
theorem sortByname_extends (recurse order : Int) {n m : Nat} (hle : n ≤ m) (tobj : ObjId) :
    (sortByname recurse order n tobj).Extends (sortByname recurse order m tobj) := by
  induction n generalizing m tobj with
  | zero => exact .fail _ _
  | succ n ih =>
      obtain ⟨m, rfl⟩ : ∃ k, m = k + 1 := ⟨m - 1, by omega⟩
      refine sortTable_extends (fun c => .bind (.refl _) fun y => .ite ?_ (.refl _)) (by omega) tobj
      exact .bind (.refl _) fun x => .bind (.refl _) fun g => .ite (ih (by omega) c) (.refl _)

/-! ### Tables inside of tables -/

/-- The value `w` is a table that `sort_byname` sorts before the table that the entry `o` belongs to. -/
def Entered (s : Store) (recurse : Int) (o : ObjId) (w : ValId) : Prop :=
  recurse ≠ 0 ∧ (∃ y, s.look o = .ok (w, y) ∧ y.type = .table) ∧ s.ptr globalObj ≠ some w

/-- The tables of a memory, with their lists, and each deeper than those inside of it. No object is in two of the
lists. -/
structure Nest (s : Store) (recurse : Int) (L : ValId → Option (List ObjId)) (depth : ValId → Nat) : Prop where
  listed : ∀ v es, L v = some es → Listed s v es
  apart : ∀ v w es fs, L v = some es → L w = some fs → v ≠ w → ∀ o ∈ es, o ∉ fs
  inner : ∀ v es, L v = some es → ∀ o ∈ es, ∀ w, Entered s recurse o w → (L w).isSome ∧ depth w < depth v

/-- The same of tables in which entries may be null. -/
structure Nested (s : Store) (recurse : Int) (L : ValId → Option (List ObjId)) (depth : ValId → Nat) : Prop where
  strung : ∀ v es, L v = some es → Strung s v es
  apart : ∀ v w es fs, L v = some es → L w = some fs → v ≠ w → ∀ o ∈ es, o ∉ fs
  inner : ∀ v es, L v = some es → ∀ o ∈ es, ∀ w, Entered s recurse o w → (L w).isSome ∧ depth w < depth v

/-- The tables that a sort of the table `v` goes into. -/
inductive Inside (s : Store) (recurse : Int) (L : ValId → Option (List ObjId)) : ValId → ValId → Prop where
  | self {v} : Inside s recurse L v v
  | entry {v es o u w} : L v = some es → o ∈ es → Entered s recurse o u → Inside s recurse L u w →
      Inside s recurse L v w

/-- Each of the tables is a list of the same entries, and those inside of `v` are settled. -/
structure SortedByname (s s' : Store) (recurse order : Int) (L : ValId → Option (List ObjId)) (v : ValId) : Prop where
  kept : Kept s s'
  listed : ∀ w es, L w = some es → ∃ es', Listed s' w es' ∧ es'.Perm es ∧
    (Inside s recurse L v w → Settles (swapByname order) s' es')

/-- `sort_byname` of the table `t`, with the value `v`, ends, and has sorted it. -/
def SortsByname (s : Store) (recurse order : Int) (L : ValId → Option (List ObjId)) (t : ObjId) (v : ValId) : Prop :=
  ∃ n₀ s', (∀ n, n₀ ≤ n → (sortByname recurse order n t).run s = .ok () s') ∧ SortedByname s s' recurse order L v

section Names

variable {order : Int}

/-- No two names are both to come behind the other. -/
theorem namesSwap_asymm {p q : List Byte} (h : namesSwap order p q = true) : namesSwap order q p = false := by
  unfold namesSwap at h ⊢
  rw [Bool.and_comm]
  split at h
  · rename_i hdigit
    rw [if_pos hdigit]
    exact swapBy_asymm h
  · rename_i hdigit
    rw [if_neg hdigit]
    exact swapBy_nameCmp_asymm h

/-- The name of an object. -/
def nameAt (s : Store) (o : ObjId) : List Byte := ((s.objs.get o).map Obj.name).getD []

/-- What `sort_byname` finds of two entries, by their names at the start. -/
def nameVerdict (s : Store) (order : Int) (a b : ObjId) : Option Bool :=
  some (namesSwap order (nameAt s a) (nameAt s b))

theorem nameVerdict_asymm (s : Store) (order : Int) : Bubble.Asymmetric (nameVerdict s order) := by
  intro a b h hback
  have hno := namesSwap_asymm (Option.some.inj h)
  rw [Option.some.inj hback] at hno
  cases hno

/-- The same in a pass, which ends at a null entry. -/
def bynameVerdict (s : Store) (order : Int) (a b : ObjId) : Option Bool :=
  if typeAt s a = .null then none else nameVerdict s order a b

theorem bynameVerdict_asymm (s : Store) (order : Int) : Bubble.Asymmetric (bynameVerdict s order) := by
  intro a b h hback
  unfold bynameVerdict at h hback
  split at h
  · cases h
  · split at hback
    · cases hback
    · exact nameVerdict_asymm s order a b h hback

theorem Kept.nameAt {s s' : Store} (h : Kept s s') (o : ObjId) : nameAt s' o = nameAt s o := by
  have hbody : ∀ s : Store, Sort.nameAt s o = (((s.objs.get o).map body).map Obj.name).getD [] := by
    intro s
    rw [Option.map_map]
    rfl
  rw [hbody, hbody, h.objs]

theorem nameAt_get {s : Store} {o : ObjId} {x : Obj} (hx : s.objs.get o = some x) : nameAt s o = x.name := by
  rw [nameAt, hx]
  rfl

/-- The names are the same however the entries stand. -/
theorem swapByname_run {s s' : Store} (h : Kept s s') {a b : ObjId} {x y : Obj} (hx : s.objs.get a = some x)
    (hy : s.objs.get b = some y) (hnull : typeAt s a ≠ .null) :
    (swapByname order a b).run s' = .ok (bynameVerdict s order a b) s' := by
  obtain ⟨x', hx', -⟩ := h.get hx
  obtain ⟨y', hy', -⟩ := h.get hy
  rw [swapByname, Action.run_bind_ok (getObj_run hx'), Action.run_bind_ok (getObj_run hy'), bynameVerdict,
    if_neg hnull, nameVerdict, ← h.nameAt a, ← h.nameAt b, nameAt_get hx', nameAt_get hy']
  rfl

end Names

theorem Nest.nested {s : Store} {recurse : Int} {L : ValId → Option (List ObjId)} {depth : ValId → Nat}
    (h : Nest s recurse L depth) : Nested s recurse L depth :=
  ⟨fun v es hes => (h.listed v es hes).strung, h.apart, h.inner⟩

section Nest

variable {s₀ s s' : Store} {recurse order : Int} {L : ValId → Option (List ObjId)} {depth : ValId → Nat}
  {T T' : ValId → Prop} {v w : ValId}

/-- The table is a list of its entries. -/
def Fine (L : ValId → Option (List ObjId)) (s : Store) (w : ValId) : Prop :=
  ∃ es es', L w = some es ∧ Strung s w es' ∧ es'.Perm es

/-- No entry of the tables is null. -/
def Full (s : Store) (L : ValId → Option (List ObjId)) : Prop :=
  ∀ w es, L w = some es → ∀ o ∈ es, typeAt s o ≠ .null

/-- The table is sorted, if no entry is null. -/
def Done (s₀ : Store) (order : Int) (L : ValId → Option (List ObjId)) (s : Store) (w : ValId) : Prop :=
  ∃ es es', L w = some es ∧ Strung s w es' ∧ es'.Perm es ∧ (Full s₀ L → Bubble.Settled (bynameVerdict s₀ order) es')

/-- Only the tables `T` change. -/
structure Within (L : ValId → Option (List ObjId)) (T : ValId → Prop) (s s' : Store) : Prop where
  kept : Kept s s'
  objs : ∀ o, (∀ w es, L w = some es → T w → o ∉ es) → s'.objs.get o = s.objs.get o
  vals : ∀ w, ¬ T w → s'.vals.get w = s.vals.get w

theorem Within.refl (s : Store) : Within L T s s := ⟨.refl s, fun _ _ => rfl, fun _ _ => rfl⟩

theorem Within.trans {s₁ s₂ s₃ : Store} (h : Within L T s₁ s₂) (h' : Within L T s₂ s₃) : Within L T s₁ s₃ :=
  ⟨h.kept.trans h'.kept, fun o ho => (h'.objs o ho).trans (h.objs o ho),
    fun w hw => (h'.vals w hw).trans (h.vals w hw)⟩

theorem Within.mono (h : Within L T s s') (hsub : ∀ w, T w → T' w) : Within L T' s s' :=
  ⟨h.kept, fun o ho => h.objs o fun w es hes hw => ho w es hes (hsub w hw),
    fun w hw => h.vals w fun hT => hw (hsub w hT)⟩

/-- A table outside of those that change. -/
theorem Within.same (h : Within L T s s') (hN : Nested s₀ recurse L depth) {es : List ObjId} (hes : L w = some es)
    (hw : ¬ T w) : s'.vals.get w = s.vals.get w ∧ ∀ o ∈ es, s'.objs.get o = s.objs.get o := by
  refine ⟨h.vals w hw, fun o ho => h.objs o fun u fs hfs hu => ?_⟩
  refine hN.apart w u es fs hes hfs ?_ o ho
  rintro rfl
  exact hw hu

theorem Within.fine (h : Within L T s s') (hN : Nested s₀ recurse L depth) (hw : ¬ T w) (hfine : Fine L s w) :
    Fine L s' w := by
  obtain ⟨es, es', hes, hlisted, hperm⟩ := hfine
  obtain ⟨hval, hobjs⟩ := h.same hN hes hw
  exact ⟨es, es', hes, hlisted.congr h.kept hval fun o ho => hobjs o (hperm.subset ho), hperm⟩

theorem Within.done (h : Within L T s s') (hN : Nested s₀ recurse L depth) (hw : ¬ T w)
    (hdone : Done s₀ order L s w) : Done s₀ order L s' w := by
  obtain ⟨es, es', hes, hlisted, hperm, hsettled⟩ := hdone
  obtain ⟨hval, hobjs⟩ := h.same hN hes hw
  exact ⟨es, es', hes, hlisted.congr h.kept hval fun o ho => hobjs o (hperm.subset ho), hperm, hsettled⟩

/-- The tables that a sort of `v` may change, but for `v`. -/
def Below (L : ValId → Option (List ObjId)) (depth : ValId → Nat) (v w : ValId) : Prop :=
  (L w).isSome ∧ depth w < depth v

/-- The same with `v`. -/
def Reached (L : ValId → Option (List ObjId)) (depth : ValId → Nat) (v w : ValId) : Prop := w = v ∨ Below L depth v w

/-- The tables inside of a table are below it. -/
theorem Inside.reached (hN : Nested s₀ recurse L depth) (h : Inside s₀ recurse L v w) : Reached L depth v w := by
  induction h with
  | self => exact .inl rfl
  | entry hes ho hent _ ih =>
      obtain ⟨hsome, hlt⟩ := hN.inner _ _ hes _ ho _ hent
      rcases ih with rfl | ⟨hsome', hlt'⟩
      · exact .inr ⟨hsome, hlt⟩
      · exact .inr ⟨hsome', hlt'.trans hlt⟩

/-- What a step of the sort of `v` keeps. -/
structure Goes (s₀ : Store) (order : Int) (L : ValId → Option (List ObjId)) (depth : ValId → Nat) (v : ValId)
    (s s' : Store) : Prop where
  within : Within L (Reached L depth v) s s'
  fine : ∀ w, Below L depth v w → Fine L s w → Fine L s' w
  done : ∀ w, Below L depth v w → Done s₀ order L s w → Done s₀ order L s' w

theorem Goes.refl (s : Store) : Goes s₀ order L depth v s s := ⟨.refl s, fun _ _ h => h, fun _ _ h => h⟩

theorem Goes.trans {s₁ s₂ s₃ : Store} (h : Goes s₀ order L depth v s₁ s₂) (h' : Goes s₀ order L depth v s₂ s₃) :
    Goes s₀ order L depth v s₁ s₃ :=
  ⟨h.within.trans h'.within, fun w hw hfine => h'.fine w hw (h.fine w hw hfine),
    fun w hw hdone => h'.done w hw (h.done w hw hdone)⟩

/-- A step that changes the table `v` only. -/
theorem Goes.of_self (hN : Nested s₀ recurse L depth) (h : Within L (· = v) s s') : Goes s₀ order L depth v s s' := by
  have hne : ∀ w, Below L depth v w → w ≠ v := by
    rintro w ⟨-, hlt⟩ rfl
    exact Nat.lt_irrefl _ hlt
  exact ⟨h.mono fun w hw => .inl hw, fun w hw => h.fine hN (hne w hw), fun w hw => h.done hN (hne w hw)⟩

/-- What the sort of the table `v` does, wherever the tables below it stand. -/
def Sorts (s₀ : Store) (recurse order : Int) (L : ValId → Option (List ObjId)) (depth : ValId → Nat) (v : ValId)
    (n : Nat) : Prop :=
  ∀ s t, Kept s₀ s → s.ptr t = some v → (∀ w, Reached L depth v w → Fine L s w) →
    ∃ s', (sortByname recurse order n t).run s = .ok () s' ∧ Goes s₀ order L depth v s s' ∧ Fine L s' v ∧
      ∀ w, Inside s₀ recurse L v w → Done s₀ order L s' w

/-- The same for the table of an entry, if it has one. -/
def SortsEntry (s₀ : Store) (recurse order : Int) (L : ValId → Option (List ObjId)) (depth : ValId → Nat) (o : ObjId)
    (n : Nat) : Prop :=
  ∀ w, Entered s₀ recurse o w → Sorts s₀ recurse order L depth w n

/-- The visit of an entry of the table `v`. -/
theorem visit_run (hN : Nested s₀ recurse L depth) {es : List ObjId} (hes : L v = some es) {c : ObjId} (hc : c ∈ es)
    (hnull : typeAt s₀ c ≠ .null) {n : Nat} (hsorts : SortsEntry s₀ recurse order L depth c n) (hkept : Kept s₀ s)
    (hfine : ∀ w, Below L depth v w → Fine L s w) :
    ∃ s', (visitByname recurse (sortByname recurse order n) c).run s = .ok () s' ∧
      Goes s₀ order L depth v s s' ∧
      (s'.vals.get v = s.vals.get v ∧ ∀ o ∈ es, s'.objs.get o = s.objs.get o) ∧
      ∀ u, Entered s₀ recurse c u → ∀ w, Inside s₀ recurse L u w → Done s₀ order L s' w := by
  obtain ⟨u, y₀, hlook₀, -⟩ := look_of_typeAt hnull
  obtain ⟨y, hlook, halike⟩ := hkept.look hlook₀
  obtain ⟨hptr, hval⟩ := Store.ptr_of_look hlook
  obtain ⟨x, hx, hxv⟩ := Option.bind_eq_some_iff.mp hptr
  have hunique : ∀ u', Entered s₀ recurse c u' → u' = u ∧ y.type = .table ∧ recurse ≠ 0 ∧ x.val ≠ s.ptr globalObj := by
    rintro u' ⟨hrecurse, ⟨y', hlook', htype⟩, hglobal⟩
    obtain ⟨rfl, rfl⟩ : u = u' ∧ y₀ = y' := by simpa using hlook₀.symm.trans hlook'
    refine ⟨rfl, by rw [halike.type]; exact htype, hrecurse, ?_⟩
    rw [hxv, hkept.ptr]
    exact hglobal.symm
  have hstay : (∀ u', ¬ Entered s₀ recurse c u') → Goes s₀ order L depth v s s ∧
      (s.vals.get v = s.vals.get v ∧ ∀ o ∈ es, s.objs.get o = s.objs.get o) ∧
      ∀ u, Entered s₀ recurse c u → ∀ w, Inside s₀ recurse L u w → Done s₀ order L s w :=
    fun hno => ⟨.refl s, ⟨rfl, fun _ _ => rfl⟩, fun u' hent => absurd hent (hno u')⟩
  rw [visitByname, Action.run_bind_ok (getVal_run hlook)]
  by_cases htable : y.type = .table ∧ recurse ≠ 0
  · rw [if_pos htable, Action.run_bind_ok (getObj_run hx), Action.run_bind_ok (Action.run_read _ _)]
    by_cases hglobal : x.val ≠ s.ptr globalObj
    · have hent : Entered s₀ recurse c u := by
        refine ⟨htable.2, ⟨y₀, hlook₀, by rw [← halike.type]; exact htable.1⟩, ?_⟩
        rw [← hkept.ptr, ← hxv]
        exact hglobal.symm
      obtain ⟨hsome, hlt⟩ := hN.inner v es hes c hc u hent
      have hbelow : ∀ w, Reached L depth u w → Below L depth v w := by
        rintro w (rfl | ⟨hsome', hlt'⟩)
        · exact ⟨hsome, hlt⟩
        · exact ⟨hsome', hlt'.trans hlt⟩
      obtain ⟨s', hrun, hgoes, hfine', hdone⟩ := hsorts u hent s c hkept hptr fun w hw => hfine w (hbelow w hw)
      rw [if_pos hglobal]
      refine ⟨s', hrun, ⟨hgoes.within.mono fun w hw => .inr (hbelow w hw), ?_, ?_⟩, ?_, ?_⟩
      · intro w _ hw
        by_cases hreached : Reached L depth u w
        · rcases hreached with rfl | hreached
          · exact hfine'
          · exact hgoes.fine w hreached hw
        · exact hgoes.within.fine hN hreached hw
      · intro w _ hw
        by_cases hreached : Reached L depth u w
        · rcases hreached with rfl | hreached
          · exact hdone w .self
          · exact hgoes.done w hreached hw
        · exact hgoes.within.done hN hreached hw
      · refine hgoes.within.same hN hes fun hreached => ?_
        exact Nat.lt_irrefl _ (hbelow v hreached).2
      · intro u' hent' w hw
        obtain ⟨rfl, -⟩ := hunique u' hent'
        exact hdone w hw
    · rw [if_neg hglobal]
      exact ⟨s, rfl, hstay fun u' hent => hglobal (hunique u' hent).2.2.2⟩
  · rw [if_neg htable]
    exact ⟨s, rfl, hstay fun u' hent => htable ⟨(hunique u' hent).2.1, (hunique u' hent).2.2.1⟩⟩

/-- The loops of `sort_byname` can go over the entries of `v`. -/
theorem steps_byname (hN : Nested s₀ recurse L depth) {es : List ObjId} (hes : L v = some es) {n : Nat}
    (hsorts : ∀ c ∈ es, SortsEntry s₀ recurse order L depth c n) (hkept : Kept s₀ s)
    (hfine : ∀ w, Below L depth v w → Fine L s w) :
    Steps es (fun o => typeAt s₀ o == .null) (visitByname recurse (sortByname recurse order n)) (swapByname order)
      (bynameVerdict s₀ order) (Goes s₀ order L depth v s)
      fun c s' => ∀ u, Entered s₀ recurse c u → ∀ w, Inside s₀ recurse L u w → Done s₀ order L s' w := by
  have hstrung := hN.strung v es hes
  have hbelow : ∀ c ∈ es, ∀ u, Entered s₀ recurse c u → ∀ w, Inside s₀ recurse L u w → Below L depth v w := by
    intro c hc u hent w hw
    obtain ⟨hsome, hlt⟩ := hN.inner v es hes c hc u hent
    rcases hw.reached hN with rfl | ⟨hsome', hlt'⟩
    · exact ⟨hsome, hlt⟩
    · exact ⟨hsome', hlt'.trans hlt⟩
  refine ⟨?_, ?_, ?_, ?_, ?_⟩
  · intro s₁ h₁ o ho
    exact hstrung.isnull (hkept.trans h₁.within.kept) ho
  · intro o _ hnull n
    rw [bynameVerdict, if_pos (by simpa using hnull)]
  · intro s₁ h₁ c hc hnull
    obtain ⟨s₂, hrun, hgoes, ⟨-, hobjs⟩, hdone⟩ := visit_run hN hes hc (by simpa using hnull) (hsorts c hc)
      (hkept.trans h₁.within.kept) fun w hw => h₁.fine w hw (hfine w hw)
    refine ⟨s₂, hrun, h₁.trans hgoes, fun o ho => ⟨hobjs o ho, ?_⟩, hdone⟩
    intro hV u hent w hw
    exact hgoes.done w (hbelow o ho u hent w hw) (hV u hent w hw)
  · intro s₁ h₁ c hc hnull n hn
    obtain ⟨x, hx⟩ := hstrung.linked.get_of_mem hc
    obtain ⟨y, hy⟩ := hstrung.linked.get_of_mem hn
    exact ⟨s₁, swapByname_run (hkept.trans h₁.within.kept) hx hy (by simpa using hnull), h₁, fun o _ => ⟨rfl, id⟩⟩
  · intro s₁ s₂ fs h₁ hre _ _
    have hgoes : Goes s₀ order L depth v s₁ s₂ := by
      refine .of_self hN ⟨hre.kept, fun o ho => hre.outside o (ho v es hes rfl), fun w _ => ?_⟩
      rw [hre.rest]
    refine ⟨h₁.trans hgoes, fun o ho hV u hent w hw => ?_⟩
    exact hgoes.done w (hbelow o ho u hent w hw) (hV u hent w hw)

/-- The sorts of the tables that the entries hold end, if those of the tables below `v` do. -/
theorem sortsEntry_of_below (order : Int) (hN : Nested s₀ recurse L depth) {es : List ObjId} (hes : L v = some es)
    (hbelow : ∀ w fs, L w = some fs → depth w < depth v → ∃ n₀, ∀ n, n₀ ≤ n → Sorts s₀ recurse order L depth w n) :
    ∃ n₀, ∀ n, n₀ ≤ n → ∀ c ∈ es, SortsEntry s₀ recurse order L depth c n := by
  have hentries : ∀ c ∈ es, ∃ n₀, ∀ n, n₀ ≤ n → SortsEntry s₀ recurse order L depth c n := by
    intro c hc
    by_cases hent : ∃ u, Entered s₀ recurse c u
    · obtain ⟨u, hent⟩ := hent
      obtain ⟨hsome, hlt⟩ := hN.inner v es hes c hc u hent
      obtain ⟨fs, hfs⟩ := Option.isSome_iff_exists.mp hsome
      obtain ⟨n₀, hn₀⟩ := hbelow u fs hfs hlt
      obtain ⟨-, ⟨y, hlook, -⟩, -⟩ := hent
      refine ⟨n₀, ?_⟩
      rintro n hn u' ⟨-, ⟨y', hlook', -⟩, -⟩
      obtain ⟨rfl, -⟩ : u = u' ∧ y = y' := by simpa using hlook.symm.trans hlook'
      exact hn₀ n hn
    · exact ⟨0, fun n _ u hent' => absurd ⟨u, hent'⟩ hent⟩
  have hall := (Filter.eventually_all_finite (List.finite_toSet es)).mpr fun c hc =>
    Filter.eventually_atTop.mpr (hentries c hc)
  exact Filter.eventually_atTop.mp hall

/-- The sort of a table ends, with that of the tables inside of it. -/
theorem sortByname_run (hN : Nested s₀ recurse L depth) (order : Int) {es : List ObjId} (hes : L v = some es) :
    ∃ n₀, ∀ n, n₀ ≤ n → Sorts s₀ recurse order L depth v n := by
  induction hd : depth v using Nat.strong_induction_on generalizing v es with
  | _ d ih =>
      obtain ⟨n₁, hn₁⟩ := sortsEntry_of_below order hN hes fun w fs hfs hlt =>
        ih (depth w) (by omega) hfs rfl
      refine ⟨max n₁ (es.length + es.length * es.length + 1) + 1, ?_⟩
      intro n hn s t hkept hptr hfine
      obtain ⟨n, rfl⟩ : ∃ m, n = m + 1 := ⟨n - 1, by omega⟩
      obtain ⟨fs, es', hfs, hlisted', hperm⟩ := hfine v (.inl rfl)
      obtain rfl : es = fs := Option.some.inj (hes.symm.trans hfs)
      have hS := (steps_byname hN hes (hn₁ n (by omega)) hkept fun w hw => hfine w (.inr hw)).of_perm hperm
      have hlook : ∀ s₁, Goes s₀ order L depth v s s₁ → ∃ y f i l, s₁.look t = .ok (v, y) ∧ y.type = .table ∧
          y.d.asTable = .ok (f, i, l) := by
        intro s₁ h₁
        obtain ⟨y, i, l, hy, htype, hd⟩ := hlisted'.table
        obtain ⟨y', hlook', halike⟩ := h₁.within.kept.look (Store.look_of_ptr hptr hy)
        obtain ⟨f', i', l', hd'⟩ := halike.table hd
        exact ⟨y', f', i', l', hlook', by rw [halike.type]; exact htype, hd'⟩
      have hlen := hperm.length_eq
      have hinv := Bubble.inversions_le (bynameVerdict s₀ order) es'
      rw [hlen] at hinv
      obtain ⟨es₁, s₁, s', hrun, hex, hlinked, h₁, hfirst, -, hdone⟩ :=
        hS.table_run (bynameVerdict_asymm s₀ order) hlook hlisted' (.refl s) (n := n) (by omega) (by omega)
      have hperm₁ := hex.perm
      have hset : Goes s₀ order L depth v s₁ s' := by
        refine .of_self hN ⟨hfirst.kept, fun o _ => by rw [hfirst.objs], fun w hw => hfirst.vals w hw⟩
      have hlisted₁ : Strung s' v es₁ := hlisted'.of_setFirst h₁.within.kept hlinked hperm₁ hfirst
      refine ⟨s', hrun, h₁.trans hset, ⟨es, es₁, hes, hlisted₁, hperm₁.trans hperm⟩, ?_⟩
      by_cases hfull : Full s₀ L
      · have hgo : ∀ a ∈ es', ∀ b ∈ es', bynameVerdict s₀ order a b ≠ none := by
          intro a ha b _
          rw [bynameVerdict, if_neg (hfull v es hes a (hperm.subset ha))]
          exact Option.some_ne_none _
        obtain ⟨hsettled, hV⟩ := hdone hgo
        intro w hw
        cases hw with
        | self => exact ⟨es, es₁, hes, hlisted₁, hperm₁.trans hperm, fun _ => hsettled⟩
        | entry hes' ho hent hw =>
            obtain rfl := Option.some.inj (hes.symm.trans hes')
            refine hset.done w ?_ (hV _ (hperm.symm.subset ho) _ hent w hw)
            obtain ⟨hsome, hlt⟩ := hN.inner v es hes _ ho _ hent
            rcases hw.reached hN with rfl | ⟨hsome', hlt'⟩
            · exact ⟨hsome, hlt⟩
            · exact ⟨hsome', hlt'.trans hlt⟩
      · intro w hw
        rcases hw.reached hN with rfl | hbelow
        · exact ⟨es, es₁, hes, hlisted₁, hperm₁.trans hperm, fun h => absurd h hfull⟩
        · obtain ⟨fs, fs', hfs, hstrung, hfsperm⟩ := (h₁.trans hset).fine w hbelow (hfine w (.inr hbelow))
          exact ⟨fs, fs', hfs, hstrung, hfsperm, fun h => absurd h hfull⟩

/-- `sort_byname` ends, and every table that it goes into is sorted then. -/
theorem sortsByname (hN : Nest s recurse L depth) {t : ObjId} (hptr : s.ptr t = some v) (hv : (L v).isSome)
    (order : Int) : SortsByname s recurse order L t v := by
  obtain ⟨es, hes⟩ := Option.isSome_iff_exists.mp hv
  obtain ⟨n₀, hn₀⟩ := sortByname_run hN.nested order hes
  have hstart : ∀ w fs, L w = some fs → Fine L s w :=
    fun w fs hfs => ⟨fs, fs, hfs, (hN.listed w fs hfs).strung, List.Perm.refl fs⟩
  have hfull : Full s L := fun w fs hfs o ho => (hN.listed w fs hfs).typeAt_ne ho
  obtain ⟨s', hrun, hgoes, hfine, hdone⟩ := hn₀ n₀ (Nat.le_refl _) s t (.refl s) hptr (by
    rintro w (rfl | ⟨hsome, -⟩)
    · exact hstart w es hes
    · obtain ⟨fs, hfs⟩ := Option.isSome_iff_exists.mp hsome
      exact hstart w fs hfs)
  have hkept := hgoes.within.kept
  refine ⟨n₀, s', fun n hn => sortByname_extends recurse order hn t s () s' hrun, hkept, fun w fs hfs => ?_⟩
  have hlisted := hN.listed w fs hfs
  by_cases hinside : Inside s recurse L v w
  · obtain ⟨gs, fs', hgs, hstrung, hperm, hsettled⟩ := hdone w hinside
    obtain rfl := Option.some.inj (hfs.symm.trans hgs)
    refine ⟨fs', hstrung.listed hlisted hkept hperm, hperm, fun _ => Settles.of_settled (fun a ha b hb => ?_)
      (hsettled hfull)⟩
    obtain ⟨x, hx⟩ := hlisted.linked.get_of_mem (hperm.subset ha)
    obtain ⟨y, hy⟩ := hlisted.linked.get_of_mem (hperm.subset hb)
    exact ⟨s', swapByname_run hkept hx hy (hlisted.typeAt_ne (hperm.subset ha))⟩
  · have hfine' : Fine L s' w := by
      by_cases hreached : Reached L depth v w
      · rcases hreached with rfl | hbelow
        · exact hfine
        · exact hgoes.fine w hbelow (hstart w fs hfs)
      · exact hgoes.within.fine hN.nested hreached (hstart w fs hfs)
    obtain ⟨gs, fs', hgs, hstrung, hperm⟩ := hfine'
    obtain rfl := Option.some.inj (hfs.symm.trans hgs)
    exact ⟨fs', hstrung.listed hlisted hkept hperm, hperm, fun h => absurd h hinside⟩

end Nest

end NullG.Libs.Sort
