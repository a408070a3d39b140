/-
The order of a sorted table.

A table whose names are numerals, or none of whose names is one, stays in the order of its names
under every call of `nsp_setobj` and `nsp_getobj`, and `n_locateobj` finds what a scan of the
entries finds. The names that are set have to fit into `name`: `n_setname` cuts a longer one, but
the search goes on with the whole of it, and the next call does not find the entry again.
-/

import NullG.Nsp.TableMap

namespace NullG.Nsp.TableSorted

open NullG.Lib

/-! ### Names -/

/-- The names of a table: none of them is a numeral, or all of them are canonical numerals that a
`double` holds. -/
inductive Names where
  | other
  | numerals

/-- A name of such a table. -/
def Names.Has : Names → List Byte → Prop
  | .other, name => 0 ∉ name ∧ allDigits name = false
  | .numerals, name => allDigits name = true ∧ Canonical name ∧ decimal name < 2 ^ 53

/-- The order of the names: by bytes, or by number. -/
def Names.Less : Names → List Byte → List Byte → Prop
  | .other, p, q => p < q
  | .numerals, p, q => decimal p < decimal q

section Names

variable {names : Names} {p q : List Byte}

theorem zero_notMem_numeral (h : allDigits p = true) : 0 ∉ p := by
  intro hzero
  simp only [allDigits, Bool.and_eq_true, List.all_eq_true] at h
  exact absurd (h.2 0 hzero) (by decide)

theorem Names.Has.nulFree (h : names.Has p) : 0 ∉ p := by
  cases names with
  | other => exact h.1
  | numerals => exact zero_notMem_numeral h.1

/-- The comparison of `n_locateobj` is the order of bytes. -/
theorem nameCmp_neg_iff : ∀ {p q : List Byte}, 0 ∉ p → 0 ∉ q → (nameCmp p q < 0 ↔ p < q) := by
  intro p
  induction p with
  | nil =>
      intro q _ hq
      cases q with
      | nil => simp [nameCmp]
      | cons b q =>
          have hb : b.toNat ≠ 0 := fun h => hq (List.mem_cons.mpr (.inl (UInt8.toNat_inj.mp h.symm)))
          simp only [nameCmp, List.nil_lt_cons, iff_true]
          omega
  | cons a p ih =>
      intro q hp hq
      cases q with
      | nil =>
          simp only [nameCmp, List.not_lt_nil, iff_false]
          omega
      | cons b q =>
          rw [nameCmp, List.cons_lt_cons_iff]
          split
          · rename_i hab
            rw [ih (fun h => hp (List.mem_cons_of_mem a h)) (fun h => hq (List.mem_cons_of_mem b h))]
            simp [hab]
          · rename_i hab
            simp only [hab, false_and, or_false, UInt8.lt_iff_toNat_lt]
            omega

/-- The order of a table is that of its names. -/
theorem Names.below_iff (hp : names.Has p) (hq : names.Has q) : Below p q ↔ names.Less p q := by
  cases names with
  | other =>
      have hnp : nameNval p = -1 := nameNval_other (by simp [hp.2])
      have hnq : nameNval q = -1 := nameNval_other (by simp [hq.2])
      rw [Below, hnp, hnq, nameCmp_neg_iff hp.1 hq.1, Names.Less]
      simp
  | numerals =>
      rw [Below, nameNval_numeral hp.1, nameNval_numeral hq.1, Names.Less]
      omega

theorem Names.Has.agree (hp : names.Has p) (hq : names.Has q) : Agree p q := by
  intro hother hnumeral
  cases names with
  | other => exact absurd hnumeral (by simp [hq.2])
  | numerals => exact absurd hp.1 hother

/-- An entry compares as equal with its own name only. -/
theorem Names.Has.entryCmp_eq_zero {kind : Names} {e : Entry} (he : names.Has e.name) (hk : kind.Has p) :
    entryCmp p e = 0 ↔ e.name = p := by
  rw [entryCmp]
  constructor
  · intro h
    split at h
    · rename_i hnum
      have hp : allDigits p = true := nameNval_gt_iff.mp hnum
      have hename : allDigits e.name = true := nameNval_gt_iff.mp (by omega)
      rw [nameNval_numeral hp, nameNval_numeral hename] at h
      cases names with
      | other => exact absurd hename (by simp [he.2])
      | numerals =>
          cases kind with
          | other => exact absurd hp (by simp [hk.2])
          | numerals => exact decimal_injective hename hp he.2.1 hk.2.1 (by omega)
    · exact eq_of_nameCmp he.nulFree hk.nulFree h
  · rintro rfl
    have hswap := nameCmp_swap e.name e.name
    split <;> omega

end Names

/-! ### Tables in order -/

/-- A sorted table in order: a doubly linked list with its first and its last entry, ascending
names, and a cursor that is NULL or on one of the entries. -/
structure Sorted (kind : Names) (s : Store) (t : ObjId) (vt : ValId) (es : List Entry) : Prop where
  rep : TableRep s t vt es
  names : ∀ e ∈ es, kind.Has e.name
  ascending : (es.map Entry.name).Pairwise kind.Less
  cursor : ∃ y f i l, s.vals.get vt = some y ∧ y.d.asTable = .ok (f, i, l) ∧ ∀ o ∈ i, ∃ e ∈ es, e.obj = o
  bare : ∀ e ∈ es, e.content.Bare

section Sorted

variable {names : Names} {s s' : Store} {t : ObjId} {vt : ValId} {es es' : List Entry} {oname : List Byte}

theorem cursor_of_rep (h : TableRep s t vt es) (hne : es ≠ []) :
    ∃ y f i l, s.vals.get vt = some y ∧ y.d.asTable = .ok (f, i, l) ∧ ∀ o ∈ i, ∃ e ∈ es, e.obj = o := by
  obtain ⟨y, hy, ht⟩ := h.table
  obtain ⟨i, hd, hi⟩ := ht.links
  exact ⟨y, _, i, _, hy, hd, hi hne⟩

theorem Sorted.ordered (h : Sorted names s t vt es) : Ordered es := by
  have hasc := List.pairwise_map.mp h.ascending
  exact hasc.imp_of_mem fun ha hb hlt => (Names.below_iff (h.names _ ha) (h.names _ hb)).mpr hlt

/-- A search leaves the order. -/
theorem Sorted.moved (h : Sorted names s t vt es) (h' : TableRep s' t vt es) (hempty : es = [] → s' = s) :
    Sorted names s' t vt es := by
  refine ⟨h', h.names, h.ascending, ?_, h.bare⟩
  by_cases hne : es = []
  · rw [hempty hne]
    exact h.cursor
  · exact cursor_of_rep h' hne

/-- The place that the search finds separates the names. -/
theorem Sorted.between {A B : List Entry} (h : Sorted names s t vt (A ++ B)) (hk : names.Has oname)
    (hplace : Between oname A B) : (∀ a ∈ A, Below a.name oname) ∧ ∀ b ∈ B, Below oname b.name :=
  h.ordered.between hplace fun a ha => hk.agree (h.names a (List.mem_append_left _ ha))

/-- `nsp_setobj` keeps the order. -/
theorem Sorted.set (h : Sorted names s t vt es) (hk : names.Has oname) {v : Setting}
    (hto : SetTo oname v es es') (h' : TableRep s' t vt es') : Sorted names s' t vt es' := by
  cases hto with
  | @old A b B hzero =>
      refine ⟨h', ?_, ?_, cursor_of_rep h' (by simp), ?_⟩
      · intro e he
        rcases mem_middle.mp he with rfl | he
        · exact h.names b (by simp)
        · exact h.names e (mem_middle.mpr (.inr he))
      · have hasc := h.ascending
        rw [List.map_append, List.map_cons] at hasc ⊢
        exact hasc
      · intro e he
        rcases mem_middle.mp he with rfl | he
        · exact v.bare_over _
        · exact h.bare e (mem_middle.mpr (.inr he))
  | @new A B e hplace hname hcontent =>
      subst hname
      obtain ⟨hA, hB⟩ := h.between hk hplace
      refine ⟨h', ?_, ?_, cursor_of_rep h' (by simp), ?_⟩
      · intro e' he'
        rcases mem_middle.mp he' with rfl | he'
        · exact hk
        · exact h.names e' he'
      · obtain ⟨hAA, hBB, hAB⟩ := List.pairwise_append.mp (List.map_append (f := Entry.name) ▸ h.ascending)
        rw [List.map_append, List.map_cons]
        refine List.pairwise_append.mpr ⟨hAA, List.pairwise_cons.mpr ⟨?_, hBB⟩, ?_⟩
        · intro q hq
          obtain ⟨b, hb, rfl⟩ := List.mem_map.mp hq
          exact (Names.below_iff hk (h.names b (by simp [hb]))).mp (hB b hb)
        · intro p hp q hq
          rcases List.mem_cons.mp hq with rfl | hq
          · obtain ⟨a, ha, rfl⟩ := List.mem_map.mp hp
            exact (Names.below_iff (h.names a (by simp [ha])) hk).mp (hA a ha)
          · exact hAB p hp q hq
      · intro e' he'
        rcases mem_middle.mp he' with rfl | he'
        · exact hcontent ▸ v.bare_content
        · exact h.bare e' he'

/-- The entry that a scan of the list finds. -/
def scan (es : List Entry) (oname : List Byte) : Option ObjId :=
  (es.find? fun e => e.name = oname).map Entry.obj

/-- `n_locateobj` finds what a scan finds. -/
theorem Sorted.locate (h : Sorted names s t vt es) {kind : Names} (hk : kind.Has oname) :
    ∃ s', (nLocateobjGet t oname).run s = .ok (scan es oname) s' := by
  obtain ⟨r, s', hrun, -, -, hr⟩ := nLocateobjGet_run (TableRep.searchable t vt es) h.rep oname
  refine ⟨s', ?_⟩
  suffices hscan : scan es oname = r by rw [hscan, hrun]
  rw [scan]
  rcases hr with ⟨e, he, hzero, rfl⟩ | ⟨rfl, A, B, rfl, hplace⟩
  · -- names are there once, so that the first entry of the name is this one
    obtain rfl := ((h.names e he).entryCmp_eq_zero hk).mp hzero
    have hfind : es.find? (fun e' => e'.name = e.name) = some e := by
      obtain ⟨A, B, rfl⟩ := List.append_of_mem he
      rw [List.find?_eq_some_iff_append]
      refine ⟨by simp, A, B, rfl, ?_⟩
      intro a ha
      have hbelow := (List.pairwise_append.mp h.ordered).2.2 a ha e (List.mem_cons_self ..)
      simpa using hbelow.ne
    rw [hfind]
    rfl
  · have hnone : (A ++ B).find? (fun e' => e'.name = oname) = none := by
      rw [List.find?_eq_none]
      intro e he
      simp only [decide_eq_true_eq]
      rintro rfl
      have hname := h.names e he
      obtain ⟨hA, hB⟩ := h.between hname hplace
      rcases List.mem_append.mp he with he | he
      · exact (hA e he).ne rfl
      · exact (hB e he).ne rfl
    rw [hnone]
    rfl

end Sorted

/-! ### Runs -/

/-- A call whose name is one of the table's; `nsp_setobj` does nothing with an empty name. -/
def Named (names : Names) : TableCall → Prop
  | .set oname _ => oname = [] ∨ names.Has oname
  | .get _ => True

/-- A run ends, or it stops where the value of one of the entries is freed. -/
def Ends (s : Store) (t : ObjId) (cs : List TableCall) (s' : Store) (es' : List Entry) : Prop :=
  (runCalls t cs).run s = .ok () s' ∨
    ∃ e ∈ es', ∃ f, e.content.reap = some f ∧ (runCalls t cs).run s = .error f s'

/-- The calls leave the table in order, and `n_locateobj` finds every name in it as a scan does. -/
def KeepsOrder (names : Names) (s : Store) (t : ObjId) (vt : ValId) (cs : List TableCall) : Prop :=
  ∃ s' es', Ends s t cs s' es' ∧ Sorted names s' t vt es' ∧
    ∀ (kind : Names) (oname : List Byte), kind.Has oname →
      ∃ s'', (nLocateobjGet t oname).run s' = .ok (scan es' oname) s''

section Runs

variable {names : Names} {s : Store} {t : ObjId} {vt : ValId} {es : List Entry}

/-- One call keeps the order. -/
theorem call_sorted (h : Sorted names s t vt es) (ht : t ≠ retObj) {c : TableCall} (hc : Named names c)
    (hshort : ∀ oname v, c = .set oname v → oname.length ≤ 63) :
    ∃ s' es', ((∃ o, (c.run t).run s = .ok o s') ∨
      ∃ e ∈ es', ∃ f, e.content.reap = some f ∧ (c.run t).run s = .error f s') ∧ Sorted names s' t vt es' := by
  cases c with
  | get oname =>
      obtain ⟨o, s', hrun, h', hempty, -⟩ := nspGetobj_run h.rep ht oname
      exact ⟨s', es, .inl ⟨o, hrun⟩, h.moved h' hempty⟩
  | set oname v =>
      by_cases hnil : oname = []
      · subst hnil
        obtain ⟨y, hlook, hy⟩ := h.rep.look
        have htable : (nspIstable t).run s = .ok true s := by
          rw [nspIstable_run hlook, hy.type]
          rfl
        refine ⟨s, es, .inl ⟨nullObj, ?_⟩, h⟩
        rw [TableCall.run, nspSetobj, Action.run_bind_ok htable, if_pos ⟨ht, rfl⟩]
        rfl
      · have hk : names.Has oname := hc.resolve_left hnil
        have hclip : clip oname = oname := List.take_of_length_le (hshort oname v rfl)
        rcases nspSetobj_run h.rep ht hnil hclip h.bare v with
          ⟨o, s', es', hrun, h', hto⟩ | ⟨b, hb, -, f, s', hreap, hrun, h'⟩
        · exact ⟨s', es', .inl ⟨o, hrun⟩, h.set hk hto h'⟩
        · refine ⟨s', es, .inr ⟨b, hb, f, hreap, hrun⟩, h.moved h' ?_⟩
          rintro rfl
          cases hb

/-- Calls keep the order. -/
theorem runCalls_sorted (ht : t ≠ retObj) (cs : List TableCall) : ∀ {s : Store} {es : List Entry},
    Sorted names s t vt es → (∀ c ∈ cs, Named names c) →
      (∀ oname v, TableCall.set oname v ∈ cs → oname.length ≤ 63) →
      ∃ s' es', Ends s t cs s' es' ∧ Sorted names s' t vt es' := by
  induction cs with
  | nil => exact fun {s es} h _ _ => ⟨s, es, .inl rfl, h⟩
  | cons c cs ih =>
      intro s es h hnamed hshort
      obtain ⟨s₁, es₁, hcall, h₁⟩ := call_sorted h ht (hnamed c (List.mem_cons_self ..))
        fun oname v heq => hshort oname v (heq ▸ List.mem_cons_self ..)
      rcases hcall with ⟨o, hrun⟩ | ⟨e, he, f, hreap, hrun⟩
      · obtain ⟨s', es', hends, h'⟩ := ih h₁ (fun c hc => hnamed c (List.mem_cons_of_mem _ hc))
          fun oname v hc => hshort oname v (List.mem_cons_of_mem _ hc)
        refine ⟨s', es', ?_, h'⟩
        rwa [Ends, runCalls, Action.run_bind_ok hrun]
      · exact ⟨s₁, es₁, .inr ⟨e, he, f, hreap, by rw [runCalls, Action.run_bind_error hrun]⟩, h₁⟩

end Runs

/-- Calls that set names of at most 63 bytes keep the order of a table. -/
theorem keepsOrder_of_short {names : Names} {s : Store} {t : ObjId} {vt : ValId} {es : List Entry}
    (h : Sorted names s t vt es) (ht : t ≠ retObj) {cs : List TableCall} (hnamed : ∀ c ∈ cs, Named names c)
    (hshort : ∀ oname v, TableCall.set oname v ∈ cs → oname.length ≤ 63) : KeepsOrder names s t vt cs := by
  obtain ⟨s', es', hends, h'⟩ := runCalls_sorted ht cs h hnamed hshort
  exact ⟨s', es', hends, h', fun kind oname hk => h'.locate hk⟩

theorem oneTable_sorted (names : Names) : Sorted names oneTable 3 3 [] :=
  ⟨oneTable_rep, by simp, .nil, ⟨_, none, none, none, rfl, rfl, by simp⟩, by simp⟩

theorem keepsOrder_words : KeepsOrder .other oneTable 3 3
    [.set (bytes "to") (.number 1), .get (bytes "7"), .set (bytes "from") .table,
      .set (bytes "from") (.string (bytes "x"))] := by
  have hnames : ∀ k ∈ [bytes "to", bytes "from"], Names.other.Has k ∧ k.length ≤ 63 := by
    intro k hk
    simp only [List.mem_cons, List.not_mem_nil, or_false] at hk
    rcases hk with rfl | rfl
    all_goals exact ⟨⟨by decide, by decide⟩, by decide⟩
  refine keepsOrder_of_short (oneTable_sorted .other) (by decide) ?_ ?_
  · intro c hc
    simp only [List.mem_cons, List.not_mem_nil, or_false] at hc
    rcases hc with rfl | rfl | rfl | rfl
    · exact .inr (hnames _ (by decide)).1
    · trivial
    · exact .inr (hnames _ (by decide)).1
    · exact .inr (hnames _ (by decide)).1
  · intro k v hk
    simp only [List.mem_cons, List.not_mem_nil, or_false, TableCall.set.injEq, reduceCtorEq, false_or] at hk
    rcases hk with ⟨rfl, -⟩ | ⟨rfl, -⟩ | ⟨rfl, -⟩
    all_goals exact (hnames _ (by decide)).2

/-- The names along `next`. -/
def namesFrom (s : Store) : Nat → Option ObjId → List (List Byte)
  | n + 1, some o =>
      match s.objs.get o with
      | some x => x.name :: namesFrom s n x.next
      | none => []
  | _, _ => []

/-- The names of the entries of a value. -/
def namesOf (s : Store) (vt : ValId) : List (List Byte) :=
  match s.vals.get vt with
  | none => []
  | some y =>
      match y.d.asTable with
      | .ok (f, _, _) => namesFrom s (s.objs.next + s.vals.next + 1) f
      | .error _ => []

theorem namesFrom_rep {s : Store} {t : ObjId} {vt : ValId} {es : List Entry} (h : TableRep s t vt es) :
    ∀ (seg pre : List Entry) (n : Nat), es = pre ++ seg → seg.length ≤ n →
      namesFrom s n (seg.head?.map Entry.obj) = seg.map Entry.name := by
  intro seg
  induction seg with
  | nil =>
      intro pre n _ _
      cases n <;> rfl
  | cons e seg ih =>
      intro pre n hes hn
      obtain ⟨n, rfl⟩ : ∃ m, n = m + 1 := ⟨n - 1, by simp at hn; omega⟩
      obtain ⟨x, hx, -, hnext, -, hname, -⟩ := h.linked pre e seg hes
      simp only [List.head?_cons, Option.map_some, namesFrom, hx, List.map_cons, hname, hnext]
      rw [ih (pre ++ [e]) n (by rw [hes, List.append_assoc]; rfl) (by simpa using hn)]

theorem namesOf_rep {s : Store} {t : ObjId} {vt : ValId} {es : List Entry} (h : TableRep s t vt es) :
    namesOf s vt = es.map Entry.name := by
  obtain ⟨y, hy, ht⟩ := h.table
  obtain ⟨i, hd, -⟩ := ht.links
  have hlen := h.length_lt
  simp only [namesOf, hy, hd]
  exact namesFrom_rep h es [] _ rfl (by omega)

/-- The names of a table after calls that end. -/
def namesAfter (s : Store) (t : ObjId) (vt : ValId) (cs : List TableCall) : Option (List (List Byte)) :=
  match (runCalls t cs).run s with
  | .ok _ s' => some (namesOf s' vt)
  | .error _ _ => none

/-- A name of 64 bytes that is set twice is there twice, with 63 bytes. -/
theorem not_keepsOrder_long : ¬ ∀ cs : List TableCall, (∀ c ∈ cs, Named .other c) →
    KeepsOrder .other oneTable 3 3 cs := by
  intro h
  let long : List Byte := List.replicate 64 (ch 'a')
  obtain ⟨s', es', hends, h', -⟩ := h [.set long (.number 1), .set long (.number 2)] (by
    intro c hc
    simp only [List.mem_cons, List.not_mem_nil, or_false] at hc
    rcases hc with rfl | rfl
    all_goals exact .inr ⟨by decide, by decide⟩)
  have hafter : namesAfter oneTable 3 3 [.set long (.number 1), .set long (.number 2)] =
      some [long.take 63, long.take 63] := by decide +kernel
  rw [namesAfter] at hafter
  rcases hends with hrun | ⟨e, he, f, hreap, hrun⟩
  · rw [hrun] at hafter
    dsimp only at hafter
    rw [namesOf_rep h'.rep, Option.some.injEq] at hafter
    have hasc := h'.ascending
    rw [hafter] at hasc
    exact absurd (List.rel_of_pairwise_cons hasc (List.mem_cons_self ..)) (List.lt_irrefl _)
  · rw [hrun] at hafter
    cases hafter

end NullG.Nsp.TableSorted
