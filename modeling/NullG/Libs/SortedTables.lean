/-
Tables behind a sort.

`sort_byname` and `sort_bykey` set `table.f` and leave `table.l` and the cursor: the last entry has to be the last one
before the sort. They order the entries as their comparison says, which need not be the order in which `n_locateobj`
searches a sorted table. So a table is usable behind them only where the last entry stays and each two entries end up
in an order in which both are found (`Ready`); then it stays so, whatever is looked up and appended in order
(`sorted_tables_usable`).
-/

import NullG.Libs.Chain

namespace NullG.Libs.Sort

open NullG.Nsp NullG.Lib

/-! ### The condition -/

/-- What the entries of a table have to be before a sort with the comparison `verdict`: none is to come behind the last
one, and each two of them stand in an order in which both are found and are not told to change places, or they stand
the other way round and are told to. `settles` says that the sort goes on to its end, or that there is nothing to do. -/
structure Ready (s : Store) (b : Bool) (es : List ObjId) (verdict : ObjId → ObjId → Option Bool) : Prop where
  named : ∀ o ∈ es, 0 ∉ (bodyAt s o).name ∧ (bodyAt s o).nval = nameNval (bodyAt s o).name
  last : ∀ x ∈ es, ∀ z ∈ es.getLast?, verdict x z ≠ some true
  pairs : es.Pairwise fun x y => Before b (bodyAt s x) (bodyAt s y) ∧ verdict x y ≠ some true ∨
    Before b (bodyAt s y) (bodyAt s x) ∧ verdict x y = some true
  settles : (∀ x ∈ es, ∀ y ∈ es, verdict x y ≠ none) ∨ es.Pairwise fun x y => Before b (bodyAt s x) (bodyAt s y)

section Condition

variable {s s' : Store} {b : Bool} {es es' : List ObjId} {verdict : ObjId → ObjId → Option Bool} {x y : Obj}

/-- Of two names in one order the lower one is below the other. -/
theorem Before.below (h : Before true x y) (hy : y.nval = nameNval y.name) : Nsp.Below x.name y.name := by
  obtain ⟨hlow, hhigh⟩ := h
  have hlow := not_breaksAt_true.mp hlow
  have hhigh := hhigh rfl
  rw [compareTo, locateCmp] at hlow hhigh
  split at hhigh
  · exact .inl (by omega)
  · rename_i hother
    have hneg := neg_one_le_nameNval x.name
    split at hlow
    · exact .inl (by omega)
    · rename_i hother'
      have hneg' := neg_one_le_nameNval y.name
      exact .inr ⟨by omega, by omega, hlow⟩

theorem Before.asymm (h : Before true x y) : ¬ Before true y x := by
  intro h'
  have hlow := not_breaksAt_true.mp h.1
  have hhigh := h'.2 rfl
  omega

/-- In a table that is not sorted, names that differ may stand in any order. -/
theorem Before.symm (h : Before false x y) (hx : 0 ∉ x.name ∧ x.nval = nameNval x.name)
    (hy : 0 ∉ y.name ∧ y.nval = nameNval y.name) : Before false y x := by
  refine ⟨fun hbreak => h.1 (.inl ?_), nofun⟩
  have hzero : compareTo x.name y = 0 := by simpa [BreaksAt] using hbreak
  rw [compareTo, locateCmp] at hzero ⊢
  split at hzero
  · rw [if_pos (by omega)]
    omega
  · have heq := eq_of_nameCmp hy.1 hx.1 hzero
    rw [heq, nameCmp_self, if_neg (by assumption)]

/-- The order of the entries behind a sort. -/
theorem Ready.before (h : Ready s b es verdict) (hasym : Bubble.Asymmetric verdict)
    (hex : Bubble.Exchanged verdict es es')
    (hsettled : (∀ x ∈ es, ∀ y ∈ es, verdict x y ≠ none) → Bubble.Settled verdict es') :
    es'.Pairwise fun x y => Before b (bodyAt s x) (bodyAt s y) := by
  cases b with
  | false =>
      have hboth : es.Pairwise fun x y =>
          Before false (bodyAt s x) (bodyAt s y) ∧ Before false (bodyAt s y) (bodyAt s x) := by
        refine List.Pairwise.imp_of_mem (fun {x y} hx hy hxy => ?_) h.pairs
        rcases hxy with ⟨hxy, -⟩ | ⟨hyx, -⟩
        · exact ⟨hxy, hxy.symm (h.named x hx) (h.named y hy)⟩
        · exact ⟨hyx.symm (h.named y hy) (h.named x hx), hyx⟩
      exact (hboth.perm hex.perm.symm fun h => ⟨h.2, h.1⟩).imp fun h => h.1
  | true =>
      have hkeep : ∀ x ∈ es, ∀ y ∈ es, Before true (bodyAt s x) (bodyAt s y) → verdict x y ≠ some true := by
        refine List.Pairwise.forall_of_forall_of_flip ?_ ?_ ?_
        · exact fun x _ hxx => absurd hxx hxx.asymm
        · refine h.pairs.imp fun {x y} hpair hxy => ?_
          rcases hpair with ⟨-, hstay⟩ | ⟨hyx, -⟩
          · exact hstay
          · exact absurd hyx hxy.asymm
        · refine h.pairs.imp fun {x y} hpair hyx => ?_
          rcases hpair with ⟨hxy, -⟩ | ⟨-, hturn⟩
          · exact absurd hxy hyx.asymm
          · exact hasym x y hturn
      rcases h.settles with hall | hordered
      · have hpairs := hex.pairwise hkeep (h.pairs.imp fun hpair => hpair.imp And.left id)
        have hbelow : ∀ x ∈ es', ∀ y ∈ es', Before true (bodyAt s x) (bodyAt s y) →
            Nsp.Below (bodyAt s x).name (bodyAt s y).name :=
          fun x _ y hy hxy => hxy.below (h.named y (hex.perm.subset hy)).2
        exact (hsettled hall).pairwise hpairs hbelow (fun _ _ _ h h' => h.trans h') fun _ h => h.ne rfl
      · rw [hex.eq (List.Pairwise.imp_of_mem (fun {x y} hx hy hxy => hkeep x hx y hy hxy) hordered)]
        exact hordered

/-- A smaller list of entries asks less of the appends. -/
theorem AppendsFit.mono {calls : List Call} {xs ys : List Obj} (h : AppendsFit b calls xs) (hsub : ys ⊆ xs) :
    AppendsFit b calls ys := by
  induction calls generalizing xs ys with
  | nil => trivial
  | cons call calls ih =>
      cases call with
      | append name =>
          obtain ⟨hnew, hrest⟩ := h
          refine ⟨fun x hx => hnew x (hsub hx), ih hrest ?_⟩
          exact List.append_subset.mpr ⟨List.subset_append_of_subset_left _ hsub, List.subset_append_right _ _⟩
      | get k => exact ih h hsub

end Condition

/-! ### Both sorts -/

section Sorts

variable {s s' : Store} {t : ObjId} {v : ValId} {b : Bool} {es : List ObjId} {null : ObjId → Bool}
  {visit : ObjId → H Unit} {swap : ObjId → ObjId → H (Option Bool)} {verdict : ObjId → ObjId → Option Bool}
  {I : Store → Prop} {V : ObjId → Store → Prop}

theorem Kept.bodyAt (h : Kept s s') (o : ObjId) : bodyAt s' o = bodyAt s o := by
  have hbody : ∀ s : Store, Sort.bodyAt s o = ((s.objs.get o).map body).getD {} := by
    intro s
    rw [Sort.bodyAt]
    cases s.objs.get o <;> rfl
  rw [hbody, hbody, h.objs]

/-- The sort ends, and the table stays usable behind it. -/
def KeepsUsable (sort : Nat → H Unit) (s : Store) (t : ObjId) (v : ValId) (es : List ObjId) (calls : List Call) :
    Prop :=
  ∃ n₀ s', (∀ n, n₀ ≤ n → (sort n).run s = .ok () s') ∧ StaysUsable t v calls s' es

/-- The loops leave a table that stays usable. -/
theorem Steps.chained (hS : Steps es null visit swap verdict I V) (hasym : Bubble.Asymmetric verdict) (hI : I s)
    (hkept : ∀ s₁, I s₁ → Kept s s₁) (hfenced : ∀ s₁, I s₁ → Fenced v b es.head? es.getLast? es s₁)
    (hstrung : Strung s v es) (hptr : s.ptr t = some v) (ht : t ≠ retObj) (hne : es ≠ [])
    (hready : Ready s b es verdict) {n : Nat} (hn : es.length + es.length * es.length < n) :
    ∃ es' s', (sortTable visit swap n t).run s = .ok () s' ∧ Chained s' t v b es' ∧ es'.Perm es ∧ Kept s s' := by
  have hlook : ∀ s₁, I s₁ → ∃ y f i l, s₁.look t = .ok (v, y) ∧ y.type = .table ∧ y.d.asTable = .ok (f, i, l) := by
    intro s₁ h₁
    obtain ⟨y, i, hy, htype, -, hd, -⟩ := (hfenced s₁ h₁).table
    exact ⟨y, _, i, _, Store.look_of_ptr (((hkept s₁ h₁).ptr t).trans hptr) hy, htype, hd⟩
  have hinv := Bubble.inversions_le verdict es
  obtain ⟨es', s₁, s', hrun, hex, hlinked, hI₁, hfirst, -, hdone⟩ :=
    hS.table_run hasym hlook hstrung hI (n := n) (by omega) (by omega)
  have hkept' := (hkept s₁ hI₁).trans hfirst.kept
  have hperm := hex.perm
  refine ⟨es', s', hrun, ⟨⟨?_, ?_, ?_⟩, ?_, ht, ?_, ?_, ?_⟩, hperm, hkept'⟩
  · -- the last entry is the last one before the sort
    obtain ⟨y, i, hy, htype, hauto, hd, hi⟩ := (hfenced s₁ hI₁).table
    obtain ⟨y', f₀, i', l', hy', -, hd', hval⟩ := hfirst.table
    obtain rfl : y = y' := Option.some.inj (hy.symm.trans hy')
    obtain ⟨-, rfl, rfl⟩ : es.head? = f₀ ∧ i = i' ∧ es.getLast? = l' := by simpa using hd.symm.trans hd'
    refine ⟨_, i, hval, htype, hauto, ?_, fun o ho => hperm.symm.subset (hi o ho)⟩
    rw [hex.getLast? hready.last]
    rfl
  · exact hlinked.congr fun o _ => by rw [hfirst.objs]
  · exact hperm.nodup_iff.mpr hstrung.nodup
  · exact (hkept'.ptr t).trans hptr
  · rintro rfl
    exact hne hperm.nil_eq.symm
  · simp only [hkept'.bodyAt]
    exact hready.before hasym hex fun hall => (hdone hall).1
  · intro o ho
    rw [hkept'.bodyAt]
    exact compareTo_self fun _ => (hready.named o (hperm.subset ho)).2

theorem Chained.keepsUsable {es' : List ObjId} {calls : List Call} (h : Chained s' t v b es') (hkept : Kept s s')
    (hperm : es'.Perm es) (hfit : AppendsFit b calls (es.map (bodyAt s))) : StaysUsable t v calls s' es := by
  refine h.stays hperm (hfit.mono ?_)
  rw [List.map_congr_left fun o _ => hkept.bodyAt o]
  exact List.map_subset _ hperm.subset

/-- `sort_byname` of a table that is ready for it. -/
theorem sortByname_usable {recurse order : Int} {L : ValId → Option (List ObjId)} {depth : ValId → Nat}
    {calls : List Call} (hN : Nested s recurse L depth) (hes : L v = some es) (hchain : Chain s v b es)
    (hptr : s.ptr t = some v) (ht : t ≠ retObj) (hne : es ≠ []) (hready : Ready s b es (bynameVerdict s order))
    (hfit : AppendsFit b calls (es.map (bodyAt s))) :
    KeepsUsable (fun n => sortByname recurse order n t) s t v es calls := by
  obtain ⟨n₁, hn₁⟩ := sortsEntry_of_below order hN hes fun w fs hfs _ => sortByname_run hN order hfs
  let n := max n₁ (es.length + es.length * es.length + 1)
  have hfine : ∀ w, Below L depth v w → Fine L s w := by
    rintro w ⟨hsome, -⟩
    obtain ⟨fs, hfs⟩ := Option.isSome_iff_exists.mp hsome
    exact ⟨fs, fs, hfs, hN.strung w fs hfs, List.Perm.refl fs⟩
  have hsorts := hn₁ n (Nat.le_max_left _ _)
  have hstrung := hN.strung v es hes
  have hS := (steps_byname hN hes hsorts (.refl s) hfine).and (J := Fenced v b es.head? es.getLast? es)
    (fun s₁ s₂ c h₁ hJ hc hnull hrun => by
      obtain ⟨s₃, hrun', -, ⟨hval, hobjs⟩, -⟩ := visit_run hN hes hc (by simpa using hnull) (hsorts c hc)
        h₁.within.kept fun w hw => h₁.fine w hw (hfine w hw)
      obtain rfl : s₂ = s₃ := by
        rw [hrun] at hrun'
        cases hrun'
        rfl
      exact hJ.congr hval hobjs)
    (fun s₁ s₂ c d h₁ hJ hc hnull hd hrun => by
      obtain ⟨x, hx⟩ := hstrung.linked.get_of_mem hc
      obtain ⟨y, hy⟩ := hstrung.linked.get_of_mem hd
      rw [swapByname_run h₁.within.kept hx hy (by simpa using hnull)] at hrun
      cases hrun
      exact hJ)
    (fun s₁ s₂ fs hJ hre hlinked hperm => hJ.relinked hre hlinked hperm)
  obtain ⟨es', s', hrun, h', hperm, hkept⟩ := hS.chained (bynameVerdict_asymm s order) ⟨.refl s, hchain.fenced⟩
    (fun s₁ h₁ => h₁.1.within.kept) (fun s₁ h₁ => h₁.2) hstrung hptr ht hne hready
    (n := n) (Nat.le_max_right n₁ (es.length + es.length * es.length + 1))
  refine ⟨n + 1, s', fun m hm => ?_, h'.keepsUsable hkept hperm hfit⟩
  exact sortByname_extends recurse order hm t s () s' hrun

theorem Chain.strung (h : Chain s v b es) (hlooks : ∀ o ∈ es, ∃ w y, s.look o = .ok (w, y)) : Strung s v es := by
  obtain ⟨y, i, hy, htype, -, hd, -⟩ := h.table
  refine ⟨⟨y, i, _, hy, htype, hd⟩, h.linked, h.nodup, fun o ho w hptr => ?_⟩
  obtain ⟨w', y', hlook⟩ := hlooks o ho
  obtain ⟨hptr', hy'⟩ := Store.ptr_of_look hlook
  obtain rfl := Option.some.inj (hptr.symm.trans hptr')
  exact ⟨y', hy'⟩

/-- `sort_bykey` of a table that is ready for it, if the keys are found. -/
theorem sortBykey_usable {key : List Byte} {subtab : Option (List Byte)} {order : Int} {find : ObjId → ObjId}
    {R : Store → Prop} {calls : List Call} (hlooks : ∀ o ∈ es, ∃ w y, s.look o = .ok (w, y))
    (hsteady : Steady s key subtab v es find R) (hchain : Chain s v b es) (hptr : s.ptr t = some v) (ht : t ≠ retObj)
    (hne : es ≠ []) (hready : Ready s b es (keyVerdict s order find))
    (hfit : AppendsFit b calls (es.map (bodyAt s))) :
    KeepsUsable (fun n => sortBykey n t key subtab order) s t v es calls := by
  have hstrung := hchain.strung hlooks
  have hS := (hsteady.steps order hstrung hlooks).and (J := Fenced v b es.head? es.getLast? es)
    (fun s₁ s₂ c _ hJ _ _ hrun => by
      cases hrun
      exact hJ)
    (fun s₁ s₂ c d h₁ hJ hc _ hd hrun => by
      obtain ⟨s₃, hrun', -, hlookups⟩ := hsteady.swap_run order hlooks h₁.1 h₁.2 hc hd
      obtain rfl : s₂ = s₃ := by
        rw [hrun] at hrun'
        cases hrun'
        rfl
      exact hlookups _ (fenced_lookUps v b _ _ es) hJ)
    (fun s₁ s₂ fs hJ hre hlinked hperm => hJ.relinked hre hlinked hperm)
  obtain ⟨es', s', hrun, h', hperm, hkept⟩ := hS.chained (keyVerdict_asymm s order find)
    ⟨⟨hsteady.start, .refl s⟩, hchain.fenced⟩ (fun s₁ h₁ => h₁.1.2) (fun s₁ h₁ => h₁.2) hstrung hptr ht hne hready
    (n := es.length + es.length * es.length + 1) (Nat.lt_succ_self _)
  refine ⟨es.length + es.length * es.length + 1, s', fun m hm => ?_, h'.keepsUsable hkept hperm hfit⟩
  exact sortTable_extends (fun _ => .refl _) hm t s () s' hrun

end Sorts

/-- Behind `sort_byname` and `sort_bykey` a table that was ready for them stays usable in every run of look-ups and of
appends in order. -/
theorem sorted_tables_usable {s : Store} {t : ObjId} {v : ValId} {b : Bool} {es : List ObjId} {calls : List Call}
    (order : Int) (hchain : Chain s v b es) (hptr : s.ptr t = some v) (ht : t ≠ retObj) (hne : es ≠ [])
    (hfit : AppendsFit b calls (es.map (bodyAt s))) :
    (∀ {recurse L depth}, Nested s recurse L depth → L v = some es → Ready s b es (bynameVerdict s order) →
      KeepsUsable (fun n => sortByname recurse order n t) s t v es calls) ∧
    (∀ {key subtab find R}, (∀ o ∈ es, ∃ w y, s.look o = .ok (w, y)) → Steady s key subtab v es find R →
      Ready s b es (keyVerdict s order find) → KeepsUsable (fun n => sortBykey n t key subtab order) s t v es calls) :=
  ⟨fun hN hes hready => sortByname_usable hN hes hchain hptr ht hne hready hfit,
    fun hlooks hsteady hready => sortBykey_usable hlooks hsteady hchain hptr ht hne hready hfit⟩

/-- A sorted table with the entries `b`, `a` and `c`. -/
def threeNames : Store :=
  memoryOf [{ val := some 3 }, entryObj "b" 4 none (some 5), entryObj "a" 5 (some 4) (some 6),
      entryObj "c" 6 (some 5) none]
    [tableVal (some 4) (some 4) (some 6), { type := .number }, { type := .number }, { type := .number }]

/-- The list of one table. -/
def onlyList (v : ValId) (es : List ObjId) (w : ValId) : Option (List ObjId) := if w = v then some es else none

/-- A table that is sorted without those inside of it. -/
theorem Strung.nested {s : Store} {v : ValId} {es : List ObjId} (h : Strung s v es) :
    Nested s 0 (onlyList v es) fun _ => 0 := by
  have hlists : ∀ {w fs}, onlyList v es w = some fs → w = v ∧ es = fs := by
    intro w fs h
    unfold onlyList at h
    split at h
    · exact ⟨‹_›, Option.some.inj h⟩
    · cases h
  refine ⟨?_, ?_, ?_⟩
  · intro w fs hw
    obtain ⟨rfl, rfl⟩ := hlists hw
    exact h
  · intro w u fs gs hw hu hne
    exact absurd ((hlists hw).1.trans (hlists hu).1.symm) hne
  · rintro w fs - o - u ⟨hrecurse, -⟩
    exact absurd rfl hrecurse

theorem chain_threeNames : Chain threeNames 3 true [4, 5, 6] :=
  ⟨⟨_, some 4, rfl, rfl, rfl, rfl, by simp⟩, ⟨⟨_, rfl, rfl, rfl⟩, ⟨_, rfl, rfl, rfl⟩, ⟨_, rfl, rfl, rfl⟩, trivial⟩,
    by decide⟩

theorem strung_threeNames : Strung threeNames 3 [4, 5, 6] := by
  refine chain_threeNames.strung ?_
  simp only [List.mem_cons, List.not_mem_nil, or_false]
  rintro o (rfl | rfl | rfl)
  · exact ⟨_, _, rfl⟩
  · exact ⟨_, _, rfl⟩
  · exact ⟨_, _, rfl⟩

theorem ready_threeNames : Ready threeNames true [4, 5, 6] (bynameVerdict threeNames 1) where
  named := by decide +kernel
  last := by
    intro x hx z hz
    obtain rfl : 6 = z := Option.some.inj hz
    revert x
    decide +kernel
  pairs := by decide +kernel
  settles := .inl (by decide +kernel)

theorem chain_twoRows : Chain twoRows 3 true [4, 5] :=
  ⟨⟨_, none, rfl, rfl, rfl, rfl, nofun⟩, ⟨⟨_, rfl, rfl, rfl⟩, ⟨_, rfl, rfl, rfl⟩, trivial⟩, by decide⟩

theorem ready_twoRows : Ready twoRows true [4, 5]
    (keyVerdict twoRows (-1) fun o => rowEntry (bytes "k") (rowEntries ((twoRows.ptr o).getD 0))) where
  named := by decide +kernel
  last := by
    intro x hx z hz
    obtain rfl : 5 = z := Option.some.inj hz
    revert x
    decide +kernel
  pairs := by decide +kernel
  settles := .inl (by decide +kernel)

theorem fits_threeNames : AppendsFit true [.get (bytes "a"), .append (some (bytes "d")), .get (bytes "z")]
    ([4, 5, 6].map (bodyAt threeNames)) :=
  ⟨by decide +kernel, trivial⟩

theorem fits_twoRows : AppendsFit true [.append (some (bytes "c"))] ([4, 5].map (bodyAt twoRows)) :=
  ⟨by decide +kernel, trivial⟩

theorem sorted_tables_usable_examples :
    KeepsUsable (fun n => sortByname 0 1 n 3) threeNames 3 3 [4, 5, 6]
      [.get (bytes "a"), .append (some (bytes "d")), .get (bytes "z")] ∧
    KeepsUsable (fun n => sortBykey n 3 (bytes "k") none (-1)) twoRows 3 3 [4, 5] [.append (some (bytes "c"))] :=
  ⟨(sorted_tables_usable 1 chain_threeNames rfl (by decide) (by decide) fits_threeNames).1 strung_threeNames.nested rfl
      ready_threeNames,
    (sorted_tables_usable (-1) chain_twoRows rfl (by decide) (by decide) fits_twoRows).2 listed_twoRows.looks
      (steady_of_rows ⟨_, _, _, rfl, rfl⟩ row_twoRows) ready_twoRows⟩

/-! ### The last entry -/

/-- A sorted table with the entries `a` and `b`. -/
def twoNames : Store :=
  memoryOf [{ val := some 3 }, entryObj "a" 4 none (some 5), entryObj "b" 5 (some 4) none]
    [tableVal (some 4) none (some 5), { type := .number }, { type := .number }]

theorem StaysUsable.now {t : ObjId} {v : ValId} {calls : List Call} {s : Store} {os : List ObjId}
    (h : StaysUsable t v calls s os) : Usable s t v os := by
  cases calls with
  | nil => exact h
  | cons call calls =>
      cases call with
      | append name => exact h.1
      | get k => exact h.1

theorem chain_twoNames : Chain twoNames 3 true [4, 5] :=
  ⟨⟨_, none, rfl, rfl, rfl, rfl, nofun⟩, ⟨⟨_, rfl, rfl, rfl⟩, ⟨_, rfl, rfl, rfl⟩, trivial⟩, by decide⟩

theorem listed_twoNames : Listed twoNames 3 [4, 5] :=
  listed_pair rfl rfl rfl ⟨_, rfl, rfl, rfl⟩ ⟨_, rfl, rfl, rfl⟩ (by decide) rfl rfl (by decide) (by decide)

/-- A table of two entries that starts and ends at the same one. -/
theorem not_usable_of_ends {s : Store} {t : ObjId} {v : ValId} {y : Val} {f i : Option ObjId} {os : List ObjId}
    (hy : s.vals.get v = some y) (hd : y.d.asTable = .ok (f, i, f)) (hlen : os.length = 2) : ¬ Usable s t v os := by
  rintro ⟨b, es, hchain, hperm, -⟩
  obtain ⟨y', i', hy', -, -, hd', -⟩ := hchain.table
  obtain rfl := Option.some.inj (hy.symm.trans hy')
  obtain ⟨hfirst, -, hlast⟩ : f = es.head? ∧ i = i' ∧ f = es.getLast? := by simpa using hd.symm.trans hd'
  obtain ⟨p, q, rfl⟩ := List.length_eq_two.mp (hperm.length_eq.trans hlen)
  obtain rfl : p = q := by simpa using hfirst.symm.trans hlast
  have hnodup := hchain.nodup
  simp at hnodup

/-- A sort in descending order leaves `table.l` on `b`, which is the first entry then; the next append takes `a` out of
the list. -/
theorem not_sorted_tables_usable :
    (Nested twoNames 0 (onlyList 3 [4, 5]) (fun _ => 0) ∧ Chain twoNames 3 true [4, 5] ∧ twoNames.ptr 3 = some 3 ∧
      ∀ calls, ¬ KeepsUsable (fun n => sortByname 0 (-1) n 3) twoNames 3 3 [4, 5] calls) ∧
    ∃ s' x y, (do sortByname 0 (-1) 4 3; nspAppendobj 3 (some (bytes "c")) : H ObjId).run twoNames = .ok 6 s' ∧
      (firstOf 3).run s' = .ok (some 5) s' ∧ s'.objs.get 5 = some x ∧ x.next = some 6 ∧ s'.objs.get 6 = some y ∧
      y.next = none := by
  refine ⟨⟨listed_twoNames.strung.nested, chain_twoNames, rfl, ?_⟩, ⟨_, _, _, rfl, rfl, rfl, rfl, rfl, rfl⟩⟩
  rintro calls ⟨n₀, s', hrun, hstays⟩
  obtain ⟨s₁, hsort, y, hy, hd⟩ : ∃ s₁, (sortByname 0 (-1) 4 3).run twoNames = .ok () s₁ ∧
      ∃ y, s₁.vals.get 3 = some y ∧ y.d.asTable = .ok (some 5, none, some 5) := ⟨_, rfl, _, rfl, rfl⟩
  have hmore := sortByname_extends 0 (-1) (Nat.le_max_right n₀ 4) 3 twoNames () s₁ hsort
  have heq := (hrun (max n₀ 4) (Nat.le_max_left n₀ 4)).symm.trans hmore
  obtain rfl : s' = s₁ := by
    cases heq
    rfl
  exact not_usable_of_ends hy hd rfl hstays.now

end NullG.Libs.Sort
