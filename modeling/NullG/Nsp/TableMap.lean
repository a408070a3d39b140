/-
A sorted table as a finite map.

`nsp_setobj` and `nsp_getobj` on a table read and write a map from names to values. The list of a
table is sorted by number where two names are numerals and by bytes where they are not, and
`n_locateobj` compares every entry by number when it searches a numeral and by bytes when it does
not. The two agree as long as every other name stands before the numerals in both orders.
-/

import NullG.Nsp.TableOps
import Mathlib.Data.Nat.Digits.Defs
import Mathlib.Data.Rat.Cast.Order

namespace NullG.Nsp

open NullG.Lib

/-! ### Names -/

/-- The number that digits spell. -/
def decimal (name : List Byte) : Nat := name.foldl (fun n c => 10 * n + (c - ch '0').toNat) 0

/-- No zero stands before other digits. -/
def Canonical (name : List Byte) : Prop := name = [ch '0'] ∨ name.head? ≠ some (ch '0')

/-- The names of the entries: they fit into `name`, and the numerals are canonical and small
enough for a `double`. -/
structure ValidName (name : List Byte) : Prop where
  nonempty : name ≠ []
  short : name.length ≤ 63
  nulFree : 0 ∉ name
  numeral : allDigits name = true → Canonical name ∧ decimal name < 2 ^ 53

theorem digits_eq {p : List Byte} (h : ∀ c ∈ p, ncIsdigit c = true) (n : Nat) :
    digits (n : Num) p = (((p.foldl (fun n c => 10 * n + (c - ch '0').toNat) n : Nat) : Num), []) := by
  induction p generalizing n with
  | nil => rfl
  | cons c p ih =>
      rw [digits, if_pos (h c (List.mem_cons_self ..)), List.foldl_cons,
        ← ih (fun d hd => h d (List.mem_cons_of_mem _ hd))]
      push_cast
      rfl

theorem trunc_natCast (n : Nat) : Num.trunc (n : Num) = n := by
  simp [Num.trunc]

/-- The `nval` of a numeral. -/
theorem nameNval_numeral {name : List Byte} (h : allDigits name = true) : nameNval name = decimal name := by
  have hall : ∀ c ∈ name, ncIsdigit c = true := by
    simp only [allDigits, Bool.and_eq_true, List.all_eq_true] at h
    exact h.2
  have hunsigned : unsignedNum name = (decimal name : Nat) := by
    rw [unsignedNum, show (0 : Num) = ((0 : Nat) : Num) from rfl, digits_eq hall]
    rfl
  have haton : nAton name = (decimal name : Nat) := by
    cases name with
    | nil => rfl
    | cons c name =>
        have hc : c ≠ ch '-' := by
          rintro rfl
          exact absurd (hall _ (List.mem_cons_self ..)) (by decide)
        rw [nAton, if_neg hc, hunsigned]
  rw [nameNval, if_pos h, haton, trunc_natCast]

theorem nameNval_other {name : List Byte} (h : allDigits name ≠ true) : nameNval name = -1 := if_neg h

theorem neg_one_le_nameNval (name : List Byte) : -1 ≤ nameNval name := by
  by_cases h : allDigits name = true
  · rw [nameNval_numeral h]
    omega
  · rw [nameNval_other h]

/-- A name has a number when it is a numeral. -/
theorem nameNval_gt_iff {name : List Byte} : -1 < nameNval name ↔ allDigits name = true := by
  constructor
  · intro h
    by_contra hother
    rw [nameNval_other hother] at h
    omega
  · intro h
    rw [nameNval_numeral h]
    omega

/-- The digits of a numeral, the last one first. -/
def digitList (name : List Byte) : List Nat := name.reverse.map fun c => (c - ch '0').toNat

theorem decimal_eq_ofDigits (name : List Byte) : decimal name = Nat.ofDigits 10 (digitList name) := by
  rw [digitList, Nat.ofDigits_eq_foldr, List.foldr_map, List.foldr_reverse, decimal]
  simp only [Nat.cast_id, Nat.add_comm]

theorem digitList_injective {p q : List Byte} (h : digitList p = digitList q) : p = q := by
  have hinj : Function.Injective fun c : Byte => (c - ch '0').toNat := by
    intro c d hcd
    have hsub : c - ch '0' + ch '0' = d - ch '0' + ch '0' := by rw [UInt8.toNat_inj.mp hcd]
    rwa [UInt8.sub_add_cancel, UInt8.sub_add_cancel] at hsub
  exact List.reverse_injective (hinj.list_map h)

theorem digit_lt {c : Byte} (h : ncIsdigit c = true) : (c - ch '0').toNat < 10 := by
  simp only [ncIsdigit, Bool.and_eq_true, decide_eq_true_eq, UInt8.le_iff_toNat_le] at h
  rw [UInt8.toNat_sub]
  have h0 : (ch '0').toNat = 48 := by decide
  have h9 : (ch '9').toNat = 57 := by decide
  omega

/-- The digits of a canonical numeral are those of its number. -/
theorem digits_decimal {name : List Byte} (hall : allDigits name = true)
    (hhead : name.head? ≠ some (ch '0')) : Nat.digits 10 (decimal name) = digitList name := by
  have hdigits : ∀ c ∈ name, ncIsdigit c = true := by
    simp only [allDigits, Bool.and_eq_true, List.all_eq_true] at hall
    exact hall.2
  rw [decimal_eq_ofDigits]
  refine Nat.digits_ofDigits 10 (by omega) _ ?_ ?_
  · intro l hl
    obtain ⟨c, hc, rfl⟩ := List.mem_map.mp hl
    exact digit_lt (hdigits c (List.mem_reverse.mp hc))
  · intro hne
    cases name with
    | nil => exact absurd rfl hne
    | cons c name =>
        have hc : c ≠ ch '0' := fun heq => hhead (by rw [heq]; rfl)
        simp only [digitList, List.reverse_cons, List.map_append, List.map_cons, List.map_nil,
          List.getLast_append_singleton]
        intro hzero
        have hsub : c - ch '0' = 0 := UInt8.toNat_inj.mp hzero
        exact hc (by rw [← UInt8.sub_add_cancel c (ch '0'), hsub, UInt8.zero_add])

/-- A canonical numeral of zero. -/
theorem eq_zero_of_decimal {name : List Byte} (hall : allDigits name = true) (hcan : Canonical name)
    (h : decimal name = 0) : name = [ch '0'] := by
  rcases hcan with rfl | hhead
  · rfl
  · have hnil := digits_decimal hall hhead
    rw [h, Nat.digits_zero] at hnil
    obtain rfl : name = [] := digitList_injective (by rw [← hnil]; rfl)
    cases hall

/-- Canonical numerals of one number are one name. -/
theorem decimal_injective {p q : List Byte} (hp : allDigits p = true) (hq : allDigits q = true)
    (hcp : Canonical p) (hcq : Canonical q) (h : decimal p = decimal q) : p = q := by
  rcases hcp with rfl | hhead
  · exact (eq_zero_of_decimal hq hcq (by rw [← h]; decide)).symm
  · rcases hcq with rfl | hhead'
    · exact eq_zero_of_decimal hp (.inr hhead) (by rw [h]; decide)
    · refine digitList_injective ?_
      rw [← digits_decimal hp hhead, ← digits_decimal hq hhead', h]

/-! ### The order of names -/

theorem nameCmp_swap (p q : List Byte) : nameCmp q p = -nameCmp p q := by
  induction p generalizing q with
  | nil => cases q <;> simp [nameCmp]
  | cons a p ih =>
      cases q with
      | nil => simp [nameCmp]
      | cons b q =>
          rw [nameCmp, nameCmp]
          split
          · rename_i hab
            rw [if_pos hab.symm]
            exact ih q
          · rename_i hab
            rw [if_neg (Ne.symm hab)]
            omega

/-- Names without NUL compare as equal only when they are. -/
theorem eq_of_nameCmp {p q : List Byte} (hp : 0 ∉ p) (hq : 0 ∉ q) (h : nameCmp p q = 0) : p = q := by
  induction p generalizing q with
  | nil =>
      cases q with
      | nil => rfl
      | cons b q =>
          have hb : b = 0 := UInt8.toNat_inj.mp (by simpa [nameCmp] using h)
          exact absurd (hb ▸ List.mem_cons_self ..) hq
  | cons a p ih =>
      cases q with
      | nil =>
          have ha : a = 0 := UInt8.toNat_inj.mp (by simpa [nameCmp] using h)
          exact absurd (ha ▸ List.mem_cons_self ..) hp
      | cons b q =>
          rw [nameCmp] at h
          split at h
          · rename_i hab
            rw [hab, ih (fun hm => hp (List.mem_cons_of_mem _ hm)) (fun hm => hq (List.mem_cons_of_mem _ hm)) h]
          · rename_i hab
            exact absurd (UInt8.toNat_inj.mp (by omega)) hab

theorem nameCmp_trans {p q r : List Byte} (h₁ : nameCmp p q < 0) (h₂ : nameCmp q r < 0) :
    nameCmp p r < 0 := by
  induction p generalizing q r with
  | nil =>
      cases q with
      | nil => cases h₁
      | cons b q =>
          cases r with
          | nil =>
              rw [nameCmp] at h₂
              omega
          | cons c r =>
              rw [nameCmp] at h₁
              rw [nameCmp] at h₂
              rw [nameCmp]
              split at h₂
              · rename_i hbc
                rwa [← hbc]
              · omega
  | cons a p ih =>
      cases q with
      | nil =>
          rw [nameCmp] at h₁
          omega
      | cons b q =>
          cases r with
          | nil =>
              rw [nameCmp] at h₂
              omega
          | cons c r =>
              rw [nameCmp] at h₁ h₂ ⊢
              by_cases hab : a = b
              · rw [if_pos hab] at h₁
                subst hab
                by_cases hac : a = c
                · rw [if_pos hac] at h₂ ⊢
                  exact ih h₁ h₂
                · rw [if_neg hac] at h₂ ⊢
                  exact h₂
              · rw [if_neg hab] at h₁
                by_cases hbc : b = c
                · subst hbc
                  rw [if_neg hab]
                  exact h₁
                · rw [if_neg hbc] at h₂
                  rw [if_neg (by rintro rfl; omega)]
                  omega

/-- The order of a table: other names before the numerals, numerals by number and other names by
bytes. -/
def Below (p q : List Byte) : Prop :=
  nameNval p < nameNval q ∨ nameNval p = -1 ∧ nameNval q = -1 ∧ nameCmp p q < 0

theorem Below.trans {p q r : List Byte} (h₁ : Below p q) (h₂ : Below q r) : Below p r := by
  rcases h₁ with h₁ | ⟨hp, hq, h₁⟩
  · rcases h₂ with h₂ | ⟨hq, hr, h₂⟩
    · exact .inl (h₁.trans h₂)
    · have := neg_one_le_nameNval p
      omega
  · rcases h₂ with h₂ | ⟨-, hr, h₂⟩
    · exact .inl (by omega)
    · exact .inr ⟨hp, hr, nameCmp_trans h₁ h₂⟩

theorem Below.ne {p q : List Byte} (h : Below p q) : p ≠ q := by
  rintro rfl
  rcases h with h | ⟨-, -, h⟩
  · omega
  · have := nameCmp_swap p p
    omega

/-- Every other name among the two is below the numeral by bytes, too. -/
def Agree (p q : List Byte) : Prop := allDigits p ≠ true → allDigits q = true → nameCmp p q < 0

section Entries

variable {oname : List Byte} {e : Entry}

/-- An entry that compares as equal has the name. -/
theorem name_of_entryCmp (hk : ValidName oname) (he : ValidName e.name) (h : entryCmp oname e = 0) :
    e.name = oname := by
  rw [entryCmp] at h
  split at h
  · rename_i hnum
    have hk' := nameNval_gt_iff.mp hnum
    have he' : allDigits e.name = true := nameNval_gt_iff.mp (by omega)
    rw [nameNval_numeral hk', nameNval_numeral he'] at h
    exact decimal_injective he' hk' (he.numeral he').1 (hk.numeral hk').1 (by omega)
  · exact eq_of_nameCmp he.nulFree hk.nulFree h

/-- An entry that compares as lower is below the name. -/
theorem below_of_entryCmp_neg (h : entryCmp oname e < 0) (hagree : Agree oname e.name) :
    Below e.name oname := by
  rw [entryCmp] at h
  split at h
  · exact .inl (by omega)
  · rename_i hother
    have hk : allDigits oname ≠ true := fun hk => hother (nameNval_gt_iff.mpr hk)
    have he : allDigits e.name ≠ true := by
      intro he
      have := hagree hk he
      rw [nameCmp_swap] at this
      omega
    exact .inr ⟨nameNval_other he, nameNval_other hk, h⟩

/-- An entry that compares as higher is above the name. -/
theorem below_of_entryCmp_pos (h : 0 < entryCmp oname e) : Below oname e.name := by
  rw [entryCmp] at h
  split at h
  · exact .inl (by omega)
  · rename_i hother
    have hk : allDigits oname ≠ true := fun hk => hother (nameNval_gt_iff.mpr hk)
    by_cases he : allDigits e.name = true
    · exact .inl (by rw [nameNval_other hk]; exact nameNval_gt_iff.mpr he)
    · refine .inr ⟨nameNval_other hk, nameNval_other he, ?_⟩
      rw [nameCmp_swap]
      omega

/-- The entries of a table stand in order. -/
def Ordered (es : List Entry) : Prop := es.Pairwise fun a b => Below a.name b.name

/-- A new entry between the entries below it and those above. -/
theorem Ordered.insert {A B : List Entry} (h : Ordered (A ++ B)) (hA : ∀ a ∈ A, Below a.name e.name)
    (hB : ∀ b ∈ B, Below e.name b.name) : Ordered (A ++ e :: B) := by
  obtain ⟨hAA, hBB, hAB⟩ := List.pairwise_append.mp h
  refine List.pairwise_append.mpr ⟨hAA, List.pairwise_cons.mpr ⟨hB, hBB⟩, ?_⟩
  intro a ha b hb
  rcases List.mem_cons.mp hb with rfl | hb
  · exact hA a ha
  · exact hAB a ha b hb

/-- The order is one of the names. -/
theorem Ordered.write {A B : List Entry} (h : Ordered (A ++ e :: B)) (c : Content) :
    Ordered (A ++ { e with content := c } :: B) := by
  rw [Ordered, List.pairwise_append, List.pairwise_cons] at h ⊢
  simpa using h

/-- A place that the search finds in a table in order separates its entries. -/
theorem Ordered.between {A B : List Entry} (h : Ordered (A ++ B)) (hb : Between oname A B)
    (hagree : ∀ e ∈ A, Agree oname e.name) :
    (∀ a ∈ A, Below a.name oname) ∧ ∀ b ∈ B, Below oname b.name := by
  obtain ⟨hA, hB, -⟩ := List.pairwise_append.mp h
  constructor
  · intro a ha
    obtain ⟨A', l, rfl⟩ : ∃ A' l, A = A' ++ [l] :=
      ⟨A.dropLast, A.getLast (List.ne_nil_of_mem ha), (List.dropLast_append_getLast _).symm⟩
    have hl : Below l.name oname :=
      below_of_entryCmp_neg (hb.1 l (by simp)) (hagree l (by simp))
    rcases List.mem_append.mp ha with ha | ha
    · exact ((List.pairwise_append.mp hA).2.2 a ha l (by simp)).trans hl
    · rwa [List.mem_singleton.mp ha]
  · intro b hmem
    cases B with
    | nil => cases hmem
    | cons c B =>
        have hc : Below oname c.name := below_of_entryCmp_pos (hb.2 c rfl)
        rcases List.mem_cons.mp hmem with rfl | hmem
        · exact hc
        · exact hc.trans ((List.pairwise_cons.mp hB).1 b hmem)

end Entries

/-! ### Runs -/

/-- A call on a table. -/
inductive TableCall where
  | set (oname : List Byte) (v : Setting)
  | get (oname : List Byte)

/-- The name of a call. -/
def TableCall.name : TableCall → List Byte
  | .set oname _ => oname
  | .get oname => oname

/-- A call as `nsp_setobj` or `nsp_getobj` makes it. -/
def TableCall.run (t : ObjId) : TableCall → H ObjId
  | .set oname v => nspSetobj t (some oname) v
  | .get oname => nspGetobj (some t) oname

/-- Calls in their order. -/
def runCalls (t : ObjId) : List TableCall → H Unit
  | [] => pure ()
  | c :: cs => do
      let _ ← c.run t
      runCalls t cs

/-- What a call does to a map. -/
def TableCall.apply (m : List Byte → Option Setting) : TableCall → List Byte → Option Setting
  | .set oname v => Function.update m oname (some v)
  | .get _ => m

/-- The map that the calls make: each name with what was set for it last. -/
def mapOf (cs : List TableCall) : List Byte → Option Setting := cs.foldl TableCall.apply fun _ => none

/-- What a name has was set for it. -/
theorem mem_of_mapOf {cs : List TableCall} {k : List Byte} {v : Setting} (h : mapOf cs k = some v) :
    TableCall.set k v ∈ cs := by
  have hfold : ∀ (cs : List TableCall) (m : List Byte → Option Setting), cs.foldl TableCall.apply m k = some v →
      TableCall.set k v ∈ cs ∨ m k = some v := by
    intro cs
    induction cs with
    | nil => exact fun m h => .inr h
    | cons c cs ih =>
        intro m h
        rcases ih _ h with hmem | h
        · exact .inl (List.mem_cons_of_mem c hmem)
        · cases c with
          | get oname => exact .inr h
          | set oname w =>
              by_cases hk : k = oname
              · subst hk
                rw [TableCall.apply, Function.update_self, Option.some.injEq] at h
                exact .inl (h ▸ List.mem_cons_self)
              · rw [TableCall.apply, Function.update_of_ne hk] at h
                exact .inr h
  exact (hfold cs _ h).resolve_right fun h => nomatch h

/-- A name that was set has a value. -/
theorem exists_mapOf {cs : List TableCall} {k : List Byte} {v : Setting} (h : TableCall.set k v ∈ cs) :
    ∃ w, mapOf cs k = some w := by
  have hfold : ∀ (cs : List TableCall) (m : List Byte → Option Setting),
      TableCall.set k v ∈ cs ∨ (∃ w, m k = some w) → ∃ w, cs.foldl TableCall.apply m k = some w := by
    intro cs
    induction cs with
    | nil => exact fun m h => h.resolve_left List.not_mem_nil
    | cons c cs ih =>
        intro m h
        refine ih _ ?_
        rcases h with hmem | ⟨w, hw⟩
        · rcases List.mem_cons.mp hmem with rfl | hmem
          · exact .inr ⟨v, Function.update_self ..⟩
          · exact .inl hmem
        · cases c with
          | get oname => exact .inr ⟨w, hw⟩
          | set oname u =>
              by_cases hk : k = oname
              · exact .inr ⟨u, hk ▸ Function.update_self ..⟩
              · exact .inr ⟨w, (Function.update_of_ne hk ..).trans hw⟩
  exact hfold cs _ (.inl h)

/-- The order of the calls is of no matter if they never set a name twice in different ways. -/
theorem mapOf_congr {cs ds : List TableCall} (h : ∀ k v, TableCall.set k v ∈ cs ↔ TableCall.set k v ∈ ds)
    (hone : ∀ k v w, TableCall.set k v ∈ ds → TableCall.set k w ∈ ds → v = w) : mapOf cs = mapOf ds := by
  funext k
  refine Option.ext fun v => ⟨fun hv => ?_, fun hv => ?_⟩
  · have hmem := (h k v).mp (mem_of_mapOf hv)
    obtain ⟨w, hw⟩ := exists_mapOf hmem
    rw [hw, hone k w v (mem_of_mapOf hw) hmem]
  · have hmem := mem_of_mapOf hv
    obtain ⟨w, hw⟩ := exists_mapOf ((h k v).mpr hmem)
    rw [hw, hone k w v ((h k w).mp (mem_of_mapOf hw)) hmem]

/-- A call with a name as the table takes it, and a value that is freed without other code. -/
def TableCall.Valid : TableCall → Prop
  | .set oname v => ValidName oname ∧ v.Inert
  | .get oname => ValidName oname

/-- Of the names that the calls set, every other name is below every numeral by bytes. -/
def NamesAgree (cs : List TableCall) : Prop :=
  ∀ p v q w, TableCall.set p v ∈ cs → TableCall.set q w ∈ cs → Agree p q

/-- The entries of a table hold the map `m`; `S` are the names that may be set. -/
structure Holds (S : List Byte → Prop) (m : List Byte → Option Setting) (es : List Entry) : Prop where
  ordered : Ordered es
  names : ∀ e ∈ es, ValidName e.name ∧ S e.name
  entry : ∀ e ∈ es, ∃ v, m e.name = some v ∧ v.Inert ∧ e.content = v.content
  covers : ∀ k v, m k = some v → ∃ e ∈ es, e.name = k

section Holds

variable {S : List Byte → Prop} {m : List Byte → Option Setting} {es es' : List Entry}
  {oname : List Byte} {v : Setting}

theorem ValidName.clip (h : ValidName oname) : clip oname = oname :=
  List.take_of_length_le h.short

/-- A name that is set again: the entry keeps its place. -/
theorem Holds.set_old {A B : List Entry} {b : Entry} (h : Holds S m (A ++ b :: B)) (hb : b.name = oname)
    (hv : v.Inert) :
    Holds S (Function.update m oname (some v)) (A ++ { b with content := v.content } :: B) := by
  have hordered := h.ordered
  -- the other entries have other names
  have hother : ∀ e ∈ A ++ B, e.name ≠ oname := by
    obtain ⟨-, hB, hAB⟩ := List.pairwise_append.mp hordered
    intro e he
    rw [← hb]
    rcases List.mem_append.mp he with he | he
    · exact (hAB e he b (List.mem_cons_self ..)).ne
    · exact ((List.pairwise_cons.mp hB).1 e he).ne.symm
  refine ⟨?_, ?_, ?_, ?_⟩
  · exact hordered.write v.content
  · intro e he
    rcases mem_middle.mp he with rfl | he
    · exact h.names b (by simp)
    · exact h.names e (mem_middle.mpr (.inr he))
  · intro e he
    rcases mem_middle.mp he with rfl | he
    · exact ⟨v, by rw [hb, Function.update_self], hv, rfl⟩
    · rw [Function.update_of_ne (hother e he)]
      exact h.entry e (mem_middle.mpr (.inr he))
  · intro k w hk
    by_cases heq : k = oname
    · exact ⟨{ b with content := v.content }, by simp, hb.trans heq.symm⟩
    · rw [Function.update_of_ne heq] at hk
      obtain ⟨e, he, rfl⟩ := h.covers k w hk
      rcases mem_middle.mp he with rfl | he
      · exact absurd hb heq
      · exact ⟨e, mem_middle.mpr (.inr he), rfl⟩

/-- A name that is new: the entry stands where the search found its place. -/
theorem Holds.set_new {A B : List Entry} {e : Entry} (h : Holds S m (A ++ B)) (hk : ValidName oname)
    (hS : S oname) (hagree : ∀ p q, S p → S q → Agree p q) (hplace : Between oname A B)
    (hname : e.name = oname) (hcontent : e.content = v.content) (hv : v.Inert) :
    Holds S (Function.update m oname (some v)) (A ++ e :: B) := by
  subst hname
  obtain ⟨hA, hB⟩ := h.ordered.between hplace
    fun a ha => hagree _ _ hS (h.names a (List.mem_append_left _ ha)).2
  have hother : ∀ e' ∈ A ++ B, e'.name ≠ e.name := by
    intro e' he'
    rcases List.mem_append.mp he' with he' | he'
    · exact (hA e' he').ne
    · exact (hB e' he').ne.symm
  refine ⟨?_, ?_, ?_, ?_⟩
  · exact h.ordered.insert hA hB
  · intro e' he'
    rcases mem_middle.mp he' with rfl | he'
    · exact ⟨hk, hS⟩
    · exact h.names e' he'
  · intro e' he'
    rcases mem_middle.mp he' with rfl | he'
    · exact ⟨v, Function.update_self .., hv, hcontent⟩
    · rw [Function.update_of_ne (hother e' he')]
      exact h.entry e' he'
  · intro k w hkw
    by_cases heq : k = e.name
    · exact ⟨e, by simp, heq.symm⟩
    · rw [Function.update_of_ne heq] at hkw
      obtain ⟨e', he', rfl⟩ := h.covers k w hkw
      exact ⟨e', mem_middle.mpr (.inr he'), rfl⟩

/-- A name whose place is free was not set. -/
theorem Holds.unset {A B : List Entry} (h : Holds S m (A ++ B)) (hagree : ∀ p q, S p → S q → Agree p q)
    (hplace : Between oname A B) : m oname = none := by
  cases hm : m oname with
  | none => rfl
  | some v =>
      obtain ⟨e, he, rfl⟩ := h.covers _ v hm
      obtain ⟨hA, hB⟩ := h.ordered.between hplace
        fun a ha => hagree _ _ (h.names e he).2 (h.names a (List.mem_append_left _ ha)).2
      rcases List.mem_append.mp he with he | he
      · exact absurd rfl (hA e he).ne
      · exact absurd rfl (hB e he).ne

end Holds

section Runs

variable {s : Store} {t : ObjId} {vt : ValId} {S : List Byte → Prop} {m : List Byte → Option Setting}
  {es : List Entry}

/-- `nsp_setobj` changes the map at the name. -/
theorem set_holds (h : TableRep s t vt es) (hm : Holds S m es) (ht : t ≠ retObj) {oname : List Byte}
    (hk : ValidName oname) (hS : S oname) (hagree : ∀ p q, S p → S q → Agree p q) {v : Setting}
    (hv : v.Inert) : ∃ o s' es', (nspSetobj t (some oname) v).run s = .ok o s' ∧ TableRep s' t vt es' ∧
      Holds S (Function.update m oname (some v)) es' := by
  have hbare : ∀ e ∈ es, e.content.Bare := by
    intro e he
    obtain ⟨w, -, -, hw⟩ := hm.entry e he
    exact hw ▸ w.bare_content
  rcases nspSetobj_run h ht hk.nonempty hk.clip hbare v with
    ⟨o, s', es', hrun, h', hto⟩ | ⟨b, hb, -, f, s', hreap, -⟩
  · refine ⟨o, s', es', hrun, h', ?_⟩
    cases hto with
    | @old A b B hzero =>
        obtain ⟨w, -, -, hw⟩ := hm.entry b (by simp)
        rw [hw, w.kept_content, v.over_zero]
        exact hm.set_old (name_of_entryCmp hk (hm.names _ (by simp)).1 hzero) hv
    | new hplace hname hcontent => exact hm.set_new hk hS hagree hplace hname hcontent hv
  · -- no value has a reaper
    obtain ⟨w, -, hinert, hw⟩ := hm.entry b hb
    rw [hw, hinert.reap] at hreap
    cases hreap

/-- `nsp_getobj` reads the map. -/
theorem get_holds (h : TableRep s t vt es) (hm : Holds S m es) (ht : t ≠ retObj) {oname : List Byte}
    (hk : ValidName oname) (hagree : ∀ p q, S p → S q → Agree p q) :
    ∃ o s', (nspGetobj (some t) oname).run s = .ok o s' ∧ TableRep s' t vt es ∧
      match m oname with
      | some v => ∃ w y, s'.look o = .ok (w, y) ∧ y.content = v.content
      | none => o = nullObj := by
  obtain ⟨o, s', hrun, h', -, hfound⟩ := nspGetobj_run h ht oname
  refine ⟨o, s', hrun, h', ?_⟩
  rcases hfound with ⟨e, he, hzero, rfl⟩ | ⟨rfl, A, B, rfl, hplace⟩
  · obtain rfl := name_of_entryCmp hk (hm.names e he).1 hzero
    obtain ⟨v, hv, -, hcontent⟩ := hm.entry e he
    obtain ⟨y, hlook, -, hy⟩ := h'.look_entry he
    rw [hv]
    exact ⟨e.val, y, hlook, hy.trans hcontent⟩
  · rw [hm.unset hagree hplace]

/-- Calls keep the table and its map together. -/
theorem runCalls_holds (ht : t ≠ retObj) (hagree : ∀ p q, S p → S q → Agree p q) (cs : List TableCall) :
    ∀ {s : Store} {m : List Byte → Option Setting} {es : List Entry}, TableRep s t vt es → Holds S m es →
      (∀ c ∈ cs, c.Valid) → (∀ k v, TableCall.set k v ∈ cs → S k) →
      ∃ s' es', (runCalls t cs).run s = .ok () s' ∧ TableRep s' t vt es' ∧
        Holds S (cs.foldl TableCall.apply m) es' := by
  induction cs with
  | nil =>
      intro s m es h hm _ _
      exact ⟨s, es, rfl, h, hm⟩
  | cons c cs ih =>
      intro s m es h hm hvalid hset
      have hvalid' : ∀ c ∈ cs, c.Valid := fun c hc => hvalid c (List.mem_cons_of_mem _ hc)
      have hset' : ∀ k v, TableCall.set k v ∈ cs → S k := fun k v hc => hset k v (List.mem_cons_of_mem _ hc)
      have hc := hvalid c (List.mem_cons_self ..)
      cases c with
      | set oname v =>
          obtain ⟨o, s₁, es₁, hrun, h₁, hm₁⟩ := set_holds h hm ht hc.1
            (hset oname v (List.mem_cons_self ..)) hagree hc.2
          obtain ⟨s', es', hrun', h', hm'⟩ := ih h₁ hm₁ hvalid' hset'
          refine ⟨s', es', ?_, h', hm'⟩
          rw [runCalls, TableCall.run, Action.run_bind_ok hrun, hrun']
      | get oname =>
          obtain ⟨o, s₁, hrun, h₁, -⟩ := get_holds h hm ht hc hagree
          obtain ⟨s', es', hrun', h', hm'⟩ := ih h₁ hm hvalid' hset'
          refine ⟨s', es', ?_, h', hm'⟩
          rw [runCalls, TableCall.run, Action.run_bind_ok hrun, hrun']

end Runs

/-- After the calls, `nsp_getobj` of a name returns what was set for it last, or the null object. -/
def ReadsLast (s : Store) (t : ObjId) (cs : List TableCall) (oname : List Byte) : Prop :=
  ∃ s', (runCalls t cs).run s = .ok () s' ∧
    ∃ o s'', (nspGetobj (some t) oname).run s' = .ok o s'' ∧
      match mapOf cs oname with
      | some v => ∃ w y, s''.look o = .ok (w, y) ∧ y.content = v.content
      | none => o = nullObj

/-- A sorted table is a finite map when the names that are set agree. -/
theorem readsLast_of_agree {s : Store} {t : ObjId} {vt : ValId} (h : TableRep s t vt []) (ht : t ≠ retObj)
    {cs : List TableCall} (hvalid : ∀ c ∈ cs, c.Valid) (hagree : NamesAgree cs) {oname : List Byte}
    (hk : ValidName oname) : ReadsLast s t cs oname := by
  let S : List Byte → Prop := fun k => ∃ v, TableCall.set k v ∈ cs
  have hS : ∀ p q, S p → S q → Agree p q := by
    rintro p q ⟨v, hp⟩ ⟨w, hq⟩
    exact hagree p v q w hp hq
  have hempty : Holds S (fun _ => none) [] := ⟨.nil, by simp, by simp, by simp⟩
  obtain ⟨s', es', hrun, h', hm⟩ := runCalls_holds ht hS cs h hempty hvalid fun k v hc => ⟨v, hc⟩
  obtain ⟨o, s'', hrun', -, hread⟩ := get_holds h' hm ht hk hS
  exact ⟨s', hrun, o, s'', hrun', hread⟩

/-- A memory with the null object, `N->g`, `N->r` and an empty sorted table. -/
def oneTable : Store where
  objs := (((Cells.empty.alloc { val := some 0 }).alloc { val := some 1 }).alloc { val := some 2 }).alloc
    { val := some 3 }
  vals := (((Cells.empty.alloc { type := .null }).alloc { type := .table }).alloc { type := .null }).alloc
    { type := .table, autosort := true }
  locals := globalObj

theorem oneTable_rep : TableRep oneTable 3 3 [] :=
  ⟨rfl, ⟨_, rfl, rfl, rfl, rfl, none, rfl, by simp⟩, by simp, by simp, .nil, .nil, by simp⟩

theorem readsLast_mixed : ReadsLast oneTable 3
    [.set (bytes "5") (.number 50), .set (bytes "-") (.number 1), .set (bytes "11") .null,
      .get (bytes "7"), .set (bytes "5") (.number 51)] (bytes "5") := by
  have hnames : ∀ k ∈ [bytes "5", bytes "-", bytes "11", bytes "7"], ValidName k := by
    intro k hk
    simp only [List.mem_cons, List.not_mem_nil, or_false] at hk
    rcases hk with rfl | rfl | rfl | rfl
    all_goals exact ⟨by decide, by decide, by decide, by intro _; exact ⟨.inr (by decide), by decide⟩⟩
  refine readsLast_of_agree oneTable_rep (by decide) ?_ ?_ (hnames _ (by decide))
  · intro c hc
    simp only [List.mem_cons, List.not_mem_nil, or_false] at hc
    rcases hc with rfl | rfl | rfl | rfl | rfl
    · exact ⟨hnames _ (by decide), by intro h; cases h⟩
    · exact ⟨hnames _ (by decide), by intro h; cases h⟩
    · exact ⟨hnames _ (by decide), by intro h; cases h⟩
    · exact hnames _ (by decide)
    · exact ⟨hnames _ (by decide), by intro h; cases h⟩
  · intro p v q w hp hq
    simp only [List.mem_cons, List.not_mem_nil, or_false, TableCall.set.injEq, reduceCtorEq, false_or] at hp hq
    rcases hp with ⟨rfl, -⟩ | ⟨rfl, -⟩ | ⟨rfl, -⟩ | ⟨rfl, -⟩ <;>
      rcases hq with ⟨rfl, -⟩ | ⟨rfl, -⟩ | ⟨rfl, -⟩ | ⟨rfl, -⟩ <;> (unfold Agree; decide)

/-- The type of what `nsp_getobj` returns after the calls. -/
def typeAfter (s : Store) (t : ObjId) (cs : List TableCall) (oname : List Byte) : Option Ty :=
  match (runCalls t cs).run s with
  | .error _ _ => none
  | .ok _ s' =>
      match (nspGetobj (some t) oname).run s' with
      | .error _ _ => none
      | .ok o s'' =>
          match s''.look o with
          | .error _ => none
          | .ok (_, y) => some y.type

theorem ReadsLast.type {s : Store} {t : ObjId} {cs : List TableCall} {oname : List Byte} {v : Setting}
    (h : ReadsLast s t cs oname) (hv : mapOf cs oname = some v) : typeAfter s t cs oname = some v.type := by
  obtain ⟨s', hrun, o, s'', hrun', hread⟩ := h
  rw [hv] at hread
  obtain ⟨w, y, hlook, hy⟩ := hread
  simp only [typeAfter, hrun, hrun', hlook]
  exact congrArg (some ∘ Content.type) hy

/-- The search for a numeral leaves the cursor behind another name, and the search for that name
goes forward from there. -/
theorem not_readsLast_numeral : ¬ ReadsLast oneTable 3
    [.set (bytes "a") (.number 1), .set (bytes "5") (.number 2), .get (bytes "7")] (bytes "a") := by
  intro h
  exact absurd (h.type rfl) (by decide +kernel)

end NullG.Nsp
