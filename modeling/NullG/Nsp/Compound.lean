/-
Compound assignments (`n_storeval` of `parser.c`) and their expansions: when `x op= e` does what `x = x op e` does.

`stored` is what `n_storeval` leaves of two values and `Scalar.evalop` what `n_evalop` does; `agrees_iff` compares the
two. `store_compound` and `store_expansion` are the runs, and `compound_expands_iff` the main result: `n_ntoa` to base
-10 and to base 10 write different texts of a negative number, `*=` reads its count from the union of any value, `/=`
has no check for zero, and an expression converts a string behind a number.
-/

import NullG.Nsp.Arithmetic
import NullG.Nsp.NullSafe
import Mathlib.Algebra.Order.Ring.Rat

namespace NullG.Nsp.Compound

open NullG.Lib NullG.Nsp.Arithmetic

/-! ### Two functions for one operator -/

/-- How a compound assignment ends: with a value, with an error, with an infinity, or with what the union of a value of
another type reads as. -/
inductive Stores where
  | value (x : Scalar)
  | refused
  | infinite
  | stray

/-- What `+=` appends to a string. -/
def appended : Scalar → List Byte
  | .string b => b
  | e => e.tostr

/-- `n_storeval` of a compound assignment. -/
def stored (a : Arith) : Scalar → Scalar → Stores
  | .string str, e =>
      match a, e with
      | .add, e => .value (.string (str ++ appended e))
      | .mul, .number q => .value (.string (strmul str (if q < 0 then 0 else (Num.toInt q).toNat)))
      | .mul, .boolean _ => .value (.string str)
      | .mul, _ => .stray
      | _, _ => .refused
  | .number p, .number q => if a = .div ∧ q = 0 then .infinite else .value (.number (a.on p q))
  | _, _ => .refused

/-- Both end with the same value, or both with an error. -/
def Stores.Agrees : Stores → Outcome → Prop
  | .value x, .value y => x = y
  | .refused, .refused => True
  | _, _ => False

/-- The values with which a compound assignment is its expansion: no negative number goes to a string by `+`, only a
number by `*`, and nothing but a number or a string by `+`; a number takes no string, and is not divided by zero. -/
def Same (a : Arith) : Scalar → Scalar → Prop
  | .string _, .number q => a = .add → 0 ≤ q
  | .string _, .string _ => a ≠ .mul
  | .string _, _ => a = .sub ∨ a = .div
  | .number _, .string _ => False
  | .number _, .number q => a = .div → q ≠ 0
  | _, _ => True

/-! ### Numbers as texts -/

/-- What stands before the dot stays. -/
theorem prefix_trimZeros (p q : List Byte) : p <+: trimZeros (p ++ ch '.' :: q) := by
  obtain ⟨r, hr⟩ : ∃ r, (p ++ ch '.' :: q).reverse.dropWhile (· == ch '0') = r ++ ch '.' :: p.reverse := by
    have hdot : (ch '.' :: p.reverse).dropWhile (· == ch '0') = ch '.' :: p.reverse := by
      rw [List.dropWhile_cons_of_neg (by decide)]
    rw [List.reverse_append, List.reverse_cons, List.append_assoc, List.singleton_append, List.dropWhile_append, hdot]
    split
    · exact ⟨[], rfl⟩
    · exact ⟨_, rfl⟩
  rw [trimZeros, hr]
  cases r with
  | nil =>
      simp
  | cons c r =>
      simp only [List.cons_append]
      split
      · simp
      · simp

theorem trunc_nonpos {q : Num} (h : q < 0) : Num.trunc q ≤ 0 := by
  have hnum : q.num < 0 := Rat.num_neg.mpr h
  have hneg : 0 ≤ (-q.num).tdiv q.den := Int.tdiv_nonneg (by omega) (Int.natCast_nonneg _)
  rw [Int.neg_tdiv] at hneg
  exact neg_nonneg.mp hneg

/-- The text of a negative number starts with a sign to base -10, and with no sign to base 10. -/
theorem nNtoa_neg {q : Num} (h : q < 0) :
    (nNtoa q true 6).head? = some (ch '-') ∧ (nNtoa q false 6).head? ≠ some (ch '-') := by
  have htrunc := trunc_nonpos h
  have hhead : ∀ (c : Byte) (p q : List Byte), (trimZeros (c :: p ++ ch '.' :: q)).head? = some c := by
    intro c p q
    obtain ⟨r, hr⟩ := prefix_trimZeros (c :: p) q
    rw [← hr]
    rfl
  constructor
  · have hn : ¬ (-Num.trunc q).tmod 10 < 0 := not_lt.mpr (Int.tmod_nonneg 10 (by omega))
    have hneg : ¬ -Num.trunc q < 0 := by omega
    simp only [nNtoa, h, decide_true, Bool.and_true, if_true, if_neg hn, if_neg hneg, List.singleton_append]
    rw [if_neg (by decide)]
    exact hhead _ _ _
  · simp only [nNtoa, Bool.false_and, Bool.false_eq_true, if_false, List.nil_append]
    split
    · decide
    · have hzero : (if Num.trunc q < 0 then [ch '0'] else natDigits (Num.trunc q).toNat) = [ch '0'] := by
        split
        · rfl
        · rw [show (Num.trunc q).toNat = 0 by omega]
          rfl
      rw [hzero, if_neg (by decide), hhead]
      decide

/-- The two bases differ for the negative numbers. -/
theorem nNtoa_base_iff (q : Num) : nNtoa q true 6 = nNtoa q false 6 ↔ 0 ≤ q := by
  constructor
  · intro h
    by_contra hneg
    obtain ⟨hsign, hplain⟩ := nNtoa_neg (lt_of_not_ge hneg)
    exact hplain (h ▸ hsign)
  · intro h
    have hsign : (true && decide (q < 0)) = false := by simpa using h
    simp only [nNtoa, hsign, Bool.false_and]

theorem agrees_number (a : Arith) (p : Num) (e : Scalar) :
    (stored a (.number p) e).Agrees ((Scalar.number p).evalop a.op e) ↔ Same a (.number p) e := by
  cases e with
  | null =>
      rw [evalop_number_null]
      exact iff_of_true trivial trivial
  | boolean b =>
      rw [evalop_number_boolean]
      exact iff_of_true trivial trivial
  | string b =>
      rw [evalop_number_string]
      exact iff_of_false id id
  | number q =>
      rw [evalop_numbers, stored]
      by_cases hzero : a = .div ∧ q = 0
      · rw [if_pos hzero, if_pos hzero]
        exact iff_of_false id fun h => h hzero.1 hzero.2
      · rw [if_neg hzero, if_neg hzero]
        exact iff_of_true rfl fun hdiv hq => hzero ⟨hdiv, hq⟩

theorem agrees_string (a : Arith) (str : List Byte) (e : Scalar) :
    (stored a (.string str) e).Agrees ((Scalar.string str).evalop a.op e) ↔ Same a (.string str) e := by
  cases e with
  | null =>
      rw [evalop_string_null]
      cases a <;> simp [stored, Stores.Agrees, Same]
  | boolean b =>
      rw [evalop_string_boolean]
      cases a <;> simp [stored, Stores.Agrees, Same]
  | number q =>
      cases a with
      | add =>
          show Scalar.string (str ++ nNtoa q true 6) = .string (str ++ nNtoa q false 6) ↔ _
          rw [Scalar.string.injEq, List.append_cancel_left_eq, nNtoa_base_iff]
          exact ⟨fun h _ => h, fun h => h rfl⟩
      | sub => exact iff_of_true trivial nofun
      | mul => exact iff_of_true rfl nofun
      | div => exact iff_of_true trivial nofun
  | string b =>
      cases a with
      | add => exact iff_of_true rfl nofun
      | sub => exact iff_of_true trivial nofun
      | mul => exact iff_of_false id fun h => h rfl
      | div => exact iff_of_true trivial nofun

theorem agrees_iff (a : Arith) (x e : Scalar) : (stored a x e).Agrees (x.evalop a.op e) ↔ Same a x e := by
  cases x with
  | null =>
      rw [evalop_null]
      exact iff_of_true trivial trivial
  | boolean b =>
      rw [evalop_boolean]
      exact iff_of_true trivial trivial
  | number p => exact agrees_number a p e
  | string str => exact agrees_string a str e

/-! ### Assignments -/

/-- Both runs end with the same value in the object `o`, or both end with an error. -/
def SameEffect (o : ObjId) (v : ValId) (r r' : EStateM.Result Fault St Unit) : Prop :=
  (∃ x t t', r = .ok () t ∧ r' = .ok () t' ∧ Has t.store o v x ∧ Has t'.store o v x) ∨
    (∃ e t e' t', r = .error (.raised e) t ∧ r' = .error (.raised e') t')

/-- How a run of a compound assignment ends. -/
def Stores.Ends (out : Stores) (o : ObjId) (v : ValId) (r : EStateM.Result Fault St Unit) : Prop :=
  match out with
  | .value x => ∃ t, r = .ok () t ∧ Has t.store o v x
  | .refused => ∃ e t, r = .error (.raised e) t
  | .infinite => ∃ t, r = .error .arithmetic t
  | .stray => ∀ e t, r ≠ .error (.raised e) t

section

variable {s : St} {o : ObjId} {v : ValId} {x y : Scalar} {op : Byte} {p rest : List Byte} {env : Env} {n : Nat}

/-- The name denotes the object `o`, which has the value `x` at `v`; `N->r` is another object with another value. -/
structure Variable (s : Store) (name : List Byte) (o : ObjId) (v : ValId) (x : Scalar) : Prop where
  has : Has s o v x
  denotes : Denotes s name o
  text : 0 ∉ name
  short : name.length < 256
  own : o ≠ retObj
  unshared : s.ptr retObj ≠ some v

/-- The expansion of an assignment. -/
theorem store_expansion (env : Env) (n : Nat) (a : Arith) (hready : Ready s.store) {name : List Byte}
    (hvar : Variable s.store name o v x) (he : Evaluates s.store p y) (hop : opIsend op = true)
    (hread : s.readptr = opMeq :: (nameStream name ++ a.op :: (p ++ op :: rest))) :
    (∃ u t, x.evalop a.op y = .value u ∧ storeval (interp env (n + 5)) o s = .ok () t ∧ Has t.store o v u) ∨
      (x.evalop a.op y = .refused ∧ ∃ e t, storeval (interp env (n + 5)) o s = .error (.raised e) t) := by
  have hhead : storeval (interp env (n + 5)) o s = storeEval (interp env (n + 5)) o
      { s with readptr := nameStream name ++ a.op :: (p ++ op :: rest) } := by
    have hname' := nameStream_eq name (a.op :: (p ++ op :: rest))
    have hpeek : peekop { s with readptr := nameStream name ++ a.op :: (p ++ op :: rest) } = .ok opLabel
        { s with readptr := nameStream name ++ a.op :: (p ++ op :: rest) } := peekop_at hname' (by decide)
    have hskip : skip 1 s = .ok () { s with readptr := nameStream name ++ a.op :: (p ++ op :: rest) } := by
      rw [skip_run, hread]
      rfl
    unfold storeval
    rw [run_bind_of_ok (peekop_at hread (by decide)), if_neg (by decide), if_neg (by decide),
      run_bind_of_ok (heap_ok hvar.has.typeOf), if_neg fun h => absurd h.1 (by decide), if_neg (by decide), if_pos rfl,
      run_bind_of_ok hskip]
    unfold storeEq
    rw [run_bind_of_ok hpeek, if_neg (by decide), if_neg (by decide), if_neg (by decide)]
    unfold storeRest
    rw [run_bind_of_ok hpeek, if_neg (by decide)]
  rw [hhead]
  unfold storeEval
  rcases eval_arith env n a rest (s := { s with readptr := nameStream name ++ a.op :: (p ++ op :: rest) }) hready
    (evaluates_variable hvar.denotes hvar.has hvar.text hvar.short) he hop with
    ⟨u, b, t, hu, heval, hresult⟩ | ⟨hrefused, e, t, heval⟩
  · left
    obtain ⟨hx', hvb⟩ := hresult.keeps hvar.has hvar.own hvar.unshared
    have hret := hresult.has
    obtain ⟨⟨z, hlook, hz, hzis⟩, hnull⟩ := hx'
    obtain ⟨⟨z', hlook', hz', hzis'⟩, hnull'⟩ := hret
    have hplain := Val.Is.plain hzis' hz'
    have hplain₀ := Val.Is.plain hzis hz
    obtain ⟨store, hmove, hstored, -, -⟩ := nMoveval_run hlook hnull hplain₀ hlook' hvar.own hvb (sound_of_is hzis')
    refine ⟨u, { t with store := store }, hu, ?_, ⟨⟨_, hstored, ?_, fill_is hzis' rfl⟩, hnull⟩⟩
    · rw [run_bind_of_ok (show here _ = .ok (nameStream name ++ a.op :: (p ++ op :: rest)) _ from rfl),
        run_bind_of_ok heval, run_bind_of_ok (heap_ok (typeOf_run hlook')),
        if_neg fun h => h.elim hplain.table hplain.cdata]
      refine heap_ok ?_
      rw [Action.run_bind_ok (getVal_run hlook), if_neg fun h => h.2.elim hplain₀.table hplain₀.cdata]
      exact hmove
    · exact (Val.fill_ztable _ _).trans ((Val.freed_ztable z).trans hz)
  · right
    refine ⟨hrefused, e, t, ?_⟩
    rw [run_bind_of_ok (show here _ = .ok (nameStream name ++ a.op :: (p ++ op :: rest)) _ from rfl)]
    exact run_bind_of_error heval

theorem refuse_ok {c : Prop} [Decidable c] (h : ¬ c) (text : List Byte) (s : St) : refuse c text s = .ok () s := by
  unfold refuse
  rw [if_neg h]
  rfl

theorem refuse_raises {c : Prop} [Decidable c] (h : c) (text : List Byte) (s : St) :
    ∃ e t, refuse c text s = .error (.raised e) t := by
  unfold refuse
  rw [if_pos h]
  exact ⟨_, _, rfl⟩

/-- The part of `n_storeval` for strings. -/
theorem storeval_text {k : Calls} {a : Arith} {b : List Byte} (ha : a = .add ∨ a = .mul)
    (hx : Has s.store o v (.string b)) (hread : s.readptr = a.assign :: rest) :
    storeval k o s = storeText k o a.assign s := by
  have hop : a.assign = opMaddeq ∨ a.assign = opMmuleq := by
    rcases ha with rfl | rfl
    · exact .inl rfl
    · exact .inr rfl
  have hadd : a.assign ≠ opMaddadd := by cases a <;> decide
  have hsub : a.assign ≠ opMsubsub := by cases a <;> decide
  have hmark : a.assign ≠ opLinenum := by cases a <;> decide
  unfold storeval
  rw [run_bind_of_ok (peekop_at hread hmark), if_neg hadd, if_neg hsub, run_bind_of_ok (heap_ok hx.typeOf),
    if_pos ⟨hop, rfl⟩]

/-- The part of `n_storeval` for numbers, which refuses what is none. -/
theorem storeval_arith {k : Calls} {a : Arith} (ha : ¬ ((a = .add ∨ a = .mul) ∧ x.type = .string))
    (hx : Has s.store o v x) (hread : s.readptr = a.assign :: rest) : storeval k o s = storeArith k o s := by
  have hop : ¬ ((a.assign = opMaddeq ∨ a.assign = opMmuleq) ∧ x.type = .string) := by
    refine fun h => ha ⟨?_, h.2⟩
    cases a with
    | add => exact .inl rfl
    | mul => exact .inr rfl
    | sub => exact absurd h.1 (by decide)
    | div => exact absurd h.1 (by decide)
  have hadd : a.assign ≠ opMaddadd := by cases a <;> decide
  have hsub : a.assign ≠ opMsubsub := by cases a <;> decide
  have hmark : a.assign ≠ opLinenum := by cases a <;> decide
  have hassign : a.assign = opMaddeq ∨ a.assign = opMmuleq ∨ a.assign = opMsubeq ∨ a.assign = opMdiveq := by
    cases a <;> decide
  unfold storeval
  rw [run_bind_of_ok (peekop_at hread hmark), if_neg hadd, if_neg hsub, run_bind_of_ok (heap_ok hx.typeOf), if_neg hop,
    if_pos hassign]

/-- The part of `n_storeval` for numbers, with a number in the object. -/
theorem storeArith_number {q : Num} (a : Arith) (hready : Ready s.store) (hx : Has s.store o v (.number q))
    (ho : o ≠ retObj) (hv : s.store.ptr retObj ≠ some v) (he : Evaluates s.store p y) (hop : opIsend op = true)
    (hread : s.readptr = a.assign :: (p ++ op :: rest)) :
    (stored a (.number q) y).Ends o v (storeArith (interp env (n + 5)) o s) := by
  have hskip : skip 1 s = .ok () { s with readptr := p ++ op :: rest } := by
    rw [skip_run, hread]
    rfl
  obtain ⟨b, t, heval, hresult⟩ := eval_operand env n rest
    (s := { s with readptr := p ++ op :: rest }) hready he hop
  obtain ⟨hx', hvb⟩ := hresult.keeps hx ho hv
  have htype : heap (typeOf o) { s with readptr := p ++ op :: rest } =
      .ok .number { s with readptr := p ++ op :: rest } := heap_ok hx.typeOf
  have hnumber : ¬ Ty.number ≠ .number := not_not.mpr rfl
  have hplace : here { s with readptr := p ++ op :: rest } =
      .ok (p ++ op :: rest) { s with readptr := p ++ op :: rest } := rfl
  unfold storeArith
  rw [run_bind_of_ok (cur_at hread)]
  rw [run_bind_of_ok hskip, run_bind_of_ok htype, run_bind_of_ok (refuse_ok hnumber _ _), run_bind_of_ok hplace,
    run_bind_of_ok heval, run_bind_of_ok (heap_ok hresult.has.typeOf)]
  by_cases hy : y.type = .number
  · obtain ⟨r, rfl⟩ : ∃ r, y = .number r := by
      cases y with
      | number r => exact ⟨r, rfl⟩
      | null | boolean _ | string _ => cases hy
    have hend : ¬ (!opIsend op) = true := by
      rw [hop]
      exact Bool.false_ne_true
    rw [run_bind_of_ok (refuse_ok (not_not.mpr hy) _ _), run_bind_of_ok (cur_at hresult.place),
      run_bind_of_ok (refuse_ok hend _ _), run_bind_of_ok (heap_ok hx'.getNum),
      run_bind_of_ok (heap_ok hresult.has.getNum)]
    obtain ⟨⟨z, hlook, hz, hzis⟩, hnull⟩ := hx'
    have hset : ∀ w : Num, ∃ u, heap (setNum o w) t = .ok () u ∧ Has u.store o v (.number w) := fun w =>
      ⟨_, heap_ok (modVal_write hlook fun y => { y with d := .num w }),
        ⟨⟨_, look_write_self hlook _ o, hz, hzis.1, rfl⟩, hnull⟩⟩
    cases a with
    | add => exact hset _
    | sub => exact hset _
    | mul => exact hset _
    | div =>
        have hend : Stores.Ends (if Arith.div = .div ∧ r = 0 then .infinite else .value (.number (q / r))) o v
            ((if r = 0 then throw .arithmetic else heap (setNum o (q / r)) : M Unit) t) := by
          by_cases hzero : r = 0
          · rw [if_pos ⟨rfl, hzero⟩, if_pos hzero]
            exact ⟨t, rfl⟩
          · rw [if_neg fun h => hzero h.2, if_neg hzero]
            exact hset _
        exact hend
  · have hout : stored a (.number q) y = .refused := by
      cases y with
      | number r => exact absurd rfl hy
      | null | boolean _ | string _ => rfl
    rw [hout]
    obtain ⟨e, u, hrefuse⟩ := refuse_raises hy (bytes "object is not a number") t
    exact ⟨e, u, run_bind_of_error hrefuse⟩

/-- The part of `n_storeval` for numbers, with no number in the object. -/
theorem storeArith_refused {k : Calls} (a : Arith) (hx : Has s.store o v x) (hnumber : x.type ≠ .number)
    (hread : s.readptr = a.assign :: rest) : ∃ e t, storeArith k o s = .error (.raised e) t := by
  have hskip : skip 1 s = .ok () { s with readptr := rest } := by
    rw [skip_run, hread]
    rfl
  have htype : heap (typeOf o) { s with readptr := rest } = .ok x.type { s with readptr := rest } := heap_ok hx.typeOf
  obtain ⟨e, t, hrefuse⟩ := refuse_raises hnumber (bytes "object is not a number") { s with readptr := rest }
  refine ⟨e, t, ?_⟩
  unfold storeArith
  rw [run_bind_of_ok (cur_at hread)]
  rw [run_bind_of_ok hskip, run_bind_of_ok htype]
  exact run_bind_of_error hrefuse

/-- `+=` to a string. -/
theorem storeText_add {b : List Byte} (hready : Ready s.store) (hx : Has s.store o v (.string b)) (ho : o ≠ retObj)
    (hv : s.store.ptr retObj ≠ some v) (he : Evaluates s.store p y) (hop : opIsend op = true)
    (hread : s.readptr = opMaddeq :: (p ++ op :: rest)) :
    ∃ t, storeText (interp env (n + 5)) o opMaddeq s = .ok () t ∧ Has t.store o v (.string (b ++ appended y)) := by
  have hskip : skip 1 s = .ok () { s with readptr := p ++ op :: rest } := by
    rw [skip_run, hread]
    rfl
  obtain ⟨a, t, heval, hresult⟩ := eval_operand env n rest
    (s := { s with readptr := p ++ op :: rest }) hready he hop
  obtain ⟨hx', -⟩ := hresult.keeps hx ho hv
  obtain ⟨u, hrun, hhas, -⟩ := hx'.strcat (appended y)
  have hplace : here { s with readptr := p ++ op :: rest } =
      .ok (p ++ op :: rest) { s with readptr := p ++ op :: rest } := rfl
  refine ⟨{ t with store := u }, ?_, hhas⟩
  unfold storeText
  rw [run_bind_of_ok hskip, run_bind_of_ok hplace, run_bind_of_ok heval]
  refine heap_ok ?_
  rw [if_pos rfl, Action.run_bind_ok hresult.has.typeOf]
  cases y with
  | string b' =>
      obtain ⟨⟨z, hlook, -, -, hsize, str, hstr, rfl⟩, -⟩ := hresult.has
      have htext : (do
          let y ← getVal retObj
          let str ← member y.d.asStr
          nspStrcat o ((str.getD []).take y.size) : H Unit).run t.store = .ok () u := by
        rw [Action.run_bind_ok (getVal_run hlook), Action.run_bind_ok (member_of_eq hstr), hsize, List.take_length]
        exact hrun
      exact htext
  | null | boolean c | number q =>
      have htext : (nspTostr retObj >>= fun text => nspStrcat o text).run t.store = .ok () u := by
        rw [Action.run_bind_ok hresult.has.tostr]
        exact hrun
      exact htext

/-- `*=` to a string. -/
theorem storeText_mul {b : List Byte} (hready : Ready s.store) (hx : Has s.store o v (.string b)) (ho : o ≠ retObj)
    (hv : s.store.ptr retObj ≠ some v) (he : Evaluates s.store p y) (hop : opIsend op = true)
    (hread : s.readptr = opMmuleq :: (p ++ op :: rest)) :
    (stored .mul (.string b) y).Ends o v (storeText (interp env (n + 5)) o opMmuleq s) := by
  have hskip : skip 1 s = .ok () { s with readptr := p ++ op :: rest } := by
    rw [skip_run, hread]
    rfl
  obtain ⟨a, t, heval, hresult⟩ := eval_operand env n rest
    (s := { s with readptr := p ++ op :: rest }) hready he hop
  obtain ⟨hx', -⟩ := hresult.keeps hx ho hv
  have hplace : here { s with readptr := p ++ op :: rest } =
      .ok (p ++ op :: rest) { s with readptr := p ++ op :: rest } := rfl
  have hrun : storeText (interp env (n + 5)) o opMmuleq s = heap (do
      let q ← getNum retObj
      nspStrmul o (if q < 0 then 0 else (Num.toInt q).toNat)) t := by
    unfold storeText
    rw [run_bind_of_ok hskip, run_bind_of_ok hplace, run_bind_of_ok heval]
    rfl
  rw [hrun]
  -- the text that is repeated, once the count is read
  have hcount : ∀ q : Num, (getNum retObj).run t.store = .ok q t.store → ∃ u, heap (do
      let q ← getNum retObj
      nspStrmul o (if q < 0 then 0 else (Num.toInt q).toNat)) t = .ok () u ∧
        Has u.store o v (.string (strmul b (if q < 0 then 0 else (Num.toInt q).toNat))) := by
    intro q hq
    obtain ⟨u, hmul, hhas, -⟩ := hx'.strmul (if q < 0 then 0 else (Num.toInt q).toNat)
    refine ⟨{ t with store := u }, heap_ok ?_, hhas⟩
    rw [Action.run_bind_ok hq]
    exact hmul
  -- the count of a value that is no number is read from its union
  have hstray : ∀ y : Scalar, Has t.store retObj a y → ∀ e u, heap (do
      let q ← getNum retObj
      nspStrmul o (if q < 0 then 0 else (Num.toInt q).toNat)) t ≠ .error (.raised e) u := by
    intro y hy e u hrun
    obtain ⟨⟨z, hlook, -⟩, -⟩ := hy
    cases hd : z.d.asNum with
    | ok q =>
        obtain ⟨u', hok, -⟩ := hcount q (by
          unfold NullG.Nsp.getNum
          rw [Action.run_bind_ok (getVal_run hlook), hd]
          rfl)
        rw [hok] at hrun
        cases hrun
    | error f =>
        have hbad : f = .badData := by
          unfold Data.asNum at hd
          split at hd
          · cases hd
          · cases hd
            rfl
        have hread : (getNum retObj).run t.store = .error .badData t.store := by
          unfold NullG.Nsp.getNum
          rw [Action.run_bind_ok (getVal_run hlook), hd, hbad]
          rfl
        unfold heap at hrun
        rw [Action.run_bind_error hread] at hrun
        cases hrun
  cases y with
  | number q => exact hcount q hresult.has.getNum
  | boolean c =>
      have hsame : strmul b
          (if (if c then 1 else 0 : Num) < 0 then 0 else (Num.toInt (if c then 1 else 0 : Num)).toNat) = b := by
        cases c with
        | false => exact if_pos (by decide)
        | true => exact if_pos (by decide)
      obtain ⟨u, hmul, hhas⟩ := hcount _ hresult.has.getNum_boolean
      rw [hsame] at hhas
      exact ⟨u, hmul, hhas⟩
  | null => exact hstray _ hresult.has
  | string b' => exact hstray _ hresult.has

/-- A compound assignment. -/
theorem store_compound (env : Env) (n : Nat) (a : Arith) (hready : Ready s.store) (hx : Has s.store o v x)
    (ho : o ≠ retObj) (hv : s.store.ptr retObj ≠ some v) (he : Evaluates s.store p y) (hop : opIsend op = true)
    (hread : s.readptr = a.assign :: (p ++ op :: rest)) :
    (stored a x y).Ends o v (storeval (interp env (n + 5)) o s) := by
  have hrefused : ∀ {a : Arith}, ¬ ((a = .add ∨ a = .mul) ∧ x.type = .string) → x.type ≠ .number → 
      s.readptr = a.assign :: (p ++ op :: rest) → ∃ e t, storeval (interp env (n + 5)) o s = .error (.raised e) t := by
    intro a ha hnumber hread
    rw [storeval_arith ha hx hread]
    exact storeArith_refused a hx hnumber hread
  cases x with
  | null => exact hrefused (fun h => Ty.noConfusion h.2) Ty.noConfusion hread
  | boolean b => exact hrefused (fun h => Ty.noConfusion h.2) Ty.noConfusion hread
  | number q =>
      rw [storeval_arith (fun h => Ty.noConfusion h.2) hx hread]
      exact storeArith_number a hready hx ho hv he hop hread
  | string b =>
      cases a with
      | add =>
          rw [storeval_text (.inl rfl) hx hread]
          exact storeText_add hready hx ho hv he hop hread
      | mul =>
          rw [storeval_text (.inr rfl) hx hread]
          exact storeText_mul hready hx ho hv he hop hread
      | sub => exact hrefused (fun h => h.1.elim Arith.noConfusion Arith.noConfusion) Ty.noConfusion hread
      | div => exact hrefused (fun h => h.1.elim Arith.noConfusion Arith.noConfusion) Ty.noConfusion hread

/-- `x op= e` and `x = x op e` for the object `o` of `x`, before an op that ends an expression. -/
def Expands (env : Env) (n : Nat) (s : St) (o : ObjId) (v : ValId) (a : Arith) (name p : List Byte) (op : Byte)
    (rest : List Byte) : Prop :=
  SameEffect o v (storeval (interp env n) o { s with readptr := a.assign :: (p ++ op :: rest) })
    (storeval (interp env n) o { s with readptr := opMeq :: (nameStream name ++ a.op :: (p ++ op :: rest)) })

theorem sameEffect_value {r : EStateM.Result Fault St Unit} {t : St} (h : Has t.store o v x) :
    SameEffect o v r (.ok () t) ↔ ∃ u, r = .ok () u ∧ Has u.store o v x := by
  constructor
  · rintro (⟨y, u, t', hr, heq, hu, ht'⟩ | ⟨_, _, _, _, _, heq⟩)
    · cases heq
      obtain rfl := has_inj h ht'
      exact ⟨u, hr, hu⟩
    · cases heq
  · rintro ⟨u, hr, hu⟩
    exact .inl ⟨x, u, t, hr, rfl, hu, h⟩

theorem sameEffect_raised {r : EStateM.Result Fault St Unit} {e : NError} {t : St} :
    SameEffect o v r (.error (.raised e) t) ↔ ∃ e' u, r = .error (.raised e') u := by
  constructor
  · rintro (⟨_, _, _, _, heq, _⟩ | ⟨e', u, _, _, hr, _⟩)
    · cases heq
    · exact ⟨e', u, hr⟩
  · rintro ⟨e', u, hr⟩
    exact .inr ⟨e', u, e, t, hr, rfl⟩

theorem Stores.Ends.value_iff {out : Stores} {r : EStateM.Result Fault St Unit} (h : out.Ends o v r)
    (hout : out ≠ .stray) :
    (∃ u, r = .ok () u ∧ Has u.store o v x) ↔ out = .value x := by
  constructor
  · rintro ⟨u, rfl, hu⟩
    cases out with
    | value y =>
        obtain ⟨t, heq, ht⟩ := h
        cases heq
        rw [has_inj ht hu]
    | refused =>
        obtain ⟨e, t, heq⟩ := h
        cases heq
    | infinite =>
        obtain ⟨t, heq⟩ := h
        cases heq
    | stray => exact absurd rfl hout
  · rintro rfl
    exact h

theorem Stores.Ends.refused_iff {out : Stores} {r : EStateM.Result Fault St Unit} (h : out.Ends o v r) :
    (∃ e t, r = .error (.raised e) t) ↔ out = .refused := by
  constructor
  · rintro ⟨e, t, rfl⟩
    cases out with
    | value y =>
        obtain ⟨u, heq, -⟩ := h
        cases heq
    | refused => rfl
    | infinite =>
        obtain ⟨u, heq⟩ := h
        cases heq
    | stray => exact absurd rfl (h e t)
  · rintro rfl
    exact h

/-- The operator refuses what a compound assignment reads from a union. -/
theorem evalop_stray {a : Arith} (h : stored a x y = .stray) : x.evalop a.op y = .refused := by
  cases x with
  | null => cases h
  | boolean b => cases h
  | number q =>
      cases y with
      | number r =>
          have hnumber : (if a = .div ∧ r = 0 then Stores.infinite else .value (.number (a.on q r))) = .stray := h
          split_ifs at hnumber
      | null | boolean _ | string _ => cases h
  | string b =>
      cases a with
      | add | sub | div => cases h
      | mul =>
          cases y with
          | null | string _ => rfl
          | boolean _ | number _ => cases h

/-- The two statements have the same effect when the two functions agree. -/
theorem expands_agrees (a : Arith) (hready : Ready s.store) {name : List Byte} (hvar : Variable s.store name o v x)
    (he : Evaluates s.store p y) (hop : opIsend op = true) :
    Expands env (n + 5) s o v a name p op rest ↔ (stored a x y).Agrees (x.evalop a.op y) := by
  have hstored := store_compound env n a
    (s := { s with readptr := a.assign :: (p ++ op :: rest) }) hready hvar.has hvar.own hvar.unshared he hop rfl
  have hexpansion := store_expansion env n a
    (s := { s with readptr := opMeq :: (nameStream name ++ a.op :: (p ++ op :: rest)) }) hready hvar he hop rfl
  unfold Expands
  rcases hexpansion with ⟨u, t, hu, hrun, hhas⟩ | ⟨hrefused, e, t, hrun⟩
  · have hdefined : stored a x y ≠ .stray := by
      intro h
      rw [evalop_stray h] at hu
      cases hu
    rw [hrun, sameEffect_value hhas, hstored.value_iff hdefined, hu]
    cases stored a x y with
    | value w => exact ⟨Stores.value.inj, congrArg _⟩
    | refused | infinite | stray => exact iff_of_false Stores.noConfusion id
  · rw [hrun, sameEffect_raised, hstored.refused_iff, hrefused]
    cases stored a x y with
    | refused => exact iff_of_true rfl trivial
    | value w | infinite | stray => exact iff_of_false Stores.noConfusion id

/-- A compound assignment has the effect of its expansion exactly for the values of `Same`. -/
theorem compound_expands_iff (a : Arith) (hready : Ready s.store) {name : List Byte}
    (hvar : Variable s.store name o v x) (he : Evaluates s.store p y) (hop : opIsend op = true) :
    Expands env (n + 5) s o v a name p op rest ↔ Same a x y :=
  (expands_agrees a hready hvar he hop).trans (agrees_iff a x y)

end

/-! ### A memory with two variables -/

/-- A memory with the globals `n`, with -5, and `s`, with `"a"`. -/
def twoVariables : Store where
  objs := ((((Cells.empty.alloc { val := some 0 }).alloc { val := some 1 }).alloc { val := some 2 }).alloc
    { next := some 4, val := some 3, hash := cdbHash (bytes "n"), name := bytes "n" }).alloc
    { prev := some 3, val := some 4, hash := cdbHash (bytes "s"), name := bytes "s" }
  vals := ((((Cells.empty.alloc { type := .null }).alloc
    { type := .table, d := .table (some 3) (some 3) (some 4) }).alloc { type := .null }).alloc
    { type := .number, d := .num (-5) }).alloc { type := .string, size := 1, d := .str (bytes "a") }
  locals := globalObj

theorem twoVariables_ready : Ready twoVariables := by
  refine ⟨⟨_, rfl, ?_⟩, by decide⟩
  intro v hv
  cases hv
  exact ⟨by decide, _, rfl, Ty.noConfusion, Ty.noConfusion, rfl⟩

theorem listed_n : Listed twoVariables (bytes "n") 3 1 3 := .here (by decide) rfl (by decide)

theorem listed_s : Listed twoVariables (bytes "s") 4 2 3 :=
  .next (by decide) rfl (by decide) rfl (.here (by decide) rfl (by decide))

theorem twoVariables_denotes {name : List Byte} {o : ObjId} {n : Nat} (h : Listed twoVariables name o n 3)
    (hn : n ≤ 11) : Denotes twoVariables name o := fun _ ht =>
  denotes_listed rfl (by decide) id rfl h hn ht fun _ h => h.elim

theorem variable_n : Variable twoVariables (bytes "n") 3 3 (.number (-5)) :=
  ⟨⟨⟨_, rfl, rfl, rfl, rfl⟩, by decide⟩, twoVariables_denotes listed_n (by decide), by decide, by decide, by decide,
    by decide⟩

theorem variable_s : Variable twoVariables (bytes "s") 4 4 (.string (bytes "a")) :=
  ⟨⟨⟨_, rfl, rfl, rfl, rfl, _, rfl, rfl⟩, by decide⟩, twoVariables_denotes listed_s (by decide), by decide, by decide,
    by decide, by decide⟩

/-- The variable `name` of that memory in `s op= name`. -/
def ExpandsAt (a : Arith) (name : List Byte) : Prop :=
  Expands bareEnv 5 { store := twoVariables, readptr := [] } 4 4 a (bytes "s") (nameStream name) opPsemicol []

/-- `s += s` is `s = s + s`. -/
theorem compound_expands_string : ExpandsAt .add (bytes "s") := by
  have hsame : Same .add (.string (bytes "a")) (.string (bytes "a")) := by
    show Arith.add ≠ .mul
    decide
  have hs := evaluates_variable variable_s.denotes variable_s.has variable_s.text variable_s.short
  exact (compound_expands_iff .add twoVariables_ready variable_s hs (by decide)).mpr hsame

/-- `s += n` is not `s = s + n`: the one is `a-5` and the other `anan`. -/
theorem not_compound_expands : ¬ ExpandsAt .add (bytes "n") := by
  intro h
  have hn := evaluates_variable variable_n.denotes variable_n.has variable_n.text variable_n.short
  have hagrees := (expands_agrees .add twoVariables_ready variable_s hn (by decide)).mp h
  have htext : bytes "a-5" = bytes "anan" := by
    have hstring : bytes "a" ++ nNtoa (-5) true 6 = bytes "a" ++ nNtoa (-5) false 6 := Scalar.string.inj hagrees
    rwa [show bytes "a" ++ nNtoa (-5) true 6 = bytes "a-5" by decide +kernel,
      show bytes "a" ++ nNtoa (-5) false 6 = bytes "anan" by decide +kernel] at hstring
  exact absurd htext (by decide)

end NullG.Nsp.Compound
