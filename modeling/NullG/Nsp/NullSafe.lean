/-
The shared null value over whole runs of scripts.

The actions on the heap keep `NullSafe`, so the interpreter does, and at the end of every run that
made no stray step the null value is null. A stray step is a write through the null object, or a
link of its value to another object: `x = &y`, `f(&y)` and `y.f()` make one when `y` is not
defined, and then an assignment to `x` changes what every undefined name reads as.
-/

import NullG.Nsp.Laws

namespace NullG.Nsp

open NullG.Lib

/-- Runs keep the invariant of the heap. -/
def nullLaw : Law Fault St where
  ok s s' := NullSafe s.store → NullSafe s'.store
  err _ s s' := NullSafe s.store → NullSafe s'.store
  ok_refl _ h := h
  err_refl _ _ h := h
  ok_trans hst htu h := htu (hst h)
  err_trans hst htu h := htu (hst h)

section

variable {α : Type}

theorem nullLaw_modify {f : St → St} (hf : ∀ s, (f s).store = s.store) :
    nullLaw.Obeys (modify f : M Unit) := by
  intro s h
  show NullSafe (f s).store
  rwa [hf s]

theorem nullLaw_raise (err : Int) (located : Bool) (text : List Byte) :
    nullLaw.Obeys (nErr err located text : M α) :=
  .bind (nullLaw_modify fun _ => rfl) fun _ => .throw _

theorem nullLaw_heap (x : H α) : nullLaw.Obeys (heap x) :=
  obeys_heap (fun s hs => x.keeps s.store hs) nullLaw_raise

end

/-- Every function of the interpreter keeps the invariant of the heap. -/
theorem nullLaw_governs : Governs nullLaw := by
  have hsame : ∀ s s' : St, SameData s s' → s'.store = s.store := by
    rintro s s' ⟨b, c, r, K, l, rfl⟩
    rfl
  refine Blind.governs ⟨⟨nullLaw_heap, ?_, nullLaw_raise⟩, ?_, ?_, fun h => h⟩
  · intro f hf
    refine nullLaw_modify fun s => ?_
    obtain ⟨p, l, fn, fi, sg, e, hs⟩ := hf s
    rw [hs]
  · intro s s' hdata hs
    rw [hsame s s' hdata]
    exact hs
  · intro e s t t' h hdata hs
    rw [hsame t t' hdata]
    exact h hs

/-- The type of a value. -/
def Store.valType (s : Store) (v : ValId) : Option Ty := (s.vals.get v).map Val.type

/-- The null value is null, and the null object has a null value. -/
def NullIsNull (s : Store) : Prop :=
  s.valType nullVal = some .null ∧ ∀ v ∈ s.ptr nullObj, s.valType v = some .null

instance (s : Store) : Decidable (NullIsNull s) := inferInstanceAs (Decidable (_ ∧ _))

theorem NullApart.nullIsNull {s : Store} (h : NullApart s) : NullIsNull s := by
  constructor
  · obtain ⟨y, hy, ht⟩ := h.null
    rw [Store.valType, hy]
    exact congrArg some ht
  · intro v hv
    obtain ⟨y, hy, ht⟩ := h.seen v hv
    rw [Store.valType, hy]
    exact congrArg some ht

/-! ### The state of a new interpreter -/

/-- The memory with the null object and value, and with the objects of `nsp_state`. -/
def emptyStore : Store where
  objs := ((Cells.empty.alloc { val := some nullVal }).alloc {}).alloc {}
  vals := Cells.empty.alloc { type := .null, stackval := true }
  locals := nullObj

/-- A constant of `nsp_newstate`. -/
def setConstant (name : List Byte) (type : Ty) (q : Num) : H Unit := do
  let cobj ← nspSetobj globalObj (some name) (.number q)
  modVal cobj fun y => { y with type := type, system := true }

/-- `nsp_newstate`, without the library. -/
def nspNewstate : H Unit := do
  let l ← newexeccontext
  modState (fun s => { s with locals := l }) fun _ => ⟨rfl, rfl, rfl⟩
  nSetname globalObj (bytes "!GLOBALS!")
  nspSetvaltype globalObj .table
  nSetname retObj (bytes "!RETVAL!")
  let cobj ← nspSetobj globalObj (some (bytes "_GLOBALS")) (.boolean 0)
  nspLinkval cobj (some globalObj)
  setConstant (bytes "null") .null 0
  setConstant (bytes "false") .boolean 0
  setConstant (bytes "true") .boolean 1

/-- The state of a new interpreter. -/
def newState : St := { store := final (nspNewstate.run emptyStore), readptr := [] }

/-- An interpreter without a library and without files. -/
def bareEnv : Env := ⟨fun _ => pure (), fun _ _ => pure (), fun _ => none⟩

theorem ptr_emptyStore {o : ObjId} {v : ValId} (h : emptyStore.ptr o = some v) :
    o = nullObj ∧ v = nullVal := by
  by_cases ho : o = nullObj
  · subst ho
    exact ⟨rfl, (Option.some.inj h).symm⟩
  · have hnone : emptyStore.ptr o = none := by
      match o with
      | 0 => exact absurd rfl ho
      | 1 | 2 => rfl
      | n + 3 => rfl
    rw [hnone] at h
    cases h

theorem nullSafe_emptyStore : NullSafe emptyStore := by
  intro _
  refine ⟨⟨_, rfl, rfl⟩, ?_, ?_, ?_⟩
  · intro v hv
    obtain ⟨-, rfl⟩ := ptr_emptyStore hv
    exact ⟨_, rfl, rfl⟩
  · intro o ho v hv
    exact absurd (ptr_emptyStore hv).1 ho
  · intro o v hv
    obtain ⟨-, rfl⟩ := ptr_emptyStore hv
    exact Nat.zero_lt_one

/-- A new interpreter has made no stray step, and its null value is null. -/
theorem nullSafe_newState : NullSafe newState.store := nspNewstate.keeps _ nullSafe_emptyStore

/-- What the null object reads as, in a run without a stray step. -/
theorem typeOf_nullObj {s s' : Store} {t : Ty} (h : NullIsNull s)
    (hrun : (typeOf nullObj).run s = .ok t s') : t = .null := by
  unfold typeOf at hrun
  simp only [Action.require] at hrun
  cases hobj : s.objs.get nullObj with
  | none =>
      rw [hobj] at hrun
      cases hrun
  | some x =>
      cases hval : x.val with
      | none =>
          simp only [hobj, hval] at hrun
          cases hrun
          rfl
      | some v =>
          have hty := h.2 v (by rw [Store.ptr, hobj]; exact hval)
          cases hv : s.vals.get v with
          | none =>
              simp only [hobj, hval, hv] at hrun
              cases hrun
          | some y =>
              simp only [hobj, hval, hv] at hrun
              rw [Store.valType, hv] at hty
              cases hrun
              exact Option.some.inj hty

/-- In a run without a stray step the null value stays null, and with it the names that are not
defined. -/
theorem null_stays_null (env : Env) (fuel : Nat) (text : List Byte) (s : St) (hs : NullSafe s.store)
    (hrun : (final (runScript env fuel text s)).store.stray = false) :
    NullIsNull (final (runScript env fuel text s)).store ∧
      ∀ t s', (typeOf nullObj).run (final (runScript env fuel text s)).store = .ok t s' → t = .null := by
  have h := (nullLaw_governs.runScript env fuel text) s
  have hnull : NullIsNull (final (runScript env fuel text s)).store := by
    cases hr : runScript env fuel text s with
    | ok a s' =>
        rw [hr] at hrun
        exact (h.of_ok hr hs hrun).nullIsNull
    | error e s' =>
        rw [hr] at hrun
        exact (h.of_error hr hs hrun).nullIsNull
  exact ⟨hnull, fun t s' => typeOf_nullObj hnull⟩

theorem null_stays_null_sum :
    NullIsNull (final (runScript bareEnv 20 (bytes "x=y;z=x+1;") newState)).store :=
  (null_stays_null _ _ _ _ nullSafe_newState (by decide +kernel)).1

/-- An assignment through a reference to an undefined name changes the null value. -/
theorem not_nullIsNull_reference :
    ¬ NullIsNull (final (runScript bareEnv 20 (bytes "x=&y;x=5;") newState)).store := by
  decide +kernel

end NullG.Nsp
