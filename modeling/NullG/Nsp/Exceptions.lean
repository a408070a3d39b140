/-
Exceptions that leave a `try`.

An exception is the number in `err` and the text in `errbuf`, and nothing else: while a `finally` is
executed they are all there is of the exception that `n_try` is going to raise again. It raises it
with `NE_SYNTAX` and with the text that it finds in `errbuf` then, as `n_execbasemethod` does with
the errors of what it calls.
-/

import NullG.Nsp.Finally

namespace NullG.Nsp

open NullG.Lib

variable {k : Calls} {env : Env} {α : Type}

/-! ### The text of an error over runs -/

/-- `errbuf` holds no more than `n_error` writes. -/
def Fits (s : St) : Prop := s.errbuf.length ≤ 254

theorem fits_newState : Fits newState := Nat.zero_le _

/-- Runs keep `Fits`. -/
def fitsLaw : Law Fault St where
  ok s s' := Fits s → Fits s'
  err _ s s' := Fits s → Fits s'
  ok_refl _ h := h
  err_refl _ _ h := h
  ok_trans hst htu h := htu (hst h)
  err_trans hst htu h := htu (hst h)

theorem fitsLaw_raise (err : Int) (located : Bool) (text : List Byte) :
    fitsLaw.Obeys (nErr err located text : M α) := by
  intro s _
  exact List.length_take_le _ _

/-- `errbuf` is written by `n_error` only. -/
theorem fitsLaw_governs : Governs fitsLaw := by
  have hfits : ∀ {s s' : St}, s'.errbuf = s.errbuf → Fits s → Fits s' := by
    intro s s' h hs
    rw [Fits, h]
    exact hs
  have hsame : ∀ {s s' : St}, SameData s s' → Fits s → Fits s' := by
    rintro s s' ⟨b, c, r, K, l, rfl⟩
    exact hfits rfl
  have hlawful : Lawful fitsLaw := by
    refine ⟨fun x => obeys_heap (fun _ h => h) fitsLaw_raise, fun {f} hf s => ?_, fitsLaw_raise⟩
    obtain ⟨p, l, fn, fi, sg, e, hs⟩ := hf s
    have htext : (f s).errbuf = s.errbuf := by rw [hs]
    exact hfits htext
  exact Blind.governs ⟨hlawful, hsame, fun h hdata hs => hsame hdata (h hs), fun h => h⟩

/-- The step is not one at which an error was caught. -/
def Uncaught : Step × List Frame → Prop
  | (.caught _ _ _, _) => False
  | _ => True

/-- Runs that end with a value leave the text as it is. -/
def sameText : Law Fault St where
  ok s s' := s'.errbuf = s.errbuf
  err _ _ _ := True
  ok_refl _ := rfl
  err_refl _ _ := trivial
  ok_trans h h' := h'.trans h
  err_trans _ _ := trivial

theorem lawful_sameText : Lawful sameText where
  heap x := obeys_heap (fun _ => rfl) fun _ _ _ _ => trivial
  quiet hf s := by
    obtain ⟨p, l, fn, fi, sg, e, hs⟩ := hf s
    show St.errbuf _ = _
    rw [hs]
  raise _ _ _ _ := trivial

/-- Runs in which no error is caught leave the text as it is. -/
def textLaw : Law Fault St := stepsLaw sameText Uncaught

theorem lawful_text : Lawful textLaw where
  heap x := stepsLaw_of_obeys (lawful_control.heap x) (lawful_sameText.heap x)
  quiet hf := stepsLaw_of_obeys (lawful_control.quiet hf) (lawful_sameText.quiet hf)
  raise err located text :=
    stepsLaw_of_obeys (lawful_control.raise err located text) (lawful_sameText.raise err located text)

section

variable {x : M α}

theorem textLaw_modify {f : St → St} (hlog : ∀ s, (f s).log = s.log) (hf : ∀ s, (f s).errbuf = s.errbuf) :
    textLaw.Obeys (modify f : M Unit) := fun s => ⟨[], hlog s, fun _ => hf s⟩

theorem textLaw_note (e : Step) : textLaw.Obeys (note e) := fun _ => ⟨[_], rfl, fun _ => rfl⟩

theorem textLaw_within (f : Frame) (hx : textLaw.Obeys x) : textLaw.Obeys (within f x) := by
  intro s
  have h := hx { s with frames := f :: s.frames }
  unfold within
  cases hrun : x { s with frames := f :: s.frames } with
  | ok a s' => exact (h.of_ok hrun : textLaw.ok _ s')
  | error e s' => exact (h.of_error hrun : textLaw.err e _ s')

/-- Where an error was caught the law says nothing. -/
theorem textLaw_attempt (hx : textLaw.Obeys x) : textLaw.Obeys (attempt x) := by
  intro s
  have h := hx s
  unfold attempt
  cases hrun : x s with
  | ok a s' => exact h.of_ok hrun
  | error e s' =>
      obtain ⟨steps, hsteps, -⟩ : textLaw.err e s s' := h.of_error hrun
      cases e with
      | raised e =>
          exact ⟨_ :: steps, congrArg (List.cons _) hsteps, fun hP => (hP _ List.mem_cons_self).elim⟩
      | _ => exact ⟨steps, hsteps, fun _ => trivial⟩

theorem textLaw_ending {x : M Unit} (hx : textLaw.Obeys x) : textLaw.Obeys (ending x) := by
  intro s
  have h := hx s
  unfold ending
  cases hrun : x s with
  | ok a s' => exact h.of_ok hrun
  | error e s' =>
      obtain ⟨steps, hsteps, -⟩ : textLaw.err e s s' := h.of_error hrun
      dsimp only
      split
      · exact ⟨_ :: steps, congrArg (List.cons _) hsteps, fun _ => trivial⟩
      · exact ⟨steps, hsteps, fun _ => trivial⟩

theorem textLaw_afterBody (pos : Bool) : textLaw.Obeys (afterBody pos) := by
  refine .bind (textLaw_modify (fun _ => rfl) fun _ => rfl) fun _ => .read fun s => .ite ?_ (.pure _)
  exact .bind (textLaw_modify (fun _ => rfl) fun _ => rfl) fun _ => .pure _

end

theorem textLaw_governs : Governs textLaw where
  toLawful := lawful_text
  stmt _ := textLaw_note _
  behind _ := textLaw_note _
  jump j := .bind (textLaw_note _) fun _ => by
    cases j <;> exact textLaw_modify (fun _ => rfl) fun _ => rfl
  attempt := textLaw_attempt
  guarded := textLaw_within .guard
  round pos hx := by
    refine .bind (textLaw_within .loop hx) fun _ => .bind (textLaw_afterBody pos) fun leave => ?_
    exact .ite (.bind (textLaw_note _) fun _ => .pure _) (.pure _)
  arm hx := by
    refine .bind (textLaw_within .switch hx) fun _ => .read fun s => .ite ?_ (.pure _)
    exact .bind (textLaw_modify (fun _ => rfl) fun _ => rfl) fun _ => .pure _
  calling hx hafter := by
    refine .bind (textLaw_within .call (textLaw_attempt hx)) fun r => ?_
    refine .bind (textLaw_ending (hafter r)) fun _ => ?_
    exact .bind (textLaw_modify (fun _ => rfl) fun _ => rfl) fun _ => .bind (textLaw_note _) fun _ => .pure _

/-! ### The exception that a `try` is left with -/

/-- The number and the text that the handler finds to which an error is handed. -/
def handed : EStateM.Result Fault St α → Option (Int × List Byte)
  | .error (.raised _) s => some (s.err, s.errbuf)
  | _ => none

/-- The `finally` of a `try`, if it has one. -/
def finallyOf (k : Calls) : M Unit := do
  if (← peekop) = opKfinally then
    let _ ← finallyPart k

/-- Behind its `finally` a `try` with an exception raises it again. -/
theorem endTry_handed {last : List Byte} {single : Bool} {s s₂ : St} (h : finallyOf k s = .ok () s₂) :
    handed (endTry k true last single s) = some ((neSyntax : Int), s₂.errbuf.take 254) := by
  obtain ⟨op, s₁, hpeek, h⟩ := bind_run_ok h
  show handed ((peekop >>= _ : M Unit) s) = _
  rw [run_bind_of_ok hpeek]
  by_cases hop : op = opKfinally
  · rw [if_pos hop] at h ⊢
    obtain ⟨place, t, hfinally, h⟩ := bind_run_ok h
    cases h
    rw [run_bind_of_ok hfinally]
    rfl
  · rw [if_neg hop] at h ⊢
    cases h
    rfl

theorem endTry_error {except single : Bool} {last : List Byte} {s s₂ : St} {e : Fault}
    (h : finallyOf k s = .error e s₂) : endTry k except last single s = .error e s₂ := by
  rcases bind_run_error h with hpeek | ⟨op, s₁, hpeek, h⟩
  · exact run_bind_of_error hpeek
  · show (peekop >>= _ : M Unit) s = _
    rw [run_bind_of_ok hpeek]
    by_cases hop : op = opKfinally
    · rw [if_pos hop] at h ⊢
      rcases bind_run_error h with hfinally | ⟨place, t, -, h⟩
      · exact run_bind_of_error hfinally
      · cases h
    · rw [if_neg hop] at h
      cases h

/-- The exception of `s` is the one that is handed on behind the `finally`: its number is `NE_SYNTAX`
and the text is still there, or the `finally` raises the same error. -/
def Kept (s : St) : EStateM.Result Fault St Unit → Prop
  | .ok _ t => s.err = neSyntax ∧ t.errbuf = s.errbuf
  | .error e t => handed (.error e t : EStateM.Result Fault St Unit) = some (s.err, s.errbuf)

instance (s : St) (r : EStateM.Result Fault St Unit) : Decidable (Kept s r) :=
  match r with
  | .ok _ _ => inferInstanceAs (Decidable (_ ∧ _))
  | .error _ _ => inferInstanceAs (Decidable (_ = _))

section

variable {L : Law Fault St} (h : Governs L) (hexec : ∀ p, L.Obeys (k.exec p))

include h hexec

theorem obeys_tryCatch : L.Obeys (tryCatch k) := by
  refine .bind Lawful.here fun bs => .bind h.extent fun (last, be, single) => ?_
  refine .bind (h.tryExec h.attempt (fun p => h.guarded (hexec p)) _) fun except => ?_
  refine .bind (h.goto _) fun _ => .bind h.peekop fun _ => .ite ?_ (.pure _)
  exact h.catchPart h.attempt (fun p => h.guarded (hexec p)) _

theorem obeys_finallyOf : L.Obeys (finallyOf k) :=
  .bind h.peekop fun _ => .ite (.bind (h.finallyPart fun p => h.guarded (hexec p)) fun _ => .pure _) (.pure _)

end

theorem handed_eq_iff {err : Int} {s t : St} (ht : Fits t) :
    some (err, t.errbuf.take 254) = some (s.err, s.errbuf) ↔ s.err = err ∧ t.errbuf = s.errbuf := by
  rw [List.take_of_length_le ht, Option.some_inj, Prod.mk.injEq]
  exact and_congr_left' eq_comm

theorem keptBehind_iff (env : Env) (n : Nat) {s s₀ : St} {last : List Byte} {single : Bool} (hfits : Fits s)
    (htry : tryCatch (interp env n) s = .ok (true, last, single) s₀) :
    handed (nTry (interp env n) s) = some (s₀.err, s₀.errbuf) ↔
      Kept s₀ (finallyOf (interp env n) s₀) := by
  obtain ⟨-, hexec⟩ := fitsLaw_governs.interp env n
  have hfits₀ : Fits s₀ := (obeys_tryCatch fitsLaw_governs hexec s).of_ok htry hfits
  rw [nTry_eq, run_bind_of_ok htry]
  cases hfinally : finallyOf (interp env n) s₀ with
  | ok u t =>
      have ht : Fits t := (obeys_finallyOf fitsLaw_governs hexec s₀).of_ok hfinally hfits₀
      show handed (endTry _ true last single s₀) = _ ↔ _
      rw [endTry_handed hfinally]
      exact handed_eq_iff ht
  | error e t =>
      show handed (endTry _ true last single s₀) = _ ↔ _
      rw [endTry_error hfinally]
      exact Iff.rfl

/-- When no error is caught while the `finally` is executed, the text is still there behind it. -/
theorem text_kept (env : Env) (n : Nat) {s t : St} (h : finallyOf (interp env n) s = .ok () t)
    (huncaught : ∀ e ∈ Law.added St.log s t, Uncaught e) : t.errbuf = s.errbuf :=
  Law.traced_ok ((obeys_finallyOf textLaw_governs (textLaw_governs.interp env n).2 s).of_ok h) huncaught

/-! ### Errors that leave a base method -/

theorem named_val (name : List Byte) (x : Obj) : { x with name := clip name }.val = x.val := rfl

/-- The object that `n_execbasemethod` calls. -/
def baseTarget (name : List Byte) : M ObjId := do
  expect "exec.c:n_execbasemethod()" opPoparen
  heap (do
    let tobj ← newObj
    let _ ← nspSetobj tobj (some (bytes "base_method")) (.cfunc .nlBaseMethod)
    modObj tobj (fun x => { x with name := clip name }) (named_val name)
    return tobj)

/-- In the run of `n_execbasemethod` from `s`, the method raises an error in the state `x`, which is
caught. -/
def RaisedBase (k : Calls) (env : Env) (name : List Byte) (pobj : Option ObjId) (s x : St) : Prop :=
  ∃ tobj t e y, baseTarget name s = .ok tobj t ∧ execfunction k env tobj pobj .function t = .error (.raised e) x ∧
    heap (do nspUnlinkval tobj; freeObj tobj)
      { x with frames := t.frames, log := (.caught x.brk x.cnt x.ret, t.frames) :: x.log } = .ok () y

theorem attempt_run {x : M α} {s t : St} {e : NError} (h : x s = .error (.raised e) t) :
    attempt x s = .ok (.error e)
      { t with frames := s.frames, log := (.caught t.brk t.cnt t.ret, s.frames) :: t.log } := by
  unfold attempt
  rw [h]

theorem execbasemethod_handed {name : List Byte} {pobj : Option ObjId} {s x : St}
    (h : RaisedBase k env name pobj s x) :
    handed (execbasemethod k env name pobj s) = some ((neSyntax : Int), x.errbuf.take 254) := by
  obtain ⟨tobj, t, e, y, htarget, hcall, hfree⟩ := h
  obtain ⟨_, u, hexpect, hnew⟩ := bind_run_ok htarget
  show handed ((expect _ _ >>= _ : M Unit) s) = _
  rw [run_bind_of_ok hexpect, run_bind_of_ok hnew, run_bind_of_ok (attempt_run hcall), run_bind_of_ok hfree]
  have hy := (lawful_sameText.heap _ _).of_ok hfree
  change y.errbuf = x.errbuf at hy
  show some ((neSyntax : Int), y.errbuf.take 254) = _
  rw [hy]

/-! ### The identity of exceptions -/

/-- From a state `s`, an exception that `n_try` is left with is handed on with its number and its
text exactly when it is kept, and the `finally` leaves the text when no error is caught in it; an
error that leaves a base method keeps them exactly when its number is `NE_SYNTAX`. -/
theorem exceptions_keep_identity_iff (env : Env) (n : Nat) {s : St} (hfits : Fits s) :
    (∀ last single s₀, tryCatch (interp env n) s = .ok (true, last, single) s₀ →
      (handed (nTry (interp env n) s) = some (s₀.err, s₀.errbuf) ↔
        Kept s₀ (finallyOf (interp env n) s₀)) ∧
      ∀ t, finallyOf (interp env n) s₀ = .ok () t → (∀ e ∈ Law.added St.log s₀ t, Uncaught e) →
        t.errbuf = s₀.errbuf) ∧
    ∀ name pobj x, RaisedBase (interp env n) env name pobj s x →
      (handed (execbasemethod (interp env n) env name pobj s) = some (x.err, x.errbuf) ↔
        x.err = neSyntax) := by
  constructor
  · intro last single s₀ htry
    exact ⟨keptBehind_iff env n hfits htry, fun t hfinally => text_kept env n hfinally⟩
  · intro name pobj x hraised
    rw [execbasemethod_handed hraised]
    have hx : Fits x := by
      obtain ⟨tobj, t, e, y, htarget, hcall, -⟩ := hraised
      obtain ⟨hk, hexec⟩ := fitsLaw_governs.interp env n
      have ht : Fits t :=
        (Law.Obeys.bind (fitsLaw_governs.expect _ _) (fun _ => fitsLaw_governs.heap _) s).of_ok htarget hfits
      exact (fitsLaw_governs.execfunction hk (fitsLaw_governs.runCall hk hexec) _ _ _ t).of_error hcall ht
    rw [handed_eq_iff hx]
    exact and_iff_left rfl

/-- A run of `n_try` that is left with an exception, with `p`. -/
def leftTest (env : Env) (n : Nat) (s : St) (p : St → Bool) : Bool :=
  match tryCatch (interp env n) s with
  | .ok (true, _, _) s₀ => p s₀
  | _ => false

theorem exists_left {env : Env} {n : Nat} {s : St} {p : St → Bool} (h : leftTest env n s p = true) :
    ∃ last single s₀, tryCatch (interp env n) s = .ok (true, last, single) s₀ ∧ p s₀ = true := by
  unfold leftTest at h
  split at h
  · exact ⟨_, _, _, ‹_›, h⟩
  · cases h

/-- The `try` of `try{else;}finally{x=1;}`. -/
theorem exceptions_keep_identity_else :
    ∃ last single s₀, tryCatch (interp bareEnv 20) (scriptAt (bytes "{else;}finally{x=1;}") []) =
        .ok (true, last, single) s₀ ∧
      handed (nTry (interp bareEnv 20) (scriptAt (bytes "{else;}finally{x=1;}") [])) =
        some (s₀.err, s₀.errbuf) := by
  obtain ⟨last, single, s₀, htry, hkept⟩ := exists_left (p := fun s₀ => decide (Kept s₀
    (finallyOf (interp bareEnv 20) s₀))) (by decide +kernel :
      leftTest bareEnv 20 (scriptAt (bytes "{else;}finally{x=1;}") []) _ = true)
  have hfits : Fits (scriptAt (bytes "{else;}finally{x=1;}") []) := by
    unfold Fits
    decide +kernel
  exact ⟨last, single, s₀, htry, (((exceptions_keep_identity_iff bareEnv 20 hfits).1 last single s₀ htry).1).mpr
    (of_decide_eq_true hkept)⟩

/-- The error that leaves a `try` at `s` is not the one that its `finally` has left in the state. -/
def LosesError (s : St) : Prop :=
  ∃ last single s₀, tryCatch (interp bareEnv 20) s = .ok (true, last, single) s₀ ∧
    handed (nTry (interp bareEnv 20) s) ≠ some (s₀.err, s₀.errbuf)

/-- The number of a `throw` is lost in every `try` without a `catch`, and a text where the `finally`
catches an error of its own. -/
theorem not_exceptions_keep_identity :
    LosesError (scriptAt (bytes "\x7bthrow \"a\";\x7dfinally\x7bx=1;\x7d") []) ∧
      LosesError (scriptAt (bytes "\x7belse;\x7dfinally\x7btry\x7bthrow \"b\";\x7dcatch(e)\x7b\x7d\x7d") []) := by
  have hexists : ∀ {s : St}, leftTest bareEnv 20 s (fun s₀ => decide
      (handed (nTry (interp bareEnv 20) s) ≠ some (s₀.err, s₀.errbuf))) = true → LosesError s := by
    intro s h
    obtain ⟨last, single, s₀, htry, htest⟩ := exists_left h
    exact ⟨last, single, s₀, htry, of_decide_eq_true htest⟩
  constructor
  · exact hexists (by decide +kernel)
  · exact hexists (by decide +kernel)

end NullG.Nsp
