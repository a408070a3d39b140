/-
The control of a run: the flags, the open constructs and the steps.

`controlLaw` says that an action leaves them as they are, which is what every action but those of
statements and calls does. The rules `triple_...` are those of the actions that change them.
-/

import NullG.Lib.Triple
import NullG.Nsp.Laws

namespace NullG.Nsp

open NullG.Lib

/-! ### Actions that do not touch the control -/

/-- `N->brk`, `N->cnt` and `N->ret`. -/
structure Flags where
  brk : Int
  cnt : Int
  ret : Bool

def St.flags (s : St) : Flags := ⟨s.brk, s.cnt, s.ret⟩

/-- The flags, the open constructs and the steps are the same. -/
structure SameControl (s s' : St) : Prop where
  frames : s'.frames = s.frames
  log : s'.log = s.log
  flags : s'.flags = s.flags

theorem SameControl.refl (s : St) : SameControl s s := ⟨rfl, rfl, rfl⟩

theorem SameControl.trans {s t u : St} (h : SameControl s t) (h' : SameControl t u) :
    SameControl s u where
  frames := h'.frames.trans h.frames
  log := h'.log.trans h.log
  flags := h'.flags.trans h.flags

/-- Runs leave the control as it is. -/
def controlLaw : Law Fault St where
  ok := SameControl
  err _ := SameControl
  ok_refl := SameControl.refl
  err_refl _ := SameControl.refl
  ok_trans := SameControl.trans
  err_trans := SameControl.trans

theorem controlLaw_raise {α : Type} (err : Int) (located : Bool) (text : List Byte) :
    controlLaw.Obeys (nErr err located text : M α) :=
  .bind (fun _ => ⟨rfl, rfl, rfl⟩) fun _ => .throw _

theorem controlLaw_heap {α : Type} (x : H α) : controlLaw.Obeys (heap x) :=
  obeys_heap (fun _ => ⟨rfl, rfl, rfl⟩) controlLaw_raise

theorem lawful_control : Lawful controlLaw where
  heap := controlLaw_heap
  quiet hf s := by
    obtain ⟨p, l, fn, fi, sg, e, hs⟩ := hf s
    show SameControl s _
    rw [hs]
    exact ⟨rfl, rfl, rfl⟩
  raise := controlLaw_raise

/-- A law for the runs whose steps have `P`. -/
abbrev stepsLaw (L : Law Fault St) (P : Step × List Frame → Prop) : Law Fault St :=
  L.traced St.log P

section

variable {L L' : Law Fault St} {P : Step × List Frame → Prop} {α : Type}

/-- An action that does not touch the control obeys a law that says nothing of anything else. -/
theorem stepsLaw_of_control {x : M α} (hok : ∀ s s', SameControl s s' → L.ok s s')
    (herr : ∀ e s s', SameControl s s' → L.err e s s') (hx : controlLaw.Obeys x) :
    (stepsLaw L P).Obeys x := by
  refine hx.weaken (fun s s' h => ?_) fun e s s' h => ?_
  · exact ⟨[], h.log, fun _ => hok s s' h⟩
  · exact ⟨[], h.log, fun _ => herr e s s' h⟩

/-- An action that does not touch the control and obeys a law of anything else. -/
theorem stepsLaw_of_obeys {x : M α} (hcontrol : controlLaw.Obeys x) (hx : L.Obeys x) :
    (stepsLaw L P).Obeys x := by
  intro s
  have h := hx s
  have hsame := hcontrol s
  cases hrun : x s with
  | ok a s' => exact ⟨[], (hsame.of_ok hrun).log, fun _ => h.of_ok hrun⟩
  | error e s' => exact ⟨[], (hsame.of_error hrun : SameControl s s').log, fun _ => h.of_error hrun⟩

theorem lawful_stepsLaw (hok : ∀ s s', SameControl s s' → L.ok s s')
    (herr : ∀ e s s', SameControl s s' → L.err e s s') : Lawful (stepsLaw L P) where
  heap x := stepsLaw_of_control hok herr (lawful_control.heap x)
  quiet hf := stepsLaw_of_control hok herr (lawful_control.quiet hf)
  raise err located text := stepsLaw_of_control hok herr (lawful_control.raise err located text)

end

section

variable {P : Step × List Frame → Prop} {A A' : St → Prop} {α : Type} {B B' : α → St → Prop}
  {E E' : Fault → St → Prop}

theorem triple_note {e : Step} {B : Unit → St → Prop}
    (h : ∀ s, P (e, s.frames) → A s → B () { s with log := (e, s.frames) :: s.log }) :
    Triple St.log P A (note e) B E :=
  fun s => ⟨[(e, s.frames)], rfl, fun hP => h s (hP _ List.mem_cons_self)⟩

theorem triple_modify {f : St → St} {B : Unit → St → Prop} (hlog : ∀ s, (f s).log = s.log)
    (h : ∀ s, A s → B () (f s)) : Triple St.log P A (modify f : M Unit) B E :=
  fun s => ⟨[], hlog s, fun _ => h s⟩

/-- A part of a script in a construct. -/
theorem triple_within {f : Frame} {x : M α} (hx : ∀ K, Triple St.log P
      (fun s => s.frames = f :: K ∧ A { s with frames := K }) x
      (fun a s => B a { s with frames := K }) fun e s => E e { s with frames := K }) :
    Triple St.log P A (within f x) B E := by
  intro s
  obtain ⟨steps, hsteps, h⟩ := hx s.frames { s with frames := f :: s.frames }
  unfold within
  cases hrun : x { s with frames := f :: s.frames } with
  | ok a s' =>
      rw [hrun] at hsteps h
      exact ⟨steps, hsteps, fun hP hs => h hP ⟨rfl, hs⟩⟩
  | error e s' =>
      rw [hrun] at hsteps h
      exact ⟨steps, hsteps, fun hP hs => h hP ⟨rfl, hs⟩⟩

/-- A part of a script with its errors caught. -/
theorem triple_attempt {x : M α} {K : List Frame} (hx : Triple St.log P A x B E)
    (hA : ∀ s, A s → s.frames = K) {B' : Except NError α → St → Prop}
    (hB : ∀ a s, B a s → B' (.ok a) s) (hE : ∀ e s, (∀ n, e ≠ .raised n) → E e s → E' e s)
    (hcaught : ∀ e s, E (.raised e) s → P (.caught s.brk s.cnt s.ret, K) →
      B' (.error e) { s with frames := K, log := (.caught s.brk s.cnt s.ret, K) :: s.log }) :
    Triple St.log P A (attempt x) B' E' := by
  intro s
  obtain ⟨steps, hsteps, h⟩ := hx s
  unfold attempt
  cases hrun : x s with
  | ok a s' =>
      rw [hrun] at hsteps h
      exact ⟨steps, hsteps, fun hP hs => hB a s' (h hP hs)⟩
  | error e s' =>
      rw [hrun] at hsteps h
      cases e with
      | raised e =>
          refine ⟨_ :: steps, congrArg (List.cons _) hsteps, fun hP hs => ?_⟩
          have hK := hA s hs
          subst hK
          exact hcaught e s' (h (fun x hx => hP x (List.mem_cons_of_mem _ hx)) hs)
            (hP _ List.mem_cons_self)
      | _ => exact ⟨steps, hsteps, fun hP hs => hE _ s' (fun _ => Fault.noConfusion) (h hP hs)⟩

/-- The end of a call. -/
theorem triple_ending {x : M Unit} {B : Unit → St → Prop} (hx : Triple St.log P A x B E)
    (hpending : ∀ e s K, E e s → s.ret → P (.failed, K) →
      E' e { s with log := (.failed, K) :: s.log })
    (hE : ∀ e s, E e s → ¬ s.ret → E' e s) : Triple St.log P A (ending x) B E' := by
  intro s
  obtain ⟨steps, hsteps, h⟩ := hx s
  unfold ending
  cases hrun : x s with
  | ok a s' =>
      rw [hrun] at hsteps h
      exact ⟨steps, hsteps, h⟩
  | error e s' =>
      rw [hrun] at hsteps h
      dsimp only
      by_cases hret : s'.ret = true
      · rw [if_pos hret]
        refine ⟨_ :: steps, congrArg (List.cons _) hsteps, fun hP hs => ?_⟩
        exact hpending e s' s.frames (h (fun x hx => hP x (List.mem_cons_of_mem _ hx)) hs) hret
          (hP _ List.mem_cons_self)
      · rw [if_neg hret]
        exact ⟨steps, hsteps, fun hP hs => hE e s' (h hP hs) hret⟩

/-- What the tests behind the body of a loop make of flags that are not negative. -/
def AfterBody (f : Flags) (leave : Bool) (brk cnt : Int) : Prop :=
  0 ≤ f.brk → 0 ≤ f.cnt → cnt = 0 ∧
    (0 < f.brk ∧ brk = f.brk - 1 ∧ leave = true ∨ f.brk = 0 ∧ brk = 0 ∧ leave = f.ret)

theorem triple_afterBody {pos : Bool} {B : Bool → St → Prop}
    (h : ∀ s leave brk cnt, A s → AfterBody s.flags leave brk cnt →
      B leave { s with brk := brk, cnt := cnt }) :
    Triple St.log P A (afterBody pos) B E := by
  have hcnt : ∀ n : Int, 0 ≤ n → (if pos ∧ n ≤ 0 then n else 0) = 0 := by
    intro n hn
    split
    · omega
    · rfl
  have htest : ∀ n : Int, 0 ≤ n → ((if pos then 0 < n else n ≠ 0) ↔ 0 < n) := by
    intro n hn
    cases pos
    · rw [if_neg Bool.false_ne_true]
      omega
    · rw [if_pos rfl]
  refine .bind (B := fun _ s => ∃ t c, A t ∧ (0 ≤ t.cnt → c = 0) ∧ s = { t with cnt := c }) ?_
    fun _ => .read fun t => ?_
  · exact triple_modify (fun _ => rfl) fun s hs => ⟨s, _, hs, hcnt s.cnt, rfl⟩
  · refine .ite (fun hb => .bind (B := fun _ => B true) (triple_modify (fun _ => rfl) ?_) fun _ =>
      .pure fun _ h => h) fun hb => .pure ?_
    · rintro _ ⟨⟨s, c, hs, hc, rfl⟩, rfl⟩
      refine h s true _ c hs fun hbrk hpos => ⟨hc hpos, .inl ⟨(htest _ hbrk).mp hb, rfl, rfl⟩⟩
    · rintro _ ⟨⟨s, c, hs, hc, rfl⟩, rfl⟩
      refine h s s.ret s.brk c hs fun hbrk hpos => ⟨hc hpos, .inr ⟨?_, ?_, rfl⟩⟩
      all_goals
        have h0 : ¬ 0 < s.brk := fun h => hb ((htest _ hbrk).mpr h)
        change 0 ≤ s.brk at hbrk
        show s.brk = 0
        omega

end

end NullG.Nsp
