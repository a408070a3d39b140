/-
The flags `brk`, `cnt` and `ret` over whole runs of scripts.

A `break n`, `continue` or `return` is well placed when the innermost call has the loops and the
switches that it leaves. `flagsLaw` bounds the flags by the constructs that are open, and
`calmLaw` says that an expression leaves them at zero. A call clears `ret` only: a `break` outside
of loops leaves `brk` set behind the call.
-/

import NullG.Nsp.Control
import NullG.Nsp.NullSafe

namespace NullG.Nsp

open NullG.Lib

/-! ### Well placed jumps -/

/-- The loops and the switches that are open in the innermost call. -/
def depth : List Frame → Nat
  | [] => 0
  | .call :: _ => 0
  | .guard :: K => depth K
  | .loop :: K => depth K + 1
  | .switch :: K => depth K + 1

/-- A loop is open in the innermost call. -/
def inLoop : List Frame → Bool
  | [] => false
  | .call :: _ => false
  | .loop :: _ => true
  | _ :: K => inLoop K

/-- The step does not make a flag wait for a construct that is not open. -/
def Placed : Step × List Frame → Prop
  | (.jump (.brk n), K) => 0 ≤ n ∧ n ≤ depth K
  | (.jump .cnt, K) => inLoop K
  | (.jump .ret, K) => .call ∈ K
  | (.caught brk cnt ret, K) =>
      0 ≤ brk ∧ brk ≤ depth K ∧ 0 ≤ cnt ∧ (cnt ≠ 0 → inLoop K) ∧ (ret → .call ∈ K)
  | (.failed, _) => False
  | _ => True

instance : DecidablePred Placed := fun (e, K) => by
  unfold Placed
  split <;> infer_instance

/-- The steps of a run are all well placed. -/
def WellPlaced (s s' : St) : Prop := ∀ e ∈ Law.added St.log s s', Placed e

instance (s s' : St) : Decidable (WellPlaced s s') :=
  inferInstanceAs (Decidable (∀ e ∈ Law.added St.log s s', Placed e))

/-- The flags `f'` are bounded by the open constructs and by the flags before. -/
structure Bounded (K : List Frame) (f f' : Flags) : Prop where
  nonneg : 0 ≤ f'.brk
  brk : f'.brk ≤ max f.brk (depth K)
  pos : 0 ≤ f'.cnt
  cnt : f'.cnt ≠ 0 → f.cnt ≠ 0 ∨ inLoop K
  ret : f'.ret → f.ret ∨ .call ∈ K

/-- Flags that are not negative stay bounded. -/
def StaysBounded (K : List Frame) (f f' : Flags) : Prop := 0 ≤ f.brk → 0 ≤ f.cnt → Bounded K f f'

theorem StaysBounded.refl (K : List Frame) (f : Flags) : StaysBounded K f f :=
  fun hb hc => ⟨hb, Int.le_max_left _ _, hc, .inl, .inl⟩

theorem StaysBounded.trans {K : List Frame} {f g i : Flags} (h : StaysBounded K f g)
    (h' : StaysBounded K g i) : StaysBounded K f i := by
  intro hb hc
  obtain ⟨hb', hbrk, hc', hcnt, hret⟩ := h hb hc
  obtain ⟨hb'', hbrk', hc'', hcnt', hret'⟩ := h' hb' hc'
  refine ⟨hb'', ?_, hc'', fun hi => ?_, fun hi => ?_⟩
  · exact Int.le_trans hbrk' (Int.max_le.mpr ⟨hbrk, Int.le_max_right _ _⟩)
  · exact (hcnt' hi).elim hcnt .inr
  · exact (hret' hi).elim hret .inr

/-- The bounds of `brk` and `cnt` do not depend on `ret`. -/
theorem StaysBounded.clear {K : List Frame} {f g : Flags} (h : StaysBounded K f g) :
    StaysBounded K { f with ret := false } { g with ret := false } := by
  intro hb hc
  obtain ⟨hb', hbrk, hc', hcnt, -⟩ := h hb hc
  exact ⟨hb', hbrk, hc', hcnt, fun h => absurd h Bool.false_ne_true⟩

/-- Runs keep the bounds. -/
def boundsLaw : Law Fault St where
  ok s s' := s'.frames = s.frames ∧ StaysBounded s.frames s.flags s'.flags
  err _ _ _ := True
  ok_refl _ := ⟨rfl, .refl _ _⟩
  err_refl _ _ := trivial
  ok_trans := by
    rintro s t u ⟨hf, h⟩ ⟨hf', h'⟩
    rw [hf] at hf' h'
    exact ⟨hf', h.trans h'⟩
  err_trans _ _ := trivial

/-- Runs with well placed steps keep the bounds. -/
def flagsLaw : Law Fault St := stepsLaw boundsLaw Placed

/-- The constructs are those of `t`, and the flags stay bounded by `K`. -/
def Holding (t : St) (K : List Frame) (s : St) : Prop :=
  s.frames = t.frames ∧ StaysBounded K t.flags s.flags

section

variable {α : Type} {x : M α}

/-- A part that runs in a construct. -/
theorem flagsLaw_within (f : Frame) (hx : flagsLaw.Obeys x) (t : St) :
    Triple St.log Placed (fun s => s = t) (within f x) (fun _ => Holding t (f :: t.frames))
      fun _ _ => True := by
  refine triple_within fun K => .of_obeys hx ?_ fun _ _ _ _ _ => trivial
  rintro a s s' ⟨hframes, rfl⟩ ⟨-, hstays⟩
  rw [hframes] at hstays
  exact ⟨rfl, hstays⟩

theorem flagsLaw_round (pos : Bool) {x : M Unit} (hx : flagsLaw.Obeys x) :
    flagsLaw.Obeys (round pos x) := by
  refine Triple.obeys fun t => .bind (flagsLaw_within .loop hx t) fun _ =>
    .bind (B := fun _ => Holding t t.frames) (triple_afterBody ?_) fun leave => ?_
  · rintro s leave brk cnt ⟨hframes, hstays⟩ hafter
    refine ⟨hframes, fun hb hc => ?_⟩
    obtain ⟨hb', hbrk, hc', hcnt, hret⟩ := hstays hb hc
    obtain ⟨rfl, h⟩ := hafter hb' hc'
    have hdepth : (depth (.loop :: t.frames) : Int) = depth t.frames + 1 := rfl
    rw [hdepth] at hbrk
    refine ⟨?_, ?_, Int.le_refl _, fun h => absurd rfl h, fun h => (hret h).imp_right ?_⟩
    · show 0 ≤ brk
      omega
    · show brk ≤ max t.flags.brk (depth t.frames)
      omega
    · exact fun h => (List.mem_cons.mp h).resolve_left Frame.noConfusion
  · exact .ite (fun _ => .bind (triple_note fun _ _ h => h) fun _ => .pure fun _ h => h) fun _ =>
      .pure fun _ h => h

theorem flagsLaw_arm {x : M Unit} (hx : flagsLaw.Obeys x) : flagsLaw.Obeys (arm x) := by
  refine Triple.obeys fun t => .bind (flagsLaw_within .switch hx t) fun _ => .read fun u => ?_
  have hbounds : ∀ (s : St) (brk : Int), Holding t (.switch :: t.frames) s →
      (0 ≤ s.brk → 0 ≤ brk ∧ brk ≤ max 0 (s.brk - 1)) → Holding t t.frames { s with brk := brk } := by
    rintro s brk ⟨hframes, hstays⟩ hbrk'
    refine ⟨hframes, fun hb hc => ?_⟩
    obtain ⟨hb', hbrk, hc', hcnt, hret⟩ := hstays hb hc
    have hdepth : (depth (.switch :: t.frames) : Int) = depth t.frames + 1 := rfl
    rw [hdepth] at hbrk
    obtain ⟨h0, hle⟩ := hbrk' hb'
    change s.brk ≤ _ at hbrk
    refine ⟨h0, ?_, hc', hcnt, fun h => (hret h).imp_right ?_⟩
    · show brk ≤ max t.flags.brk (depth t.frames)
      omega
    · exact fun h => (List.mem_cons.mp h).resolve_left Frame.noConfusion
  refine .ite (fun hb => .bind (triple_modify (fun _ => rfl) ?_) fun _ => .pure fun _ h => h)
    fun hb => .pure ?_
  · rintro s ⟨h, rfl⟩
    exact hbounds s (s.brk - 1) h fun h0 => by omega
  · rintro s ⟨h, rfl⟩
    exact hbounds s s.brk h fun h0 => by omega

theorem flagsLaw_guarded {x : M Unit} (hx : flagsLaw.Obeys x) : flagsLaw.Obeys (within .guard x) := by
  refine Triple.obeys fun t => (flagsLaw_within .guard hx t).post ?_
  rintro _ s ⟨hframes, hstays⟩
  refine ⟨hframes, fun hb hc => ?_⟩
  obtain ⟨hb', hbrk, hc', hcnt, hret⟩ := hstays hb hc
  exact ⟨hb', hbrk, hc', hcnt, fun h => (hret h).imp_right fun h =>
    (List.mem_cons.mp h).resolve_left Frame.noConfusion⟩

/-- An error leaves the part that catches errors only when it is none that a script can raise. -/
theorem flagsLaw_attempt_triple (hx : flagsLaw.Obeys x) (t : St) :
    Triple St.log Placed (fun s => s = t) (attempt x) (fun _ => Law.ok boundsLaw t)
      fun e _ => ∀ n, e ≠ .raised n := by
  refine triple_attempt (K := t.frames) (B := fun _ => Law.ok boundsLaw t) (E := fun _ _ => True)
    (.of_obeys hx ?_ fun _ _ _ _ _ => trivial) ?_ (fun _ _ h => h) (fun _ _ h _ => h) ?_
  · rintro a s s' rfl h
    exact h
  · rintro s rfl
    rfl
  · rintro e s - ⟨hb, hbrk, hc, hcnt, hret⟩
    refine ⟨rfl, fun _ _ => ⟨hb, ?_, hc, fun h => .inr (hcnt h), fun h => .inr (hret h)⟩⟩
    exact Int.le_trans hbrk (Int.le_max_right _ _)

theorem flagsLaw_attempt (hx : flagsLaw.Obeys x) : flagsLaw.Obeys (attempt x) :=
  Triple.obeys fun t => (flagsLaw_attempt_triple hx t).conseq (fun _ h => h) (fun _ _ h => h)
    fun _ _ _ => trivial

/-- The body of a call, with its errors caught. -/
theorem flagsLaw_called (hx : flagsLaw.Obeys x) (t : St) :
    Triple St.log Placed (fun s => s = t) (within .call (attempt x))
      (fun _ => Holding t (.call :: t.frames)) fun e _ => ∀ n, e ≠ .raised n := by
  refine triple_within fun K => (Triple.each (flagsLaw_attempt_triple hx)).conseq (fun _ h => h) ?_ ?_
  · rintro _ s' ⟨s, ⟨hframes, rfl⟩, -, hstays⟩
    rw [hframes] at hstays
    exact ⟨rfl, hstays⟩
  · rintro e s' ⟨s, -, h⟩
    exact h

theorem flagsLaw_calling {body : M α} {after : Except NError α → M Unit} (hbody : flagsLaw.Obeys body)
    (hafter : ∀ r, flagsLaw.Obeys (after r)) : flagsLaw.Obeys (calling body after) := by
  refine Triple.obeys fun t => .bind ((flagsLaw_called hbody t).conseq (fun _ h => h)
    (fun _ _ h => h) fun _ _ _ => trivial) fun r => ?_
  -- While what follows the body runs, a `return` of the body may be pending.
  let Cleared (s : St) : Prop := s.frames = t.frames ∧
    StaysBounded t.frames { t.flags with ret := false } { s.flags with ret := false }
  refine .bind (B := fun _ => Cleared) ?_ fun _ => .bind (B := fun _ => Law.ok boundsLaw t) ?_ fun _ =>
    .bind (triple_note fun _ _ h => h) fun _ => .pure fun _ h => h
  · refine triple_ending (E := fun _ _ => True) (.of_obeys (hafter r) ?_ fun _ _ _ _ _ => trivial)
      (fun _ _ _ _ _ _ => trivial) fun _ _ _ _ => trivial
    rintro _ s s' ⟨hframes, hstays⟩ ⟨hframes', hstays'⟩
    rw [hframes] at hframes' hstays'
    refine ⟨hframes', StaysBounded.trans (fun hb hc => ?_) hstays'.clear⟩
    obtain ⟨hb', hbrk, hc', hcnt, -⟩ := hstays hb hc
    refine ⟨hb', Int.le_trans hbrk ?_, hc', fun h => .inl ((hcnt h).resolve_right Bool.false_ne_true),
      fun h => absurd h Bool.false_ne_true⟩
    exact Int.max_le.mpr ⟨Int.le_max_left _ _, Int.le_trans (Int.natCast_nonneg _) (Int.le_max_right _ _)⟩
  · refine triple_modify (fun _ => rfl) fun s ⟨hframes, hstays⟩ => ⟨hframes, fun hb hc => ?_⟩
    obtain ⟨hb', hbrk, hc', hcnt, -⟩ := hstays hb hc
    exact ⟨hb', hbrk, hc', hcnt, fun h => absurd h Bool.false_ne_true⟩

theorem flagsLaw_jump (j : Jump) : flagsLaw.Obeys (jump j) := by
  refine Triple.obeys fun t => .bind (B := fun _ s => Placed (.jump j, t.frames) ∧
    s.frames = t.frames ∧ s.flags = t.flags) (triple_note ?_) fun _ => ?_
  · rintro s hP rfl
    exact ⟨hP, rfl, rfl⟩
  · cases j with
    | brk n =>
        refine triple_modify (fun _ => rfl) fun s ⟨⟨h0, hn⟩, hframes, hflags⟩ => ⟨hframes, ?_⟩
        intro hb hc
        rw [← hflags] at hb hc ⊢
        exact ⟨h0, Int.le_trans hn (Int.le_max_right _ _), hc, .inl, .inl⟩
    | cnt =>
        refine triple_modify (fun _ => rfl) fun s ⟨hloop, hframes, hflags⟩ => ⟨hframes, ?_⟩
        intro hb hc
        rw [← hflags] at hb hc ⊢
        exact ⟨hb, Int.le_max_left _ _, Int.zero_le_ofNat 1, fun _ => .inr hloop, .inl⟩
    | ret =>
        refine triple_modify (fun _ => rfl) fun s ⟨hcall, hframes, hflags⟩ => ⟨hframes, ?_⟩
        intro hb hc
        rw [← hflags] at hb hc ⊢
        exact ⟨hb, Int.le_max_left _ _, hc, .inl, fun _ => .inr hcall⟩

theorem boundsLaw_of_control {s s' : St} (h : SameControl s s') : boundsLaw.ok s s' := by
  refine ⟨h.frames, ?_⟩
  rw [h.flags]
  exact .refl _ _

/-- Every function of the interpreter keeps the bounds of the flags. -/
theorem flagsLaw_governs : Governs flagsLaw where
  toLawful := lawful_stepsLaw (fun _ _ => boundsLaw_of_control) fun _ _ _ _ => trivial
  stmt _ := Triple.obeys fun _ => triple_note fun _ _ h => h ▸ boundsLaw.ok_refl _
  behind _ := Triple.obeys fun _ => triple_note fun _ _ h => h ▸ boundsLaw.ok_refl _
  jump := flagsLaw_jump
  attempt := flagsLaw_attempt
  guarded := flagsLaw_guarded
  round pos hx := flagsLaw_round pos hx
  arm := flagsLaw_arm
  calling := flagsLaw_calling

/-! ### Expressions leave the flags at zero -/

/-- The flags are all zero. -/
def Flags.Calm (f : Flags) : Prop := f.brk = 0 ∧ f.cnt = 0 ∧ f.ret = false

/-- Runs leave flags at zero that were zero, also where an error is raised. -/
def restLaw : Law Fault St where
  ok s s' := s'.frames = s.frames ∧ (s.flags.Calm → s'.flags.Calm)
  err e s s' := ∀ n, e = .raised n → s.flags.Calm → s'.flags.Calm
  ok_refl _ := ⟨rfl, fun h => h⟩
  err_refl _ _ _ _ h := h
  ok_trans := fun ⟨hf, h⟩ ⟨hf', h'⟩ => ⟨hf'.trans hf, fun hs => h' (h hs)⟩
  err_trans := fun ⟨_, h⟩ h' n hn hs => h' n hn (h hs)

/-- Runs with well placed steps leave the flags at zero. -/
def calmLaw : Law Fault St := stepsLaw restLaw Placed

theorem restLaw_of_control {s s' : St} (h : SameControl s s') : restLaw.ok s s' := by
  refine ⟨h.frames, ?_⟩
  rw [h.flags]
  exact fun h => h

theorem lawful_calm : Lawful calmLaw :=
  lawful_stepsLaw (fun _ _ => restLaw_of_control) fun _ _ _ h _ _ => (restLaw_of_control h).2

theorem calmLaw_attempt (hx : calmLaw.Obeys x) : calmLaw.Obeys (attempt x) := by
  refine Triple.obeys fun t => triple_attempt (K := t.frames) (B := fun _ => Law.ok restLaw t)
    (E := fun e => Law.err restLaw e t) (.of_obeys hx ?_ ?_) ?_ (fun _ _ h => h) (fun _ _ _ h => h) ?_
  · rintro a s s' rfl h
    exact h
  · rintro e s s' rfl h
    exact h
  · rintro s rfl
    rfl
  · exact fun e s h _ => ⟨rfl, h e rfl⟩

/-- A call whose body is bounded, when nothing that follows it touches the control. -/
theorem calmLaw_calling {body : M α} {after : Except NError α → M Unit} (hbody : flagsLaw.Obeys body)
    (hafter : ∀ r, controlLaw.Obeys (after r)) : calmLaw.Obeys (calling body after) := by
  -- What is left of the body's flags is a `return`.
  refine Triple.obeys fun t => ?_
  let Returned (s : St) : Prop := s.frames = t.frames ∧ (t.flags.Calm → s.flags.brk = 0 ∧ s.flags.cnt = 0)
  have hreturned : ∀ s s', Returned s → SameControl s s' → Returned s' := by
    rintro s s' ⟨hframes, h⟩ hsame
    refine ⟨hsame.frames.trans hframes, ?_⟩
    rw [hsame.flags]
    exact h
  refine .bind (B := fun _ => Returned) ?_ fun r => .bind (B := fun _ => Returned) ?_ fun _ =>
    .bind (B := fun _ => Law.ok restLaw t) ?_ fun _ =>
      .bind (triple_note fun _ _ h => h) fun _ => .pure fun _ h => h
  · refine (flagsLaw_called hbody t).conseq (fun _ h => h) ?_ fun _ _ h n hn => absurd hn (h n)
    rintro _ s ⟨hframes, hstays⟩
    refine ⟨hframes, fun ⟨h0, h1, _⟩ => ?_⟩
    obtain ⟨hb, hbrk, hc, hcnt, -⟩ := hstays (Int.le_of_eq h0.symm) (Int.le_of_eq h1.symm)
    rw [h0] at hbrk
    change s.flags.brk ≤ 0 at hbrk
    constructor
    · exact Int.le_antisymm hbrk hb
    · by_contra hne
      exact (hcnt hne).elim (fun h => h h1) Bool.false_ne_true
  · refine triple_ending (E := fun _ => Returned) ?_ (fun _ _ _ _ _ h => h.elim) ?_
    · refine .of_obeys (stepsLaw_of_control (L := controlLaw) (fun _ _ h => h) (fun _ _ _ h => h)
        (hafter r)) ?_ ?_
      · exact fun _ s s' h hsame => hreturned s s' h hsame
      · exact fun _ s s' h hsame => hreturned s s' h hsame
    · rintro e s ⟨-, h⟩ hret n rfl ht
      exact ⟨(h ht).1, (h ht).2, Bool.eq_false_iff.mpr hret⟩
  · refine triple_modify (fun _ => rfl) fun s ⟨hframes, h⟩ => ⟨hframes, fun ht => ?_⟩
    exact ⟨(h ht).1, (h ht).2, rfl⟩

theorem calmLaw_runCall {k : Calls} {env : Env} (hk : k.Obeys flagsLaw)
    (hexec : ∀ p, flagsLaw.Obeys (k.exec p)) (fobj listobj : ObjId) (c : Callee) (ftype : FType) :
    calmLaw.Obeys (runCall k env fobj listobj c ftype) := by
  refine .bind Lawful.getContext fun old => .bind (lawful_calm.heap _) fun l => ?_
  refine .bind (lawful_calm.setContext _) fun _ => .bind (lawful_calm.enterContext _ _ _ _ _) fun _ => ?_
  refine .bind (calmLaw_calling (flagsLaw_governs.runCallee hk hexec c) fun r => ?_) fun r => ?_
  · exact lawful_control.afterCall listobj old c ftype r
  · cases r with
    | ok found => exact .pure _
    | error e => exact .throw _

/-- The functions for expressions leave the flags at zero, at every depth. -/
theorem calmLaw_interp (env : Env) (n : Nat) : (interp env n).Obeys calmLaw := by
  induction n with
  | zero =>
      exact ⟨fun _ => .throw _, fun _ _ => .throw _, fun _ _ => .throw _, fun _ => .throw _,
        fun _ _ _ => .throw _, fun _ _ => .throw _, fun _ _ => .throw _⟩
  | succ n ih =>
      obtain ⟨hk, hexec⟩ := flagsLaw_governs.interp env n
      have hrun : ∀ fobj listobj c ftype,
          calmLaw.Obeys (runCall (interp env n) env fobj listobj c ftype) := calmLaw_runCall hk hexec
      constructor
      · exact lawful_calm.nspEval ih
      · exact lawful_calm.evalobj ih
      · exact lawful_calm.evalsub ih
      · exact lawful_calm.readtable ih
      · exact lawful_calm.execfunction ih hrun
      · exact lawful_calm.execbasemethod ih hrun calmLaw_attempt
      · exact lawful_calm.execconstructor ih hrun

end

/-- A script that no construct is around leaves the flags at zero. -/
theorem runScript_calm (env : Env) (fuel : Nat) (text : List Byte) (t : St) (ht : t.frames = []) :
    Triple St.log Placed (fun s => s = t) (runScript env fuel text)
      (fun _ s => t.flags.Calm → s.flags.Calm)
      fun e s => ∀ n, e = .raised n → t.flags.Calm → s.flags.Calm := by
  refine .bind (B := fun _ s => SameControl t s) (.of_obeys (stepsLaw_of_control (L := controlLaw)
    (fun _ _ h => h) (fun _ _ _ h => h) (lawful_control.heap _)) ?_ ?_) fun _ => .ite (fun _ => .pure ?_)
      fun _ => .bind (B := fun _ s => ∃ u, SameControl t u ∧ boundsLaw.ok u s) ?_ fun _ => .pure ?_
  · rintro _ s s' rfl h
    exact h
  · rintro e s s' rfl h n - hcalm
    rwa [h.flags]
  · intro s h hcalm
    rwa [h.flags]
  · refine (Triple.each (flagsLaw_attempt_triple ?_)).conseq (fun _ h => h) (fun _ _ h => h) ?_
    · refine .bind (flagsLaw_governs.decompose _ _) fun p => ?_
      cases p with
      | none => exact .throw _
      | some p => exact (flagsLaw_governs.interp env fuel).2 p
    · rintro e s ⟨u, -, h⟩ n hn
      exact absurd hn (h n)
  · rintro s ⟨u, hsame, -, hstays⟩ hcalm
    rw [← hsame.flags] at hcalm
    obtain ⟨h0, h1, h2⟩ := hcalm
    rw [hsame.frames, ht] at hstays
    obtain ⟨hb, hbrk, hc, hcnt, hret⟩ := hstays (Int.le_of_eq h0.symm) (Int.le_of_eq h1.symm)
    rw [h0] at hbrk
    refine ⟨Int.le_antisymm hbrk hb, ?_, Bool.eq_false_iff.mpr fun h => ?_⟩
    · by_contra hne
      exact (hcnt hne).elim (fun h => h h1) Bool.false_ne_true
    · rcases hret h with h | h
      · rw [h2] at h
        exact Bool.false_ne_true h
      · exact List.not_mem_nil h

/-! ### Calls and whole runs -/

instance (f : Flags) : Decidable f.Calm := inferInstanceAs (Decidable (_ ∧ _))

/-- The run came to its end, with a value or with an error of the script. -/
def Ended {α : Type} : EStateM.Result Fault St α → Bool
  | .ok _ _ => true
  | .error (.raised _) _ => true
  | .error _ _ => false

/-- The flags are zero behind the run if they were before it. -/
def StaysCalm {α : Type} (s : St) (r : EStateM.Result Fault St α) : Prop :=
  Ended r → s.flags.Calm → (final r).flags.Calm

instance {α : Type} (s : St) (r : EStateM.Result Fault St α) : Decidable (StaysCalm s r) :=
  inferInstanceAs (Decidable (_ → _))

/-- When every jump of a run is well placed, the flags are zero behind every call of a function,
and behind the run of a whole script. -/
theorem flags_do_not_leak (env : Env) (fuel : Nat) (s : St) :
    (∀ fobj pobj ftype, WellPlaced s (final (execfunction (interp env fuel) env fobj pobj ftype s)) →
      StaysCalm s (execfunction (interp env fuel) env fobj pobj ftype s)) ∧
    (s.frames = [] → ∀ text, WellPlaced s (final (runScript env fuel text s)) →
      StaysCalm s (runScript env fuel text s)) := by
  constructor
  · intro fobj pobj ftype hplaced hended hcalm
    obtain ⟨hk, hexec⟩ := flagsLaw_governs.interp env fuel
    have hcall : ∀ fobj listobj c ftype,
        calmLaw.Obeys (runCall (interp env fuel) env fobj listobj c ftype) := calmLaw_runCall hk hexec
    have h := lawful_calm.execfunction (calmLaw_interp env fuel) hcall fobj pobj ftype s
    cases hrun : execfunction (interp env fuel) env fobj pobj ftype s with
    | ok a s' =>
        rw [hrun] at hplaced
        exact ((Law.traced_ok (h.of_ok hrun) hplaced).2 hcalm)
    | error e s' =>
        rw [hrun] at hplaced hended
        cases e with
        | raised e => exact Law.traced_err (h.of_error hrun) hplaced e rfl hcalm
        | _ => exact absurd hended Bool.false_ne_true
  · intro hframes text hplaced hended hcalm
    have h := runScript_calm env fuel text s hframes s
    obtain ⟨steps, hsteps, h⟩ := h
    rw [WellPlaced, Law.added_eq hsteps] at hplaced
    have hends := h hplaced rfl
    cases hrun : runScript env fuel text s with
    | ok a s' =>
        rw [hrun] at hends
        exact hends hcalm
    | error e s' =>
        rw [hrun] at hends hended
        cases e with
        | raised e => exact hends e rfl hcalm
        | _ => exact absurd hended Bool.false_ne_true

theorem flags_do_not_leak_loop :
    StaysCalm newState (runScript bareEnv 30 (bytes "function f(){while(1){break;}return 1;}f();") newState) :=
  (flags_do_not_leak bareEnv 30 newState).2 rfl _ (by decide +kernel)

/-- A `break` outside of loops, and a `return` outside of functions, leave a flag set. -/
theorem not_staysCalm_jump :
    ¬ StaysCalm newState (runScript bareEnv 30 (bytes "function f(){break;}f();") newState) ∧
      ¬ StaysCalm newState (runScript bareEnv 20 (bytes "return 1;") newState) := by
  constructor
  · decide +kernel
  · decide +kernel

end NullG.Nsp
