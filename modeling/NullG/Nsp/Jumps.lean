/-
A jump stops the execution of statements until control reaches its target.

The target of a `break n`, `continue` or `return` is the construct that it leaves, with the
constructs around that. Between a jump and its target the flags tell each construct on the way
what to do: `Waits` relates the flags to the jump that is under way. A `continue` in a `switch`
has no target here: `n_switch` does not test `cnt`, and the statements of the case go on.
-/

import NullG.Nsp.Flags

namespace NullG.Nsp

open NullG.Lib

/-! ### Targets -/

/-- The construct that `break n` leaves, with those around it. -/
def breakTarget : Nat → List Frame → Option (Frame × List Frame)
  | 1, .loop :: K => some (.loop, K)
  | 1, .switch :: K => some (.switch, K)
  | n + 2, .loop :: K => breakTarget (n + 1) K
  | n + 2, .switch :: K => breakTarget (n + 1) K
  | _, _ => none

/-- The loop that `continue` goes on with. -/
def loopTarget : List Frame → Option (Frame × List Frame)
  | .loop :: K => some (.loop, K)
  | _ => none

/-- The call that `return` leaves. -/
def callTarget : List Frame → Option (Frame × List Frame)
  | .call :: K => some (.call, K)
  | .loop :: K => callTarget K
  | .switch :: K => callTarget K
  | _ => none

/-- The construct that a jump leaves or goes on with, when no `try` is in between. -/
def target : Jump → List Frame → Option (Frame × List Frame)
  | .brk n, K => breakTarget n.toNat K
  | .cnt, K => loopTarget K
  | .ret, K => callTarget K

/-- The step with which the jump has reached its target: the target is over, or its next round
starts, or an error was caught outside of it. -/
def Arrives (w : Jump × List Frame) (e : Step × List Frame) : Prop :=
  match target w.1 w.2 with
  | none => False
  | some (f, K) =>
      match e.1 with
      | .behind g => g = f ∧ e.2 = K
      | .again => w.1 = .cnt ∧ e.2 = K
      | .caught _ _ _ => e.2 <:+ K
      | _ => False

instance (w : Jump × List Frame) (e : Step × List Frame) : Decidable (Arrives w e) := by
  unfold Arrives
  split
  · infer_instance
  · split <;> infer_instance

/-- What a step makes of the jump that is under way. -/
def settle (e : Step × List Frame) : Option (Jump × List Frame) → Option (Jump × List Frame)
  | none => none
  | some w => if Arrives w e then none else some w

/-- The jump that is under way behind some steps, the last step first. -/
def pending : List (Step × List Frame) → Option (Jump × List Frame)
  | [] => none
  | (.jump j, K) :: _ => some (j, K)
  | e :: l => settle e (pending l)

/-- No statement starts while a jump is under way. -/
def JumpsStop (l : List (Step × List Frame)) : Prop :=
  ∀ p K later earlier, l = later ++ (.stmt p, K) :: earlier → pending earlier = none

theorem JumpsStop.nil : JumpsStop [] := by
  intro p K later earlier h
  cases later <;> cases h

theorem JumpsStop.stmt {p : List Byte} {K : List Frame} {l : List (Step × List Frame)}
    (h : JumpsStop l) (hl : pending l = none) : JumpsStop ((.stmt p, K) :: l) := by
  intro p' K' later earlier heq
  cases later with
  | nil =>
      cases heq
      exact hl
  | cons e later => exact h p' K' later earlier (List.cons.inj heq).2

theorem JumpsStop.cons {e : Step} {K : List Frame} {l : List (Step × List Frame)} (h : JumpsStop l)
    (he : ∀ p, e ≠ .stmt p) : JumpsStop ((e, K) :: l) := by
  intro p K' later earlier heq
  cases later with
  | nil =>
      cases heq
      exact absurd rfl (he p)
  | cons e' later => exact h p K' later earlier (List.cons.inj heq).2

theorem JumpsStop.tail {e : Step × List Frame} {l : List (Step × List Frame)} (h : JumpsStop (e :: l)) :
    JumpsStop l :=
  fun p K later earlier heq => h p K (e :: later) earlier (congrArg (List.cons e) heq)

/-- The same as a test. -/
def jumpsStop : List (Step × List Frame) → Bool
  | [] => true
  | (.stmt _, _) :: l => (pending l).isNone && jumpsStop l
  | _ :: l => jumpsStop l

theorem jumpsStop_iff (l : List (Step × List Frame)) : jumpsStop l ↔ JumpsStop l := by
  fun_induction jumpsStop l with
  | case1 => exact ⟨fun _ => .nil, fun _ => rfl⟩
  | case2 p K l ih =>
      rw [Bool.and_eq_true, Option.isNone_iff_eq_none, ih]
      exact ⟨fun h => h.2.stmt h.1, fun h => ⟨h p K [] l rfl, h.tail⟩⟩
  | case3 e l hne ih =>
      rw [ih]
      refine ⟨fun h => ?_, fun h => h.tail⟩
      exact h.cons fun p he => hne p e.2 (he ▸ rfl)

instance (l : List (Step × List Frame)) : Decidable (JumpsStop l) :=
  decidable_of_iff _ (jumpsStop_iff l)

/-- A jump has a target, and no error is caught while a jump is under way. -/
def Orderly : Step × List Frame → Prop
  | (.jump j, K) => target j K ≠ none
  | (.caught brk cnt ret, _) => brk = 0 ∧ cnt = 0 ∧ ret = false
  | _ => True

instance : DecidablePred Orderly
  | (.jump j, K) => inferInstanceAs (Decidable (target j K ≠ none))
  | (.caught brk cnt ret, _) => inferInstanceAs (Decidable (brk = 0 ∧ cnt = 0 ∧ ret = false))
  | (.stmt _, _) | (.again, _) | (.behind _, _) | (.failed, _) => inferInstanceAs (Decidable True)

/-! ### The flags of a jump under way -/

/-- The flags, with the constructs `K` open, lead the jump to its target. -/
inductive Waits (K : List Frame) : Flags → Option (Jump × List Frame) → Prop where
  | rest : Waits K ⟨0, 0, false⟩ none
  | brk {m : Nat} {n : Int} {K₀ : List Frame} {t : Frame × List Frame} :
      breakTarget (m + 1) K = some t → target (.brk n) K₀ = some t →
      Waits K ⟨m + 1, 0, false⟩ (some (.brk n, K₀))
  | cnt {K₀ : List Frame} {t : Frame × List Frame} :
      loopTarget K = some t → target .cnt K₀ = some t → Waits K ⟨0, 1, false⟩ (some (.cnt, K₀))
  | ret {K₀ : List Frame} {t : Frame × List Frame} :
      callTarget K = some t → target .ret K₀ = some t → Waits K ⟨0, 0, true⟩ (some (.ret, K₀))

/-- No jump is under way. -/
structure Idle (K : List Frame) (s : St) : Prop where
  frames : s.frames = K
  stop : JumpsStop s.log
  calm : s.flags.Calm
  free : pending s.log = none

/-- The flags lead the jump that is under way. -/
structure Sync (K : List Frame) (s : St) : Prop where
  frames : s.frames = K
  stop : JumpsStop s.log
  waits : Waits K s.flags (pending s.log)

/-- The same, or a jump has come to the end of the construct `f`. -/
structure Left (f : Frame) (K : List Frame) (s : St) : Prop where
  frames : s.frames = K
  stop : JumpsStop s.log
  waits : Waits K s.flags (pending s.log) ∨
    s.flags.Calm ∧ ∃ w, pending s.log = some w ∧ target w.1 w.2 = some (f, K)

/-- What is known where an error is raised: a jump under way that no flag leads any more has its
target in the part of the script that the error leaves. -/
structure Broken (K : List Frame) (s : St) : Prop where
  stop : JumpsStop s.log
  inside : s.flags.Calm → ∀ w, pending s.log = some w →
    ∃ f K', target w.1 w.2 = some (f, K') ∧ K <:+ K'

theorem Idle.sync {K : List Frame} {s : St} (h : Idle K s) : Sync K s := by
  refine ⟨h.frames, h.stop, ?_⟩
  have hflags : s.flags = ⟨0, 0, false⟩ := by
    obtain ⟨h0, h1, h2⟩ := h.calm
    exact congr (congr (congrArg Flags.mk h0) h1) h2
  rw [hflags, h.free]
  exact .rest

theorem Waits.calm {K : List Frame} {f : Flags} {w : Option (Jump × List Frame)} (h : Waits K f w)
    (hcalm : f.Calm) : w = none := by
  cases h with
  | rest => rfl
  | brk => exact absurd hcalm.1 (by dsimp only; omega)
  | cnt => exact absurd hcalm.2.1 (by decide)
  | ret => exact absurd hcalm.2.2 (by decide)

theorem Sync.idle {K : List Frame} {s : St} (h : Sync K s) (hcalm : s.flags.Calm) : Idle K s :=
  ⟨h.frames, h.stop, hcalm, h.waits.calm hcalm⟩

theorem Sync.left {f : Frame} {K : List Frame} {s : St} (h : Sync K s) : Left f K s :=
  ⟨h.frames, h.stop, .inl h.waits⟩

theorem Left.broken {f : Frame} {K : List Frame} {s : St} (h : Left f K s) : Broken K s := by
  refine ⟨h.stop, fun hcalm w hw => ?_⟩
  obtain hwaits | ⟨-, w', hw', ht⟩ := h.waits
  · rw [hwaits.calm hcalm] at hw
    cases hw
  · rw [hw'] at hw
    cases hw
    exact ⟨f, K, ht, List.suffix_rfl⟩

theorem Sync.broken {K : List Frame} {s : St} (h : Sync K s) : Broken K s :=
  (h.left (f := .loop)).broken

theorem Idle.broken {K : List Frame} {s : St} (h : Idle K s) : Broken K s := h.sync.broken

theorem Broken.outer {f : Frame} {K : List Frame} {s : St} (h : Broken (f :: K) s) :
    Broken K { s with frames := K } := by
  refine ⟨h.stop, fun hcalm w hw => ?_⟩
  obtain ⟨g, K', ht, hK⟩ := h.inside hcalm w hw
  exact ⟨g, K', ht, (List.suffix_cons f K).trans hK⟩

/-- An error that was caught with the flags at zero leaves no jump under way. -/
theorem Broken.caught {K : List Frame} {s : St} (h : Broken K s)
    (hcaught : Orderly (.caught s.brk s.cnt s.ret, K)) :
    Idle K { s with frames := K, log := (.caught s.brk s.cnt s.ret, K) :: s.log } := by
  refine ⟨rfl, h.stop.cons nofun, hcaught, ?_⟩
  show settle _ (pending s.log) = none
  cases hw : pending s.log with
  | none => rfl
  | some w =>
      obtain ⟨f, K', ht, hK⟩ := h.inside hcaught w hw
      have harrives : Arrives w (.caught s.brk s.cnt s.ret, K) := by
        unfold Arrives
        rw [ht]
        exact hK
      exact if_pos harrives

/-! ### The constructs on the way -/

theorem breakTarget_length {n : Nat} {K K' : List Frame} {f : Frame}
    (h : breakTarget n K = some (f, K')) : K'.length < K.length := by
  fun_induction breakTarget n K with
  | case1 K => cases h; exact Nat.lt_succ_self _
  | case2 K => cases h; exact Nat.lt_succ_self _
  | case3 n K ih => exact Nat.lt_succ_of_lt (ih h)
  | case4 n K ih => exact Nat.lt_succ_of_lt (ih h)
  | case5 => cases h

theorem loopTarget_eq {K : List Frame} {t : Frame × List Frame} (h : loopTarget K = some t) :
    ∃ K', K = .loop :: K' ∧ t = (.loop, K') := by
  unfold loopTarget at h
  split at h
  · cases h
    exact ⟨_, rfl, rfl⟩
  · cases h

/-- The innermost construct is neither a loop nor a `switch`. -/
def Closed : List Frame → Prop
  | .loop :: _ => False
  | .switch :: _ => False
  | _ => True

theorem Closed.breakTarget {K : List Frame} (h : Closed K) (n : Nat) : breakTarget n K = none := by
  fun_cases Nsp.breakTarget n K with
  | case5 => rfl
  | _ => exact h.elim

theorem Closed.loopTarget {K : List Frame} (h : Closed K) : loopTarget K = none := by
  fun_cases Nsp.loopTarget K with
  | case1 => exact h.elim
  | case2 => rfl

/-- Only a `return` can be under way where neither a loop nor a `switch` is left. -/
theorem Waits.closed {K : List Frame} {f : Flags} {w : Option (Jump × List Frame)} (h : Waits K f w)
    (hK : Closed K) : f.Calm ∧ w = none ∨ f = ⟨0, 0, true⟩ ∧
      ∃ K₀ t, w = some (.ret, K₀) ∧ callTarget K = some t ∧ target .ret K₀ = some t := by
  cases h with
  | rest => exact .inl ⟨⟨rfl, rfl, rfl⟩, rfl⟩
  | brk h =>
      rw [hK.breakTarget] at h
      cases h
  | cnt h =>
      rw [hK.loopTarget] at h
      cases h
  | ret h ht => exact .inr ⟨rfl, _, _, rfl, h, ht⟩

theorem callTarget_length {K K' : List Frame} {f : Frame} (h : callTarget K = some (f, K')) :
    K'.length < K.length := by
  fun_induction callTarget K with
  | case1 K => cases h; exact Nat.lt_succ_self _
  | case2 K ih => exact Nat.lt_succ_of_lt (ih h)
  | case3 K ih => exact Nat.lt_succ_of_lt (ih h)
  | case4 => cases h

/-- A jump that the flags lead does not end in the constructs that are open. -/
theorem Waits.ne {K K' : List Frame} {fl : Flags} {w : Jump × List Frame} {f : Frame}
    (h : Waits K fl (some w)) (ht : target w.1 w.2 = some (f, K')) : K' ≠ K := by
  have hlt : K'.length < K.length := by
    cases h with
    | brk hK hw =>
        rw [hw] at ht
        cases ht
        exact breakTarget_length hK
    | cnt hK hw =>
        rw [hw] at ht
        cases ht
        obtain ⟨K'', rfl, h⟩ := loopTarget_eq hK
        cases h
        exact Nat.lt_succ_self _
    | ret hK hw =>
        rw [hw] at ht
        cases ht
        exact callTarget_length hK
  rintro rfl
  exact Nat.lt_irrefl _ hlt

/-! ### Steps -/

/-- What an action ends with where an error is raised. -/
abbrev Breaks (K : List Frame) : Fault → St → Prop := fun _ => Broken K

variable {K : List Frame}

theorem jumps_stmt (p : List Byte) :
    Triple St.log Orderly (Idle K) (note (.stmt p)) (fun _ => Idle K) (Breaks K) := by
  refine triple_note fun s _ h => ⟨h.frames, h.stop.stmt h.free, h.calm, ?_⟩
  show settle _ (pending s.log) = none
  rw [h.free, settle]

/-- At the end of a construct a jump out of it has reached its target. -/
theorem jumps_over (f : Frame) :
    Triple St.log Orderly (Left f K) (note (.behind f)) (fun _ => Sync K) (Breaks K) := by
  refine triple_note fun s _ h => ⟨h.frames, h.stop.cons nofun, ?_⟩
  show Waits K s.flags (settle (.behind f, s.frames) (pending s.log))
  rw [h.frames]
  obtain hwaits | ⟨hcalm, w, hw, ht⟩ := h.waits
  · cases hw : pending s.log with
    | none =>
        rw [hw] at hwaits
        exact hwaits
    | some w =>
        rw [hw] at hwaits
        have hfar : ¬ Arrives w (.behind f, K) := by
          intro harrives
          unfold Arrives at harrives
          split at harrives
          · exact harrives
          · exact hwaits.ne ‹_› harrives.2.symm
        rw [settle, if_neg hfar]
        exact hwaits
  · have harrives : Arrives w (.behind f, K) := by
      unfold Arrives
      rw [ht]
      exact ⟨rfl, rfl⟩
    have hidle : Idle K { s with log := [] } := ⟨h.frames, .nil, hcalm, rfl⟩
    rw [hw, settle, if_pos harrives]
    exact hidle.sync.waits

/-- A round of a loop is over: no jump is under way but a `continue` of this loop. -/
structure Turn (K : List Frame) (s : St) : Prop where
  frames : s.frames = K
  stop : JumpsStop s.log
  calm : s.flags.Calm
  next : ∀ w, pending s.log = some w → w.1 = .cnt ∧ target w.1 w.2 = some (.loop, K)

theorem jumps_again :
    Triple St.log Orderly (Turn K) (note .again) (fun _ => Idle K) (Breaks K) := by
  refine triple_note fun s _ h => ⟨h.frames, h.stop.cons nofun, h.calm, ?_⟩
  show settle (.again, s.frames) (pending s.log) = none
  rw [h.frames]
  cases hw : pending s.log with
  | none => rfl
  | some w =>
      obtain ⟨hj, ht⟩ := h.next w hw
      have harrives : Arrives w (.again, K) := by
        unfold Arrives
        rw [ht]
        exact ⟨hj, rfl⟩
      exact if_pos harrives

theorem jumps_jump (j : Jump) :
    Triple St.log Orderly (Idle K) (jump j) (fun _ => Sync K) (Breaks K) := by
  refine .bind (B := fun _ s => s.frames = K ∧ JumpsStop s.log ∧ s.flags.Calm ∧
    pending s.log = some (j, K) ∧ ∃ t, target j K = some t) (triple_note ?_) fun _ => ?_
  · intro s hP h
    refine ⟨h.frames, h.stop.cons nofun, h.calm, congrArg (fun K => some (j, K)) h.frames, ?_⟩
    rw [h.frames] at hP
    exact Option.ne_none_iff_exists'.mp hP
  · cases j with
    | brk n =>
        refine triple_modify (fun _ => rfl) fun s ⟨hframes, hstop, ⟨_, h1, h2⟩, hw, t, ht⟩ => ?_
        refine ⟨hframes, hstop, ?_⟩
        obtain ⟨m, hm⟩ : ∃ m, n.toNat = m + 1 := by
          cases hn : n.toNat with
          | zero =>
              rw [target, hn] at ht
              cases ht
          | succ m => exact ⟨m, rfl⟩
        have hflags : ({ s with brk := n } : St).flags = ⟨m + 1, 0, false⟩ :=
          congr (congr (congrArg Flags.mk (by show n = m + 1; omega)) h1) h2
        rw [hflags, hw]
        exact .brk (by rw [← hm]; exact ht) ht
    | cnt =>
        refine triple_modify (fun _ => rfl) fun s ⟨hframes, hstop, ⟨h0, _, h2⟩, hw, t, ht⟩ => ?_
        refine ⟨hframes, hstop, ?_⟩
        have hflags : ({ s with cnt := 1 } : St).flags = ⟨0, 1, false⟩ :=
          congr (congr (congrArg Flags.mk h0) rfl) h2
        rw [hflags, hw]
        exact .cnt ht ht
    | ret =>
        refine triple_modify (fun _ => rfl) fun s ⟨hframes, hstop, ⟨h0, h1, _⟩, hw, t, ht⟩ => ?_
        refine ⟨hframes, hstop, ?_⟩
        have hflags : ({ s with ret := true } : St).flags = ⟨0, 0, true⟩ :=
          congr (congr (congrArg Flags.mk h0) h1) rfl
        rw [hflags, hw]
        exact .ret ht ht

/-! ### Constructs -/

section

variable {α : Type} {x : M α}

/-- A part that starts with no jump under way, and ends with the flags that lead one. -/
def Leads (K : List Frame) (x : M α) : Prop :=
  Triple St.log Orderly (Idle K) x (fun _ => Sync K) (Breaks K)

theorem leads_within {f : Frame} (hx : Leads (f :: K) x) :
    Triple St.log Orderly (Idle K) (within f x)
      (fun _ s => s.frames = K ∧ Sync (f :: K) { s with frames := f :: K }) (Breaks K) := by
  refine triple_within fun K' => ?_
  by_cases hK : K' = K
  · subst hK
    refine hx.conseq ?_ ?_ fun e s h => h.outer
    · rintro s ⟨hframes, h⟩
      exact ⟨hframes, h.stop, h.calm, h.free⟩
    · rintro a s ⟨-, hstop, hwaits⟩
      exact ⟨rfl, rfl, hstop, hwaits⟩
  · exact hx.exfalso fun s h => hK h.2.frames

/-- Where a jump stands when the body of a loop, or of a `switch`, is over. -/
def Turned (f : Frame) (K : List Frame) (leave : Bool) (s : St) : Prop :=
  match leave with
  | true => Left f K s
  | false => Idle K s

/-- A `break` that has left one construct more. -/
theorem left_of_brk {f : Frame} {m : Nat} {n : Int} {K₀ : List Frame} {t : Frame × List Frame} {s : St}
    (hK : breakTarget (m + 1) (f :: K) = some t) (ht : target (.brk n) K₀ = some t)
    (hframes : s.frames = K) (hstop : JumpsStop s.log) (hw : pending s.log = some (.brk n, K₀))
    (hflags : s.flags = ⟨m, 0, false⟩) : Left f K s := by
  refine ⟨hframes, hstop, ?_⟩
  rw [hflags, hw]
  cases m with
  | zero =>
      have hleft : t = (f, K) := by
        cases f <;> cases hK <;> rfl
      exact .inr ⟨⟨rfl, rfl, rfl⟩, _, rfl, hleft ▸ ht⟩
  | succ m =>
      have hK' : breakTarget (m + 1) K = some t := by
        cases f with
        | loop => exact hK
        | switch => exact hK
        | guard => cases hK
        | call => cases hK
      exact .inl (.brk hK' ht)

theorem leads_round {pos : Bool} {body : M Unit} (hbody : Leads (.loop :: K) body) :
    Triple St.log Orderly (Idle K) (round pos body) (Turned .loop K) (Breaks K) := by
  refine .bind (leads_within hbody) fun _ => .bind
    (B := fun leave s => match leave with
      | true => Left .loop K s
      | false => Turn K s) (triple_afterBody ?_) fun leave => ?_
  · rintro s leave brk cnt ⟨hframes, -, hstop, hwaits⟩ hafter
    change Waits (.loop :: K) s.flags (pending s.log) at hwaits
    generalize hw : pending s.log = w at hwaits
    generalize hfl : s.flags = fl at hwaits hafter
    have hret : s.ret = fl.ret := congrArg Flags.ret hfl
    cases hwaits with
    | rest =>
        obtain ⟨rfl, ⟨h, -⟩ | ⟨-, rfl, rfl⟩⟩ := hafter (Int.le_refl 0) (Int.le_refl 0)
        · exact absurd h (Int.lt_irrefl 0)
        · refine ⟨hframes, hstop, ⟨rfl, rfl, hret⟩, fun w h => ?_⟩
          rw [show pending _ = none from hw] at h
          cases h
    | @brk m n K₀ t hK ht =>
        have h0 : (0 : Int) ≤ m + 1 := Int.natCast_nonneg (m + 1)
        obtain ⟨rfl, ⟨-, hbrk, rfl⟩ | ⟨h, -⟩⟩ := hafter h0 (Int.le_refl 0)
        · have hbrk' : brk = m := by
            dsimp only at hbrk
            omega
          exact left_of_brk hK ht hframes hstop hw (congr (congr (congrArg Flags.mk hbrk') rfl) hret)
        · dsimp only at h
          omega
    | @cnt K₀ t hK ht =>
        obtain ⟨rfl, ⟨h, -⟩ | ⟨-, rfl, rfl⟩⟩ := hafter (Int.le_refl 0) (Int.zero_le_ofNat 1)
        · exact absurd h (Int.lt_irrefl 0)
        · refine ⟨hframes, hstop, ⟨rfl, rfl, hret⟩, fun w h => ?_⟩
          rw [show pending _ = _ from hw] at h
          cases h
          obtain ⟨K', hK', rfl⟩ := loopTarget_eq hK
          cases hK'
          exact ⟨rfl, ht⟩
    | @ret K₀ t hK ht =>
        obtain ⟨rfl, ⟨h, -⟩ | ⟨-, rfl, rfl⟩⟩ := hafter (Int.le_refl 0) (Int.le_refl 0)
        · exact absurd h (Int.lt_irrefl 0)
        · refine ⟨hframes, hstop, .inl ?_⟩
          have hflags : ({ s with brk := 0, cnt := 0 } : St).flags = ⟨0, 0, true⟩ :=
            congrArg (Flags.mk 0 0) hret
          rw [hflags, show pending _ = _ from hw]
          exact .ret hK ht
  · cases leave with
    | true => exact .pure fun _ h => h
    | false => exact .bind jumps_again fun _ => .pure fun _ h => h

theorem leads_arm {body : M Unit} (hbody : Leads (.switch :: K) body) :
    Triple St.log Orderly (Idle K) (arm body) (Turned .switch K) (Breaks K) := by
  refine .bind (leads_within hbody) fun _ => .read fun u => ?_
  refine .ite (fun hb => .bind (B := fun _ => Left .switch K) (triple_modify (fun _ => rfl) ?_)
    fun _ => .pure fun _ h => h) fun hb => .pure ?_
  all_goals
    rintro s ⟨⟨hframes, -, hstop, hwaits⟩, rfl⟩
    change Waits (.switch :: K) s.flags (pending s.log) at hwaits
    generalize hw : pending s.log = w at hwaits
    generalize hfl : s.flags = fl at hwaits
    have hbrk : s.brk = fl.brk := congrArg Flags.brk hfl
    have hcnt : s.cnt = fl.cnt := congrArg Flags.cnt hfl
    have hret : s.ret = fl.ret := congrArg Flags.ret hfl
  · cases hwaits with
    | @brk m n K₀ t hK ht =>
        have hbrk' : s.brk - 1 = m := by
          dsimp only at hbrk
          omega
        exact left_of_brk hK ht hframes hstop hw (congr (congr (congrArg Flags.mk hbrk') hcnt) hret)
    | _ => exact absurd hbrk hb
  · have hb' : s.brk = 0 := not_not.mp hb
    cases hwaits with
    | rest =>
        rw [hret]
        exact ⟨hframes, hstop, ⟨hb', hcnt, hret⟩, hw⟩
    | @brk m n K₀ t hK ht =>
        dsimp only at hbrk
        omega
    | cnt hK ht => cases hK
    | @ret K₀ t hK ht =>
        rw [hret]
        refine ⟨hframes, hstop, .inl ?_⟩
        rw [hfl, hw]
        exact .ret hK ht

/-! ### Actions without statements -/

/-- An assertion of the control. -/
structure Stable (K : List Frame) (A : St → Prop) : Prop where
  same : ∀ s s', A s → SameControl s s' → A s'
  broken : ∀ s, A s → Broken K s

theorem stable_idle (K : List Frame) : Stable K (Idle K) where
  same s s' h hs := by
    refine ⟨hs.frames.trans h.frames, ?_, ?_, ?_⟩
    · rw [hs.log]; exact h.stop
    · rw [hs.flags]; exact h.calm
    · rw [hs.log]; exact h.free
  broken _ h := h.broken

theorem stable_left (f : Frame) (K : List Frame) : Stable K (Left f K) where
  same s s' h hs := by
    refine ⟨hs.frames.trans h.frames, ?_, ?_⟩
    · rw [hs.log]; exact h.stop
    · rw [hs.flags, hs.log]; exact h.waits
  broken _ h := h.broken

theorem stable_sync (K : List Frame) : Stable K (Sync K) where
  same s s' h hs := by
    refine ⟨hs.frames.trans h.frames, ?_, ?_⟩
    · rw [hs.log]; exact h.stop
    · rw [hs.flags, hs.log]; exact h.waits
  broken _ h := h.broken

/-- An action that does not touch the control. -/
theorem Stable.control {A : St → Prop} (hA : Stable K A) (hx : controlLaw.Obeys x) :
    Triple St.log Orderly A x (fun _ => A) (Breaks K) :=
  .of_obeys (stepsLaw_of_control (L := controlLaw) (fun _ _ h => h) (fun _ _ _ h => h) hx)
    (fun _ s s' h hs => hA.same s s' h hs) fun _ s s' h hs => hA.broken s' (hA.same s s' h hs)

/-- Runs without statements of their own start and end with no jump under way. -/
def idleRel : Law Fault St where
  ok s s' := ∀ K, Idle K s → Idle K s'
  err _ s s' := ∀ K, Idle K s → Broken K s'
  ok_refl _ _ h := h
  err_refl _ _ _ h := h.broken
  ok_trans h h' K hs := h' K (h K hs)
  err_trans h h' K hs := h' K (h K hs)

/-- The same for runs with orderly steps. -/
def idleLaw : Law Fault St := stepsLaw idleRel Orderly

theorem lawful_idle : Lawful idleLaw :=
  lawful_stepsLaw (fun s s' h K hs => (stable_idle K).same s s' hs h) fun _ s s' h K hs =>
    (stable_idle K).broken s' ((stable_idle K).same s s' hs h)

/-- The triple of a part that obeys the law. -/
theorem idle_of_law (hx : idleLaw.Obeys x) :
    Triple St.log Orderly (Idle K) x (fun _ => Idle K) (Breaks K) :=
  .of_obeys hx (fun _ _ _ h hok => hok K h) fun _ _ _ h herr => herr K h

/-- A part with such triples obeys the law. -/
theorem law_of_idle
    (hx : ∀ K, Triple St.log Orderly (Idle K) x (fun _ => Idle K) (Breaks K)) : idleLaw.Obeys x := by
  intro s
  obtain ⟨steps, hsteps, h⟩ := hx s.frames s
  have hK : ∀ K, Idle K s → K = s.frames := fun K h => h.frames.symm
  cases hrun : x s with
  | ok a s' =>
      rw [hrun] at hsteps h
      refine ⟨steps, hsteps, fun hP K hs => ?_⟩
      obtain rfl := hK K hs
      exact h hP hs
  | error e s' =>
      rw [hrun] at hsteps h
      refine ⟨steps, hsteps, fun hP K hs => ?_⟩
      obtain rfl := hK K hs
      exact h hP hs

/-- A part that catches its errors. -/
theorem leads_attempt (hx : Leads K x) : Leads K (attempt x) := by
  refine triple_attempt hx (fun s h => h.frames) (fun _ _ h => h) (fun _ _ _ h => h) ?_
  exact fun e s h hP => (h.caught hP).sync

theorem idleLaw_attempt (hx : idleLaw.Obeys x) : idleLaw.Obeys (attempt x) := by
  refine law_of_idle fun K => triple_attempt (idle_of_law hx) (fun s h => h.frames) (fun _ _ h => h)
    (fun _ _ _ h => h) ?_
  exact fun e s h hP => h.caught hP

/-- Jumps do not leave a `try`, `catch` or `finally`. -/
theorem idleLaw_guarded (hx : ∀ K, Leads (.guard :: K) x) : idleLaw.Obeys (within .guard x) := by
  refine law_of_idle fun K => (leads_within (hx K)).post ?_
  rintro _ s ⟨hframes, -, hstop, hwaits⟩
  obtain ⟨hcalm, hw⟩ | ⟨-, K₀, t, -, ht, -⟩ := hwaits.closed trivial
  · exact ⟨hframes, hstop, hcalm, hw⟩
  · cases ht

theorem Broken.failed {s : St} (h : Broken K s) (K' : List Frame) :
    Broken K { s with log := (.failed, K') :: s.log } := by
  refine ⟨h.stop.cons nofun, fun hcalm w hw => h.inside hcalm w ?_⟩
  change settle (.failed, K') (pending s.log) = some w at hw
  cases hp : pending s.log with
  | none =>
      rw [hp] at hw
      cases hw
  | some w' =>
      rw [hp, settle] at hw
      split at hw
      · cases hw
      · exact hw

/-- At the end of a construct that a jump has left with the flags at zero, nothing is under way. -/
theorem jumps_over_calm (f : Frame) :
    Triple St.log Orderly (fun s => Left f K s ∧ s.flags.Calm) (note (.behind f)) (fun _ => Idle K)
      (Breaks K) := by
  refine (((jumps_over f).pre fun s h => h.1).also (Q := fun _ s => s.flags.Calm) ?_).post ?_
  · rintro s _ s' ⟨-, hcalm⟩ hrun
    cases hrun
    exact hcalm
  · exact fun _ s h => h.1.idle h.2

/-- A `return` ends with the call, and nothing else leaves it. -/
theorem idleLaw_calling {after : Except NError α → M Unit} (hx : ∀ K, Leads (.call :: K) x)
    (hafter : ∀ r, controlLaw.Obeys (after r)) : idleLaw.Obeys (calling x after) := by
  refine law_of_idle fun K => .bind (leads_within (leads_attempt (hx K))) fun r => ?_
  let Called (s : St) : Prop := s.frames = K ∧ Sync (.call :: K) { s with frames := .call :: K }
  have hcalled : Stable K Called := by
    constructor
    · rintro s s' ⟨hframes, h⟩ hs
      exact ⟨hs.frames.trans hframes, (stable_sync _).same _ _ h ⟨rfl, hs.log, hs.flags⟩⟩
    · rintro s ⟨hframes, h⟩
      have hbroken := h.broken.outer
      exact ⟨hbroken.stop, hbroken.inside⟩
  refine .bind (B := fun _ => Called) ?_ fun _ =>
    .bind (B := fun _ s => Left .call K s ∧ s.flags.Calm) ?_ fun _ =>
      .bind (jumps_over_calm .call) fun _ => .pure fun _ h => h
  · refine triple_ending (hcalled.control (hafter r)) ?_ fun _ _ h _ => h
    exact fun _ s K' h _ _ => h.failed K'
  · refine triple_modify (fun _ => rfl) ?_
    rintro s ⟨hframes, -, hstop, hwaits⟩
    obtain ⟨⟨h0, h1, -⟩, hw⟩ | ⟨hflags, K₀, t, hw, ht, ht'⟩ := hwaits.closed trivial
    · have hidle : Idle K { s with ret := false } := ⟨hframes, hstop, ⟨h0, h1, rfl⟩, hw⟩
      exact ⟨hidle.sync.left, hidle.calm⟩
    · have h0 : s.brk = 0 := congrArg Flags.brk hflags
      have h1 : s.cnt = 0 := congrArg Flags.cnt hflags
      cases ht
      exact ⟨⟨hframes, hstop, .inr ⟨⟨h0, h1, rfl⟩, _, hw, ht'⟩⟩, h0, h1, rfl⟩

end

end NullG.Nsp
