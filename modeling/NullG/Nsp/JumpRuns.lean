/-
Statements and calls of a run, and the jumps that are under way in it.

Each function of `block.c` and `exec.c` starts with no jump under way and ends with flags that lead
one (`Leads`); expressions, calls and `try` end with none (`idleLaw`). The body of a loop or of an
`if` is a block or a single statement, and there `nsp_exec` tests the flags (`Runs`).
-/

import NullG.Nsp.Jumps
import NullG.Nsp.Walk

namespace NullG.Nsp

open NullG.Lib

/-! ### Bodies -/

/-- The part of the stream at `p` starts with a brace. -/
def Braced (p : List Byte) : Prop := ∃ q, nSkipWs p = .ok q ∧ deref q = .ok opPobrace

theorem nSkipWs_suffix {p q : List Byte} (h : nSkipWs p = .ok q) : q <:+ p := by
  have go : ∀ {fuel : Nat} {p : List Byte}, skipWs fuel p = .ok q → q <:+ p := by
    intro fuel
    induction fuel with
    | zero => intro p h; cases h
    | succ fuel ih =>
        intro p h
        obtain ⟨b, hb, h⟩ := bind_eq_ok.mp h
        split at h
        · exact (ih h).trans (List.drop_suffix 5 p)
        · cases h
          exact List.suffix_rfl
  exact go h

theorem ofExcept_ok {α : Type} {x : Except Fault α} {a : α} {s s' : St}
    (h : ofExcept x s = .ok a s') : x = .ok a ∧ s' = s := by
  cases x with
  | ok b =>
      cases h
      exact ⟨rfl, rfl⟩
  | error e => cases e <;> cases h

/-- Where `n_peekop` ends: at the op that it returns. -/
theorem peekop_ok {s s' : St} {op : Byte} (h : peekop s = .ok op s') :
    nSkipWs s.readptr = .ok s'.readptr ∧ deref s'.readptr = .ok op := by
  obtain ⟨_, t, hskip, hcur⟩ := bind_run_ok h
  have ht : nSkipWs s.readptr = .ok t.readptr := by
    obtain ⟨q, u, hq, hrest⟩ := bind_run_ok (x := ofExcept (nSkipWs s.readptr)) hskip
    obtain ⟨hq, rfl⟩ := ofExcept_ok hq
    by_cases hlen : q.length < u.readptr.length
    · rw [if_pos hlen] at hrest
      obtain ⟨line, v, hline, hset⟩ := bind_run_ok (x := ofExcept (readi4 _)) hrest
      obtain ⟨-, rfl⟩ := ofExcept_ok hline
      cases hset
      exact hq
    · rw [if_neg hlen] at hrest
      cases hrest
      rw [hq, (nSkipWs_suffix hq).eq_of_length_le (Nat.le_of_not_lt hlen)]
  obtain ⟨hop, rfl⟩ := ofExcept_ok (x := deref t.readptr) hcur
  exact ⟨ht, hop⟩

theorem Braced.of_peek {p q : List Byte} (hp : nSkipWs p = .ok q) (hq : deref q = .ok opPobrace) :
    Braced p ∧ Braced q := by
  refine ⟨⟨q, hp, hq⟩, q, ?_, hq⟩
  cases q with
  | nil => cases hq
  | cons b q =>
      cases hq
      exact nSkipWs_ne (by decide)

variable {K : List Frame} {A : St → Prop}

/-- An error that is raised. -/
theorem Stable.raise (hA : Stable K A) {α : Type} {err : Int} {located : Bool} {text : List Byte}
    {B : α → St → Prop} : Triple St.log Orderly A (nErr err located text : M α) B (Breaks K) :=
  fun s => ⟨[], rfl, fun _ h => hA.broken _ (hA.same s _ h ⟨rfl, rfl, rfl⟩)⟩

/-- `n_peekop`, where it matters whether it finds a brace. -/
theorem Stable.peekop (hA : Stable K A) (p : List Byte) :
    Triple St.log Orderly (fun s => A s ∧ s.readptr = p) peekop
      (fun op s => A s ∧ (op = opPobrace → Braced p ∧ Braced s.readptr)) (Breaks K) := by
  refine Triple.also (Triple.pre (A := fun s => A s ∧ s.readptr = p)
    (hA.control lawful_control.peekop) fun _ h => h.1) ?_
  rintro s op s' ⟨-, rfl⟩ hrun hop
  obtain ⟨hws, hderef⟩ := peekop_ok hrun
  exact Braced.of_peek hws (hop ▸ hderef)

/-- The same, where it does not matter where `n_peekop` started. -/
theorem Stable.peekop_braced (hA : Stable K A) :
    Triple St.log Orderly A Nsp.peekop
      (fun op s => A s ∧ (op = opPobrace → Braced s.readptr)) (Breaks K) := by
  refine Triple.also (hA.control lawful_control.peekop) fun s op s' _ hrun hop => ?_
  obtain ⟨hws, hderef⟩ := peekop_ok hrun
  exact (Braced.of_peek hws (hop ▸ hderef)).2

/-- `readptr`, which is read without a change. -/
theorem jumps_here :
    Triple St.log Orderly A here (fun p s => A s ∧ s.readptr = p) (Breaks K) :=
  .read fun _ => .pure fun _ h => ⟨h.1, congrArg St.readptr h.2⟩

/-! ### Statements -/

/-- `nsp_exec`, where it is given a body of its own: a block, or a single statement, or what no
loop or `switch` is around. -/
def Runs (k : Calls) : Prop := ∀ K p, Triple St.log Orderly
  (fun s => Idle K s ∧ (Closed K ∨ s.single = true ∨ Braced p)) (k.exec p) (fun _ => Sync K) (Breaks K)

variable {k : Calls} (hgrows : k.Obeys flagsLaw) (hgrows' : ∀ p, flagsLaw.Obeys (k.exec p))
  (hk : k.Obeys idleLaw) (hexec : Runs k)

theorem leads_leaveBody (last be : List Byte) (single : Bool) :
    Triple St.log Orderly (Left .loop K) (leaveBody last be single) (fun _ => Sync K) (Breaks K) :=
  .bind (jumps_over .loop) fun _ => (stable_sync K).control (lawful_control.goto _)

/-- An action that does not touch the control, when no jump is under way. -/
theorem idle_control {α : Type} {x : M α} (hx : controlLaw.Obeys x) :
    Triple St.log Orderly (Idle K) x (fun _ => Idle K) (Breaks K) := (stable_idle K).control hx

/-- The same behind a statement. -/
theorem sync_control {α : Type} {x : M α} (hx : controlLaw.Obeys x) :
    Triple St.log Orderly (Sync K) x (fun _ => Sync K) (Breaks K) := (stable_sync K).control hx

theorem jumps_setSingle (b : Bool) : Triple St.log Orderly (Idle K) (setSingle b)
    (fun _ s => Idle K s ∧ s.single = b) (Breaks K) :=
  ((idle_control (lawful_control.setSingle b)).also (Q := fun _ s => s.single = b) fun s _ s' _ hrun => by
    cases hrun
    rfl)

theorem heap_ok_single {α : Type} {x : H α} {s s' : St} {a : α} (h : heap x s = .ok a s') :
    s'.single = s.single := by
  rw [heap_run] at h
  cases hrun : x.run s.store with
  | ok b t =>
      rw [hrun] at h
      cases h
      rfl
  | error e t =>
      rw [hrun] at h
      cases e <;> cases h

theorem jumps_heap_single {α : Type} (x : H α) {b : Bool} :
    Triple St.log Orderly (fun s => Idle K s ∧ s.single = b) (heap x)
      (fun _ s => Idle K s ∧ s.single = b) (Breaks K) := by
  refine Triple.also (Triple.pre (A := fun s => Idle K s ∧ s.single = b)
    (idle_control (lawful_control.heap x)) fun _ h => h.1) ?_
  exact fun s a s' h hrun => (heap_ok_single hrun).trans h.2

include hexec in
theorem leads_runBody {bs : List Byte} {single : Bool} (h : single = true ∨ Braced bs) :
    Leads K (runBody k bs single) := by
  refine .bind (idle_control (lawful_control.goto bs)) fun _ => .bind (jumps_setSingle single) fun _ => ?_
  exact (hexec K bs).pre fun s hs => ⟨hs.1, .inr (h.imp_left hs.2.trans)⟩

/-- A fact that the state showed before. Without it, the run still only adds steps. -/
theorem triple_assume {α : Type} {x : M α} {p : Prop} {B : α → St → Prop} {E : Fault → St → Prop}
    (hgrows : flagsLaw.Obeys x) (hx : p → Triple St.log Orderly A x B E) :
    Triple St.log Orderly (fun s => A s ∧ p) x B E := by
  by_cases hp : p
  · exact (hx hp).pre fun s h => h.1
  · intro s
    have hno : ¬ (A s ∧ p) := fun h => hp h.2
    have h := hgrows s
    cases hrun : x s with
    | ok a s' =>
        obtain ⟨steps, hsteps, -⟩ := h.of_ok hrun
        exact ⟨steps, hsteps, fun _ hs => absurd hs hno⟩
    | error e s' =>
        obtain ⟨steps, hsteps, -⟩ := h.of_error hrun
        exact ⟨steps, hsteps, fun _ hs => absurd hs hno⟩

/-- The extent of a body that starts at `bs`. -/
theorem jumps_extent (bs : List Byte) :
    Triple St.log Orderly (fun s => Idle K s ∧ s.readptr = bs) extent
      (fun r s => Idle K s ∧ (r.2.2 = true ∨ Braced bs)) (Breaks K) := by
  have hrest : ∀ single : Bool, Triple St.log Orderly
      (fun s => Idle K s ∧ (single = true ∨ Braced bs)) (do
        let last ← here
        skip 1
        return (last, ← here, single))
      (fun r s => Idle K s ∧ (r.2.2 = true ∨ Braced bs)) (Breaks K) := fun single =>
    .bind ((idle_control Lawful.here).keep _) fun last =>
      .bind ((idle_control (lawful_control.skip 1)).keep _) fun _ =>
        .bind ((idle_control Lawful.here).keep _) fun be => .pure fun _ h => h
  refine .bind ((stable_idle K).peekop bs) fun op => .ite (fun hop => ?_) fun hop => ?_
  · refine .bind (B := fun _ s => Idle K s ∧ (false = true ∨ Braced bs)) ?_ fun _ => ?_
    · exact ((idle_control (lawful_control.seek false)).keep _).pre fun s h => ⟨h.1, .inr (h.2 hop).1⟩
    · exact .bind ((idle_control (lawful_control.skipto _)).keep _) fun _ =>
        .bind (.pure fun _ h => h) hrest
  · refine .bind (B := fun _ s => Idle K s ∧ (true = true ∨ Braced bs)) ?_ fun _ => ?_
    · exact ((idle_control (lawful_control.skipto _)).keep _).pre fun s h => ⟨h.1, .inl rfl⟩
    · exact .bind (.pure fun _ h => h) hrest

/-! ### Loops -/

section

include hk hexec

theorem leads_forLoop {argcomp argexec bs : List Byte} {single : Bool} (h : single = true ∨ Braced bs)
    (n : Nat) : Triple St.log Orderly (Idle K) (forLoop k argcomp argexec bs single n)
      (fun _ => Left .loop K) (Breaks K) := by
  induction n with
  | zero => exact .throw fun _ h => h.broken
  | succ n ih =>
      have hrest : ∀ go : Bool, Triple St.log Orderly (Idle K) (do
          if go then
            let leave ← round false (runBody k bs single)
            if !leave then
              goto argexec
              let _ ← readvar k (← locals) none
              forLoop k argcomp argexec bs single n) (fun _ => Left .loop K) (Breaks K) := by
        intro go
        refine .ite (fun _ => .bind (leads_round (leads_runBody hexec h)) fun leave => ?_) fun _ =>
          .pure fun _ h => h.sync.left
        cases leave with
        | true => exact .pure fun _ h => h
        | false =>
            refine .bind (idle_control (lawful_control.goto _)) fun _ => .bind (idle_control Lawful.locals)
              fun l => ?_
            exact .bind (idle_of_law (lawful_idle.readvar hk _ _)) fun _ => ih
      refine .bind (idle_control (lawful_control.ofExcept _)) fun op => .ite (fun _ => ?_) fun _ =>
        .bind (.pure fun _ h => h) hrest
      refine .bind (idle_of_law (hk.eval _)) fun _ => .bind (idle_control (lawful_control.expect _ _)) fun _ =>
        .bind (idle_control (lawful_control.skip 1)) fun _ => ?_
      exact .bind (idle_control (lawful_control.heap _)) fun q => .bind (.pure fun _ h => h) hrest

omit hk in
theorem leads_foreachBody {tobj : ObjId} {first : Option ObjId} {valp bs : List Byte} {single : Bool}
    {iobj : ObjId} (h : single = true ∨ Braced bs) :
    Leads K (foreachBody k tobj first valp bs single iobj) := by
  refine .bind (idle_control (lawful_control.goto bs)) fun _ => .bind (jumps_setSingle single) fun _ =>
    .bind (jumps_heap_single _) fun xobj => .bind ((hexec K bs).pre ?_) fun _ => ?_
  · exact fun s hs => ⟨hs.1, .inr (h.imp_left hs.2.trans)⟩
  · refine .bind (sync_control (lawful_control.heap _)) fun type =>
      .bind (sync_control (lawful_control.refuse _ _)) fun _ => sync_control (lawful_control.heap _)

omit hk in
theorem leads_foreachLoop {tobj : ObjId} {first : Option ObjId} {namep : Option (List Byte)}
    {valp bs : List Byte} {single : Bool} (h : single = true ∨ Braced bs) (n : Nat)
    (iobj : Option ObjId) :
    Triple St.log Orderly (Idle K) (foreachLoop k tobj first namep valp bs single n iobj)
      (fun _ => Left .loop K) (Breaks K) := by
  induction n generalizing iobj with
  | zero => exact .throw fun _ h => h.broken
  | succ n ih =>
      cases iobj with
      | none => exact .pure fun _ h => h.sync.left
      | some iobj =>
          have hrest : ∀ leave : Bool, Triple St.log Orderly (Turned .loop K leave) (do
              if !leave then
                foreachLoop k tobj first namep valp bs single n (← heap (getObj iobj)).next)
              (fun _ => Left .loop K) (Breaks K) := by
            intro leave
            cases leave with
            | true => exact .pure fun _ h => h
            | false => exact .bind (idle_control (lawful_control.heap _)) fun x => ih _
          refine .bind (idle_control (lawful_control.heap _)) fun pass => .ite (fun _ => ?_) fun _ => ?_
          · exact .bind (B := fun leave => Turned .loop K leave) (.pure fun _ h => h) hrest
          · refine .bind (idle_control (lawful_control.heap _)) fun _ => ?_
            exact .bind (leads_round (leads_foreachBody hexec h)) hrest

theorem leads_doLoop {bs be : List Byte} {single : Bool} (h : single = true ∨ Braced bs) (n : Nat) :
    Triple St.log Orderly (Idle K) (doLoop k bs be single n) (fun _ => Left .loop K) (Breaks K) := by
  induction n with
  | zero => exact .throw fun _ h => h.broken
  | succ n ih =>
      refine .bind (leads_round (leads_runBody hexec h)) fun leave => ?_
      cases leave with
      | true => exact .pure fun _ h => h
      | false =>
          refine .bind (idle_control (lawful_control.goto _)) fun _ =>
            .bind (idle_control (lawful_control.expect _ _)) fun _ =>
            .bind (idle_control (lawful_control.skip 1)) fun _ =>
            .bind (idle_control (lawful_control.expect _ _)) fun _ =>
            .bind (idle_control (lawful_control.seek _)) fun _ => .bind (idle_control Lawful.here) fun _ =>
            .bind (idle_of_law (hk.eval _)) fun _ =>
            .bind (idle_control (lawful_control.expect _ _)) fun _ =>
            .bind (idle_control (lawful_control.heap _)) fun q => ?_
          exact .ite (fun _ => ih) fun _ => .pure fun _ h => h.sync.left

theorem leads_whileLoop {argcomp bs : List Byte} {single : Bool} (h : single = true ∨ Braced bs)
    (n : Nat) : Triple St.log Orderly (Idle K) (whileLoop k argcomp bs single n)
      (fun _ => Left .loop K) (Breaks K) := by
  induction n with
  | zero => exact .throw fun _ h => h.broken
  | succ n ih =>
      refine .bind (idle_of_law (hk.eval _)) fun _ => .bind (idle_control (lawful_control.expect _ _)) fun _ =>
        .bind (idle_control (lawful_control.skip 1)) fun _ =>
        .bind (idle_control (lawful_control.heap _)) fun q => .ite (fun _ => ?_) fun _ =>
          .pure fun _ h => h.sync.left
      refine .bind (leads_round (leads_runBody hexec h)) fun leave => ?_
      cases leave with
      | true => exact .pure fun _ h => h
      | false => exact ih

include hgrows hgrows'

theorem leads_nFor : Leads K (nFor k) := by
  refine .bind (idle_control (lawful_control.expect _ _)) fun _ =>
    .bind (idle_control (lawful_control.seek false)) fun _ => .bind (idle_control Lawful.here) fun arginit =>
    .bind (idle_control (lawful_control.skipto _)) fun _ => .bind (idle_control (lawful_control.skip 1)) fun _ =>
    .bind (idle_control Lawful.here) fun argcomp => .bind (idle_control (lawful_control.skipto _)) fun _ =>
    .bind (idle_control (lawful_control.skip 1)) fun _ => .bind (idle_control Lawful.here) fun argexec =>
    .bind (idle_control (lawful_control.skipto _)) fun _ => .bind (idle_control (lawful_control.skip 1)) fun _ =>
    .bind jumps_here fun bs => ?_
  have hrest : ∀ single : Bool, Triple St.log Orderly
      (fun s => Idle K s ∧ (single = true ∨ Braced bs)) (do
        let last ← here
        skip 1
        let be ← here
        goto arginit
        let _ ← readvar k (← locals) none
        forLoop k argcomp argexec bs single k.fuel
        leaveBody last be single) (fun _ => Sync K) (Breaks K) := by
    intro single
    refine .bind ((idle_control Lawful.here).keep _) fun last =>
      .bind ((idle_control (lawful_control.skip 1)).keep _) fun _ =>
      .bind ((idle_control Lawful.here).keep _) fun be =>
      .bind ((idle_control (lawful_control.goto _)).keep _) fun _ =>
      .bind ((idle_control Lawful.locals).keep _) fun l =>
      .bind ((idle_of_law (lawful_idle.readvar hk _ _)).keep _) fun _ => ?_
    refine .bind (triple_assume (flagsLaw_governs.forLoop hgrows hgrows' _ _ _ _ _) fun h =>
      leads_forLoop hk hexec h _) fun _ => leads_leaveBody _ _ _
  refine .bind ((stable_idle K).peekop bs) fun op => .ite (fun hop => ?_) fun hop => ?_
  · refine .bind (B := fun _ s => Idle K s ∧ (false = true ∨ Braced bs)) ?_ fun p => ?_
    · exact ((idle_control Lawful.here).keep _).pre fun s h => ⟨h.1, .inr (h.2 hop).1⟩
    · refine .bind ((idle_control (lawful_control.ofExcept _)).keep _) fun n =>
        .bind ((idle_control (lawful_control.ofExcept _)).keep _) fun q =>
        .bind ((idle_control (lawful_control.goto _)).keep _) fun _ => ?_
      exact .bind ((idle_control (lawful_control.expect _ _)).keep _) fun _ =>
        .bind (.pure fun _ h => h) hrest
  · refine .bind (B := fun _ s => Idle K s ∧ (true = true ∨ Braced bs)) ?_ fun _ => ?_
    · exact ((idle_control (lawful_control.skipto _)).keep _).pre fun s h => ⟨h.1, .inl rfl⟩
    · exact .bind (.pure fun _ h => h) hrest

omit hgrows in
theorem leads_nForeach : Leads K (nForeach k) := by
  refine .bind (idle_control (lawful_control.expect _ _)) fun _ =>
    .bind (idle_control (lawful_control.seek _)) fun _ =>
    .bind (idle_control (lawful_control.expect _ _)) fun _ =>
    .bind (idle_control lawful_control.foreachVars) fun vars =>
    .bind (idle_control (lawful_control.expect _ _)) fun _ =>
    .bind (idle_control lawful_control.getlabel) fun name => ?_
  refine .ite (fun _ => .bind (idle_control (lawful_control.raise _ _ _)) fun _ => ?_) fun _ => ?_
  all_goals
    refine .bind (idle_control Lawful.here) fun _ => .bind (idle_of_law (hk.eval _)) fun _ =>
      .bind (idle_control (lawful_control.heap _)) fun _ =>
      .bind (idle_control (lawful_control.refuse _ _)) fun _ =>
      .bind (idle_control (lawful_control.heap _)) fun tobj =>
      .bind (idle_control (lawful_control.heap _)) fun _ =>
      .bind (idle_control (lawful_control.heap _)) fun first =>
      .bind (idle_control (lawful_control.expect _ _)) fun _ =>
      .bind (idle_control (lawful_control.skip 1)) fun _ =>
      .bind jumps_here fun bs => .bind (jumps_extent bs) fun r => ?_
    refine .bind (triple_assume (flagsLaw_governs.foreachLoop hgrows' _ _ _ _ _ _ _ _) fun h =>
      leads_foreachLoop hexec h _ _) fun _ => ?_
    exact .bind ((stable_left .loop K).control (lawful_control.heap _)) fun _ => leads_leaveBody _ _ _

theorem leads_nDo : Leads K (nDo k) := by
  refine .bind jumps_here fun bs => .bind (jumps_extent bs) fun (last, be, single) => ?_
  refine .bind (triple_assume (flagsLaw_governs.doLoop hgrows hgrows' _ _ _ _) fun h =>
    leads_doLoop hk hexec h _) fun _ => ?_
  have hleft := stable_left .loop K
  refine .bind (hleft.control (lawful_control.goto _)) fun _ =>
    .bind (hleft.control (lawful_control.expect _ _)) fun _ =>
    .bind (hleft.control (lawful_control.skipto _)) fun _ =>
    .bind (hleft.control (lawful_control.expect _ _)) fun _ =>
    .bind (hleft.control Lawful.here) fun p => leads_leaveBody _ _ _

theorem leads_nWhile : Leads K (nWhile k) := by
  refine .bind (idle_control (lawful_control.expect _ _)) fun _ =>
    .bind (idle_control (lawful_control.seek _)) fun _ => .bind (idle_control Lawful.here) fun argcomp =>
    .bind (idle_control (lawful_control.skipto _)) fun _ => .bind (idle_control (lawful_control.skip 1)) fun _ =>
    .bind jumps_here fun bs => .bind (jumps_extent bs) fun (last, be, single) => ?_
  exact .bind (triple_assume (flagsLaw_governs.whileLoop hgrows hgrows' _ _ _ _) fun h =>
    leads_whileLoop hk hexec h _) fun _ => leads_leaveBody _ _ _

end

/-! ### `if` and `switch` -/

theorem control_skipBranch : controlLaw.Obeys (ifBranch k false) := by
  refine .bind lawful_control.peekop fun _ => .ite ?_ ?_
  · refine .bind Lawful.here fun p => .bind (lawful_control.ofExcept _) fun n =>
      .bind (lawful_control.ofExcept _) fun be => ?_
    exact .bind (lawful_control.goto _) fun _ => .bind (lawful_control.expect _ _) fun _ =>
      lawful_control.skip 1
  · exact .bind (lawful_control.skipto _) fun _ => lawful_control.accept _

theorem control_passCondition (t : Bool) : controlLaw.Obeys (ifCondition k t true) := by
  refine .bind lawful_control.peekop fun _ => .ite ?_ (.pure _)
  refine .bind Lawful.here fun p => .bind (lawful_control.ofExcept _) fun n =>
    .bind (lawful_control.seek false) fun _ => .bind (.pure _) fun t => ?_
  exact .bind (lawful_control.goto _) fun _ => .bind (lawful_control.expect _ _) fun _ =>
    .bind (lawful_control.skip 1) fun _ => .pure _

/-- Behind the branch that was run, the others are passed. -/
theorem control_ifDone (n : Nat) (cond t : Bool) : controlLaw.Obeys (ifFrom k n cond t true) := by
  induction n generalizing cond t with
  | zero => exact .throw _
  | succ n ih =>
      have hrest : ∀ t : Bool, controlLaw.Obeys (do
          let run := t && !true
          ifBranch k run
          let s ← get
          if s.ret then return
          if (← peekop) = opKelse then
            skip 1
            if (← peekop) = opKif then
              skip 1
              ifFrom k n true t (true || run)
            else ifFrom k n false true (true || run)) := by
        intro t
        simp only [Bool.not_true, Bool.and_false, Bool.true_or]
        refine .bind control_skipBranch fun _ => .read fun s => .ite (.pure _) ?_
        refine .bind lawful_control.peekop fun _ => .ite ?_ (.pure _)
        refine .bind (lawful_control.skip 1) fun _ => .bind lawful_control.peekop fun _ => ?_
        exact .ite (.bind (lawful_control.skip 1) fun _ => ih _ _) (ih _ _)
      exact .ite (.bind (control_passCondition t) hrest) (.bind (.pure _) hrest)

/-- A `continue` has no target in a `switch`, so only the flags that are tested can be set. -/
theorem Sync.idle_switch {s : St} (h : Sync (.switch :: K) s) (hbrk : s.brk = 0) (hret : s.ret = false) :
    Idle (.switch :: K) s := by
  refine h.idle ?_
  have hwaits := h.waits
  generalize pending s.log = w at hwaits
  generalize hfl : s.flags = fl at hwaits
  have hb : fl.brk = 0 := (congrArg Flags.brk hfl).symm.trans hbrk
  have hr : fl.ret = false := (congrArg Flags.ret hfl).symm.trans hret
  cases hwaits with
  | rest => exact ⟨rfl, rfl, rfl⟩
  | brk => dsimp only at hb; omega
  | cnt hK => cases hK
  | ret => cases hr

section

include hexec

theorem leads_ifBranch : Leads K (ifBranch k true) := by
  refine .bind (stable_idle K).peekop_braced fun op => .ite (fun hop => ?_) fun hop => ?_
  · refine .bind (B := fun p s => Idle K s ∧ Braced p) ?_ fun p => ?_
    · exact jumps_here.post fun p s h => ⟨h.1.1, h.2 ▸ h.1.2 hop⟩
    · refine .bind ((idle_control (lawful_control.ofExcept _)).keep _) fun n =>
        .bind ((idle_control (lawful_control.ofExcept _)).keep _) fun be =>
        .ite (fun _ => .bind ((hexec K p).pre fun s h => ⟨h.1, .inr (.inr h.2)⟩) fun _ => ?_)
          fun h => absurd rfl h
      exact .bind (sync_control (lawful_control.goto _)) fun _ =>
        .bind (sync_control (lawful_control.expect _ _)) fun _ => sync_control (lawful_control.skip 1)
  · refine .ite (fun _ => .bind ((jumps_setSingle true).pre fun s h => h.1) fun _ =>
      .bind (B := fun _ s => Idle K s ∧ s.single = true) ?_ fun p => ?_) fun h => absurd rfl h
    · exact jumps_here.post fun p s h => h.1
    · refine .bind ((hexec K p).pre fun s h => ⟨h.1, .inr (.inl h.2)⟩) fun _ => ?_
      exact sync_control (lawful_control.accept _)

include hk

theorem leads_ifFrom (n : Nat) (cond t done : Bool) : Leads K (ifFrom k n cond t done) := by
  induction n generalizing cond t done with
  | zero => exact .throw fun _ h => h.broken
  | succ n ih =>
      cases done with
      | true => exact (idle_control (control_ifDone _ _ _)).post fun _ s h => h.sync
      | false =>
          have hrest : ∀ t : Bool, Leads K (do
              let run := t && !false
              ifBranch k run
              let s ← get
              if s.ret then return
              if (← peekop) = opKelse then
                skip 1
                if (← peekop) = opKif then
                  skip 1
                  ifFrom k n true t (false || run)
                else ifFrom k n false true (false || run)) := by
            intro t
            cases t with
            | true =>
                refine .bind (leads_ifBranch hexec) fun _ => .read fun s => .ite (fun _ => .pure fun _ h => h.1)
                  fun _ => .bind ((sync_control lawful_control.peekop).pre fun _ h => h.1) fun _ =>
                  .ite (fun _ => ?_) fun _ => .pure fun _ h => h
                refine .bind (sync_control (lawful_control.skip 1)) fun _ =>
                  .bind (sync_control lawful_control.peekop) fun _ => .ite (fun _ => ?_) fun _ => ?_
                · exact .bind (sync_control (lawful_control.skip 1)) fun _ => sync_control (control_ifDone _ _ _)
                · exact sync_control (control_ifDone _ _ _)
            | false =>
                refine .bind (idle_control control_skipBranch) fun _ => .read fun s =>
                  .ite (fun _ => .pure fun _ h => h.1.sync)
                  fun _ => .bind ((idle_control lawful_control.peekop).pre fun _ h => h.1) fun _ =>
                  .ite (fun _ => ?_) fun _ => .pure fun _ h => h.sync
                refine .bind (idle_control (lawful_control.skip 1)) fun _ =>
                  .bind (idle_control lawful_control.peekop) fun _ => .ite (fun _ => ?_) fun _ => ih _ _ _
                exact .bind (idle_control (lawful_control.skip 1)) fun _ => ih _ _ _
          exact .ite (fun _ => .bind (idle_of_law (lawful_idle.ifCondition hk _ _)) hrest) fun _ =>
            .bind (.pure fun _ h => h) hrest

omit hk

theorem leads_caseLoop (stop : Byte → Bool) (n : Nat) : Leads (.switch :: K) (caseLoop k stop n) := by
  induction n with
  | zero => exact .throw fun _ h => h.broken
  | succ n ih =>
      refine .bind (idle_control lawful_control.cur) fun _ => .ite (fun _ => .pure fun _ h => h.sync) fun _ => ?_
      refine .bind (jumps_setSingle true) fun _ =>
        .bind (B := fun _ s => Idle (.switch :: K) s ∧ s.single = true) ?_ fun p => ?_
      · exact jumps_here.post fun p s h => h.1
      · refine .bind ((hexec _ p).pre fun s h => ⟨h.1, .inr (.inl h.2)⟩) fun _ => .read fun t =>
          .ite (fun _ => .pure fun _ h => h.1) fun hgo => ih.pre ?_
        rintro s ⟨h, rfl⟩
        rw [not_or, not_not] at hgo
        exact h.idle_switch hgo.1 (Bool.eq_false_iff.mpr hgo.2)

theorem leads_switchLoop (tobj : ObjId) (n : Nat) (found : Bool) :
    Triple St.log Orderly (Idle K) (switchLoop k tobj n found) (fun _ => Left .switch K) (Breaks K) := by
  induction n generalizing found with
  | zero => exact .throw fun _ h => h.broken
  | succ n ih =>
      have hturn : ∀ found leave : Bool, Triple St.log Orderly (Turned .switch K leave)
          (if !leave then switchLoop k tobj n found else pure ()) (fun _ => Left .switch K) (Breaks K) := by
        intro found leave
        cases leave with
        | true => exact .pure fun _ h => h
        | false => exact ih found
      refine .bind (idle_control lawful_control.cur) fun op => .ite (fun _ => .pure fun _ h => h.sync.left)
        fun _ => .ite (fun _ => ?_) fun _ => .ite (fun _ => ?_) fun _ => ?_
      · refine .bind (idle_control (lawful_control.skip 1)) fun _ =>
          .bind (idle_control (lawful_control.caseMatches _)) fun hit =>
          .bind (idle_control (lawful_control.expect _ _)) fun _ =>
          .bind (idle_control (lawful_control.skip 1)) fun _ => .ite (fun _ => ?_) fun _ => ?_
        · exact .bind (idle_control Lawful.here) fun _ =>
            .bind (idle_control (lawful_control.skipCase _)) fun _ => ih _
        · exact .bind (leads_arm (leads_caseLoop hexec _ _)) (hturn _)
      · exact .bind (idle_control (lawful_control.skip 1)) fun _ =>
          .bind (idle_control (lawful_control.expect _ _)) fun _ =>
          .bind (idle_control (lawful_control.skip 1)) fun _ =>
          .bind (leads_arm (leads_caseLoop hexec _ _)) (hturn _)
      · exact (idle_control (lawful_control.expect _ _)).post fun _ s h => h.sync.left

include hk

theorem leads_nSwitch : Leads K (nSwitch k) := by
  refine .bind (idle_control (lawful_control.expect _ _)) fun _ =>
    .bind (idle_control (lawful_control.seek _)) fun _ =>
    .bind (idle_control (lawful_control.heap _)) fun tobj => .bind (idle_control Lawful.here) fun _ =>
    .bind (idle_of_law (hk.eval _)) fun _ => .bind (idle_control (lawful_control.heap _)) fun _ =>
    .bind (idle_control (lawful_control.expect _ _)) fun _ =>
    .bind (idle_control (lawful_control.skip 1)) fun _ =>
    .bind (idle_control (lawful_control.expect _ _)) fun _ =>
    .bind (idle_control (lawful_control.seek _)) fun _ => .bind (idle_control Lawful.here) fun bs =>
    .bind (idle_control (lawful_control.skipto _)) fun _ =>
    .bind (idle_control (lawful_control.skip 1)) fun _ => .bind (idle_control Lawful.here) fun be =>
    .bind (idle_control (lawful_control.goto _)) fun _ => ?_
  exact .bind (leads_switchLoop hexec _ _ _) fun _ => .bind (jumps_over .switch) fun _ =>
    .bind (sync_control (lawful_control.goto _)) fun _ => sync_control (lawful_control.heap _)

end

/-! ### Calls -/

variable {env : Env}

theorem leads_runText {name : String} {run : List Byte → M Unit} (hrun : ∀ p, Leads K (run p)) :
    Leads K (runText name run) := by
  refine .bind (idle_control Lawful.locals) fun l => .bind (idle_control (lawful_control.heap _)) fun fname =>
    .bind (idle_control (lawful_control.refuse _ _)) fun _ =>
    .bind (idle_control (lawful_control.heap _)) fun cobj1 =>
    .bind (idle_control (lawful_control.heap _)) fun y => ?_
  refine .ite (fun _ => .bind (idle_control (lawful_control.ofExcept _)) fun str => ?_) fun _ =>
    .bind (.pure (B := fun _ => Idle K) fun _ h => h) fun str => ?_
  all_goals
    cases str with
    | none => exact (idle_control (lawful_control.heap _)).post fun _ s h => h.sync
    | some str =>
        refine .bind (idle_control Lawful.here) fun p => .bind (idle_control (lawful_control.decompose _ _))
          fun q => .bind (idle_control (lawful_control.goto _)) fun _ => ?_
        exact .bind (leads_attempt (hrun _)) fun _ => sync_control (lawful_control.goto _)

/-- A statement is over, and `nsp_exec` goes on only when no `return` is under way. -/
def Done (K : List Frame) (fin : Bool) (s : St) : Prop := Sync K s ∧ (fin = false → s.ret = false)

theorem Idle.done {s : St} (h : Idle K s) (fin : Bool) : Done K fin s := ⟨h.sync, fun _ => h.calm.2.2⟩

/-- The head of the loop of `nsp_exec`. -/
structure Head (K : List Frame) (block : Bool) (s : St) : Prop where
  sync : Sync K s
  ret : s.ret = false
  calm : block = false → s.flags.Calm

theorem Waits.calm_of_flags {K : List Frame} {f : Flags} {w : Option (Jump × List Frame)} (h : Waits K f w)
    (hbrk : ¬ 0 < f.brk) (hcnt : ¬ 0 < f.cnt) (hret : f.ret = false) : f.Calm := by
  cases h with
  | rest => exact ⟨rfl, rfl, rfl⟩
  | brk => dsimp only at hbrk; omega
  | cnt => exact absurd Int.one_pos hcnt
  | ret => cases hret

theorem stable_head (block : Bool) : Stable K (Head K block) where
  same s s' h hs := by
    refine ⟨(stable_sync K).same s s' h.sync hs, ?_, fun hb => ?_⟩
    · exact (congrArg Flags.ret hs.flags).trans h.ret
    · rw [hs.flags]
      exact h.calm hb
  broken s h := h.sync.broken

theorem closed_call (K : List Frame) : Closed (.call :: K) := trivial

theorem closed_guard (K : List Frame) : Closed (.guard :: K) := trivial

section

include hexec

/-- `nsp_exec` where neither a loop nor a `switch` is left. -/
theorem leads_exec (hK : Closed K) (p : List Byte) : Leads K (k.exec p) :=
  (hexec K p).pre fun _ h => ⟨h, .inl hK⟩

theorem leads_execfile (hK : Closed K) (file : List Byte) : Leads K (execfile k env file) := by
  unfold execfile
  cases env.file file with
  | none => exact .pure fun _ h => h.sync
  | some text =>
      refine .bind (idle_control Lawful.here) fun p => .bind (idle_control Lawful.getContext) fun old =>
        .bind (idle_control (lawful_control.decompose _ _)) fun q =>
        .bind (idle_control (lawful_control.goto _)) fun _ =>
        .bind (idle_control (lawful_control.setNames _ _)) fun _ =>
        .bind (leads_exec hexec hK _) fun _ => ?_
      exact .bind (sync_control (lawful_control.goto _)) fun _ =>
        .bind (sync_control (lawful_control.setNames _ _)) fun _ => .pure fun _ h => h

include hk

theorem leads_callLib (hK : Closed K) (f : CFun) : Leads K (callLib k env f) := by
  unfold callLib
  cases f with
  | lib n => exact (idle_control (lawful_control.heap _)).post fun _ s h => h.sync
  | nlEval =>
      refine leads_runText fun p => .bind (idle_of_law (hk.eval p)) fun _ => ?_
      exact (idle_control (lawful_control.heap _)).post fun _ s h => h.sync
  | nlExec =>
      exact leads_runText fun p => .bind (leads_exec hexec hK p) fun _ => sync_control (lawful_control.heap _)
  | nlInclude => exact .pure fun _ h => h.sync
  | _ => exact .throw fun _ h => h.broken

theorem leads_nlBaseMethod (hK : Closed K) : Leads K (nlBaseMethod k env) := by
  have hbase : ∀ fname type, Leads K (heap (env.baseMethod fname type)) := fun fname type =>
    (idle_control (lawful_control.heap _)).post fun _ s h => h.sync
  refine .bind (idle_control Lawful.locals) fun l =>
    .bind (idle_control (lawful_control.heap _)) fun (fname, type) => .ite (fun _ => ?_) fun _ => hbase _ _
  refine .bind (idle_control (lawful_control.heap _)) fun cobj =>
    .bind (idle_control (lawful_control.heap _)) fun t => ?_
  cases t with
  | cfunc =>
      exact .bind (idle_control (lawful_control.heap _)) fun y =>
        .bind (idle_control (lawful_control.ofExcept _)) fun f => leads_callLib hk hexec hK f
  | nfunc =>
      refine .bind (idle_control Lawful.here) fun p => .bind (idle_control (lawful_control.heap _)) fun y =>
        .bind (idle_control (lawful_control.ofExcept _)) fun str => ?_
      exact .bind (leads_exec hexec hK _) fun _ => sync_control (lawful_control.goto p)
  | _ => exact hbase _ _

theorem leads_runCallee (hK : Closed K) (c : Callee) : Leads K (runCallee k env c) := by
  cases c with
  | script =>
      exact .bind (idle_control Lawful.here) fun _ => .bind (leads_exec hexec hK _) fun _ => .pure fun _ h => h
  | cfunc f =>
      refine .bind (B := fun _ => Sync K) ?_ fun _ => .pure fun _ h => h
      exact .ite (fun _ => leads_nlBaseMethod hk hexec hK) fun _ => leads_callLib hk hexec hK f
  | include1 file => exact leads_execfile hexec hK file
  | include2 text =>
      exact .bind (idle_control Lawful.here) fun _ => .bind (leads_exec hexec hK _) fun _ =>
        .bind (sync_control (lawful_control.heap _)) fun _ => .pure fun _ h => h

theorem idleLaw_runCall (fobj listobj : ObjId) (c : Callee) (ftype : FType) :
    idleLaw.Obeys (runCall k env fobj listobj c ftype) := by
  refine .bind Lawful.getContext fun old => .bind (lawful_idle.heap _) fun l => ?_
  refine .bind (lawful_idle.setContext _) fun _ => .bind (lawful_idle.enterContext _ _ _ _ _) fun _ => ?_
  refine .bind (idleLaw_calling (fun K => leads_runCallee hk hexec (closed_call K) c) fun r => ?_) fun r => ?_
  · exact lawful_control.afterCall listobj old c ftype r
  · cases r with
    | ok found => exact .pure _
    | error e => exact .throw _

/-! ### Statements of a block -/

include hgrows hgrows'

theorem leads_compound {op : Byte} {x : M Unit} (hx : compound k op = some x) : Leads K x := by
  unfold compound at hx
  repeat' split at hx
  all_goals cases hx
  · exact leads_ifFrom hk hexec _ _ _ _
  · exact leads_nFor hgrows hgrows' hk hexec
  · exact leads_nForeach hgrows' hk hexec
  · exact leads_nSwitch hk hexec
  · exact leads_nDo hgrows hgrows' hk hexec
  · exact leads_nWhile hgrows hgrows' hk hexec
  · refine (idle_of_law (lawful_idle.nTry idleLaw_attempt fun p => ?_)).post fun _ s h => h.sync
    exact idleLaw_guarded fun K => leads_exec hexec (closed_guard K) p

omit hexec hgrows hgrows' in
theorem leads_jumpStmt (block single : Bool) (op : Byte) : Leads K (jumpStmt k block single op) := by
  refine .ite (fun _ => ?_) fun _ => .ite (fun _ => ?_) fun _ => ?_
  · refine .bind (idle_control (lawful_control.refuse _ _)) fun _ =>
      .bind (idle_control (lawful_control.shortNumber 1)) fun n => ?_
    exact .bind (jumps_jump _) fun _ => sync_control (lawful_control.accept _)
  · refine .bind (idle_control (lawful_control.refuse _ _)) fun _ => ?_
    exact .bind (jumps_jump _) fun _ => sync_control (lawful_control.accept _)
  · exact .bind (idle_of_law (lawful_idle.storeval hk _)) fun _ =>
      .bind (idle_control (lawful_control.accept _)) fun _ => jumps_jump _

theorem leads_keyStmt (block single : Bool) (op : Byte) :
    Triple St.log Orderly (Idle K) (keyStmt k env block single op) (Done K) (Breaks K) := by
  unfold keyStmt
  cases hx : compound k op with
  | some x =>
      refine .bind (leads_compound hgrows hgrows' hk hexec hx) fun _ => .read fun t => .pure ?_
      rintro s ⟨h, rfl⟩
      exact ⟨h, fun h => h⟩
  | none =>
      refine .ite (fun _ => .bind (leads_jumpStmt hk _ _ _) fun _ => .pure fun s h => ?_) fun _ =>
        .ite (fun _ => ?_) fun _ => ?_
      · exact ⟨h, fun h => absurd h.symm Bool.false_ne_true⟩
      · exact .bind (idle_of_law (lawful_idle.raiseStmt hk _)) fun _ => .pure fun s h => h.done _
      · have hrun : ∀ fobj listobj c ftype, idleLaw.Obeys (runCall k env fobj listobj c ftype) :=
          idleLaw_runCall hk hexec
        exact .bind (idle_of_law (lawful_idle.declStmt hk hrun _)) fun _ => .pure fun s h => h.done _

theorem leads_statement (block single : Bool) :
    Triple St.log Orderly (Idle K) (statement k env block single) (Done K) (Breaks K) := by
  have hrun : ∀ fobj listobj c ftype, idleLaw.Obeys (runCall k env fobj listobj c ftype) :=
    idleLaw_runCall hk hexec
  refine .bind (idle_control lawful_control.cur) fun op => .bind (idle_control Lawful.here) fun p =>
    .bind (jumps_stmt p) fun _ => .ite (fun _ => ?_) fun _ => .ite (fun _ => ?_) fun _ =>
    .ite (fun _ => ?_) fun _ => ?_
  · refine .bind (idle_control (lawful_control.skip 1)) fun _ => .ite (fun _ => ?_) fun _ => ?_
    · exact .bind (idle_of_law (lawful_idle.storeval hk _)) fun _ =>
        .bind (idle_control (lawful_control.accept _)) fun _ =>
        .bind (idle_control (lawful_control.heap _)) fun _ => .pure fun s h => h.done _
    · exact .bind (idle_control lawful_control.warn) fun _ =>
        .bind (idle_control (lawful_control.skip 1)) fun _ => .pure fun s h => h.done _
  · exact .bind (idle_of_law (lawful_idle.puncStmt hk hrun idleLaw_attempt)) fun _ =>
      .pure fun s h => h.done _
  · exact .bind (idle_control (lawful_control.skip 1)) fun _ => leads_keyStmt hgrows hgrows' hk hexec _ _ _
  · refine .bind (idle_control (lawful_control.refuse _ _)) fun _ => .bind (idle_control Lawful.locals) fun tobj =>
      .bind (idle_control lawful_control.getlabel) fun name =>
      .bind (idle_control (lawful_control.heap _)) fun cobj => ?_
    exact .bind (idle_of_law (lawful_idle.objectStmt hk hrun idleLaw_attempt _ _ _ _ _)) fun _ =>
      .pure fun s h => h.done _

theorem leads_execLoop {block single : Bool} (hsafe : Closed K ∨ single = true ∨ block = true) (n : Nat) :
    Triple St.log Orderly (Head K block) (execLoop k env block single n) (fun _ => Sync K) (Breaks K) := by
  induction n with
  | zero => exact .throw fun _ h => h.sync.broken
  | succ n ih =>
      have hrest : ∀ fin : Bool, Triple St.log Orderly (Done K fin) (do
          if fin then return
          accept opPsemicol
          let s ← get
          if s.yielded ∨ single then return
          execLoop k env block single n) (fun _ => Sync K) (Breaks K) := by
        intro fin
        cases fin with
        | true => exact .pure fun _ h => h.1
        | false =>
            refine .ite (fun h => absurd h Bool.false_ne_true) fun _ =>
              .bind (B := fun _ => Head K true) ?_ fun _ => .read fun t => .ite (fun _ => .pure ?_) fun hgo =>
              ih.pre ?_
            · refine ((stable_head true).control (lawful_control.accept _)).pre fun s h => ?_
              exact ⟨h.1, h.2 rfl, fun h => absurd h.symm Bool.false_ne_true⟩
            · exact fun s h => h.1.sync
            · rintro s ⟨h, rfl⟩
              refine ⟨h.sync, h.ret, fun hb => ?_⟩
              rw [not_or] at hgo
              have hK : Closed K := (hsafe.resolve_right fun h => h.elim hgo.2 fun h => by
                rw [hb] at h
                exact Bool.false_ne_true h)
              obtain ⟨hcalm, -⟩ | ⟨hflags, -⟩ := h.sync.waits.closed hK
              · exact hcalm
              · exact absurd (h.ret.symm.trans (congrArg Flags.ret hflags)) Bool.false_ne_true
      have hgo : ∀ (t : St) (op : Byte), Triple St.log Orderly (fun s => Head K block s ∧ s = t) (do
          if block ∧ (0 < t.brk ∨ 0 < t.cnt ∨ op = opPcbrace) then return
          let fin ← if op = opPcbrace then do skip 1; pure false else statement k env block single
          if fin then return
          accept opPsemicol
          let s ← get
          if s.yielded ∨ single then return
          execLoop k env block single n) (fun _ => Sync K) (Breaks K) := by
        intro t op
        refine .ite (fun _ => .pure fun s h => h.1.sync) fun hblock => .ite (fun _ => ?_) fun hop => ?_
        · refine .bind (B := fun _ => Head K block) ?_ fun _ => .bind (.pure ?_) hrest
          · exact ((stable_head block).control (lawful_control.skip 1)).pre fun s h => h.1
          · exact fun s h => ⟨h.sync, fun _ => h.ret⟩
        · refine .bind ((leads_statement hgrows hgrows' hk hexec _ _).pre ?_) hrest
          rintro s ⟨h, rfl⟩
          refine h.sync.idle ?_
          cases block with
          | false => exact h.calm rfl
          | true =>
              rw [not_and, not_or, not_or] at hblock
              obtain ⟨hbrk, hcnt, -⟩ := hblock rfl
              exact h.sync.waits.calm_of_flags hbrk hcnt h.ret
      refine .bind ((stable_head block).control lawful_control.peekop) fun op =>
        .ite (fun _ => .pure fun s h => h.sync) fun _ => .read fun t => .ite (fun _ => ?_) fun _ => hgo t op
      exact .bind ((stable_head block).raise.pre fun s h => h.1) fun _ => hgo t op

/-- `nsp_exec` leads the jumps that are made in its part of the script. -/
theorem leads_nspExec : ∀ K p, Triple St.log Orderly
    (fun s => Idle K s ∧ (Closed K ∨ s.single = true ∨ Braced p)) (nspExec k env p) (fun _ => Sync K)
    (Breaks K) := by
  intro K p
  refine .read fun t => .bind (B := fun _ s => Idle K s ∧ (Closed K ∨ t.single = true ∨ Braced p)) ?_ fun _ =>
    .ite (fun _ => .pure fun s h => h.1.sync) fun _ => ?_
  · refine ((idle_control (lawful_control.setSingle false)).keep _).pre ?_
    rintro s ⟨⟨h, hp⟩, rfl⟩
    exact ⟨h, hp⟩
  have hloop : ∀ block : Bool, Triple St.log Orderly
      (fun s => Idle K s ∧ (Closed K ∨ t.single = true ∨ block = true))
      (execLoop k env block t.single k.fuel) (fun _ => Sync K) (Breaks K) := fun block =>
    (triple_assume (flagsLaw_governs.execLoop hgrows hgrows' _ _ _) fun h =>
      (leads_execLoop hgrows hgrows' hk hexec h _).pre fun s h => ⟨h.sync, h.calm.2.2, fun _ => h.calm⟩)
  refine .bind (B := fun _ s => (Idle K s ∧ (Closed K ∨ t.single = true ∨ Braced p)) ∧ s.readptr = p) ?_
    fun _ => ?_
  · refine Triple.also ((idle_control (lawful_control.goto p)).keep _) ?_
    rintro s _ s' - hrun
    cases hrun
    rfl
  refine .bind (B := fun op s => Idle K s ∧ (Closed K ∨ t.single = true ∨ op = opPobrace)) ?_ fun op =>
    .ite (fun hop => ?_) fun hop => ?_
  · refine (Triple.also (Q := fun op s => Braced p → op = opPobrace) (Triple.pre
      ((idle_control lawful_control.peekop).keep (Closed K ∨ t.single = true ∨ Braced p)) fun s h => h.1)
        ?_).post ?_
    · rintro s op s' ⟨-, rfl⟩ hrun ⟨q, hq, hop⟩
      obtain ⟨hws, hderef⟩ := peekop_ok hrun
      rw [hq] at hws
      cases hws
      rw [hop] at hderef
      cases hderef
      rfl
    · rintro op s ⟨⟨h, hp⟩, hbrace⟩
      exact ⟨h, hp.imp_right (Or.imp_right hbrace)⟩
  · refine .bind (B := fun _ s => Idle K s ∧ (Closed K ∨ t.single = true ∨ true = true)) ?_ fun _ =>
      .bind (.pure fun _ h => h) hloop
    exact ((idle_control (lawful_control.seek false)).keep _).pre fun s h => ⟨h.1, .inr (.inr rfl)⟩
  · refine .bind (.pure fun s h => ?_) hloop
    exact ⟨h.1, h.2.imp_right (Or.imp_right fun h => absurd h hop)⟩

end

/-! ### Whole runs -/

theorem jumps_interp (env : Env) (n : Nat) :
    (interp env n).Obeys idleLaw ∧ Runs (interp env n) := by
  induction n with
  | zero =>
      refine ⟨⟨fun _ => .throw _, fun _ _ => .throw _, fun _ _ => .throw _, fun _ => .throw _,
        fun _ _ _ => .throw _, fun _ _ => .throw _, fun _ _ => .throw _⟩, fun K p => ?_⟩
      exact .throw fun s h => h.1.broken
  | succ n ih =>
      obtain ⟨hk, hexec⟩ := ih
      obtain ⟨hgrows, hgrows'⟩ := flagsLaw_governs.interp env n
      have hrun : ∀ fobj listobj c ftype, idleLaw.Obeys (runCall (interp env n) env fobj listobj c ftype) :=
        idleLaw_runCall hk hexec
      refine ⟨⟨?_, ?_, ?_, ?_, ?_, ?_, ?_⟩, leads_nspExec hgrows hgrows' hk hexec⟩
      · exact lawful_idle.nspEval hk
      · exact lawful_idle.evalobj hk
      · exact lawful_idle.evalsub hk
      · exact lawful_idle.readtable hk
      · exact lawful_idle.execfunction hk hrun
      · exact lawful_idle.execbasemethod hk hrun idleLaw_attempt
      · exact lawful_idle.execconstructor hk hrun

theorem leads_runScript (env : Env) (fuel : Nat) (text : List Byte) : Leads [] (runScript env fuel text) := by
  refine .bind (idle_control (lawful_control.heap _)) fun _ => .ite (fun _ => .pure fun _ h => h.sync) fun _ =>
    .bind (leads_attempt (.bind (idle_control (lawful_control.decompose _ _)) fun p => ?_)) fun _ =>
      .pure fun _ h => h
  cases p with
  | none => exact .throw fun _ h => h.broken
  | some p => exact leads_exec (jumps_interp env fuel).2 (show Closed [] from trivial) p

/-- In a run of a script whose jumps all have a target, no statement starts between a jump and its
target. -/
theorem jumps_stop (env : Env) (fuel : Nat) (text : List Byte) (s : St) (hframes : s.frames = [])
    (hlog : s.log = []) (hcalm : s.flags.Calm)
    (horderly : ∀ e ∈ (final (runScript env fuel text s)).log, Orderly e) :
    JumpsStop (final (runScript env fuel text s)).log := by
  have hidle : Idle [] s := by
    refine ⟨hframes, ?_, hcalm, ?_⟩
    · rw [hlog]
      exact .nil
    · rw [hlog]
      rfl
  obtain ⟨steps, hsteps, h⟩ := leads_runScript env fuel text s
  rw [hlog, List.append_nil] at hsteps
  rw [hsteps] at horderly
  have hends := h horderly hidle
  cases hrun : runScript env fuel text s with
  | ok a s' =>
      rw [hrun] at hends
      exact hends.stop
  | error e s' =>
      rw [hrun] at hends
      exact hends.stop

theorem jumps_stop_while :
    JumpsStop (final (runScript bareEnv 30
      (bytes "while(1){if(1){break;}x=1;}") newState)).log :=
  jumps_stop bareEnv 30 _ newState rfl rfl ⟨rfl, rfl, rfl⟩ (by decide +kernel)

/-- A `continue` in a `switch`: the next statement of the case is executed. -/
theorem not_jumpsStop_switch :
    ¬ JumpsStop (final (runScript bareEnv 30
      (bytes "do{switch(1){case 1:continue;x=1;}}while(0);") newState)).log := by
  decide +kernel

end NullG.Nsp
