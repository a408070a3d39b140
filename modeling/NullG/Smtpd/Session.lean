/-
Runs of a session.

`Reached` are the states in which `smtp_dorequest` reads a command. Every command that is read
leaves less to be read, so a session goes on for as long as the client sends. Most of the server
is `Quiet`: it reads the sender and the recipients, and does not change them.
-/

import NullG.Lib.Runs
import NullG.Net.Left
import NullG.Smtpd.Starttls

namespace NullG.Smtpd

open NullG.Nsp NullG.Lib NullG.Net NullG.Mail

/-- The states in which `smtp_dorequest` reads a command. -/
inductive Reached (env : Env) (s₀ : Session) : Session → Prop where
  | start {s : Session} : env.initOk = true → greet env s₀ = .ok true s → Reached env s₀ s
  | next {s t : Session} : Reached env s₀ s → request env s = .ok true t → Reached env s₀ t

section

variable {env : Env} {s₀ s t : Session}

/-- A command is read from what is left. -/
theorem request_left (h : request env s = .ok true t) : t.conn.left < s.conn.left := by
  obtain ⟨line, s₁, hread, h⟩ := bind_run_ok h
  have hs₁ : line = (s.conn.fgets 255).1 ∧ s₁.conn = (s.conn.fgets 255).2 := by
    cases hread
    exact ⟨rfl, rfl⟩
  have hleft := (fgets_left s.conn 255).2 (by decide)
  rw [← hs₁.1, ← hs₁.2] at hleft
  cases line with
  | none => cases h
  | some line =>
      have hless := hleft rfl
      by_cases hquit : sameText (striprn line) (bytes "quit") = true
      · simp only [hquit, if_true] at h
        obtain ⟨u, s₂, -, h⟩ := bind_run_ok h
        cases h
      · simp only [hquit] at h
        obtain ⟨u, s₂, hcommand, h⟩ := bind_run_ok h
        cases h
        have hkeeps := (command_conn (left_inv s₁.conn.left) (striprn line) : Keeps _ (command env _)) s₁ (Nat.le_refl _)
        rw [hcommand] at hkeeps
        exact Nat.lt_of_le_of_lt hkeeps hless

/-- The rounds of the loop are enough. -/
theorem requestLoop_eq {n : Nat} (hn : s.conn.left < n) :
    requestLoop env n s = requestLoop env (s.conn.left + 1) s := by
  have hboth : ∀ left m n : Nat, ∀ s : Session, s.conn.left ≤ left → s.conn.left < m → s.conn.left < n →
      requestLoop env m s = requestLoop env n s := by
    intro left
    induction left with
    | zero =>
        intro m n s hleft hm hn
        obtain ⟨m, rfl⟩ := Nat.exists_eq_add_one_of_ne_zero (Nat.ne_of_gt (Nat.zero_lt_of_lt hm))
        obtain ⟨n, rfl⟩ := Nat.exists_eq_add_one_of_ne_zero (Nat.ne_of_gt (Nat.zero_lt_of_lt hn))
        unfold requestLoop
        cases hrun : request env s with
        | error e t => rw [run_bind_of_error hrun, run_bind_of_error hrun]
        | ok more t =>
            rw [run_bind_of_ok hrun, run_bind_of_ok hrun]
            cases more with
            | false => rfl
            | true => exact absurd (request_left hrun) (by omega)
    | succ left ih =>
        intro m n s hleft hm hn
        obtain ⟨m, rfl⟩ := Nat.exists_eq_add_one_of_ne_zero (Nat.ne_of_gt (Nat.zero_lt_of_lt hm))
        obtain ⟨n, rfl⟩ := Nat.exists_eq_add_one_of_ne_zero (Nat.ne_of_gt (Nat.zero_lt_of_lt hn))
        unfold requestLoop
        cases hrun : request env s with
        | error e t => rw [run_bind_of_error hrun, run_bind_of_error hrun]
        | ok more t =>
            rw [run_bind_of_ok hrun, run_bind_of_ok hrun]
            cases more with
            | false => rfl
            | true =>
                have hless := request_left hrun
                exact ih m n t (by omega) (by omega) (by omega)
  exact hboth s.conn.left n _ s (Nat.le_refl _) hn (Nat.lt_succ_self _)

/-- The session from a state in which it reads a command. -/
def resume (env : Env) : S Unit := do
  let s ← get
  requestLoop env (s.conn.left + 1)
  let s ← get
  cleanup s.mconn.numRcpts 0

theorem resume_next (h : request env s = .ok true t) : resume env s = resume env t := by
  have hloop : requestLoop env (s.conn.left + 1) s = requestLoop env (t.conn.left + 1) t := by
    unfold requestLoop
    rw [run_bind_of_ok h, if_pos rfl]
    exact requestLoop_eq (request_left h)
  have hall : ∀ u : Session, resume env u = (do
      requestLoop env (u.conn.left + 1)
      let s ← get
      cleanup s.mconn.numRcpts 0 : S Unit) u := fun _ => rfl
  rw [hall, hall]
  cases hrun : requestLoop env (t.conn.left + 1) t with
  | ok a u => rw [run_bind_of_ok (hloop.trans hrun), run_bind_of_ok hrun]
  | error e u => rw [run_bind_of_error (hloop.trans hrun), run_bind_of_error hrun]

/-- The session goes on from every state that is reached. -/
theorem smtpDorequest_of_reached (h : Reached env s₀ s) : smtpDorequest env s₀ = resume env s := by
  induction h with
  | start hinit hgreet =>
      unfold smtpDorequest
      rw [if_pos hinit, run_bind_of_ok hgreet]
      rfl
  | next _ hrequest ih => exact ih.trans (resume_next hrequest)

theorem resume_error {e : Stop} (h : request env s = .error e t) : resume env s = .error e t := by
  have hloop : requestLoop env (s.conn.left + 1) s = .error e t := by
    unfold requestLoop
    exact run_bind_of_error h
  unfold resume
  rw [run_bind_of_ok (show (get : S Session) s = .ok s s from rfl)]
  exact run_bind_of_error hloop

variable {Inv B : Session → Prop} {E : Stop → Session → Prop}

/-- What holds in the states that are reached and behind the loop. -/
theorem resume_ends
    (hrequest : ∀ s, Reached env s₀ s → Inv s → Ends (fun more t => if more then Inv t else B t) E (request env s))
    (hcleanup : ∀ s, B s → Ends (fun _ => B) E (cleanup s.mconn.numRcpts 0 s)) (hs : Reached env s₀ s) (hinv : Inv s) :
    Ends (fun _ => B) E (resume env s) := by
  have hloop : ∀ n s, s.conn.left < n → Reached env s₀ s → Inv s → Ends (fun _ => B) E (requestLoop env n s) := by
    intro n
    induction n with
    | zero => exact fun s hleft => absurd hleft (Nat.not_lt_zero _)
    | succ n ih =>
        intro s hleft hs hinv
        have hends := hrequest s hs hinv
        unfold requestLoop
        cases hrun : request env s with
        | error e t =>
            rw [hrun] at hends
            rw [run_bind_of_error hrun]
            exact hends
        | ok more t =>
            rw [hrun] at hends
            rw [run_bind_of_ok hrun]
            cases more with
            | false => exact hends
            | true =>
                have hless := request_left hrun
                exact ih t (by omega) (.next hs hrun) hends
  have hends := hloop (s.conn.left + 1) s (Nat.lt_succ_self _) hs hinv
  unfold resume
  rw [run_bind_of_ok (show (get : S Session) s = .ok s s from rfl)]
  cases hrun : requestLoop env (s.conn.left + 1) s with
  | error e t =>
      rw [hrun] at hends
      rw [run_bind_of_error hrun]
      exact hends
  | ok a t =>
      rw [hrun] at hends
      rw [run_bind_of_ok hrun]
      exact hcleanup t hends

/-- What holds behind the greeting and is kept by every request holds at the end of the session. -/
theorem smtpDorequest_ends (hinit : B s₀)
    (hgreet : Ends (fun more t => if more then Inv t else B t) E (greet env s₀))
    (hrequest : ∀ s, Reached env s₀ s → Inv s → Ends (fun more t => if more then Inv t else B t) E (request env s))
    (hcleanup : ∀ s, B s → Ends (fun _ => B) E (cleanup s.mconn.numRcpts 0 s)) :
    Ends (fun _ => B) E (smtpDorequest env s₀) := by
  by_cases hok : env.initOk = true
  · cases hrun : greet env s₀ with
    | error e t =>
        rw [hrun] at hgreet
        unfold smtpDorequest
        rw [if_pos hok, run_bind_of_error hrun]
        exact hgreet
    | ok more t =>
        rw [hrun] at hgreet
        cases more with
        | false =>
            unfold smtpDorequest
            rw [if_pos hok, run_bind_of_ok hrun]
            exact hcleanup t hgreet
        | true =>
            rw [smtpDorequest_of_reached (.start hok hrun)]
            exact resume_ends hrequest hcleanup (.start hok hrun) hgreet
  · unfold smtpDorequest
    rw [if_neg hok]
    exact hinit

end

/-- A property of a state and of all those that its requests lead to, up to the end of the session. -/
def everyRequest (env : Env) (p : Session → Bool) : Nat → Session → Bool
  | 0, _ => false
  | n + 1, s =>
      p s &&
        match request env s with
        | .ok true t => everyRequest env p n t
        | _ => true

/-- What a run from the greeting on shows of all states that are reached. -/
theorem reached_of_everyRequest {env : Env} {p : Session → Bool} {s₀ g : Session} {n : Nat}
    (hgreet : greet env s₀ = .ok true g) (hevery : everyRequest env p n g = true) {s : Session}
    (h : Reached env s₀ s) : p s = true := by
  have hrest : ∀ {s}, Reached env s₀ s → ∃ n, everyRequest env p n s = true := by
    intro s h
    induction h with
    | start _ hstart =>
        cases hgreet.symm.trans hstart
        exact ⟨n, hevery⟩
    | next _ hrequest ih =>
        obtain ⟨k, hk⟩ := ih
        cases k with
        | zero => cases hk
        | succ k =>
            unfold everyRequest at hk
            rw [hrequest] at hk
            exact ⟨k, (Bool.and_eq_true_iff.mp hk).2⟩
  obtain ⟨k, hk⟩ := hrest h
  cases k with
  | zero => cases hk
  | succ k => exact (Bool.and_eq_true_iff.mp hk).1

/-! ### Which command a line is -/

/-- The next line, as `smtp_dorequest` reads it. -/
def nextLine (s : Session) : Option (List Byte) := (s.conn.fgets 255).1.map striprn

section

variable {line : List Byte} {str : String} {b c : Byte} {l : List Byte}

/-- The first letter of a line that starts with a command. -/
theorem first_of_startsWith (hstr : (bytes str).map lower = b :: l) (h : startsWith line str = true) :
    ∃ c rest, line = c :: rest ∧ lower c = b := by
  have heq : (line.take str.length).map lower = b :: l := by
    rw [← hstr]
    exact beq_iff_eq.mp h
  cases line with
  | nil =>
      rw [List.take_nil] at heq
      cases heq
  | cons c rest =>
      cases hlen : str.length with
      | zero =>
          rw [hlen] at heq
          cases heq
      | succ n =>
          rw [hlen] at heq
          exact ⟨c, rest, rfl, (List.cons.inj heq).1⟩

theorem first_of_sameText (hstr : (bytes str).map lower = b :: l) (h : sameText line (bytes str) = true) :
    ∃ c rest, line = c :: rest ∧ lower c = b := by
  have heq : line.map lower = b :: l := by
    rw [← hstr]
    exact beq_iff_eq.mp h
  cases line with
  | nil => cases heq
  | cons c rest => exact ⟨c, rest, rfl, (List.cons.inj heq).1⟩

theorem not_startsWith (hstr : (bytes str).map lower = b :: l) (hb : lower c ≠ b) (rest : List Byte) :
    startsWith (c :: rest) str = false := by
  rw [Bool.eq_false_iff]
  intro h
  obtain ⟨d, rest', heq, hd⟩ := first_of_startsWith hstr h
  cases heq
  exact hb hd

theorem not_sameText (hstr : (bytes str).map lower = b :: l) (hb : lower c ≠ b) (rest : List Byte) :
    sameText (c :: rest) (bytes str) = false := by
  rw [Bool.eq_false_iff]
  intro h
  obtain ⟨d, rest', heq, hd⟩ := first_of_sameText hstr h
  cases heq
  exact hb hd

variable {env : Env} {s : Session}

theorem request_of_nextLine (h : nextLine s = some line) (hquit : sameText line (bytes "quit") = false) :
    request env s = (do
      command env line
      return true : S Bool) { s with conn := (s.conn.fgets 255).2 } := by
  have hread : fgets 255 s = .ok (s.conn.fgets 255).1 { s with conn := (s.conn.fgets 255).2 } := rfl
  unfold request
  rw [run_bind_of_ok hread]
  unfold nextLine at h
  cases hline : (s.conn.fgets 255).1 with
  | none =>
      rw [hline] at h
      cases h
  | some raw =>
      rw [hline] at h
      obtain rfl : striprn raw = line := Option.some.inj h
      dsimp only
      rw [hquit]
      rfl

/-- A line with `RCPT TO:` is no other command. -/
theorem command_rcpt (hstate : s.conn.state = 1) (h : startsWith line "rcpt to:" = true) :
    sameText line (bytes "quit") = false ∧ command env line s = smtpRcpt env (line.drop 8) s := by
  obtain ⟨c, rest, rfl, hc⟩ := first_of_startsWith (b := 114) rfl h
  have hno : ∀ (str : String) {b : Byte} {l : List Byte}, (bytes str).map lower = b :: l → 114 ≠ b →
      startsWith (c :: rest) str = false := fun _ _ _ hstr hb => not_startsWith hstr (by rw [hc]; exact hb) rest
  refine ⟨not_sameText (b := 113) rfl (by rw [hc]; decide) rest, ?_⟩
  unfold command
  rw [run_bind_of_ok (show (get : S Session) s = .ok s s from rfl)]
  rw [hno "helo" (b := 104) rfl (by decide), hno "ehlo" (b := 101) rfl (by decide),
    hno "starttls" (b := 115) rfl (by decide), hno "auth" (b := 97) rfl (by decide),
    hno "mail from:" (b := 109) rfl (by decide), hstate, h]
  rfl

end

/-! ### Sender and recipients -/

/-- What the commands of a transaction have left, and what happened to transactions. -/
def Session.envelope (s : Session) : Mailconn × List Event :=
  ({ s.mconn with senderCanRelay := 0, helo := [], msgbody := [] }, s.events)

/-- The program does not change a sender and recipients, and stops only where it waits. -/
def QuietAt {α : Type} (v : Mailconn × List Event) (x : S α) : Prop :=
  Runs (fun s => s.envelope = v) x (fun _ s => s.envelope = v) fun e s => e = .stuck ∧ s.envelope = v

/-- It does so whatever they are. -/
def Quiet {α : Type} (x : S α) : Prop := ∀ v, QuietAt v x

/-- What is known of the sender and the recipients stays true. -/
theorem QuietAt.frame {α : Type} {P : Mailconn × List Event → Prop} {x : S α} (hx : ∀ v, P v → QuietAt v x) :
    Runs (fun s => P s.envelope) x (fun _ s => P s.envelope) fun e s => e = .stuck ∧ P s.envelope := by
  intro s hs
  have h := hx s.envelope hs s rfl
  cases hrun : x s with
  | ok a t =>
      rw [hrun] at h
      have heq : t.envelope = s.envelope := h
      show P t.envelope
      rw [heq]
      exact hs
  | error e t =>
      rw [hrun] at h
      have heq : t.envelope = s.envelope := h.2
      refine ⟨h.1, ?_⟩
      rw [heq]
      exact hs

namespace Quiet

variable {α β : Type}

theorem pure (a : α) : Quiet (pure a : S α) := fun _ => .pure fun _ h => h

theorem bind {x : S α} {f : α → S β} (hx : Quiet x) (hf : ∀ a, Quiet (f a)) : Quiet (x >>= f) :=
  fun v => (hx v).bind fun a => hf a v

theorem read {f : Session → S β} (hf : ∀ s, Quiet (f s)) : Quiet (get >>= f) :=
  fun v => .read fun t => (hf t v).pre fun _ h => h.1

theorem ite {p : Prop} [Decidable p] {x y : S α} (hx : p → Quiet x) (hy : ¬ p → Quiet y) :
    Quiet (if p then x else y) :=
  fun v => .ite (fun h => hx h v) fun h => hy h v

theorem modify {f : Session → Session} (hf : ∀ s, (f s).envelope = s.envelope) : Quiet (modify f : S Unit) :=
  fun _ => .modify fun s h => (hf s).trans h

end Quiet

section

variable {env : Env}

theorem onWorld_quiet {α : Type} (x : W α) : Quiet (onWorld x) := by
  intro v s hs
  unfold onWorld
  cases x s.world with
  | ok a w => exact hs
  | error e w =>
      cases e
      exact ⟨rfl, hs⟩

theorem onWorld_ok {α : Type} {x : W α} {s t : Session} {a : α} (h : onWorld x s = .ok a t) :
    ∃ w, x s.world = .ok a w := by
  unfold onWorld at h
  cases hx : x s.world with
  | ok b w =>
      rw [hx] at h
      cases h
      exact ⟨w, rfl⟩
  | error e w =>
      rw [hx] at h
      cases h

theorem onWorld_ok_run {α : Type} {s : Session} {y : W α} {a : α} {w : World} (h : y s.world = .ok a w) :
    onWorld y s = .ok a { s with world := w } := by
  unfold onWorld
  rw [h]

theorem onWorld_error_run {α : Type} {s : Session} {y : W α} {w : World} (h : y s.world = .error .stuck w) :
    onWorld y s = .error .stuck { s with world := w } := by
  unfold onWorld
  rw [h]

theorem onWorld_mconn {α : Type} {y : W α} {a : α} {s t : Session} (h : onWorld y s = .ok a t) : t.mconn = s.mconn := by
  cases hy : y s.world with
  | error e w =>
      cases e
      cases (onWorld_error_run hy).symm.trans h
  | ok b w =>
      cases (onWorld_ok_run hy).symm.trans h
      rfl

theorem tick_quiet : Quiet tick := onWorld_quiet _

/-- The state behind a call to the surroundings. -/
def Session.ticked (s : Session) : Session := { s with world := { s.world with tick := s.world.tick + 1 } }

theorem get_run (s : Session) : (get : S Session) s = .ok s s := rfl

theorem modify_run (f : Session → Session) (s : Session) : (modify f : S Unit) s = .ok () (f s) := rfl

theorem tick_run (s : Session) : tick s = .ok s.world.tick s.ticked := rfl

theorem fgets_quiet (max : Nat) : Quiet (fgets max) := fun _ _ hs => hs

theorem smtpSend_quiet (line : List Byte) : Quiet (smtpSend line) := .modify fun _ => rfl

theorem setState_quiet (state : Nat) : Quiet (setState state) := .modify fun _ => rfl

theorem setRelay_quiet : Quiet (setRelay env) := .bind tick_quiet fun _ => .modify fun _ => rfl

theorem userNamed_quiet (name : List Byte) (domainid : Int) : Quiet (userNamed env name domainid) := by
  refine .bind tick_quiet fun n => ?_
  split <;> exact .pure _

theorem findUser_quiet (name : List Byte) (domainid : Int) : Quiet (findUser env name domainid) := by
  refine .bind tick_quiet fun n => ?_
  split
  · exact .pure _
  · refine .bind tick_quiet fun m => ?_
    split
    · exact .pure _
    · exact .ite (fun _ => userNamed_quiet _ _) fun _ => .pure _
    · exact userNamed_quiet _ _
  · exact userNamed_quiet _ _

theorem writeMessage_quiet (now : Nat) (path : List Byte) (info : Option (List Byte)) (rcpt : List Byte) :
    Quiet (writeMessage env now path info rcpt) := by
  refine .read fun s => ?_
  refine .bind (onWorld_quiet _) fun written => .ite (fun _ => ?_) fun _ => .pure _
  refine .bind (.modify fun _ => rfl) fun _ => ?_
  refine .bind tick_quiet fun n => ?_
  refine .ite (fun _ => .bind (onWorld_quiet _) fun _ => .pure _) fun _ => ?_
  refine .bind tick_quiet fun n => ?_
  refine .ite (fun _ => .bind (onWorld_quiet _) fun _ => .pure _) fun _ => ?_
  split
  · exact .pure _
  · refine .read fun s => ?_
    refine .bind (onWorld_quiet _) fun written => .ite (fun _ => .pure _) fun _ => ?_
    exact .bind (onWorld_quiet _) fun _ => .pure _

theorem acceptFor_quiet (now : Nat) (rcpt : List Byte) : Quiet (acceptFor env now rcpt) := by
  refine .bind tick_quiet fun n => ?_
  refine .ite (fun _ => ?_) fun _ => ?_
  · refine .bind (findUser_quiet _ _) fun m => ?_
    cases m with
    | failed => exact .pure _
    | nobody => exact .read fun s => .bind (onWorld_quiet _) fun _ => .pure _
    | user mailbox =>
        refine .bind tick_quiet fun n => ?_
        refine .ite (fun _ => .pure none) fun _ => ?_
        exact .bind (onWorld_quiet _) fun path => writeMessage_quiet _ _ _ _
  · refine .read fun s => .ite (fun _ => ?_) fun _ => .pure _
    exact .bind (onWorld_quiet _) fun paths => writeMessage_quiet _ _ _ _

theorem dataLoop_quiet (now fuel : Nat) (h : Msgheader) (done : Bool) :
    Quiet (dataLoop env now fuel h done) := by
  induction fuel generalizing h done with
  | zero => exact fun v => .throw fun _ hs => ⟨rfl, hs⟩
  | succ fuel ih =>
      refine .bind (fgets_quiet 1023) fun line => ?_
      cases line with
      | none => exact .pure false
      | some line =>
          refine .read fun s => ?_
          dsimp only
          refine .bind (.modify fun _ => rfl) fun _ => ?_
          refine .ite (fun _ => .pure _) fun _ => ?_
          exact .bind (.modify fun _ => rfl) fun _ => ih _ _

end

end NullG.Smtpd
