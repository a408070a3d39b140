/-
The name, the domain and the mailbox that PASS hands to `auth_login`.

USER sets the name, but the domain and the mailbox only where the line has an `@` or a `:`, so that those of an
earlier line are left over. A PASS that fails clears all three.
-/

import NullG.Pop3d.Maildrop

namespace NullG.Pop3d

open NullG.Nsp NullG.Lib NullG.Net NullG.Mail

/-- What `auth_login` is called with, apart from the password. -/
structure Credentials where
  username : List Byte := []
  domain : List Byte := []
  mbox : Int := 0
  deriving DecidableEq

/-- Those that a session has. -/
def Session.credentials (s : Session) : Credentials where
  username := s.username
  domain := s.domain
  mbox := s.mbox

/-! ### USER lines -/

/-- What a USER line names, as far as a buffer holds it. -/
def userText (line : List Byte) : List Byte := snprintf 63 (skipBlanks (line.drop 4))

/-- The line has a mailbox in it. -/
def namesMbox (line : List Byte) : Bool := (userText line).contains (ch ':')

/-- The name and the domain of a line. -/
def userAddr (line : List Byte) : List Byte := (userText line).takeWhile (· != ch ':')

/-- The line has a domain in it. -/
def namesDomain (line : List Byte) : Bool := (userAddr line).contains (ch '@')

/-- What a USER line says by itself. -/
def Credentials.of (line : List Byte) : Credentials where
  username := (userAddr line).takeWhile (· != ch '@')
  domain := if namesDomain line then snprintf 63 (((userAddr line).dropWhile (· != ch '@')).drop 1) else []
  mbox := if namesMbox line then max (atoi (((userText line).dropWhile (· != ch ':')).drop 1)) 0 else 0

/-! ### Histories -/

/-- What changes the credentials of a session. -/
inductive Event where
  /-- a USER line that is accepted -/
  | user (line : List Byte)
  /-- a PASS that fails -/
  | failed
  deriving DecidableEq

/-- What an event leaves of the credentials. -/
def Credentials.step (c : Credentials) : Event → Credentials
  | .user line =>
      { username := (Credentials.of line).username
        domain := if namesDomain line then (Credentials.of line).domain else c.domain
        mbox := if namesMbox line then (Credentials.of line).mbox else c.mbox }
  | .failed => {}

/-- What is left after some events. -/
def Credentials.after (c : Credentials) (events : List Event) : Credentials := events.foldl Credentials.step c

/-- TLS is asked for and not used. -/
def refused (env : Env) (s : Session) : Bool := env.sslLoaded && !s.conn.socket.usingTls && env.requireTls

/-- The event in a line after which the login goes on. -/
def eventOf (env : Env) (s : Session) (line : List Byte) : Option Event :=
  if sameText line (bytes "quit") then none
  else if sameText line (bytes "capa") then none
  else if sameText line (bytes "stls") then none
  else if startsWith line "user" then if refused env s then none else some (.user line)
  else if startsWith line "pass" then if refused env s then none else some .failed
  else none

/-- The events between two states of a login. -/
inductive Attempts (env : Env) : Session → List Event → Session → Prop where
  | nil (s : Session) : Attempts env s [] s
  | cons {s s₁ t u : Session} {line : List Byte} {events : List Event} (read : fgets 127 s = .ok (some line) s₁)
      (again : loginRequest env s = .ok .again t) (rest : Attempts env t events u) :
      Attempts env s ((eventOf env s₁ (striprn line)).toList ++ events) u

/-- The last USER line of a history, with what came before it and what came then. -/
def lastUser : List Event → Option (List Event × List Byte × List Event)
  | [] => none
  | e :: events =>
      match lastUser events, e with
      | some (pre, line, post), _ => some (e :: pre, line, post)
      | none, .user line => some ([], line, events)
      | none, .failed => none

/-- What the last USER line says, or nothing where there is none. -/
def lastNamed (events : List Event) : Credentials :=
  match lastUser events with
  | some (_, line, _) => .of line
  | none => {}

/-- The last USER line has a domain and a mailbox, or the lines before it have left none; no PASS has failed since,
or there is nothing in the line. -/
def Clean (events : List Event) : Prop :=
  match lastUser events with
  | some (pre, line, []) =>
      (namesDomain line = true ∨ (({} : Credentials).after pre).domain = []) ∧
        (namesMbox line = true ∨ (({} : Credentials).after pre).mbox = 0)
  | some (_, line, _ :: _) => Credentials.of line = {}
  | none => True

section

variable {events pre post : List Event} {line : List Byte}

theorem lastUser_none (h : lastUser events = none) : ∀ e ∈ events, e = .failed := by
  induction events with
  | nil => exact fun e he => absurd he List.not_mem_nil
  | cons e events ih =>
      unfold lastUser at h
      split at h
      · cases h
      · cases h
      · rename_i hnone
        intro e' he'
        rcases List.mem_cons.mp he' with rfl | he'
        · rfl
        · exact ih hnone e' he'

theorem lastUser_some (h : lastUser events = some (pre, line, post)) :
    events = pre ++ .user line :: post ∧ ∀ e ∈ post, e = .failed := by
  induction events generalizing pre with
  | nil => cases h
  | cons e events ih =>
      unfold lastUser at h
      split at h
      · rename_i hsome
        cases h
        obtain ⟨heq, hfailed⟩ := ih hsome
        exact ⟨congrArg (List.cons _) heq, hfailed⟩
      · rename_i hnone
        cases h
        exact ⟨rfl, lastUser_none hnone⟩
      · cases h

/-- A PASS that fails clears what a session has. -/
theorem after_failed (c : Credentials) (h : ∀ e ∈ events, e = .failed) : c.after events = if events = [] then c else {} := by
  induction events generalizing c with
  | nil => rfl
  | cons e events ih =>
      obtain rfl := h e List.mem_cons_self
      show ({} : Credentials).after events = _
      rw [ih {} fun e he => h e (List.mem_cons_of_mem _ he), ite_self, if_neg (List.cons_ne_nil _ _)]

theorem of_domain (h : namesDomain line = false) : (Credentials.of line).domain = [] := by
  unfold Credentials.of
  rw [h]
  rfl

theorem of_mbox (h : namesMbox line = false) : (Credentials.of line).mbox = 0 := by
  unfold Credentials.of
  rw [h]
  rfl

/-- A USER line sets what it names and leaves the rest. -/
theorem step_user_iff (c : Credentials) (line : List Byte) :
    c.step (.user line) = .of line ↔
      (namesDomain line = true ∨ c.domain = []) ∧ (namesMbox line = true ∨ c.mbox = 0) := by
  unfold Credentials.step
  rw [Credentials.mk.injEq]
  cases hdomain : namesDomain line <;> cases hmbox : namesMbox line
  · rw [of_domain hdomain, of_mbox hmbox]
    simp
  · rw [of_domain hdomain]
    simp
  · rw [of_mbox hmbox]
    simp
  · simp

/-- What is left after a history is what its last USER line says exactly if the history is clean. -/
theorem after_iff (events : List Event) : ({} : Credentials).after events = lastNamed events ↔ Clean events := by
  unfold lastNamed Clean
  cases hlast : lastUser events with
  | none =>
      have hafter := after_failed {} (lastUser_none hlast)
      rw [ite_self] at hafter
      exact iff_of_true hafter trivial
  | some split =>
      obtain ⟨pre, line, post⟩ := split
      obtain ⟨heq, hfailed⟩ := lastUser_some hlast
      have hafter : ({} : Credentials).after events =
          if post = [] then (({} : Credentials).after pre).step (.user line) else {} := by
        rw [heq]
        unfold Credentials.after
        rw [List.foldl_append, List.foldl_cons]
        exact after_failed _ hfailed
      rw [hafter]
      cases post with
      | nil => exact step_user_iff _ line
      | cons e post => exact eq_comm

end

/-! ### Sessions -/

section

variable {env : Env} {s t : Session} {events : List Event}

theorem pop3User_run (line : List Byte) (s : Session) :
    ∃ t, pop3User line s = .ok () t ∧ t.credentials = s.credentials.step (.user line) := by
  refine ⟨_, rfl, ?_⟩
  unfold Session.credentials Credentials.step
  rw [Credentials.mk.injEq]
  refine ⟨rfl, ?_, ?_⟩
  · unfold Credentials.of
    cases hdomain : namesDomain line
    · exact if_neg (Bool.not_eq_true _ ▸ hdomain)
    · exact if_pos hdomain
  · unfold Credentials.of
    cases hmbox : namesMbox line
    · exact if_neg (Bool.not_eq_true _ ▸ hmbox)
    · exact if_pos hmbox

/-- The reply to PASS, where `auth_login` has returned. -/
def passReply : Option (Int × List Byte) → S (Option (Int × List Byte))
  | some user => do
      fprintf (bytes "+OK PASS accepted\r\n")
      return some user
  | none => do
      modify fun s => { s with username := [], domain := [], password := [], mbox := 0 }
      fprintf (bytes "-ERR Bad Password\r\n")
      return none

/-- What PASS hands to `auth_login`, and what it leaves where that fails. -/
theorem pop3Pass_run (env : Env) (line : List Byte) (s : Session) :
    ∃ t, pop3Pass env line s = .ok (env.authLogin s.tick s.credentials.username s.credentials.domain
      (snprintf 63 (skipBlanks (line.drop 4))) s.credentials.mbox) t ∧
        (env.authLogin s.tick s.credentials.username s.credentials.domain (snprintf 63 (skipBlanks (line.drop 4)))
          s.credentials.mbox = none → t.credentials = {}) := by
  have hrun : pop3Pass env line s = passReply (env.authLogin s.tick s.username s.domain
      (snprintf 63 (skipBlanks (line.drop 4))) s.mbox)
        { s with password := snprintf 63 (skipBlanks (line.drop 4)), tick := s.tick + 1 } := rfl
  unfold Session.credentials
  cases hlogin : env.authLogin s.tick s.username s.domain (snprintf 63 (skipBlanks (line.drop 4))) s.mbox with
  | none =>
      rw [hlogin] at hrun
      exact ⟨_, hrun, fun _ => rfl⟩
  | some user =>
      rw [hlogin] at hrun
      exact ⟨_, hrun, fun h => by cases h⟩

theorem pop3Stls_credentials {u : Unit} (hrun : pop3Stls env s = .ok u t) : t.credentials = s.credentials := by
  unfold pop3Stls at hrun
  obtain ⟨s₁, s₂, hget, hrun⟩ := bind_run_ok hrun
  cases hget
  split at hrun
  · obtain ⟨u₁, s₁, hprint, hrun⟩ := bind_run_ok hrun
    cases hprint
    obtain ⟨u₁, s₁, hstate, hrun⟩ := bind_run_ok hrun
    cases hstate
    cases hrun
    rfl
  · cases hrun
    rfl

/-- What a round of the login leaves of the credentials. -/
theorem loginRequest_credentials {s₁ : Session} {line : List Byte} (hread : fgets 127 s = .ok (some line) s₁)
    (hagain : loginRequest env s = .ok .again t) :
    t.credentials = s.credentials.after (eventOf env s₁ (striprn line)).toList := by
  have hsame : s₁.credentials = s.credentials := by
    rw [(fgets_state hread).2]
    rfl
  rw [← hsame]
  unfold loginRequest at hagain
  rw [run_bind_of_ok hread] at hagain
  dsimp only at hagain
  obtain ⟨s₂, s₃, hget, hagain⟩ := bind_run_ok hagain
  cases hget
  unfold eventOf
  by_cases hquit : sameText (striprn line) (bytes "quit") = true
  · rw [if_pos hquit] at hagain
    cases hagain
  rw [if_neg hquit] at hagain ⊢
  by_cases hcapa : sameText (striprn line) (bytes "capa") = true
  · rw [if_pos hcapa] at hagain ⊢
    cases hagain
    rfl
  rw [if_neg hcapa] at hagain ⊢
  by_cases hstls : sameText (striprn line) (bytes "stls") = true
  · rw [if_pos hstls] at hagain ⊢
    obtain ⟨u, s₂, hrun, hagain⟩ := bind_run_ok hagain
    cases hagain
    exact pop3Stls_credentials hrun
  rw [if_neg hstls] at hagain ⊢
  by_cases huser : startsWith (striprn line) "user" = true
  · rw [if_pos huser] at hagain ⊢
    unfold refused
    split at hagain
    · rename_i hrefused
      rw [if_pos hrefused]
      cases hagain
      rfl
    · rename_i hrefused
      rw [if_neg hrefused]
      obtain ⟨t', hrun, hstep⟩ := pop3User_run (striprn line) s₁
      rw [run_bind_of_ok hrun] at hagain
      cases hagain
      exact hstep
  rw [if_neg huser] at hagain ⊢
  by_cases hpass : startsWith (striprn line) "pass" = true
  · rw [if_pos hpass] at hagain ⊢
    unfold refused
    split at hagain
    · rename_i hrefused
      rw [if_pos hrefused]
      cases hagain
      rfl
    · rename_i hrefused
      rw [if_neg hrefused]
      obtain ⟨t', hrun, hfailed⟩ := pop3Pass_run env (striprn line) s₁
      rw [run_bind_of_ok hrun] at hagain
      cases hlogin : env.authLogin s₁.tick s₁.credentials.username s₁.credentials.domain
          (snprintf 63 (skipBlanks ((striprn line).drop 4))) s₁.credentials.mbox with
      | none =>
          rw [hlogin] at hagain
          cases hagain
          exact hfailed hlogin
      | some user =>
          rw [hlogin] at hagain
          cases hagain
  rw [if_neg hpass] at hagain ⊢
  cases hagain
  rfl

/-- What a session has is what its history has left. -/
theorem attempts_credentials (h : Attempts env s events t) : t.credentials = s.credentials.after events := by
  induction h with
  | nil s => rfl
  | cons read again rest ih =>
      rw [ih, loginRequest_credentials read again]
      unfold Credentials.after
      rw [List.foldl_append]

end

/-- The session of a new connection, behind the greeting. -/
def greeted (recvs sslReads : List (List Byte)) : Session :=
  (newSession recvs sslReads).sends [bytes "+OK Welcome to NullLogic GroupServer POP3d\r\n"]

/-- The session goes on from here. -/
def again (env : Env) (s : Session) : Session := final (loginRequest env s)

theorem again_run {env : Env} {s : Session} (h : (match loginRequest env s with
    | .ok .again _ => true
    | _ => false) = true) : loginRequest env s = .ok .again (again env s) := by
  unfold again
  split at h
  · rename_i hrun
    rw [hrun]
    rfl
  · cases h

/-- What PASS hands to `auth_login` is what the last USER line says exactly if the history is clean. -/
theorem credentials_eq_lastNamed_iff {env : Env} {recvs sslReads : List (List Byte)} {events : List Event} {t : Session}
    (h : Attempts env (greeted recvs sslReads) events t) : t.credentials = lastNamed events ↔ Clean events := by
  rw [attempts_credentials h]
  exact after_iff events

/-- Surroundings that let a client log in without TLS. -/
def noTls : Env := { goodEnv with requireTls := false }

/-- Two USER lines, of which the second names no domain and no mailbox. -/
def twoUsers : Session := greeted [bytes "user a@d:1\r\nuser b\r\n"] []

/-- The login goes on behind a line. -/
theorem attempts_one {env : Env} {s : Session} (line : List Byte) {e : Event}
    (hline : (s.conn.fgets 127).1 = some line) (hagain : (match loginRequest env s with
      | .ok .again _ => true
      | _ => false) = true)
    (hevent : eventOf env { s with conn := (s.conn.fgets 127).2 } (striprn line) = some e) {events : List Event}
    {t : Session} (hrest : Attempts env (again env s) events t) : Attempts env s (e :: events) t := by
  have hread : fgets 127 s = .ok (some line) { s with conn := (s.conn.fgets 127).2 } := by rw [fgets_run, hline]
  have hattempts := Attempts.cons hread (again_run hagain) hrest
  rw [hevent] at hattempts
  exact hattempts

/-- The history of the first line. -/
theorem credentials_eq_lastNamed_one : (again noTls twoUsers).credentials = lastNamed [.user (bytes "user a@d:1")] :=
  (credentials_eq_lastNamed_iff (attempts_one (bytes "user a@d:1\r\n") (by decide +kernel) (by decide +kernel)
    (by decide +kernel) (.nil _))).mpr ⟨.inl (by decide +kernel), .inl (by decide +kernel)⟩

/-- The domain and the mailbox of the first line are handed to `auth_login` with the name of the second. -/
theorem credentials_left : Attempts noTls twoUsers [.user (bytes "user a@d:1"), .user (bytes "user b")]
      (again noTls (again noTls twoUsers)) ∧
    (again noTls (again noTls twoUsers)).credentials ≠
      lastNamed [.user (bytes "user a@d:1"), .user (bytes "user b")] := by
  refine ⟨attempts_one (bytes "user a@d:1\r\n") (by decide +kernel) (by decide +kernel) (by decide +kernel)
    (attempts_one (bytes "user b\r\n") (by decide +kernel) (by decide +kernel) (by decide +kernel) (.nil _)), ?_⟩
  decide +kernel

end NullG.Pop3d
