/-
The server is no open relay.

Every file that a session writes the client's message to is in the mailbox of a user of a local
domain, or it is in the queue, for a recipient whose domain is not local, and `allow_relay` has
returned 1 when it was called last. `smtp_accept` decides this from the recipient alone, so that it
does not matter what `smtp_rcpt` has let through.
-/

import NullG.Lib.Keeps
import NullG.Mail.Bounce
import NullG.Smtpd.Session

namespace NullG.Smtpd

open NullG.Nsp NullG.Lib NullG.Net NullG.Mail

/-! ### The database -/

/-- A row of `gw_domains` or `gw_domains_aliases`. -/
structure Domain where
  domainname : List Byte
  domainid : Int
  deriving DecidableEq

/-- The tables that the server reads. -/
structure Db where
  domains : List Domain
  domainAliases : List Domain
  users : List User
  aliases : List Alias

/-- `domain_getid`. -/
def domainGetid (db : Db) (domainname : List Byte) : Int :=
  let domainid :=
    match db.domains.find? fun d => sameText d.domainname domainname with
    | some d => d.domainid
    | none => -1
  if domainid > 0 then domainid
  else
    match db.domainAliases.find? fun d => sameText d.domainname domainname with
    | some d => d.domainid
    | none => domainid

/-- The rows of `gw_users` of a name in a domain. -/
def Db.usersNamed (db : Db) (name : List Byte) (domainid : Int) : List User :=
  db.users.filter fun u => sameText u.username name && u.domainid == domainid

/-- The rows of `gw_users` of a name as it is written. -/
def Db.usersExact (db : Db) (name : List Byte) (domainid : Int) : List User :=
  db.users.filter fun u => u.username == name && u.domainid == domainid

/-- The rows of `gw_users` of an id in a domain. -/
def Db.usersWithId (db : Db) (userid domainid : Int) : List User :=
  db.users.filter fun u => u.userid == userid && u.domainid == domainid

/-- The rows of `gw_smtp_aliases` of a name in a domain. -/
def Db.aliasesNamed (db : Db) (name : List Byte) (domainid : Int) : List Alias :=
  db.aliases.filter fun a => sameText a.aliasname name && a.domainid == domainid

/-- Surroundings where all queries are answered from a database that does not change. -/
def Env.answering (env : Env) (db : Db) : Env :=
  { env with
    domainGetid := fun _ => domainGetid db
    usersExact := fun _ name domainid => some (db.usersExact name domainid)
    aliasesNamed := fun _ name domainid => some (db.aliasesNamed name domainid)
    usersWithId := fun _ userid domainid => some (db.usersWithId userid domainid)
    usersNamed := fun _ name domainid => some (db.usersNamed name domainid) }

/-! ### Where a message may be -/

/-- The domain that `smtp_accept` reads from a recipient. -/
def domainOf (rcpt : List Byte) : List Byte := (splitAddr (snprintf 127 rcpt)).2

/-- A message may be in a file: the queue, of a sender that can relay, or the mailbox of a user of
the recipient's domain. -/
def Allowed (db : Db) (var : List Byte) (w : Write) : Prop :=
  (¬ 0 < domainGetid db (domainOf w.rcpt) ∧ w.relay = some 1 ∧ ∃ t, w.path = mqueueFile var t) ∨
  (0 < domainGetid db (domainOf w.rcpt) ∧
    ∃ u ∈ db.users, u.domainid = domainGetid db (domainOf w.rcpt) ∧
      ∃ t, w.path = mailspoolFile var u.domainid u.username t)

/-- All messages are where they may be, and `sender_can_relay` is what `allow_relay` returned last. -/
structure Guarded (db : Db) (var : List Byte) (s : Session) : Prop where
  writes : ∀ w ∈ s.writes, Allowed db var w
  relay : s.relays.getLast? = some s.mconn.senderCanRelay

section

variable {db : Db} {env : Env} {var : List Byte}

/-- A change that keeps what the invariant is about. -/
theorem Guarded.of_eq {s s' : Session} (h : Guarded db var s) (hwrites : s'.writes = s.writes)
    (hrelays : s'.relays = s.relays) (hcan : s'.mconn.senderCanRelay = s.mconn.senderCanRelay) :
    Guarded db var s' := by
  refine ⟨?_, ?_⟩
  · rw [hwrites]
    exact h.writes
  · rw [hrelays, hcan]
    exact h.relay

theorem modify_guarded {f : Session → Session}
    (hf : ∀ s, (f s).writes = s.writes ∧ (f s).relays = s.relays ∧
      (f s).mconn.senderCanRelay = s.mconn.senderCanRelay) :
    Keeps (Guarded db var) (modify f : S Unit) :=
  .modify fun s h => h.of_eq (hf s).1 (hf s).2.1 (hf s).2.2

theorem smtpSend_guarded (line : List Byte) : Keeps (Guarded db var) (smtpSend line) :=
  modify_guarded fun _ => ⟨rfl, rfl, rfl⟩

theorem note_guarded (e : Event) : Keeps (Guarded db var) (note e) := modify_guarded fun _ => ⟨rfl, rfl, rfl⟩

theorem onWorld_guarded {α : Type} (x : W α) : Keeps (Guarded db var) (onWorld x) := by
  intro s h
  unfold onWorld
  cases x s.world with
  | ok a w => exact h.of_eq rfl rfl rfl
  | error e w =>
      cases e
      exact h.of_eq rfl rfl rfl

theorem tick_guarded : Keeps (Guarded db var) tick := onWorld_guarded _

theorem fgets_guarded (max : Nat) : Keeps (Guarded db var) (fgets max) := fun _ h => h.of_eq rfl rfl rfl

theorem setRelay_guarded {s : Session} (h : ∀ w ∈ s.writes, Allowed db var w) :
    Guarded db var (final (setRelay env s)) :=
  ⟨h, List.getLast?_concat ..⟩

/-! ### Recipients -/

theorem checkRcpt_guarded (i : Nat) : Keeps (Guarded db var) (checkRcpt i) := by
  refine .read fun s => ?_
  exact .ite (fun _ => .throw _) fun _ => .pure ()

theorem readRcpt_guarded (i : Nat) : Keeps (Guarded db var) (readRcpt i) := by
  refine .bind (checkRcpt_guarded i) fun _ => ?_
  refine .read fun s => ?_
  split
  · exact .pure _
  · exact .throw _

theorem writeRcpt_guarded (i : Nat) (rcpt : Option (List Byte)) : Keeps (Guarded db var) (writeRcpt i rcpt) :=
  .bind (checkRcpt_guarded i) fun _ => modify_guarded fun _ => ⟨rfl, rfl, rfl⟩

theorem freeRcpts_guarded (n i : Nat) : Keeps (Guarded db var) (freeRcpts n i) := by
  induction n generalizing i with
  | zero => exact .pure ()
  | succ n ih => exact .bind (writeRcpt_guarded i none) fun _ => ih (i + 1)

theorem cleanup_guarded (n i : Nat) : Keeps (Guarded db var) (cleanup n i) := by
  induction n generalizing i with
  | zero => exact .pure ()
  | succ n ih => exact .bind (checkRcpt_guarded i) fun _ => ih (i + 1)

theorem smtpRset_guarded (quiet : Bool) : Keeps (Guarded db var) (smtpRset env quiet) := by
  refine .read fun s => ?_
  refine .bind (freeRcpts_guarded _ _) fun _ => ?_
  refine .bind (modify_guarded fun _ => ⟨rfl, rfl, rfl⟩) fun _ => ?_
  refine .bind (fun s h => setRelay_guarded h.writes) fun _ => ?_
  refine .bind (modify_guarded fun _ => ⟨rfl, rfl, rfl⟩) fun _ => ?_
  refine .bind (note_guarded _) fun _ => ?_
  exact .ite (fun _ => smtpSend_guarded _) fun _ => .pure ()

/-! ### `smtp_accept` -/

theorem userNamed_guarded (name : List Byte) (domainid : Int) :
    Keeps (Guarded db var) (userNamed env name domainid) := by
  refine .bind tick_guarded fun n => ?_
  split <;> exact .pure _

theorem findUser_guarded (name : List Byte) (domainid : Int) :
    Keeps (Guarded db var) (findUser env name domainid) := by
  refine .bind tick_guarded fun n => ?_
  split
  · exact .pure _
  · refine .bind tick_guarded fun m => ?_
    split
    · exact .pure _
    · exact .ite (fun _ => userNamed_guarded _ _) fun _ => .pure _
    · exact userNamed_guarded _ _
  · exact userNamed_guarded _ _

/-- A mailbox is that of a user of the domain. -/
def Known (db : Db) (domainid : Int) : Mailbox → Prop
  | .user mailbox => ∃ u ∈ db.users, u.domainid = domainid ∧ u.username = mailbox
  | _ => True

theorem mem_of_usersNamed {name : List Byte} {domainid : Int} {u : User}
    (h : db.usersNamed name domainid = [u]) : u ∈ db.users ∧ u.domainid = domainid := by
  have hmem : u ∈ db.usersNamed name domainid := by
    rw [h]
    exact List.mem_singleton.mpr rfl
  obtain ⟨hu, hp⟩ := List.mem_filter.mp hmem
  exact ⟨hu, by simpa using (Bool.and_eq_true_iff.mp hp).2⟩

theorem mem_of_usersWithId {userid domainid : Int} {u : User}
    (h : db.usersWithId userid domainid = [u]) : u ∈ db.users ∧ u.domainid = domainid := by
  have hmem : u ∈ db.usersWithId userid domainid := by
    rw [h]
    exact List.mem_singleton.mpr rfl
  obtain ⟨hu, hp⟩ := List.mem_filter.mp hmem
  exact ⟨hu, by simpa using (Bool.and_eq_true_iff.mp hp).2⟩

theorem userNamed_known {s t : Session} {name : List Byte} {domainid : Int} {m : Mailbox}
    (h : userNamed (env.answering db) name domainid s = .ok m t) : Known db domainid m := by
  obtain ⟨n, s₁, -, h⟩ := bind_run_ok h
  have hrows : (env.answering db).usersNamed n name domainid = some (db.usersNamed name domainid) := rfl
  rw [hrows] at h
  cases hdb : db.usersNamed name domainid with
  | nil =>
      rw [hdb] at h
      cases h
      trivial
  | cons u rows =>
      rw [hdb] at h
      cases rows with
      | cons v rows =>
          cases h
          trivial
      | nil =>
          obtain ⟨hu, hdomain⟩ := mem_of_usersNamed hdb
          by_cases hid : u.userid < 1
          · have hm : m = .nobody := by
              simp only [if_pos hid] at h
              cases h
              rfl
            rw [hm]
            trivial
          · have hm : m = .user u.username := by
              simp only [if_neg hid] at h
              cases h
              rfl
            rw [hm]
            exact ⟨u, hu, hdomain, rfl⟩

theorem findUser_known {s t : Session} {name : List Byte} {domainid : Int} {m : Mailbox}
    (h : findUser (env.answering db) name domainid s = .ok m t) : Known db domainid m := by
  obtain ⟨n, s₁, -, h⟩ := bind_run_ok h
  have halias : (env.answering db).aliasesNamed n name domainid = some (db.aliasesNamed name domainid) := rfl
  rw [halias] at h
  cases hdb : db.aliasesNamed name domainid with
  | nil =>
      rw [hdb] at h
      exact userNamed_known h
  | cons a rows =>
      rw [hdb] at h
      cases rows with
      | cons b rows => exact userNamed_known h
      | nil =>
          obtain ⟨k, s₂, -, h⟩ := bind_run_ok h
          have huser : (env.answering db).usersWithId k a.userid domainid =
            some (db.usersWithId a.userid domainid) := rfl
          rw [huser] at h
          cases hrows : db.usersWithId a.userid domainid with
          | nil =>
              rw [hrows] at h
              exact userNamed_known h
          | cons u rows =>
              rw [hrows] at h
              cases rows with
              | cons v rows => exact userNamed_known h
              | nil =>
                  obtain ⟨hu, hdomain⟩ := mem_of_usersWithId hrows
                  by_cases hid : u.userid < 1
                  · simp only [if_pos hid] at h
                    exact userNamed_known h
                  · simp only [if_neg hid] at h
                    cases h
                    exact ⟨u, hu, hdomain, rfl⟩

/-- The write of a message to a file where it may be. -/
theorem writeMessage_guarded {P : Option Int → Prop} {now : Nat} {path rcpt : List Byte} {info : Option (List Byte)}
    (hallowed : ∀ body relay, P relay → Allowed db var ⟨path, rcpt, body, relay⟩) :
    Keeps (fun s => Guarded db var s ∧ P s.relays.getLast?) (writeMessage env now path info rcpt) := by
  have honWorld : ∀ {α : Type} (x : W α), Keeps (fun s => Guarded db var s ∧ P s.relays.getLast?) (onWorld x) := by
    intro α x s h
    unfold onWorld
    cases x s.world with
    | ok a w => exact ⟨h.1.of_eq rfl rfl rfl, h.2⟩
    | error e w =>
        cases e
        exact ⟨h.1.of_eq rfl rfl rfl, h.2⟩
  refine .read fun s => ?_
  refine .bind (honWorld _) fun written => .ite (fun _ => ?_) fun _ => .pure _
  refine .bind (.modify fun s h => ⟨⟨?_, h.1.relay⟩, h.2⟩) fun _ => ?_
  · intro w hw
    rcases List.mem_append.mp hw with hw | hw
    · exact h.1.writes w hw
    · rw [List.mem_singleton.mp hw]
      exact hallowed _ _ h.2
  refine .bind (honWorld _) fun n => ?_
  refine .ite (fun _ => .bind (honWorld _) fun _ => .pure _) fun _ => ?_
  refine .bind (honWorld _) fun n => ?_
  refine .ite (fun _ => .bind (honWorld _) fun _ => .pure _) fun _ => ?_
  split
  · exact .pure _
  · refine .read fun s => ?_
    refine .bind (honWorld _) fun written => .ite (fun _ => .pure _) fun _ => ?_
    exact .bind (honWorld _) fun _ => .pure _

theorem acceptFor_guarded (now : Nat) (rcpt : List Byte) :
    Keeps (Guarded db env.var) (acceptFor (env.answering db) now rcpt) := by
  refine .bind tick_guarded fun n => ?_
  refine .ite (fun hlocal => ?_) fun hremote => ?_
  · refine .bind_val (findUser_guarded _ _) (fun s a t _ h => findUser_known h) fun m hm => ?_
    cases m with
    | failed => exact .pure _
    | nobody =>
        refine .read fun s => ?_
        exact .bind (onWorld_guarded _) fun _ => .pure _
    | user mailbox =>
        obtain ⟨u, hu, hdomain, rfl⟩ := hm
        refine .bind tick_guarded fun n => ?_
        refine .ite (fun _ => .pure none) fun _ => ?_
        refine .bind_val (P := fun path => ∃ t, path = mailspoolFile env.var u.domainid u.username t)
          (onWorld_guarded _) ?_ ?_
        · intro s path t _ h
          obtain ⟨w, h⟩ := onWorld_ok h
          obtain ⟨-, -, t, ht⟩ := freeMailspool_free h
          exact ⟨t, ht.trans (by rw [hdomain]; rfl)⟩
        · rintro path ⟨t, rfl⟩ s hs
          exact (writeMessage_guarded (P := fun _ => True)
            (fun _ _ _ => .inr ⟨hlocal, u, hu, hdomain, t, rfl⟩) s ⟨hs, trivial⟩).1
  · refine .get_bind fun s hs => ?_
    by_cases hcan : s.mconn.senderCanRelay = 1
    · rw [if_pos hcan]
      -- nothing between the test and the write changes what `allow_relay` returned last
      have hrelay : s.relays.getLast? = some 1 := by rw [hs.relay, hcan]
      have hblock : Keeps (fun s => Guarded db env.var s ∧ s.relays.getLast? = some 1) (do
          let r ← onWorld (freeMqueue (env.answering db).toSystem)
          writeMessage (env.answering db) now r.1 (some r.2) rcpt) := by
        refine .bind_val (P := fun paths => ∃ t, paths.1 = mqueueFile env.var t) ?_ ?_ ?_
        · intro s h
          exact ⟨onWorld_guarded _ s h.1, by
            unfold onWorld
            cases freeMqueue (env.answering db).toSystem s.world <;> exact h.2⟩
        · intro s paths t _ h
          obtain ⟨w, h⟩ := onWorld_ok h
          obtain ⟨-, -, -, t, rfl⟩ := freeMqueue_free h
          exact ⟨t, rfl⟩
        · rintro ⟨path, info⟩ ⟨t, ht⟩
          exact writeMessage_guarded (P := (· = some 1)) fun _ _ hr => .inl ⟨hremote, hr, t, ht⟩
      exact (hblock s ⟨hs, hrelay⟩).1
    · rw [if_neg hcan]
      exact hs

theorem acceptFrom_guarded (now n i : Nat) :
    Keeps (Guarded db env.var) (acceptFrom (env.answering db) now n i) := by
  induction n generalizing i with
  | zero => exact .pure 0
  | succ n ih =>
      refine .bind (readRcpt_guarded i) fun rcpt => ?_
      refine .bind (acceptFor_guarded now rcpt) fun r => ?_
      cases r with
      | some rc => exact .pure rc
      | none => exact ih (i + 1)

theorem smtpAccept_guarded : Keeps (Guarded db env.var) (smtpAccept (env.answering db)) := by
  refine .bind tick_guarded fun now => ?_
  exact .read fun s => acceptFrom_guarded _ _ _

/-! ### The commands -/

theorem dataLoop_guarded (now fuel : Nat) (h : Msgheader) (done : Bool) :
    Keeps (Guarded db var) (dataLoop env now fuel h done) := by
  induction fuel generalizing h done with
  | zero => exact .throw _
  | succ fuel ih =>
      refine .bind (fgets_guarded 1023) fun line => ?_
      cases line with
      | none => exact .pure false
      | some line =>
          refine .read fun s => ?_
          dsimp only
          refine .bind (modify_guarded fun _ => ⟨rfl, rfl, rfl⟩) fun _ => ?_
          refine .ite (fun _ => .pure _) fun _ => ?_
          exact .bind (modify_guarded fun _ => ⟨rfl, rfl, rfl⟩) fun _ => ih _ _

theorem smtpData_guarded : Keeps (Guarded db env.var) (smtpData (env.answering db)) := by
  refine .bind tick_guarded fun now => ?_
  refine .read fun s => ?_
  refine .ite (fun _ => smtpSend_guarded _) fun _ => ?_
  refine .ite (fun _ => smtpSend_guarded _) fun _ => ?_
  refine .bind (smtpSend_guarded _) fun _ => ?_
  refine .bind (note_guarded _) fun _ => ?_
  refine .bind (modify_guarded fun _ => ⟨rfl, rfl, rfl⟩) fun _ => ?_
  refine .bind (dataLoop_guarded _ _ _ _) fun ended => .ite (fun _ => ?_) fun _ => .pure _
  refine .bind (note_guarded _) fun _ => ?_
  refine .bind smtpAccept_guarded fun rc => ?_
  exact .bind (modify_guarded fun _ => ⟨rfl, rfl, rfl⟩) fun _ => smtpSend_guarded _

theorem smtpFrom_guarded (arg : List Byte) : Keeps (Guarded db var) (smtpFrom arg) := by
  refine .read fun s => ?_
  refine .bind (freeRcpts_guarded _ _) fun _ => ?_
  refine .bind (modify_guarded fun _ => ⟨rfl, rfl, rfl⟩) fun _ => ?_
  refine .bind (note_guarded _) fun _ => ?_
  refine .ite (fun _ => smtpSend_guarded _) fun _ => ?_
  exact .bind (modify_guarded fun _ => ⟨rfl, rfl, rfl⟩) fun _ => smtpSend_guarded _

theorem smtpRcpt_guarded (arg : List Byte) : Keeps (Guarded db var) (smtpRcpt env arg) := by
  refine .read fun s => ?_
  refine .ite (fun _ => smtpSend_guarded _) fun _ => ?_
  refine .ite (fun _ => smtpSend_guarded _) fun _ => ?_
  refine .bind tick_guarded fun n => ?_
  refine .ite (fun _ => smtpSend_guarded _) fun _ => ?_
  refine .bind (writeRcpt_guarded _ _) fun _ => ?_
  refine .bind (modify_guarded fun _ => ⟨rfl, rfl, rfl⟩) fun _ => ?_
  refine .bind (note_guarded _) fun _ => ?_
  exact .bind (readRcpt_guarded _) fun _ => smtpSend_guarded _

theorem command_guarded (line : List Byte) : Keeps (Guarded db env.var) (command (env.answering db) line) := by
  refine .read fun s => ?_
  refine .ite (fun _ => ?_) fun _ => .ite (fun _ => ?_) fun _ => .ite (fun _ => ?_) fun _ => smtpSend_guarded _
  · refine .bind (modify_guarded fun _ => ⟨rfl, rfl, rfl⟩) fun _ => ?_
    refine .bind (smtpSend_guarded _) fun _ => ?_
    refine .bind (smtpSend_guarded _) fun _ => ?_
    exact .ite (fun _ => modify_guarded fun _ => ⟨rfl, rfl, rfl⟩) fun _ => .pure ()
  · refine .bind (smtpSend_guarded _) fun _ => ?_
    refine .bind (smtpRset_guarded true) fun _ => ?_
    refine .bind (modify_guarded fun _ => ⟨rfl, rfl, rfl⟩) fun _ => ?_
    exact .bind tick_guarded fun n => modify_guarded fun _ => ⟨rfl, rfl, rfl⟩
  · refine .ite (fun _ => smtpSend_guarded _) fun _ => ?_
    refine .ite (fun _ => smtpFrom_guarded _) fun _ => ?_
    refine .ite (fun _ => smtpRcpt_guarded _) fun _ => ?_
    refine .ite (fun _ => smtpData_guarded) fun _ => ?_
    refine .ite (fun _ => smtpRset_guarded false) fun _ => ?_
    refine .ite (fun _ => smtpSend_guarded _) fun _ => ?_
    exact .ite (fun _ => smtpSend_guarded _) fun _ => smtpSend_guarded _

theorem requestLoop_guarded (fuel : Nat) : Keeps (Guarded db env.var) (requestLoop (env.answering db) fuel) := by
  induction fuel with
  | zero => exact .throw _
  | succ fuel ih =>
      have hrequest : Keeps (Guarded db env.var) (request (env.answering db)) := by
        refine .bind (fgets_guarded 255) fun line => ?_
        cases line with
        | none => exact .pure _
        | some line =>
            refine .ite (fun _ => .bind (smtpSend_guarded _) fun _ => .pure _) fun _ => ?_
            exact .bind (command_guarded _) fun _ => .pure _
      exact .bind hrequest fun more => .ite (fun _ => ih) fun _ => .pure ()

/-- Every message of a session is where it may be. -/
def NoOpenRelay (db : Db) (env : Env) (s : Session) : Prop :=
  ∀ w ∈ (final (smtpDorequest (env.answering db) s)).writes, Allowed db env.var w

/-- The invariant holds from the first call of `allow_relay` on. -/
theorem greet_guarded {s : Session} (h : ∀ w ∈ s.writes, Allowed db var w) : Guarded db var (final (greet env s)) := by
  have hrest : Keeps (Guarded db var) (do
      let s ← get
      if s.mconn.senderCanRelay = -1 ∨ env.prefilter ≠ 0 then
        smtpSend (snprintf 255 (bytes "550 5.3.2 Service currently unavailable; client " ++ env.remoteAddr ++
          bytes " temporarily blocked"))
        return false
      else
        smtpSend (snprintf 255 (bytes "220 " ++ env.hostName ++ bytes " - NullLogic GroupServer SMTPd"))
        setMconn fun m => { m with rcptalloc := 50, rcpt := List.replicate 50 none }
        return true) := by
    refine .read fun s => .ite (fun _ => .bind (smtpSend_guarded _) fun _ => .pure _) fun _ => ?_
    exact .bind (smtpSend_guarded _) fun _ => .bind (modify_guarded fun _ => ⟨rfl, rfl, rfl⟩) fun _ => .pure _
  exact hrest _ (@setRelay_guarded db env var _ h)

/-- No session is an open relay, whatever the client sends and however it comes. -/
theorem noOpenRelay (db : Db) (env : Env) (recvs sslReads : List (List Byte)) :
    NoOpenRelay db env (newSession recvs sslReads) := by
  have hnone : ∀ w ∈ (newSession recvs sslReads).writes, Allowed db env.var w :=
    fun w hw => absurd hw List.not_mem_nil
  unfold NoOpenRelay smtpDorequest
  by_cases hinit : (env.answering db).initOk = true
  · rw [if_pos hinit]
    have hend : Keeps (Guarded db env.var) (do
        let s ← get
        cleanup s.mconn.numRcpts 0) := .read fun s => cleanup_guarded _ _
    have hrest : ∀ more : Bool, Keeps (Guarded db env.var) (do
        if more then
          let s ← get
          requestLoop (env.answering db) (s.conn.left + 1)
        let s ← get
        cleanup s.mconn.numRcpts 0) := by
      intro more
      refine .ite (fun _ => .read fun s => .bind (requestLoop_guarded _) fun _ => hend) fun _ => hend
    have hgreet := @greet_guarded db (env.answering db) _ _ hnone
    cases hrun : greet (env.answering db) (newSession recvs sslReads) with
    | ok more s =>
        rw [hrun] at hgreet
        rw [run_bind_of_ok hrun]
        exact (hrest more s hgreet).writes
    | error e s =>
        rw [hrun] at hgreet
        rw [run_bind_of_error hrun]
        exact hgreet.writes
  · rw [if_neg hinit]
    exact hnone

end

end NullG.Smtpd
