/-
Plaintext behind STARTTLS and STLS.

Neither server does anything with a connection but what `ConnInv` lists, so each of them keeps
`Clean`. The servers forget what the client has said in plain text before a handshake, but not what
of it is still in the buffer.
-/

import NullG.Lib.Keeps
import NullG.Net.Tls
import NullG.Pop3d.Server
import NullG.Smtpd.Server

/-! ### The SMTP server -/

namespace NullG.Smtpd

open NullG.Nsp NullG.Lib NullG.Net NullG.Mail

section

variable {P : Conn → Prop} (hP : ConnInv P) {env : Env}

theorem modify_conn {f : Session → Session} (hf : ∀ s, (f s).conn = s.conn) :
    Keeps (fun s => P s.conn) (modify f : S Unit) := by
  refine .modify fun s h => ?_
  rw [hf s]
  exact h

theorem onWorld_conn {α : Type} (x : W α) : Keeps (fun s => P s.conn) (onWorld x) := by
  intro s h
  unfold onWorld
  cases x s.world with
  | ok a w => exact h
  | error e w =>
      cases e
      exact h

theorem checkRcpt_conn (i : Nat) : Keeps (fun s => P s.conn) (checkRcpt i) := by
  refine .read fun s => ?_
  exact .ite (fun _ => .throw _) fun _ => .pure ()

theorem readRcpt_conn (i : Nat) : Keeps (fun s => P s.conn) (readRcpt i) := by
  refine .bind (checkRcpt_conn i) fun _ => ?_
  refine .read fun s => ?_
  split
  · exact .pure _
  · exact .throw _

theorem writeRcpt_conn (i : Nat) (rcpt : Option (List Byte)) : Keeps (fun s => P s.conn) (writeRcpt i rcpt) :=
  .bind (checkRcpt_conn i) fun _ => modify_conn fun _ => rfl

theorem freeRcpts_conn (n i : Nat) : Keeps (fun s => P s.conn) (freeRcpts n i) := by
  induction n generalizing i with
  | zero => exact .pure ()
  | succ n ih => exact .bind (writeRcpt_conn i none) fun _ => ih (i + 1)

theorem cleanup_conn (n i : Nat) : Keeps (fun s => P s.conn) (cleanup n i) := by
  induction n generalizing i with
  | zero => exact .pure ()
  | succ n ih => exact .bind (checkRcpt_conn i) fun _ => ih (i + 1)

theorem setRelay_conn : Keeps (fun s => P s.conn) (setRelay env) :=
  .bind (onWorld_conn _) fun _ => modify_conn fun _ => rfl

theorem userNamed_conn (name : List Byte) (domainid : Int) : Keeps (fun s => P s.conn) (userNamed env name domainid) := by
  refine .bind (onWorld_conn _) fun n => ?_
  split <;> exact .pure _

theorem findUser_conn (name : List Byte) (domainid : Int) : Keeps (fun s => P s.conn) (findUser env name domainid) := by
  refine .bind (onWorld_conn _) fun n => ?_
  split
  · exact .pure _
  · refine .bind (onWorld_conn _) fun m => ?_
    split
    · exact .pure _
    · exact .ite (fun _ => userNamed_conn _ _) fun _ => .pure _
    · exact userNamed_conn _ _
  · exact userNamed_conn _ _

theorem writeMessage_conn (now : Nat) (path : List Byte) (info : Option (List Byte)) (rcpt : List Byte) :
    Keeps (fun s => P s.conn) (writeMessage env now path info rcpt) := by
  refine .read fun s => ?_
  refine .bind (onWorld_conn _) fun written => .ite (fun _ => ?_) fun _ => .pure _
  refine .bind (modify_conn fun _ => rfl) fun _ => ?_
  refine .bind (onWorld_conn _) fun n => ?_
  refine .ite (fun _ => .bind (onWorld_conn _) fun _ => .pure _) fun _ => ?_
  refine .bind (onWorld_conn _) fun n => ?_
  refine .ite (fun _ => .bind (onWorld_conn _) fun _ => .pure _) fun _ => ?_
  split
  · exact .pure _
  · refine .read fun s => ?_
    refine .bind (onWorld_conn _) fun written => .ite (fun _ => .pure _) fun _ => ?_
    exact .bind (onWorld_conn _) fun _ => .pure _

theorem acceptFor_conn (now : Nat) (rcpt : List Byte) : Keeps (fun s => P s.conn) (acceptFor env now rcpt) := by
  refine .bind (onWorld_conn _) fun n => ?_
  refine .ite (fun _ => ?_) fun _ => ?_
  · refine .bind (findUser_conn _ _) fun m => ?_
    cases m with
    | failed => exact .pure _
    | nobody => exact .read fun s => .bind (onWorld_conn _) fun _ => .pure _
    | user mailbox =>
        refine .bind (onWorld_conn _) fun n => ?_
        refine .ite (fun _ => .pure none) fun _ => ?_
        exact .bind (onWorld_conn _) fun path => writeMessage_conn _ _ _ _
  · refine .read fun s => .ite (fun _ => ?_) fun _ => .pure _
    exact .bind (onWorld_conn _) fun paths => writeMessage_conn _ _ _ _

theorem smtpAccept_conn : Keeps (fun s => P s.conn) (smtpAccept env) := by
  have hfrom : ∀ now n i, Keeps (fun s => P s.conn) (acceptFrom env now n i) := by
    intro now n
    induction n with
    | zero => exact fun i => .pure 0
    | succ n ih =>
        intro i
        refine .bind (readRcpt_conn i) fun rcpt => ?_
        refine .bind (acceptFor_conn now rcpt) fun r => ?_
        cases r with
        | some rc => exact .pure rc
        | none => exact ih (i + 1)
  exact .bind (onWorld_conn _) fun now => .read fun s => hfrom _ _ _

include hP

theorem smtpSend_conn (line : List Byte) : Keeps (fun s => P s.conn) (smtpSend line) :=
  .modify fun _ h => hP.send _ h

theorem fgets_conn {max : Nat} (hmax : 0 < max) : Keeps (fun s => P s.conn) (fgets max) :=
  fun _ h => hP.fgets hmax h

theorem smtpRset_conn (quiet : Bool) : Keeps (fun s => P s.conn) (smtpRset env quiet) := by
  refine .read fun s => ?_
  refine .bind (freeRcpts_conn _ _) fun _ => ?_
  refine .bind (modify_conn fun _ => rfl) fun _ => ?_
  refine .bind setRelay_conn fun _ => ?_
  refine .bind (modify_conn fun _ => rfl) fun _ => ?_
  refine .bind (modify_conn fun _ => rfl) fun _ => ?_
  exact .ite (fun _ => smtpSend_conn hP _) fun _ => .pure ()

theorem dataLoop_conn (now fuel : Nat) (h : Msgheader) (done : Bool) :
    Keeps (fun s => P s.conn) (dataLoop env now fuel h done) := by
  induction fuel generalizing h done with
  | zero => exact .throw _
  | succ fuel ih =>
      refine .bind (fgets_conn hP (by decide)) fun line => ?_
      cases line with
      | none => exact .pure false
      | some line =>
          refine .read fun s => ?_
          dsimp only
          refine .bind (modify_conn fun _ => rfl) fun _ => ?_
          refine .ite (fun _ => .pure _) fun _ => ?_
          exact .bind (modify_conn fun _ => rfl) fun _ => ih _ _

theorem smtpData_conn : Keeps (fun s => P s.conn) (smtpData env) := by
  refine .bind (onWorld_conn _) fun now => ?_
  refine .read fun s => ?_
  refine .ite (fun _ => smtpSend_conn hP _) fun _ => ?_
  refine .ite (fun _ => smtpSend_conn hP _) fun _ => ?_
  refine .bind (smtpSend_conn hP _) fun _ => ?_
  refine .bind (modify_conn fun _ => rfl) fun _ => ?_
  refine .bind (modify_conn fun _ => rfl) fun _ => ?_
  refine .bind (dataLoop_conn hP _ _ _ _) fun ended => .ite (fun _ => ?_) fun _ => .pure _
  refine .bind (modify_conn fun _ => rfl) fun _ => ?_
  refine .bind smtpAccept_conn fun rc => ?_
  exact .bind (modify_conn fun _ => rfl) fun _ => smtpSend_conn hP _

theorem smtpFrom_conn (arg : List Byte) : Keeps (fun s => P s.conn) (smtpFrom arg) := by
  refine .read fun s => ?_
  refine .bind (freeRcpts_conn _ _) fun _ => ?_
  refine .bind (modify_conn fun _ => rfl) fun _ => ?_
  refine .bind (modify_conn fun _ => rfl) fun _ => ?_
  refine .ite (fun _ => smtpSend_conn hP _) fun _ => ?_
  exact .bind (modify_conn fun _ => rfl) fun _ => smtpSend_conn hP _

theorem smtpRcpt_conn (arg : List Byte) : Keeps (fun s => P s.conn) (smtpRcpt env arg) := by
  refine .read fun s => ?_
  refine .ite (fun _ => smtpSend_conn hP _) fun _ => ?_
  refine .ite (fun _ => smtpSend_conn hP _) fun _ => ?_
  refine .bind (onWorld_conn _) fun n => ?_
  refine .ite (fun _ => smtpSend_conn hP _) fun _ => ?_
  refine .bind (writeRcpt_conn _ _) fun _ => ?_
  refine .bind (modify_conn fun _ => rfl) fun _ => ?_
  refine .bind (modify_conn fun _ => rfl) fun _ => ?_
  exact .bind (readRcpt_conn _) fun _ => smtpSend_conn hP _

theorem setState_conn (state : Nat) : Keeps (fun s => P s.conn) (setState state) :=
  .modify fun _ h => hP.setState state h

theorem command_conn (line : List Byte) : Keeps (fun s => P s.conn) (command env line) := by
  refine .read fun s => ?_
  refine .ite (fun _ => ?_) fun _ => .ite (fun _ => ?_) fun _ => .ite (fun _ => ?_) fun _ => smtpSend_conn hP _
  · refine .bind (modify_conn fun _ => rfl) fun _ => ?_
    refine .bind (smtpSend_conn hP _) fun _ => ?_
    refine .bind (smtpSend_conn hP _) fun _ => ?_
    exact .ite (fun _ => setState_conn hP 1) fun _ => .pure ()
  · refine .bind (smtpSend_conn hP _) fun _ => ?_
    refine .bind (smtpRset_conn hP true) fun _ => ?_
    refine .bind (setState_conn hP 0) fun _ => ?_
    exact .bind (onWorld_conn _) fun n => .modify fun _ h => hP.accept _ h
  · refine .ite (fun _ => smtpSend_conn hP _) fun _ => ?_
    refine .ite (fun _ => smtpFrom_conn hP _) fun _ => ?_
    refine .ite (fun _ => smtpRcpt_conn hP _) fun _ => ?_
    refine .ite (fun _ => smtpData_conn hP) fun _ => ?_
    refine .ite (fun _ => smtpRset_conn hP false) fun _ => ?_
    refine .ite (fun _ => smtpSend_conn hP _) fun _ => ?_
    exact .ite (fun _ => smtpSend_conn hP _) fun _ => smtpSend_conn hP _

theorem request_conn : Keeps (fun s => P s.conn) (request env) := by
  refine .bind (fgets_conn hP (by decide)) fun line => ?_
  cases line with
  | none => exact .pure _
  | some line =>
      refine .ite (fun _ => .bind (smtpSend_conn hP _) fun _ => .pure _) fun _ => ?_
      exact .bind (command_conn hP _) fun _ => .pure _

theorem greet_conn : Keeps (fun s => P s.conn) (greet env) := by
  refine .bind setRelay_conn fun _ => .read fun s => .ite (fun _ => ?_) fun _ => ?_
  · exact .bind (smtpSend_conn hP _) fun _ => .pure _
  · exact .bind (smtpSend_conn hP _) fun _ => .bind (modify_conn fun _ => rfl) fun _ => .pure _

theorem requestLoop_conn (fuel : Nat) : Keeps (fun s => P s.conn) (requestLoop env fuel) := by
  induction fuel with
  | zero => exact .throw _
  | succ fuel ih => exact .bind (request_conn hP) fun more => .ite (fun _ => ih) fun _ => .pure ()

/-- The SMTP server keeps what a server keeps. -/
theorem smtpDorequest_conn : Keeps (fun s => P s.conn) (smtpDorequest env) := by
  have hend : Keeps (fun s => P s.conn) (do
      let s ← get
      cleanup s.mconn.numRcpts 0) := .read fun s => cleanup_conn _ _
  refine .ite (fun _ => .bind (greet_conn hP) fun more => ?_) fun _ => .pure ()
  exact .ite (fun _ => .read fun s => .bind (requestLoop_conn hP _) fun _ => hend) fun _ => hend

end

end NullG.Smtpd

/-! ### The POP3 server -/

namespace NullG.Pop3d

open NullG.Nsp NullG.Lib NullG.Net NullG.Mail

section

variable {P : Conn → Prop} (hP : ConnInv P) {env : Env}

theorem modify_conn {f : Session → Session} (hf : ∀ s, (f s).conn = s.conn) :
    Keeps (fun s => P s.conn) (modify f : S Unit) := by
  refine .modify fun s h => ?_
  rw [hf s]
  exact h

theorem tick_conn : Keeps (fun s => P s.conn) tick := fun _ h => h

include hP

theorem fgets_conn {max : Nat} (hmax : 0 < max) : Keeps (fun s => P s.conn) (fgets max) :=
  fun _ h => hP.fgets hmax h

theorem fprintf_conn (text : List Byte) : Keeps (fun s => P s.conn) (fprintf text) :=
  .modify fun _ h => hP.send _ h

theorem send_conn (text : List Byte) : Keeps (fun s => P s.conn) (send text) := .modify fun _ h => hP.send _ h

theorem pop3Capa_conn : Keeps (fun s => P s.conn) pop3Capa := by
  refine .bind (fprintf_conn hP _) fun _ => .bind (fprintf_conn hP _) fun _ => ?_
  refine .bind (fprintf_conn hP _) fun _ => .bind (fprintf_conn hP _) fun _ => ?_
  exact .bind (fprintf_conn hP _) fun _ => fprintf_conn hP _

theorem listing_conn (text : Mdirent → List Byte) (line : List Byte) :
    Keeps (fun s => P s.conn) (listing text line) := by
  have hfrom : ∀ msg i, Keeps (fun s => P s.conn) (listFrom text i msg) := by
    intro msg
    induction msg with
    | nil => exact fun i => .pure ()
    | cons m msg ih =>
        intro i
        exact .ite (fun _ => .bind (fprintf_conn hP _) fun _ => ih _) fun _ => ih _
  refine .read fun s => ?_
  refine .ite (fun _ => ?_) fun _ => .ite (fun _ => ?_) fun _ => fprintf_conn hP _
  · split <;> exact fprintf_conn hP _
  · refine .bind (fprintf_conn hP _) fun _ => ?_
    exact .bind (hfrom _ _) fun _ => fprintf_conn hP _

theorem pop3Retr_conn (line : List Byte) : Keeps (fun s => P s.conn) (pop3Retr env line) := by
  have hloop : ∀ pieces out, Keeps (fun s => P s.conn) (retrLoop pieces out) := by
    intro pieces
    induction pieces with
    | nil => exact fun out => send_conn hP out
    | cons buffer rest ih => exact fun out => .ite (fun _ => .bind (send_conn hP _) fun _ => ih _) fun _ => ih _
  refine .read fun s => ?_
  dsimp only
  split
  · exact fprintf_conn hP _
  · refine .bind tick_conn fun n => ?_
    split
    · exact fprintf_conn hP _
    · refine .bind (fprintf_conn hP _) fun _ => ?_
      refine .bind (hloop _ _) fun _ => ?_
      exact .bind (fprintf_conn hP _) fun _ => modify_conn fun _ => rfl

theorem pop3Top_conn (line : List Byte) : Keeps (fun s => P s.conn) (pop3Top env line) := by
  have hheader : ∀ pieces, Keeps (fun s => P s.conn) (topHeader pieces) := by
    intro pieces
    induction pieces with
    | nil => exact .pure _
    | cons buffer rest ih => exact .bind (fprintf_conn hP _) fun _ => .ite (fun _ => .pure _) fun _ => ih
  have hbody : ∀ n pieces, Keeps (fun s => P s.conn) (topBody n pieces) := by
    intro n
    induction n with
    | zero => exact fun pieces => .pure ()
    | succ n ih =>
        intro pieces
        cases pieces with
        | nil => exact .pure ()
        | cons buffer rest => exact .bind (fprintf_conn hP _) fun _ => ih rest
  refine .read fun s => ?_
  dsimp only
  split
  · exact fprintf_conn hP _
  · refine .bind tick_conn fun n => ?_
    split
    · exact fprintf_conn hP _
    · refine .bind (fprintf_conn hP _) fun _ => ?_
      refine .bind (hheader _) fun _ => ?_
      refine .bind (hbody _ _) fun _ => ?_
      exact .bind (fprintf_conn hP _) fun _ => modify_conn fun _ => rfl

theorem pop3Dele_conn (line : List Byte) : Keeps (fun s => P s.conn) (pop3Dele line) := by
  refine .read fun s => ?_
  refine .ite (fun _ => fprintf_conn hP _) fun _ => ?_
  split
  · exact fprintf_conn hP _
  · refine .bind (modify_conn fun _ => rfl) fun _ => ?_
    exact .bind (modify_conn fun _ => rfl) fun _ => fprintf_conn hP _

theorem mailboxRequest_conn : Keeps (fun s => P s.conn) (mailboxRequest env) := by
  refine .bind (fgets_conn hP (by decide)) fun line => ?_
  cases line with
  | none => exact .pure _
  | some line =>
      refine .ite (fun _ => .bind (fprintf_conn hP _) fun _ => .pure _) fun _ => ?_
      refine .ite (fun _ => .bind (pop3Capa_conn hP) fun _ => .pure _) fun _ => ?_
      refine .ite (fun _ => .bind (.read fun s => fprintf_conn hP _) fun _ => .pure _) fun _ => ?_
      refine .ite (fun _ => .bind (listing_conn hP _ _) fun _ => .pure _) fun _ => ?_
      refine .ite (fun _ => .bind (pop3Retr_conn hP _) fun _ => .pure _) fun _ => ?_
      refine .ite (fun _ => .bind (pop3Dele_conn hP _) fun _ => .pure _) fun _ => ?_
      refine .ite (fun _ => .bind (fprintf_conn hP _) fun _ => .pure _) fun _ => ?_
      refine .ite (fun _ => .bind (.read fun s => fprintf_conn hP _) fun _ => .pure _) fun _ => ?_
      refine .ite (fun _ => .bind (.bind (modify_conn fun _ => rfl) fun _ => fprintf_conn hP _) fun _ => .pure _)
        fun _ => ?_
      refine .ite (fun _ => .bind (pop3Top_conn hP _) fun _ => .pure _) fun _ => ?_
      refine .ite (fun _ => .bind (listing_conn hP _ _) fun _ => .pure _) fun _ => ?_
      exact .bind (fprintf_conn hP _) fun _ => .pure _

theorem serve_conn (msg : List Mdirent) : Keeps (fun s => P s.conn) (serve env msg) := by
  have hloop : ∀ fuel, Keeps (fun s => P s.conn) (mailboxLoop env fuel) := by
    intro fuel
    induction fuel with
    | zero => exact .throw _
    | succ fuel ih =>
        refine .bind (mailboxRequest_conn hP) fun more => ?_
        split
        · exact .pure _
        · exact .pure _
        · exact ih
  refine .bind (modify_conn fun _ => rfl) fun _ => .read fun s => ?_
  exact .bind (hloop _) fun quit => .ite (fun _ => modify_conn fun _ => rfl) fun _ => .pure ()

theorem pop3Stls_conn : Keeps (fun s => P s.conn) (pop3Stls env) := by
  refine .read fun s => .ite (fun _ => ?_) fun _ => fprintf_conn hP _
  refine .bind (fprintf_conn hP _) fun _ => ?_
  refine .bind (.modify fun _ h => hP.setState 0 h) fun _ => ?_
  exact .bind tick_conn fun n => .modify fun _ h => hP.accept _ h

theorem pop3Pass_conn (line : List Byte) : Keeps (fun s => P s.conn) (pop3Pass env line) := by
  refine .bind (modify_conn fun _ => rfl) fun _ => .bind tick_conn fun n => .read fun s => ?_
  split
  · exact .bind (fprintf_conn hP _) fun _ => .pure _
  · exact .bind (modify_conn fun _ => rfl) fun _ => .bind (fprintf_conn hP _) fun _ => .pure _

theorem pop3User_conn (line : List Byte) : Keeps (fun s => P s.conn) (pop3User line) :=
  .get_bind fun _ h => fprintf_conn hP _ _ h

theorem loginRequest_conn : Keeps (fun s => P s.conn) (loginRequest env) := by
  refine .bind (fgets_conn hP (by decide)) fun line => ?_
  cases line with
  | none => exact .pure _
  | some line =>
      refine .read fun s => ?_
      refine .ite (fun _ => .bind (fprintf_conn hP _) fun _ => .pure _) fun _ => ?_
      refine .ite (fun _ => .bind (pop3Capa_conn hP) fun _ => .pure _) fun _ => ?_
      refine .ite (fun _ => .bind (pop3Stls_conn hP) fun _ => .pure _) fun _ => ?_
      refine .ite (fun _ => ?_) fun _ => .ite (fun _ => ?_) fun _ => .bind (fprintf_conn hP _) fun _ => .pure _
      · exact .ite (fun _ => .bind (fprintf_conn hP _) fun _ => .pure _)
          fun _ => .bind (pop3User_conn hP _) fun _ => .pure _
      · refine .ite (fun _ => .bind (fprintf_conn hP _) fun _ => .pure _) fun _ => ?_
        refine .bind (pop3Pass_conn hP _) fun user => ?_
        split <;> exact .pure _

/-- The POP3 server keeps what a server keeps. -/
theorem pop3Dorequest_conn : Keeps (fun s => P s.conn) (pop3Dorequest env) := by
  have hloop : ∀ fuel, Keeps (fun s => P s.conn) (loginLoop env fuel) := by
    intro fuel
    induction fuel with
    | zero => exact .throw _
    | succ fuel ih =>
        refine .bind (loginRequest_conn hP) fun login => ?_
        split
        · exact .pure _
        · exact .pure _
        · exact ih
  refine .bind (fprintf_conn hP _) fun _ => .read fun s => ?_
  refine .bind (hloop _) fun user => ?_
  split
  · exact .pure ()
  · refine .bind (.modify fun _ h => hP.setState 1 h) fun _ => .read fun s => .ite (fun _ => ?_) fun _ => ?_
    · refine .bind tick_conn fun n => ?_
      split
      · exact .pure ()
      · exact serve_conn hP _
    · refine .bind tick_conn fun n => .ite (fun _ => ?_) fun _ => .pure ()
      exact .bind tick_conn fun n => serve_conn hP _

end

end NullG.Pop3d

/-! ### Both servers -/

namespace NullG.Smtpd

open NullG.Nsp NullG.Lib NullG.Net NullG.Mail

/-- The connections of an SMTP session and of a POP3 session, when the same bytes come. -/
def ended (env : Env) (penv : Pop3d.Env) (recvs sslReads : List (List Byte)) : Conn × Conn :=
  ((final (smtpDorequest env (newSession recvs sslReads))).conn,
    (final (Pop3d.pop3Dorequest penv (Pop3d.newSession recvs sslReads))).conn)

/-- Every line that a server reads behind a handshake came from the TLS layer. -/
def Discards (env : Env) (penv : Pop3d.Env) (recvs sslReads : List (List Byte)) : Prop :=
  TlsOnly (ended env penv recvs sslReads).1 ∧ TlsOnly (ended env penv recvs sslReads).2

/-- Plaintext is discarded where every handshake finds an empty buffer. -/
theorem starttls_discards (env : Env) (penv : Pop3d.Env) (recvs sslReads : List (List Byte))
    (hsmtp : ShakesEmpty (ended env penv recvs sslReads).1) (hpop : ShakesEmpty (ended env penv recvs sslReads).2) :
    Discards env penv recvs sslReads := by
  constructor
  · exact (smtpDorequest_conn clean_inv (newSession recvs sslReads) (clean_new recvs sslReads)).reads hsmtp
  · exact (Pop3d.pop3Dorequest_conn clean_inv (Pop3d.newSession recvs sslReads) (clean_new recvs sslReads)).reads hpop

/-- A client that waits for the reply. -/
theorem starttls_discards_waiting :
    Discards goodEnv Pop3d.goodEnv [bytes "STARTTLS\r\n"] [bytes "EHLO x\r\n"] ∧
      Discards goodEnv Pop3d.goodEnv [bytes "STLS\r\n"] [bytes "USER x\r\n"] :=
  ⟨starttls_discards _ _ _ _ (by decide +kernel) (by decide +kernel),
    starttls_discards _ _ _ _ (by decide +kernel) (by decide +kernel)⟩

/-- A greeting in the packet of `STARTTLS`, and a name in that of `STLS`, are used behind the handshake. -/
theorem not_starttls_discards :
    (¬ TlsOnly (ended goodEnv Pop3d.goodEnv [bytes "STARTTLS\r\nEHLO x\r\n"] []).1) ∧
      ¬ TlsOnly (ended goodEnv Pop3d.goodEnv [bytes "STLS\r\nUSER x\r\n"] []).2 :=
  ⟨by decide +kernel, by decide +kernel⟩

end NullG.Smtpd
