/-
What happens to an entry of the queue.

`Ended` says with what `smtp_client` returns: the last event of the dialogue decides. It returns -2 for
every reply that it does not want but a 504, and does not look at what `bounce_send` returned, so an
entry is unlinked also behind a transient failure and where no bounce was written.
-/

import NullG.Smtpq.Client

namespace NullG.Smtpq

open NullG.Nsp NullG.Lib NullG.Net NullG.Mail

/-! ### What is kept -/

/-- The host has accepted the message. -/
def Accepted (events : List Event) : Prop :=
  ∃ inbuffer n, events.getLast? = some (.answered .dot inbuffer n) ∧ hasCode inbuffer "250" = true

/-- A reply with a code `5yz`. -/
def isPermanent (inbuffer : List Byte) : Bool :=
  match cstr inbuffer with
  | c :: y :: z :: _ => c == ch '5' && ncIsdigit y && ncIsdigit z
  | _ => false

/-- The host has refused the message for good, or there is no host. -/
def Permanent (events : List Event) : Prop :=
  (∃ said inbuffer n, events.getLast? = some (.answered said inbuffer n) ∧ isPermanent inbuffer = true) ∨
    ∃ host n, events.getLast? = some (.unresolved host n)

/-- The sender and the recipient of an entry. -/
def senderOf (info : List Byte) : Option (List Byte) := infoLine (fgetsAll 1023 info)[0]? "MAIL:"

def rcptOf (info : List Byte) : List Byte := (infoLine (fgetsAll 1023 info)[1]? "RCPT:").getD []

/-- There is a new bounce for the sender of the entry. -/
def Bounced (env : Env) (d d' : Disk) (filename2 info : List Byte) : Prop :=
  ∃ sender reason files, senderOf info = some sender ∧ sender ≠ [] ∧
    IsBounce env.toSystem sender (rcptOf info) (some filename2) reason files ∧
    ∀ f ∈ files, d f.1 = none ∧ d' f.1 = some f.2

/-- The entry stays in the queue, or the host has accepted the message, or it was refused for good and
there is a bounce. -/
def Kept (env : Env) (name sender : List Byte) (s : Session) : Prop :=
  ∀ filename1 filename2 info content, entryFiles env name = (filename1, some filename2) →
    s.world.disk filename1 = some info → s.world.disk filename2 = some content →
    ∀ sender' t, spoolEntry env name sender s = .ok sender' t →
      (t.world.disk filename1 = some info ∧ t.world.disk filename2 = some content) ∨ Accepted t.events ∨
        Permanent t.events ∧ Bounced env s.world.disk t.world.disk filename2 info

/-- A bounce for the sender of the entry can be written, from the call `n` to the surroundings on. -/
def CanBounce (env : Env) (d : Disk) (filename2 info reason : List Byte) (n : Nat) : Prop :=
  ∃ sender, senderOf info = some sender ∧ sender ≠ [] ∧ ∃ files w,
    planBounce env.toSystem sender (rcptOf info) (some filename2) reason ⟨d, n⟩ = .ok files w ∧
      files.any holdsBounce = true

/-- The reason of a bounce where there is no host. -/
def noHost (mxhost : List Byte) : List Byte := snprintf 1023 (bytes "failed to resolve host '" ++ mxhost ++ bytes "'")

/-- How the dialogue may end: where it ends with a reply, the reply accepts the message, or it is a 504, or
it refuses the message for good and a bounce can be written. -/
def EndsWell (env : Env) (d : Disk) (filename2 info : List Byte) : Option Event → Prop
  | some (.answered said inbuffer n) =>
      said = .dot ∧ hasCode inbuffer "250" = true ∨ hasCode inbuffer "504" = true ∨
        isPermanent inbuffer = true ∧ CanBounce env d filename2 info (cstr inbuffer) n
  | some (.unresolved host n) => CanBounce env d filename2 info (noHost host) n
  | some .handshakeFailed => False
  | _ => True

/-! ### Parts that leave files and events -/

section

variable {α β : Type}

/-- The program changes no file and notes no event. -/
def Quiet (x : M α) : Prop :=
  ∀ w events, Runs (fun s => s.world = w ∧ s.events = events) x (fun _ s => s.world = w ∧ s.events = events)
    fun _ _ => True

/-- What is known of files and events stays true. -/
theorem Quiet.frame {x : M α} (hx : Quiet x) (P : World → List Event → Prop) :
    Runs (fun s => P s.world s.events) x (fun _ s => P s.world s.events) fun _ _ => True := by
  intro s hs
  have h := hx s.world s.events s ⟨rfl, rfl⟩
  cases hrun : x s with
  | error e t => trivial
  | ok a t =>
      rw [hrun] at h
      obtain ⟨hworld, hevents⟩ := h
      show P t.world t.events
      rw [hworld, hevents]
      exact hs

theorem Quiet.pure (a : α) : Quiet (pure a : M α) := fun _ _ => .pure fun _ h => h

theorem Quiet.bind {x : M α} {f : α → M β} (hx : Quiet x) (hf : ∀ a, Quiet (f a)) : Quiet (x >>= f) :=
  fun w events => (hx w events).bind fun a => hf a w events

theorem Quiet.read {f : Session → M β} (hf : ∀ s, Quiet (f s)) : Quiet (get >>= f) :=
  fun w events => .read fun t => (hf t w events).pre fun _ h => h.1

theorem fprintf_quiet (text : List Byte) : Quiet (fprintf text) := fun _ _ => .modify fun _ h => h

theorem fgets_quiet : Quiet fgets := fun _ _ _ hs => hs

theorem replyLoop_quiet (fuel : Nat) (starttls : Bool) : Quiet (replyLoop fuel starttls) := by
  induction fuel generalizing starttls with
  | zero => exact fun _ _ => .throw fun _ _ => trivial
  | succ fuel ih =>
      refine .bind fgets_quiet fun line => ?_
      cases line with
      | none => exact .pure none
      | some inbuffer =>
          intro w events
          refine .ite (fun _ => ?_) fun _ => ?_
          · exact Quiet.pure _ w events
          · exact ih _ w events

theorem smtpDisconnect_quiet : Quiet smtpDisconnect := by
  refine .bind (fprintf_quiet _) fun _ => .read fun s => ?_
  exact .bind (replyLoop_quiet _ _) fun _ => .pure _

theorem sendLines_quiet (lines : List (List Byte)) : Quiet (sendLines lines) := by
  induction lines with
  | nil => exact .pure _
  | cons line lines ih => exact .bind (fprintf_quiet _) fun _ => ih

end

/-! ### `smtp_client` -/

/-- What `smtp_client` returns, and what was there then. -/
inductive Ended (env : Env) (m : Entry) (d : Disk) : Int → Session → Prop where
  | accepted {s inbuffer n} : s.events.getLast? = some (.answered .dot inbuffer n) → hasCode inbuffer "250" = true →
      s.world.disk = d → Ended env m d 0 s
  | nothing {s} : s.events = [] → s.world.disk = d → Ended env m d (-1) s
  | refused {s} : s.events.getLast? = some .refused → s.world.disk = d → Ended env m d (-1) s
  | closed {s said} : s.events.getLast? = some (.closed said) → s.world.disk = d → Ended env m d (-1) s
  | later {s said inbuffer n} : s.events.getLast? = some (.answered said inbuffer n) → hasCode inbuffer "504" = true →
      s.world.disk = d → Ended env m d (-1) s
  | gaveUp {s said inbuffer n rc} : s.events.getLast? = some (.answered said inbuffer n) →
      hasCode inbuffer "504" = false → (said = .dot → hasCode inbuffer "250" = false) →
      bounceSend env.toSystem m.sender m.rcpt (some m.origMsg) (cstr inbuffer) ⟨d, n⟩ = .ok rc s.world →
      Ended env m d (-2) s
  | noHandshake {s} : s.events.getLast? = some .handshakeFailed → Ended env m d (-2) s
  | noHost {s host n rc} : s.events.getLast? = some (.unresolved host n) →
      bounceSend env.toSystem m.sender m.rcpt (some m.origMsg) (noHost host) ⟨d, n⟩ = .ok rc s.world →
      Ended env m d (-2) s

section

variable {env : Env} {m : Entry} {d : Disk} {said : Said} {inbuffer : List Byte}

/-- No file was changed, and the host has answered last. -/
def Answered (d : Disk) (said : Said) (inbuffer : List Byte) (s : Session) : Prop :=
  s.world.disk = d ∧ s.events.getLast? = some (.answered said inbuffer s.world.tick)

theorem reply_runs (said : Said) : Runs (fun s => s.world.disk = d) (reply said) (fun r s =>
    match r with
    | none => s.world.disk = d ∧ s.events.getLast? = some (.closed said)
    | some (inbuffer, _) => Answered d said inbuffer s) fun _ _ => True := by
  refine .read fun t => .pre ?_ fun _ h => h.1
  refine .bind ((replyLoop_quiet _ _).frame fun w _ => w.disk = d) fun r => ?_
  cases r with
  | none =>
      refine .bind (B := fun _ s => s.world.disk = d ∧ s.events.getLast? = some (.closed said)) (.modify fun s hs => ?_)
        fun _ => .pure fun _ h => h
      exact ⟨hs, List.getLast?_concat⟩
  | some r =>
      obtain ⟨inbuffer, starttls⟩ := r
      refine .read fun t => ?_
      refine .bind (B := fun _ s => Answered d said inbuffer s) (.modify ?_) fun _ => .pure fun _ h => h
      rintro s ⟨hs, rfl⟩
      exact ⟨hs, List.getLast?_concat⟩

/-- A reply is read, and the client goes on. -/
theorem reply_ends {f : Option (List Byte × Bool) → M Int} (hnone : f none = return -1)
    (hsome : ∀ inbuffer starttls,
      Runs (Answered d said inbuffer) (f (some (inbuffer, starttls))) (Ended env m d) fun _ _ => True) :
    Runs (fun s => s.world.disk = d) (reply said >>= f) (Ended env m d) fun _ _ => True := by
  refine .bind (reply_runs said) fun r => ?_
  cases r with
  | none =>
      rw [hnone]
      exact .pure fun s h => .closed h.2 h.1
  | some r => exact hsome r.1 r.2

/-- A bounce is sent, whatever comes of it. -/
theorem bounce_ends {s : Session} {reason : List Byte} (hdisk : s.world.disk = d)
    (h : ∀ rc w, bounceSend env.toSystem m.sender m.rcpt (some m.origMsg) reason ⟨d, s.world.tick⟩ = .ok rc w →
      Ended env m d (-2) { s with world := w }) :
    Ends (Ended env m d) (fun _ _ => True) ((do
      let _ ← onWorld (bounceSend env.toSystem m.sender m.rcpt (some m.origMsg) reason)
      return -2 : M Int) s) := by
  have hworld : s.world = ⟨d, s.world.tick⟩ := by rw [← hdisk]
  cases hrun : bounceSend env.toSystem m.sender m.rcpt (some m.origMsg) reason s.world with
  | error e w =>
      have hbounce : onWorld (bounceSend env.toSystem m.sender m.rcpt (some m.origMsg) reason) s =
          .error e { s with world := w } := by
        unfold onWorld
        rw [hrun]
      rw [run_bind_of_error hbounce]
      trivial
  | ok rc w =>
      have hbounce : onWorld (bounceSend env.toSystem m.sender m.rcpt (some m.origMsg) reason) s =
          .ok rc { s with world := w } := by
        unfold onWorld
        rw [hrun]
      rw [run_bind_of_ok hbounce]
      rw [hworld] at hrun
      exact h rc w hrun

theorem quit_ends (hdot : said = .dot → hasCode inbuffer "250" = false) :
    Runs (Answered d said inbuffer) (quit env m inbuffer) (Ended env m d) fun _ _ => True := by
  refine .bind (B := fun _ s => Answered d said inbuffer s) (smtpDisconnect_quiet.frame fun w events =>
    w.disk = d ∧ events.getLast? = some (.answered said inbuffer w.tick)) fun _ => ?_
  refine .ite (fun h504 => ?_) fun h504 => .pure fun s hs => ?_
  · rintro s ⟨hdisk, hlast⟩
    exact bounce_ends hdisk fun rc w hrun => .gaveUp hlast (by simpa using h504) hdot hrun
  · exact .later hs.2 (by simpa using h504) hs.1

theorem Answered.disk {s : Session} (h : Answered d said inbuffer s) : s.world.disk = d := h.1

theorem say_ends {text : List Byte} {code : String} {next : M Int} (hdot : said ≠ .dot)
    (hnext : Runs (fun s => s.world.disk = d) next (Ended env m d) fun _ _ => True) :
    Runs (fun s => s.world.disk = d) (say env m said text code next) (Ended env m d) fun _ _ => True := by
  refine .bind (B := fun _ s => s.world.disk = d) (.modify fun _ h => h) fun _ => ?_
  refine reply_ends rfl fun inbuffer _ => ?_
  exact .ite (fun _ => quit_ends fun h => absurd h hdot) fun _ => hnext.pre fun _ h => h.disk

theorem sendMessage_ends : Runs (fun s => s.world.disk = d) (sendMessage env m) (Ended env m d) fun _ _ => True := by
  refine .bind ((sendLines_quiet _).frame fun w _ => w.disk = d) fun _ => ?_
  refine .bind (B := fun _ s => s.world.disk = d) (.modify fun _ h => h) fun _ => ?_
  refine reply_ends rfl fun inbuffer _ => ?_
  refine .ite (fun h250 => quit_ends fun _ => by simpa using h250) fun h250 => ?_
  refine .bind (B := fun _ s => Answered d .dot inbuffer s) (smtpDisconnect_quiet.frame fun w events =>
    w.disk = d ∧ events.getLast? = some (.answered .dot inbuffer w.tick)) fun _ => .pure fun s hs => ?_
  exact .accepted hs.2 (by simpa using h250) hs.1

theorem transaction_ends : Runs (fun s => s.world.disk = d) (transaction env m) (Ended env m d) fun _ _ => True := by
  refine say_ends (by decide) (say_ends (by decide) (say_ends (by decide) ?_))
  exact sendMessage_ends

theorem tick_runs {A : Disk → List Event → Prop} : Runs (fun s => A s.world.disk s.events) tick
    (fun _ s => A s.world.disk s.events) fun _ _ => True := fun _ hs => hs

/-- A handshake that is not completed is noted. -/
theorem sslConnect_runs : Runs (fun s => s.world.disk = d) (sslConnect env)
    (fun rc s => s.world.disk = d ∧ (rc ≠ 0 → s.events.getLast? = some .handshakeFailed)) fun _ _ => True := by
  refine .bind (tick_runs (A := fun d' _ => d' = d)) fun n => .read fun t => ?_
  have hfail : ∀ A : Session → Prop, (∀ s, A s → s.world.disk = d) → Runs A (do note .handshakeFailed; return -1 : M Int)
      (fun rc s => s.world.disk = d ∧ (rc ≠ 0 → s.events.getLast? = some .handshakeFailed)) fun _ _ => True := by
    intro A hA
    refine .bind (B := fun _ s => s.world.disk = d ∧ s.events.getLast? = some .handshakeFailed) (.modify fun s hs => ?_)
      fun _ => .pure fun s hs => ⟨hs.1, fun _ => hs.2⟩
    exact ⟨hA s hs, List.getLast?_concat⟩
  refine .ite (fun _ => hfail _ fun _ h => h.1) fun _ => ?_
  dsimp only
  cases env.handshake n with
  | noSsl =>
      refine .bind (B := fun _ s => s.world.disk = d) ?_ fun _ => hfail _ fun _ h => h
      rintro s ⟨hs, rfl⟩
      exact hs
  | failed =>
      refine .bind (B := fun _ s => s.world.disk = d) ?_ fun _ => hfail _ fun _ h => h
      rintro s ⟨hs, rfl⟩
      exact hs
  | done =>
      refine .bind (B := fun _ s => s.world.disk = d) ?_ fun _ => .pure fun s hs => ⟨hs, fun h => absurd rfl h⟩
      rintro s ⟨hs, rfl⟩
      exact hs

/-- A reply has one code. -/
theorem hasCode_other {code code' : String} (hcode : code.length = code'.length)
    (hne : (bytes code).map lower ≠ (bytes code').map lower) (h : hasCode inbuffer code = true) :
    hasCode inbuffer code' = false := by
  unfold hasCode startsWith Mail.sameText at h ⊢
  rw [← hcode, beq_eq_false_iff_ne]
  rw [beq_iff_eq] at h
  rw [h]
  exact hne

/-- Behind a handshake that has failed. -/
theorem quit_failed (h220 : hasCode inbuffer "220" = true) :
    Runs (fun s => s.events.getLast? = some .handshakeFailed) (quit env m inbuffer) (Ended env m d) fun _ _ => True := by
  have h504 := @hasCode_other inbuffer "220" "504" rfl (by decide) h220
  refine .bind (smtpDisconnect_quiet.frame fun _ events => events.getLast? = some .handshakeFailed) fun _ => ?_
  rw [h504, if_pos (by decide)]
  refine .bind (B := fun _ s => s.events.getLast? = some .handshakeFailed) ?_ fun _ => .pure fun s hs => .noHandshake hs
  intro s hs
  unfold onWorld
  split
  · exact hs
  · trivial

theorem greeted_ends {starttls : Bool} {again : M Int} (hdot : said ≠ .dot)
    (hagain : Runs (fun s => s.world.disk = d) again (Ended env m d) fun _ _ => True) :
    Runs (Answered d said inbuffer) (greeted env m starttls inbuffer again) (Ended env m d) fun _ _ => True := by
  refine .read fun t => .pre ?_ fun _ h => h.1
  refine .ite (fun _ => quit_ends fun h => absurd h hdot) fun _ => ?_
  refine .ite (fun _ => ?_) fun _ => transaction_ends.pre fun _ h => h.disk
  refine .bind (B := fun _ s => s.world.disk = d) (.modify fun _ h => h.disk) fun _ => ?_
  refine reply_ends rfl fun inbuffer _ => ?_
  refine .ite (fun _ => quit_ends fun h => absurd h (by decide)) fun h220 => ?_
  refine .bind (sslConnect_runs.pre fun _ h => h.disk) fun rc => .ite (fun hrc => ?_) fun hrc => ?_
  · exact (quit_failed (by simpa using h220)).pre fun s hs => hs.2 hrc
  · exact hagain.pre fun s hs => hs.1

theorem hello_ends (fuel : Nat) (starttls : Bool) :
    Runs (fun s => s.world.disk = d) (hello env m fuel starttls) (Ended env m d) fun _ _ => True := by
  induction fuel generalizing starttls with
  | zero => exact .throw fun _ _ => trivial
  | succ fuel ih =>
      refine .bind (B := fun _ s => s.world.disk = d) (.modify fun _ h => h) fun _ => ?_
      refine reply_ends rfl fun inbuffer found => ?_
      refine .ite (fun _ => ?_) fun _ => greeted_ends (by decide) (ih _)
      refine .bind (B := fun _ s => s.world.disk = d) (.modify fun _ h => h.disk) fun _ => ?_
      exact reply_ends rfl fun inbuffer _ => greeted_ends (by decide) (ih _)

theorem converse_ends (recvs sslReads : List (List Byte)) :
    Runs (fun s => s.world.disk = d) (converse env m recvs sslReads) (Ended env m d) fun _ _ => True := by
  refine .bind (B := fun _ s => s.world.disk = d) (.modify fun _ h => h) fun _ => ?_
  exact reply_ends rfl fun inbuffer _ => (hello_ends _ _).pre fun _ h => h.disk

/-- What `smtp_client` returns says how the dialogue has ended. -/
theorem smtpClient_ends (env : Env) (m : Entry) (d : Disk) :
    Runs (fun s => s.world.disk = d ∧ s.events = []) (smtpClient env m) (Ended env m d) fun _ _ => True := by
  have hrefused : Runs (fun s => s.world.disk = d ∧ s.events = []) (do note .refused; return -1 : M Int) (Ended env m d)
      fun _ _ => True := by
    refine .bind (B := fun _ s => s.world.disk = d ∧ s.events.getLast? = some .refused) (.modify fun s hs => ?_)
      fun _ => .pure fun s hs => .refused hs.2 hs.1
    exact ⟨hs.1, List.getLast?_concat⟩
  refine .ite (fun _ => .pure fun s hs => .nothing hs.2 hs.1) fun _ => ?_
  refine .ite (fun _ => ?_) fun _ => ?_
  · refine .bind (tick_runs (A := fun d' events => d' = d ∧ events = [])) fun n => ?_
    cases env.connect n env.relayhost with
    | unresolved => exact hrefused
    | refused => exact hrefused
    | connected recvs sslReads => exact (converse_ends _ _).pre fun _ h => h.1
  · dsimp only
    refine .ite (fun _ => .pure fun s hs => .nothing hs.2 hs.1) fun _ => ?_
    refine .bind (tick_runs (A := fun d' events => d' = d ∧ events = [])) fun n => ?_
    refine .bind (tick_runs (A := fun d' events => d' = d ∧ events = [])) fun n' => ?_
    generalize (env.getmxbyname n ((m.rcpt.dropWhile (· != ch '@')).drop 1)).getD
      (snprintf 127 ((m.rcpt.dropWhile (· != ch '@')).drop 1)) = mxhost
    cases env.connect n' mxhost with
    | refused => exact hrefused
    | connected recvs sslReads => exact (converse_ends _ _).pre fun _ h => h.1
    | unresolved =>
        refine .read fun t => ?_
        rintro s ⟨⟨hdisk, hevents⟩, rfl⟩
        let u : Session := { s with events := s.events ++ [.unresolved mxhost s.world.tick] }
        exact bounce_ends (s := u) hdisk fun rc w hrun => .noHost List.getLast?_concat hrun

/-! ### `smtp_spool` -/

theorem fopenRead_ok {path : List Byte} {r : Option (List Byte)} {s t : Session}
    (h : fopenRead env path s = .ok r t) :
    t.world.disk = s.world.disk ∧ t.events = s.events ∧ (r = none ∨ r = s.world.disk path) := by
  obtain ⟨n, s₁, htick, h⟩ := bind_run_ok h
  cases htick
  obtain ⟨s₂, s₃, hget, h⟩ := bind_run_ok h
  cases hget
  cases h
  refine ⟨rfl, rfl, ?_⟩
  split
  · exact .inr rfl
  · exact .inl rfl

/-- A round for an entry does nothing, or it unlinks the entry as `smtp_client` says. -/
theorem spoolEntry_ok {name sender filename1 filename2 info content : List Byte} {s : Session}
    (hfiles : entryFiles env name = (filename1, some filename2)) (hinfo : s.world.disk filename1 = some info)
    (hcontent : s.world.disk filename2 = some content) {sender' : List Byte} {t : Session}
    (h : spoolEntry env name sender s = .ok sender' t) :
    (t.world.disk = s.world.disk ∧ t.events = []) ∨
      ∃ rc u, Ended env ⟨filename2, content, (senderOf info).getD sender, rcptOf info⟩ s.world.disk rc u ∧
        t.events = u.events ∧
        t.world.disk = if rc = 0 ∨ rc = -2 then (u.world.disk.unlink filename1).unlink filename2 else u.world.disk := by
  obtain ⟨a, s₁, hclear, h⟩ := bind_run_ok h
  cases hclear
  rw [hfiles] at h
  obtain ⟨r, s₂, hread, h⟩ := bind_run_ok h
  obtain ⟨hdisk, hevents, hr⟩ := fopenRead_ok hread
  cases r with
  | none =>
      cases h
      exact .inl ⟨hdisk, hevents⟩
  | some info' =>
      obtain rfl : info' = info := by
        rcases hr with hr | hr
        · cases hr
        · exact Option.some.inj (hr.trans hinfo)
      obtain ⟨r, s₃, hread', h⟩ := bind_run_ok (x := fopenRead env filename2) h
      obtain ⟨hdisk', hevents', hr'⟩ := fopenRead_ok hread'
      have hdisk₃ : s₃.world.disk = s.world.disk := hdisk'.trans hdisk
      have hevents₃ : s₃.events = [] := hevents'.trans hevents
      cases r with
      | none =>
          cases h
          exact .inl ⟨hdisk₃, hevents₃⟩
      | some content' =>
          obtain rfl : content' = content := by
            rcases hr' with hr' | hr'
            · cases hr'
            · exact Option.some.inj ((hr'.trans (congrFun hdisk filename2)).trans hcontent)
          obtain ⟨rc, u, hclient, h⟩ := bind_run_ok h
          have hended := (smtpClient_ends env _ s.world.disk).of_ok ⟨hdisk₃, hevents₃⟩ hclient
          refine .inr ⟨rc, u, hended, ?_⟩
          by_cases hrc : rc = 0 ∨ rc = -2
          · rw [if_pos hrc] at h
            cases h
            rw [if_pos hrc]
            exact ⟨rfl, rfl⟩
          · rw [if_neg hrc] at h
            cases h
            rw [if_neg hrc]
            exact ⟨rfl, rfl⟩

end

section

variable {env : Env} {sender filename1 filename2 info content reason : List Byte} {d : Disk} {n : Nat} {rc : Int} {w : World}

theorem unlink_some {d : Disk} {p q c : List Byte} (h : (d.unlink p) q = some c) : d q = some c ∧ q ≠ p := by
  unfold Disk.unlink at h
  by_cases hq : q = p
  · rw [if_pos hq] at h
    cases h
  · rw [if_neg hq] at h
    exact ⟨h, hq⟩

theorem unlink_of_ne {d : Disk} {p q : List Byte} (h : q ≠ p) : (d.unlink p) q = d q := if_neg h

/-- Behind the entry's end there is a new bounce exactly if one could be written. -/
theorem bounced_iff (h : bounceSend env.toSystem ((senderOf info).getD sender) (rcptOf info) (some filename2) reason
    ⟨d, n⟩ = .ok rc w) (h₁ : d filename1 = some info) (h₂ : d filename2 = some content) :
    Bounced env d ((w.disk.unlink filename1).unlink filename2) filename2 info ↔
      CanBounce env d filename2 info reason n := by
  have hcarries := @bounceSend_carries env.toSystem ((senderOf info).getD sender) (rcptOf info) (some filename2) reason
    ⟨d, n⟩
  rw [h] at hcarries
  constructor
  · rintro ⟨sender', reason', files', hsender, hne, hbounce, hnew⟩
    refine ⟨sender', hsender, hne, ?_⟩
    rw [hsender, Option.getD_some] at hcarries
    cases hplan : planBounce env.toSystem sender' (rcptOf info) (some filename2) reason ⟨d, n⟩ with
    | error e v =>
        rw [hplan] at hcarries
        exact hcarries.elim
    | ok files v =>
        rw [hplan] at hcarries
        obtain ⟨-, -, hadds, -⟩ := hcarries
        obtain ⟨f, hf, hletter⟩ := List.any_eq_true.mp hbounce.any_holdsBounce
        obtain ⟨hfree, hthere⟩ := hnew f hf
        have hwritten := (unlink_some (unlink_some hthere).1).1
        exact ⟨files, v, rfl, List.any_eq_true.mpr ⟨f, (hadds.mem_iff f).mpr ⟨hfree, hwritten⟩, hletter⟩⟩
  · rintro ⟨sender', hsender, hne, files, v, hplan, hany⟩
    rw [hsender, Option.getD_some, hplan] at hcarries
    obtain ⟨-, -, hadds, -⟩ := hcarries
    have hbounce := bounced_cases (planBounce_files hplan)
    rw [if_pos hany] at hbounce
    refine ⟨sender', reason, files, hsender, hne, hbounce, fun f hf => ?_⟩
    have hfree : d f.1 = none := hadds.free f hf
    have hne₁ : f.1 ≠ filename1 := fun heq => by rw [heq, h₁] at hfree; cases hfree
    have hne₂ : f.1 ≠ filename2 := fun heq => by rw [heq, h₂] at hfree; cases hfree
    rw [unlink_of_ne hne₂, unlink_of_ne hne₁]
    exact ⟨hfree, hadds.there f hf⟩

end

/-- The mail that is queued is kept exactly if the dialogue ends well. -/
theorem kept_iff (env : Env) (name sender : List Byte) (s : Session) :
    Kept env name sender s ↔ ∀ filename1 filename2 info content, entryFiles env name = (filename1, some filename2) →
      s.world.disk filename1 = some info → s.world.disk filename2 = some content →
      ∀ sender' t, spoolEntry env name sender s = .ok sender' t →
        EndsWell env s.world.disk filename2 info t.events.getLast? := by
  unfold Kept
  refine forall_congr' fun filename1 => forall_congr' fun filename2 => forall_congr' fun info =>
    forall_congr' fun content => forall_congr' fun hfiles => forall_congr' fun hinfo => forall_congr' fun hcontent =>
    forall_congr' fun sender' => forall_congr' fun t => forall_congr' fun hrun => ?_
  -- an entry that stays, with a dialogue that has ended well
  have hstays : ∀ {e : Option Event}, t.world.disk = s.world.disk → EndsWell env s.world.disk filename2 info e →
      ((t.world.disk filename1 = some info ∧ t.world.disk filename2 = some content) ∨ Accepted t.events ∨
        Permanent t.events ∧ Bounced env s.world.disk t.world.disk filename2 info ↔
          EndsWell env s.world.disk filename2 info e) := by
    intro e hdisk hwell
    refine ⟨fun _ => hwell, fun _ => .inl ?_⟩
    rw [hdisk]
    exact ⟨hinfo, hcontent⟩
  rcases spoolEntry_ok hfiles hinfo hcontent hrun with ⟨hdisk, hevents⟩ | ⟨rc, u, hended, hevents, hdisk⟩
  · exact hstays hdisk (by rw [hevents]; trivial)
  rw [hevents] at hstays ⊢
  -- an entry that is unlinked
  have hgone : ∀ {v : Disk}, t.world.disk = (v.unlink filename1).unlink filename2 →
      ¬ (t.world.disk filename1 = some info ∧ t.world.disk filename2 = some content) := by
    rintro v hv ⟨-, hthere⟩
    rw [hv] at hthere
    exact (unlink_some hthere).2 rfl
  cases hended with
  | nothing hnone hsame => exact hstays (hdisk.trans hsame) (by rw [hnone]; trivial)
  | refused hlast hsame => exact hstays (hdisk.trans hsame) (by rw [hlast]; trivial)
  | closed hlast hsame => exact hstays (hdisk.trans hsame) (by rw [hlast]; trivial)
  | later hlast h504 hsame =>
      refine hstays (hdisk.trans hsame) ?_
      rw [hlast]
      exact .inr (.inl h504)
  | accepted hlast h250 _ =>
      refine ⟨fun _ => ?_, fun _ => .inr (.inl ⟨_, _, hlast, h250⟩)⟩
      rw [hlast]
      exact .inl ⟨rfl, h250⟩
  | @gaveUp _ said inbuffer n rc hlast h504 hdot hbounce =>
      rw [if_pos (.inr rfl)] at hdisk
      have hiff := bounced_iff hbounce hinfo hcontent
      rw [← hdisk] at hiff
      rw [hlast]
      constructor
      · rintro (hthere | ⟨inbuffer', n', hlast', h250⟩ | ⟨hpermanent | ⟨host, n', hlast'⟩, hb⟩)
        · exact absurd hthere (hgone hdisk)
        · cases hlast.symm.trans hlast'
          rw [hdot rfl] at h250
          cases h250
        · obtain ⟨said', inbuffer', n', hlast', h5⟩ := hpermanent
          cases hlast.symm.trans hlast'
          exact .inr (.inr ⟨h5, hiff.mp hb⟩)
        · cases hlast.symm.trans hlast'
      · rintro (⟨hsaid, h250⟩ | h504' | ⟨h5, hcan⟩)
        · rw [hdot hsaid] at h250
          cases h250
        · rw [h504] at h504'
          cases h504'
        · exact .inr (.inr ⟨.inl ⟨said, inbuffer, n, hlast, h5⟩, hiff.mpr hcan⟩)
  | noHandshake hlast =>
      rw [if_pos (.inr rfl)] at hdisk
      rw [hlast]
      refine ⟨?_, fun h => h.elim⟩
      rintro (hthere | ⟨inbuffer', n', hlast', -⟩ | ⟨⟨said', inbuffer', n', hlast', -⟩ | ⟨host, n', hlast'⟩, -⟩)
      · exact absurd hthere (hgone hdisk)
      · cases hlast.symm.trans hlast'
      · cases hlast.symm.trans hlast'
      · cases hlast.symm.trans hlast'
  | @noHost _ host n rc hlast hbounce =>
      rw [if_pos (.inr rfl)] at hdisk
      have hiff := bounced_iff hbounce hinfo hcontent
      rw [← hdisk] at hiff
      rw [hlast]
      constructor
      · rintro (hthere | ⟨inbuffer', n', hlast', -⟩ | ⟨-, hb⟩)
        · exact absurd hthere (hgone hdisk)
        · cases hlast.symm.trans hlast'
        · exact hiff.mp hb
      · intro hcan
        exact .inr (.inr ⟨.inr ⟨host, n, hlast⟩, hiff.mpr hcan⟩)

/-- Surroundings with a relay host that sends these packets. -/
def relaying (recvs : List (List Byte)) : Env where
  var := bytes "v"
  hostName := bytes "h"
  domainGetid := fun _ _ => -1
  usersExact := fun _ _ _ => none
  spoolReady := fun _ => true
  clock := fun n => (n, 0)
  patience := 10
  opens := fun _ => true
  date := fun _ => bytes "d"
  sqlDate := fun _ => bytes "q"
  relayhost := bytes "r"
  sslLoaded := false
  getmxbyname := fun _ _ => none
  connect := fun _ _ => .connected recvs []
  handshake := fun _ => .failed
  opensRead := fun _ => true

/-- A message of `a@b` for `c@d` in the queue. -/
def queued : Session where
  world :=
    { disk := fun p =>
        if p = bytes "v/spool/mqinfo/1.dat" then some (bytes "MAIL: a@b\r\nRCPT: c@d\r\n")
        else if p = bytes "v/spool/mqueue/1.msg" then some (bytes "m\r\n")
        else none }

/-- A mailbox that is busy. -/
def busyHost : Env :=
  relaying [bytes "220 r\r\n", bytes "250 r\r\n", bytes "250 ok\r\n", bytes "450 later\r\n", bytes "221 bye\r\n"]

/-- The message is unlinked when the host asks the client to come again. -/
theorem not_kept : ¬ Kept busyHost (bytes "1.dat") [] queued := by
  intro h
  have hsees : (match spoolEntry busyHost (bytes "1.dat") [] queued with
    | .ok _ t => some (t.world.disk (bytes "v/spool/mqueue/1.msg"), t.events.getLast?)
    | .error _ _ => none) = some (none, some (.answered .rcpt (bytes "450 later\r\n") 3)) := by decide +kernel
  cases hrun : spoolEntry busyHost (bytes "1.dat") [] queued with
  | error e t =>
      rw [hrun] at hsees
      cases hsees
  | ok sender t =>
      rw [hrun] at hsees
      obtain ⟨hgone, hlast⟩ := Prod.mk.inj (Option.some.inj hsees)
      rcases h _ _ _ _ rfl rfl rfl sender t hrun with
        ⟨-, hthere⟩ | ⟨_, _, hdot, -⟩ | ⟨⟨_, _, _, hanswer, h5⟩ | ⟨_, _, hhost⟩, -⟩
      · cases hgone.symm.trans hthere
      · cases hlast.symm.trans hdot
      · cases hlast.symm.trans hanswer
        revert h5
        decide
      · cases hlast.symm.trans hhost

end NullG.Smtpq
