/-
What `smtp_accept` does for each recipient.

`plan` asks what `smtp_accept` asks for a recipient and writes nothing: its `Outcome` says whether
the message is delivered, a bounce is written, nothing happens at all, or `smtp_accept` returns. A
run adds exactly the files of its outcomes. The reply to the client says too much when a recipient
is lost, and too little when `smtp_accept` returns behind a delivery.
-/

import NullG.Mail.Bounce
import NullG.Smtpd.Recipients

namespace NullG.Smtpd

open NullG.Nsp NullG.Lib NullG.Net NullG.Mail

/-- What becomes of a recipient, and the files that are new. -/
inductive Outcome where
  /-- the message is written -/
  | delivers (files : List File)
  /-- there is no mailbox, and a bounce is written -/
  | bounces (files : List File)
  /-- the queue entry is written over the message -/
  | overwrites (files : List File)
  /-- the message is not written, and `smtp_accept` goes on -/
  | loses (files : List File)
  /-- nothing is written, and `smtp_accept` returns -/
  | refuses (rc : Int)

/-- The files that are new. -/
def Outcome.files : Outcome → List File
  | .delivers files => files
  | .bounces files => files
  | .overwrites files => files
  | .loses files => files
  | .refuses _ => []

/-- The value that `smtp_accept` returns, if it does. -/
def Outcome.result : Outcome → Option Int
  | .refuses rc => some rc
  | _ => none

/-- What becomes of a recipient from the point where the name of the file is found. -/
def planWrite (env : Env) (now : Nat) (path : List Byte) (info : Option (List Byte)) (rcpt : List Byte) : S Outcome := do
  let s ← get
  let text := receivedText env s.mconn.helo rcpt (env.date now) ++ s.mconn.msgbody
  if !env.opens (← tick) then return .refuses (-1)
  let err := env.postfilter (← tick)
  if err ≠ 0 then return .refuses err
  let err := env.filterScan (← tick)
  if err > 0 then return .refuses err
  match info with
  | none => return .delivers [(path, text)]
  | some info => do
      let entry := mqinfoText s.mconn.sender rcpt (env.sqlDate now)
      if env.opens (← tick) then
        return if info = path then .overwrites [(info, entry)] else .delivers [(path, text), (info, entry)]
      return .loses []

/-- What becomes of a recipient. -/
def plan (env : Env) (now : Nat) (rcpt : List Byte) : S Outcome := do
  let (name, host) := splitAddr (snprintf 127 rcpt)
  let localdomainid := env.domainGetid (← tick) host
  if localdomainid > 0 then
    match ← findUser env (name.takeWhile (· != ch '+')) localdomainid with
    | .failed => return .refuses (-1)
    | .nobody => do
        let s ← get
        let files ← onWorld (planBounce env.toSystem s.mconn.sender rcpt none (bytes "554 no such mailbox"))
        return if files.any holdsBounce then .bounces files else .loses files
    | .user mailbox => do
        if !env.spoolReady (← tick) then return .loses []
        let path ← onWorld (freeMailspool env.toSystem localdomainid mailbox)
        planWrite env now path none rcpt
  else
    let s ← get
    if s.mconn.senderCanRelay = 1 then
      let (path, info) ← onWorld (freeMqueue env.toSystem)
      planWrite env now path (some info) rcpt
    else return .loses []

/-- The files are added to the disk. -/
def addFiles (files : List File) : S Unit := modify fun s => { s with world := { s.world with disk := s.world.disk.add files } }

/-- What becomes of `n` recipients, from the recipient `i` on. -/
def planFrom (env : Env) (now : Nat) : Nat → Nat → S (List Outcome)
  | 0, _ => return []
  | n + 1, i => do
      let o ← plan env now (← readRcpt i)
      addFiles o.files
      if o.result.isSome then return [o]
      return o :: (← planFrom env now n (i + 1))

/-- What becomes of all recipients that `smtp_accept` comes to. -/
def planAccept (env : Env) : S (List Outcome) := do
  let now ← tick
  let s ← get
  planFrom env now s.mconn.numRcpts 0

/-- The value that `smtp_accept` returns. -/
def returned (os : List Outcome) : Int := (os.findSome? Outcome.result).getD 0

/-- The new files of all recipients. -/
def newFiles (os : List Outcome) : List File := (os.map Outcome.files).flatten

/-- The message as it is written for a recipient. -/
def messageFor (env : Env) (m : Mailconn) (now : Nat) (rcpt : List Byte) : List Byte :=
  receivedText env m.helo rcpt (env.date now) ++ m.msgbody

/-- The files of a message for a recipient: one in a mailbox of its domain, or one in the queue and
its entry. -/
def IsDelivery (env : Env) (m : Mailconn) (now : Nat) (rcpt : List Byte) (files : List File) : Prop :=
  ∃ n,
    (0 < env.domainGetid n (splitAddr (snprintf 127 rcpt)).2 ∧ ∃ mailbox t,
      files = [(mailspoolFile env.var (env.domainGetid n (splitAddr (snprintf 127 rcpt)).2) mailbox t,
        messageFor env m now rcpt)]) ∨
    (¬ 0 < env.domainGetid n (splitAddr (snprintf 127 rcpt)).2 ∧ ∃ t,
      files = [(mqueueFile env.var t, messageFor env m now rcpt),
        (mqinfoFile env.var t, mqinfoText m.sender rcpt (env.sqlDate now))])

/-- The files of a bounce for a recipient of `smtp_accept`. -/
def IsBounceFor (env : Env) (m : Mailconn) (rcpt : List Byte) (files : List File) : Prop :=
  IsBounce env.toSystem m.sender rcpt none (bytes "554 no such mailbox") files

/-- What a file of the message holds. -/
def FromMessage (env : Env) (m : Mailconn) (content : List Byte) : Prop :=
  ∃ now rcpt, content = messageFor env m now rcpt ∨ content = mqinfoText m.sender rcpt (env.sqlDate now)

/-- What `smtp_data` answers agrees with what `smtp_accept` has done: behind a 250 the new files are
those of a delivery or of a bounce for every recipient, and behind a 451 or a 554 none of them is from
the message. -/
def ReplyAgrees (env : Env) (s : Session) : Prop :=
  ∀ rc t, smtpAccept env s = .ok rc t →
    if acceptReply rc = bytes "250 Message accepted for delivery" then
      ∃ deeds, List.Forall₂ (fun slot files => ∃ rcpt, slot = some rcpt ∧
          (IsDelivery env s.mconn s.world.tick rcpt files ∨ IsBounceFor env s.mconn rcpt files))
        (s.mconn.rcpt.take s.mconn.numRcpts) deeds ∧ Adds s.world.disk deeds.flatten t.world.disk
    else ∀ path content, s.world.disk path = none → t.world.disk path = some content →
      ¬ FromMessage env s.mconn content

/-- The recipient has the message, or a bounce was written. -/
def Outcome.settles : Outcome → Bool
  | .delivers _ => true
  | .bounces _ => true
  | _ => false

/-- There is a file from the message. -/
def Outcome.writes : Outcome → Bool
  | .delivers _ => true
  | .overwrites _ => true
  | _ => false

/-- No recipient is lost; or, where `smtp_accept` returns at a recipient, nothing was written for one
before. -/
def Harmless (os : List Outcome) : Prop :=
  if os.any (·.result.isSome) then ∀ o ∈ os, o.writes = false else ∀ o ∈ os, o.settles = true

/-! ### Runs and plans -/

section

variable {env : Env} {s u : Session} {now : Nat}

/-- States of a run and of its plan, which started with the disk `d₀`; `d` is that of the run. -/
structure Beside (d₀ : Disk) (m : Mailconn) (d : Disk) (u s : Session) : Prop where
  run : u.world.disk = d
  plan : s.world.disk = d₀
  tick : u.world.tick = s.world.tick
  mconn : u.mconn = m
  same : s.mconn = m

/-- A run ends as its plan says, and has added its files. -/
def Follows (d₀ : Disk) (m : Mailconn) :
    EStateM.Result Stop Session (Option Int) → EStateM.Result Stop Session Outcome → Prop
  | .ok r u, .ok o s => r = o.result ∧ ∃ d, Beside d₀ m d u s ∧ Adds d₀ o.files d
  | .error _ _, .error _ _ => True
  | _, _ => False

/-- The program asks the surroundings, and writes nothing. -/
def AsksOnly {α : Type} (x : S α) : Prop :=
  ∃ y : W α, x = onWorld y ∧ ∀ w a w', y w = .ok a w' → w'.disk = w.disk

theorem onWorld_bind {α β : Type} (y : W α) (z : α → W β) :
    onWorld (y >>= z) = onWorld y >>= fun a => onWorld (z a) := by
  funext s
  cases hy : y s.world with
  | error e w =>
      cases e
      rw [run_bind_of_error (onWorld_error_run hy)]
      exact onWorld_error_run (run_bind_of_error hy)
  | ok a w =>
      rw [run_bind_of_ok (onWorld_ok_run hy)]
      unfold onWorld
      rw [run_bind_of_ok hy]

namespace AsksOnly

variable {α β : Type}

theorem pure (a : α) : AsksOnly (pure a : S α) :=
  ⟨Pure.pure a, rfl, fun w b w' h => by cases h; rfl⟩

theorem tick : AsksOnly Smtpd.tick := ⟨Mail.tick, rfl, fun w n w' h => by cases h; rfl⟩

theorem bind {x : S α} {f : α → S β} (hx : AsksOnly x) (hf : ∀ a, AsksOnly (f a)) : AsksOnly (x >>= f) := by
  obtain ⟨y, rfl, hy⟩ := hx
  choose z hz using hf
  refine ⟨y >>= z, ?_, fun w b w' h => ?_⟩
  · rw [onWorld_bind]
    exact congrArg (onWorld y >>= ·) (funext fun a => (hz a).1)
  · obtain ⟨a, w₁, hrun, h⟩ := bind_run_ok h
    rw [(hz a).2 _ _ _ h, hy _ _ _ hrun]

theorem mconn {x : S α} {a : α} {t : Session} (hx : AsksOnly x) (h : x s = .ok a t) : t.mconn = s.mconn := by
  obtain ⟨y, rfl, -⟩ := hx
  exact onWorld_mconn h

end AsksOnly

theorem userNamed_asks (name : List Byte) (domainid : Int) : AsksOnly (userNamed env name domainid) := by
  refine .bind .tick fun n => ?_
  split <;> exact .pure _

theorem findUser_asks (name : List Byte) (domainid : Int) : AsksOnly (findUser env name domainid) := by
  refine .bind .tick fun n => ?_
  split
  · exact .pure _
  · refine .bind .tick fun m => ?_
    split
    · exact .pure _
    · split
      · exact userNamed_asks _ _
      · exact .pure _
    · exact userNamed_asks _ _
  · exact userNamed_asks _ _

theorem Beside.world {d₀ : Disk} {m : Mailconn} (hb : Beside d₀ m d₀ u s) : u.world = s.world := by
  obtain ⟨hrun, hplan, htick, -, -⟩ := hb
  obtain ⟨conn, ⟨disk, tick⟩, mconn, relays, writes, events⟩ := u
  obtain ⟨conn', ⟨disk', tick'⟩, mconn', relays', writes', events'⟩ := s
  cases hrun
  cases hplan
  cases htick
  rfl

namespace Follows

variable {d₀ d : Disk} {m : Mailconn}

theorem result {o : Outcome} (hb : Beside d₀ m d u s) (h : Adds d₀ o.files d) :
    Follows d₀ m ((return o.result : S (Option Int)) u) ((return o : S Outcome) s) := ⟨rfl, d, hb, h⟩

/-- Nothing was written. -/
theorem nothing {o : Outcome} (hb : Beside d₀ m d₀ u s) (h : o.files = []) :
    Follows d₀ m ((return o.result : S (Option Int)) u) ((return o : S Outcome) s) := by
  refine result hb ?_
  rw [h]
  exact Adds.nil d₀

/-- Both ask the same. -/
theorem asks {α : Type} {x : S α} {f : α → S (Option Int)} {g : α → S Outcome} (hx : AsksOnly x)
    (hb : Beside d₀ m d₀ u s)
    (h : ∀ a u' s', Beside d₀ m d₀ u' s' → x s = .ok a s' → Follows d₀ m (f a u') (g a s')) :
    Follows d₀ m ((x >>= f) u) ((x >>= g) s) := by
  obtain ⟨y, rfl, hdisk⟩ := hx
  have hworld := hb.world
  cases hy : y s.world with
  | error e w =>
      cases e
      rw [run_bind_of_error (onWorld_error_run (s := u) (by rw [hworld]; exact hy)),
        run_bind_of_error (onWorld_error_run hy)]
      trivial
  | ok a w =>
      rw [run_bind_of_ok (onWorld_ok_run (s := u) (by rw [hworld]; exact hy)), run_bind_of_ok (onWorld_ok_run hy)]
      have hw : w.disk = d₀ := (hdisk _ _ _ hy).trans hb.plan
      exact h a _ _ ⟨hw, hw, rfl, hb.mconn, hb.same⟩ (onWorld_ok_run hy)

/-- Both make the next call to the surroundings. -/
theorem ticks {f : Nat → S (Option Int)} {g : Nat → S Outcome} (hb : Beside d₀ m d u s)
    (h : ∀ n u' s', Beside d₀ m d u' s' → Follows d₀ m (f n u') (g n s')) :
    Follows d₀ m ((tick >>= f) u) ((tick >>= g) s) := by
  rw [run_bind_of_ok (tick_run u), run_bind_of_ok (tick_run s), hb.tick]
  exact h _ _ _ ⟨hb.run, hb.plan, congrArg (· + 1) hb.tick, hb.mconn, hb.same⟩

/-- Where the run opens a file the plan makes a call. -/
theorem opens {path text : List Byte} {f : Bool → S (Option Int)} {g : Nat → S Outcome} (hb : Beside d₀ m d u s)
    (hopen : ∀ n u' s', env.opens n = true → Beside d₀ m (d.write path text) u' s' → Follows d₀ m (f true u') (g n s'))
    (hno : ∀ n u' s', env.opens n = false → Beside d₀ m d u' s' → Follows d₀ m (f false u') (g n s')) :
    Follows d₀ m ((onWorld (fopenWrite env.toSystem path text) >>= f) u) ((tick >>= g) s) := by
  rw [run_bind_of_ok (tick_run s), ← hb.tick]
  cases h : env.opens u.world.tick with
  | true =>
      rw [run_bind_of_ok (onWorld_ok_run (opened h)), hb.run]
      exact hopen _ _ _ h ⟨rfl, hb.plan, congrArg (· + 1) hb.tick, hb.mconn, hb.same⟩
  | false =>
      rw [run_bind_of_ok (onWorld_ok_run (not_opened h))]
      exact hno _ _ _ h ⟨hb.run, hb.plan, congrArg (· + 1) hb.tick, hb.mconn, hb.same⟩

/-- A file of the run is unlinked. -/
theorem unlinks {path : List Byte} {f : Unit → S (Option Int)} {p : EStateM.Result Stop Session Outcome}
    (hb : Beside d₀ m d u s) (h : ∀ u', Beside d₀ m (d.unlink path) u' s → Follows d₀ m (f () u') p) :
    Follows d₀ m ((onWorld (unlink path) >>= f) u) p := by
  have hrun : onWorld (unlink path) u =
      .ok () { u with world := { u.world with disk := u.world.disk.unlink path } } := rfl
  rw [run_bind_of_ok hrun, hb.run]
  exact h _ ⟨rfl, hb.plan, hb.tick, hb.mconn, hb.same⟩

/-- A bounce is sent. -/
theorem bounces {sender rcpt reason : List Byte} (hb : Beside d₀ m d₀ u s) :
    Follows d₀ m
      ((do
        let _ ← onWorld (bounceSend env.toSystem sender rcpt none reason)
        return none : S (Option Int)) u)
      ((do
        let files ← onWorld (planBounce env.toSystem sender rcpt none reason)
        return if files.any holdsBounce then .bounces files else .loses files : S Outcome) s) := by
  have h := @bounceSend_carries env.toSystem sender rcpt none reason s.world
  cases hrun : bounceSend env.toSystem sender rcpt none reason s.world with
  | error e w =>
      cases e
      rw [hrun] at h
      cases hplan : planBounce env.toSystem sender rcpt none reason s.world with
      | error e' w' =>
          cases e'
          rw [run_bind_of_error (onWorld_error_run (s := u) (by rw [hb.world]; exact hrun)),
            run_bind_of_error (onWorld_error_run hplan)]
          trivial
      | ok files w' =>
          rw [hplan] at h
          exact h.elim
  | ok rc w =>
      rw [hrun] at h
      cases hplan : planBounce env.toSystem sender rcpt none reason s.world with
      | error e' w' =>
          rw [hplan] at h
          exact h.elim
      | ok files w' =>
          rw [hplan] at h
          obtain ⟨htick, hdisk, hadds, -⟩ := h
          rw [run_bind_of_ok (onWorld_ok_run (s := u) (by rw [hb.world]; exact hrun)),
            run_bind_of_ok (onWorld_ok_run hplan)]
          have hfiles : (if files.any holdsBounce then Outcome.bounces files else .loses files).files = files := by
            split <;> rfl
          rw [← hfiles, hb.plan] at hadds
          refine ⟨?_, w.disk, ⟨rfl, hdisk.trans hb.plan, htick, hb.mconn, hb.same⟩, hadds⟩
          split <;> rfl

end Follows

/-- The write of a message follows its plan. -/
theorem writeMessage_follows {d₀ : Disk} {m : Mailconn} {path rcpt : List Byte} {info : Option (List Byte)}
    (hb : Beside d₀ m d₀ u s) (hpath : d₀ path = none) (hinfo : ∀ p, info = some p → d₀ p = none) :
    Follows d₀ m (writeMessage env now path info rcpt u) (planWrite env now path info rcpt s) := by
  unfold writeMessage planWrite
  rw [run_bind_of_ok (get_run u), run_bind_of_ok (get_run s), hb.mconn, hb.same]
  dsimp only
  generalize receivedText env m.helo rcpt (env.date now) ++ m.msgbody = text
  -- a file that is unlinked again leaves nothing
  have hundo : Adds d₀ [] ((d₀.write path text).unlink path) := by
    rw [Disk.unlink_write hpath]
    exact Adds.nil _
  refine Follows.opens hb (fun n u₁ s₁ hopens hb => ?_) fun n u₁ s₁ hopens hb => ?_
  · rw [hopens, if_pos rfl, run_bind_of_ok (modify_run _ u₁)]
    refine Follows.ticks (d := d₀.write path text) (m := m) ⟨hb.run, hb.plan, hb.tick, hb.mconn, hb.same⟩
      fun n u₂ s₂ hb => ?_
    by_cases hpost : env.postfilter n ≠ 0
    · rw [if_pos hpost, if_pos hpost]
      exact .unlinks hb fun u₃ hb => .result (o := .refuses _) hb hundo
    rw [if_neg hpost, if_neg hpost]
    refine Follows.ticks hb fun n u₃ s₃ hb => ?_
    by_cases hscan : env.filterScan n > 0
    · rw [if_pos hscan, if_pos hscan]
      exact .unlinks hb fun u₃ hb => .result (o := .refuses _) hb hundo
    rw [if_neg hscan, if_neg hscan]
    have hadds := adds_write hpath text
    cases info with
    | none => exact .result (o := .delivers [(path, text)]) hb hadds
    | some p =>
        dsimp only
        rw [run_bind_of_ok (get_run u₃), hb.mconn]
        refine Follows.opens hb (fun n u₄ s₄ hopens hb => ?_) fun n u₄ s₄ hopens hb => ?_
        · rw [hopens]
          by_cases hsame : p = path
          · rw [if_pos rfl, if_pos rfl, if_pos hsame]
            refine .result (o := .overwrites _) hb ?_
            rw [hsame, Disk.write_write]
            exact adds_write hpath _
          · rw [if_pos rfl, if_pos rfl, if_neg hsame]
            refine .result (o := .delivers _) hb (hadds.append (adds_write ?_ _))
            rw [Disk.write_of_ne _ _ hsame]
            exact hinfo p rfl
        · rw [hopens]
          exact .unlinks hb fun u₅ hb => .result (o := .loses []) hb hundo
  · rw [hopens]
    exact .nothing (o := .refuses (-1)) hb rfl

/-- For every recipient a run does what its plan says. -/
theorem acceptFor_follows {d₀ : Disk} {m : Mailconn} (rcpt : List Byte) (hb : Beside d₀ m d₀ u s) :
    Follows d₀ m (acceptFor env now rcpt u) (plan env now rcpt s) := by
  unfold acceptFor plan
  obtain ⟨name, host⟩ := splitAddr (snprintf 127 rcpt)
  refine Follows.ticks hb fun n u₁ s₁ hb => ?_
  by_cases hlocal : env.domainGetid n host > 0
  · rw [if_pos hlocal, if_pos hlocal]
    refine Follows.asks (findUser_asks _ _) hb fun found u₂ s₂ hb hrun => ?_
    cases found with
    | failed => exact .nothing (o := .refuses (-1)) hb rfl
    | nobody =>
        dsimp only
        rw [run_bind_of_ok (get_run u₂), run_bind_of_ok (get_run s₂), hb.mconn, hb.same]
        exact .bounces hb
    | user mailbox =>
        refine Follows.ticks hb fun n' u₃ s₃ hb => ?_
        by_cases hready : (!env.spoolReady n') = true
        · rw [if_pos hready, if_pos hready]
          exact .nothing (o := .loses []) hb rfl
        rw [if_neg hready, if_neg hready]
        refine Follows.asks ⟨_, rfl, fun w path w' h => (freeMailspool_free h).1⟩ hb fun path u₄ s₄ hb' hrun => ?_
        obtain ⟨w, hpath⟩ := onWorld_ok hrun
        have hfree := (freeMailspool_free hpath).2.1
        rw [hb.plan] at hfree
        exact writeMessage_follows hb' hfree fun p hp => by cases hp
  · rw [if_neg hlocal, if_neg hlocal, run_bind_of_ok (get_run u₁), run_bind_of_ok (get_run s₁), hb.mconn, hb.same]
    by_cases hrelay : m.senderCanRelay = 1
    · rw [if_pos hrelay, if_pos hrelay]
      refine Follows.asks ⟨_, rfl, fun w paths w' h => (freeMqueue_free h).1⟩ hb fun paths u₂ s₂ hb' hrun => ?_
      obtain ⟨w, hpaths⟩ := onWorld_ok hrun
      obtain ⟨-, hfree, hfree', -⟩ := freeMqueue_free hpaths
      rw [hb.plan] at hfree hfree'
      exact writeMessage_follows hb' hfree fun p hp => by cases hp; exact hfree'
    · rw [if_neg hrelay, if_neg hrelay]
      exact .nothing (o := .loses []) hb rfl

/-! ### What a plan says of a recipient -/

/-- What an outcome says of its recipient. -/
def Fits (env : Env) (m : Mailconn) (now : Nat) (rcpt : List Byte) : Outcome → Prop
  | .delivers files => IsDelivery env m now rcpt files
  | .bounces files => IsBounceFor env m rcpt files
  | .overwrites files => ∃ path, files = [(path, mqinfoText m.sender rcpt (env.sqlDate now))]
  | .loses files => files = [] ∨ ∃ path date, files = [(path, bounceInfo m.sender date)]
  | .refuses rc => rc ≠ 0

theorem planWrite_fits {m : Mailconn} {path rcpt : List Byte} {info : Option (List Byte)} {o : Outcome} {t : Session}
    (hm : s.mconn = m)
    (hfiles : IsDelivery env m now rcpt
      ((path, messageFor env m now rcpt) :: info.toList.map fun p => (p, mqinfoText m.sender rcpt (env.sqlDate now))))
    (h : planWrite env now path info rcpt s = .ok o t) : Fits env m now rcpt o := by
  unfold planWrite at h
  rw [run_bind_of_ok (get_run s), hm] at h
  obtain ⟨n, s₁, -, h⟩ := bind_run_ok h
  by_cases hopens : (!env.opens n) = true
  · rw [if_pos hopens] at h
    cases h
    show (-1 : Int) ≠ 0
    decide
  rw [if_neg hopens] at h
  obtain ⟨n₁, s₂, -, h⟩ := bind_run_ok h
  by_cases hpost : env.postfilter n₁ ≠ 0
  · rw [if_pos hpost] at h
    cases h
    exact hpost
  rw [if_neg hpost] at h
  obtain ⟨n₂, s₃, -, h⟩ := bind_run_ok h
  by_cases hscan : env.filterScan n₂ > 0
  · rw [if_pos hscan] at h
    cases h
    exact Int.ne_of_gt hscan
  rw [if_neg hscan] at h
  cases info with
  | none =>
      cases h
      exact hfiles
  | some p =>
      obtain ⟨n₃, s₄, -, h⟩ := bind_run_ok h
      by_cases hopens' : env.opens n₃ = true
      · rw [if_pos hopens'] at h
        by_cases hsame : p = path
        · rw [if_pos hsame] at h
          cases h
          exact ⟨p, rfl⟩
        · rw [if_neg hsame] at h
          cases h
          exact hfiles
      · rw [if_neg hopens'] at h
        cases h
        exact .inl rfl

theorem plan_fits {rcpt : List Byte} {o : Outcome} {t : Session} (h : plan env now rcpt s = .ok o t) :
    Fits env s.mconn now rcpt o := by
  unfold plan at h
  generalize hsplit : splitAddr (snprintf 127 rcpt) = parts at h
  obtain ⟨name, host⟩ := parts
  obtain ⟨n, s₁, htick, h⟩ := bind_run_ok h
  have hm₁ := AsksOnly.tick.mconn htick
  by_cases hlocal : env.domainGetid n host > 0
  · rw [if_pos hlocal] at h
    obtain ⟨found, s₂, hfound, h⟩ := bind_run_ok h
    have hm₂ := ((findUser_asks _ _).mconn hfound).trans hm₁
    cases found with
    | failed =>
        cases h
        show (-1 : Int) ≠ 0
        decide
    | nobody =>
        dsimp only at h
        rw [run_bind_of_ok (get_run s₂), hm₂] at h
        obtain ⟨files, s₃, hfiles, h⟩ := bind_run_ok h
        obtain ⟨w, hplan⟩ := onWorld_ok hfiles
        have hcases := bounced_cases (planBounce_files hplan)
        cases h
        by_cases hany : files.any holdsBounce = true
        · rw [if_pos hany] at hcases ⊢
          exact hcases
        · rw [if_neg hany] at hcases ⊢
          exact hcases
    | user mailbox =>
        obtain ⟨n', s₃, htick', h⟩ := bind_run_ok h
        have hm₃ := (AsksOnly.tick.mconn htick').trans hm₂
        by_cases hready : (!env.spoolReady n') = true
        · rw [if_pos hready] at h
          cases h
          exact .inl rfl
        rw [if_neg hready] at h
        obtain ⟨path, s₄, hpath, h⟩ := bind_run_ok h
        have hm₄ := (onWorld_mconn hpath).trans hm₃
        obtain ⟨w, hfree⟩ := onWorld_ok hpath
        obtain ⟨-, -, time, rfl⟩ := freeMailspool_free hfree
        refine planWrite_fits hm₄ ⟨n, .inl ⟨?_, mailbox, time, ?_⟩⟩ h
        · rw [hsplit]
          exact hlocal
        · rw [hsplit]
          rfl
  · rw [if_neg hlocal, run_bind_of_ok (get_run s₁), hm₁] at h
    by_cases hrelay : s.mconn.senderCanRelay = 1
    · rw [if_pos hrelay] at h
      obtain ⟨paths, s₂, hpaths, h⟩ := bind_run_ok h
      have hm₂ := (onWorld_mconn hpaths).trans hm₁
      obtain ⟨w, hfree⟩ := onWorld_ok hpaths
      obtain ⟨-, -, -, time, rfl⟩ := freeMqueue_free hfree
      refine planWrite_fits hm₂ ⟨n, .inr ⟨?_, time, rfl⟩⟩ h
      rw [hsplit]
      exact hlocal
    · rw [if_neg hrelay] at h
      cases h
      exact .inl rfl

/-! ### All recipients -/

/-- A run ends as the plan of all recipients says. -/
def FollowsAll (d₀ : Disk) : EStateM.Result Stop Session Int → EStateM.Result Stop Session (List Outcome) → Prop
  | .ok rc u, .ok os _ => rc = returned os ∧ Adds d₀ (newFiles os) u.world.disk
  | .error _ _, .error _ _ => True
  | _, _ => False

/-- The outcomes of a run are those of its recipients, and it leaves none out unless it returns. -/
structure Plans (env : Env) (m : Mailconn) (now : Nat) (slots : List (Option (List Byte))) (os : List Outcome) :
    Prop where
  fits : ∀ o ∈ os, ∃ rcpt, Fits env m now rcpt o
  all : os.any (·.result.isSome) = false →
    List.Forall₂ (fun slot o => ∃ rcpt, slot = some rcpt ∧ Fits env m now rcpt o) slots os

/-- A slot has the same recipient in all states with these recipients. -/
theorem readRcpt_cases (m : Mailconn) (i : Nat) :
    (∃ rcpt, m.rcpt[i]? = some (some rcpt) ∧ ∀ s : Session, s.mconn = m → readRcpt i s = .ok rcpt s) ∨
      ∀ s : Session, s.mconn = m → ∃ e, readRcpt i s = .error e s := by
  by_cases halloc : m.rcptalloc ≤ i
  · refine .inr fun s hm => ⟨.outOfBounds, ?_⟩
    unfold readRcpt checkRcpt
    rw [run_bind_of_error]
    rw [run_bind_of_ok (get_run s), hm, if_pos halloc]
    rfl
  · have hcheck : ∀ s : Session, s.mconn = m → checkRcpt i s = .ok () s := by
      intro s hm
      unfold checkRcpt
      rw [run_bind_of_ok (get_run s), hm, if_neg halloc]
      rfl
    have hnull : m.rcpt[i]? = none ∨ m.rcpt[i]? = some none →
        ∀ s : Session, s.mconn = m → ∃ e, readRcpt i s = .error e s := by
      intro hslot s hm
      refine ⟨.nullPointer, ?_⟩
      unfold readRcpt
      rw [run_bind_of_ok (hcheck s hm), run_bind_of_ok (get_run s), hm]
      rcases hslot with hslot | hslot
      · rw [hslot]
        rfl
      · rw [hslot]
        rfl
    rcases hslot : m.rcpt[i]? with _ | _ | rcpt
    · exact .inr (hnull (.inl hslot))
    · exact .inr (hnull (.inr hslot))
    · refine .inl ⟨rcpt, rfl, fun s hm => ?_⟩
      unfold readRcpt
      rw [run_bind_of_ok (hcheck s hm), run_bind_of_ok (get_run s), hm, hslot]
      rfl

theorem returned_cons {o : Outcome} {os : List Outcome} (h : o.result = none) : returned (o :: os) = returned os := by
  unfold returned
  rw [List.findSome?_cons, h]

theorem addFiles_run (files : List File) :
    addFiles files s = .ok () { s with world := { s.world with disk := s.world.disk.add files } } := rfl

theorem acceptFrom_follows {n i : Nat} (hw : u.world = s.world) (hm : u.mconn = s.mconn) :
    FollowsAll s.world.disk (acceptFrom env now n i u) (planFrom env now n i s) := by
  induction n generalizing i u s with
  | zero =>
      refine ⟨rfl, ?_⟩
      rw [hw]
      exact Adds.nil _
  | succ n ih =>
      unfold acceptFrom planFrom
      rcases readRcpt_cases s.mconn i with ⟨rcpt, -, hread⟩ | hread
      · rw [run_bind_of_ok (hread u hm), run_bind_of_ok (hread s rfl)]
        have hb : Beside s.world.disk s.mconn s.world.disk u s :=
          ⟨by rw [hw], rfl, by rw [hw], hm, rfl⟩
        have h := @acceptFor_follows env s u now _ _ rcpt hb
        cases hrun : acceptFor env now rcpt u with
        | error e u' =>
            rw [hrun] at h
            cases hplan : plan env now rcpt s with
            | error e' s' =>
                rw [run_bind_of_error hrun, run_bind_of_error hplan]
                trivial
            | ok o s' =>
                rw [hplan] at h
                exact h.elim
        | ok r u' =>
            rw [hrun] at h
            cases hplan : plan env now rcpt s with
            | error e' s' =>
                rw [hplan] at h
                exact h.elim
            | ok o s' =>
                rw [hplan] at h
                obtain ⟨rfl, d, hb', hadds⟩ := h
                rw [run_bind_of_ok hrun, run_bind_of_ok hplan, run_bind_of_ok (addFiles_run _)]
                cases hresult : o.result with
                | some rc =>
                    refine ⟨?_, ?_⟩
                    · unfold returned
                      rw [List.findSome?_cons, hresult]
                      rfl
                    · rw [hb'.run]
                      show Adds _ (o.files ++ []) d
                      rw [List.append_nil]
                      exact hadds
                | none =>
                    -- the plan goes on with the files on the disk
                    let s₂ : Session := { s' with world := { s'.world with disk := s'.world.disk.add o.files } }
                    have hdisk : s'.world.disk.add o.files = d := by
                      rw [hb'.plan]
                      exact hadds.eq_add.symm
                    have hw₂ : u'.world = s₂.world := by
                      show u'.world = ⟨s'.world.disk.add o.files, s'.world.tick⟩
                      rw [hdisk, ← hb'.run, ← hb'.tick]
                    have hrest := ih (i := i + 1) (u := u') (s := s₂) hw₂ (hb'.mconn.trans hb'.same.symm)
                    dsimp only
                    cases hrun' : acceptFrom env now n (i + 1) u' with
                    | error e u'' =>
                        rw [hrun'] at hrest
                        cases hplan' : planFrom env now n (i + 1) s₂ with
                        | error e' s'' =>
                            rw [Option.isSome_none, if_neg Bool.false_ne_true, run_bind_of_error hplan']
                            trivial
                        | ok os s'' =>
                            rw [hplan'] at hrest
                            exact hrest.elim
                    | ok rc u'' =>
                        rw [hrun'] at hrest
                        cases hplan' : planFrom env now n (i + 1) s₂ with
                        | error e' s'' =>
                            rw [hplan'] at hrest
                            exact hrest.elim
                        | ok os s'' =>
                            rw [hplan'] at hrest
                            obtain ⟨hrc, hadds'⟩ := hrest
                            rw [Option.isSome_none, if_neg Bool.false_ne_true, run_bind_of_ok hplan']
                            refine ⟨hrc.trans (returned_cons hresult).symm, ?_⟩
                            have hs₂ : s₂.world.disk = d := hdisk
                            rw [hs₂] at hadds'
                            exact hadds.append hadds'
      · obtain ⟨e, he⟩ := hread u hm
        obtain ⟨e', he'⟩ := hread s rfl
        rw [run_bind_of_error he, run_bind_of_error he']
        trivial

theorem plan_mconn {rcpt : List Byte} {o : Outcome} {t : Session} (h : plan env now rcpt s = .ok o t) :
    t.mconn = s.mconn := by
  have hrun := @acceptFor_follows env s s now _ _ rcpt ⟨rfl, rfl, rfl, rfl, rfl⟩
  rw [h] at hrun
  cases hr : acceptFor env now rcpt s with
  | error e u =>
      rw [hr] at hrun
      exact hrun.elim
  | ok r u =>
      rw [hr] at hrun
      obtain ⟨-, d, hb, -⟩ := hrun
      exact hb.same

/-- The outcomes of a plan are those of its recipients. -/
theorem planFrom_plans {n i : Nat} {os : List Outcome} {t : Session} (h : planFrom env now n i s = .ok os t) :
    Plans env s.mconn now ((s.mconn.rcpt.drop i).take n) os := by
  induction n generalizing i s os t with
  | zero =>
      cases h
      exact ⟨fun o ho => absurd ho List.not_mem_nil, fun _ => .nil⟩
  | succ n ih =>
      unfold planFrom at h
      obtain ⟨rcpt, s₁, hread, h⟩ := bind_run_ok h
      rcases readRcpt_cases s.mconn i with ⟨rcpt', hslot, hread'⟩ | hread'
      · cases (hread' s rfl).symm.trans hread
        obtain ⟨o, s₂, hplan, h⟩ := bind_run_ok h
        rw [run_bind_of_ok (addFiles_run _)] at h
        have hfits := plan_fits hplan
        have hm := plan_mconn hplan
        cases hresult : o.result with
        | some rc =>
            rw [hresult] at h
            cases h
            refine ⟨fun o' ho => ?_, fun hno => ?_⟩
            · obtain rfl := List.mem_singleton.mp ho
              exact ⟨rcpt, hfits⟩
            · rw [List.any_cons, hresult] at hno
              cases hno
        | none =>
            rw [hresult] at h
            obtain ⟨rest, s₃, hrest, h⟩ := bind_run_ok (x := planFrom env now n (i + 1)) h
            cases h
            obtain ⟨hfits', hall⟩ := ih hrest
            refine ⟨fun o' ho => ?_, fun hno => ?_⟩
            · rcases List.mem_cons.mp ho with rfl | ho
              · exact ⟨rcpt, hfits⟩
              · obtain ⟨rcpt', h⟩ := hfits' o' ho
                exact ⟨rcpt', hm ▸ h⟩
            · rw [List.any_cons, hresult] at hno
              have hslots := hall hno
              rw [show s.mconn.rcpt.drop i = some rcpt :: s.mconn.rcpt.drop (i + 1) from
                List.drop_eq_getElem?_toList_append.trans (by rw [hslot]; rfl), List.take_succ_cons]
              refine .cons ⟨rcpt, rfl, hfits⟩ ?_
              rw [← hm]
              exact hslots
      · obtain ⟨e, he⟩ := hread' s rfl
        cases he.symm.trans hread

theorem smtpAccept_follows (s : Session) : FollowsAll s.world.disk (smtpAccept env s) (planAccept env s) := by
  unfold smtpAccept planAccept
  rw [run_bind_of_ok (tick_run s), run_bind_of_ok (tick_run s), run_bind_of_ok (get_run _), run_bind_of_ok (get_run _)]
  exact acceptFrom_follows (s := s.ticked) rfl rfl

theorem planAccept_plans {os : List Outcome} {t : Session} (h : planAccept env s = .ok os t) :
    Plans env s.mconn s.world.tick (s.mconn.rcpt.take s.mconn.numRcpts) os := by
  unfold planAccept at h
  rw [run_bind_of_ok (tick_run s), run_bind_of_ok (get_run _)] at h
  exact planFrom_plans h

/-! ### The reply -/

theorem Outcome.refuses_of_result {o : Outcome} (h : o.result.isSome = true) : ∃ rc, o = .refuses rc := by
  cases o with
  | refuses rc => exact ⟨rc, rfl⟩
  | delivers files => cases h
  | bounces files => cases h
  | overwrites files => cases h
  | loses files => cases h

/-- The value that is returned is 0 exactly where no recipient is refused. -/
theorem Plans.returned_eq_zero_iff {m : Mailconn} {slots : List (Option (List Byte))} {os : List Outcome}
    (h : Plans env m now slots os) : returned os = 0 ↔ os.any (·.result.isSome) = false := by
  unfold returned
  constructor
  · intro hzero
    by_contra hany
    obtain ⟨o, ho, hsome⟩ := List.any_eq_true.mp (Bool.not_eq_false _ ▸ hany)
    cases hfind : os.findSome? Outcome.result with
    | none =>
        rw [List.findSome?_eq_none_iff] at hfind
        rw [hfind o ho] at hsome
        cases hsome
    | some rc =>
        rw [hfind] at hzero
        obtain ⟨o', ho', hrc⟩ := List.exists_of_findSome?_eq_some hfind
        obtain ⟨rc', rfl⟩ := Outcome.refuses_of_result (o := o') (by rw [hrc]; rfl)
        obtain ⟨rcpt, hfits⟩ := h.fits _ ho'
        obtain rfl : rc' = rc := Option.some.inj hrc
        exact hfits hzero
  · intro hany
    have hnone : os.findSome? Outcome.result = none := by
      rw [List.findSome?_eq_none_iff]
      intro o ho
      have hno := List.any_eq_false.mp hany o ho
      simpa using hno
    rw [hnone]
    rfl

/-- Only 0 is answered with a 250. -/
theorem acceptReply_eq_iff (rc : Int) : acceptReply rc = bytes "250 Message accepted for delivery" ↔ rc = 0 := by
  have hspam : bytes "554 Message is permanently rejected (spam)" ≠ bytes "250 Message accepted for delivery" := by
    decide
  have hvirus : bytes "554 Message is permanently rejected (virus)" ≠ bytes "250 Message accepted for delivery" := by
    decide
  have hlater : bytes "451 Temporary failure - try again later" ≠ bytes "250 Message accepted for delivery" := by
    decide
  constructor
  · intro h
    by_contra hrc
    unfold acceptReply at h
    rw [if_neg hrc] at h
    split at h
    · exact hspam h
    · split at h
      · exact hvirus h
      · exact hlater h
  · rintro rfl
    rfl

/-- A file with a message or a bounce, and not with a queue entry. -/
def holdsMail (f : File) : Bool := f.2.head? == some (ch 'R') || f.2.head? == some (ch 'D')

theorem deed_count {m : Mailconn} {rcpt : List Byte} {files : List File}
    (h : IsDelivery env m now rcpt files ∨ IsBounceFor env m rcpt files) : files.countP holdsMail = 1 := by
  rcases h with ⟨n, ⟨-, mailbox, t, rfl⟩ | ⟨-, t, rfl⟩⟩ | ⟨n, text, ⟨original, rfl, -⟩, ⟨domainid, mailbox, t, -, rfl⟩ | ⟨t, rfl⟩⟩
  · rfl
  · rfl
  · rfl
  · rfl

theorem Fits.count {m : Mailconn} {rcpt : List Byte} {o : Outcome} (h : Fits env m now rcpt o) :
    o.files.countP holdsMail = if o.settles then 1 else 0 := by
  cases o with
  | delivers files => exact deed_count (.inl h)
  | bounces files => exact @deed_count env now m rcpt files (.inr h)
  | overwrites files =>
      obtain ⟨path, rfl⟩ := h
      rfl
  | loses files =>
      rcases h with rfl | ⟨path, date, rfl⟩
      · rfl
      · rfl
  | refuses rc => rfl

theorem newFiles_cons (o : Outcome) (os : List Outcome) : newFiles (o :: os) = o.files ++ newFiles os := rfl

theorem mem_newFiles {f : File} {os : List Outcome} : f ∈ newFiles os ↔ ∃ o ∈ os, f ∈ o.files := by
  unfold newFiles
  rw [List.mem_flatten]
  constructor
  · rintro ⟨files, hfiles, hf⟩
    obtain ⟨o, ho, rfl⟩ := List.mem_map.mp hfiles
    exact ⟨o, ho, hf⟩
  · rintro ⟨o, ho, hf⟩
    exact ⟨o.files, List.mem_map_of_mem ho, hf⟩

theorem Plans.count {m : Mailconn} {slots : List (Option (List Byte))} {os : List Outcome}
    (h : Plans env m now slots os) : (newFiles os).countP holdsMail = os.countP Outcome.settles := by
  have hfits := h.fits
  clear h
  induction os with
  | nil => rfl
  | cons o os ih =>
      obtain ⟨rcpt, ho⟩ := hfits o List.mem_cons_self
      rw [newFiles_cons, List.countP_append, List.countP_cons, ho.count,
        ih fun o' ho' => hfits o' (List.mem_cons_of_mem _ ho'), Nat.add_comm]

theorem deeds_count {m : Mailconn} {slots : List (Option (List Byte))} {deeds : List (List File)}
    (h : List.Forall₂ (fun slot files => ∃ rcpt, slot = some rcpt ∧
      (IsDelivery env m now rcpt files ∨ IsBounceFor env m rcpt files)) slots deeds) :
    deeds.flatten.countP holdsMail = slots.length := by
  induction h with
  | nil => rfl
  | cons h _ ih =>
      obtain ⟨rcpt, -, hdeed⟩ := h
      rw [List.flatten_cons, List.countP_append, deed_count hdeed, ih, List.length_cons, Nat.add_comm]

/-- What is written for a recipient is from the message. -/
theorem Fits.writes_iff {m : Mailconn} {rcpt : List Byte} {o : Outcome} (h : Fits env m now rcpt o) :
    o.writes = true ↔ ∃ f ∈ o.files, FromMessage env m f.2 := by
  -- the first six bytes tell messages, bounces and both kinds of entries apart
  have hbounce : ∀ {hostName date sender rcpt' reason : List Byte} {original : Option (List Byte)},
      ¬ FromMessage env m (bounceText hostName date sender rcpt' reason original) := by
    rintro hostName date sender rcpt' reason original ⟨k, r, heq | heq⟩
    · cases congrArg List.head? heq
    · cases congrArg List.head? heq
  have hentry : ∀ {sender date : List Byte}, ¬ FromMessage env m (bounceInfo sender date) := by
    rintro sender date ⟨k, r, heq | heq⟩
    · cases congrArg List.head? heq
    · cases congrArg (fun l : List Byte => l[5]?) heq
  cases o with
  | delivers files =>
      refine ⟨fun _ => ?_, fun _ => rfl⟩
      obtain ⟨n, ⟨-, mailbox, t, rfl⟩ | ⟨-, t, rfl⟩⟩ := h
      · exact ⟨_, List.mem_cons_self, now, rcpt, .inl rfl⟩
      · exact ⟨_, List.mem_cons_self, now, rcpt, .inl rfl⟩
  | overwrites files =>
      refine ⟨fun _ => ?_, fun _ => rfl⟩
      obtain ⟨path, rfl⟩ := h
      exact ⟨_, List.mem_cons_self, now, rcpt, .inr rfl⟩
  | bounces files =>
      refine ⟨fun hno => absurd hno Bool.false_ne_true, ?_⟩
      obtain ⟨n, text, ⟨original, rfl, -⟩, ⟨domainid, mailbox, t, -, rfl⟩ | ⟨t, rfl⟩⟩ := h
      · rintro ⟨f, hf, hfrom⟩
        obtain rfl := List.mem_singleton.mp hf
        exact absurd hfrom hbounce
      · rintro ⟨f, hf, hfrom⟩
        rcases List.mem_cons.mp hf with rfl | hf
        · exact absurd hfrom hbounce
        · obtain rfl := List.mem_singleton.mp hf
          exact absurd hfrom hentry
  | loses files =>
      refine ⟨fun hno => absurd hno Bool.false_ne_true, ?_⟩
      rintro ⟨f, hf, hfrom⟩
      rcases h with rfl | ⟨path, date, rfl⟩
      · exact absurd hf List.not_mem_nil
      · obtain rfl := List.mem_singleton.mp hf
        exact absurd hfrom hentry
  | refuses rc =>
      refine ⟨fun hno => absurd hno Bool.false_ne_true, ?_⟩
      rintro ⟨f, hf, -⟩
      exact absurd hf List.not_mem_nil

/-- Where all recipients are settled, there is a delivery or a bounce for each. -/
theorem settled {m : Mailconn} {slots : List (Option (List Byte))} {os : List Outcome}
    (h : List.Forall₂ (fun slot o => ∃ rcpt, slot = some rcpt ∧ Fits env m now rcpt o) slots os)
    (hsettles : ∀ o ∈ os, o.settles = true) :
    List.Forall₂ (fun slot o => ∃ rcpt, slot = some rcpt ∧
      (IsDelivery env m now rcpt o.files ∨ IsBounceFor env m rcpt o.files)) slots os := by
  induction h with
  | nil => exact .nil
  | @cons slot o _ _ h _ ih =>
      obtain ⟨rcpt, hslot, hfits⟩ := h
      refine .cons ⟨rcpt, hslot, ?_⟩ (ih fun o' ho' => hsettles o' (List.mem_cons_of_mem _ ho'))
      have ho := hsettles o List.mem_cons_self
      cases o with
      | delivers files => exact .inl hfits
      | bounces files => exact .inr hfits
      | overwrites files => cases ho
      | loses files => cases ho
      | refuses rc => cases ho

/-- The reply agrees with what was done exactly if the outcomes are harmless. -/
theorem replyAgrees_iff (env : Env) (s : Session) :
    ReplyAgrees env s ↔ ∀ os t, planAccept env s = .ok os t → Harmless os := by
  have hfollows := @smtpAccept_follows env s
  constructor
  · intro hagrees os t hplan
    have hplans := planAccept_plans hplan
    rw [hplan] at hfollows
    cases hrun : smtpAccept env s with
    | error e u =>
        rw [hrun] at hfollows
        exact hfollows.elim
    | ok rc u =>
        rw [hrun] at hfollows
        obtain ⟨hrc, hadds⟩ := hfollows
        have h := hagrees rc u hrun
        have hreply := (acceptReply_eq_iff rc).trans (hrc ▸ hplans.returned_eq_zero_iff)
        unfold Harmless
        cases hany : os.any (·.result.isSome) with
        | true =>
            rw [if_neg fun h250 => Bool.false_ne_true ((hreply.mp h250).symm.trans hany)] at h
            rw [if_pos rfl]
            intro o ho
            by_contra hwrites
            obtain ⟨rcpt, hfits⟩ := hplans.fits o ho
            obtain ⟨f, hf, hfrom⟩ := hfits.writes_iff.mp (Bool.not_eq_false _ ▸ hwrites)
            obtain ⟨hfree, hthere⟩ := (hadds.mem_iff f).mp (mem_newFiles.mpr ⟨o, ho, hf⟩)
            exact h f.1 f.2 hfree hthere hfrom
        | false =>
            rw [if_pos (hreply.mpr hany)] at h
            rw [if_neg (by decide)]
            obtain ⟨deeds, hdeeds, hadds'⟩ := h
            -- there are as many files with mail as recipients
            have hcount := (hadds.perm hadds').countP_eq holdsMail
            rw [hplans.count, deeds_count hdeeds, (hplans.all hany).length_eq] at hcount
            exact List.countP_eq_length.mp hcount
  · intro hharmless rc u hrun
    rw [hrun] at hfollows
    cases hplan : planAccept env s with
    | error e t =>
        rw [hplan] at hfollows
        exact hfollows.elim
    | ok os t =>
        have hplans := planAccept_plans hplan
        have h := hharmless os t hplan
        rw [hplan] at hfollows
        obtain ⟨hrc, hadds⟩ := hfollows
        have hreply := (acceptReply_eq_iff rc).trans (hrc ▸ hplans.returned_eq_zero_iff)
        unfold Harmless at h
        cases hany : os.any (·.result.isSome) with
        | true =>
            rw [hany, if_pos rfl] at h
            rw [if_neg fun h250 => Bool.false_ne_true ((hreply.mp h250).symm.trans hany)]
            intro path content hfree hthere hfrom
            obtain ⟨o, ho, hf⟩ := mem_newFiles.mp ((hadds.mem_iff (path, content)).mpr ⟨hfree, hthere⟩)
            obtain ⟨rcpt, hfits⟩ := hplans.fits o ho
            have hwrites := hfits.writes_iff.mpr ⟨_, hf, hfrom⟩
            rw [h o ho] at hwrites
            cases hwrites
        | false =>
            rw [hany, if_neg (by decide)] at h
            rw [if_pos (hreply.mpr hany)]
            refine ⟨os.map Outcome.files, ?_, hadds⟩
            rw [List.forall₂_map_right_iff]
            exact settled (hplans.all hany) h

end

/-- A session at the end of a message for the recipients. -/
def delivering (rcpts : List (List Byte)) : Session where
  conn := (newSession [] []).conn
  mconn :=
    { senderCanRelay := 1
      sender := bytes "c@h"
      rcptalloc := 50
      numRcpts := rcpts.length
      rcpt := rcpts.map some ++ List.replicate (50 - rcpts.length) none
      msgbody := bytes "m\r\n" }

/-- Surroundings in which a scanner takes the second file that it sees for spam. -/
def scanningEnv : Env := { goodEnv with filterScan := fun n => if n < 9 then 0 else 1 }

/-- The first recipient has the message when it is rejected for the second one. -/
theorem not_replyAgrees : ¬ ReplyAgrees scanningEnv (delivering [bytes "a@h", bytes "b@h"]) := by
  intro h
  let s := delivering [bytes "a@h", bytes "b@h"]
  let path := mailspoolFile (bytes "v") 1 (bytes "a") (5, 0)
  have hsees : (match smtpAccept scanningEnv s with
    | .ok rc t => some (rc, t.world.disk path)
    | .error _ _ => none) = some (1, some (messageFor scanningEnv s.mconn 0 (bytes "a@h"))) := by decide +kernel
  cases hrun : smtpAccept scanningEnv s with
  | error e t =>
      rw [hrun] at hsees
      cases hsees
  | ok rc t =>
      rw [hrun] at hsees
      obtain ⟨hrc, hthere⟩ := Prod.mk.inj (Option.some.inj hsees)
      have hreply := h rc t hrun
      rw [hrc, if_neg (by decide)] at hreply
      exact hreply path _ rfl hthere ⟨0, bytes "a@h", .inl rfl⟩

end NullG.Smtpd
