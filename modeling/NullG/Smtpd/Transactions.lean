/-
Transactions of a session.

A transaction opens with `MAIL`, takes the recipients after it, and is over with a message that was
given to `smtp_accept` or with `RSET` or `STARTTLS`. `smtp_data` leaves the sender and the
recipients as they are, so the next `DATA` sends a message to them again.
-/

import NullG.Smtpd.Recipients

namespace NullG.Smtpd

open NullG.Nsp NullG.Lib NullG.Net NullG.Mail

/-- A sender, and the recipients after it. -/
structure Transaction where
  sender : List Byte
  rcpts : List (List Byte) := []

/-- The transaction that is open behind an event. -/
def Event.openAfter : Option Transaction → Event → Option Transaction
  | _, .mail sender => some { sender := sender }
  | t, .rcpt address => t.map fun t => { t with rcpts := t.rcpts ++ [address] }
  | t, .data => t
  | _, .accept _ _ => none
  | _, .reset => none

/-- The transaction that is open behind all events. -/
def openTransaction (events : List Event) : Option Transaction := events.foldl Event.openAfter none

/-- The last transaction is over with a message that was given to `smtp_accept`. -/
def completed (events : List Event) : Bool :=
  events.foldl (fun before e =>
    match e with
    | .accept _ _ => true
    | .mail _ | .reset => false
    | .rcpt _ | .data => before) false

/-- An event belongs to an open transaction: a `DATA` to one that has recipients, and a message to
the one with its sender and its recipients. -/
def Event.Belongs (t : Option Transaction) : Event → Prop
  | .data => ∃ t', t = some t' ∧ t'.rcpts ≠ []
  | .accept sender rcpts => ∃ t', t = some t' ∧ sender = t'.sender ∧ rcpts = t'.rcpts.map some
  | _ => True

/-- Every event belongs to the transaction that was open before it. -/
def Isolated (events : List Event) : Prop :=
  ∀ before e rest, events = before ++ e :: rest → e.Belongs (openTransaction before)

/-- The next line is no `DATA` for a message that was given away already. -/
def Fresh (s : Session) : Prop :=
  ∀ line, nextLine s = some line → s.conn.state = 1 → sameText line (bytes "data") = true →
    completed s.events = false

instance (s : Session) : Decidable (Fresh s) :=
  decidable_of_iff (∀ line ∈ nextLine s, s.conn.state = 1 → sameText line (bytes "data") = true →
    completed s.events = false) ⟨fun h line hline => h line hline, fun h line hline => h line hline⟩

/-- The transactions of a session are isolated. -/
def TransactionsIsolated (env : Env) (s₀ : Session) : Prop := Isolated (final (smtpDorequest env s₀)).events

section

variable {env : Env} {v : Mailconn × List Event} {events : List Event} {e : Event} {t : Transaction}

@[simp] theorem openTransaction_snoc (events : List Event) (e : Event) :
    openTransaction (events ++ [e]) = e.openAfter (openTransaction events) := List.foldl_concat _ _ _ _

@[simp] theorem completed_rcpt (events : List Event) (address : List Byte) :
    completed (events ++ [.rcpt address]) = completed events := List.foldl_concat _ _ _ _

@[simp] theorem completed_accept (events : List Event) (sender : List Byte) (rcpts : List (Option (List Byte))) :
    completed (events ++ [.accept sender rcpts]) = true := List.foldl_concat _ _ _ _

theorem isolated_nil : Isolated [] := by
  intro before e rest h
  cases before <;> cases h

theorem Isolated.snoc (h : Isolated events) (he : e.Belongs (openTransaction events)) : Isolated (events ++ [e]) := by
  intro before e' rest heq
  rcases List.eq_nil_or_concat' rest with rfl | ⟨rest, last, rfl⟩
  · obtain ⟨rfl, hlast⟩ := List.append_inj' heq rfl
    obtain rfl := (List.cons.inj hlast).1
    exact he
  · rw [← List.cons_append, ← List.append_assoc] at heq
    exact h before e' rest (List.append_inj' heq rfl).1

/-- The sender and the recipients are those of the open transaction, and without one that was
completed there is no sender. -/
structure Tracked (v : Mailconn × List Event) : Prop where
  slots : Slots v.1
  isolated : Isolated v.2
  opened : ∀ t, openTransaction v.2 = some t →
    v.1.sender = t.sender ∧ v.1.rcpt.take v.1.numRcpts = t.rcpts.map some
  idle : openTransaction v.2 = none → completed v.2 = false → v.1.sender = [] ∧ v.1.senderIsBlank = false

/-- The program keeps the transaction. -/
def KeepsTransaction {α : Type} (x : S α) : Prop :=
  Runs (fun s => Tracked s.envelope) x (fun _ s => Tracked s.envelope) fun _ s => Isolated s.events

theorem QuietAt.keepsTransaction {α : Type} {x : S α} (hx : ∀ v, Tracked v → QuietAt v x) : KeepsTransaction x :=
  (QuietAt.frame hx).conseq (fun _ h => h) (fun _ _ h => h) fun _ _ h => h.2.isolated

theorem Quiet.keepsTransaction {α : Type} {x : S α} (hx : Quiet x) : KeepsTransaction x :=
  QuietAt.keepsTransaction fun v _ => hx v

theorem modify_keepsTransaction {f : Session → Session} (hf : ∀ s, (f s).envelope = s.envelope) :
    KeepsTransaction (modify f : S Unit) := (Quiet.modify hf).keepsTransaction

/-! ### The commands -/

/-- As many recipients were stored as there are. -/
theorem Tracked.rcpts_ne_nil (h : Tracked v) (hopen : openTransaction v.2 = some t) (hn : v.1.numRcpts ≠ 0) :
    t.rcpts ≠ [] := by
  intro hnil
  obtain ⟨-, htake⟩ := h.opened t hopen
  rw [hnil, List.map_nil, List.take_eq_nil_iff] at htake
  rcases htake with htake | htake
  · exact hn htake
  · have hinside := h.slots.inside
    rw [← h.slots.size, htake] at hinside
    exact hn (Nat.le_zero.mp hinside)

/-- `DATA` where nothing was given away already. -/
theorem smtpData_transaction :
    Runs (fun s => Tracked s.envelope ∧ completed s.events = false) (smtpData env) (fun _ s => Tracked s.envelope)
      fun _ s => Isolated s.events := by
  have hsend : ∀ (A : Session → Prop) (text : List Byte), (∀ s, A s → Tracked s.envelope) →
      Runs A (smtpSend text) (fun _ s => Tracked s.envelope) fun _ s => Isolated s.events :=
    fun A text hA => (smtpSend_quiet text).keepsTransaction.pre hA
  refine .bind (B := fun _ (s : Session) => Tracked s.envelope ∧ completed s.events = false) (fun _ h => h) fun now => ?_
  refine .read fun u => .ite (fun _ => hsend _ _ fun _ h => h.1.1) fun hsender => ?_
  refine .ite (fun _ => hsend _ _ fun _ h => h.1.1) fun hn => ?_
  rintro s ⟨⟨htracked, hfresh⟩, rfl⟩
  -- there is a sender, so a transaction is open
  obtain ⟨t, hopen⟩ : ∃ t, openTransaction s.events = some t := by
    cases hopen : openTransaction s.events with
    | some t => exact ⟨t, rfl⟩
    | none =>
        obtain ⟨hnil, hblank⟩ := htracked.idle hopen hfresh
        have hnil' : s.mconn.sender = [] := hnil
        have hblank' : s.mconn.senderIsBlank = false := hblank
        rw [hnil', hblank'] at hsender
        exact absurd rfl hsender
  obtain ⟨hfrom, htake⟩ := htracked.opened t hopen
  have hrcpts := htracked.rcpts_ne_nil hopen hn
  let Open : Session → Prop := fun s => Tracked s.envelope ∧ openTransaction s.events = some t
  have hquiet : ∀ {α : Type} {x : S α}, Quiet x → Runs Open x (fun _ => Open) fun _ s => Isolated s.events :=
    fun hx => (QuietAt.frame (P := fun v => Tracked v ∧ openTransaction v.2 = some t) fun v _ => hx v).conseq
      (fun _ h => h) (fun _ _ h => h) fun _ _ h => h.2.1.isolated
  have hrest : Runs Open (do
      smtpSend (bytes "354 Send the mail data, end with .")
      note .data
      setMconn fun m => { m with msgbody := [] }
      if ← dataLoop env now (s.conn.left + 1) {} false then
        note (.accept s.mconn.sender (s.mconn.rcpt.take s.mconn.numRcpts))
        let rc ← smtpAccept env
        setMconn fun m => { m with msgbody := [] }
        smtpSend (acceptReply rc)) (fun _ s => Tracked s.envelope) fun _ s => Isolated s.events := by
    refine .bind (hquiet (smtpSend_quiet _)) fun _ => ?_
    refine .bind (B := fun _ => Open) (.modify fun s h => ?_) fun _ => ?_
    · have hsame : openTransaction (s.events ++ [.data]) = openTransaction s.events := openTransaction_snoc _ _
      refine ⟨⟨h.1.slots, h.1.isolated.snoc ⟨t, h.2, hrcpts⟩, ?_, ?_⟩, hsame.trans h.2⟩
      · intro t' ht'
        exact h.1.opened t' (hsame.symm.trans ht')
      · intro hnone
        cases (hsame.trans h.2).symm.trans hnone
    refine .bind (hquiet (.modify fun _ => rfl)) fun _ => ?_
    refine .bind (hquiet (dataLoop_quiet _ _ _ _)) fun ended => .ite (fun _ => ?_) fun _ => .pure fun _ h => h.1
    refine .bind (B := fun _ s => Tracked s.envelope) (.modify fun u h => ?_) fun _ => ?_
    · have hnone : openTransaction (u.events ++ [.accept s.mconn.sender (s.mconn.rcpt.take s.mconn.numRcpts)]) = none :=
        openTransaction_snoc _ _
      refine ⟨h.1.slots, h.1.isolated.snoc ⟨t, h.2, hfrom, htake⟩, ?_, ?_⟩
      · intro t' ht'
        cases hnone.symm.trans ht'
      · intro _ hcompleted
        have haccept := completed_accept u.events s.mconn.sender (s.mconn.rcpt.take s.mconn.numRcpts)
        cases haccept.symm.trans hcompleted
    refine .bind (QuietAt.keepsTransaction fun v hv => smtpAccept_quiet hv.slots) fun rc => ?_
    exact .bind (modify_keepsTransaction fun _ => rfl) fun _ => (smtpSend_quiet _).keepsTransaction
  exact hrest s ⟨htracked, hopen⟩

/-- `MAIL` opens a transaction. -/
theorem smtpFrom_transaction (arg : List Byte) : KeepsTransaction (smtpFrom arg) := by
  intro s hs
  obtain ⟨rcpt, hfree, hfreed⟩ := freeRcpts_ok ((slots_envelope s).mp hs.slots).freedTo (Nat.zero_add _)
  unfold smtpFrom
  rw [run_bind_of_ok (show (get : S Session) s = .ok s s from rfl), run_bind_of_ok hfree]
  let sender := snprintf 1023 (addressOf arg)
  have hrest : Runs (fun s => FreedTo s.mconn.numRcpts s.mconn ∧ Isolated s.events) (do
      setMconn fun m => { m with sender := sender, numRcpts := 0 }
      note (.mail sender)
      if !sender.isEmpty then smtpSend (snprintf 255 (bytes "250 Sender '" ++ sender ++ bytes "' OK"))
      else
        setMconn fun m => { m with senderIsBlank := true }
        smtpSend (bytes "250 Sender 'NULL' OK")) (fun _ s => Tracked s.envelope) fun _ s => Isolated s.events := by
    refine .bind (B := fun _ s => Slots s.mconn ∧ s.mconn.sender = sender ∧ s.mconn.numRcpts = 0 ∧ Isolated s.events)
      (.modify fun s h => ⟨⟨h.1.slots.size, h.1.slots.filled⟩, rfl, rfl, h.2⟩) fun _ => ?_
    refine .bind (B := fun _ s => Tracked s.envelope ∧ openTransaction s.events = some { sender := sender })
      (.modify fun s h => ?_) fun _ => ?_
    · obtain ⟨hslots, hsender, hn, hisolated⟩ := h
      have hopen : openTransaction (s.events ++ [.mail sender]) = some { sender := sender } := openTransaction_snoc _ _
      refine ⟨⟨⟨hslots.size, hslots.filled⟩, hisolated.snoc trivial, fun t ht => ?_, fun hnone => ?_⟩, hopen⟩
      · cases hopen.symm.trans ht
        refine ⟨hsender, ?_⟩
        show s.mconn.rcpt.take s.mconn.numRcpts = []
        rw [hn, List.take_zero]
      · cases hopen.symm.trans hnone
    refine .ite (fun _ => (smtpSend_quiet _).keepsTransaction.pre fun _ h => h.1) fun _ => ?_
    refine .bind (B := fun _ (s : Session) => Tracked s.envelope) (.modify fun s h => ?_) fun _ =>
      (smtpSend_quiet _).keepsTransaction
    refine ⟨⟨h.1.slots.size, h.1.slots.filled⟩, h.1.isolated, h.1.opened, fun hnone => ?_⟩
    cases h.2.symm.trans hnone
  exact hrest _ ⟨hfreed, hs.isolated⟩

/-- Nothing is left behind `RSET`. -/
theorem smtpRset_transaction (quiet : Bool) : KeepsTransaction (smtpRset env quiet) := by
  intro s hs
  obtain ⟨rcpt, hfree, hfreed⟩ := freeRcpts_ok ((slots_envelope s).mp hs.slots).freedTo (Nat.zero_add _)
  unfold smtpRset
  rw [run_bind_of_ok (show (get : S Session) s = .ok s s from rfl), run_bind_of_ok hfree]
  let Cleared : Mailconn × List Event → Prop := fun v =>
    FreedTo v.1.numRcpts v.1 ∧ v.1.sender = [] ∧ Isolated v.2
  have hrest : Runs (fun s => FreedTo s.mconn.numRcpts s.mconn ∧ Isolated s.events) (do
      setMconn fun m => { m with sender := [] }
      setRelay env
      setMconn fun m => { m with senderIsBlank := false, numRcpts := 0 }
      note .reset
      if !quiet then smtpSend (bytes "250 Reset OK")) (fun _ s => Tracked s.envelope) fun _ s => Isolated s.events := by
    refine .bind (B := fun _ s => Cleared s.envelope)
      (.modify fun s h => ⟨⟨h.1.size, h.1.inside, h.1.filled⟩, rfl, h.2⟩) fun _ => ?_
    refine .bind (B := fun _ s => Cleared s.envelope) ?_ fun _ => ?_
    · exact (QuietAt.frame (P := Cleared) fun v _ => setRelay_quiet v).conseq (fun _ h => h) (fun _ _ h => h)
        fun _ _ h => h.2.2.2
    refine .bind (B := fun _ s => Slots s.mconn ∧ s.mconn.sender = [] ∧ s.mconn.senderIsBlank = false ∧ Isolated s.events)
      (.modify fun s h => ⟨⟨h.1.slots.size, h.1.slots.filled⟩, h.2.1, rfl, h.2.2⟩) fun _ => ?_
    refine .bind (B := fun _ s => Tracked s.envelope) (.modify fun s h => ?_) fun _ => ?_
    · obtain ⟨hslots, hsender, hblank, hisolated⟩ := h
      have hopen : openTransaction (s.events ++ [.reset]) = none := openTransaction_snoc _ _
      refine ⟨⟨hslots.size, hslots.filled⟩, hisolated.snoc trivial, fun t ht => ?_, fun _ _ => ⟨hsender, hblank⟩⟩
      cases hopen.symm.trans ht
    exact .ite (fun _ => (smtpSend_quiet _).keepsTransaction) fun _ => .pure fun _ h => h
  exact hrest _ ⟨hfreed, hs.isolated⟩

/-- A recipient that is stored belongs to the open transaction, if there is one. -/
theorem Tracked.push (h : Tracked v) (hroom : v.1.numRcpts < v.1.rcptalloc)
    (hsender : ¬ (v.1.sender.isEmpty && !v.1.senderIsBlank) = true) (rcpt : List Byte) :
    Tracked ({ v.1 with rcpt := v.1.rcpt.set v.1.numRcpts (some rcpt), numRcpts := v.1.numRcpts + 1 },
      v.2 ++ [.rcpt rcpt]) := by
  have hopen : openTransaction (v.2 ++ [.rcpt rcpt]) =
      (openTransaction v.2).map fun t => { t with rcpts := t.rcpts ++ [rcpt] } := openTransaction_snoc _ _
  refine ⟨h.slots.push hroom rcpt, h.isolated.snoc trivial, fun t ht => ?_, fun hnone hfresh => ?_⟩
  · cases hbefore : openTransaction v.2 with
    | none =>
        rw [hbefore] at hopen
        cases hopen.symm.trans ht
    | some t' =>
        rw [hbefore] at hopen
        cases hopen.symm.trans ht
        obtain ⟨hfrom, htake⟩ := h.opened t' hbefore
        refine ⟨hfrom, ?_⟩
        have hlen : v.1.numRcpts < v.1.rcpt.length := by
          rw [h.slots.size]
          exact hroom
        show (v.1.rcpt.set v.1.numRcpts (some rcpt)).take (v.1.numRcpts + 1) = (t'.rcpts ++ [rcpt]).map some
        rw [List.map_append, ← htake, List.take_add_one, List.take_set_of_le (Nat.le_refl _),
          List.getElem?_set_self hlen]
        rfl
  · have hnone' : openTransaction v.2 = none := by
      rw [hopen, Option.map_eq_none_iff] at hnone
      exact hnone
    rw [completed_rcpt] at hfresh
    obtain ⟨hnil, hblank⟩ := h.idle hnone' hfresh
    rw [hnil, hblank] at hsender
    exact absurd rfl hsender

/-- `RCPT` adds to the open transaction. -/
theorem smtpRcpt_transaction (arg : List Byte) : KeepsTransaction (smtpRcpt env arg) := by
  refine .read fun t => ?_
  refine .ite (fun _ => (smtpSend_quiet _).keepsTransaction.pre fun _ h => h.1) fun hsender => ?_
  dsimp only
  refine .ite (fun _ => (smtpSend_quiet _).keepsTransaction.pre fun _ h => h.1) fun _ => ?_
  rintro s ⟨hs, rfl⟩
  rw [run_bind_of_ok (tick_run s)]
  by_cases hrelay : env.domainGetid s.world.tick (splitAddr (addressOf arg)).2 < 1 ∧ s.mconn.senderCanRelay ≠ 1
  · rw [if_pos hrelay]
    exact (smtpSend_quiet _).keepsTransaction _ hs
  · rw [if_neg hrelay]
    by_cases hroom : s.mconn.numRcpts < s.mconn.rcptalloc
    · have hwrite := @writeRcpt_ok s.ticked s.mconn.numRcpts (some (snprintf 127 (addressOf arg))) hroom
      rw [run_bind_of_ok hwrite]
      have hrest : Runs (fun u => Tracked u.envelope ∧ u.mconn.numRcpts = s.mconn.numRcpts + 1)
          (do smtpSend (snprintf 255 (bytes "250 Recipient '" ++ (← readRcpt s.mconn.numRcpts) ++ bytes "' OK")))
          (fun _ s => Tracked s.envelope) fun _ s => Isolated s.events := by
        refine .bind (B := fun _ (u : Session) => Tracked u.envelope) ?_ fun rcpt => (smtpSend_quiet _).keepsTransaction
        exact (QuietAt.frame (P := fun v => Tracked v ∧ v.1.numRcpts = s.mconn.numRcpts + 1) fun v hv =>
          readRcpt_quiet hv.1.slots (by rw [hv.2]; exact Nat.lt_succ_self _)).conseq (fun _ h => h)
          (fun _ _ h => h.1) fun _ _ h => h.2.1.isolated
      exact hrest _ ⟨hs.push hroom hsender _, rfl⟩
    · have hwrite := @writeRcpt_error s.ticked s.mconn.numRcpts (some (snprintf 127 (addressOf arg)))
        (Nat.not_lt.mp hroom)
      rw [run_bind_of_error hwrite]
      exact hs.isolated

theorem command_transaction (line : List Byte) :
    Runs (fun s => Tracked s.envelope ∧ (s.conn.state = 1 → sameText line (bytes "data") = true →
        completed s.events = false)) (command env line) (fun _ s => Tracked s.envelope)
      fun _ s => Isolated s.events := by
  have hsend : ∀ (A : Session → Prop) (text : List Byte), (∀ s, A s → Tracked s.envelope) →
      Runs A (smtpSend text) (fun _ s => Tracked s.envelope) fun _ s => Isolated s.events :=
    fun A text hA => (smtpSend_quiet text).keepsTransaction.pre hA
  refine .read fun t => ?_
  refine .ite (fun _ => .pre ?_ fun _ h => h.1.1) fun _ => ?_
  · refine .bind (modify_keepsTransaction fun _ => rfl) fun _ => ?_
    refine .bind (smtpSend_quiet _).keepsTransaction fun _ => ?_
    refine .bind (smtpSend_quiet _).keepsTransaction fun _ => ?_
    exact .ite (fun _ => (setState_quiet 1).keepsTransaction) fun _ => .pure fun _ h => h
  refine .ite (fun _ => .pre ?_ fun _ h => h.1.1) fun _ => ?_
  · refine .bind (smtpSend_quiet _).keepsTransaction fun _ => ?_
    refine .bind (smtpRset_transaction true) fun _ => ?_
    refine .bind (setState_quiet 0).keepsTransaction fun _ => ?_
    exact .bind tick_quiet.keepsTransaction fun n => modify_keepsTransaction fun _ => rfl
  refine .ite (fun hstate => ?_) fun _ => hsend _ _ fun _ h => h.1.1
  refine .ite (fun _ => hsend _ _ fun _ h => h.1.1) fun _ => ?_
  refine .ite (fun _ => (smtpFrom_transaction _).pre fun _ h => h.1.1) fun _ => ?_
  refine .ite (fun _ => (smtpRcpt_transaction _).pre fun _ h => h.1.1) fun _ => ?_
  refine .ite (fun hdata => smtpData_transaction.pre ?_) fun _ => ?_
  · rintro s ⟨⟨hs, hfresh⟩, rfl⟩
    exact ⟨hs, hfresh hstate hdata⟩
  refine .ite (fun _ => (smtpRset_transaction false).pre fun _ h => h.1.1) fun _ => ?_
  refine .ite (fun _ => hsend _ _ fun _ h => h.1.1) fun _ => ?_
  exact .ite (fun _ => hsend _ _ fun _ h => h.1.1) fun _ => hsend _ _ fun _ h => h.1.1

/-- A request keeps the transactions isolated, unless it sends a message again. -/
theorem request_transaction :
    Runs (fun s => Tracked s.envelope ∧ Fresh s) (request env) (fun _ s => Tracked s.envelope)
      fun _ s => Isolated s.events := by
  rintro s ⟨hs, hfresh⟩
  have hread : fgets 255 s = .ok (s.conn.fgets 255).1 { s with conn := (s.conn.fgets 255).2 } := rfl
  have hnext : nextLine s = (s.conn.fgets 255).1.map striprn := rfl
  unfold request
  rw [run_bind_of_ok hread]
  cases hline : (s.conn.fgets 255).1 with
  | none => exact hs
  | some line =>
      rw [hline] at hnext
      dsimp only
      by_cases hquit : sameText (striprn line) (bytes "quit") = true
      · rw [if_pos hquit]
        exact hs
      · rw [if_neg hquit]
        have hstate : (s.conn.fgets 255).2.state = s.conn.state := by
          unfold Conn.fgets
          split <;> rfl
        have hcommand := (@command_transaction env (striprn line)).bind (f := fun _ => (pure true : S Bool))
          (C := fun _ s => Tracked s.envelope) fun _ => .pure fun _ h => h
        exact hcommand _ ⟨hs, fun h1 hdata => hfresh (striprn line) hnext (hstate ▸ h1) hdata⟩

/-! ### Sessions -/

theorem cleanup_events (n i : Nat) (s : Session) (h : Isolated s.events) :
    Ends (fun _ s => Isolated s.events) (fun _ s => Isolated s.events) (cleanup n i s) := by
  have hcheck : ∀ i, Runs (fun s => Isolated s.events) (checkRcpt i) (fun _ s => Isolated s.events)
      fun _ s => Isolated s.events := fun i =>
    .read fun t => .ite (fun _ => .throw fun _ h => h.1) fun _ => .pure fun _ h => h.1
  induction n generalizing i s with
  | zero => exact h
  | succ n ih => exact (hcheck i).bind (f := fun _ => cleanup n (i + 1)) (fun _ s hs => ih (i + 1) s hs) s h

theorem greet_transaction (recvs sslReads : List (List Byte)) :
    Ends (fun more s => if more = true then Tracked s.envelope else Isolated s.events) (fun _ s => Isolated s.events)
      (greet env (newSession recvs sslReads)) := by
  have hslots := @greet_slots env (newSession recvs sslReads) rfl
  let Idle : Mailconn × List Event → Prop := fun v => v.1.sender = [] ∧ v.1.senderIsBlank = false ∧ v.2 = []
  have hgreet : Runs (fun s => Idle s.envelope) (greet env) (fun _ s => Idle s.envelope) fun _ s => Isolated s.events := by
    have hisolated : ∀ s : Session, Idle s.envelope → Isolated s.events := by
      rintro s ⟨-, -, hnil⟩
      have hnil' : s.events = [] := hnil
      rw [hnil']
      exact isolated_nil
    have hquiet : ∀ {α : Type} {x : S α}, Quiet x → Runs (fun s => Idle s.envelope) x (fun _ s => Idle s.envelope)
        fun _ s => Isolated s.events := fun hx =>
      (QuietAt.frame (P := Idle) fun v _ => hx v).conseq (fun _ h => h) (fun _ _ h => h) fun _ s h => hisolated s h.2
    refine .bind (hquiet setRelay_quiet) fun _ => .read fun t => .pre ?_ fun _ h => h.1
    refine .ite (fun _ => .bind (hquiet (smtpSend_quiet _)) fun _ => .pure fun _ h => h) fun _ => ?_
    exact .bind (hquiet (smtpSend_quiet _)) fun _ => .bind (.modify fun _ h => h) fun _ => .pure fun _ h => h
  have hidle := hgreet (newSession recvs sslReads) ⟨rfl, rfl, rfl⟩
  cases hrun : greet env (newSession recvs sslReads) with
  | error e s =>
      rw [hrun] at hidle
      exact hidle
  | ok more s =>
      rw [hrun] at hidle hslots
      obtain ⟨hsender, hblank, hnil⟩ := hidle
      have hnil' : s.events = [] := hnil
      cases more with
      | false =>
          show Isolated s.events
          rw [hnil']
          exact isolated_nil
      | true =>
          have hslots' : Slots s.mconn := hslots
          refine ⟨⟨hslots'.size, hslots'.filled⟩, ?_, fun t ht => ?_, fun _ _ => ⟨hsender, hblank⟩⟩
          · show Isolated s.events
            rw [hnil']
            exact isolated_nil
          · have ht' : openTransaction s.events = some t := ht
            rw [hnil'] at ht'
            cases ht'

/-- The transactions of a session are isolated where every `DATA` behind a message that was given
away comes behind a `MAIL`, `RSET` or `STARTTLS`. -/
theorem transactionsIsolated (env : Env) (recvs sslReads : List (List Byte))
    (hfresh : ∀ s, Reached env (newSession recvs sslReads) s → Fresh s) :
    TransactionsIsolated env (newSession recvs sslReads) := by
  have hends : Ends (fun _ s => Isolated s.events) (fun _ s => Isolated s.events)
      (smtpDorequest env (newSession recvs sslReads)) := by
    refine smtpDorequest_ends isolated_nil (greet_transaction recvs sslReads) (fun s hs hinv => ?_) fun s hs =>
      cleanup_events _ _ s hs
    refine request_transaction.post (fun more s h => ?_) s ⟨hinv, hfresh s hs⟩
    cases more with
    | true => exact h
    | false => exact h.isolated
  unfold TransactionsIsolated
  cases hrun : smtpDorequest env (newSession recvs sslReads) with
  | ok a s =>
      rw [hrun] at hends
      exact hends
  | error e s =>
      rw [hrun] at hends
      exact hends

/-- A client that sends a message to a recipient, and then what follows it. -/
def sending (rest : String) : Session :=
  newSession [bytes "HELO x\r\nMAIL FROM:<a@h>\r\nRCPT TO:<b@h>\r\nDATA\r\n\r\nhi\r\n.\r\n" ++ bytes rest] []

/-- The greeting of a client in the surroundings where nothing fails. -/
def greeted (s₀ : Session) : Session := final (greet goodEnv s₀)

/-- A client that sends two messages. -/
theorem transactionsIsolated_sending :
    TransactionsIsolated goodEnv (sending "MAIL FROM:<c@h>\r\nRCPT TO:<d@h>\r\nDATA\r\nho\r\n.\r\nQUIT\r\n") := by
  have hevery : everyRequest goodEnv (fun s => decide (Fresh s)) 10
      (greeted (sending "MAIL FROM:<c@h>\r\nRCPT TO:<d@h>\r\nDATA\r\nho\r\n.\r\nQUIT\r\n")) = true := by
    decide +kernel
  exact transactionsIsolated goodEnv _ _ fun s hs => of_decide_eq_true (reached_of_everyRequest rfl hevery hs)

/-- A `DATA` right behind a message is answered 354, and sends to the recipients of the message before. -/
theorem not_transactionsIsolated : ¬ TransactionsIsolated goodEnv (sending "DATA\r\nho\r\n.\r\n") := by
  intro h
  have hevents : (final (smtpDorequest goodEnv (sending "DATA\r\nho\r\n.\r\n"))).events =
      [.mail (bytes "a@h"), .rcpt (bytes "b@h"), .data, .accept (bytes "a@h") [some (bytes "b@h")]] ++
        .data :: [.accept (bytes "a@h") [some (bytes "b@h")]] := by decide +kernel
  obtain ⟨t, hopen, -⟩ := h _ _ _ hevents
  cases hopen

end

end NullG.Smtpd
