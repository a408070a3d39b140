/-
The array of recipients.

`Slots` says that the slots with a recipient are those below `num_rcpts`. Every command keeps it,
but `smtp_rcpt` does not look at `rcptalloc`: a recipient that is stored when all slots are taken is
written behind the array.
-/

import NullG.Smtpd.Session

namespace NullG.Smtpd

open NullG.Nsp NullG.Lib NullG.Net NullG.Mail

/-- A slot holds a recipient. -/
def Mailconn.Holds (m : Mailconn) (i : Nat) : Prop := ∃ rcpt, m.rcpt[i]? = some (some rcpt)

/-- The slots that are not NULL are exactly those below `num_rcpts`. -/
structure Slots (m : Mailconn) : Prop where
  size : m.rcpt.length = m.rcptalloc
  filled : ∀ i, m.Holds i ↔ i < m.numRcpts

/-- `smtp_rcpt` stores the recipient of an argument. -/
def Stores (env : Env) (s : Session) (arg : List Byte) : Prop :=
  ¬ (s.mconn.sender.isEmpty && !s.mconn.senderIsBlank) = true ∧ (addressOf arg).contains (ch '@') = true ∧
    ¬ (env.domainGetid s.world.tick (splitAddr (addressOf arg)).2 < 1 ∧ s.mconn.senderCanRelay ≠ 1)

/-- The recipient that the next line stores finds a slot. -/
def Room (env : Env) (s : Session) : Prop :=
  ∀ line, nextLine s = some line → s.conn.state = 1 → startsWith line "rcpt to:" = true →
    Stores env s (line.drop 8) → s.mconn.numRcpts < s.mconn.rcptalloc

/-- In every state of a session the recipients are those below `num_rcpts`, and no slot is used
outside of the array or, where a string is read, without one. -/
def RcptsInside (env : Env) (s₀ : Session) : Prop :=
  (∀ s, Reached env s₀ s → Slots s.mconn) ∧ ∀ e s, smtpDorequest env s₀ = .error e s → e = .stuck

section

variable {env : Env} {s t : Session} {m : Mailconn} {i : Nat}

/-! ### The array -/

theorem Slots.inside (h : Slots m) : m.numRcpts ≤ m.rcptalloc := by
  cases hn : m.numRcpts with
  | zero => exact Nat.zero_le _
  | succ n =>
      obtain ⟨rcpt, hrcpt⟩ := (h.filled n).mpr (by rw [hn]; exact Nat.lt_succ_self n)
      rw [← h.size]
      exact (List.getElem?_eq_some_iff.mp hrcpt).1

theorem holds_set {rcpt : Option (List Byte)} {j : Nat} (hi : i < m.rcpt.length) :
    ({ m with rcpt := m.rcpt.set i rcpt } : Mailconn).Holds j ↔ if j = i then rcpt.isSome = true else m.Holds j := by
  unfold Mailconn.Holds
  dsimp only
  by_cases hj : j = i
  · subst hj
    rw [if_pos rfl, List.getElem?_set_self hi]
    cases rcpt with
    | none => simp
    | some rcpt => simp
  · rw [if_neg hj, List.getElem?_set_ne (Ne.symm hj)]

/-- A slot in the array may be written. -/
theorem writeRcpt_ok {rcpt : Option (List Byte)} (h : i < s.mconn.rcptalloc) :
    writeRcpt i rcpt s = .ok () { s with mconn := { s.mconn with rcpt := s.mconn.rcpt.set i rcpt } } := by
  have hcheck : checkRcpt i s = .ok () s := by
    unfold checkRcpt
    rw [run_bind_of_ok (show (get : S Session) s = .ok s s from rfl), if_neg (Nat.not_le.mpr h)]
    rfl
  unfold writeRcpt
  rw [run_bind_of_ok hcheck]
  rfl

theorem writeRcpt_error {rcpt : Option (List Byte)} (h : s.mconn.rcptalloc ≤ i) :
    writeRcpt i rcpt s = .error .outOfBounds s := by
  have hcheck : checkRcpt i s = .error .outOfBounds s := by
    unfold checkRcpt
    rw [run_bind_of_ok (show (get : S Session) s = .ok s s from rfl), if_pos h]
    rfl
  unfold writeRcpt
  rw [run_bind_of_error hcheck]

/-- A slot with a recipient may be read. -/
theorem readRcpt_quiet {v : Mailconn × List Event} (hv : Slots v.1) (hi : i < v.1.numRcpts) :
    QuietAt v (readRcpt i) := by
  rintro s rfl
  have hs : Slots s.mconn := ⟨hv.size, hv.filled⟩
  obtain ⟨rcpt, hrcpt⟩ := (hs.filled i).mpr hi
  have hcheck : checkRcpt i s = .ok () s := by
    unfold checkRcpt
    rw [run_bind_of_ok (show (get : S Session) s = .ok s s from rfl),
      if_neg (Nat.not_le.mpr (Nat.lt_of_lt_of_le hi hs.inside))]
    rfl
  unfold readRcpt
  rw [run_bind_of_ok hcheck, run_bind_of_ok (show (get : S Session) s = .ok s s from rfl), hrcpt]
  rfl

/-- The recipients below `i` were freed. -/
structure FreedTo (i : Nat) (m : Mailconn) : Prop where
  size : m.rcpt.length = m.rcptalloc
  inside : m.numRcpts ≤ m.rcptalloc
  filled : ∀ j, m.Holds j ↔ i ≤ j ∧ j < m.numRcpts

theorem Slots.freedTo (h : Slots m) : FreedTo 0 m :=
  ⟨h.size, h.inside, fun j => (h.filled j).trans ⟨fun hj => ⟨Nat.zero_le j, hj⟩, fun hj => hj.2⟩⟩

/-- With all recipients freed `num_rcpts` can be 0. -/
theorem FreedTo.slots (h : FreedTo m.numRcpts m) : Slots { m with numRcpts := 0 } := by
  refine ⟨h.size, fun j => ⟨fun hj => ?_, fun hj => absurd hj (Nat.not_lt_zero j)⟩⟩
  obtain ⟨hle, hlt⟩ := (h.filled j).mp hj
  exact absurd hlt (Nat.not_lt.mpr hle)

/-- The loop that frees the recipients stays in the array. -/
theorem freeRcpts_ok {n i : Nat} (h : FreedTo i s.mconn) (hn : i + n = s.mconn.numRcpts) :
    ∃ rcpt, freeRcpts n i s = .ok () { s with mconn := { s.mconn with rcpt := rcpt } } ∧
      FreedTo s.mconn.numRcpts { s.mconn with rcpt := rcpt } := by
  induction n generalizing i s with
  | zero =>
      rw [Nat.add_zero] at hn
      exact ⟨s.mconn.rcpt, rfl, hn ▸ h⟩
  | succ n ih =>
      have hi : i < s.mconn.rcptalloc := Nat.lt_of_lt_of_le (by omega) h.inside
      have hfreed : FreedTo (i + 1) { s.mconn with rcpt := s.mconn.rcpt.set i none } := by
        refine ⟨by rw [List.length_set]; exact h.size, h.inside, fun j => ?_⟩
        refine (holds_set (by rw [h.size]; exact hi)).trans ?_
        by_cases hj : j = i
        · rw [if_pos hj]
          constructor
          · intro hsome
            cases hsome
          · rintro ⟨hle, -⟩
            omega
        · rw [if_neg hj, h.filled j]
          constructor
          · rintro ⟨hle, hlt⟩
            exact ⟨by omega, hlt⟩
          · rintro ⟨hle, hlt⟩
            exact ⟨by omega, hlt⟩
      unfold freeRcpts
      rw [run_bind_of_ok (writeRcpt_ok hi)]
      exact ih (s := { s with mconn := { s.mconn with rcpt := s.mconn.rcpt.set i none } }) hfreed (by
        show i + 1 + n = s.mconn.numRcpts
        omega)

/-- A recipient is put behind the others. -/
theorem Slots.push (h : Slots m) (hroom : m.numRcpts < m.rcptalloc) (rcpt : List Byte) :
    Slots { m with rcpt := m.rcpt.set m.numRcpts (some rcpt), numRcpts := m.numRcpts + 1 } := by
  refine ⟨by rw [List.length_set]; exact h.size, fun j => ?_⟩
  refine (holds_set (m := m) (by rw [h.size]; exact hroom)).trans ?_
  by_cases hj : j = m.numRcpts
  · rw [if_pos hj, hj]
    exact ⟨fun _ => Nat.lt_succ_self _, fun _ => rfl⟩
  · rw [if_neg hj, h.filled j]
    exact ⟨fun h => Nat.lt_succ_of_lt h, fun h => Nat.lt_of_le_of_ne (Nat.le_of_lt_succ h) hj⟩

/-! ### The commands -/

/-- All that `smtp_accept` reads of the array is there. -/
theorem smtpAccept_quiet {v : Mailconn × List Event} (hv : Slots v.1) : QuietAt v (smtpAccept env) := by
  have hfrom : ∀ now n i, i + n = v.1.numRcpts → QuietAt v (acceptFrom env now n i) := by
    intro now n
    induction n with
    | zero => exact fun i _ => .pure fun _ hs => hs
    | succ n ih =>
        intro i hi
        refine .bind (readRcpt_quiet hv (by omega)) fun rcpt => ?_
        refine .bind (acceptFor_quiet now rcpt v) fun r => ?_
        cases r with
        | some rc => exact .pure fun _ hs => hs
        | none => exact ih (i + 1) (by omega)
  refine .bind (tick_quiet v) fun now => .read fun t => ?_
  rintro s ⟨hs, rfl⟩
  refine hfrom now s.mconn.numRcpts 0 ?_ s hs
  rw [← hs]
  exact Nat.zero_add _

/-- The program keeps the slots, and stops only where it waits. -/
def KeepsSlots {α : Type} (x : S α) : Prop :=
  Runs (fun s => Slots s.mconn) x (fun _ s => Slots s.mconn) fun e _ => e = .stuck

theorem slots_envelope (s : Session) : Slots s.envelope.1 ↔ Slots s.mconn :=
  ⟨fun h => ⟨h.size, h.filled⟩, fun h => ⟨h.size, h.filled⟩⟩

theorem QuietAt.keepsSlots {α : Type} {x : S α} (hx : ∀ v, Slots v.1 → QuietAt v x) : KeepsSlots x :=
  (QuietAt.frame hx).conseq (fun s => (slots_envelope s).mpr) (fun _ s => (slots_envelope s).mp) fun _ _ h => h.1

theorem Quiet.keepsSlots {α : Type} {x : S α} (hx : Quiet x) : KeepsSlots x :=
  QuietAt.keepsSlots fun v _ => hx v

theorem modify_keepsSlots {f : Session → Session} (hf : ∀ s, (f s).envelope.1 = s.envelope.1) :
    KeepsSlots (modify f : S Unit) := by
  refine .modify fun s hs => ?_
  rw [← slots_envelope, hf s, slots_envelope]
  exact hs

theorem smtpData_keepsSlots : KeepsSlots (smtpData env) := by
  refine .bind tick_quiet.keepsSlots fun now => .read fun t => .pre ?_ fun _ h => h.1
  refine .ite (fun _ => (smtpSend_quiet _).keepsSlots) fun _ => ?_
  refine .ite (fun _ => (smtpSend_quiet _).keepsSlots) fun _ => ?_
  refine .bind (smtpSend_quiet _).keepsSlots fun _ => ?_
  refine .bind (modify_keepsSlots fun _ => rfl) fun _ => ?_
  refine .bind (modify_keepsSlots fun _ => rfl) fun _ => ?_
  refine .bind (dataLoop_quiet _ _ _ _).keepsSlots fun ended => .ite (fun _ => ?_) fun _ => .pure fun _ h => h
  refine .bind (modify_keepsSlots fun _ => rfl) fun _ => ?_
  refine .bind (QuietAt.keepsSlots fun v hv => smtpAccept_quiet hv) fun rc => ?_
  exact .bind (modify_keepsSlots fun _ => rfl) fun _ => (smtpSend_quiet _).keepsSlots

/-- `smtp_from` frees the recipients of the sender before. -/
theorem smtpFrom_keepsSlots (arg : List Byte) : KeepsSlots (smtpFrom arg) := by
  intro s hs
  obtain ⟨rcpt, hfree, hfreed⟩ := freeRcpts_ok hs.freedTo (Nat.zero_add _)
  unfold smtpFrom
  rw [run_bind_of_ok (show (get : S Session) s = .ok s s from rfl), run_bind_of_ok hfree]
  have hrest : Runs (fun s => FreedTo s.mconn.numRcpts s.mconn) (do
      setMconn fun m => { m with sender := snprintf 1023 (addressOf arg), numRcpts := 0 }
      note (.mail (snprintf 1023 (addressOf arg)))
      if !(snprintf 1023 (addressOf arg)).isEmpty then
        smtpSend (snprintf 255 (bytes "250 Sender '" ++ snprintf 1023 (addressOf arg) ++ bytes "' OK"))
      else
        setMconn fun m => { m with senderIsBlank := true }
        smtpSend (bytes "250 Sender 'NULL' OK")) (fun _ s => Slots s.mconn) fun e _ => e = .stuck := by
    refine .bind (B := fun _ s => Slots s.mconn) (.modify fun s hs => ⟨hs.slots.size, hs.slots.filled⟩) fun _ => ?_
    refine .bind (modify_keepsSlots fun _ => rfl) fun _ => ?_
    refine .ite (fun _ => (smtpSend_quiet _).keepsSlots) fun _ => ?_
    exact .bind (.modify fun s hs => ⟨hs.size, hs.filled⟩) fun _ => (smtpSend_quiet _).keepsSlots
  exact hrest _ hfreed

theorem smtpRset_keepsSlots (quiet : Bool) : KeepsSlots (smtpRset env quiet) := by
  intro s hs
  obtain ⟨rcpt, hfree, hfreed⟩ := freeRcpts_ok hs.freedTo (Nat.zero_add _)
  unfold smtpRset
  rw [run_bind_of_ok (show (get : S Session) s = .ok s s from rfl), run_bind_of_ok hfree]
  have hrest : Runs (fun s => FreedTo s.mconn.numRcpts s.mconn) (do
      setMconn fun m => { m with sender := [] }
      setRelay env
      setMconn fun m => { m with senderIsBlank := false, numRcpts := 0 }
      note .reset
      if !quiet then smtpSend (bytes "250 Reset OK")) (fun _ s => Slots s.mconn) fun e _ => e = .stuck := by
    refine .bind (B := fun _ s => FreedTo s.mconn.numRcpts s.mconn)
      (.modify fun s hs => ⟨hs.size, hs.inside, hs.filled⟩) fun _ => ?_
    -- `allow_relay` is called before `num_rcpts` is set
    refine .bind (.conseq (QuietAt.frame (P := fun v => FreedTo v.1.numRcpts v.1) fun v _ => setRelay_quiet v)
      (fun s hs => ⟨hs.size, hs.inside, hs.filled⟩) (B := fun _ s => FreedTo s.mconn.numRcpts s.mconn)
      (fun _ s hs => ⟨hs.size, hs.inside, hs.filled⟩) fun _ _ h => h.1) fun _ => ?_
    refine .bind (B := fun _ s => Slots s.mconn) (.modify fun s hs => ⟨hs.slots.size, hs.slots.filled⟩) fun _ => ?_
    refine .bind (modify_keepsSlots fun _ => rfl) fun _ => ?_
    exact .ite (fun _ => (smtpSend_quiet _).keepsSlots) fun _ => .pure fun _ h => h
  exact hrest _ hfreed

/-- A recipient takes the slot at `num_rcpts`. -/
theorem smtpRcpt_runs (arg : List Byte) :
    Runs (fun s => Slots s.mconn ∧ (Stores env s arg → s.mconn.numRcpts < s.mconn.rcptalloc)) (smtpRcpt env arg)
      (fun _ s => Slots s.mconn) fun e _ => e = .stuck := by
  refine .read fun t => ?_
  refine .ite (fun _ => (smtpSend_quiet _).keepsSlots.pre fun _ h => h.1.1) fun hsender => ?_
  dsimp only
  refine .ite (fun _ => (smtpSend_quiet _).keepsSlots.pre fun _ h => h.1.1) fun haddress => ?_
  rintro s ⟨⟨hs, hroom⟩, rfl⟩
  rw [run_bind_of_ok (tick_run s)]
  by_cases hrelay : env.domainGetid s.world.tick (splitAddr (addressOf arg)).2 < 1 ∧ s.mconn.senderCanRelay ≠ 1
  · rw [if_pos hrelay]
    exact (smtpSend_quiet _).keepsSlots _ hs
  · rw [if_neg hrelay]
    have hi : s.mconn.numRcpts < s.mconn.rcptalloc := by
      refine hroom ⟨hsender, ?_, hrelay⟩
      simpa using haddress
    have hwrite := @writeRcpt_ok s.ticked s.mconn.numRcpts (some (snprintf 127 (addressOf arg))) hi
    rw [run_bind_of_ok hwrite]
    have hrest : Runs (fun u => Slots u.mconn ∧ u.mconn.numRcpts = s.mconn.numRcpts + 1) (do
        note (.rcpt (snprintf 127 (addressOf arg)))
        smtpSend (snprintf 255 (bytes "250 Recipient '" ++ (← readRcpt s.mconn.numRcpts) ++ bytes "' OK")))
        (fun _ s => Slots s.mconn) fun e _ => e = .stuck := by
      refine .bind (B := fun _ u => Slots u.mconn ∧ u.mconn.numRcpts = s.mconn.numRcpts + 1) (.modify fun _ h => h)
        fun _ => ?_
      refine .bind (B := fun _ (u : Session) => Slots u.mconn) ?_ fun rcpt => (smtpSend_quiet _).keepsSlots
      refine (QuietAt.frame (P := fun v => Slots v.1 ∧ v.1.numRcpts = s.mconn.numRcpts + 1) fun v hv =>
        readRcpt_quiet hv.1 (by rw [hv.2]; exact Nat.lt_succ_self _)).conseq
        (fun u h => ⟨(slots_envelope u).mpr h.1, h.2⟩) (fun _ u h => (slots_envelope u).mp h.1) fun _ _ h => h.1
    exact hrest _ ⟨hs.push hi _, rfl⟩

/-- With no room the slot behind the array is written. -/
theorem smtpRcpt_error {arg : List Byte} (hstores : Stores env s arg) (hfull : s.mconn.rcptalloc ≤ s.mconn.numRcpts) :
    ∃ t, smtpRcpt env arg s = .error .outOfBounds t := by
  obtain ⟨hsender, haddress, hrelay⟩ := hstores
  refine ⟨s.ticked, ?_⟩
  unfold smtpRcpt
  rw [run_bind_of_ok (show (get : S Session) s = .ok s s from rfl), if_neg hsender]
  dsimp only
  rw [haddress, if_neg (by decide), run_bind_of_ok (tick_run s), if_neg hrelay]
  exact run_bind_of_error (writeRcpt_error hfull)

theorem command_slots (line : List Byte) :
    Runs (fun s => Slots s.mconn ∧ (s.conn.state = 1 → startsWith line "rcpt to:" = true →
        Stores env s (line.drop 8) → s.mconn.numRcpts < s.mconn.rcptalloc)) (command env line)
      (fun _ s => Slots s.mconn) fun e _ => e = .stuck := by
  have hsend : ∀ (A : Session → Prop) (text : List Byte), (∀ s, A s → Slots s.mconn) →
      Runs A (smtpSend text) (fun _ s => Slots s.mconn) fun e _ => e = .stuck :=
    fun A text hA => (smtpSend_quiet text).keepsSlots.pre hA
  refine .read fun t => ?_
  refine .ite (fun _ => .pre ?_ fun _ h => h.1.1) fun _ => ?_
  · refine .bind (modify_keepsSlots fun _ => rfl) fun _ => ?_
    refine .bind (smtpSend_quiet _).keepsSlots fun _ => ?_
    refine .bind (smtpSend_quiet _).keepsSlots fun _ => ?_
    exact .ite (fun _ => (setState_quiet 1).keepsSlots) fun _ => .pure fun _ h => h
  refine .ite (fun _ => .pre ?_ fun _ h => h.1.1) fun _ => ?_
  · refine .bind (smtpSend_quiet _).keepsSlots fun _ => ?_
    refine .bind (smtpRset_keepsSlots true) fun _ => ?_
    refine .bind (setState_quiet 0).keepsSlots fun _ => ?_
    exact .bind tick_quiet.keepsSlots fun n => modify_keepsSlots fun _ => rfl
  refine .ite (fun hstate => ?_) fun _ => hsend _ _ fun _ h => h.1.1
  refine .ite (fun _ => hsend _ _ fun _ h => h.1.1) fun _ => ?_
  refine .ite (fun _ => (smtpFrom_keepsSlots _).pre fun _ h => h.1.1) fun _ => ?_
  refine .ite (fun hrcpt => (smtpRcpt_runs _).pre ?_) fun _ => ?_
  · rintro s ⟨⟨hs, hroom⟩, rfl⟩
    exact ⟨hs, hroom hstate hrcpt⟩
  refine .ite (fun _ => smtpData_keepsSlots.pre fun _ h => h.1.1) fun _ => ?_
  refine .ite (fun _ => (smtpRset_keepsSlots false).pre fun _ h => h.1.1) fun _ => ?_
  refine .ite (fun _ => hsend _ _ fun _ h => h.1.1) fun _ => ?_
  exact .ite (fun _ => hsend _ _ fun _ h => h.1.1) fun _ => hsend _ _ fun _ h => h.1.1

/-- A request keeps the slots where there is room. -/
theorem request_slots :
    Runs (fun s => Slots s.mconn ∧ Room env s) (request env) (fun _ s => Slots s.mconn) fun e _ => e = .stuck := by
  rintro s ⟨hs, hroom⟩
  have hread : fgets 255 s = .ok (s.conn.fgets 255).1 { s with conn := (s.conn.fgets 255).2 } := rfl
  have hnext : nextLine s = (s.conn.fgets 255).1.map striprn := rfl
  unfold request
  rw [run_bind_of_ok hread]
  cases hline : (s.conn.fgets 255).1 with
  | none => exact hs
  | some line =>
      rw [hline] at hnext
      dsimp only
      by_cases hquit : sameText (striprn line) (bytes "quit") = true
      · rw [if_pos hquit]
        exact hs
      · rw [if_neg hquit]
        have hstate : (s.conn.fgets 255).2.state = s.conn.state := by
          unfold Conn.fgets
          split <;> rfl
        have hcommand := (@command_slots env (striprn line)).bind (f := fun _ => (pure true : S Bool))
          (C := fun _ s => Slots s.mconn) fun _ => .pure fun _ h => h
        refine hcommand _ ⟨hs, ?_⟩
        intro h1 hrcpt hstores
        exact hroom (striprn line) hnext (hstate ▸ h1) hrcpt hstores

/-! ### Sessions -/

theorem greet_slots :
    Runs (fun s => s.mconn.numRcpts = 0) (greet env)
      (fun more s => if more then Slots s.mconn else s.mconn.numRcpts = 0) fun e _ => e = .stuck := by
  have hsend : ∀ text, Runs (fun s => s.mconn.numRcpts = 0) (smtpSend text) (fun _ s => s.mconn.numRcpts = 0)
      fun e _ => e = .stuck := fun _ => .modify fun _ h => h
  have hrelay : Runs (fun s => s.mconn.numRcpts = 0) (setRelay env) (fun _ s => s.mconn.numRcpts = 0)
      fun e _ => e = .stuck :=
    (QuietAt.frame (P := fun v => v.1.numRcpts = 0) fun v _ => setRelay_quiet v).conseq (fun _ h => h)
      (fun _ _ h => h) fun _ _ h => h.1
  refine .bind hrelay fun _ => .read fun t => .pre ?_ fun _ h => h.1
  refine .ite (fun _ => ?_) fun _ => ?_
  · exact .bind (hsend _) fun _ => .pure fun _ h => h
  · refine .bind (hsend _) fun _ => .bind (B := fun _ s => Slots s.mconn) (.modify fun s hs => ?_) fun _ =>
      .pure fun _ h => by rw [if_pos rfl]; exact h
    refine ⟨List.length_replicate, fun i => ?_⟩
    show (∃ rcpt, (List.replicate 50 none)[i]? = some (some rcpt)) ↔ i < s.mconn.numRcpts
    rw [hs]
    constructor
    · rintro ⟨rcpt, hrcpt⟩
      rw [List.getElem?_replicate] at hrcpt
      split at hrcpt <;> cases hrcpt
    · intro h
      exact absurd h (Nat.not_lt_zero i)

/-- The loop at the end reads slots of the array. -/
theorem cleanup_ok {n i : Nat} (h : i + n ≤ s.mconn.rcptalloc) : cleanup n i s = .ok () s := by
  induction n generalizing i with
  | zero => rfl
  | succ n ih =>
      have hcheck : checkRcpt i s = .ok () s := by
        unfold checkRcpt
        rw [run_bind_of_ok (show (get : S Session) s = .ok s s from rfl), if_neg (by omega)]
        rfl
      unfold cleanup
      rw [run_bind_of_ok hcheck]
      exact ih (by omega)

/-- The recipients of a session stay in the array exactly if none is stored when it is full. -/
theorem rcptsInside_iff (env : Env) (recvs sslReads : List (List Byte)) :
    RcptsInside env (newSession recvs sslReads) ↔ ∀ s, Reached env (newSession recvs sslReads) s → Room env s := by
  constructor
  · rintro ⟨-, hend⟩ s hs line hline hstate hrcpt hstores
    by_contra hfull
    -- the next request stops the session
    obtain ⟨hquit, hcommand⟩ := @command_rcpt line env { s with conn := (s.conn.fgets 255).2 }
      (by rw [← hstate]; unfold Conn.fgets; split <;> rfl) hrcpt
    obtain ⟨t, hstop⟩ := @smtpRcpt_error env { s with conn := (s.conn.fgets 255).2 } _ hstores
      (Nat.not_lt.mp hfull)
    have hrequest : request env s = .error .outOfBounds t := by
      rw [request_of_nextLine hline hquit, run_bind_of_error (hcommand.trans hstop)]
    cases hend _ _ ((smtpDorequest_of_reached hs).trans (resume_error hrequest))
  · intro hroom
    have hinit : (newSession recvs sslReads).mconn.numRcpts = 0 := rfl
    have hgreet := @greet_slots env (newSession recvs sslReads) hinit
    have hslots : ∀ s, Reached env (newSession recvs sslReads) s → Slots s.mconn := by
      intro s hs
      induction hs with
      | start _ hrun =>
          rw [hrun] at hgreet
          exact hgreet
      | next hs hrequest ih => exact request_slots.of_ok ⟨ih, hroom _ hs⟩ hrequest
    refine ⟨hslots, fun e s h => ?_⟩
    have hstart : Ends (fun more s => if more = true then Slots s.mconn else s.mconn.numRcpts = 0 ∨ Slots s.mconn)
        (fun e _ => e = .stuck) (greet env (newSession recvs sslReads)) := by
      refine greet_slots.post (fun more s h => ?_) _ hinit
      cases more with
      | true => exact h
      | false => exact .inl h
    have hends := smtpDorequest_ends (.inl hinit) hstart (fun s hs hinv => ?_) fun s hs => ?_
    · rw [h] at hends
      exact hends
    · refine request_slots.post (fun more s h => ?_) s ⟨hinv, hroom s hs⟩
      cases more with
      | true => exact h
      | false => exact .inr h
    · rcases hs with hs | hs
      · rw [hs]
        exact .inl hs
      · rw [cleanup_ok (by rw [Nat.zero_add]; exact hs.inside)]
        exact .inr hs

/-- What a run stops with. -/
def stopOf {α : Type} : EStateM.Result Stop Session α → Option Stop
  | .ok _ _ => none
  | .error e _ => some e

/-- A client that names a recipient `n` times. -/
def naming (n : Nat) : Session :=
  newSession [bytes "HELO x\r\nMAIL FROM:<a@b>\r\n" ++ (List.replicate n (bytes "RCPT TO:<a@h>\r\n")).flatten] []

/-- The 51st recipient is written behind the array. -/
theorem not_rcptsInside : ¬ RcptsInside goodEnv (naming 51) := by
  rintro ⟨-, hend⟩
  have hstop : stopOf (smtpDorequest goodEnv (naming 51)) = some .outOfBounds := by decide +kernel
  cases hrun : smtpDorequest goodEnv (naming 51) with
  | ok a s =>
      rw [hrun] at hstop
      cases hstop
  | error e s =>
      rw [hrun] at hstop
      cases hstop
      cases hend _ _ hrun

end

end NullG.Smtpd
