/-
What the client sends of a message.

The file of a message is read in pieces of 1022 bytes, and each is stripped and sent as a line of its
own. So the lines of the file are sent if none of them is longer than a piece and no text ends with CR.
-/

import NullG.Mail.Lines
import NullG.Smtpq.Queue

namespace NullG.Smtpq

open NullG.Nsp NullG.Lib NullG.Net NullG.Mail

/-! ### What is sent -/

/-- The lines in which a file is sent. -/
def sentLines (content : List Byte) : List (List Byte) := (fgetsAll 1023 content).map striprn

/-- What is sent from behind `DATA` to before the last line with a dot. -/
def messageSent (sent : List (List Byte)) : List Byte :=
  (((sent.dropWhile (· != bytes "DATA\r\n")).drop 1).reverse.dropWhile (· != bytes ".\r\n")).tail.reverse.flatten

/-- A file of the queue: its lines are ended, and no line but the last one that is sent holds a single dot. -/
structure QueueFile (content : List Byte) : Prop where
  noNul : 0 ∉ content
  ended : content = [] ∨ Lib.ended isNl content = true
  noDot : ∀ line ∈ lines isNl content, isDotLine line = false

/-- The lines of the file are sent, each ended by one CRLF, and none of them holds a single dot. -/
def Relayed (content : List Byte) (sent : List (List Byte)) : Prop :=
  messageSent sent = asLines ((lines isNl content).map lineText) ∧
    ∀ line ∈ lines isNl (messageSent sent), isDotLine line = false

/-- The lines of the file are read as they are. -/
def Plain (content : List Byte) : Prop :=
  ∀ line ∈ lines isNl content, line.length ≤ 1022 ∧ (lineText line).getLast? ≠ some (ch '\r')

instance (content : List Byte) : Decidable (Plain content) :=
  inferInstanceAs (Decidable (∀ line ∈ lines isNl content, _))

/-! ### The dialogue up to the message -/

section

variable {α β : Type}

/-- A condition on what was sent and on what has happened. -/
abbrev Past := List (List Byte) → List Event → Prop

/-- The past of a session. -/
def Past.On (P : Past) (s : Session) : Prop := P s.sent s.events

/-- Nothing is sent, and nothing happens. -/
def Silent (x : M α) : Prop := ∀ P : Past, Runs P.On x (fun _ => P.On) fun _ _ => True

theorem Silent.pure (a : α) : Silent (pure a : M α) := fun _ => .pure fun _ h => h

theorem Silent.bind {x : M α} {f : α → M β} (hx : Silent x) (hf : ∀ a, Silent (f a)) : Silent (x >>= f) :=
  fun P => (hx P).bind fun a => hf a P

theorem Silent.onWorld (x : W α) : Silent (onWorld x) := by
  intro P s hs
  unfold Smtpq.onWorld
  split
  · exact hs
  · trivial

theorem Silent.tick : Silent tick := .onWorld _

theorem fgets_silent : Silent fgets := fun _ _ hs => hs

theorem replyLoop_silent (fuel : Nat) (starttls : Bool) : Silent (replyLoop fuel starttls) := by
  induction fuel generalizing starttls with
  | zero => exact fun _ => .throw fun _ _ => trivial
  | succ fuel ih =>
      refine .bind fgets_silent fun line => ?_
      cases line with
      | none => exact .pure none
      | some inbuffer =>
          intro P
          refine .ite (fun _ => ?_) fun _ => ?_
          · exact Silent.pure _ P
          · exact ih _ P

variable {P R : Past} {said : Said}

/-- A text is sent. -/
theorem fprintf_past {Q : Past} {text : List Byte} (h : ∀ sent events, P sent events → Q (sent ++ [text.take 2046]) events) :
    Runs P.On (fprintf text) (fun _ => Q.On) fun _ _ => True :=
  .modify fun s hs => h s.sent s.events hs

theorem note_past {Q : Past} {e : Event} (h : ∀ sent events, P sent events → Q sent (events ++ [e])) :
    Runs P.On (note e) (fun _ => Q.On) fun _ _ => True :=
  .modify fun s hs => h s.sent s.events hs

/-- A reply is read. -/
theorem reply_past {Q : List Byte → Past} {f : Option (List Byte × Bool) → M Int}
    (hclosed : ∀ sent events, P sent events → R sent (events ++ [.closed said]))
    (hanswered : ∀ inbuffer n sent events, P sent events → Q inbuffer sent (events ++ [.answered said inbuffer n]))
    (hnone : f none = return -1)
    (hsome : ∀ inbuffer starttls, Runs (Q inbuffer).On (f (some (inbuffer, starttls))) (fun _ => R.On) fun _ _ => True) :
    Runs P.On (reply said >>= f) (fun _ => R.On) fun _ _ => True := by
  have hreply : Runs P.On (reply said) (fun r s => r.elim (R.On s) fun r => (Q r.1).On s) fun _ _ => True := by
    refine .read fun t => .pre ?_ fun _ h => h.1
    refine .bind (replyLoop_silent _ _ P) fun r => ?_
    cases r with
    | none => exact .bind (note_past hclosed) fun _ => .pure fun _ h => h
    | some r =>
        refine .read fun t => ?_
        refine .bind (B := fun _ => (Q r.1).On) (.modify ?_) fun _ => .pure fun _ h => h
        rintro s ⟨hs, rfl⟩
        exact hanswered r.1 _ _ _ hs
  refine .bind hreply fun r => ?_
  cases r with
  | none =>
      rw [hnone]
      exact .pure fun _ h => h
  | some r => exact hsome r.1 r.2

theorem smtpDisconnect_past (h : ∀ sent events, P sent events → P (sent ++ [bytes "QUIT\r\n"]) events) :
    Runs P.On smtpDisconnect (fun _ => P.On) fun _ _ => True := by
  refine .bind (fprintf_past (Q := P) h) fun _ => .read fun s => ?_
  exact (Silent.bind (replyLoop_silent _ _) fun _ => .pure ()) P |>.pre fun _ h => h.1

end

/-! ### The past of `smtp_client` -/

section

variable {env : Env} {m : Entry} {s₀ : Session} {said : Said}

/-- `DATA` was not sent yet. -/
def Opening (s₀ : Session) : Past := fun sent events =>
  ∃ calls evs, sent = s₀.sent ++ calls ∧ events = s₀.events ++ evs ∧ bytes "DATA\r\n" ∉ calls ∧
    ∀ inbuffer n, .answered .data inbuffer n ∉ evs

/-- The host does not wait for the message. -/
def NotAsked (s₀ : Session) : Past := fun sent events =>
  ∃ calls evs, sent = s₀.sent ++ calls ∧ events = s₀.events ++ evs ∧
    ∀ inbuffer n, .answered .data inbuffer n ∈ evs → hasCode inbuffer "354" = false

/-- The message and the line with the dot were sent. -/
def Through (m : Entry) (s₀ : Session) : Past := fun sent events =>
  (∃ evs, events = s₀.events ++ evs) ∧
  ∃ before after, sent = s₀.sent ++ (before ++ bytes "DATA\r\n" ::
      ((sentLines m.content).map (· ++ bytes "\r\n") ++ bytes ".\r\n" :: after)) ∧
    bytes "DATA\r\n" ∉ before ∧ bytes ".\r\n" ∉ after

/-- What is true behind `smtp_client`. -/
def Closing (m : Entry) (s₀ : Session) : Past := fun sent events => NotAsked s₀ sent events ∨ Through m s₀ sent events

theorem Opening.closing {sent : List (List Byte)} {events : List Event} (h : Opening s₀ sent events) :
    Closing m s₀ sent events := by
  obtain ⟨calls, evs, hsent, hevents, -, hnone⟩ := h
  exact .inl ⟨calls, evs, hsent, hevents, fun inbuffer n hmem => absurd hmem (hnone inbuffer n)⟩

theorem Opening.sends {sent : List (List Byte)} {events : List Event} {call : List Byte} (h : Opening s₀ sent events)
    (hcall : call ≠ bytes "DATA\r\n") : Opening s₀ (sent ++ [call]) events := by
  obtain ⟨calls, evs, rfl, hevents, hdata, hnone⟩ := h
  refine ⟨calls ++ [call], evs, List.append_assoc .., hevents, fun hmem => ?_, hnone⟩
  rcases List.mem_append.mp hmem with hmem | hmem
  · exact hdata hmem
  · exact hcall (List.mem_singleton.mp hmem).symm

theorem Opening.notes {sent : List (List Byte)} {events : List Event} {e : Event} (h : Opening s₀ sent events)
    (he : ∀ inbuffer n, e ≠ .answered .data inbuffer n) : Opening s₀ sent (events ++ [e]) := by
  obtain ⟨calls, evs, hsent, rfl, hdata, hnone⟩ := h
  refine ⟨calls, evs ++ [e], hsent, List.append_assoc .., hdata, fun inbuffer n hmem => ?_⟩
  rcases List.mem_append.mp hmem with hmem | hmem
  · exact hnone inbuffer n hmem
  · exact he inbuffer n (List.mem_singleton.mp hmem).symm

theorem Closing.quits {sent : List (List Byte)} {events : List Event} (h : Closing m s₀ sent events) :
    Closing m s₀ (sent ++ [bytes "QUIT\r\n"]) events := by
  rcases h with ⟨calls, evs, rfl, hevents, hcodes⟩ | ⟨hevents, before, after, rfl, hbefore, hafter⟩
  · exact .inl ⟨calls ++ [bytes "QUIT\r\n"], evs, List.append_assoc .., hevents, hcodes⟩
  · refine .inr ⟨hevents, before, after ++ [bytes "QUIT\r\n"], ?_, hbefore, fun hmem => ?_⟩
    · simp only [List.append_assoc, List.cons_append]
    · rcases List.mem_append.mp hmem with hmem | hmem
      · exact hafter hmem
      · exact absurd (List.mem_singleton.mp hmem) (by decide)

theorem quit_closing {inbuffer : List Byte} :
    Runs (Closing m s₀).On (quit env m inbuffer) (fun _ => (Closing m s₀).On) fun _ _ => True := by
  refine .bind (smtpDisconnect_past fun _ _ h => h.quits) fun _ => ?_
  refine .ite (fun _ => ?_) fun _ => .pure fun _ h => h
  exact .bind (Silent.onWorld _ _) fun _ => .pure fun _ h => h

/-- A reply to a command before `DATA`. -/
theorem reply_opening {f : Option (List Byte × Bool) → M Int} (hsaid : said ≠ .data) (hnone : f none = return -1)
    (hsome : ∀ inbuffer starttls,
      Runs (Opening s₀).On (f (some (inbuffer, starttls))) (fun _ => (Closing m s₀).On) fun _ _ => True) :
    Runs (Opening s₀).On (reply said >>= f) (fun _ => (Closing m s₀).On) fun _ _ => True := by
  refine reply_past (Q := fun _ => Opening s₀) ?_ ?_ hnone hsome
  · intro sent events h
    exact (h.notes fun _ _ he => by cases he).closing
  · intro inbuffer n sent events h
    refine h.notes fun inbuffer' n' he => hsaid ?_
    cases he
    rfl

/-- A command that starts with another letter. -/
theorem fprintf_opening {text : List Byte} (htext : text.head? ≠ some (ch 'D')) :
    Runs (Opening s₀).On (fprintf text) (fun _ => (Opening s₀).On) fun _ _ => True := by
  refine fprintf_past fun sent events h => h.sends fun heq => htext ?_
  cases text with
  | nil => cases heq
  | cons c text => exact congrArg List.head? heq

/-- The first letter of a command with an argument. -/
theorem other_command {start rest : List Byte} (h : start.head?.any (· != ch 'D') = true) :
    (start ++ rest).head? ≠ some (ch 'D') := by
  cases start with
  | nil => cases h
  | cons c start =>
      intro heq
      cases heq
      cases h

theorem say_opening {text : List Byte} {code : String} {next : M Int} (hsaid : said ≠ .data)
    (htext : text.head? ≠ some (ch 'D'))
    (hnext : Runs (Opening s₀).On next (fun _ => (Closing m s₀).On) fun _ _ => True) :
    Runs (Opening s₀).On (say env m said text code next) (fun _ => (Closing m s₀).On) fun _ _ => True := by
  refine .bind (fprintf_opening htext) fun _ => ?_
  refine reply_opening hsaid rfl fun inbuffer _ => ?_
  exact .ite (fun _ => quit_closing.pre fun _ h => Opening.closing h) fun _ => hnext

/-- The host waits for the message; these calls were made for it. -/
def Sending (s₀ : Session) (calls : List (List Byte)) : Past := fun sent events =>
  (∃ evs, events = s₀.events ++ evs) ∧
  ∃ before, sent = s₀.sent ++ (before ++ bytes "DATA\r\n" :: calls) ∧ bytes "DATA\r\n" ∉ before

theorem Sending.sends {calls sent : List (List Byte)} {events : List Event} {call : List Byte}
    (h : Sending s₀ calls sent events) : Sending s₀ (calls ++ [call]) (sent ++ [call]) events := by
  obtain ⟨hevents, before, rfl, hbefore⟩ := h
  refine ⟨hevents, before, ?_, hbefore⟩
  simp only [List.append_assoc, List.cons_append]

theorem sendLines_sending (ls calls : List (List Byte)) (hls : ∀ line ∈ ls, line.length ≤ 1022) :
    Runs (Sending s₀ calls).On (sendLines ls)
      (fun _ => (Sending s₀ (calls ++ ls.map fun line => striprn line ++ bytes "\r\n")).On) fun _ _ => True := by
  induction ls generalizing calls with
  | nil =>
      rw [List.map_nil, List.append_nil]
      exact .pure fun _ h => h
  | cons line ls ih =>
      have hwhole : (striprn line ++ bytes "\r\n").take 2046 = striprn line ++ bytes "\r\n" := by
        refine List.take_of_length_le ?_
        have hlen := hls line List.mem_cons_self
        have hstrip := (striprn_begins line).length_le
        have htwo : (bytes "\r\n").length = 2 := by decide
        rw [List.length_append, htwo]
        omega
      refine .bind (fprintf_past (Q := Sending s₀ (calls ++ [striprn line ++ bytes "\r\n"])) fun sent events h => ?_)
        fun _ => ?_
      · rw [hwhole]
        exact h.sends
      · have hrest := ih (calls ++ [striprn line ++ bytes "\r\n"]) fun l hl => hls l (List.mem_cons_of_mem line hl)
        rwa [List.append_assoc] at hrest

theorem sendMessage_closing :
    Runs (Sending s₀ []).On (sendMessage env m) (fun _ => (Closing m s₀).On) fun _ _ => True := by
  refine .bind (sendLines_sending _ [] fun line h => fgetsAll_length_le h) fun _ => ?_
  have hsent : (fgetsAll 1023 m.content).map (fun line => striprn line ++ bytes "\r\n") =
      (sentLines m.content).map (· ++ bytes "\r\n") := by
    unfold sentLines
    rw [List.map_map]
    rfl
  refine .bind (fprintf_past (Q := Closing m s₀) ?_) fun _ => ?_
  · rintro sent events ⟨hevents, before, rfl, hbefore⟩
    refine .inr ⟨hevents, before, [], ?_, hbefore, List.not_mem_nil⟩
    rw [← hsent]
    simp only [List.append_assoc, List.cons_append, List.nil_append]
    rfl
  · have hnotes : ∀ {sent : List (List Byte)} {events : List Event} {e : Event},
        (∀ inbuffer n, e ≠ .answered .data inbuffer n) → Closing m s₀ sent events → Closing m s₀ sent (events ++ [e]) := by
      rintro sent events e he (⟨calls, evs, hcalls, rfl, hcodes⟩ | ⟨⟨evs, rfl⟩, hthrough⟩)
      · refine .inl ⟨calls, evs ++ [e], hcalls, List.append_assoc .., fun inbuffer n hmem => ?_⟩
        rcases List.mem_append.mp hmem with hmem | hmem
        · exact hcodes inbuffer n hmem
        · exact absurd (List.mem_singleton.mp hmem).symm (he inbuffer n)
      · exact .inr ⟨⟨evs ++ [e], List.append_assoc ..⟩, hthrough⟩
    refine reply_past (Q := fun _ => Closing m s₀) ?_ ?_ rfl fun inbuffer _ => ?_
    · exact fun _ _ h => hnotes (fun _ _ he => by cases he) h
    · exact fun _ _ _ _ h => hnotes (fun _ _ he => by cases he) h
    · refine .ite (fun _ => quit_closing) fun _ => ?_
      exact .bind (smtpDisconnect_past fun _ _ h => h.quits) fun _ => .pure fun _ h => h

/-- `DATA` and its reply. -/
theorem data_closing :
    Runs (Opening s₀).On (say env m .data (bytes "DATA\r\n") "354" (sendMessage env m)) (fun _ => (Closing m s₀).On)
      fun _ _ => True := by
  -- `DATA` was sent, and there is no reply yet
  let P : Past := fun sent events => ∃ before evs, sent = s₀.sent ++ (before ++ [bytes "DATA\r\n"]) ∧
    events = s₀.events ++ evs ∧ bytes "DATA\r\n" ∉ before ∧ ∀ inbuffer n, .answered .data inbuffer n ∉ evs
  -- the reply is there
  let Q : List Byte → Past := fun inbuffer sent events =>
    (hasCode inbuffer "354" = false → NotAsked s₀ sent events) ∧ Sending s₀ [] sent events
  refine .bind (fprintf_past (Q := P) ?_) fun _ => reply_past (Q := Q) ?_ ?_ rfl fun inbuffer _ => ?_
  · rintro sent events ⟨calls, evs, rfl, hevents, hdata, hnone⟩
    exact ⟨calls, evs, List.append_assoc .., hevents, hdata, hnone⟩
  · rintro sent events ⟨before, evs, rfl, rfl, hbefore, hnone⟩
    refine .inl ⟨_, evs ++ [.closed .data], rfl, List.append_assoc .., fun inbuffer n hmem => ?_⟩
    rcases List.mem_append.mp hmem with hmem | hmem
    · exact absurd hmem (hnone inbuffer n)
    · cases List.mem_singleton.mp hmem
  · rintro inbuffer n sent events ⟨before, evs, rfl, rfl, hbefore, hnone⟩
    refine ⟨fun hcode => ?_, ⟨evs ++ [.answered .data inbuffer n], List.append_assoc ..⟩, before, rfl, hbefore⟩
    refine ⟨_, evs ++ [.answered .data inbuffer n], rfl, List.append_assoc .., fun inbuffer' n' hmem => ?_⟩
    rcases List.mem_append.mp hmem with hmem | hmem
    · exact absurd hmem (hnone inbuffer' n')
    · cases List.mem_singleton.mp hmem
      exact hcode
  · refine .ite (fun hcode => ?_) fun _ => ?_
    · exact quit_closing.pre fun s hs => .inl (hs.1 (by simpa using hcode))
    · exact sendMessage_closing.pre fun s hs => hs.2

theorem transaction_closing :
    Runs (Opening s₀).On (transaction env m) (fun _ => (Closing m s₀).On) fun _ _ => True :=
  say_opening (by decide) (by rw [List.append_assoc]; exact other_command (by decide))
    (say_opening (by decide) (by rw [List.append_assoc]; exact other_command (by decide)) data_closing)

theorem sslConnect_opening :
    Runs (Opening s₀).On (sslConnect env) (fun _ => (Opening s₀).On) fun _ _ => True := by
  have hfail : Runs (Opening s₀).On (do note .handshakeFailed; return -1 : M Int) (fun _ => (Opening s₀).On)
      fun _ _ => True :=
    .bind (note_past fun _ _ h => Opening.notes h fun _ _ he => by cases he) fun _ => .pure fun _ h => h
  refine .bind (Silent.tick _) fun n => .read fun t => ?_
  refine .ite (fun _ => hfail.pre fun _ h => h.1) fun _ => ?_
  dsimp only
  cases env.handshake n with
  | noSsl =>
      refine .bind (B := fun _ => (Opening s₀).On) ?_ fun _ => hfail
      rintro s ⟨hs, rfl⟩
      exact hs
  | failed =>
      refine .bind (B := fun _ => (Opening s₀).On) ?_ fun _ => hfail
      rintro s ⟨hs, rfl⟩
      exact hs
  | done =>
      refine .bind (B := fun _ => (Opening s₀).On) ?_ fun _ => .pure fun _ h => h
      rintro s ⟨hs, rfl⟩
      exact hs

theorem greeted_closing {starttls : Bool} {inbuffer : List Byte} {again : M Int}
    (hagain : Runs (Opening s₀).On again (fun _ => (Closing m s₀).On) fun _ _ => True) :
    Runs (Opening s₀).On (greeted env m starttls inbuffer again) (fun _ => (Closing m s₀).On) fun _ _ => True := by
  have hquit : ∀ inbuffer, Runs (Opening s₀).On (quit env m inbuffer) (fun _ => (Closing m s₀).On) fun _ _ => True :=
    fun _ => quit_closing.pre fun _ h => Opening.closing h
  refine .read fun t => .pre ?_ fun _ h => h.1
  refine .ite (fun _ => hquit _) fun _ => .ite (fun _ => ?_) fun _ => transaction_closing
  refine .bind (fprintf_opening (by decide)) fun _ => reply_opening (by decide) rfl fun inbuffer _ => ?_
  refine .ite (fun _ => hquit _) fun _ => .bind sslConnect_opening fun rc => ?_
  exact .ite (fun _ => hquit _) fun _ => hagain

theorem hello_closing (fuel : Nat) (starttls : Bool) :
    Runs (Opening s₀).On (hello env m fuel starttls) (fun _ => (Closing m s₀).On) fun _ _ => True := by
  induction fuel generalizing starttls with
  | zero => exact .throw fun _ _ => trivial
  | succ fuel ih =>
      refine .bind (fprintf_opening (by rw [List.append_assoc]; exact other_command (by decide))) fun _ => ?_
      refine reply_opening (by decide) rfl fun inbuffer found => ?_
      refine .ite (fun _ => ?_) fun _ => greeted_closing (ih _)
      refine .bind (fprintf_opening (by rw [List.append_assoc]; exact other_command (by decide))) fun _ => ?_
      exact reply_opening (by decide) rfl fun inbuffer _ => greeted_closing (ih _)

theorem converse_closing (recvs sslReads : List (List Byte)) :
    Runs (Opening s₀).On (converse env m recvs sslReads) (fun _ => (Closing m s₀).On) fun _ _ => True := by
  refine .bind (B := fun _ => (Opening s₀).On) (.modify fun _ h => h) fun _ => ?_
  exact reply_opening (by decide) rfl fun inbuffer _ => hello_closing _ _

/-- A run of `smtp_client` sends the whole message and the line with the dot, or it is not asked for them. -/
theorem smtpClient_closing (env : Env) (m : Entry) (s₀ : Session) :
    Runs (Opening s₀).On (smtpClient env m) (fun _ => (Closing m s₀).On) fun _ _ => True := by
  have hnote : ∀ e : Event, (∀ inbuffer n, e ≠ .answered .data inbuffer n) →
      Runs (Opening s₀).On (note e) (fun _ => (Closing m s₀).On) fun _ _ => True :=
    fun e he => note_past fun _ _ h => (Opening.notes h he).closing
  have hrefused : Runs (Opening s₀).On (do note .refused; return -1 : M Int) (fun _ => (Closing m s₀).On)
      fun _ _ => True := .bind (hnote _ fun _ _ he => by cases he) fun _ => .pure fun _ h => h
  refine .ite (fun _ => .pure fun _ h => Opening.closing h) fun _ => ?_
  refine .ite (fun _ => ?_) fun _ => ?_
  · refine .bind (Silent.tick _) fun n => ?_
    cases env.connect n env.relayhost with
    | unresolved => exact hrefused
    | refused => exact hrefused
    | connected recvs sslReads => exact converse_closing _ _
  · dsimp only
    refine .ite (fun _ => .pure fun _ h => Opening.closing h) fun _ => ?_
    refine .bind (Silent.tick _) fun n => .bind (Silent.tick _) fun n' => ?_
    generalize (env.getmxbyname n ((m.rcpt.dropWhile (· != ch '@')).drop 1)).getD
      (snprintf 127 ((m.rcpt.dropWhile (· != ch '@')).drop 1)) = mxhost
    cases env.connect n' mxhost with
    | refused => exact hrefused
    | connected recvs sslReads => exact converse_closing _ _
    | unresolved =>
        refine .read fun t => .pre ?_ fun _ h => h.1
        refine .bind (hnote _ fun _ _ he => by cases he) fun _ => ?_
        exact .bind (Silent.onWorld _ _) fun _ => .pure fun _ h => h

end

/-! ### The lines of a file -/

section

variable {content : List Byte}

/-- A piece without its end has no LF. -/
theorem striprn_free {p : List Byte} (h : Free isNl p ∨ ∃ q c, p = q ++ [c] ∧ Free isNl q ∧ isNl c = true) :
    Free isNl (striprn p) := by
  rcases h with h | ⟨q, c, rfl, hq, hc⟩
  · exact fun d hd => h d ((striprn_begins p).subset hd)
  · rw [eq_lf_of_isNl hc, striprn_concat (by decide)]
    exact fun d hd => hq d ((striprn_begins q).subset hd)

theorem lineText_free {line : List Byte} (h : line ∈ lines isNl content) : Free isNl (lineText line) := by
  rcases line_cases h with ⟨hfree, -⟩ | ⟨q, c, rfl, hq, hc⟩
  · unfold lineText
    rw [hfree.not_ended, if_neg (by decide)]
    exact hfree
  · rw [eq_lf_of_isNl hc, lineText_lf]
    split
    · exact fun d hd => hq d ((List.dropLast_prefix q).subset hd)
    · exact hq

/-- The lines that are sent are those of the file exactly if these are read as they are. -/
theorem sentLines_iff (h : QueueFile content) :
    sentLines content = (lines isNl content).map lineText ↔ Plain content := by
  have hsent : sentLines content = (pieces isNl 1022 content).map striprn := by
    unfold sentLines
    rw [fgetsAll_eq h.noNul (by decide)]
  have htext : ∀ line ∈ lines isNl content, striprn line = lineText line ↔ (lineText line).getLast? ≠ some (ch '\r') := by
    intro line hline
    rw [striprn_lineText (line_ended h.ended hline)]
    exact striprn_eq_self_iff (lineText_free hline)
  rw [hsent]
  constructor
  · intro heq
    have hshort : ∀ line ∈ lines isNl content, line.length ≤ 1022 := by
      refine (pieces_length_eq_iff (by decide)).mp ?_
      have hlen := congrArg List.length heq
      rwa [List.length_map, List.length_map] at hlen
    rw [pieces_eq_lines (by decide) hshort] at heq
    exact fun line hline => ⟨hshort line hline, (htext line hline).mp (List.map_inj_left.mp heq line hline)⟩
  · intro hplain
    rw [pieces_eq_lines (by decide) fun line hline => (hplain line hline).1]
    exact List.map_congr_left fun line hline => (htext line hline).mpr (hplain line hline).2

/-- What is sent between `DATA` and the last line with a dot. -/
theorem messageSent_eq {before calls after : List (List Byte)} (hbefore : bytes "DATA\r\n" ∉ before)
    (hafter : bytes ".\r\n" ∉ after) :
    messageSent (before ++ bytes "DATA\r\n" :: (calls ++ bytes ".\r\n" :: after)) = calls.flatten := by
  have hskip : ∀ (x : List Byte) {l r : List (List Byte)}, x ∉ l → (l ++ x :: r).dropWhile (· != x) = x :: r := by
    intro x l r hx
    have hother : ∀ y ∈ l, (y != x) = true := by
      intro y hy
      rw [bne_iff_ne]
      rintro rfl
      exact hx hy
    rw [List.dropWhile_append_of_pos hother, List.dropWhile_cons_of_neg]
    rw [bne_self_eq_false]
    exact Bool.false_ne_true
  unfold messageSent
  rw [hskip _ hbefore, List.drop_one, List.tail_cons, List.reverse_append, List.reverse_cons, List.append_assoc,
    List.singleton_append, hskip _ fun hmem => hafter (List.mem_reverse.mp hmem), List.tail_cons, List.reverse_reverse]

end

/-- In a run in which the host waits for the message its lines are sent exactly if they are read as they are. -/
theorem relayed_iff {env : Env} {m : Entry} {s t : Session} {rc : Int} {inbuffer : List Byte} {n : Nat}
    (hfile : QueueFile m.content) (hrun : smtpClient env m s = .ok rc t)
    (hasked : .answered .data inbuffer n ∈ t.events.drop s.events.length) (hcode : hasCode inbuffer "354" = true) :
    Relayed m.content (t.sent.drop s.sent.length) ↔ Plain m.content := by
  have hopening : (Opening s).On s :=
    ⟨[], [], (List.append_nil _).symm, (List.append_nil _).symm, List.not_mem_nil, fun _ _ => List.not_mem_nil⟩
  rcases (smtpClient_closing env m s).of_ok hopening hrun with
    ⟨calls, evs, -, hevents, hcodes⟩ | ⟨-, before, after, hsent, hbefore, hafter⟩
  · rw [hevents, List.drop_left] at hasked
    rw [hcodes inbuffer n hasked] at hcode
    cases hcode
  have hmessage : messageSent (t.sent.drop s.sent.length) = asLines (sentLines m.content) := by
    rw [hsent, List.drop_left, messageSent_eq hbefore hafter]
    rfl
  have hfree : ∀ text ∈ sentLines m.content, Free isNl text := by
    intro text htext
    obtain ⟨p, hp, rfl⟩ := List.mem_map.mp htext
    rw [fgetsAll_eq hfile.noNul (by decide)] at hp
    exact striprn_free (line_of_mem_pieces (by decide) hp)
  have hfree' : ∀ text ∈ (lines isNl m.content).map lineText, Free isNl text := by
    intro text htext
    obtain ⟨line, hline, rfl⟩ := List.mem_map.mp htext
    exact lineText_free hline
  unfold Relayed
  rw [hmessage, ← sentLines_iff hfile]
  constructor
  · exact fun h => asLines_inj hfree hfree' h.1
  · intro heq
    refine ⟨congrArg asLines heq, fun line hline => ?_⟩
    rw [lines_asLines hfree, heq, List.map_map] at hline
    obtain ⟨l, hl, rfl⟩ := List.mem_map.mp hline
    unfold isDotLine
    rw [Function.comp_apply, lineText_crlf]
    exact hfile.noDot l hl

/-- A host that takes a message. -/
def takingHost : Env :=
  relaying [bytes "220 r\r\n", bytes "250 r\r\n", bytes "250 ok\r\n", bytes "250 ok\r\n", bytes "354 go\r\n",
    bytes "250 ok\r\n", bytes "221 bye\r\n"]

/-- A message of `a@b` for `c@d` with this text. -/
def holding (content : List Byte) : Entry := ⟨bytes "v/spool/mqueue/1.msg", content, bytes "a@b", bytes "c@d"⟩

/-- What was sent in a run. -/
def sentIn : EStateM.Result Stop Session Int → List (List Byte)
  | .ok _ t => t.sent
  | .error _ t => t.sent

/-- The message is asked for in a run. -/
def asked : EStateM.Result Stop Session Int → Bool
  | .ok _ t => t.events.any fun e =>
      match e with
      | .answered .data inbuffer _ => inbuffer == bytes "354 go\r\n"
      | _ => false
  | .error _ _ => false

theorem exists_of_asked {r : EStateM.Result Stop Session Int} (h : asked r = true) :
    ∃ rc t n, r = .ok rc t ∧ .answered .data (bytes "354 go\r\n") n ∈ t.events := by
  cases r with
  | error e t => cases h
  | ok rc t =>
      obtain ⟨e, he, hasked⟩ := List.any_eq_true.mp h
      cases e with
      | answered said inbuffer n =>
          cases said with
          | data =>
              obtain rfl : inbuffer = bytes "354 go\r\n" := beq_iff_eq.mp hasked
              exact ⟨rc, t, n, rfl, he⟩
          | connect => cases hasked
          | ehlo => cases hasked
          | helo => cases hasked
          | starttls => cases hasked
          | mail => cases hasked
          | rcpt => cases hasked
          | dot => cases hasked
      | unresolved host n => cases hasked
      | refused => cases hasked
      | closed said => cases hasked
      | handshakeFailed => cases hasked

theorem relayed_twoLines :
    Relayed (bytes "ho\n..\r\n") (sentIn (smtpClient takingHost (holding (bytes "ho\n..\r\n")) {})) := by
  have hasked : asked (smtpClient takingHost (holding (bytes "ho\n..\r\n")) {}) = true := by decide +kernel
  obtain ⟨rc, t, n, hrun, hmem⟩ := exists_of_asked hasked
  have hfile : QueueFile (holding (bytes "ho\n..\r\n")).content := ⟨by decide, .inr (by decide), by decide⟩
  rw [hrun]
  exact (relayed_iff (s := {}) hfile hrun hmem (by decide)).mpr (by decide)

/-- A line whose second piece is a single dot. -/
def longLine : List Byte := List.replicate 1022 (ch 'a') ++ bytes ".\r\nRSET\r\n"

/-- The message ends in the middle of a long line. -/
theorem not_relayed :
    QueueFile longLine ∧ asked (smtpClient takingHost (holding longLine) {}) = true ∧
      ¬ Relayed longLine (sentIn (smtpClient takingHost (holding longLine) {})) := by
  refine ⟨⟨by decide +kernel, .inr (by decide +kernel), by decide +kernel⟩, by decide +kernel, fun h => ?_⟩
  have hdot : (lines isNl (messageSent (sentIn (smtpClient takingHost (holding longLine) {})))).all (!isDotLine ·) =
      false := by decide +kernel
  have hnone := h.2
  rw [List.all_eq_false] at hdot
  obtain ⟨line, hline, hdot⟩ := hdot
  rw [hnone line hline] at hdot
  exact hdot rfl

end NullG.Smtpq
