/-
When the calls of the POP3 client return (`libs/net/pop3.c`).

A loop that waits for a line gets an empty line for ever when the server has closed the connection, because `tcp_fgets`
returns 0 then and not -1. So it returns only if the line it waits for was sent (`returns_iff`). With TLS the end of the
connection is an error, and it always returns.
-/

import NullG.Libs.Pop3

namespace NullG.Libs.Pop3

open NullG.Nsp NullG.Lib NullG.Mail

/-- A call of the client. -/
inductive Call where
  | open (haveTls : Bool) (user pass : List Byte)
  | stat
  | uidl (msg : Option UInt16)
  | list (msg : Option UInt16)
  | top (msg lines : Option UInt16)
  | retr (msg : Option UInt16)
  | dele (msg : Option UInt16)
  | close

/-- The call with so many rounds of its loop. -/
def Call.run (fuel : Nat) (iobuf : List Byte) (client : Client) : Call → Option (Ending × Client)
  | .open haveTls user pass => clientOpen haveTls user pass fuel iobuf client
  | .stat => some (clientStat iobuf client)
  | .uidl msg => clientUidl msg fuel iobuf client
  | .list msg => clientList msg fuel iobuf client
  | .top msg lines => clientTop msg lines fuel iobuf client
  | .retr msg => clientRetr msg fuel iobuf client
  | .dele msg => some (clientDele msg iobuf client)
  | .close => clientClose fuel iobuf client

/-- The call ends, and it has not written behind a buffer. -/
def Returns (call : Call) (iobuf : List Byte) (client : Client) : Prop :=
  ∃ fuel ending client', call.run fuel iobuf client = some (ending, client') ∧ ending ≠ .overrun

/-! ### What the server has to send -/

/-- The socket behind some calls of `tcp_fgets`. -/
def after : Nat → TcpSocket → TcpSocket
  | 0, socket => socket
  | n + 1, socket => after n (tcpFgets 1023 socket).2

/-- What `tcp_fgets` returns, with the first empty line behind the end. -/
def heard (socket : TcpSocket) : List (List Byte) :=
  if socket.useTls then socket.reads 1023 else socket.reads 1023 ++ [[]]

/-- The first line that is read starts with `+OK`. -/
def okFirst (socket : TcpSocket) : Bool := (socket.reads 1023).head?.any isOk

/-- What the buffer holds with each of the lines in turn. -/
def greetings : List Byte → List (List Byte) → List (List Byte)
  | _, [] => []
  | iobuf, line :: lines => stripped (stored line iobuf) :: greetings (stripped (stored line iobuf)) lines

/-- One of the lines is a last one, and none before it overruns a buffer. With TLS no last line is needed. -/
def LinesEnd (stops overruns : List Byte → Bool) (useTls : Bool) (lines : List (List Byte)) : Prop :=
  (∀ line ∈ lines.takeWhile (!stops ·), overruns line = false) ∧ (useTls = true ∨ ∃ line ∈ lines, stops line = true)

/-- The last line of a table. -/
def tableStops (line : List Byte) : Bool := striprn (cstr line) == bytes "."

/-- The number of the line has more digits than `numbuf` has room for. -/
def tableOverruns (line : List Byte) : Bool := 8 ≤ (natDigits (unsigned (atoi (striprn (cstr line))))).length

/-- The last line of a message. -/
def messageStops (line : List Byte) : Bool := isEnd (cstr line) || cstr line == bytes "."

/-- The commands that log in. -/
def userLine (user : List Byte) : List Conv := [.text (bytes "USER "), .arg user, .text (bytes "\r\n")]

def passLine (pass : List Byte) : List Conv := [.text (bytes "PASS "), .arg pass, .text (bytes "\r\n")]

/-- The commands that are sent to log in fit. -/
def LoginFits (user pass : List Byte) (socket : TcpSocket) : Prop :=
  Fits (userLine user) ∧ (okFirst socket = true → Fits (passLine pass))

/-- The same behind the greeting. -/
def GreetedFits (haveTls : Bool) (user pass : List Byte) (socket : TcpSocket) : Prop :=
  if haveTls && !socket.useTls then
    okFirst socket = true → LoginFits user pass { after 1 socket with useTls := true }
  else LoginFits user pass socket

/-- The call returns: a last line is sent that its loop waits for, and no buffer is overrun before. -/
def Call.Ends (iobuf : List Byte) (socket : TcpSocket) : Call → Prop
  | .open haveTls user pass =>
      (socket.useTls = true ∧ ∀ line ∈ greetings iobuf (heard socket), isReady line = false) ∨
        ∃ before line rest, greetings iobuf (heard socket) = before ++ line :: rest ∧
          (∀ line ∈ before, isReady line = false) ∧ isReady line = true ∧
          (isOk line = true → GreetedFits haveTls user pass (after (before.length + 1) socket))
  | .close => socket.useTls = true ∨ ∃ line ∈ greetings iobuf (heard socket), isReady line = true
  | .uidl none | .list none =>
      okFirst socket = true → LinesEnd tableStops tableOverruns socket.useTls (socket.reads 1023).tail
  | .top (some _) _ | .retr (some _) =>
      okFirst socket = true → LinesEnd messageStops (fun _ => false) socket.useTls (socket.reads 1023).tail
  | .stat | .uidl (some _) | .list (some _) | .top none _ | .retr none | .dele _ => True

/-! ### Loops that read lines -/

section

variable {τ : Type} {round : τ → (Ending × Client) ⊕ τ} {clientOf : τ → Client} {stops overruns : List Byte → Bool}

/-- A round reads a line, and ends the loop with -1 if there is none, with a last line, or with an overrun. -/
structure ReadsLines (round : τ → (Ending × Client) ⊕ τ) (clientOf : τ → Client) (stops overruns : List Byte → Bool) :
    Prop where
  fails : ∀ s socket, tcpFgets 1023 (clientOf s).socket = (none, socket) → ∃ client, round s = .inl (.failed, client)
  ends : ∀ s line socket, tcpFgets 1023 (clientOf s).socket = (some line, socket) → stops line = true →
    ∃ client, round s = .inl (.returned, client)
  overrun : ∀ s line socket, tcpFgets 1023 (clientOf s).socket = (some line, socket) → stops line = false →
    overruns line = true → ∃ client, round s = .inl (.overrun, client)
  next : ∀ s line socket, tcpFgets 1023 (clientOf s).socket = (some line, socket) → stops line = false →
    overruns line = false → ∃ s', round s = .inr s' ∧ (clientOf s').socket = socket

/-- Such a loop ends if a last line is sent, and only then. -/
theorem ReadsLines.ends_iff (h : ReadsLines round clientOf stops overruns) (hstops : stops [] = false)
    (hoverruns : overruns [] = false) {s : τ} (hsound : (clientOf s).socket.Sound) :
    (∃ ending client, HaltsWith round s (ending, client) ∧ ending ≠ .overrun) ↔
      LinesEnd stops overruns (clientOf s).socket.useTls ((clientOf s).socket.reads 1023) := by
  induction hreads : (clientOf s).socket.reads 1023 generalizing s with
  | nil =>
      obtain ⟨socket', hsound', htls, -, hleft, hrun⟩ := tcpFgets_reads (show 0 < 1023 by decide) hsound
      rw [hreads] at hrun hleft
      cases huse : (clientOf s).socket.useTls with
      | true =>
          rw [huse] at hrun
          obtain ⟨client, hround⟩ := h.fails s socket' hrun
          exact ⟨fun _ => ⟨fun _ h => absurd h List.not_mem_nil, .inl rfl⟩,
            fun _ => ⟨.failed, client, (haltsWith_of_end hround).mpr rfl, fun h => nomatch h⟩⟩
      | false =>
          constructor
          · rintro ⟨ending, client, hhalts, -⟩
            -- every round gets an empty line
            refine absurd hhalts (not_haltsWith (fun t => (clientOf t).socket.Sound ∧
              (clientOf t).socket.useTls = false ∧ (clientOf t).socket.reads 1023 = []) ?_ ⟨hsound, huse, hreads⟩)
            rintro t ⟨ht, htls, hnil⟩
            obtain ⟨socket', ht', htls', -, hleft, hrun⟩ := tcpFgets_reads (show 0 < 1023 by decide) ht
            rw [hnil, htls] at hrun
            obtain ⟨t', hround, ht''⟩ := h.next t [] socket' hrun hstops hoverruns
            refine ⟨t', hround, ?_⟩
            rw [ht'', htls', hleft, hnil]
            exact ⟨ht', htls, rfl⟩
          · rintro ⟨-, h | ⟨line, hline, -⟩⟩
            · exact nomatch h
            · exact absurd hline List.not_mem_nil
  | cons line lines ih =>
      obtain ⟨socket', hsound', htls, -, hleft, hrun⟩ := tcpFgets_reads (show 0 < 1023 by decide) hsound
      rw [hreads] at hrun hleft
      cases hstop : stops line with
      | true =>
          obtain ⟨client, hround⟩ := h.ends s line socket' hrun hstop
          refine ⟨fun _ => ⟨?_, .inr ⟨line, List.mem_cons_self, hstop⟩⟩,
            fun _ => ⟨.returned, client, (haltsWith_of_end hround).mpr rfl, fun h => nomatch h⟩⟩
          rw [List.takeWhile_cons_of_neg (by simp [hstop])]
          exact fun _ h => absurd h List.not_mem_nil
      | false =>
          cases hover : overruns line with
          | true =>
              obtain ⟨client, hround⟩ := h.overrun s line socket' hrun hstop hover
              constructor
              · rintro ⟨ending, client', hhalts, hne⟩
                exact absurd (congrArg Prod.fst ((haltsWith_of_end hround).mp hhalts)) hne
              · rintro ⟨hfits, -⟩
                rw [List.takeWhile_cons_of_pos (by simp [hstop])] at hfits
                exact absurd (hfits line List.mem_cons_self) (by simp [hover])
          | false =>
              obtain ⟨s', hround, hs'⟩ := h.next s line socket' hrun hstop hover
              have hrest := ih (s := s') (by rw [hs']; exact hsound') (by rw [hs']; exact hleft)
              rw [hs', htls] at hrest
              simp only [haltsWith_of_next hround]
              rw [hrest, LinesEnd, LinesEnd, List.takeWhile_cons_of_pos (by simp [hstop])]
              simp [hstop, hover]

theorem tableRound_reads (item : List Byte → Item) :
    ReadsLines (tableRound item) (fun s => s.2.2) tableStops tableOverruns := by
  have hcstr : ∀ line iobuf, cstr (stripped (stored line iobuf)) = striprn (cstr line) := fun line iobuf => by
    rw [cstr_stripped, cstr_stored]
  constructor
  · intro s socket hrun
    exact ⟨{ s.2.2 with socket := socket }, by simp [tableRound, fgets, hrun]⟩
  · intro s line socket hrun hstop
    rw [tableStops, beq_iff_eq] at hstop
    exact ⟨{ s.2.2 with socket := socket, r := .table s.2.1 }, by simp [tableRound, fgets, hrun, hcstr, hstop]⟩
  · intro s line socket hrun hstop hover
    rw [tableStops, beq_eq_false_iff_ne] at hstop
    rw [tableOverruns, decide_eq_true_iff] at hover
    exact ⟨{ s.2.2 with socket := socket }, by simp [tableRound, fgets, hrun, hcstr, hstop, hover]⟩
  · intro s line socket hrun hstop hover
    rw [tableStops, beq_eq_false_iff_ne] at hstop
    rw [tableOverruns, decide_eq_false_iff_not] at hover
    exact ⟨(stripped (stored line s.1), setEntry (natDigits (unsigned (atoi (striprn (cstr line)))))
      (item (wordOf (stripped (stored line s.1)))) s.2.1, { s.2.2 with socket := socket }),
      by simp [tableRound, fgets, hrun, hcstr, hstop, hover], rfl⟩

theorem messageRound_reads : ReadsLines messageRound (fun s => s.2.2) messageStops fun _ => false := by
  constructor
  · intro s socket hrun
    exact ⟨{ s.2.2 with socket := socket }, by simp [messageRound, fgets, hrun]⟩
  · intro s line socket hrun hstop
    cases hend : isEnd (cstr line) with
    | true =>
        exact ⟨{ s.2.2 with socket := socket, r := .str s.2.1 },
          by simp [messageRound, fgets, hrun, cstr_stored, hend]⟩
    | false =>
        have hdot : cstr line = bytes "." := by simpa [messageStops, hend] using hstop
        rw [hdot] at hend
        exact ⟨{ s.2.2 with socket := socket, r := .str (s.2.1 ++ unstuffed (bytes ".")) },
          by simp [messageRound, fgets, hrun, cstr_stored, hdot, hend]⟩
  · intro s line socket hrun hstop hover
    cases hover
  · intro s line socket hrun hstop hover
    rw [messageStops, Bool.or_eq_false_iff, beq_eq_false_iff_ne] at hstop
    exact ⟨(stored line s.1, s.2.1 ++ unstuffed (cstr line), { s.2.2 with socket := socket }),
      by simp [messageRound, fgets, hrun, cstr_stored, hstop.1, hstop.2], rfl⟩

end

/-! ### Greetings and commands -/

section

variable {client : Client} {socket : TcpSocket} {iobuf : List Byte}

/-- The socket behind one call. -/
theorem after_one (hsound : socket.Sound) : (after 1 socket).Sound ∧ (after 1 socket).useTls = socket.useTls ∧
    (after 1 socket).reads 1023 = (socket.reads 1023).tail ∧
    tcpFgets 1023 socket =
      ((socket.reads 1023).head?.or (if socket.useTls then none else some []), after 1 socket) := by
  obtain ⟨socket', hsound', htls, -, hleft, hrun⟩ := tcpFgets_reads (show 0 < 1023 by decide) hsound
  have hafter : after 1 socket = socket' := congrArg Prod.snd hrun
  rw [hafter]
  exact ⟨hsound', htls, hleft, hrun⟩

theorem after_sound (hsound : socket.Sound) (n : Nat) : (after n socket).Sound := by
  induction n generalizing socket with
  | zero => exact hsound
  | succ n ih => exact ih (after_one hsound).1

/-- The first element of a kind is in one place. -/
theorem first_unique {α : Type} {p : α → Bool} {before before' rest rest' : List α} {a a' : α}
    (h : before ++ a :: rest = before' ++ a' :: rest') (hbefore : ∀ b ∈ before, p b = false) (ha : p a = true)
    (hbefore' : ∀ b ∈ before', p b = false) (ha' : p a' = true) : before = before' ∧ a = a' := by
  induction before generalizing before' with
  | nil =>
      cases before' with
      | nil => exact ⟨rfl, (List.cons.inj h).1⟩
      | cons b before' =>
          rw [(List.cons.inj h).1, hbefore' b List.mem_cons_self] at ha
          exact nomatch ha
  | cons b before ih =>
      cases before' with
      | nil =>
          rw [← (List.cons.inj h).1, hbefore b List.mem_cons_self] at ha'
          exact nomatch ha'
      | cons b' before' =>
          obtain ⟨rfl, hrest⟩ := List.cons.inj h
          obtain ⟨rfl, rfl⟩ := ih hrest (fun c hc => hbefore c (List.mem_cons_of_mem b hc))
            fun c hc => hbefore' c (List.mem_cons_of_mem b hc)
          exact ⟨rfl, rfl⟩

/-- A greeting that has ended with an empty line stays as it is. -/
theorem stripped_empty (iobuf : List Byte) : stripped (stored [] iobuf) = 0 :: iobuf.drop 1 := rfl

/-- The loops that read a greeting end with the first line that is ready. Without one they end with -1 if the connection
is one with TLS, and they do not end else. -/
theorem greetingRounds_run (iobuf : List Byte) (hsound : client.socket.Sound) :
    ((∀ line ∈ greetings iobuf (heard client.socket), isReady line = false) ∧
      (if client.socket.useTls then ∃ client', ∀ r, HaltsWith greetingRound (iobuf, client) r ↔
          r = .inl (.failed, client')
        else ∀ r, ¬ HaltsWith greetingRound (iobuf, client) r)) ∨
    ∃ before line rest, greetings iobuf (heard client.socket) = before ++ line :: rest ∧
      (∀ line ∈ before, isReady line = false) ∧ isReady line = true ∧
      ∃ client' : Client, client'.socket = after (before.length + 1) client.socket ∧
        ∀ r, HaltsWith greetingRound (iobuf, client) r ↔ r = .inr (line, client') := by
  induction hreads : client.socket.reads 1023 generalizing iobuf client with
  | nil =>
      obtain ⟨-, -, -, hrun⟩ := after_one hsound
      rw [hreads] at hrun
      cases htls : client.socket.useTls with
      | true =>
          rw [htls] at hrun
          have hround : greetingRound (iobuf, client) =
              .inl (.inl (.failed, { client with socket := after 1 client.socket })) := by
            simp [greetingRound, fgets, hrun]
          have hheard : heard client.socket = [] := by rw [heard, htls, if_pos rfl, hreads]
          rw [hheard, if_pos rfl]
          exact .inl ⟨fun _ h => absurd h List.not_mem_nil, _, fun r => haltsWith_of_end hround⟩
      | false =>
          rw [htls] at hrun
          have hheard : heard client.socket = [[]] := by simp [heard, htls, hreads]
          rw [hheard, if_neg Bool.false_ne_true]
          cases hready : isReady (stripped (stored [] iobuf)) with
          | true =>
              have hround : greetingRound (iobuf, client) =
                  .inl (.inr (stripped (stored [] iobuf), { client with socket := after 1 client.socket })) := by
                simp [greetingRound, fgets, hrun, hready]
              exact .inr ⟨[], _, [], rfl, fun _ h => absurd h List.not_mem_nil, hready, _, rfl,
                fun r => haltsWith_of_end hround⟩
          | false =>
              refine .inl ⟨fun line hline => ?_, fun r => not_haltsWith (fun state => state.2.socket.Sound ∧
                state.2.socket.useTls = false ∧ state.2.socket.reads 1023 = [] ∧
                isReady (stripped (stored [] state.1)) = false) ?_ ⟨hsound, htls, hreads, hready⟩⟩
              · rw [List.mem_singleton.mp hline]
                exact hready
              · rintro ⟨iobuf, client⟩ ⟨hsound, htls, hreads, hready⟩
                obtain ⟨hsound', htls', hleft, hrun⟩ := after_one hsound
                rw [hreads, htls] at hrun
                rw [hreads] at hleft
                refine ⟨(stripped (stored [] iobuf), { client with socket := after 1 client.socket }), ?_, hsound',
                  htls'.trans htls, hleft, ?_⟩
                · simp [greetingRound, fgets, hrun, hready]
                · rw [stripped_empty] at hready ⊢
                  exact hready
  | cons p ps ih =>
      obtain ⟨hsound', htls', hleft, hrun⟩ := after_one hsound
      rw [hreads] at hrun hleft
      have hheard : heard client.socket = p :: heard (after 1 client.socket) := by
        rw [heard, heard, htls', hleft, hreads]
        split <;> rfl
      rw [hheard, greetings]
      cases hready : isReady (stripped (stored p iobuf)) with
      | true =>
          have hround : greetingRound (iobuf, client) =
              .inl (.inr (stripped (stored p iobuf), { client with socket := after 1 client.socket })) := by
            simp [greetingRound, fgets, hrun, hready]
          exact .inr ⟨[], _, _, rfl, fun _ h => absurd h List.not_mem_nil, hready, _, rfl,
            fun r => haltsWith_of_end hround⟩
      | false =>
          have hround : greetingRound (iobuf, client) =
              .inr (stripped (stored p iobuf), { client with socket := after 1 client.socket }) := by
            simp [greetingRound, fgets, hrun, hready]
          have hread : ({ client with socket := after 1 client.socket } : Client).socket.Sound := hsound'
          have hrest := ih (stripped (stored p iobuf)) hread hleft
          simp only [haltsWith_of_next hround]
          rcases hrest with ⟨hnone, hends⟩ | ⟨before, line, rest, hsplit, hbefore, hline, client', hsocket, hends⟩
          · rw [htls'] at hends
            exact .inl ⟨fun line hline => (List.mem_cons.mp hline).elim (fun h => h ▸ hready) (hnone line), hends⟩
          · refine .inr ⟨stripped (stored p iobuf) :: before, line, rest, by rw [hsplit]; rfl, ?_, hline, client',
              hsocket, hends⟩
            exact fun line hline => (List.mem_cons.mp hline).elim (fun h => h ▸ hready) (hbefore line)

/-- A command is too long, or it is not answered with `+OK`, or it is. -/
theorem command_cases (iobuf : List Byte) (format : List Conv) {s : List Byte} (hs : 2 ≤ s.length)
    (hsound : client.socket.Sound) :
    (¬ Fits (format ++ [.text s]) ∧ command (format ++ [.text s]) iobuf client = .inl (.overrun, client)) ∨
    (Fits (format ++ [.text s]) ∧ okFirst client.socket = false ∧
      ∃ client', command (format ++ [.text s]) iobuf client = .inl (.failed, client')) ∨
    (Fits (format ++ [.text s]) ∧ okFirst client.socket = true ∧ ∃ iobuf' out,
      command (format ++ [.text s]) iobuf client =
        .inr (iobuf', { client with socket := (after 1 client.socket).withOut out })) := by
  rcases tcpFprintf_line format client.socket hs with ⟨hfits, out, hsent⟩ | ⟨hlong, hsent⟩
  · obtain ⟨-, -, -, hrun⟩ := after_one hsound
    have hread := tcpFgets_withOut 1023 client.socket out
    rw [hrun] at hread
    cases hline : (client.socket.reads 1023).head? with
    | none =>
        have hno : okFirst client.socket = false := by rw [okFirst, hline]; rfl
        rw [hline] at hread
        refine .inr (.inl ⟨hfits, hno, ?_⟩)
        cases htls : client.socket.useTls with
        | true =>
            rw [htls] at hread
            exact ⟨{ client with socket := (after 1 client.socket).withOut out },
              by simp [command, hsent, fgets, hread]⟩
        | false =>
            rw [htls] at hread
            have hok : isOk (stripped (stored [] iobuf)) = false := isOk_stripped [] iobuf
            refine ⟨{ client with
              socket := (after 1 client.socket).withOut out
              lastErr := some (cstr (stripped (stored [] iobuf))) }, ?_⟩
            simp [command, hsent, fgets, hread, hok]
    | some line =>
        rw [hline] at hread
        have hfirst : okFirst client.socket = isOk line := by rw [okFirst, hline]; rfl
        have hok := isOk_stripped line iobuf
        cases hstarts : isOk line with
        | true =>
            rw [hstarts] at hok
            exact .inr (.inr ⟨hfits, hfirst.trans hstarts, stripped (stored line iobuf), out,
              by simp [command, hsent, fgets, hread, hok]⟩)
        | false =>
            rw [hstarts] at hok
            refine .inr (.inl ⟨hfits, hfirst.trans hstarts, { client with
              socket := (after 1 client.socket).withOut out
              lastErr := some (cstr (stripped (stored line iobuf))) }, ?_⟩)
            simp [command, hsent, fgets, hread, hok]
  · exact .inl ⟨hlong, by simp [command, hsent]⟩

/-! ### The calls -/

theorem login_iff (user pass : List Byte) (hsound : client.socket.Sound) :
    (login user pass iobuf client).1 ≠ .overrun ↔ LoginFits user pass client.socket := by
  have huser := command_cases iobuf [.text (bytes "USER "), .arg user] (s := bytes "\r\n") (by decide) hsound
  rw [List.cons_append, List.cons_append, List.nil_append] at huser
  rw [LoginFits, userLine]
  rcases huser with ⟨hlong, hrun⟩ | ⟨hfits, hno, client', hrun⟩ | ⟨hfits, hok, iobuf', out, hrun⟩
  · rw [login, hrun]
    exact ⟨fun h => absurd rfl h, fun h => absurd h.1 hlong⟩
  · rw [login, hrun, hno]
    exact ⟨fun _ => ⟨hfits, fun h => (nomatch h)⟩, fun _ h => nomatch h⟩
  · have hsound' : ({ client with socket := (after 1 client.socket).withOut out } : Client).socket.Sound :=
      (after_one hsound).1
    have hpass := command_cases iobuf' [.text (bytes "PASS "), .arg pass] (s := bytes "\r\n") (by decide) hsound'
    rw [List.cons_append, List.cons_append, List.nil_append] at hpass
    rw [login, hrun, hok, passLine]
    dsimp only
    rcases hpass with ⟨hlong, hrun'⟩ | ⟨hfits', -, client', hrun'⟩ | ⟨hfits', -, iobuf'', out', hrun'⟩
    · rw [hrun']
      exact ⟨fun h => absurd rfl h, fun h => absurd (h.2 rfl) hlong⟩
    · rw [hrun']
      exact ⟨fun _ => ⟨hfits, fun _ => hfits'⟩, fun _ h => nomatch h⟩
    · rw [hrun']
      exact ⟨fun _ => ⟨hfits, fun _ => hfits'⟩, fun _ h => nomatch h⟩

theorem greeted_iff (haveTls : Bool) (user pass : List Byte) (hsound : client.socket.Sound) :
    (greeted haveTls user pass iobuf client).1 ≠ .overrun ↔
      (isOk iobuf = true → GreetedFits haveTls user pass client.socket) := by
  cases hok : isOk iobuf with
  | false =>
      rw [greeted, hok, Bool.not_false, if_pos rfl]
      exact ⟨fun _ h => (nomatch h), fun _ h => nomatch h⟩
  | true =>
      rw [greeted, hok, Bool.not_true, if_neg Bool.false_ne_true, GreetedFits]
      cases hstls : haveTls && !client.socket.useTls with
      | false =>
          rw [if_neg Bool.false_ne_true, if_neg Bool.false_ne_true, login_iff user pass hsound]
          exact ⟨fun h _ => h, fun h => h rfl⟩
      | true =>
          rw [if_pos rfl, if_pos rfl]
          have hcommand := command_cases iobuf [] (s := bytes "STLS\r\n") (by decide) hsound
          rw [List.nil_append] at hcommand
          rcases hcommand with ⟨hlong, -⟩ | ⟨-, hno, client', hrun⟩ | ⟨-, hyes, iobuf', out, hrun⟩
          · exact absurd (show Fits [.text (bytes "STLS\r\n")] by decide) hlong
          · rw [hrun, hno]
            exact ⟨fun _ _ h => (nomatch h), fun _ h => nomatch h⟩
          · rw [hrun, hyes]
            dsimp only
            rw [login_iff user pass (after_one hsound).1]
            exact ⟨fun h _ _ => h, fun h => h rfl rfl⟩

/-- A command and a loop that reads the lines of its answer. -/
theorem commandLines_iff {τ : Type} {round : τ → (Ending × Client) ⊕ τ} {clientOf : τ → Client}
    {stops overruns : List Byte → Bool} (h : ReadsLines round clientOf stops overruns) (hstops : stops [] = false)
    (hoverruns : overruns [] = false) (start : List Byte → Client → τ) (hstart : ∀ b c, clientOf (start b c) = c)
    (format : List Conv) {s : List Byte} (hs : 2 ≤ s.length) (hfits : Fits (format ++ [.text s]))
    (hsound : client.socket.Sound) :
    (∃ fuel ending client', (match command (format ++ [.text s]) iobuf client with
        | .inl ending => some ending
        | .inr (iobuf, client) => rounds round fuel (start iobuf client)) = some (ending, client') ∧
        ending ≠ .overrun) ↔
      (okFirst client.socket = true →
        LinesEnd stops overruns client.socket.useTls (client.socket.reads 1023).tail) := by
  obtain ⟨hsound', htls, hleft, -⟩ := after_one hsound
  rcases command_cases iobuf format hs hsound with ⟨hlong, -⟩ | ⟨-, hno, client', hrun⟩ |
    ⟨-, hok, iobuf', out, hrun⟩
  · exact absurd hfits hlong
  · rw [hrun, hno]
    exact ⟨fun _ h => (nomatch h), fun _ => ⟨0, .failed, client', rfl, fun h => nomatch h⟩⟩
  · have hloop := h.ends_iff hstops hoverruns
      (s := start iobuf' { client with socket := (after 1 client.socket).withOut out }) (by rw [hstart]; exact hsound')
    rw [hstart, withOut_useTls, withOut_reads, htls, hleft] at hloop
    rw [hrun, hok]
    dsimp only
    constructor
    · rintro ⟨fuel, ending, client', hends, hne⟩ -
      exact hloop.mp ⟨ending, client', ⟨fuel, hends⟩, hne⟩
    · intro hlines
      obtain ⟨ending, client', ⟨fuel, hends⟩, hne⟩ := hloop.mpr (hlines rfl)
      exact ⟨fuel, ending, client', hends, hne⟩

/-- A command that fits, and one line that answers it: nothing is waited for. -/
theorem command_ends (iobuf : List Byte) (format : List Conv) {s : List Byte} (hs : 2 ≤ s.length)
    (hfits : Fits (format ++ [.text s])) (hsound : client.socket.Sound) :
    (∃ client', command (format ++ [.text s]) iobuf client = .inl (.failed, client')) ∨
      ∃ iobuf' client', command (format ++ [.text s]) iobuf client = .inr (iobuf', client') := by
  rcases command_cases iobuf format hs hsound with ⟨hlong, -⟩ | ⟨-, -, hrun⟩ |
    ⟨-, -, iobuf', out, hrun⟩
  · exact absurd hfits hlong
  · exact .inl hrun
  · exact .inr ⟨iobuf', _, hrun⟩

theorem clientStat_returns (hsound : client.socket.Sound) : Returns .stat iobuf client := by
  rcases command_ends iobuf [] (s := bytes "STAT\r\n") (by decide) (by decide) hsound with
    ⟨client', hrun⟩ | ⟨iobuf', client', hrun⟩
  · rw [List.nil_append] at hrun
    exact ⟨0, .failed, client', by rw [Call.run, clientStat, hrun], fun h => nomatch h⟩
  · rw [List.nil_append] at hrun
    exact ⟨0, .returned, _, by rw [Call.run, clientStat, hrun], fun h => nomatch h⟩

/-- A command with the number of a message. -/
theorem numbered_ends (iobuf name : List Byte) (msg : UInt16) (hname : name.length ≤ 2000)
    (hsound : client.socket.Sound) :
    (∃ client', command [.text name, .arg (natDigits msg.toNat), .text (bytes "\r\n")] iobuf client =
        .inl (.failed, client')) ∨
      ∃ iobuf' client', command [.text name, .arg (natDigits msg.toNat), .text (bytes "\r\n")] iobuf client =
        .inr (iobuf', client') := by
  have hmsg := natDigits_uint16 msg
  refine command_ends iobuf [.text name, .arg (natDigits msg.toNat)] (by decide) ?_ hsound
  simp [Fits, Conv.printed, bytes]
  omega

theorem clientUidl_returns (msg : UInt16) (hsound : client.socket.Sound) : Returns (.uidl (some msg)) iobuf client := by
  rcases numbered_ends iobuf (bytes "UIDL ") msg (by decide) hsound with ⟨client', hrun⟩ |
    ⟨iobuf', client', hrun⟩
  · exact ⟨0, .failed, client', by simp only [Call.run, clientUidl, hrun], fun h => nomatch h⟩
  · exact ⟨0, .returned, _, by simp only [Call.run, clientUidl, hrun]; rfl, fun h => nomatch h⟩

theorem clientList_returns (msg : UInt16) (hsound : client.socket.Sound) : Returns (.list (some msg)) iobuf client := by
  rcases numbered_ends iobuf (bytes "LIST ") msg (by decide) hsound with ⟨client', hrun⟩ |
    ⟨iobuf', client', hrun⟩
  · exact ⟨0, .failed, client', by simp only [Call.run, clientList, hrun], fun h => nomatch h⟩
  · exact ⟨0, .returned, _, by simp only [Call.run, clientList, hrun]; rfl, fun h => nomatch h⟩

theorem clientDele_returns (msg : UInt16) (hsound : client.socket.Sound) : Returns (.dele (some msg)) iobuf client := by
  rcases numbered_ends iobuf (bytes "DELE ") msg (by decide) hsound with ⟨client', hrun⟩ |
    ⟨iobuf', client', hrun⟩
  · exact ⟨0, .failed, client', by simp only [Call.run, clientDele, hrun], fun h => nomatch h⟩
  · exact ⟨0, .returned, _, by simp only [Call.run, clientDele, hrun]; rfl, fun h => nomatch h⟩

theorem clientOpen_iff (haveTls : Bool) (user pass : List Byte) (hsound : client.socket.Sound) :
    Returns (.open haveTls user pass) iobuf client ↔ (Call.open haveTls user pass).Ends iobuf client.socket := by
  have hsound' : ({ client with r := .bool false } : Client).socket.Sound := hsound
  have hloop := greetingRounds_run iobuf hsound'
  dsimp only at hloop
  constructor
  · rintro ⟨fuel, ending, client', hrun, hne⟩
    rw [Call.run, clientOpen] at hrun
    rcases hloop with ⟨hnone, hends⟩ | ⟨before, line, rest, hsplit, hbefore, hline, greet, hsocket, hends⟩
    · cases htls : client.socket.useTls with
      | true => exact .inl ⟨htls, hnone⟩
      | false =>
          rw [if_neg (by rw [htls]; exact Bool.false_ne_true)] at hends
          cases hrounds : rounds greetingRound fuel (iobuf, { client with r := .bool false }) with
          | none => rw [hrounds] at hrun; exact nomatch hrun
          | some r => exact absurd ⟨fuel, hrounds⟩ (hends r)
    · refine .inr ⟨before, line, rest, hsplit, hbefore, hline, ?_⟩
      cases hrounds : rounds greetingRound fuel (iobuf, { client with r := .bool false }) with
      | none => rw [hrounds] at hrun; exact nomatch hrun
      | some r =>
          obtain rfl := (hends r).mp ⟨fuel, hrounds⟩
          rw [hrounds] at hrun
          have hgreeted := congrArg Prod.fst (Option.some.inj hrun)
          rw [← hsocket]
          exact (greeted_iff haveTls user pass (by rw [hsocket]; exact after_sound hsound _)).mp
            (by rw [hgreeted]; exact hne)
  · intro h
    rcases hloop with ⟨hnone, hends⟩ | ⟨before, line, rest, hsplit, hbefore, hline, greet, hsocket, hends⟩
    · have htls : client.socket.useTls = true := by
        rcases h with ⟨htls, -⟩ | ⟨before, line, rest, hsplit, -, hline, -⟩
        · exact htls
        · have hnot := hnone line (hsplit ▸ List.mem_append_right _ List.mem_cons_self)
          exact absurd hline (by simp [hnot])
      rw [if_pos htls] at hends
      obtain ⟨client', hends⟩ := hends
      obtain ⟨fuel, hrun⟩ := (hends _).mpr rfl
      exact ⟨fuel, .failed, client', by rw [Call.run, clientOpen, hrun], fun h => nomatch h⟩
    · obtain ⟨fuel, hrun⟩ := (hends _).mpr rfl
      refine ⟨fuel, _, _, by rw [Call.run, clientOpen, hrun], ?_⟩
      refine (greeted_iff haveTls user pass (by rw [hsocket]; exact after_sound hsound _)).mpr ?_
      rw [hsocket]
      rcases h with ⟨-, hnone⟩ | ⟨before', line', rest', hsplit', hbefore', hline', hfits⟩
      · have hnot := hnone line (hsplit ▸ List.mem_append_right _ List.mem_cons_self)
        exact absurd hline (by simp [hnot])
      · obtain ⟨rfl, rfl⟩ := first_unique (hsplit.symm.trans hsplit') hbefore hline hbefore' hline'
        exact hfits

theorem clientClose_iff (hsound : client.socket.Sound) :
    Returns .close iobuf client ↔ Call.close.Ends iobuf client.socket := by
  rcases tcpFprintf_line [] (s := bytes "QUIT\r\n") client.socket (by decide) with
    ⟨-, out, hsent⟩ | ⟨hlong, -⟩
  · rw [List.nil_append] at hsent
    have hsound' : ({ client with socket := client.socket.withOut out } : Client).socket.Sound := hsound
    have hloop := greetingRounds_run iobuf hsound'
    have hheard : heard (client.socket.withOut out) = heard client.socket := rfl
    dsimp only at hloop
    rw [withOut_useTls, hheard] at hloop
    rw [Call.Ends]
    constructor
    · rintro ⟨fuel, ending, client', hrun, hne⟩
      rw [Call.run, clientClose, hsent] at hrun
      dsimp only at hrun
      rcases hloop with ⟨hnone, hends⟩ | ⟨before, line, rest, hsplit, -, hline, -⟩
      · cases htls : client.socket.useTls with
        | true => exact .inl rfl
        | false =>
            rw [if_neg (by rw [htls]; exact Bool.false_ne_true)] at hends
            cases hrounds : rounds greetingRound fuel (iobuf, { client with socket := client.socket.withOut out }) with
            | none => rw [hrounds] at hrun; exact nomatch hrun
            | some r => exact absurd ⟨fuel, hrounds⟩ (hends r)
      · exact .inr ⟨line, hsplit ▸ List.mem_append_right _ List.mem_cons_self, hline⟩
    · intro h
      rcases hloop with ⟨hnone, hends⟩ | ⟨before, line, rest, hsplit, -, hline, greet, hsocket, hends⟩
      · have htls : client.socket.useTls = true := by
          rcases h with htls | ⟨line, hmem, hline⟩
          · exact htls
          · exact absurd hline (by simp [hnone line hmem])
        rw [if_pos htls] at hends
        obtain ⟨client', hends⟩ := hends
        obtain ⟨fuel, hrun⟩ := (hends _).mpr rfl
        exact ⟨fuel, .failed, client', by rw [Call.run, clientClose, hsent]; dsimp only; rw [hrun],
          fun h => nomatch h⟩
      · obtain ⟨fuel, hrun⟩ := (hends _).mpr rfl
        exact ⟨fuel, .returned, _, by rw [Call.run, clientClose, hsent]; dsimp only; rw [hrun],
          fun h => nomatch h⟩
  · exact absurd (show Fits [.text (bytes "QUIT\r\n")] by decide) hlong

theorem clientRetr_iff (msg : UInt16) (hsound : client.socket.Sound) :
    Returns (.retr (some msg)) iobuf client ↔ (Call.retr (some msg)).Ends iobuf client.socket := by
  have hmsg := natDigits_uint16 msg
  refine commandLines_iff messageRound_reads rfl rfl (fun b c => (b, [], c)) (fun _ _ => rfl)
    [.text (bytes "RETR "), .arg (natDigits msg.toNat)] (by decide) ?_ hsound
  simp [Fits, Conv.printed, bytes]
  omega

/-- When a call returns: for an `open` and a `close` a line has to be sent that leaves a blank or nothing behind the
first three bytes of the buffer, for a table or a message its last line, and nothing for the other calls. -/
theorem returns_iff (call : Call) (hsound : client.socket.Sound) :
    Returns call iobuf client ↔ call.Ends iobuf client.socket := by
  have hdone : ∀ {call : Call}, Returns call iobuf client → (Returns call iobuf client ↔ True) :=
    fun h => ⟨fun _ => trivial, fun _ => h⟩
  cases call with
  | «open» haveTls user pass => exact clientOpen_iff haveTls user pass hsound
  | close => exact clientClose_iff hsound
  | stat => exact hdone (clientStat_returns hsound)
  | uidl msg =>
      cases msg with
      | none =>
          exact commandLines_iff (s := bytes "UIDL\r\n") (tableRound_reads fun p => .str (cstr p)) rfl (by decide)
            (fun b c => (b, [], c)) (fun _ _ => rfl) [] (by decide) (by decide) hsound
      | some msg => exact hdone (clientUidl_returns msg hsound)
  | list msg =>
      cases msg with
      | none =>
          exact commandLines_iff (s := bytes "LIST\r\n")
            (tableRound_reads fun p => .num (unsigned (atoi (cstr p)))) rfl (by decide)
            (fun b c => (b, [], c)) (fun _ _ => rfl) [] (by decide) (by decide) hsound
      | some msg => exact hdone (clientList_returns msg hsound)
  | top msg lines =>
      cases msg with
      | none => exact hdone ⟨0, _, _, rfl, fun h => nomatch h⟩
      | some msg =>
          have hmsg := natDigits_uint16 msg
          have hlines := natDigits_uint16 (lines.getD 0)
          refine commandLines_iff messageRound_reads rfl rfl (fun b c => (b, [], c)) (fun _ _ => rfl)
            [.text (bytes "TOP "), .arg (natDigits msg.toNat), .text (bytes " "), .arg (natDigits (lines.getD 0).toNat)]
            (by decide) ?_ hsound
          simp [Fits, Conv.printed, bytes]
          omega
  | retr msg =>
      cases msg with
      | none => exact hdone ⟨0, _, _, rfl, fun h => nomatch h⟩
      | some msg => exact clientRetr_iff msg hsound
  | dele msg =>
      cases msg with
      | none => exact hdone ⟨0, _, _, rfl, fun h => nomatch h⟩
      | some msg => exact hdone (clientDele_returns msg hsound)

end

/-- A server that closes the connection behind the end of a message. -/
theorem returns_message : Returns (.retr (some 1)) [] { socket := connected [bytes "+OK\r\n.\r\n"] } := by
  let client : Client := { socket := connected [bytes "+OK\r\n.\r\n"] }
  have hsound : client.socket.Sound := connected_sound _
  refine (@returns_iff client [] (.retr (some 1)) hsound).mpr ?_
  intro hok
  exact ⟨by decide, .inr (by decide)⟩

/-- A server that closes the connection behind the first line of an answer. -/
theorem not_returns_closed : ¬ Returns (.retr (some 1)) [] { socket := connected [bytes "+OK\r\n"] } := by
  intro h
  let client : Client := { socket := connected [bytes "+OK\r\n"] }
  have hsound : client.socket.Sound := connected_sound _
  have hends := (@clientRetr_iff client [] 1 hsound).mp h (by decide)
  exact absurd hends.2 (by decide)

end NullG.Libs.Pop3
