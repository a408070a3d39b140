/-
The POP3 client (`libs/net/pop3.c`).

The loops read the answer line by line into `iobuf`. A line of more than 1023 bytes comes in pieces, and what a piece
starts with is looked at whether or not the line starts there (`clientRetr_recovers_iff`). Behind the end of the
connection `tcp_fgets` returns 0 and an empty line for ever, which none of the loops takes for an end
(`NullG.Libs.Pop3Returns`).
-/

import NullG.Lib.Lengths
import NullG.Lib.Rounds
import NullG.Libs.Tcp
import NullG.Mail.Lines

namespace NullG.Libs.Pop3

open NullG.Nsp NullG.Lib NullG.Mail

/-! ### The calls -/

/-- An entry of a table that is returned. -/
inductive Item where
  | num (n : Int)
  | str (s : List Byte)

/-- `N->r`. -/
inductive Reply where
  | nothing
  | bool (b : Bool)
  | num (n : Int)
  | str (s : List Byte)
  | table (entries : List (List Byte × Item))

/-- A client with a connection. -/
structure Client where
  socket : TcpSocket
  /-- `this.socket` is the socket -/
  linked : Bool := false
  /-- `this.last_err` -/
  lastErr : Option (List Byte) := none
  r : Reply := .nothing

/-- How a call ends. -/
inductive Ending where
  /-- `return 0` -/
  | returned
  /-- `return -1` -/
  | failed
  /-- `n_error` -/
  | error (message : List Byte)
  /-- a byte was written behind a buffer -/
  | overrun

/-- `unsigned`, of an `int`. -/
def unsigned (n : Int) : Nat := (n % 2 ^ 32).toNat

/-- `nc_strncmp(iobuf, "+OK", 3) == 0`. -/
def isOk (iobuf : List Byte) : Bool := iobuf.take 3 == bytes "+OK"

/-- `iobuf[3]` is a blank or the end of the line. -/
def isReady (iobuf : List Byte) : Bool := iobuf.getD 3 0 == ch ' ' || iobuf.getD 3 0 == 0

/-- The bytes of `iobuf` behind a line that was read into it. -/
def stored (line iobuf : List Byte) : List Byte := line ++ 0 :: iobuf.drop (line.length + 1)

/-- `striprn(iobuf)`. -/
def stripped (iobuf : List Byte) : List Byte :=
  let line := striprn (cstr iobuf)
  line ++ List.replicate ((cstr iobuf).length - line.length) 0 ++ iobuf.drop (cstr iobuf).length

/-- `while ((*p) && (*p != ' ')) p++;`. The bytes are those up to the end of the memory. -/
def blankOf (p : List Byte) : List Byte := p.dropWhile fun c => c != 0 && c != ch ' '

/-- `while ((*p) && (*p != ' ')) p++; p++;`, which may step over the end of the line. -/
def nextWord (p : List Byte) : List Byte := (blankOf p).drop 1

/-- `while ((*p) && (*p != ' ')) p++; if (*p) p++;`. -/
def wordOf (p : List Byte) : List Byte := if (blankOf p).head?.any (· != 0) then nextWord p else blankOf p

/-- `nsp_setnum(N, &tobj, name, ...)` and `nsp_setstr(N, &tobj, name, ...)`. -/
def setEntry (name : List Byte) (item : Item) : List (List Byte × Item) → List (List Byte × Item)
  | [] => [(name, item)]
  | entry :: entries =>
      if entry.1 = name then (name, item) :: entries else entry :: setEntry name item entries

/-- `tcp_fgets(N, sock, iobuf, sizeof(iobuf) - 1)`. -/
def fgets (iobuf : List Byte) (client : Client) : (Ending × Client) ⊕ (List Byte × Client) :=
  match tcpFgets 1023 client.socket with
  | (none, socket) => .inl (.failed, { client with socket := socket })
  | (some line, socket) => .inr (stored line iobuf, { client with socket := socket })

/-- A command and the first line of its answer. -/
def command (format : List Conv) (iobuf : List Byte) (client : Client) : (Ending × Client) ⊕ (List Byte × Client) :=
  match tcpFprintf format client.socket with
  | none => .inl (.overrun, client)
  | some socket =>
      match fgets iobuf { client with socket := socket } with
      | .inl ending => .inl ending
      | .inr (iobuf, client) =>
          let iobuf := stripped iobuf
          if isOk iobuf then .inr (iobuf, client)
          else .inl (.failed, { client with lastErr := some (cstr iobuf) })

/-- A round of the loops that read a greeting. -/
def greetingRound (state : List Byte × Client) :
    ((Ending × Client) ⊕ (List Byte × Client)) ⊕ (List Byte × Client) :=
  match fgets state.1 state.2 with
  | .inl ending => .inl (.inl ending)
  | .inr (iobuf, client) =>
      let iobuf := stripped iobuf
      if isReady iobuf then .inl (.inr (iobuf, client)) else .inr (iobuf, client)

/-- The commands of `libnsp_net_pop3_client_open` that log in. -/
def login (user pass : List Byte) (iobuf : List Byte) (client : Client) : Ending × Client :=
  match command [.text (bytes "USER "), .arg user, .text (bytes "\r\n")] iobuf client with
  | .inl ending => ending
  | .inr (iobuf, client) =>
      match command [.text (bytes "PASS "), .arg pass, .text (bytes "\r\n")] iobuf client with
      | .inl ending => ending
      | .inr (_, client) => (.returned, { client with linked := true, r := .bool true })

/-- `_tls_connect`. -/
def tlsConnect (client : Client) : Client := { client with socket := { client.socket with useTls := true } }

/-- `libnsp_net_pop3_client_open` behind the greeting. -/
def greeted (haveTls : Bool) (user pass : List Byte) (iobuf : List Byte) (client : Client) : Ending × Client :=
  if !isOk iobuf then (.failed, { client with lastErr := some (cstr iobuf) })
  else if haveTls && !client.socket.useTls then
    match command [.text (bytes "STLS\r\n")] iobuf client with
    | .inl ending => ending
    | .inr (iobuf, client) => login user pass iobuf (tlsConnect client)
  else login user pass iobuf client

/-- `libnsp_net_pop3_client_open` on a connection; `iobuf` is what the memory of the buffer and behind it holds. -/
def clientOpen (haveTls : Bool) (user pass : List Byte) (fuel : Nat) (iobuf : List Byte) (client : Client) :
    Option (Ending × Client) :=
  match rounds greetingRound fuel (iobuf, { client with r := .bool false }) with
  | none => none
  | some (.inl ending) => some ending
  | some (.inr (iobuf, client)) => some (greeted haveTls user pass iobuf client)

/-- `libnsp_net_pop3_client_close`. -/
def clientClose (fuel : Nat) (iobuf : List Byte) (client : Client) : Option (Ending × Client) :=
  match tcpFprintf [.text (bytes "QUIT\r\n")] client.socket with
  | none => some (.overrun, client)
  | some socket =>
      match rounds greetingRound fuel (iobuf, { client with socket := socket }) with
      | none => none
      | some (.inl ending) => some ending
      | some (.inr (_, client)) => some (.returned, { client with linked := false, r := .num 0 })

/-- `libnsp_net_pop3_client_stat`. -/
def clientStat (iobuf : List Byte) (client : Client) : Ending × Client :=
  match command [.text (bytes "STAT\r\n")] iobuf client with
  | .inl ending => ending
  | .inr (iobuf, client) =>
      let p := wordOf iobuf
      let count := unsigned (atoi (cstr p))
      let size := unsigned (atoi (cstr (wordOf p)))
      (.returned, { client with r := .table [(bytes "count", .num count), (bytes "size", .num size)] })

/-- A round of the loops that read a table. Its names are written to a `numbuf` of 8 bytes. -/
def tableRound (item : List Byte → Item) (state : List Byte × List (List Byte × Item) × Client) :
    (Ending × Client) ⊕ (List Byte × List (List Byte × Item) × Client) :=
  match fgets state.1 state.2.2 with
  | .inl ending => .inl ending
  | .inr (iobuf, client) =>
      let iobuf := stripped iobuf
      if cstr iobuf = bytes "." then .inl (.returned, { client with r := .table state.2.1 })
      else
        let name := natDigits (unsigned (atoi (cstr iobuf)))
        if 8 ≤ name.length then .inl (.overrun, client)
        else .inr (iobuf, setEntry name (item (wordOf iobuf)) state.2.1, client)

/-- A round of `libnsp_net_pop3_client_uidl`. -/
def uidlRound := tableRound fun p => .str (cstr p)

/-- A round of `libnsp_net_pop3_client_list`. -/
def listRound := tableRound fun p => .num (unsigned (atoi (cstr p)))

/-- `libnsp_net_pop3_client_uidl`. -/
def clientUidl (msg : Option UInt16) (fuel : Nat) (iobuf : List Byte) (client : Client) : Option (Ending × Client) :=
  match msg with
  | some msg =>
      match command [.text (bytes "UIDL "), .arg (natDigits msg.toNat), .text (bytes "\r\n")] iobuf client with
      | .inl ending => some ending
      | .inr (iobuf, client) => some (.returned, { client with r := .str (cstr (nextWord (nextWord iobuf))) })
  | none =>
      match command [.text (bytes "UIDL\r\n")] iobuf client with
      | .inl ending => some ending
      | .inr (iobuf, client) => rounds uidlRound fuel (iobuf, [], client)

/-- `libnsp_net_pop3_client_list`. -/
def clientList (msg : Option UInt16) (fuel : Nat) (iobuf : List Byte) (client : Client) : Option (Ending × Client) :=
  match msg with
  | some msg =>
      match command [.text (bytes "LIST "), .arg (natDigits msg.toNat), .text (bytes "\r\n")] iobuf client with
      | .inl ending => some ending
      | .inr (iobuf, client) => some (.returned, { client with r := .num (atoi (cstr (nextWord (nextWord iobuf)))) })
  | none =>
      match command [.text (bytes "LIST\r\n")] iobuf client with
      | .inl ending => some ending
      | .inr (iobuf, client) => rounds listRound fuel (iobuf, [], client)

/-- The lines that `libnsp_net_pop3_client_retr` stops at. -/
def isEnd (line : List Byte) : Bool := line == bytes ".\r\n" || line == bytes ".\n"

/-- What a line is added to the message as. -/
def unstuffed (line : List Byte) : List Byte := if line.take 2 = bytes ".." then line.drop 1 else line

/-- A round of the loops that read a message. -/
def messageRound (state : List Byte × List Byte × Client) : (Ending × Client) ⊕ (List Byte × List Byte × Client) :=
  match fgets state.1 state.2.2 with
  | .inl ending => .inl ending
  | .inr (iobuf, client) =>
      let line := cstr iobuf
      if isEnd line then .inl (.returned, { client with r := .str state.2.1 })
      else
        let text := state.2.1 ++ unstuffed line
        if line = bytes "." then .inl (.returned, { client with r := .str text })
        else .inr (iobuf, text, client)

/-- `libnsp_net_pop3_client_top`. -/
def clientTop (msg lines : Option UInt16) (fuel : Nat) (iobuf : List Byte) (client : Client) :
    Option (Ending × Client) :=
  match msg with
  | some msg =>
      match command [.text (bytes "TOP "), .arg (natDigits msg.toNat), .text (bytes " "),
        .arg (natDigits (lines.getD 0).toNat), .text (bytes "\r\n")] iobuf client with
      | .inl ending => some ending
      | .inr (iobuf, client) => rounds messageRound fuel (iobuf, [], client)
  | none => some (.error (bytes "expected a number for msg"), client)

/-- `libnsp_net_pop3_client_retr`. -/
def clientRetr (msg : Option UInt16) (fuel : Nat) (iobuf : List Byte) (client : Client) : Option (Ending × Client) :=
  match msg with
  | some msg =>
      match command [.text (bytes "RETR "), .arg (natDigits msg.toNat), .text (bytes "\r\n")] iobuf client with
      | .inl ending => some ending
      | .inr (iobuf, client) => rounds messageRound fuel (iobuf, [], client)
  | none => some (.error (bytes "expected a number for msg"), client)

/-- `libnsp_net_pop3_client_dele`. -/
def clientDele (msg : Option UInt16) (iobuf : List Byte) (client : Client) : Ending × Client :=
  match msg with
  | some msg =>
      match command [.text (bytes "DELE "), .arg (natDigits msg.toNat), .text (bytes "\r\n")] iobuf client with
      | .inl ending => ending
      | .inr (iobuf, client) => (.returned, { client with r := .num (atoi (cstr (nextWord iobuf))) })
  | none => (.error (bytes "expected a number for msg"), client)

/-! ### What is read -/

section

variable {client : Client} {iobuf line p e : List Byte} {ps rest : List (List Byte)}

/-- The line is what is in the buffer, up to its first zero. -/
theorem cstr_stored (line iobuf : List Byte) : cstr (stored line iobuf) = cstr line := cstr_append_zero line _

/-- A piece that others follow is whole. -/
theorem whole_of_pieces {l : List Byte} (h : pieces isNl 1023 l = p :: ps) (hps : ps ≠ []) :
    whole isNl 1023 p = true := by
  have hne : l ≠ [] := by
    rintro rfl
    exact nomatch h
  rw [pieces_eq (by decide) hne] at h
  obtain ⟨rfl, hrest⟩ := List.cons.inj h
  by_contra hwhole
  have hself := (piece_eq_self (Bool.eq_false_iff.mpr hwhole)).1
  rw [hself, List.drop_length, pieces_nil] at hrest
  exact hps hrest.symm

/-- The first piece is read, if it is whole. -/
theorem fgets_piece (iobuf : List Byte) (hsound : client.socket.Sound)
    (hpieces : pieces isNl 1023 client.socket.pending = p :: ps) (hwhole : whole isNl 1023 p = true) :
    ∃ socket', socket'.Sound ∧ pieces isNl 1023 socket'.pending = ps ∧
      fgets iobuf client = .inr (stored p iobuf, { client with socket := socket' }) := by
  obtain ⟨socket', hsound', -, -, hpending, hrun⟩ := tcpFgets_run (show 0 < 1023 by decide) hsound
  have hne : client.socket.pending ≠ [] := by
    intro hnil
    rw [hnil] at hpieces
    exact nomatch hpieces
  rw [pieces_eq (by decide) hne] at hpieces
  obtain ⟨hp, hps⟩ := List.cons.inj hpieces
  rw [hp] at hpending hrun hps
  have hdrop : client.socket.pending.drop p.length = socket'.pending := by rw [hpending, List.drop_left]
  rw [hdrop] at hps
  refine ⟨socket', hsound', hps, ?_⟩
  rw [hwhole, Bool.not_true, Bool.false_and] at hrun
  rw [fgets, hrun]
  rfl

/-! ### The message of a server -/

/-- A line of a message as it is sent. -/
def stuffedLine (line : List Byte) : List Byte :=
  (if line.head? = some (ch '.') then ch '.' :: line else line) ++ bytes "\r\n"

/-- An answer with a message. -/
def answer (status : List Byte) (lines : List (List Byte)) : List Byte :=
  bytes "+OK" ++ status ++ bytes "\r\n" ++ lines.flatMap stuffedLine ++ bytes ".\r\n"

/-- No piece of the line but its first one starts with two dots or is a line with a dot. -/
def Clear (line : List Byte) : Prop :=
  ∀ p ∈ (pieces isNl 1023 (stuffedLine line)).tail, p.take 2 ≠ bytes ".." ∧ isEnd p = false

instance (line : List Byte) : Decidable (Clear line) := inferInstanceAs (Decidable (∀ p ∈ _, _))

/-- The message is read up to the first line with a dot. -/
theorem messageRounds_run (iobuf text : List Byte) (hsound : client.socket.Sound)
    (hpieces : pieces isNl 1023 client.socket.pending = ps ++ e :: rest) (hps : ∀ p ∈ ps, isEnd p = false)
    (he : isEnd e = true) (hzero : ∀ p ∈ ps, 0 ∉ p) :
    ∃ client' : Client, (∀ r, HaltsWith messageRound (iobuf, text, client) r ↔ r = (.returned, client')) ∧
      client'.r = .str (text ++ ps.flatMap unstuffed) ∧ pieces isNl 1023 client'.socket.pending = rest := by
  induction ps generalizing iobuf text client with
  | nil =>
      have hcases : e = bytes ".\r\n" ∨ e = bytes ".\n" := by simpa [isEnd] using he
      have hwhole : whole isNl 1023 e = true := by rcases hcases with rfl | rfl <;> decide
      have hcstr : cstr e = e := by rcases hcases with rfl | rfl <;> decide
      obtain ⟨socket', -, hrest, hrun⟩ := fgets_piece iobuf hsound hpieces hwhole
      have hround : messageRound (iobuf, text, client) =
          .inl (.returned, { client with socket := socket', r := .str text }) := by
        simp [messageRound, hrun, cstr_stored, hcstr, he]
      exact ⟨_, fun r => haltsWith_of_end hround, by simp, hrest⟩
  | cons p ps ih =>
      have hwhole : whole isNl 1023 p = true := whole_of_pieces hpieces (by simp)
      have hcstr : cstr p = p := cstr_eq (hzero p List.mem_cons_self)
      have hp : isEnd p = false := hps p List.mem_cons_self
      have hne : p ≠ bytes "." := by
        rintro rfl
        exact absurd hwhole (by decide)
      obtain ⟨socket', hsound', hrest, hrun⟩ := fgets_piece iobuf hsound hpieces hwhole
      have hround : messageRound (iobuf, text, client) =
          .inr (stored p iobuf, text ++ unstuffed p, { client with socket := socket' }) := by
        simp [messageRound, hrun, cstr_stored, hcstr, hp, hne]
      have hread : ({ client with socket := socket' } : Client).socket.Sound := hsound'
      obtain ⟨client', hhalts, hr, hleft⟩ := ih (stored p iobuf) (text ++ unstuffed p) hread hrest
        (fun q hq => hps q (List.mem_cons_of_mem p hq)) (fun q hq => hzero q (List.mem_cons_of_mem p hq))
      refine ⟨client', fun r => (haltsWith_of_next hround).trans (hhalts r), ?_, hleft⟩
      rw [hr, List.flatMap_cons, List.append_assoc]

theorem unstuffed_length_le (p : List Byte) : (unstuffed p).length ≤ p.length := by
  unfold unstuffed
  split
  · simp
  · exact Nat.le_refl _

/-- The text of a piece is as long as the piece if it does not start with two dots. -/
theorem unstuffed_length_eq_iff : (unstuffed p).length = p.length ↔ p.take 2 ≠ bytes ".." := by
  unfold unstuffed
  by_cases h : p.take 2 = bytes ".."
  · have hpos : 0 < p.length := by
      have hlength := congrArg List.length h
      simp only [List.length_take, bytes] at hlength
      simp at hlength
      omega
    rw [if_pos h, List.length_drop]
    exact ⟨fun heq => absurd heq (by omega), fun hne => absurd h hne⟩
  · rw [if_neg h]
    exact ⟨fun _ => h, fun _ => rfl⟩

/-- A piece that does not start with a dot is taken as it is. -/
theorem undotted (h : p.head? ≠ some (ch '.')) : unstuffed p = p ∧ isEnd p = false := by
  constructor
  · refine if_neg fun hdots => h ?_
    cases p with
    | nil => exact nomatch hdots
    | cons c p =>
        rw [List.take_succ_cons] at hdots
        exact congrArg some (List.cons.inj hdots).1
  · rw [isEnd, Bool.or_eq_false_iff, beq_eq_false_iff_ne, beq_eq_false_iff_ne]
    exact ⟨fun heq => h (heq ▸ rfl), fun heq => h (heq ▸ rfl)⟩

/-- The first piece of a line that is sent is not taken for the end, and only its dot is removed. -/
theorem stuffedLine_pieces (line : List Byte) :
    ∃ p ps, pieces isNl 1023 (stuffedLine line) = p :: ps ∧ isEnd p = false ∧
      unstuffed p ++ ps.flatten = line ++ bytes "\r\n" := by
  have hne : stuffedLine line ≠ [] := by simp [stuffedLine, bytes]
  refine ⟨_, _, pieces_eq (by decide) hne, ?_⟩
  have hflat : ∀ k, (pieces isNl 1023 ((stuffedLine line).drop k)).flatten = (stuffedLine line).drop k :=
    fun k => pieces_flatten (by decide) _
  rw [hflat]
  have happend := piece_append_drop (S := isNl) 1023 (stuffedLine line)
  by_cases hdot : line.head? = some (ch '.')
  · obtain ⟨line, rfl⟩ : ∃ l, line = ch '.' :: l := by
      cases line with
      | nil => exact nomatch hdot
      | cons c l => exact ⟨l, congrArg (· :: l) (Option.some.inj hdot)⟩
    have hstuffed : stuffedLine (ch '.' :: line) = ch '.' :: ch '.' :: (line ++ bytes "\r\n") := by
      rw [stuffedLine, if_pos hdot]
      rfl
    rw [hstuffed] at happend ⊢
    have hpiece : piece isNl 1023 (ch '.' :: ch '.' :: (line ++ bytes "\r\n")) =
        ch '.' :: ch '.' :: piece isNl 1021 (line ++ bytes "\r\n") := by
      rw [piece_of_go _ _ (by decide), piece_of_go _ _ (by decide)]
    rw [hpiece] at happend ⊢
    refine ⟨?_, ?_⟩
    · rw [isEnd, Bool.or_eq_false_iff, beq_eq_false_iff_ne, beq_eq_false_iff_ne]
      refine ⟨fun heq => ?_, fun heq => ?_⟩
      · exact absurd (List.cons.inj (List.cons.inj heq).2).1 (by decide)
      · exact absurd (List.cons.inj (List.cons.inj heq).2).1 (by decide)
    · exact (List.cons.inj happend).2
  · have hstuffed : stuffedLine line = line ++ bytes "\r\n" := by rw [stuffedLine, if_neg hdot]
    have hhead : (piece isNl 1023 (stuffedLine line)).head? ≠ some (ch '.') := by
      have hfirst : (stuffedLine line).head? ≠ some (ch '.') := by
        rw [hstuffed]
        cases line with
        | nil => decide
        | cons c l => exact hdot
      have hpne := piece_ne_nil (S := isNl) (n := 1023) (by decide) hne
      obtain ⟨c, q, hq⟩ := List.exists_cons_of_ne_nil hpne
      rw [hq] at happend ⊢
      rw [← happend] at hfirst
      exact hfirst
    obtain ⟨hsame, hend⟩ := undotted hhead
    exact ⟨hend, by rw [hsame, happend, hstuffed]⟩

/-- The text of the pieces is not longer than the line. -/
theorem unstuffed_line_le (line : List Byte) :
    ((pieces isNl 1023 (stuffedLine line)).flatMap unstuffed).length ≤ (line ++ bytes "\r\n").length := by
  obtain ⟨p, ps, hpieces, -, htext⟩ := stuffedLine_pieces line
  have hshort := length_flatMap_le (f := unstuffed) (g := id) (l := ps) fun q _ => unstuffed_length_le q
  rw [List.flatMap_id] at hshort
  rw [hpieces, List.flatMap_cons, ← htext, List.length_append, List.length_append]
  exact Nat.add_le_add_left hshort _

/-- A clear line is read as it is. -/
theorem Clear.text {line : List Byte} (h : Clear line) :
    (∀ p ∈ pieces isNl 1023 (stuffedLine line), isEnd p = false) ∧
      (pieces isNl 1023 (stuffedLine line)).flatMap unstuffed = line ++ bytes "\r\n" := by
  obtain ⟨p, ps, hpieces, hp, htext⟩ := stuffedLine_pieces line
  rw [Clear, hpieces, List.tail_cons] at h
  have hsame : ps.flatMap unstuffed = ps.flatten := by
    rw [← List.flatMap_id]
    exact List.flatMap_congr fun q hq => if_neg (h q hq).1
  rw [hpieces, List.flatMap_cons, hsame]
  exact ⟨fun q hq => (List.mem_cons.mp hq).elim (fun heq => heq ▸ hp) fun hq => (h q hq).2, htext⟩

/-- A line that is not taken for the end is clear if it loses nothing. -/
theorem clear_of_length {line : List Byte} (hends : ∀ p ∈ pieces isNl 1023 (stuffedLine line), isEnd p = false)
    (hlength : ((pieces isNl 1023 (stuffedLine line)).flatMap unstuffed).length = (line ++ bytes "\r\n").length) :
    Clear line := by
  obtain ⟨p, ps, hpieces, -, htext⟩ := stuffedLine_pieces line
  rw [hpieces, List.flatMap_cons, ← htext, List.length_append, List.length_append, ← List.flatMap_id] at hlength
  rw [Clear, hpieces, List.tail_cons]
  intro q hq
  have hsame := length_flatMap_eq (f := unstuffed) (g := id) (fun q _ => unstuffed_length_le q)
    (Nat.add_left_cancel hlength) q hq
  exact ⟨unstuffed_length_eq_iff.mp hsame, hends q (hpieces ▸ List.mem_cons_of_mem p hq)⟩

theorem stuffedLine_ended (line : List Byte) : ended isNl (stuffedLine line) = true := by
  rw [stuffedLine, ended_append (by decide)]
  rfl

/-- The pieces of the answer behind its first line. -/
theorem message_pieces (lines : List (List Byte)) (r : List Byte) :
    pieces isNl 1023 (lines.flatMap stuffedLine ++ bytes ".\r\n" ++ r) =
      lines.flatMap (fun line => pieces isNl 1023 (stuffedLine line)) ++ bytes ".\r\n" :: pieces isNl 1023 r := by
  induction lines with
  | nil =>
      rw [List.flatMap_nil, List.flatMap_nil, List.nil_append, pieces_append (by decide) (.inr rfl)]
      rfl
  | cons line lines ih =>
      rw [List.flatMap_cons, List.append_assoc, List.append_assoc, ← List.append_assoc _ _ r,
        pieces_append (by decide) (.inr (stuffedLine_ended line)), ih, List.flatMap_cons, List.append_assoc]

/-! ### Commands -/

theorem cstr_begins (l : List Byte) : cstr l <+: l := List.takeWhile_prefix _

theorem isOk_of_begins {s l : List Byte} (h : s <+: l) (hs : isOk s = true) : isOk l = true := by
  obtain ⟨r, rfl⟩ := h
  rw [isOk, beq_iff_eq] at hs ⊢
  have hlen : 3 ≤ s.length := by
    have hlength : min 3 s.length = 3 := (List.length_take ..).symm.trans (congrArg List.length hs)
    omega
  rw [List.take_append_of_le_length hlen, hs]

/-- A line that starts with `+OK`. -/
theorem exists_of_isOk {l : List Byte} (h : isOk l = true) : ∃ r, l = bytes "+OK" ++ r := by
  refine ⟨l.drop 3, ?_⟩
  rw [isOk, beq_iff_eq] at h
  rw [← h, List.take_append_drop]

theorem isOk_append (r : List Byte) : isOk (bytes "+OK" ++ r) = true := rfl

theorem isOk_cstr (l : List Byte) : isOk (cstr l) = isOk l := by
  rw [Bool.eq_iff_iff]
  refine ⟨isOk_of_begins (cstr_begins l), fun h => ?_⟩
  obtain ⟨r, rfl⟩ := exists_of_isOk h
  rfl

theorem isOk_striprn (l : List Byte) : isOk (striprn l) = isOk l := by
  rw [Bool.eq_iff_iff]
  refine ⟨isOk_of_begins (striprn_begins l), fun h => ?_⟩
  obtain ⟨r, rfl⟩ := exists_of_isOk h
  unfold striprn
  rw [List.reverse_append, List.dropWhile_append]
  split
  · rfl
  · rw [List.reverse_append, List.reverse_reverse]
    exact isOk_append _

theorem cstr_stripped (iobuf : List Byte) : cstr (stripped iobuf) = striprn (cstr iobuf) := by
  have hzero : 0 ∉ striprn (cstr iobuf) := fun h => zero_notMem_cstr iobuf ((striprn_begins _).subset h)
  have hle : (striprn (cstr iobuf)).length ≤ (cstr iobuf).length := (striprn_begins _).length_le
  rw [stripped]
  rcases Nat.lt_or_ge (striprn (cstr iobuf)).length (cstr iobuf).length with hlt | hge
  · obtain ⟨k, hk⟩ := Nat.exists_eq_succ_of_ne_zero (Nat.sub_ne_zero_of_lt hlt)
    rw [hk, List.replicate_succ, List.append_assoc, List.cons_append, cstr_append_zero, cstr_eq hzero]
  · have hsame : striprn (cstr iobuf) = cstr iobuf :=
      (striprn_begins _).eq_of_length (Nat.le_antisymm hle hge)
    rw [hsame, Nat.sub_self, List.replicate_zero, List.append_nil,
      List.prefix_iff_eq_append.mp (cstr_begins iobuf)]

/-- Whether an answer is taken for `+OK` is seen from the line that was read. -/
theorem isOk_stripped (line iobuf : List Byte) : isOk (stripped (stored line iobuf)) = isOk line := by
  rw [← isOk_cstr, cstr_stripped, isOk_striprn, cstr_stored, isOk_cstr]

theorem natDigits_uint16 (n : UInt16) : (natDigits n.toNat).length ≤ 5 := by
  have hlt := n.toNat_lt
  unfold natDigits
  rw [List.length_map, Nat.length_toDigits_le_iff (by decide) (by decide)]
  omega

/-- A command that is answered with `+OK`. -/
theorem command_ok (iobuf : List Byte) {format : List Conv} {s : List Byte} (hs : 2 ≤ s.length)
    (hfits : Fits (format ++ [.text s])) (hsound : client.socket.Sound)
    (hpieces : pieces isNl 1023 client.socket.pending = p :: ps)
    (hwhole : whole isNl 1023 p = true) (hok : isOk p = true) :
    ∃ client' : Client, client'.socket.Sound ∧ pieces isNl 1023 client'.socket.pending = ps ∧
      command (format ++ [.text s]) iobuf client = .inr (stripped (stored p iobuf), client') := by
  rcases tcpFprintf_line format client.socket hs with ⟨-, out, hsent⟩ | ⟨hlong, -⟩
  · have hsound' : ({ client with socket := client.socket.withOut out } : Client).socket.Sound := hsound
    obtain ⟨socket', hread, hrest, hrun⟩ := fgets_piece iobuf hsound' hpieces hwhole
    exact ⟨{ client with socket := socket' }, hread, hrest, by simp [command, hsent, hrun, isOk_stripped, hok]⟩
  · exact absurd hfits hlong

/-! ### What `retr` and `top` return -/

/-- The call returns the message, and what is read next follows its end. -/
def Recovers (call : Nat → List Byte → Client → Option (Ending × Client)) (iobuf : List Byte) (client : Client)
    (lines : List (List Byte)) (r : List Byte) : Prop :=
  ∃ fuel client', call fuel iobuf client = some (.returned, client') ∧
    client'.r = .str (lines.flatMap (· ++ bytes "\r\n")) ∧ client'.socket.pending = r

/-- A loop that reads a message recovers it if all its lines are clear, and only then. -/
theorem messageRounds_recover_iff (iobuf : List Byte) {lines : List (List Byte)} {r : List Byte}
    (hsound : client.socket.Sound) (hzero : ∀ line ∈ lines, 0 ∉ line)
    (hpieces : pieces isNl 1023 client.socket.pending =
      pieces isNl 1023 (lines.flatMap stuffedLine ++ bytes ".\r\n" ++ r)) :
    Recovers (fun fuel iobuf client => rounds messageRound fuel (iobuf, [], client)) iobuf client lines r ↔
      ∀ line ∈ lines, Clear line := by
  rw [message_pieces] at hpieces
  have hfree : ∀ line ∈ lines, ∀ p ∈ pieces isNl 1023 (stuffedLine line), 0 ∉ p := by
    intro line hline p hp h
    have hmem : 0 ∈ stuffedLine line := by
      rw [← pieces_flatten (S := isNl) (M := 1023) (by decide) (stuffedLine line)]
      exact List.mem_flatten_of_mem hp h
    rw [stuffedLine, List.mem_append] at hmem
    rcases hmem with hmem | hmem
    · split at hmem
      · exact (List.mem_cons.mp hmem).elim (by decide) (hzero line hline)
      · exact hzero line hline hmem
    · exact absurd hmem (by decide)
  have hfree' : ∀ p ∈ lines.flatMap (fun line => pieces isNl 1023 (stuffedLine line)) ++ [bytes ".\r\n"], 0 ∉ p := by
    intro p hp
    rcases List.mem_append.mp hp with hp | hp
    · obtain ⟨line, hline, hp⟩ := List.mem_flatMap.mp hp
      exact hfree line hline p hp
    · rw [List.mem_singleton.mp hp]
      decide
  constructor
  · rintro ⟨fuel, client', hrun, hr, hpending⟩
    -- the loop ends with the first piece that is taken for the end
    obtain ⟨e, hfirst⟩ : ∃ e, (lines.flatMap (fun line => pieces isNl 1023 (stuffedLine line)) ++
        [bytes ".\r\n"]).find? isEnd = some e := by
      rw [← Option.isSome_iff_exists, List.find?_isSome]
      exact ⟨_, List.mem_concat_self, rfl⟩
    obtain ⟨he, ps, rest, hsplit, hps⟩ := List.find?_eq_some_iff_append.mp hfirst
    rw [List.append_cons, hsplit, List.append_assoc, List.cons_append] at hpieces
    obtain ⟨client'', hhalts, htext, hleft⟩ := messageRounds_run iobuf [] hsound hpieces
      (fun p hp => by simpa using hps p hp) he fun p hp => hfree' p (hsplit ▸ List.mem_append_left _ hp)
    obtain rfl : client' = client'' := congrArg Prod.snd ((hhalts _).mp ⟨fuel, hrun⟩)
    -- it is the last one, because what follows it is left
    obtain rfl : rest = [] := by
      rw [hpending] at hleft
      exact List.append_left_eq_self.mp hleft.symm
    obtain ⟨hall, -⟩ := List.append_inj' hsplit rfl
    rw [hr, List.nil_append, ← hall, List.flatMap_assoc] at htext
    have hsame := length_flatMap_eq (fun line _ => unstuffed_line_le line)
      (congrArg List.length (Reply.str.inj htext).symm)
    refine fun line hline => clear_of_length (fun p hp => ?_) (hsame line hline)
    have hmem : p ∈ ps := hall ▸ List.mem_flatMap.mpr ⟨line, hline, hp⟩
    simpa using hps p hmem
  · intro hclear
    have hps : ∀ p ∈ lines.flatMap (fun line => pieces isNl 1023 (stuffedLine line)), isEnd p = false := by
      intro p hp
      obtain ⟨line, hline, hp⟩ := List.mem_flatMap.mp hp
      exact (hclear line hline).text.1 p hp
    obtain ⟨client', hhalts, htext, hleft⟩ := messageRounds_run iobuf [] hsound hpieces hps rfl
      fun p hp => hfree' p (List.mem_append_left _ hp)
    obtain ⟨fuel, hrun⟩ := (hhalts _).mpr rfl
    refine ⟨fuel, client', hrun, ?_, ?_⟩
    · rw [htext, List.nil_append, List.flatMap_assoc]
      exact congrArg Reply.str (List.flatMap_congr fun line hline => (hclear line hline).text.2)
    · rw [← pieces_flatten (S := isNl) (M := 1023) (by decide) client'.socket.pending, hleft,
        pieces_flatten (by decide)]

/-- The first line of an answer is read as a whole. -/
theorem answer_pieces {status : List Byte} (hstatus : Free isNl status) (hshort : status.length ≤ 1018)
    (lines : List (List Byte)) (r : List Byte) :
    pieces isNl 1023 (answer status lines ++ r) = (bytes "+OK" ++ status ++ bytes "\r\n") ::
      pieces isNl 1023 (lines.flatMap stuffedLine ++ bytes ".\r\n" ++ r) := by
  have hline : bytes "+OK" ++ status ++ bytes "\r\n" = (bytes "+OK" ++ status ++ [ch '\r']) ++ [ch '\n'] := by
    rw [List.append_assoc _ [ch '\r']]
    rfl
  have hfree : Free isNl (bytes "+OK" ++ status ++ [ch '\r']) :=
    ((show Free isNl (bytes "+OK") by decide).append hstatus).append (by decide)
  have hlen : (bytes "+OK" ++ status ++ [ch '\r']).length < 1023 := by
    have hplus : (bytes "+OK").length = 3 := rfl
    simp only [List.length_append, List.length_singleton, hplus]
    omega
  have hends : ended isNl (bytes "+OK" ++ status ++ bytes "\r\n") = true := ended_append (by decide)
  rw [answer, List.append_assoc, List.append_assoc, pieces_append (by decide) (.inr hends), hline,
    pieces_of_short hfree rfl hlen, List.append_assoc _ (bytes ".\r\n")]
  rfl

/-- A command that is answered with a message. -/
theorem command_recovers_iff (iobuf : List Byte) (format : List Conv) {s status : List Byte}
    {lines : List (List Byte)} {r : List Byte} (hs : 2 ≤ s.length) (hfits : Fits (format ++ [.text s])) (hsound : client.socket.Sound)
    (hstatus : Free isNl status) (hshort : status.length ≤ 1018) (hzero : ∀ line ∈ lines, 0 ∉ line)
    (hpending : client.socket.pending = answer status lines ++ r) :
    Recovers (fun fuel iobuf client =>
      match command (format ++ [.text s]) iobuf client with
      | .inl ending => some ending
      | .inr (iobuf, client) => rounds messageRound fuel (iobuf, [], client)) iobuf client lines r ↔
      ∀ line ∈ lines, Clear line := by
  have hpieces := answer_pieces hstatus hshort lines r
  rw [← hpending] at hpieces
  have hends : ended isNl (bytes "+OK" ++ status ++ bytes "\r\n") = true := ended_append (by decide)
  have hwhole : whole isNl 1023 (bytes "+OK" ++ status ++ bytes "\r\n") = true := by
    rw [whole, hends, Bool.or_true]
  obtain ⟨client', hsound', hpieces', hrun⟩ := command_ok iobuf hs hfits hsound hpieces hwhole rfl
  rw [← messageRounds_recover_iff (stripped (stored (bytes "+OK" ++ status ++ bytes "\r\n") iobuf)) hsound'
    hzero hpieces', Recovers, Recovers]
  simp only [hrun]

/-- `retr` and `top` recover a message, whatever packets the answer comes in, if no line of it is cut where a piece
starts that is taken for the end or for a stuffed line. -/
theorem clientRetr_recovers_iff (msg : UInt16) (n : Option UInt16) {status : List Byte} {lines : List (List Byte)}
    {r : List Byte} (hsound : client.socket.Sound) (hstatus : Free isNl status) (hshort : status.length ≤ 1018)
    (hzero : ∀ line ∈ lines, 0 ∉ line) (hpending : client.socket.pending = answer status lines ++ r) :
    (Recovers (clientRetr (some msg)) iobuf client lines r ↔ ∀ line ∈ lines, Clear line) ∧
      (Recovers (clientTop (some msg) n) iobuf client lines r ↔ ∀ line ∈ lines, Clear line) := by
  have hmsg := natDigits_uint16 msg
  have hn := natDigits_uint16 (n.getD 0)
  constructor
  · refine command_recovers_iff iobuf [.text (bytes "RETR "), .arg (natDigits msg.toNat)] (by decide) ?_ hsound
      hstatus hshort hzero hpending
    simp [Fits, Conv.printed, bytes]
    omega
  · refine command_recovers_iff iobuf [.text (bytes "TOP "), .arg (natDigits msg.toNat), .text (bytes " "),
      .arg (natDigits (n.getD 0).toNat)] (by decide) ?_ hsound hstatus hshort hzero hpending
    simp [Fits, Conv.printed, bytes]
    omega

/-- A line that is cut before a last dot is not clear. -/
theorem not_clear_of_cut {line : List Byte} (hfree : Free isNl line) (hlen : line.length = 1023)
    (hhead : line.head? ≠ some (ch '.')) : ¬ Clear (line ++ bytes ".") := by
  intro hclear
  have hne : line ≠ [] := by
    rintro rfl
    exact nomatch hlen
  have hstuffed : stuffedLine (line ++ bytes ".") = line ++ bytes ".\r\n" := by
    rw [stuffedLine, if_neg (by rwa [List.head?_append_of_ne_nil _ hne]), List.append_assoc]
    rfl
  have hpieces : pieces isNl 1023 (line ++ bytes ".\r\n") = [line, bytes ".\r\n"] := by
    rw [pieces_eq (by decide) (List.append_ne_nil_of_left_ne_nil hne _), piece_of_length hfree hlen, List.drop_left]
    rfl
  rw [Clear, hstuffed, hpieces] at hclear
  exact absurd (hclear _ List.mem_cons_self).2 (by decide)

end

/-- A message of one line. -/
theorem clientRetr_recovers_hi :
    Recovers (clientRetr (some 1)) [] { socket := connected [bytes "+OK\r\nh", bytes "i\r\n.\r", bytes "\n"] }
      [bytes "hi"] [] ∧
    Recovers (clientTop (some 1) none) [] { socket := connected [bytes "+OK\r\nh", bytes "i\r\n.\r", bytes "\n"] }
      [bytes "hi"] [] := by
  have hclear : ∀ line ∈ [bytes "hi"], Clear line := by decide
  let client : Client := { socket := connected [bytes "+OK\r\nh", bytes "i\r\n.\r", bytes "\n"] }
  have hsound : client.socket.Sound := connected_sound _
  have hstatus : ([] : List Byte).length ≤ 1018 := by decide
  have hzero : ∀ line ∈ [bytes "hi"], 0 ∉ line := by decide
  have hpending : client.socket.pending = answer [] [bytes "hi"] ++ [] := rfl
  have h := @clientRetr_recovers_iff client [] 1 none [] [bytes "hi"] [] hsound free_nil hstatus hzero hpending
  exact ⟨h.1.mpr hclear, h.2.mpr hclear⟩

/-- A line of 1023 bytes before its last dot: the message ends there. -/
theorem not_recovers_cut : ¬ Recovers (clientRetr (some 1)) []
    { socket := connected [answer [] [List.replicate 1023 (ch 'a') ++ bytes "."]] }
    [List.replicate 1023 (ch 'a') ++ bytes "."] [] := by
  have hfree : Free isNl (List.replicate 1023 (ch 'a')) := fun c hc => (List.eq_of_mem_replicate hc) ▸ rfl
  have hzero : ∀ line ∈ [List.replicate 1023 (ch 'a') ++ bytes "."], (0 : Byte) ∉ line := by
    intro line hline h
    rw [List.mem_singleton.mp hline, List.mem_append] at h
    rcases h with h | h
    · exact absurd (List.eq_of_mem_replicate h) (by decide)
    · exact absurd h (by decide)
  let client : Client := { socket := connected [answer [] [List.replicate 1023 (ch 'a') ++ bytes "."]] }
  have hsound : client.socket.Sound := connected_sound _
  have hpending : client.socket.pending = answer [] [List.replicate 1023 (ch 'a') ++ bytes "."] ++ [] := by
    rw [connected_pending, List.flatten_singleton, List.append_nil]
  have hrecovers := command_recovers_iff [] [.text (bytes "RETR "), .arg (natDigits 1)]
    (s := bytes "\r\n") (by decide) (by decide) hsound free_nil (by decide) hzero hpending
  intro h
  exact not_clear_of_cut hfree List.length_replicate (by decide) (hrecovers.mp h _ List.mem_cons_self)

end NullG.Libs.Pop3
