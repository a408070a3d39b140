/-
The SMTP client (`libs/net/smtp.c`).

The header lines go through `tcp_fprintf`, the body is sent as it is: no dot is put before a line that starts with one.
So the server gets the message that was given only if none of its lines does (`delivers_iff`).
-/

import NullG.Lib.Lengths
import NullG.Lib.Rounds
import NullG.Lib.Separated
import NullG.Libs.Tcp
import NullG.Mail.Lines

namespace NullG.Libs.Smtp

open NullG.Nsp NullG.Lib NullG.Mail

/-! ### Attachments -/

/-- `b64chars`. -/
def b64chars : List Byte := bytes "ABCDEFGHIJKLMNOPQRSTUVWXYZabcdefghijklmnopqrstuvwxyz0123456789+/"

def b64char (n : Byte) : Byte := b64chars.getD n.toNat 0

/-- The lines that `_base64_encode_send` prints, where `dest` is the first part of the next one. -/
def base64From (dest : List Byte) : List Byte → List (List Byte)
  | c0 :: c1 :: c2 :: cp =>
      let a : Byte := c0 >>> 2
      let b : Byte := ((c0 <<< 4) &&& (0x30 : Byte)) ||| (c1 >>> 4)
      let c : Byte := ((c1 <<< 2) &&& (0x3c : Byte)) ||| (c2 >>> 6)
      let d : Byte := c2 &&& 0x3f
      let dest := dest ++ [b64char a, b64char b, b64char c, b64char d]
      if 76 ≤ dest.length then dest :: base64From [] cp else base64From dest cp
  | [c0] =>
      let a : Byte := c0 >>> 2
      let b : Byte := (c0 <<< 4) &&& (0x30 : Byte)
      [dest ++ [b64char a, b64char b, ch '=', ch '=']]
  | [c0, c1] =>
      let a : Byte := c0 >>> 2
      let b : Byte := ((c0 <<< 4) &&& (0x30 : Byte)) ||| (c1 >>> 4)
      let c : Byte := (c1 <<< 2) &&& (0x3c : Byte)
      [dest ++ [b64char a, b64char b, b64char c, ch '=']]
  | [] => [dest]

/-- The lines of `_base64_encode_send`; of an empty string there are none. -/
def base64Lines (file : List Byte) : List (List Byte) := if file = [] then [] else base64From [] file

/-! ### Messages -/

/-- An entry of `this.attachments`. -/
structure Attachment where
  name : List Byte
  file : List Byte

/-- The fields of `this` that `send` reads, and the date. -/
structure Mail where
  sender : List Byte
  rcpt : List Byte
  subject : List Byte
  /-- `contenttype` -/
  ctype : List Byte
  body : List Byte
  msgdate : List Byte
  /-- none if `this.attachments` is no table -/
  attachments : Option (List Attachment) := none

/-- A call of `tcp_fprintf` or `tcp_send`. -/
inductive Write where
  | printf (format : List Conv)
  | send (buffer : List Byte)

/-- What is to be sent by a call. -/
def Write.text : Write → List Byte
  | .printf format => printed format
  | .send buffer => buffer

/-- The calls one after the other. -/
def writeAll : List Write → TcpSocket → Option TcpSocket
  | [], socket => some socket
  | .printf format :: writes, socket =>
      match tcpFprintf format socket with
      | none => none
      | some socket => writeAll writes socket
  | .send buffer :: writes, socket => writeAll writes (tcpSend buffer socket)

/-- `tcp_fprintf` of a line. -/
def line (format : List Conv) (ending : String := "\r\n") : Write := .printf (format ++ [.text (bytes ending)])

/-- `"LAME_MIME_BOUNDARY"`. -/
def boundary : List Byte := bytes "LAME_MIME_BOUNDARY"

/-- The strings as `%s` prints them. -/
def Mail.cstrs (mail : Mail) : Mail :=
  { mail with
    sender := cstr mail.sender
    rcpt := cstr mail.rcpt
    subject := cstr mail.subject
    ctype := cstr mail.ctype
    attachments := mail.attachments.map (·.map fun a => { a with name := cstr a.name }) }

/-- The calls for an attachment. -/
def attachmentWrites (a : Attachment) : List Write :=
  [line [.text (bytes "\r\n--"), .arg boundary],
    line [.text (bytes "Content-Type: application/octet-stream; name=\""), .arg a.name] "\"\r\n",
    line [.text (bytes "Content-Transfer-Encoding: base64")],
    line [.text (bytes "Content-Disposition: attachment; filename=\""), .arg a.name] "\"\r\n\r\n"] ++
  (base64Lines a.file).map fun dest => line [.arg dest]

/-- The calls of `libnsp_net_smtp_client_send` between the answer to `DATA` and the line with a dot. -/
def messageWrites (mail : Mail) : List Write :=
  [line [.text (bytes "From: "), .arg mail.sender],
    line [.text (bytes "To: "), .arg mail.rcpt],
    line [.text (bytes "Date: "), .arg mail.msgdate],
    line [.text (bytes "Subject: "), .arg mail.subject]] ++
  match mail.attachments with
  | some attachments =>
      [line [.text (bytes "Content-Type: multipart/mixed; boundary=\""), .arg boundary] "\"\r\n",
        line [.text (bytes "Mime-Version: 1.0")],
        line [],
        line [.text (bytes "This is MIME data.")] "\r\n\r\n",
        line [.text (bytes "--"), .arg boundary],
        line [.text (bytes "Content-Type: "), .arg mail.ctype] "; charset=utf-8\r\n",
        line [.text (bytes "Content-Transfer-Encoding: 7bit")] "\r\n\r\n",
        .send mail.body] ++
      attachments.flatMap attachmentWrites ++
      [line [.text (bytes "\r\n--"), .arg boundary] "--\r\n", line []]
  | none =>
      [line [.text (bytes "Content-Type: "), .arg mail.ctype],
        line [],
        -- `strlen(body)`
        .send (cstr mail.body),
        line []]

/-- All calls up to the one that ends the data. -/
def dataWrites (mail : Mail) : List Write := messageWrites mail.cstrs ++ [line [.text (bytes ".")]]

/-! ### The dialog -/

/-- The state of a dialog: `tmpbuf`, `starttls` and the socket. -/
structure Dialog where
  tmpbuf : List Byte
  starttls : Bool := false
  socket : TcpSocket

/-- Why there is no answer. -/
inductive Stop where
  /-- the rounds are not enough -/
  | running
  /-- a byte was written behind the buffer of `tcp_fprintf` -/
  | overrun
  /-- `goto err` -/
  | err (dialog : Dialog)

/-- `tcp_fgets(N, &sock, tmpbuf, sizeof(tmpbuf) - 1)`: what it returns. With -1 the line that is not whole is in the
buffer. -/
def fgets (dialog : Dialog) : Int × Dialog :=
  let stored (line : List Byte) : List Byte := line ++ 0 :: dialog.tmpbuf.drop (line.length + 1)
  match tcpFgets 1023 dialog.socket with
  | (none, socket) =>
      let pending := dialog.socket.pending
      (-1, { dialog with tmpbuf := if pending = [] then dialog.tmpbuf else stored pending, socket := socket })
  | (some line, socket) => (line.length, { dialog with tmpbuf := stored line, socket := socket })

/-- `strstr(tmpbuf, "STARTTLS") != NULL`. -/
def offersStarttls (tmpbuf : List Byte) : Bool := (cstr tmpbuf).tails.any ((bytes "STARTTLS").isPrefixOf ·)

/-- A round of a loop that reads an answer. -/
def replyRound (ehlo : Bool) (dialog : Dialog) : (Int × Dialog) ⊕ Dialog :=
  let (rc, dialog) := fgets dialog
  let dialog := if ehlo && offersStarttls dialog.tmpbuf then { dialog with starttls := true } else dialog
  if 0 < rc && dialog.tmpbuf.getD 3 0 != ch ' ' && dialog.tmpbuf.getD 3 0 != 0 then .inr dialog else .inl (rc, dialog)

/-- `tcp_fprintf`. -/
def fprintf (format : List Conv) (dialog : Dialog) : Except Stop Dialog :=
  match tcpFprintf format dialog.socket with
  | none => .error .overrun
  | some socket => .ok { dialog with socket := socket }

/-- An answer, which has to start with `code`; `check` says whether `rc` is looked at. -/
def expect (fuel : Nat) (code : String) (check ehlo : Bool) (dialog : Dialog) : Except Stop Dialog :=
  match rounds (replyRound ehlo) fuel dialog with
  | none => .error .running
  | some (rc, dialog) =>
      if check && rc < 0 || dialog.tmpbuf.take 3 != bytes code then .error (.err dialog) else .ok dialog

/-- `EHLO`. -/
def helo (fuel : Nat) (localAddr : List Byte) (dialog : Dialog) : Except Stop Dialog := do
  let dialog ← fprintf [.text (bytes "EHLO <"), .arg localAddr, .text (bytes ">\r\n")] dialog
  expect fuel "250" true true dialog

/-- `libnsp_net_smtp_client_send` up to the answer to `DATA`; `tlsConnect` says whether `_tls_connect` returns 0. -/
def opening (fuel : Nat) (haveTls tlsConnect : Bool) (localAddr : List Byte) (mail : Mail) (dialog : Dialog) :
    Except Stop Dialog := do
  let dialog ← expect fuel "220" false false dialog
  let dialog ← helo fuel localAddr dialog
  let dialog ←
    if haveTls && dialog.starttls && !dialog.socket.useTls then do
      let dialog ← fprintf [.text (bytes "STARTTLS\r\n")] dialog
      let dialog ← expect fuel "220" false false dialog
      let dialog := { dialog with socket := { dialog.socket with useTls := true } }
      if tlsConnect then helo fuel localAddr dialog else .error (.err dialog)
    else .ok dialog
  let dialog ← fprintf [.text (bytes "MAIL FROM: <"), .arg mail.cstrs.sender, .text (bytes ">\r\n")] dialog
  let dialog ← expect fuel "250" true false dialog
  let dialog ← fprintf [.text (bytes "RCPT TO: <"), .arg mail.cstrs.rcpt, .text (bytes ">\r\n")] dialog
  let dialog ← expect fuel "250" true false dialog
  let dialog ← fprintf [.text (bytes "DATA\r\n")] dialog
  expect fuel "354" true false dialog

/-- What `libnsp_net_smtp_client_send` sends behind the answer to `DATA`, up to the line with a dot. -/
def clientData (mail : Mail) (socket : TcpSocket) : Option TcpSocket := writeAll (dataWrites mail) socket

/-- `libnsp_net_smtp_client_send` on a connection: `N->r`, `this.last_err` and the socket. -/
def clientSend (fuel : Nat) (haveTls tlsConnect : Bool) (localAddr : List Byte) (mail : Mail) (dialog : Dialog) :
    Except Stop (Bool × Option (List Byte) × TcpSocket) :=
  let quit (sent : Bool) (lastErr : Option (List Byte)) (dialog : Dialog) :
      Except Stop (Bool × Option (List Byte) × TcpSocket) := do
    let dialog ← fprintf [.text (bytes "QUIT\r\n")] dialog
    let (_, dialog) := fgets dialog
    let reply := striprn (cstr dialog.tmpbuf)
    .ok (sent, if reply.take 3 != bytes "221" then some reply else lastErr, dialog.socket)
  let err (dialog : Dialog) := quit false (some (striprn (cstr dialog.tmpbuf))) dialog
  match opening fuel haveTls tlsConnect localAddr mail dialog with
  | .error (.err dialog) => err dialog
  | .error stop => .error stop
  | .ok dialog =>
      match clientData mail dialog.socket with
      | none => .error .overrun
      | some socket =>
          let (_, dialog) := fgets { dialog with socket := socket }
          if dialog.tmpbuf.take 3 != bytes "250" then err dialog else quit true none dialog

/-! ### The message that the server gets -/

/-- The lines of a text that are ended by CRLF, and what is behind the last of them. -/
def crlfLines (text : List Byte) : List (List Byte) := separated (ch '\r') (ch '\n') text

/-- A line without the dot that was put before it. -/
def unstuffed (line : List Byte) : List Byte := if line.head? = some (ch '.') then line.tail else line

/-- The server that has read a line with a dot for the first time behind the last byte of the stream has got the
message. -/
def Received (stream message : List Byte) : Prop :=
  ∃ lines, crlfLines stream = lines ++ [bytes ".", []] ∧ bytes "." ∉ lines ∧
    asLines (lines.map unstuffed) = message

/-- The header lines of a message. -/
def headerLines (mail : Mail) : List (List Byte) :=
  [bytes "From: " ++ mail.sender, bytes "To: " ++ mail.rcpt, bytes "Date: " ++ mail.msgdate,
    bytes "Subject: " ++ mail.subject] ++
  match mail.attachments with
  | some _ => [bytes "Content-Type: multipart/mixed; boundary=\"" ++ boundary ++ bytes "\"", bytes "Mime-Version: 1.0"]
  | none => [bytes "Content-Type: " ++ mail.ctype]

/-- An attachment as a part of a message. -/
def part (a : Attachment) : List Byte :=
  asLines [[], bytes "--" ++ boundary, bytes "Content-Type: application/octet-stream; name=\"" ++ a.name ++ bytes "\"",
    bytes "Content-Transfer-Encoding: base64",
    bytes "Content-Disposition: attachment; filename=\"" ++ a.name ++ bytes "\"", []] ++
  asLines (base64Lines a.file)

/-- The body with the attachments. -/
def mailBody (mail : Mail) : List Byte :=
  match mail.attachments with
  | some attachments =>
      asLines [bytes "This is MIME data.", [], bytes "--" ++ boundary,
        bytes "Content-Type: " ++ mail.ctype ++ bytes "; charset=utf-8", bytes "Content-Transfer-Encoding: 7bit", []] ++
      mail.body ++ attachments.flatMap part ++ asLines [[], bytes "--" ++ boundary ++ bytes "--"]
  | none => mail.body

/-- The message: the header lines, an empty line and the body. -/
def message (mail : Mail) : List Byte :=
  asLines (headerLines mail) ++ bytes "\r\n" ++ mailBody mail ++ bytes "\r\n"

/-- The server gets the message. -/
def Delivers (mail : Mail) (socket : TcpSocket) : Prop :=
  ∃ socket' stream, clientData mail socket = some socket' ∧ socket'.out.sent = socket.out.sent ++ stream ∧
    Received stream (message mail)

/-- The strings that are printed have no zeros. -/
structure Mail.ZeroFree (mail : Mail) : Prop where
  sender : 0 ∉ mail.sender
  rcpt : 0 ∉ mail.rcpt
  subject : 0 ∉ mail.subject
  ctype : 0 ∉ mail.ctype
  names : ∀ attachments, mail.attachments = some attachments → ∀ a ∈ attachments, 0 ∉ a.name

/-- Each call of `send` takes what it is given. -/
def Complete (writes : List Write) (takes : List Nat) : Prop :=
  ∀ p ∈ writes.zip takes, p.1.text.length ≤ p.2

instance (writes : List Write) (takes : List Nat) : Decidable (Complete writes takes) :=
  inferInstanceAs (Decidable (∀ p ∈ _, _))

/-- No line of the text starts with a dot. -/
def Undotted (text : List Byte) : Prop := ∀ line ∈ crlfLines text, line.head? ≠ some (ch '.')

instance (text : List Byte) : Decidable (Undotted text) := inferInstanceAs (Decidable (∀ line ∈ _, _))

section

variable {mail : Mail} {socket : TcpSocket} {writes : List Write}

/-! ### What is sent -/

/-- The ends of the formats. -/
theorem bytes_ends : bytes "\"\r\n" = bytes "\"" ++ bytes "\r\n" ∧ bytes "\r\n\r\n" = bytes "\r\n" ++ bytes "\r\n" ∧
    bytes "\"\r\n\r\n" = bytes "\"" ++ (bytes "\r\n" ++ bytes "\r\n") ∧
    bytes "; charset=utf-8\r\n" = bytes "; charset=utf-8" ++ bytes "\r\n" ∧
    bytes "\r\n--" = bytes "\r\n" ++ bytes "--" ∧ bytes "--\r\n" = bytes "--" ++ bytes "\r\n" := by
  refine ⟨?_, ?_, ?_, ?_, ?_, ?_⟩ <;> rfl

theorem attachmentWrites_text (a : Attachment) : (attachmentWrites a).flatMap Write.text = part a := by
  obtain ⟨h1, h2, h3, h4, h5, h6⟩ := bytes_ends
  have hlines : ((base64Lines a.file).map fun dest => line [.arg dest]).flatMap Write.text =
      asLines (base64Lines a.file) := by
    rw [List.flatMap_map]
    exact List.flatMap_congr fun dest _ => by simp [line, Write.text, Conv.printed]
  rw [attachmentWrites, List.flatMap_append, hlines, part]
  simp [line, Write.text, Conv.printed, asLines, h1, h3, h5]

/-- The calls send the message, with the strings up to their first zeros. -/
theorem messageWrites_text (hbody : 0 ∉ mail.body) : (messageWrites mail).flatMap Write.text = message mail := by
  obtain ⟨h1, h2, h3, h4, h5, h6⟩ := bytes_ends
  cases h : mail.attachments with
  | none =>
      simp [messageWrites, message, headerLines, mailBody, h, line, Write.text, Conv.printed, asLines, cstr_eq hbody]
  | some attachments =>
      have hparts : (attachments.flatMap attachmentWrites).flatMap Write.text = attachments.flatMap part := by
        rw [List.flatMap_assoc]
        exact List.flatMap_congr fun a _ => attachmentWrites_text a
      rw [messageWrites, h]
      simp only [List.flatMap_append, hparts]
      simp [message, headerLines, mailBody, h, line, Write.text, Conv.printed, asLines, h1, h2, h4, h5, h6]

theorem cstr_length_le (l : List Byte) : (cstr l).length ≤ l.length := (List.takeWhile_prefix _).length_le

theorem cstr_length_eq {l : List Byte} (h : (cstr l).length = l.length) : 0 ∉ l := by
  have hsame : cstr l = l := (List.takeWhile_prefix _).eq_of_length h
  rw [← hsame]
  exact zero_notMem_cstr l

/-- An attachment as it is printed. -/
def Attachment.cstrs (a : Attachment) : Attachment := { a with name := cstr a.name }

theorem part_cstrs_length (a : Attachment) :
    (part a.cstrs).length + 2 * a.name.length = (part a).length + 2 * (cstr a.name).length := by
  simp only [part, Attachment.cstrs, asLines, List.flatMap_cons, List.length_append]
  omega

theorem part_cstrs_le (a : Attachment) : (part a.cstrs).length ≤ (part a).length := by
  have hlength := part_cstrs_length a
  have hname := cstr_length_le a.name
  omega

/-- What is printed is not longer than the message, and as long only if no string has a zero. -/
theorem message_cstrs_length (mail : Mail) : (message mail.cstrs).length ≤ (message mail).length ∧
    ((message mail.cstrs).length = (message mail).length → mail.ZeroFree) := by
  have hsender := cstr_length_le mail.sender
  have hrcpt := cstr_length_le mail.rcpt
  have hsubject := cstr_length_le mail.subject
  have hctype := cstr_length_le mail.ctype
  cases h : mail.attachments with
  | none =>
      have hcount : (message mail.cstrs).length + (mail.sender.length + mail.rcpt.length + mail.subject.length +
          mail.ctype.length) = (message mail).length + ((cstr mail.sender).length + (cstr mail.rcpt).length +
          (cstr mail.subject).length + (cstr mail.ctype).length) := by
        simp only [message, headerLines, mailBody, Mail.cstrs, h, Option.map_none, asLines, List.cons_append,
          List.nil_append, List.flatMap_cons, List.flatMap_nil, List.length_append]
        omega
      refine ⟨by omega, fun heq => ⟨?_, ?_, ?_, ?_, fun attachments hsome => ?_⟩⟩
      · exact cstr_length_eq (by omega)
      · exact cstr_length_eq (by omega)
      · exact cstr_length_eq (by omega)
      · exact cstr_length_eq (by omega)
      · exact nomatch h.symm.trans hsome
  | some attachments =>
      have hparts : ((attachments.map Attachment.cstrs).flatMap part).length ≤ (attachments.flatMap part).length := by
        rw [List.flatMap_map]
        exact length_flatMap_le fun a _ => part_cstrs_le a
      have hcount : (message mail.cstrs).length + (mail.sender.length + mail.rcpt.length + mail.subject.length +
          mail.ctype.length) + (attachments.flatMap part).length =
          (message mail).length + ((cstr mail.sender).length + (cstr mail.rcpt).length +
          (cstr mail.subject).length + (cstr mail.ctype).length) +
          ((attachments.map Attachment.cstrs).flatMap part).length := by
        have hmap : mail.cstrs.attachments = some (attachments.map Attachment.cstrs) := by
          rw [Mail.cstrs, h]
          rfl
        rw [message, message, headerLines, headerLines, mailBody, mailBody, hmap, h]
        simp only [Mail.cstrs, asLines, List.cons_append, List.nil_append, List.flatMap_cons, List.flatMap_nil,
          List.length_append]
        omega
      refine ⟨by omega, fun heq => ⟨?_, ?_, ?_, ?_, fun attachments' hsome a ha => ?_⟩⟩
      · exact cstr_length_eq (by omega)
      · exact cstr_length_eq (by omega)
      · exact cstr_length_eq (by omega)
      · exact cstr_length_eq (by omega)
      · obtain rfl : attachments = attachments' := Option.some.inj (h.symm.trans hsome)
        have hsame : (attachments.flatMap fun a => part a.cstrs).length = (attachments.flatMap part).length := by
          rw [← List.flatMap_map]
          omega
        have hpart := length_flatMap_eq (fun a _ => part_cstrs_le a) hsame a ha
        have hlength := part_cstrs_length a
        exact cstr_length_eq (by omega)

theorem Mail.ZeroFree.cstrs (h : mail.ZeroFree) : mail.cstrs = mail := by
  obtain ⟨hsender, hrcpt, hsubject, hctype, hnames⟩ := h
  have hattachments : mail.attachments.map (·.map fun a : Attachment => { a with name := cstr a.name }) =
      mail.attachments := by
    cases h : mail.attachments with
    | none => rfl
    | some attachments =>
        refine congrArg some ((List.map_congr_left fun a ha => ?_).trans (List.map_id _))
        rw [cstr_eq (hnames attachments h a ha)]
        rfl
  rw [Mail.cstrs, cstr_eq hsender, cstr_eq hrcpt, cstr_eq hsubject, cstr_eq hctype, hattachments]

/-! ### What the calls send -/

/-- What a call sends is what it is given, or less if `send` takes less. -/
theorem tcpSend_sent (buffer : List Byte) (socket : TcpSocket) :
    ∃ stream, (tcpSend buffer socket).out.sent = socket.out.sent ++ stream ∧
      (tcpSend buffer socket).out.takes = socket.out.takes.tail ∧ stream.length ≤ buffer.length ∧
      ((∀ n ∈ socket.out.takes.head?, buffer.length ≤ n) → stream = buffer) ∧
      (stream.length = buffer.length → ∀ n ∈ socket.out.takes.head?, buffer.length ≤ n) := by
  unfold tcpSend
  cases htakes : socket.out.takes with
  | nil => exact ⟨buffer, rfl, by simp [htakes], Nat.le_refl _, fun _ => rfl, fun _ n hn => nomatch hn⟩
  | cons n takes =>
      refine ⟨buffer.take n, rfl, rfl, ?_, fun h => List.take_of_length_le (h n rfl), fun h m hm => ?_⟩
      · rw [List.length_take]
        omega
      · obtain rfl : n = m := Option.some.inj hm
        rw [List.length_take] at h
        omega

/-- A text that is printed fits. -/
def Write.Fits : Write → Prop
  | .printf format => NullG.Libs.Fits format
  | .send _ => True

/-- A text that is printed is a line. -/
def Write.IsLine : Write → Prop
  | .printf format => ∃ p s, format = p ++ [.text s] ∧ 2 ≤ s.length
  | .send _ => True

theorem writeAll_cons {w : Write} (writes : List Write) (socket : TcpSocket) (hline : w.IsLine) :
    (w.Fits ∧ writeAll (w :: writes) socket = writeAll writes (tcpSend w.text socket)) ∨
      (¬ w.Fits ∧ writeAll (w :: writes) socket = none) := by
  cases w with
  | send buffer => exact .inl ⟨trivial, rfl⟩
  | printf format =>
      obtain ⟨p, s, rfl, hs⟩ := hline
      have hcount : (printed (p ++ [.text s])).length = (printed p).length + s.length := by
        simp [Conv.printed]
      have hrun : tcpFprintf (p ++ [.text s]) socket =
          if (printed p).length + s.length ≤ 2047 then some (tcpSend (printed p ++ s) socket) else none := by
        rw [tcpFprintf, ncVsnprintf_line hs]
        split <;> rfl
      rw [Write.Fits, NullG.Libs.Fits, hcount, writeAll, hrun]
      by_cases hfits : (printed p).length + s.length ≤ 2047
      · rw [if_pos hfits]
        refine .inl ⟨hfits, ?_⟩
        simp [Write.text, Conv.printed]
      · rw [if_neg hfits]
        exact .inr ⟨hfits, rfl⟩

/-- The calls send their texts, if these fit and are taken. -/
theorem writeAll_sent (hlines : ∀ w ∈ writes, w.IsLine) (socket : TcpSocket) :
    ((∃ w ∈ writes, ¬ w.Fits) ∧ writeAll writes socket = none) ∨
    (∀ w ∈ writes, w.Fits) ∧ ∃ socket' stream, writeAll writes socket = some socket' ∧
      socket'.out.sent = socket.out.sent ++ stream ∧ stream.length ≤ (writes.flatMap Write.text).length ∧
      (Complete writes socket.out.takes → stream = writes.flatMap Write.text) ∧
      (stream.length = (writes.flatMap Write.text).length → Complete writes socket.out.takes) := by
  induction writes generalizing socket with
  | nil =>
      exact .inr ⟨fun _ h => absurd h List.not_mem_nil, socket, [], rfl, (List.append_nil _).symm, Nat.le_refl _,
        fun _ => rfl, fun _ p hp => absurd hp List.not_mem_nil⟩
  | cons w writes ih =>
      rcases writeAll_cons writes socket (hlines w List.mem_cons_self) with ⟨hfits, hrun⟩ |
        ⟨hlong, hrun⟩
      · obtain ⟨first, hfirst, htakes, hle, hcomplete, hlength⟩ := tcpSend_sent w.text socket
        have hzip : ∀ p, p ∈ (w :: writes).zip socket.out.takes ↔
            (∃ n ∈ socket.out.takes.head?, p = (w, n)) ∨ p ∈ writes.zip socket.out.takes.tail := by
          intro p
          cases socket.out.takes <;> simp
        have hsplit : Complete (w :: writes) socket.out.takes ↔
            (∀ n ∈ socket.out.takes.head?, w.text.length ≤ n) ∧ Complete writes (tcpSend w.text socket).out.takes := by
          rw [Complete, Complete, htakes]
          constructor
          · exact fun h => ⟨fun n hn => h (w, n) ((hzip _).mpr (.inl ⟨n, hn, rfl⟩)),
              fun p hp => h p ((hzip p).mpr (.inr hp))⟩
          · rintro ⟨hw, hrest⟩ p hp
            rcases (hzip p).mp hp with ⟨n, hn, rfl⟩ | hp
            · exact hw n hn
            · exact hrest p hp
        rw [hrun]
        rcases ih (fun v hv => hlines v (List.mem_cons_of_mem w hv)) (tcpSend w.text socket) with
          ⟨⟨v, hv, hlong⟩, hnone⟩ | ⟨hrest, socket', stream, hsome, hsent, hle', hcomplete', hlength'⟩
        · exact .inl ⟨⟨v, List.mem_cons_of_mem w hv, hlong⟩, hnone⟩
        · refine .inr ⟨?_, socket', first ++ stream, hsome, ?_, ?_, ?_, ?_⟩
          · exact fun v hv => (List.mem_cons.mp hv).elim (fun h => h ▸ hfits) (hrest v)
          · rw [hsent, hfirst, List.append_assoc]
          · rw [List.flatMap_cons, List.length_append, List.length_append]
            omega
          · intro h
            obtain ⟨hw, hrest⟩ := hsplit.mp h
            rw [hcomplete hw, hcomplete' hrest, List.flatMap_cons]
          · intro h
            rw [List.flatMap_cons, List.length_append, List.length_append] at h
            exact hsplit.mpr ⟨hlength (by omega), hlength' (by omega)⟩
      · exact .inl ⟨⟨w, List.mem_cons_self, hlong⟩, hrun⟩

theorem line_isLine (format : List Conv) (ending : String) (h : 2 ≤ (bytes ending).length) :
    (line format ending).IsLine := ⟨format, bytes ending, rfl, h⟩

theorem dataWrites_isLine (mail : Mail) : ∀ w ∈ dataWrites mail, w.IsLine := by
  have hattachment : ∀ a : Attachment, ∀ w ∈ attachmentWrites a, w.IsLine := by
    intro a w hw
    simp only [attachmentWrites, List.cons_append, List.nil_append, List.mem_cons, List.mem_map] at hw
    rcases hw with rfl | rfl | rfl | rfl | ⟨dest, -, rfl⟩ <;> exact line_isLine _ _ (by decide)
  intro w hw
  rw [dataWrites, messageWrites] at hw
  cases h : mail.cstrs.attachments with
  | none =>
      simp only [h, List.cons_append, List.nil_append, List.mem_cons, List.not_mem_nil, or_false] at hw
      rcases hw with rfl | rfl | rfl | rfl | rfl | rfl | rfl | rfl | rfl <;>
        first | exact trivial | exact line_isLine _ _ (by decide)
  | some attachments =>
      simp only [h, List.cons_append, List.nil_append, List.mem_cons, List.mem_append, List.not_mem_nil, or_false,
        List.mem_flatMap] at hw
      rcases hw with rfl | rfl | rfl | rfl | rfl | rfl | rfl | rfl | rfl | rfl | rfl | rfl |
        (⟨a, -, hw⟩ | rfl | rfl) | rfl
      all_goals first | exact hattachment a w hw | exact trivial | exact line_isLine _ _ (by decide)

/-! ### When the message is delivered -/

/-- The message, without the end of its last line. -/
theorem exists_message (mail : Mail) : ∃ text, message mail = text ++ bytes "\r\n" := ⟨_, rfl⟩

/-- The lines of a message that is sent as it is. -/
theorem crlfLines_message (text : List Byte) :
    crlfLines (text ++ bytes "\r\n" ++ bytes ".\r\n") = crlfLines text ++ [bytes ".", []] := by
  rw [List.append_assoc]
  exact separated_append (by decide) text (bytes ".\r\n")

theorem crlfLines_ended (text : List Byte) : crlfLines (text ++ bytes "\r\n") = crlfLines text ++ [[]] :=
  separated_append (by decide) text []

theorem unstuffed_length_le (line : List Byte) : (unstuffed line).length ≤ line.length := by
  unfold unstuffed
  split
  · rw [List.length_tail]
    omega
  · exact Nat.le_refl _

theorem unstuffed_length_eq {line : List Byte} (h : (unstuffed line).length = line.length) :
    line.head? ≠ some (ch '.') := by
  intro hdot
  cases line with
  | nil => exact nomatch hdot
  | cons c line =>
      rw [unstuffed, if_pos hdot, List.tail_cons, List.length_cons] at h
      omega

/-- Of a message whose lines are taken for what they are no line starts with a dot. -/
theorem undotted_of_length {text : List Byte}
    (h : (asLines ((crlfLines text).map unstuffed)).length = (asLines (crlfLines text)).length) :
    Undotted (text ++ bytes "\r\n") := by
  rw [asLines, asLines, List.flatMap_map] at h
  have hlines := length_flatMap_eq (f := fun l => unstuffed l ++ bytes "\r\n") (g := (· ++ bytes "\r\n"))
    (fun l _ => by
      rw [List.length_append, List.length_append]
      exact Nat.add_le_add_right (unstuffed_length_le l) _) h
  intro line hline
  rw [crlfLines_ended, List.mem_append, List.mem_singleton] at hline
  rcases hline with hline | rfl
  · have hlength := hlines line hline
    rw [List.length_append, List.length_append] at hlength
    exact unstuffed_length_eq (Nat.add_right_cancel hlength)
  · exact fun h => nomatch h

/-- A stream is the lines that are received, and the dot. -/
theorem received_length {stream : List Byte} {lines : List (List Byte)}
    (hsplit : crlfLines stream = lines ++ [bytes ".", []]) : (asLines lines).length + 3 = stream.length := by
  have hall := congrArg List.length (separated_flatMap (a := ch '\r') (b := ch '\n') stream)
  have hend : (([bytes ".", []] : List (List Byte)).flatMap (· ++ [ch '\r', ch '\n'])).length = 5 := rfl
  rw [show separated (ch '\r') (ch '\n') stream = lines ++ [bytes ".", []] from hsplit, List.flatMap_append,
    List.length_append, hend, List.length_append] at hall
  have hlines : (asLines lines).length = (lines.flatMap (· ++ [ch '\r', ch '\n'])).length := rfl
  have htwo : [ch '\r', ch '\n'].length = 2 := rfl
  omega

/-- The server gets the message that was given if every text fits into the buffer of `tcp_fprintf`, every call of `send`
takes what it is given, no string that is printed has a zero, and no line of the message starts with a dot; and only
then. -/
theorem delivers_iff (mail : Mail) (socket : TcpSocket) (hbody : 0 ∉ mail.body) :
    Delivers mail socket ↔ (∀ w ∈ dataWrites mail, w.Fits) ∧ Complete (dataWrites mail) socket.out.takes ∧
      mail.ZeroFree ∧ Undotted (message mail) := by
  have htext : (dataWrites mail).flatMap Write.text = message mail.cstrs ++ bytes ".\r\n" := by
    have hbody' : 0 ∉ mail.cstrs.body := hbody
    rw [dataWrites, List.flatMap_append, messageWrites_text hbody']
    rfl
  obtain ⟨text, hmessage⟩ := exists_message mail
  obtain ⟨hle, hzero⟩ := message_cstrs_length mail
  rw [Delivers, clientData]
  rcases writeAll_sent (dataWrites_isLine mail) socket with ⟨⟨w, hw, hlong⟩, hnone⟩ |
    ⟨hfits, socket', stream, hsome, hsent, hlength, hcomplete, hall⟩
  · rw [hnone]
    exact ⟨fun ⟨_, _, hrun, _⟩ => (nomatch hrun), fun h => absurd (h.1 w hw) hlong⟩
  rw [htext] at hlength hcomplete hall
  rw [hsome]
  constructor
  · rintro ⟨socket'', stream', hrun, hsent', lines, hsplit, hdot, hreceived⟩
    obtain rfl := Option.some.inj hrun
    obtain rfl : stream = stream' := List.append_cancel_left (hsent.symm.trans hsent')
    -- nothing is lost between the message and the lines that are received
    have hcount := received_length hsplit
    have hless : (message mail).length ≤ (asLines lines).length := by
      rw [← hreceived, asLines, asLines, List.flatMap_map]
      refine length_flatMap_le fun l _ => ?_
      rw [List.length_append, List.length_append]
      exact Nat.add_le_add_right (unstuffed_length_le l) _
    have hthree : (bytes ".\r\n").length = 3 := rfl
    rw [List.length_append, hthree] at hlength hall
    have hfree : mail.ZeroFree := hzero (by omega)
    have hwhole := hall (by omega)
    have hstream := hcomplete hwhole
    rw [hfree.cstrs, hmessage] at hstream
    rw [hstream, crlfLines_message] at hsplit
    obtain ⟨hlines, -⟩ := List.append_inj' hsplit rfl
    refine ⟨hfits, hwhole, hfree, ?_⟩
    rw [hmessage]
    refine undotted_of_length ?_
    rw [hlines, hreceived]
    omega
  · rintro ⟨-, hwhole, hfree, hundotted⟩
    have hstream := hcomplete hwhole
    rw [hfree.cstrs, hmessage] at hstream
    rw [hmessage, Undotted, crlfLines_ended] at hundotted
    have hclear : ∀ line ∈ crlfLines text, line.head? ≠ some (ch '.') :=
      fun line hline => hundotted line (List.mem_append_left _ hline)
    refine ⟨socket', stream, rfl, hsent, crlfLines text, ?_, fun hdot => hclear _ hdot rfl, ?_⟩
    · rw [hstream, crlfLines_message]
    · have hsame : (crlfLines text).map unstuffed = crlfLines text :=
        (List.map_congr_left fun line hline => if_neg (hclear line hline)).trans (List.map_id _)
      rw [hsame, hmessage]
      exact separated_flatMap text

end

/-- A message of one line. -/
def hello (body : List Byte) : Mail where
  sender := bytes "a@b"
  rcpt := bytes "c@d"
  subject := bytes "hi"
  ctype := bytes "text/plain"
  body := body
  msgdate := bytes "Thu, 01 Jan 1970 00:00:00 +0000"

instance (w : Write) : Decidable w.Fits :=
  match w with
  | .printf format => inferInstanceAs (Decidable (NullG.Libs.Fits format))
  | .send _ => isTrue trivial

theorem delivers_hello : Delivers (hello (bytes "Hello.")) (connected []) :=
  (delivers_iff (hello (bytes "Hello.")) (connected []) (by decide)).mpr
    ⟨by decide, by decide, ⟨by decide, by decide, by decide, by decide, fun _ h => nomatch h⟩, by decide⟩

/-- A body that is a line with a dot: the server takes it for the end. -/
theorem not_delivers_dot : ¬ Delivers (hello (bytes ".")) (connected []) := by
  rintro ⟨socket', stream, hrun, hsent, lines, hsplit, hdot, -⟩
  have hstream : stream = message (hello (bytes ".")) ++ bytes ".\r\n" := by
    have hsome : (clientData (hello (bytes ".")) (connected [])).map (·.out.sent) =
        some (message (hello (bytes ".")) ++ bytes ".\r\n") := by decide
    rw [hrun, Option.map_some, hsent] at hsome
    exact Option.some.inj hsome
  have hlines : lines ++ [bytes ".", []] = (headerLines (hello (bytes ".")) ++ [[], bytes "."]) ++ [bytes ".", []] := by
    rw [← hsplit, hstream]
    decide
  rw [List.append_cancel_right hlines] at hdot
  exact hdot (List.mem_append_right _ (by decide))

end NullG.Libs.Smtp
