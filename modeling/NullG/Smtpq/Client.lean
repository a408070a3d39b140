/-
The SMTP client and the queue (`smtpq_client.c`, `smtpq_queue.c`).

A host that the client connects to is given by the packets that it sends. What DNS, the clock and the
file system answer is given by an `Env`; the answers may be different at every call (`tick`). The
model keeps a list of what happened in the dialogue with the host; a reply is noted with the command
that it answers and with the number of the next call to the surroundings.
-/

import NullG.Mail.Bounce
import NullG.Net.Fgets

namespace NullG.Smtpq

open NullG.Nsp NullG.Lib NullG.Net NullG.Mail

/-! ### The surroundings -/

/-- How `tcp_connect` ends: with -1, with -2, or with a connection on which these packets arrive. -/
inductive Connect where
  | unresolved
  | refused
  | connected (recvs sslReads : List (List Byte))

/-- What the client is told from outside. -/
structure Env extends System where
  relayhost : List Byte
  sslLoaded : Bool
  getmxbyname : Nat → List Byte → Option (List Byte)
  connect : Nat → List Byte → Connect
  handshake : Nat → Handshake
  /-- `fopen(path, "rb")` opens a file that is there -/
  opensRead : Nat → Bool

/-! ### The state -/

/-- What a reply answers. -/
inductive Said where
  | connect
  | ehlo
  | helo
  | starttls
  | mail
  | rcpt
  | data
  /-- the line with a dot behind the message -/
  | dot
  deriving DecidableEq

/-- What happens in the dialogue. -/
inductive Event where
  /-- the host of a recipient has no address -/
  | unresolved (host : List Byte) (n : Nat)
  | refused
  /-- the last line of a reply -/
  | answered (said : Said) (inbuffer : List Byte) (n : Nat)
  /-- `tcp_fgets` returns -1 -/
  | closed (said : Said)
  | handshakeFailed
  deriving DecidableEq

/-- The client. -/
structure Session where
  socket : TcpSocket := { recvs := [] }
  /-- what was sent, call by call -/
  sent : List (List Byte) := []
  world : World := {}
  events : List Event := []

/-- A part of the client. -/
abbrev M := EStateM Stop Session

/-- An action on the files. -/
def onWorld {α : Type} (x : W α) : M α := fun s =>
  match x s.world with
  | .ok a w => .ok a { s with world := w }
  | .error e w => .error e { s with world := w }

/-- The next call to the surroundings. -/
def tick : M Nat := onWorld Mail.tick

/-- What happened is noted. -/
def note (e : Event) : M Unit := modify fun s => { s with events := s.events ++ [e] }

/-- `tcp_fgets(inbuffer, sizeof(inbuffer) - 1, &smtp_sock)`: the bytes, with any zeros among them. -/
def fgets : M (Option (List Byte)) := do
  let s ← get
  let (line, socket) := tcpFgets 1023 s.socket
  set { s with socket := socket }
  return line.map (·.map Octet.byte)

/-- `tcp_fprintf(&smtp_sock, "%s", text)`. -/
def fprintf (text : List Byte) : M Unit := modify fun s => { s with sent := s.sent ++ [text.take 2046] }

/-! ### Replies -/

/-- `inbuffer[3]` is a blank or 0. -/
def isLast (inbuffer : List Byte) : Bool := inbuffer.getD 3 0 == ch ' ' || inbuffer.getD 3 0 == 0

/-- `strncasecmp(inbuffer, code, 3) == 0`. -/
def hasCode (inbuffer : List Byte) (code : String) : Bool := startsWith (cstr inbuffer) code

/-- `strstr(str, sub) != NULL`. -/
def strstr (str sub : List Byte) : Bool := str.tails.any (sub.isPrefixOf ·)

/-- The loop that reads a reply, with as many rounds as there are bytes: its last line, and whether one
of its lines has `STARTTLS`. -/
def replyLoop : Nat → Bool → M (Option (List Byte × Bool))
  | 0, _ => throw .stuck
  | fuel + 1, starttls => do
      match ← fgets with
      | none => return none
      | some inbuffer =>
          let starttls := starttls || strstr (cstr inbuffer) (bytes "STARTTLS")
          if isLast inbuffer then return some (inbuffer, starttls) else replyLoop fuel starttls

/-- A reply is read. -/
def reply (said : Said) : M (Option (List Byte × Bool)) := do
  let s ← get
  match ← replyLoop (s.socket.pending.length + 1) false with
  | none => do
      note (.closed said)
      return none
  | some (inbuffer, starttls) => do
      let s ← get
      note (.answered said inbuffer s.world.tick)
      return some (inbuffer, starttls)

/-- `smtp_disconnect`. -/
def smtpDisconnect : M Unit := do
  fprintf (bytes "QUIT\r\n")
  let s ← get
  let _ ← replyLoop (s.socket.pending.length + 1) false
  return

/-! ### `smtp_client` -/

/-- The entry that is sent: the message in its file, and who it is from and for. -/
structure Entry where
  origMsg : List Byte
  content : List Byte
  sender : List Byte
  rcpt : List Byte

/-- From `quit` on. -/
def quit (env : Env) (m : Entry) (inbuffer : List Byte) : M Int := do
  smtpDisconnect
  if !hasCode inbuffer "504" then
    let _ ← onWorld (bounceSend env.toSystem m.sender m.rcpt (some m.origMsg) (cstr inbuffer))
    return -2
  return -1

/-- The lines of the message are sent. -/
def sendLines : List (List Byte) → M Unit
  | [] => return
  | line :: lines => do
      fprintf (striprn line ++ bytes "\r\n")
      sendLines lines

/-- The message and what follows it. -/
def sendMessage (env : Env) (m : Entry) : M Int := do
  sendLines (fgetsAll 1023 m.content)
  fprintf (bytes ".\r\n")
  match ← reply .dot with
  | none => return -1
  | some (inbuffer, _) => do
      if !hasCode inbuffer "250" then quit env m inbuffer
      else
        smtpDisconnect
        return 0

/-- A command and its reply; what follows is done if the reply has the code. -/
def say (env : Env) (m : Entry) (said : Said) (text : List Byte) (code : String) (next : M Int) : M Int := do
  fprintf text
  match ← reply said with
  | none => return -1
  | some (inbuffer, _) => if !hasCode inbuffer code then quit env m inbuffer else next

/-- From `MAIL FROM` on. -/
def transaction (env : Env) (m : Entry) : M Int :=
  say env m .mail (bytes "MAIL FROM:<" ++ m.sender ++ bytes ">\r\n") "250"
    (say env m .rcpt (bytes "RCPT TO:<" ++ m.rcpt ++ bytes ">\r\n") "250"
      (say env m .data (bytes "DATA\r\n") "354" (sendMessage env m)))

/-- `ssl_connect`. -/
def sslConnect (env : Env) : M Int := do
  let outcome := env.handshake (← tick)
  let s ← get
  if s.socket.usingTls then
    note .handshakeFailed
    return -1
  match outcome with
  | .noSsl => do
      set { s with socket := { s.socket with ssl := false } }
      note .handshakeFailed
      return -1
  | .failed => do
      set { s with socket := { s.socket with ssl := true } }
      note .handshakeFailed
      return -1
  | .done => do
      set { s with socket := { s.socket with ssl := true, usingTls := true } }
      return 0

/-- From the reply to `EHLO` or `HELO` on; `again` is what is done behind a handshake. -/
def greeted (env : Env) (m : Entry) (starttls : Bool) (inbuffer : List Byte) (again : M Int) : M Int := do
  let s ← get
  if !hasCode inbuffer "250" then quit env m inbuffer
  else if starttls && env.sslLoaded && !s.socket.usingTls then
    fprintf (bytes "STARTTLS\r\n")
    match ← reply .starttls with
    | none => return -1
    | some (inbuffer, _) => do
        if !hasCode inbuffer "220" then quit env m inbuffer
        else if (← sslConnect env) ≠ 0 then quit env m inbuffer
        else again
  else transaction env m

/-- From `helo` on. A handshake that was completed is not made again. -/
def hello (env : Env) (m : Entry) : Nat → Bool → M Int
  | 0, _ => throw .stuck
  | fuel + 1, starttls => do
      fprintf (bytes "EHLO " ++ env.hostName ++ bytes "\r\n")
      match ← reply .ehlo with
      | none => return -1
      | some (inbuffer, found) => do
          let starttls := starttls || found
          if !hasCode inbuffer "250" then
            fprintf (bytes "HELO " ++ env.hostName ++ bytes "\r\n")
            match ← reply .helo with
            | none => return -1
            | some (inbuffer, _) => greeted env m starttls inbuffer (hello env m fuel starttls)
          else greeted env m starttls inbuffer (hello env m fuel starttls)

/-- What is done on a connection. -/
def converse (env : Env) (m : Entry) (recvs sslReads : List (List Byte)) : M Int := do
  modify fun s => { s with socket := { recvs := recvs, sslReads := sslReads } }
  match ← reply .connect with
  | none => return -1
  | some _ => hello env m 2 false

/-- `smtp_client`. -/
def smtpClient (env : Env) (m : Entry) : M Int := do
  if m.rcpt.isEmpty then return -1
  if !env.relayhost.isEmpty then
    match env.connect (← tick) env.relayhost with
    | .connected recvs sslReads => converse env m recvs sslReads
    | _ => do
        note .refused
        return -1
  else
    let domain := (m.rcpt.dropWhile (· != ch '@')).drop 1
    if domain.isEmpty then return -1
    let mxhost := (env.getmxbyname (← tick) domain).getD (snprintf 127 domain)
    match env.connect (← tick) mxhost with
    | .connected recvs sslReads => converse env m recvs sslReads
    | .unresolved => do
        let s ← get
        note (.unresolved mxhost s.world.tick)
        let reason := snprintf 1023 (bytes "failed to resolve host '" ++ mxhost ++ bytes "'")
        let _ ← onWorld (bounceSend env.toSystem m.sender m.rcpt (some m.origMsg) reason)
        return -2
    | .refused => do
        note .refused
        return -1

/-! ### `smtp_spool` -/

/-- `fopen(path, "rb")` and what is in the file, or NULL. -/
def fopenRead (env : Env) (path : List Byte) : M (Option (List Byte)) := do
  let n ← tick
  let s ← get
  return if env.opensRead n then s.world.disk path else none

/-- The value of a line of an entry, if it is this one. -/
def infoLine (line : Option (List Byte)) (name : String) : Option (List Byte) :=
  match line with
  | none => none
  | some line =>
      if startsWith line name then some (snprintf 127 (skipBlanks ((striprn line).drop name.length))) else none

/-- A name without what follows its last dot, if there is one. -/
def withoutExtension (path : List Byte) : Option (List Byte) :=
  if path.contains (ch '.') then some ((path.reverse.dropWhile (· != ch '.')).drop 1).reverse else none

/-- The names of the files of an entry. -/
def entryFiles (env : Env) (name : List Byte) : List Byte × Option (List Byte) :=
  let filename (dir : String) :=
    fixslashes (snprintf 255 (fixslashes (snprintf 255 (env.var ++ bytes dir)) ++ bytes "/" ++ name))
  (filename "/spool/mqinfo", (withoutExtension (filename "/spool/mqueue")).map (· ++ bytes ".msg"))

/-- A round of the loop of `smtp_spool`, for a name in the directory; `sender` is what `from` holds
before it, and the value is what it holds behind it. The events are those of this round. -/
def spoolEntry (env : Env) (name sender : List Byte) : M (List Byte) := do
  modify fun s => { s with events := [] }
  match entryFiles env name with
  | (_, none) => return sender
  | (filename1, some filename2) => do
      match ← fopenRead env filename1 with
      | none => return sender
      | some info => do
          let lines := fgetsAll 1023 info
          let sender := (infoLine lines[0]? "MAIL:").getD sender
          let rcpt := (infoLine lines[1]? "RCPT:").getD []
          match ← fopenRead env filename2 with
          | none => return sender
          | some content => do
              let status ← smtpClient env ⟨filename2, content, sender, rcpt⟩
              if status = 0 ∨ status = -2 then
                onWorld (unlink filename1)
                onWorld (unlink filename2)
              return sender

end NullG.Smtpq
