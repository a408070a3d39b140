/-
The SMTP server (`smtpd_server.c`).

A session reads lines from a connection and writes messages to files. What the database, the
clock, the file system and the filters answer is given by an `Env`; the answers may be different
at every call (`tick`). The memory of `rcpt` is a list of slots, and a run stops where a slot
outside of it is used. The model keeps a list of the files that the client's message was written
to, of the values that `allow_relay` returned, and of what happened to transactions.
-/

import NullG.Net.Conn
import NullG.Mail.Spool

namespace NullG.Smtpd

open NullG.Nsp NullG.Net NullG.Mail

/-! ### The surroundings -/

/-- A row of `gw_smtp_aliases`. -/
structure Alias where
  aliasname : List Byte
  userid : Int
  domainid : Int
  deriving DecidableEq

/-- The `ruletype` of a row of `gw_smtp_relayrules`. -/
inductive Rule where
  | allow
  | deny
  | other
  deriving DecidableEq

/-- What a session is told from outside. -/
structure Env extends System where
  remoteAddr : List Byte
  sslLoaded : Bool
  initOk : Bool
  prefilter : Int
  /-- `gw_smtp_aliases` by name and domain -/
  aliasesNamed : Nat → List Byte → Int → Option (List Alias)
  /-- `gw_users` by id and domain -/
  usersWithId : Nat → Int → Int → Option (List User)
  /-- `gw_users` by name and domain, whatever the case of the name -/
  usersNamed : Nat → List Byte → Int → Option (List User)
  /-- the relay rules of the client that hold now, or no answer -/
  rules : Nat → Option (List Rule)
  postfilter : Nat → Int
  filterScan : Nat → Int
  handshake : Nat → Handshake
  time : Nat → Nat

/-! ### The state of a session -/

/-- A file that the client's message was written to; `relay` is what `allow_relay` returned last. -/
structure Write where
  path : List Byte
  rcpt : List Byte
  body : List Byte
  relay : Option Int
  deriving DecidableEq

/-- `MAILCONN`. -/
structure Mailconn where
  senderCanRelay : Int := 0
  senderIsBlank : Bool := false
  numRcpts : Nat := 0
  rcptalloc : Nat := 0
  helo : List Byte := []
  sender : List Byte := []
  msgbody : List Byte := []
  rcpt : List (Option (List Byte)) := []

/-- What happens to a transaction. -/
inductive Event where
  /-- `smtp_from` has stored a sender -/
  | mail (sender : List Byte)
  /-- `smtp_rcpt` has stored a recipient -/
  | rcpt (address : List Byte)
  /-- `smtp_data` has answered 354 -/
  | data
  /-- `smtp_data` gives the message to `smtp_accept`, of a sender and for recipients -/
  | accept (sender : List Byte) (rcpts : List (Option (List Byte)))
  /-- `smtp_rset` has cleared everything -/
  | reset
  deriving DecidableEq

/-- A session. -/
structure Session where
  conn : Conn
  world : World := {}
  mconn : Mailconn := {}
  relays : List Int := []
  writes : List Write := []
  events : List Event := []

/-- A session stops: memory outside of an array is used, NULL is read as a string, a loop that waits
for the clock does not end, or the model has taken as many steps as there are bytes. -/
inductive Stop where
  | outOfBounds
  | nullPointer
  | stuck
  deriving DecidableEq

/-- A part of a session. -/
abbrev S := EStateM Stop Session

/-- An action on the files in a session. -/
def onWorld {α : Type} (x : W α) : S α := fun s =>
  match x s.world with
  | .ok a w => .ok a { s with world := w }
  | .error .stuck w => .error .stuck { s with world := w }

/-- The next call to the surroundings. -/
def tick : S Nat := onWorld Mail.tick

/-- `tcp_fgets(line, max, &conn->socket)`. -/
def fgets (max : Nat) : S (Option (List Byte)) := do
  let s ← get
  let (line, conn) := s.conn.fgets max
  set { s with conn := conn }
  return line

/-- `smtp_send`. -/
def smtpSend (line : List Byte) : S Unit :=
  modify fun s => { s with conn := s.conn.fprintf (line ++ bytes "\r\n") }

/-- A change of `mconn`. -/
def setMconn (f : Mailconn → Mailconn) : S Unit := modify fun s => { s with mconn := f s.mconn }

/-- What happened is noted. -/
def note (e : Event) : S Unit := modify fun s => { s with events := s.events ++ [e] }

/-- The address in an argument: what stands before the first `>`, behind the first `<`. -/
def addressOf (arg : List Byte) : List Byte :=
  let address := (snprintf 119 (skipBlanks arg)).takeWhile (· != ch '>')
  if address.contains (ch '<') then (address.dropWhile (· != ch '<')).drop 1 else address

/-! ### The array of recipients -/

/-- `mconn->rcpt[i]` is used. -/
def checkRcpt (i : Nat) : S Unit := do
  let s ← get
  if s.mconn.rcptalloc ≤ i then throw .outOfBounds

/-- `mconn->rcpt[i]`, as a string. -/
def readRcpt (i : Nat) : S (List Byte) := do
  checkRcpt i
  let s ← get
  match s.mconn.rcpt[i]? with
  | some (some rcpt) => return rcpt
  | _ => throw .nullPointer

/-- `mconn->rcpt[i] = rcpt`. -/
def writeRcpt (i : Nat) (rcpt : Option (List Byte)) : S Unit := do
  checkRcpt i
  setMconn fun m => { m with rcpt := m.rcpt.set i rcpt }

/-- The loop that frees the recipients from `i` on, `n` of them. -/
def freeRcpts : Nat → Nat → S Unit
  | 0, _ => pure ()
  | n + 1, i => do
      writeRcpt i none
      freeRcpts n (i + 1)

/-! ### `allow_relay` -/

/-- `allow_relay`, of the rules that the query returns. -/
def allowRelay (remoteAddr : List Byte) (rules : Option (List Rule)) : Int :=
  if remoteAddr = bytes "127.0.0.1" then 1
  else
    match rules with
    | none => 0
    | some rules => if rules.contains .deny then -1 else if rules.contains .allow then 1 else 0

/-- `mconn->sender_can_relay = allow_relay(conn)`. -/
def setRelay (env : Env) : S Unit := do
  let n ← tick
  let r := allowRelay env.remoteAddr (env.rules n)
  modify fun s => { s with mconn := { s.mconn with senderCanRelay := r }, relays := s.relays ++ [r] }

/-! ### `smtp_accept` -/

/-- Where a message for a recipient goes. -/
inductive Mailbox where
  /-- a query has failed -/
  | failed
  | nobody
  | user (username : List Byte)

/-- The user of a name. -/
def userNamed (env : Env) (name : List Byte) (domainid : Int) : S Mailbox := do
  match env.usersNamed (← tick) name domainid with
  | none => return .failed
  | some [u] => return if u.userid < 1 then .nobody else .user u.username
  | some _ => return .nobody

/-- The user that mail for a name goes to: the one of an alias, and else the one of that name. -/
def findUser (env : Env) (name : List Byte) (domainid : Int) : S Mailbox := do
  match env.aliasesNamed (← tick) name domainid with
  | none => return .failed
  | some [a] =>
      match env.usersWithId (← tick) a.userid domainid with
      | none => return .failed
      | some [u] =>
          -- the name is the user's from here on
          if u.userid < 1 then userNamed env u.username domainid else return .user u.username
      | some _ => userNamed env name domainid
  | some _ => userNamed env name domainid

/-- The lines before the message in its file. -/
def receivedText (env : Env) (helo rcpt date : List Byte) : List Byte :=
  bytes "Received: from " ++ helo ++ bytes " ([" ++ env.remoteAddr ++ bytes "])\r\n\tby " ++ env.hostName ++
    bytes " for " ++ rcpt ++ bytes ";\r\n\t" ++ date ++ bytes "\r\n"

/-- The entry of a message in the queue. -/
def mqinfoText (sender rcpt date : List Byte) : List Byte :=
  bytes "MAIL: " ++ sender ++ bytes "\r\nRCPT: " ++ rcpt ++ bytes "\r\nDATE: " ++ date ++ bytes "\r\n"

/-- The message is written and the filters see it: the value that `smtp_accept` returns, or `none`
when it goes on with the next recipient. `info` is the name of the queue entry. -/
def writeMessage (env : Env) (now : Nat) (path : List Byte) (info : Option (List Byte)) (rcpt : List Byte) :
    S (Option Int) := do
  let s ← get
  let text := receivedText env s.mconn.helo rcpt (env.date now) ++ s.mconn.msgbody
  if ← onWorld (fopenWrite env.toSystem path text) then
    modify fun s => { s with writes := s.writes ++ [⟨path, rcpt, s.mconn.msgbody, s.relays.getLast?⟩] }
    let err := env.postfilter (← tick)
    if err ≠ 0 then
      onWorld (unlink path)
      return some err
    let err := env.filterScan (← tick)
    if err > 0 then
      onWorld (unlink path)
      return some err
    match info with
    | none => return none
    | some info => do
        let s ← get
        let text := mqinfoText s.mconn.sender rcpt (env.sqlDate now)
        if ← onWorld (fopenWrite env.toSystem info text) then return none
        onWorld (unlink path)
        return none
  else return some (-1)

/-- The loop body of `smtp_accept`, for a recipient. -/
def acceptFor (env : Env) (now : Nat) (rcpt : List Byte) : S (Option Int) := do
  let (name, host) := splitAddr (snprintf 127 rcpt)
  let localdomainid := env.domainGetid (← tick) host
  if localdomainid > 0 then
    match ← findUser env (name.takeWhile (· != ch '+')) localdomainid with
    | .failed => return some (-1)
    | .nobody => do
        let s ← get
        let _ ← onWorld (bounceSend env.toSystem s.mconn.sender rcpt none (bytes "554 no such mailbox"))
        return none
    | .user mailbox => do
        if !env.spoolReady (← tick) then return none
        let path ← onWorld (freeMailspool env.toSystem localdomainid mailbox)
        writeMessage env now path none rcpt
  else
    let s ← get
    if s.mconn.senderCanRelay = 1 then
      let (path, info) ← onWorld (freeMqueue env.toSystem)
      writeMessage env now path (some info) rcpt
    else return none

/-- The loop of `smtp_accept` from the recipient `i` on, where `n` are left. -/
def acceptFrom (env : Env) (now : Nat) : Nat → Nat → S Int
  | 0, _ => return 0
  | n + 1, i => do
      match ← acceptFor env now (← readRcpt i) with
      | some rc => return rc
      | none => acceptFrom env now n (i + 1)

/-- `smtp_accept`. -/
def smtpAccept (env : Env) : S Int := do
  let now ← tick
  let s ← get
  acceptFrom env now s.mconn.numRcpts 0

/-! ### The commands -/

/-- `MSGHEADER`: which headers were seen. -/
structure Msgheader where
  sender : List Byte := []
  date : List Byte := []
  messageId : List Byte := []
  deriving DecidableEq

/-- A line that ends the message. -/
def isDot (line : List Byte) : Bool := line == bytes ".\r\n" || line == bytes ".\n"

/-- A line that ends the header. -/
def isBlank (line : List Byte) : Bool := line == bytes "\r\n" || line == bytes "\n"

/-- `strncatf(outbuf, sizeof(outbuf), ...)`. -/
def strncatf (outbuf text : List Byte) : List Byte := outbuf ++ text.take 1023

/-- The headers that are added at the end of the header. -/
def addedHeaders (env : Env) (now : Nat) (sender : List Byte) (h : Msgheader) : List Byte :=
  let outbuf := []
  let outbuf :=
    if h.sender.isEmpty then strncatf outbuf (bytes "From: " ++ sender ++ bytes "\r\n") else outbuf
  let outbuf :=
    if h.date.isEmpty then
      strncatf (strncatf outbuf (bytes "Date: " ++ env.date now ++ bytes "\r\n"))
        (bytes "Date-warning: Date header was inserted by " ++ env.hostName ++ bytes "\r\n")
    else outbuf
  if h.messageId.isEmpty then
    strncatf outbuf (bytes "Message-id: <" ++ natDigits (env.time now) ++ bytes "@" ++ env.hostName ++ bytes ">\r\n")
  else outbuf

/-- What is kept of a header: `strncpy(header, line + n, 79)` and `striprn`. -/
def headerValue (line : List Byte) (n : Nat) : List Byte := striprn (snprintf 80 (line.drop n))

/-- The header part of a round of `smtp_data`: the headers seen, `header_done` and what is added
before the line. -/
def headerLine (env : Env) (now : Nat) (sender line : List Byte) (h : Msgheader) : Msgheader × Bool × List Byte :=
  if startsWith line "From: " then ({ h with sender := headerValue line 6 }, false, [])
  else if startsWith line "Date: " then ({ h with date := headerValue line 6 }, false, [])
  else if startsWith line "Message-ID: " then ({ h with messageId := headerValue line 12 }, false, [])
  else if isBlank line || isDot line then (h, true, addedHeaders env now sender h)
  else (h, false, [])

/-- The loop of `smtp_data`, with as many rounds as there are bytes: whether the end of the message
was reached. -/
def dataLoop (env : Env) (now : Nat) : Nat → Msgheader → Bool → S Bool
  | 0, _, _ => throw .stuck
  | fuel + 1, h, done => do
      match ← fgets 1023 with
      | none => return false
      | some line => do
          let s ← get
          let (h, done, out) := if done then (h, true, []) else headerLine env now s.mconn.sender line h
          setMconn fun m => { m with msgbody := m.msgbody ++ out }
          if isDot line then return true
          setMconn fun m => { m with msgbody := m.msgbody ++ line }
          dataLoop env now fuel h done

/-- The reply to a message. -/
def acceptReply (rc : Int) : List Byte :=
  if rc = 0 then bytes "250 Message accepted for delivery"
  else if rc = 1 then bytes "554 Message is permanently rejected (spam)"
  else if rc = 2 ∨ rc = 3 then bytes "554 Message is permanently rejected (virus)"
  else bytes "451 Temporary failure - try again later"

/-- `smtp_data`. -/
def smtpData (env : Env) : S Unit := do
  let now ← tick
  let s ← get
  if s.mconn.sender.isEmpty && !s.mconn.senderIsBlank then smtpSend (bytes "503 No sender")
  else if s.mconn.numRcpts = 0 then smtpSend (bytes "503 No valid recipient")
  else
    smtpSend (bytes "354 Send the mail data, end with .")
    note .data
    setMconn fun m => { m with msgbody := [] }
    if ← dataLoop env now (s.conn.left + 1) {} false then
      note (.accept s.mconn.sender (s.mconn.rcpt.take s.mconn.numRcpts))
      let rc ← smtpAccept env
      setMconn fun m => { m with msgbody := [] }
      smtpSend (acceptReply rc)

/-- `smtp_from`. -/
def smtpFrom (arg : List Byte) : S Unit := do
  let s ← get
  freeRcpts s.mconn.numRcpts 0
  let sender := snprintf 1023 (addressOf arg)
  setMconn fun m => { m with sender := sender, numRcpts := 0 }
  note (.mail sender)
  if !sender.isEmpty then smtpSend (snprintf 255 (bytes "250 Sender '" ++ sender ++ bytes "' OK"))
  else
    setMconn fun m => { m with senderIsBlank := true }
    smtpSend (bytes "250 Sender 'NULL' OK")

/-- `smtp_rcpt`. -/
def smtpRcpt (env : Env) (arg : List Byte) : S Unit := do
  let s ← get
  if s.mconn.sender.isEmpty && !s.mconn.senderIsBlank then smtpSend (bytes "503 No sender")
  else
    let address := addressOf arg
    if !address.contains (ch '@') then smtpSend (bytes "553 Recipient Invalid")
    else
      let domainid := env.domainGetid (← tick) (splitAddr address).2
      if domainid < 1 ∧ s.mconn.senderCanRelay ≠ 1 then smtpSend (bytes "553 Relaying denied")
      else
        -- nothing keeps the number of recipients below the size of the array
        let rcpt := snprintf 127 address
        writeRcpt s.mconn.numRcpts (some rcpt)
        setMconn fun m => { m with numRcpts := m.numRcpts + 1 }
        note (.rcpt rcpt)
        smtpSend (snprintf 255 (bytes "250 Recipient '" ++ (← readRcpt s.mconn.numRcpts) ++ bytes "' OK"))

/-- `smtp_rset`. -/
def smtpRset (env : Env) (quiet : Bool) : S Unit := do
  let s ← get
  freeRcpts s.mconn.numRcpts 0
  setMconn fun m => { m with sender := [] }
  setRelay env
  setMconn fun m => { m with senderIsBlank := false, numRcpts := 0 }
  note .reset
  if !quiet then smtpSend (bytes "250 Reset OK")

/-- `conn->state = state`. -/
def setState (state : Nat) : S Unit := modify fun s => { s with conn := { s.conn with state := state } }

/-- A command of `smtp_dorequest` other than `quit`. -/
def command (env : Env) (line : List Byte) : S Unit := do
  let s ← get
  if startsWith line "helo" || startsWith line "ehlo" then
    let helo := snprintf 1023 (skipBlanks (line.drop 4))
    setMconn fun m => { m with helo := helo }
    smtpSend (snprintf 255 (bytes "250-" ++ env.hostName ++ bytes " Hello, " ++ helo ++ bytes " [" ++
      env.remoteAddr ++ bytes "]"))
    smtpSend (if env.sslLoaded && !s.conn.socket.usingTls then bytes "250 STARTTLS" else bytes "250 AUTH PLAIN")
    if !helo.isEmpty then setState 1
  else if startsWith line "starttls" && env.sslLoaded && !s.conn.socket.usingTls then
    smtpSend (bytes "220 Ready to start TLS")
    smtpRset env true
    setState 0
    let outcome := env.handshake (← tick)
    modify fun s => { s with conn := s.conn.accept outcome }
  else if s.conn.state = 1 then
    if startsWith line "auth" then smtpSend (bytes "502 Unknown Command")
    else if startsWith line "mail from:" then smtpFrom (line.drop 10)
    else if startsWith line "rcpt to:" then smtpRcpt env (line.drop 8)
    else if sameText line (bytes "data") then smtpData env
    else if sameText line (bytes "rset") then smtpRset env false
    else if sameText line (bytes "turn") then smtpSend (bytes "502 No")
    else if sameText line (bytes "noop") then smtpSend (bytes "220 OK")
    else smtpSend (bytes "502 Unknown Command")
  else smtpSend (bytes "500 Some people still say hello")

/-- A round of `smtp_dorequest`: whether there is another one. -/
def request (env : Env) : S Bool := do
  match ← fgets 255 with
  | none => return false
  | some line => do
      let line := striprn line
      if sameText line (bytes "quit") then
        smtpSend (bytes "221 Goodbye")
        return false
      else
        command env line
        return true

/-- The loop of `smtp_dorequest`, with as many rounds as there are bytes. -/
def requestLoop (env : Env) : Nat → S Unit
  | 0 => throw .stuck
  | fuel + 1 => do
      if ← request env then requestLoop env fuel

/-- The loop behind `cleanup`. -/
def cleanup : Nat → Nat → S Unit
  | 0, _ => pure ()
  | n + 1, i => do
      checkRcpt i
      cleanup n (i + 1)

/-- `smtp_dorequest` up to its loop: whether it comes there. -/
def greet (env : Env) : S Bool := do
  setRelay env
  let s ← get
  if s.mconn.senderCanRelay = -1 ∨ env.prefilter ≠ 0 then
    smtpSend (snprintf 255 (bytes "550 5.3.2 Service currently unavailable; client " ++ env.remoteAddr ++
      bytes " temporarily blocked"))
    return false
  else
    smtpSend (snprintf 255 (bytes "220 " ++ env.hostName ++ bytes " - NullLogic GroupServer SMTPd"))
    setMconn fun m => { m with rcptalloc := 50, rcpt := List.replicate 50 none }
    return true

/-- `smtp_dorequest`. -/
def smtpDorequest (env : Env) : S Unit := do
  if env.initOk then
    if ← greet env then
      let s ← get
      requestLoop env (s.conn.left + 1)
    let s ← get
    cleanup s.mconn.numRcpts 0

/-- Surroundings in which nothing fails: `h` is a local domain where every name is a user's, and the
client may relay. -/
def goodEnv : Env where
  var := bytes "v"
  hostName := bytes "h"
  domainGetid := fun _ domain => if domain = bytes "h" then 1 else -1
  usersExact := fun _ name domainid => some [⟨1, name, domainid⟩]
  spoolReady := fun _ => true
  clock := fun n => (n, 0)
  patience := 10
  opens := fun _ => true
  date := fun _ => bytes "d"
  sqlDate := fun _ => bytes "q"
  remoteAddr := bytes "127.0.0.1"
  sslLoaded := true
  initOk := true
  prefilter := 0
  aliasesNamed := fun _ _ _ => some []
  usersWithId := fun _ _ _ => some []
  usersNamed := fun _ name domainid => some [⟨1, name, domainid⟩]
  rules := fun _ => none
  postfilter := fun _ => 0
  filterScan := fun _ => 0
  handshake := fun _ => .done
  time := fun _ => 0

/-- The session of a new connection. -/
def newSession (recvs sslReads : List (List Byte)) : Session :=
  { conn := { socket := { recvs := recvs, sslReads := sslReads } } }

end NullG.Smtpd
