/-
The POP3 server (`pop3d_server.c`).

A session reads lines from a connection; what the database, the login and the files answer is given
by an `Env`, and may be different at every call (`tick`). What is sent is taken to arrive.
-/

import NullG.Mail.Text
import NullG.Net.Conn

namespace NullG.Pop3d

open NullG.Nsp NullG.Net NullG.Mail

/-- `MDIRENT`. -/
structure Mdirent where
  localid : Int
  deleted : Bool := false
  filesize : Int
  filename : List Byte
  uidl : List Byte
  deriving DecidableEq

/-- `MDIR`. -/
structure Mdir where
  mboxcount : Int := 0
  lastmsg : Int := 0
  msg : List Mdirent := []

/-- What a session is told from outside. -/
structure Env where
  var : List Byte
  sslLoaded : Bool
  requireTls : Bool
  /-- `auth_login`: of a name, a domain, a password and a mailbox, the domain id and the name of the user -/
  authLogin : Nat → List Byte → List Byte → List Byte → Int → Option (Int × List Byte)
  /-- the directory of the mailbox is there, or was made -/
  spoolReady : Nat → Bool
  /-- the files of the mailbox and their sizes -/
  entries : Nat → List (List Byte × Int)
  /-- the messages of a remote account, or no answer -/
  headers : Nat → Option (List Mdirent)
  /-- a file that is opened for reading, and what it holds -/
  fopen : Nat → List Byte → Option (List Byte)
  handshake : Nat → Handshake

/-- A session. -/
structure Session where
  conn : Conn
  tick : Nat := 0
  username : List Byte := []
  domain : List Byte := []
  password : List Byte := []
  mbox : Int := 0
  mdir : Mdir := {}
  /-- the files that were unlinked, and the messages of a remote account that were moved -/
  removed : List Mdirent := []

/-- The model has taken as many steps as there are bytes. -/
inductive Stop where
  | stuck
  deriving DecidableEq

/-- A part of a session. -/
abbrev S := EStateM Stop Session

/-- The next call to the surroundings. -/
def tick : S Nat := do
  let s ← get
  set { s with tick := s.tick + 1 }
  return s.tick

/-- `tcp_fgets(line, max, &conn->socket)`. -/
def fgets (max : Nat) : S (Option (List Byte)) := do
  let s ← get
  let (line, conn) := s.conn.fgets max
  set { s with conn := conn }
  return line

/-- `tcp_fprintf(&conn->socket, ...)`. -/
def fprintf (text : List Byte) : S Unit := modify fun s => { s with conn := s.conn.fprintf text }

/-- `tcp_send(&conn->socket, ...)`. -/
def send (text : List Byte) : S Unit := modify fun s => { s with conn := s.conn.send text }

/-- A change of `mdir`. -/
def setMdir (f : Mdir → Mdir) : S Unit := modify fun s => { s with mdir := f s.mdir }

/-! ### Messages -/

/-- The sizes of the messages that are not deleted, added up. -/
def totalSize (msg : List Mdirent) : Int := ((msg.filter (!·.deleted)).map Mdirent.filesize).sum

/-- The number in an argument, or `dflt` when it starts with no digit. -/
def numberOr (dflt : Int) (p : List Byte) : Int := if (p.head?.map ncIsdigit).getD false then atoi p else dflt

/-- The message of a number that is not deleted. -/
def Mdir.find (mdir : Mdir) (msg : Int) : Option Mdirent :=
  if msg < 1 ∨ mdir.msg.length < msg then none
  else
    match mdir.msg[(msg - 1).toNat]? with
    | some m => if m.deleted then none else some m
    | none => none

/-- `pop3_stat`. -/
def pop3Stat : S Unit := do
  let s ← get
  fprintf (bytes "+OK " ++ decimal s.mdir.mboxcount ++ bytes " " ++ decimal (totalSize s.mdir.msg) ++ bytes "\r\n")

/-- The lines of `pop3_list` or of `pop3_uidl`, from the message `i` on. -/
def listFrom (text : Mdirent → List Byte) : Nat → List Mdirent → S Unit
  | _, [] => pure ()
  | i, m :: rest => do
      if !m.deleted then fprintf (natDigits (i + 1) ++ bytes " " ++ text m ++ bytes "\r\n")
      listFrom text (i + 1) rest

/-- `pop3_list` and `pop3_uidl`, which differ in what they tell of a message. -/
def listing (text : Mdirent → List Byte) (line : List Byte) : S Unit := do
  let s ← get
  let msg := numberOr (-1) (skipBlanks (line.drop 4))
  if 0 < msg ∧ msg < s.mdir.msg.length + 1 then
    match s.mdir.find msg with
    | none => fprintf (bytes "-ERR No such message\r\n")
    | some m => fprintf (bytes "+OK " ++ decimal msg ++ bytes " " ++ text m ++ bytes "\r\n")
  else if msg = -1 then
    fprintf (bytes "+OK " ++ decimal s.mdir.mboxcount ++ bytes " messages (" ++
      decimal (totalSize s.mdir.msg) ++ bytes " octets)\r\n")
    listFrom text 0 s.mdir.msg
    fprintf (bytes ".\r\n")
  else fprintf (bytes "-ERR No such message\r\n")

/-- `pop3_list`. -/
def pop3List (line : List Byte) : S Unit := listing (fun m => decimal m.filesize) line

/-- `pop3_uidl`. -/
def pop3Uidl (line : List Byte) : S Unit := listing Mdirent.uidl line

/-- `mdir->lastmsg` is raised. -/
def touch (msg : Int) : S Unit :=
  setMdir fun mdir => if mdir.lastmsg < msg then { mdir with lastmsg := msg } else mdir

/-- The loop of `pop3_retr` over what `fgets` reads, and the `tcp_send` behind it; `outbuffer` was
collected before. -/
def retrLoop : List (List Byte) → List Byte → S Unit
  | [], outbuffer => send outbuffer
  | buffer :: rest, outbuffer => do
      if buffer.length + outbuffer.length > 1024 - 2 then
        send outbuffer
        retrLoop rest buffer
      else retrLoop rest (outbuffer ++ buffer)

/-- `pop3_retr`. -/
def pop3Retr (env : Env) (line : List Byte) : S Unit := do
  let s ← get
  let msg := numberOr 0 (skipBlanks (line.drop 4))
  match s.mdir.find msg with
  | none => fprintf (bytes "-ERR No such message\r\n")
  | some m => do
      match env.fopen (← tick) m.filename with
      | none => fprintf (bytes "-ERR Error opening msg file\r\n")
      | some content => do
          fprintf (bytes "+OK " ++ decimal m.filesize ++ bytes " octets\r\n")
          retrLoop (fgetsAll 1023 content) []
          fprintf (bytes ".\r\n")
          touch msg

/-- The first loop of `pop3_top`: the header is sent, and what is left of the file is returned. -/
def topHeader : List (List Byte) → S (List (List Byte))
  | [] => return []
  | buffer :: rest => do
      fprintf buffer
      if (striprn buffer).isEmpty then return rest else topHeader rest

/-- The second loop of `pop3_top`. -/
def topBody : Nat → List (List Byte) → S Unit
  | 0, _ => pure ()
  | _, [] => pure ()
  | lines + 1, buffer :: rest => do
      fprintf buffer
      topBody lines rest

/-- `pop3_top`. -/
def pop3Top (env : Env) (line : List Byte) : S Unit := do
  let s ← get
  let p := skipBlanks (line.drop 4)
  let msg := numberOr 0 p
  let lines := numberOr 0 (skipBlanks (p.dropWhile ncIsdigit))
  match s.mdir.find msg with
  | none => fprintf (bytes "-ERR No such message\r\n")
  | some m => do
      match env.fopen (← tick) m.filename with
      | none => fprintf (bytes "-ERR Error opening msg file\r\n")
      | some content => do
          fprintf (bytes "+OK " ++ decimal m.filesize ++ bytes " octets\r\n")
          let rest ← topHeader (fgetsAll 1023 content)
          topBody lines.toNat rest
          fprintf (bytes ".\r\n")
          touch msg

/-- `pop3_dele`. -/
def pop3Dele (line : List Byte) : S Unit := do
  let s ← get
  let msg := numberOr 0 (skipBlanks (line.drop 4))
  if msg < 1 ∨ s.mdir.msg.length < msg then fprintf (bytes "-ERR No such message\r\n")
  else
    match s.mdir.find msg with
    | none => fprintf (bytes "-ERR Message " ++ decimal msg ++ bytes " already deleted\r\n")
    | some m => do
        setMdir fun mdir => { mdir with
          msg := mdir.msg.set (msg - 1).toNat { m with deleted := true }
          mboxcount := mdir.mboxcount - 1 }
        touch msg
        fprintf (bytes "+OK Message " ++ decimal msg ++ bytes " deleted\r\n")

/-- `pop3_capa`. -/
def pop3Capa : S Unit := do
  fprintf (bytes "+OK Capability list follows\r\n")
  fprintf (bytes "USER\r\n")
  fprintf (bytes "TOP\r\n")
  fprintf (bytes "UIDL\r\n")
  fprintf (bytes "STLS\r\n")
  fprintf (bytes ".\r\n")

/-- `pop3_noop`. -/
def pop3Noop : S Unit := fprintf (bytes "+OK\r\n")

/-- `pop3_last`. -/
def pop3Last : S Unit := do
  let s ← get
  fprintf (bytes "+OK " ++ decimal s.mdir.lastmsg ++ bytes "\r\n")

/-- `pop3_rset`. -/
def pop3Rset : S Unit := do
  setMdir fun mdir => { mdir with
    msg := mdir.msg.map fun m => { m with deleted := false }
    mboxcount := mdir.msg.length }
  fprintf (bytes "+OK\r\n")

/-- `conn->state = state`. -/
def setState (state : Nat) : S Unit := modify fun s => { s with conn := { s.conn with state := state } }

/-- `pop3_stls`. -/
def pop3Stls (env : Env) : S Unit := do
  let s ← get
  if env.sslLoaded && !s.conn.socket.usingTls then
    fprintf (bytes "+OK\r\n")
    setState 0
    let outcome := env.handshake (← tick)
    modify fun s => { s with conn := s.conn.accept outcome }
  else fprintf (bytes "-ERR\r\n")

/-! ### The mailbox -/

/-- A round of the loop of `pop3_local` or of `pop3_remote`: `none` for `goto cleanup`, and else
whether there is another one. -/
def mailboxRequest (env : Env) : S (Option Bool) := do
  match ← fgets 127 with
  | none => return none
  | some line => do
      let line := striprn line
      if sameText line (bytes "quit") then
        fprintf (bytes "+OK Goodbye\r\n")
        return some false
      if sameText line (bytes "capa") then pop3Capa
      else if sameText line (bytes "stat") then pop3Stat
      else if startsWith line "list" then pop3List line
      else if startsWith line "retr" then pop3Retr env line
      else if startsWith line "dele" then pop3Dele line
      else if sameText line (bytes "noop") then pop3Noop
      else if sameText line (bytes "last") then pop3Last
      else if sameText line (bytes "rset") then pop3Rset
      else if startsWith line "top" then pop3Top env line
      else if startsWith line "uidl" then pop3Uidl line
      else fprintf (bytes "-ERR Unknown Command\r\n")
      return some true

/-- The loop, with as many rounds as there are bytes: whether it ended with `quit`. -/
def mailboxLoop (env : Env) : Nat → S Bool
  | 0 => throw .stuck
  | fuel + 1 => do
      match ← mailboxRequest env with
      | none => return false
      | some false => return true
      | some true => mailboxLoop env fuel

/-- The messages of a mailbox are served, and those that were deleted are removed behind a `quit`. -/
def serve (env : Env) (msg : List Mdirent) : S Unit := do
  setMdir fun _ => { mboxcount := msg.length, msg := msg }
  let s ← get
  if ← mailboxLoop env (s.conn.left + 1) then
    modify fun s => { s with removed := s.mdir.msg.filter Mdirent.deleted }

/-- The directory of a mailbox. -/
def mailspoolDir (env : Env) (did : Int) (username : List Byte) : List Byte :=
  snprintf 255 (env.var ++ bytes "/domains/" ++ padded 4 did.toNat ++ bytes "/mailspool/" ++ username)

/-- The entry of a file. -/
def mdirent (dirname : List Byte) (i : Nat) (entry : List Byte × Int) : Mdirent where
  localid := i + 1
  filesize := entry.2
  filename := snprintf 511 (fixslashes (snprintf 255 (dirname ++ bytes "/" ++ entry.1)))
  uidl := snprintf 99 entry.1

/-- `pop3_local`. -/
def pop3Local (env : Env) (did : Int) (username : List Byte) : S Unit := do
  if env.spoolReady (← tick) then
    let entries := env.entries (← tick)
    serve env (entries.mapIdx (mdirent (mailspoolDir env did username)))

/-- `pop3_remote`. -/
def pop3Remote (env : Env) : S Unit := do
  match env.headers (← tick) with
  | none => return
  | some msg => serve env msg

/-! ### The login -/

/-- `user`. -/
def pop3User (line : List Byte) : S Unit := do
  let s ← get
  let username := snprintf 63 (skipBlanks (line.drop 4))
  let mbox := if username.contains (ch ':') then max (atoi ((username.dropWhile (· != ch ':')).drop 1)) 0 else s.mbox
  let username := username.takeWhile (· != ch ':')
  let domain := if username.contains (ch '@') then snprintf 63 ((username.dropWhile (· != ch '@')).drop 1) else s.domain
  let username := username.takeWhile (· != ch '@')
  set { s with username := username, domain := domain, mbox := mbox }
  fprintf (bytes "+OK USER '" ++ username ++ bytes "' MBOX '" ++ decimal mbox ++ bytes "'\r\n")

/-- `pass`: the user that has logged in. -/
def pop3Pass (env : Env) (line : List Byte) : S (Option (Int × List Byte)) := do
  let password := snprintf 63 (skipBlanks (line.drop 4))
  modify fun s => { s with password := password }
  let n ← tick
  let s ← get
  match env.authLogin n s.username s.domain s.password s.mbox with
  | some user => do
      fprintf (bytes "+OK PASS accepted\r\n")
      return some user
  | none => do
      modify fun s => { s with username := [], domain := [], password := [], mbox := 0 }
      fprintf (bytes "-ERR Bad Password\r\n")
      return none

/-- How a round of `pop3_dorequest` ends. -/
inductive Login where
  | leave
  | again
  | user (did : Int) (username : List Byte)

/-- A round of the loop of `pop3_dorequest`. -/
def loginRequest (env : Env) : S Login := do
  match ← fgets 127 with
  | none => return .leave
  | some line => do
      let line := striprn line
      let s ← get
      let refused := env.sslLoaded && !s.conn.socket.usingTls && env.requireTls
      if sameText line (bytes "quit") then
        fprintf (bytes "+OK Goodbye\r\n")
        return .leave
      else if sameText line (bytes "capa") then
        pop3Capa
        return .again
      else if sameText line (bytes "stls") then
        pop3Stls env
        return .again
      else if startsWith line "user" then
        if refused then fprintf (bytes "-ERR TLS Required\r\n") else pop3User line
        return .again
      else if startsWith line "pass" then
        if refused then
          fprintf (bytes "-ERR TLS Required\r\n")
          return .again
        else
          match ← pop3Pass env line with
          | some (did, username) => return .user did username
          | none => return .again
      else
        fprintf (bytes "-ERR Unknown Command\r\n")
        return .again

/-- The loop of `pop3_dorequest`, with as many rounds as there are bytes. -/
def loginLoop (env : Env) : Nat → S (Option (Int × List Byte))
  | 0 => throw .stuck
  | fuel + 1 => do
      match ← loginRequest env with
      | .leave => return none
      | .user did username => return some (did, username)
      | .again => loginLoop env fuel

/-- `pop3_dorequest`. Behind a login the relay rules of the client are updated. -/
def pop3Dorequest (env : Env) : S Unit := do
  fprintf (bytes "+OK Welcome to NullLogic GroupServer POP3d\r\n")
  let s ← get
  match ← loginLoop env (s.conn.left + 1) with
  | none => return
  | some (did, username) => do
      setState 1
      let s ← get
      if s.mbox > 0 then pop3Remote env else pop3Local env did username

/-- Surroundings in which nothing fails, with an empty mailbox. -/
def goodEnv : Env where
  var := bytes "v"
  sslLoaded := true
  requireTls := true
  authLogin := fun _ username _ _ _ => some (1, username)
  spoolReady := fun _ => true
  entries := fun _ => []
  headers := fun _ => some []
  fopen := fun _ _ => some []
  handshake := fun _ => .done

/-- The session of a new connection. -/
def newSession (recvs sslReads : List (List Byte)) : Session :=
  { conn := { socket := { recvs := recvs, sslReads := sslReads } } }

end NullG.Pop3d
