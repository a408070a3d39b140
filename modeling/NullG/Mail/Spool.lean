/-
Files of messages (`smtpd_bounce.c`, `domains.c`).

`bounce_send` is in both mail servers. What the database, the clock and the file system answer is
given by a `System`; the answers may be different at every call (`tick`). Files are kept on a
`Disk`; a file that was opened for writing is written as a whole.
-/

import NullG.Mail.Text

namespace NullG.Mail

open NullG.Nsp NullG.Lib

/-- A row of `gw_users`. -/
structure User where
  userid : Int
  username : List Byte
  domainid : Int
  deriving DecidableEq

/-- What the servers are told from outside. The answers that depend on a number are those of the
call of that number; a query that fails has no answer. -/
structure System where
  var : List Byte
  hostName : List Byte
  domainGetid : Nat → List Byte → Int
  /-- `gw_users` by name and domain, as `bounce_send` asks for them -/
  usersExact : Nat → List Byte → Int → Option (List User)
  /-- the directory of a mailbox is there, or was made -/
  spoolReady : Nat → Bool
  /-- seconds and milliseconds -/
  clock : Nat → Nat × Nat
  /-- how many readings of the clock a file name may need -/
  patience : Nat
  opens : Nat → Bool
  date : Nat → List Byte
  sqlDate : Nat → List Byte

/-- The files and what they hold. -/
abbrev Disk := List Byte → Option (List Byte)

/-- `fopen(path, "wb")`, and what is written to the file. -/
def Disk.write (disk : Disk) (path content : List Byte) : Disk := fun p => if p = path then some content else disk p

/-- `unlink`. -/
def Disk.unlink (disk : Disk) (path : List Byte) : Disk := fun p => if p = path then none else disk p

/-- `stat` finds the file. -/
def Disk.stat (disk : Disk) (path : List Byte) : Bool := (disk path).isSome

/-- The state outside of a session. -/
structure World where
  disk : Disk := fun _ => none
  tick : Nat := 0

/-- The clock has not left the times of files that are there. -/
inductive Stop where
  | stuck
  deriving DecidableEq

/-- An action on the files. -/
abbrev W := EStateM Stop World

/-- The next call to the surroundings. -/
def tick : W Nat := do
  let w ← get
  set { w with tick := w.tick + 1 }
  return w.tick

/-- `fopen(path, "wb")` and what is written, or NULL. -/
def fopenWrite (sys : System) (path content : List Byte) : W Bool := do
  let n ← tick
  if !sys.opens n then return false
  modify fun w => { w with disk := w.disk.write path content }
  return true

/-- `unlink(path)`. -/
def unlink (path : List Byte) : W Unit := modify fun w => { w with disk := w.disk.unlink path }

/-! ### Names of files -/

/-- `%d%03d` of a time. -/
def stampText (t : Nat × Nat) : List Byte := natDigits t.1 ++ padded 3 t.2

/-- The directory of a mailbox. -/
def mailspool (var : List Byte) (domainid : Int) (mailbox : List Byte) : List Byte :=
  var ++ bytes "/domains/" ++ padded 4 domainid.toNat ++ bytes "/mailspool/" ++ mailbox

/-- The file of a message in a mailbox. -/
def mailspoolFile (var : List Byte) (domainid : Int) (mailbox : List Byte) (t : Nat × Nat) : List Byte :=
  fixslashes (snprintf 255 (mailspool var domainid mailbox ++ bytes "/" ++ stampText t ++ bytes ".msg"))

/-- The file of a message in the queue. -/
def mqueueFile (var : List Byte) (t : Nat × Nat) : List Byte :=
  fixslashes (snprintf 255 (var ++ bytes "/spool/mqueue/" ++ stampText t ++ bytes ".msg"))

/-- The file of a queue entry. -/
def mqinfoFile (var : List Byte) (t : Nat × Nat) : List Byte :=
  fixslashes (snprintf 255 (var ++ bytes "/spool/mqinfo/" ++ stampText t ++ bytes ".dat"))

/-- The loop from `retry1` or `retry2` on: the first time whose names are not taken. -/
def freeTime (sys : System) (names : Nat × Nat → List (List Byte)) : Nat → W (Nat × Nat)
  | 0 => throw .stuck
  | patience + 1 => do
      let n ← tick
      let t := sys.clock n
      let w ← get
      if (names t).any w.disk.stat then freeTime sys names patience else return t

/-- A free name in a mailbox. -/
def freeMailspool (sys : System) (domainid : Int) (mailbox : List Byte) : W (List Byte) := do
  let t ← freeTime sys (fun t => [mailspoolFile sys.var domainid mailbox t]) sys.patience
  return mailspoolFile sys.var domainid mailbox t

/-- Free names in the queue. -/
def freeMqueue (sys : System) : W (List Byte × List Byte) := do
  let t ← freeTime sys (fun t => [mqueueFile sys.var t, mqinfoFile sys.var t]) sys.patience
  return (mqueueFile sys.var t, mqinfoFile sys.var t)

/-! ### Bounces -/

/-- The lines of the original message that are copied, with `br`. -/
def copyOriginal : Nat → List (List Byte) → List Byte
  | _, [] => []
  | br, line :: lines =>
      if br + line.length > 32768 then [] else line ++ copyOriginal (br + line.length) lines

/-- The text of a bounce. -/
def bounceText (hostName date sender rcpt reason : List Byte) (original : Option (List Byte)) : List Byte :=
  bytes "Date: " ++ date ++ bytes "\r\nFrom: MAILER-DAEMON <mailer-daemon@" ++ hostName ++
  bytes ">\r\nSubject: failure notice\r\nTo: <" ++ sender ++
  bytes ">\r\n\r\nYour e-mail was undeliverable.  Sorry.\r\n\r\nOriginal recipient: <" ++ rcpt ++
  bytes ">\r\n[" ++ reason ++ bytes "]\r\n" ++
  match original with
  | none => []
  | some content =>
      bytes "\r\n--- Below this line is a copy of the original message.\r\n\r\n" ++
        copyOriginal 0 (fgetsAll 1023 content)

/-- The queue entry of a bounce. -/
def bounceInfo (sender date : List Byte) : List Byte :=
  bytes "MAIL:\r\nRCPT: " ++ sender ++ bytes "\r\nDATE: " ++ date ++ bytes "\r\n"

/-- `bounce_send` from the point where the name of the file is found; `info` is that of the queue entry. -/
def writeBounce (sys : System) (path : List Byte) (info : Option (List Byte)) (sender rcpt : List Byte)
    (origMsg : Option (List Byte)) (reason : List Byte) : W Int := do
  let n ← tick
  let w ← get
  let text := bounceText sys.hostName (sys.date n) sender rcpt reason (origMsg.bind w.disk)
  if ← fopenWrite sys path text then
    match info with
    | none => return 0
    | some info => do
        if ← fopenWrite sys info (bounceInfo sender (sys.sqlDate n)) then return 0
        unlink path
        return -1
  else return -1

/-- `bounce_send`. -/
def bounceSend (sys : System) (sender rcpt : List Byte) (origMsg : Option (List Byte)) (reason : List Byte) :
    W Int := do
  if sender.isEmpty then return 0
  let (name, host) := splitAddr (snprintf 127 sender)
  let localdomainid := sys.domainGetid (← tick) host
  if localdomainid > 0 then
    match sys.usersExact (← tick) name localdomainid with
    | none => return -1
    | some rows =>
        let userid : Int :=
          match rows with
          | [u] => u.userid
          | _ => 0
        if userid < 1 then return -1
        if !sys.spoolReady (← tick) then return -1
        let path ← freeMailspool sys localdomainid name
        writeBounce sys path none sender rcpt origMsg reason
  else
    let (path, info) ← freeMqueue sys
    writeBounce sys path (some info) sender rcpt origMsg reason

end NullG.Mail
