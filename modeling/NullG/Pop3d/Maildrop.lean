/-
The mailbox that a POP3 session shows.

A `Maildrop` is what a client may rely on: the messages that were there when the mailbox was opened, each under
its number, and the numbers of those that are marked. Every command of `pop3_local` has its answer from it, and
DELE and RSET alone change the marks. The numbers in the arguments are read with `atoi`, which takes some large
ones for others.
-/

import Mathlib.Data.Finset.Insert
import NullG.Lib.Runs
import NullG.Mail.Numbers
import NullG.Net.Left
import NullG.Pop3d.Replies

namespace NullG.Pop3d

open NullG.Nsp NullG.Lib NullG.Net NullG.Mail

/-! ### Requests -/

/-- The value of the digits that a text starts with. -/
def digitsValue (p : List Byte) : Nat := (p.takeWhile ncIsdigit).foldl (fun n c => n * 10 + (c - ch '0').toNat) 0

/-- The number that a request names, if it names one. -/
def argument (line : List Byte) : Option Nat :=
  let p := skipBlanks (line.drop 4)
  if (p.head?.map ncIsdigit).getD false then some (digitsValue p) else none

/-- The number that the server reads in its place. -/
def numberRead (line : List Byte) : Int := atoi (skipBlanks (line.drop 4))

/-- What a request asks for. -/
inductive Command where
  | stat
  | list (n : Option Nat)
  | uidl (n : Option Nat)
  | retr (n : Option Nat)
  | top (n : Option Nat)
  | dele (n : Option Nat)
  | rset
  | other
  deriving DecidableEq

namespace Command

/-- The command in a line. -/
def of (line : List Byte) : Command :=
  if sameText line (bytes "capa") then other
  else if sameText line (bytes "stat") then stat
  else if startsWith line "list" then list (argument line)
  else if startsWith line "retr" then retr (argument line)
  else if startsWith line "dele" then dele (argument line)
  else if sameText line (bytes "noop") then other
  else if sameText line (bytes "last") then other
  else if sameText line (bytes "rset") then rset
  else if startsWith line "top" then top (argument line)
  else if startsWith line "uidl" then uidl (argument line)
  else other

/-- The number that is named. -/
def number : Command → Option Nat
  | list n | uidl n | retr n | top n | dele n => n
  | stat | rset | other => none

/-- A command that without a number is about all messages. -/
def lists : Command → Bool
  | list _ | uidl _ => true
  | _ => false

end Command

/-- What `pop3_local` does for a line that is not `quit`. -/
def mailboxCommand (env : Env) (line : List Byte) : S Unit :=
  if sameText line (bytes "capa") then pop3Capa
  else if sameText line (bytes "stat") then pop3Stat
  else if startsWith line "list" then pop3List line
  else if startsWith line "retr" then pop3Retr env line
  else if startsWith line "dele" then pop3Dele line
  else if sameText line (bytes "noop") then pop3Noop
  else if sameText line (bytes "last") then pop3Last
  else if sameText line (bytes "rset") then pop3Rset
  else if startsWith line "top" then pop3Top env line
  else if startsWith line "uidl" then pop3Uidl line
  else fprintf (bytes "-ERR Unknown Command\r\n")

/-- A line is read, and it is `quit`. -/
def quits (s : Session) : Bool :=
  match fgets 127 s with
  | .ok (some line) _ => sameText (striprn line) (bytes "quit")
  | _ => false

theorem ite_bind {c : Prop} [Decidable c] (x y : S Unit) (f : Unit → S (Option Bool)) :
    ((if c then x else y) >>= f) = if c then x >>= f else y >>= f := by
  split <;> rfl

theorem mailboxRequest_run {env : Env} {s s' : Session} {line : List Byte} (hread : fgets 127 s = .ok (some line) s') :
    mailboxRequest env s =
      if sameText (striprn line) (bytes "quit") then .ok (some false) (s'.sends [bytes "+OK Goodbye\r\n"])
      else (do mailboxCommand env (striprn line); return some true : S (Option Bool)) s' := by
  unfold mailboxRequest
  rw [run_bind_of_ok hread]
  dsimp only
  by_cases hquit : sameText (striprn line) (bytes "quit") = true
  · rw [if_pos hquit, if_pos hquit]
    rfl
  · rw [if_neg hquit, if_neg hquit]
    unfold mailboxCommand
    simp only [ite_bind]

/-! ### The mailbox of a client -/

/-- The messages of a mailbox, and the numbers of those that are marked. -/
structure Maildrop where
  messages : List Mdirent
  /-- the messages are as they were when the mailbox was opened -/
  fresh : ∀ m ∈ messages, m.deleted = false
  marked : Finset Nat := ∅

namespace Maildrop

/-- The message of a number, if there is one that is not marked. -/
def message (box : Maildrop) (n : Int) : Option Mdirent :=
  if 1 ≤ n ∧ n.toNat ∉ box.marked then box.messages[n.toNat - 1]? else none

/-- The messages that are not marked, each with its number. -/
def existing (box : Maildrop) : List (Mdirent × Nat) := (box.messages.zipIdx 1).filter (·.2 ∉ box.marked)

/-- The messages that are marked. -/
def condemned (box : Maildrop) : List Mdirent := ((box.messages.zipIdx 1).filter (·.2 ∈ box.marked)).map Prod.fst

/-- What a command makes of the marks. -/
def after (box : Maildrop) : Command → Maildrop
  | .dele (some n) => if (box.message n).isSome then { box with marked := insert n box.marked } else box
  | .rset => { box with marked := ∅ }
  | _ => box

/-- The entries as the server keeps them. -/
def entries (box : Maildrop) : List Mdirent :=
  (box.messages.zipIdx 1).map fun p => { p.1 with deleted := decide (p.2 ∈ box.marked) }

/-- The sizes of the messages, added up. -/
def size (box : Maildrop) : Int := (box.existing.map fun p => p.1.filesize).sum

end Maildrop

/-- The number that is read is the one that was sent, or there is no message of either. -/
def Reads (box : Maildrop) (line : List Byte) : Prop :=
  ∀ n, (Command.of line).number = some n → numberRead line = n ∨
    box.message n = none ∧ box.message (numberRead line) = none ∧ ((Command.of line).lists = true → numberRead line ≠ -1)

/-- What is sent between two states. -/
def Sends (s t : Session) (texts : List (List Byte)) : Prop :=
  t.conn.sent = s.conn.sent ++ texts.map (List.take 2046)

/-- What is sent where there is no such message. -/
def noSuch : List Byte := bytes "-ERR No such message\r\n"

/-- The answer to LIST or to UIDL. -/
def Listed (text : Mdirent → List Byte) (box : Maildrop) (s t : Session) : Option Nat → Prop
  | none => Sends s t ([bytes "+OK " ++ decimal box.existing.length ++ bytes " messages (" ++ decimal box.size ++
      bytes " octets)\r\n"] ++ box.existing.map (fun p => natDigits p.2 ++ bytes " " ++ text p.1 ++ bytes "\r\n") ++
      [bytes ".\r\n"])
  | some n =>
      match box.message n with
      | none => Sends s t [noSuch]
      | some m => Sends s t [bytes "+OK " ++ decimal n ++ bytes " " ++ text m ++ bytes "\r\n"]

/-- The answer to RETR or to TOP, up to the lines of the message. -/
def Opened (env : Env) (box : Maildrop) (s t : Session) (n : Option Nat) : Prop :=
  match box.message (n.getD 0) with
  | none => Sends s t [noSuch]
  | some m =>
      match env.fopen s.tick m.filename with
      | none => Sends s t [bytes "-ERR Error opening msg file\r\n"]
      | some _ => ∃ calls, t.conn.sent =
          s.conn.sent ++ (bytes "+OK " ++ decimal m.filesize ++ bytes " octets\r\n").take 2046 :: calls

/-- What a command is answered. -/
def Answers (env : Env) (box : Maildrop) (s t : Session) : Command → Prop
  | .stat => Sends s t [bytes "+OK " ++ decimal box.existing.length ++ bytes " " ++ decimal box.size ++ bytes "\r\n"]
  | .list n => Listed (fun m => decimal m.filesize) box s t n
  | .uidl n => Listed Mdirent.uidl box s t n
  | .retr n | .top n => Opened env box s t n
  | .dele n =>
      match box.message (n.getD 0) with
      | none => ∃ reason, Sends s t [bytes "-ERR " ++ reason]
      | some _ => Sends s t [bytes "+OK Message " ++ decimal (n.getD 0 : Nat) ++ bytes " deleted\r\n"]
  | .rset => Sends s t [bytes "+OK\r\n"]
  | .other => True

/-- The server keeps the entries of a mailbox, and how many of them exist. -/
structure Holds (box : Maildrop) (s : Session) : Prop where
  entries : s.mdir.msg = box.entries
  count : s.mdir.mboxcount = box.existing.length

section

variable {box : Maildrop} {s : Session}

theorem entries_length (box : Maildrop) : box.entries.length = box.messages.length := by
  unfold Maildrop.entries
  rw [List.length_map, List.length_zipIdx]

theorem entries_getElem? (box : Maildrop) (i : Nat) :
    box.entries[i]? = box.messages[i]?.map fun m => { m with deleted := decide (i + 1 ∈ box.marked) } := by
  unfold Maildrop.entries
  rw [List.getElem?_map, List.getElem?_zipIdx, Option.map_map, Nat.add_comm 1 i]
  rfl

theorem unmarked {m : Mdirent} (h : m.deleted = false) : { m with deleted := false } = m := by
  rw [← h]

/-- The server finds the message of a number exactly where there is one. -/
theorem find_eq (h : Holds box s) (n : Int) : s.mdir.find n = box.message n := by
  unfold Mdir.find Maildrop.message
  rw [h.entries, entries_length, entries_getElem?]
  by_cases hpos : 1 ≤ n
  · have hsub : (n - 1).toNat = n.toNat - 1 := by omega
    have hsucc : n.toNat - 1 + 1 = n.toNat := by omega
    rw [hsub, hsucc]
    by_cases hlen : (box.messages.length : Int) < n
    · have hout : box.messages[n.toNat - 1]? = none := List.getElem?_eq_none (by omega)
      rw [if_pos (.inr hlen), hout, ite_self]
    · rw [if_neg (by omega)]
      obtain ⟨m, hm⟩ : ∃ m, box.messages[n.toNat - 1]? = some m :=
        ⟨_, List.getElem?_eq_getElem (by omega)⟩
      have hfresh := box.fresh m (List.mem_of_getElem? hm)
      rw [hm]
      by_cases hmark : n.toNat ∈ box.marked
      · simp [hmark]
      · simp [hmark, hpos, unmarked hfresh, hfresh]
  · rw [if_pos (.inl (by omega)), if_neg fun h => hpos h.1]

theorem message_some {n : Int} {m : Mdirent} (h : box.message n = some m) : 1 ≤ n ∧ n ≤ box.messages.length := by
  unfold Maildrop.message at h
  split at h
  · have hlt := (List.getElem?_eq_some_iff.mp h).1
    omega
  · cases h

/-- The entries that are not deleted are the messages that exist. -/
theorem filter_entries (box : Maildrop) {α : Type} (f : Mdirent → α)
    (hf : ∀ (m : Mdirent) (b : Bool), f { m with deleted := b } = f m) :
    (box.entries.filter (!·.deleted)).map f = box.existing.map fun p => f p.1 := by
  unfold Maildrop.entries Maildrop.existing
  generalize box.messages.zipIdx 1 = l
  induction l with
  | nil => rfl
  | cons p l ih =>
      by_cases hmark : p.2 ∈ box.marked
      · simpa [hmark] using ih
      · simp only [hmark, decide_false, not_false_eq_true, List.map_cons, List.filter_cons, Bool.not_false, ite_true,
          decide_true, hf]
        rw [ih]

theorem existing_length (box : Maildrop) : box.existing.length = box.entries.countP (!·.deleted) := by
  have h := congrArg List.length (filter_entries box (fun _ => ()) fun _ _ => rfl)
  rw [List.length_map, List.length_map] at h
  rw [← h, List.countP_eq_length_filter]

theorem totalSize_eq (h : Holds box s) : totalSize s.mdir.msg = box.size := by
  unfold totalSize Maildrop.size
  rw [h.entries, filter_entries box Mdirent.filesize fun _ _ => rfl]

/-- The entry of a message that is marked is set. -/
theorem entries_insert {n : Nat} (hn : 1 ≤ n) {m : Mdirent} (hm : box.messages[n - 1]? = some m) :
    ({ box with marked := insert n box.marked } : Maildrop).entries = box.entries.set (n - 1) { m with deleted := true } := by
  apply List.ext_getElem?
  intro i
  rw [entries_getElem?, List.getElem?_set, entries_getElem?]
  by_cases hi : n - 1 = i
  · obtain rfl := hi
    have hmem : n - 1 + 1 ∈ insert n box.marked := by
      rw [Nat.sub_add_cancel hn]
      exact Finset.mem_insert_self n _
    have hlt : n - 1 < box.entries.length := by
      rw [entries_length]
      exact (List.getElem?_eq_some_iff.mp hm).1
    rw [if_pos rfl, if_pos hlt, hm, Option.map_some, decide_eq_true hmem]
  · have hiff : i + 1 ∈ insert n box.marked ↔ i + 1 ∈ box.marked := by
      rw [Finset.mem_insert]
      exact ⟨fun h => h.resolve_left (by omega), .inr⟩
    rw [if_neg hi]
    simp only [hiff]

theorem entries_reset (box : Maildrop) :
    ({ box with marked := ∅ } : Maildrop).entries = box.entries.map fun m => { m with deleted := false } := by
  unfold Maildrop.entries
  rw [List.map_map]
  rfl

theorem holds_insert {n : Nat} {m : Mdirent} (h : Holds box s) (hm : box.message n = some m) :
    Holds { box with marked := insert n box.marked } { s with mdir := { s.mdir with
      msg := s.mdir.msg.set (n - 1) { m with deleted := true }
      mboxcount := s.mdir.mboxcount - 1 } } := by
  unfold Maildrop.message at hm
  split at hm
  · rename_i hn
    rw [Int.toNat_natCast] at hm hn
    have hpos : 1 ≤ n := by omega
    have hset := entries_insert hpos hm
    have hlt : n - 1 < box.entries.length := by
      rw [entries_length]
      exact (List.getElem?_eq_some_iff.mp hm).1
    refine ⟨?_, ?_⟩
    · rw [hset, ← h.entries]
    · have hget : box.entries[n - 1].deleted = false := by
        have hget := entries_getElem? box (n - 1)
        rw [List.getElem?_eq_getElem hlt, hm, Nat.sub_add_cancel hpos] at hget
        rw [Option.some.inj hget]
        exact decide_eq_false hn.2
      have hone : 1 ≤ box.entries.countP (!·.deleted) :=
        List.countP_pos_iff.mpr ⟨_, List.getElem_mem hlt, by rw [hget]; rfl⟩
      rw [existing_length, hset, List.countP_set hlt, hget]
      show s.mdir.mboxcount - 1 = _
      rw [h.count, existing_length]
      simp only [Bool.not_false, Bool.not_true, if_true, Bool.false_eq_true, if_false]
      omega
  · cases hm

theorem holds_reset (h : Holds box s) :
    Holds { box with marked := ∅ } { s with mdir := { s.mdir with
      msg := s.mdir.msg.map fun m => { m with deleted := false }
      mboxcount := s.mdir.msg.length } } where
  entries := by rw [entries_reset, ← h.entries]
  count := by
    show (s.mdir.msg.length : Int) = _
    have hall : ({ box with marked := ∅ } : Maildrop).existing = box.messages.zipIdx 1 :=
      List.filter_eq_self.mpr fun p _ => decide_eq_true (Finset.notMem_empty p.2)
    rw [hall, List.length_zipIdx, h.entries, entries_length]

end

/-! ### Commands -/

/-- The connection and what was removed are left alone. -/
structure Beside (s t : Session) : Prop where
  socket : t.conn.socket = s.conn.socket
  removed : t.removed = s.removed

/-- A part of a session that comes to its end, and leaves alone what it does not serve. -/
def Calm {α : Type} (x : S α) : Prop := ∀ s₀, Runs (Beside s₀) x (fun _ t => Beside s₀ t) fun _ _ => False

namespace Calm

variable {α β : Type}

theorem pure (a : α) : Calm (Pure.pure a : S α) := fun _ => .pure fun _ h => h

theorem bind {x : S α} {f : α → S β} (hx : Calm x) (hf : ∀ a, Calm (f a)) : Calm (x >>= f) :=
  fun s₀ => (hx s₀).bind fun a => hf a s₀

theorem read {f : Session → S β} (hf : ∀ s, Calm (f s)) : Calm (get >>= f) :=
  fun s₀ => .read fun s => (hf s s₀).pre fun _ h => h.1

theorem ite {c : Prop} [Decidable c] {x y : S α} (hx : Calm x) (hy : Calm y) : Calm (if c then x else y) :=
  fun s₀ => .ite (fun _ => hx s₀) fun _ => hy s₀

theorem fprintf (text : List Byte) : Calm (fprintf text) := fun _ => .modify fun _ h => ⟨h.socket, h.removed⟩

theorem send (text : List Byte) : Calm (send text) := fun _ => .modify fun _ h => ⟨h.socket, h.removed⟩

theorem setMdir (f : Mdir → Mdir) : Calm (setMdir f) := fun _ => .modify fun _ h => ⟨h.socket, h.removed⟩

theorem tick : Calm tick := fun _ s h => (⟨h.socket, h.removed⟩ : Beside _ { s with tick := s.tick + 1 })

/-- How such a part ends. -/
theorem run {x : S α} (hx : Calm x) (s : Session) : ∃ a t, x s = .ok a t ∧ Beside s t := by
  have hends := hx s s ⟨rfl, rfl⟩
  cases hrun : x s with
  | ok a t =>
      rw [hrun] at hends
      exact ⟨a, t, rfl, hends⟩
  | error e t =>
      rw [hrun] at hends
      exact hends.elim

theorem listFrom (text : Mdirent → List Byte) (i : Nat) (msg : List Mdirent) : Calm (listFrom text i msg) := by
  induction msg generalizing i with
  | nil => exact pure ()
  | cons m msg ih =>
      dsimp only [Pop3d.listFrom]
      exact ite (bind (fprintf _) fun _ => ih (i + 1)) (ih (i + 1))

theorem listing (text : Mdirent → List Byte) (line : List Byte) : Calm (listing text line) := by
  unfold Pop3d.listing
  refine read fun s => ite ?_ (ite ?_ (fprintf _))
  · split
    · exact fprintf _
    · exact fprintf _
  · exact bind (fprintf _) fun _ => bind (listFrom text 0 _) fun _ => fprintf _

theorem retrLoop (ps : List (List Byte)) (outbuffer : List Byte) : Calm (retrLoop ps outbuffer) := by
  induction ps generalizing outbuffer with
  | nil => exact send outbuffer
  | cons p ps ih =>
      unfold Pop3d.retrLoop
      exact ite (bind (send outbuffer) fun _ => ih p) (ih _)

theorem topHeader (ps : List (List Byte)) : Calm (topHeader ps) := by
  induction ps with
  | nil => exact pure []
  | cons p ps ih =>
      unfold Pop3d.topHeader
      exact bind (fprintf p) fun _ => ite (pure ps) ih

theorem topBody (n : Nat) (ps : List (List Byte)) : Calm (topBody n ps) := by
  induction n generalizing ps with
  | zero => exact pure ()
  | succ n ih =>
      cases ps with
      | nil => exact pure ()
      | cons p ps =>
          unfold Pop3d.topBody
          exact bind (fprintf p) fun _ => ih ps

theorem retr (env : Env) (line : List Byte) : Calm (pop3Retr env line) := by
  unfold pop3Retr
  refine read fun s => ?_
  dsimp only
  split
  · exact fprintf _
  · refine bind tick fun n => ?_
    split
    · exact fprintf _
    · exact bind (fprintf _) fun _ => bind (retrLoop _ _) fun _ => bind (fprintf _) fun _ => setMdir _

theorem top (env : Env) (line : List Byte) : Calm (pop3Top env line) := by
  unfold pop3Top
  refine read fun s => ?_
  dsimp only
  split
  · exact fprintf _
  · refine bind tick fun n => ?_
    split
    · exact fprintf _
    · exact bind (fprintf _) fun _ => bind (topHeader _) fun _ => bind (topBody _ _) fun _ =>
        bind (fprintf _) fun _ => setMdir _

theorem dele (line : List Byte) : Calm (pop3Dele line) := by
  unfold pop3Dele
  refine read fun s => ite (fprintf _) ?_
  split
  · exact fprintf _
  · exact bind (setMdir _) fun _ => bind (setMdir _) fun _ => fprintf _

theorem command (env : Env) (line : List Byte) : Calm (mailboxCommand env line) := by
  unfold mailboxCommand
  refine ite ?_ (ite ?_ (ite (listing _ line) (ite (retr env line) (ite (dele line) (ite (fprintf _) (ite ?_ (ite ?_
    (ite (top env line) (ite (listing _ line) (fprintf _))))))))))
  · exact bind (fprintf _) fun _ => bind (fprintf _) fun _ => bind (fprintf _) fun _ => bind (fprintf _) fun _ =>
      bind (fprintf _) fun _ => fprintf _
  · exact read fun s => fprintf _
  · exact read fun s => fprintf _
  · exact bind (setMdir _) fun _ => fprintf _

end Calm

/-! ### Answers -/

section

variable {env : Env} {box : Maildrop} {s t : Session} {line : List Byte}

theorem sends_text (s : Session) (text : List Byte) : Sends s (s.sends [text.take 2046]) [text] := rfl

/-- The lines of a listing are those of the messages that exist. -/
theorem listFrom_run {text : Mdirent → List Byte} (htext : ∀ (m : Mdirent) (b : Bool), text { m with deleted := b } = text m)
    (marked : Finset Nat) (ms : List Mdirent) (i : Nat) (s : Session) :
    listFrom text i ((ms.zipIdx (i + 1)).map fun p => { p.1 with deleted := decide (p.2 ∈ marked) }) s =
      .ok () (s.sends ((((ms.zipIdx (i + 1)).filter (·.2 ∉ marked)).map
        fun p => natDigits p.2 ++ bytes " " ++ text p.1 ++ bytes "\r\n").map (List.take 2046))) := by
  induction ms generalizing i s with
  | nil =>
      show EStateM.Result.ok () s = _
      rw [List.zipIdx_nil, List.filter_nil, List.map_nil, List.map_nil, sends_nil]
  | cons m ms ih =>
      rw [List.zipIdx_cons, List.map_cons]
      dsimp only [listFrom]
      by_cases hmark : i + 1 ∈ marked
      · have hfilter : ((m, i + 1) :: ms.zipIdx (i + 1 + 1)).filter (·.2 ∉ marked) =
            (ms.zipIdx (i + 1 + 1)).filter (·.2 ∉ marked) := by simp [hmark]
        rw [decide_eq_true hmark, hfilter]
        exact ih (i + 1) s
      · have hfilter : ((m, i + 1) :: ms.zipIdx (i + 1 + 1)).filter (·.2 ∉ marked) =
            (m, i + 1) :: (ms.zipIdx (i + 1 + 1)).filter (·.2 ∉ marked) := by simp [hmark]
        rw [decide_eq_false hmark, hfilter, htext]
        have hsend := fprintf_run (natDigits (i + 1) ++ bytes " " ++ text m ++ bytes "\r\n") s
        refine (run_bind_of_ok hsend).trans ?_
        rw [ih (i + 1), sends_sends]
        rfl

/-- The number that a command works on, where one is read that was sent. -/
theorem reads_some {n : Nat} (hn : (Command.of line).number = some n) (hreads : Reads box line) :
    box.message (numberRead line) = box.message n ∧ (box.message n ≠ none → numberRead line = n) ∧
      ((Command.of line).lists = true → numberRead line ≠ -1) := by
  rcases hreads n hn with h | ⟨hnone, hread, hlists⟩
  · rw [h]
    exact ⟨rfl, fun _ => rfl, fun _ => by omega⟩
  · exact ⟨hread.trans hnone.symm, fun h => absurd hnone h, hlists⟩

theorem numberOr_none {d : Int} (h : argument line = none) : numberOr d (skipBlanks (line.drop 4)) = d := by
  unfold argument at h
  dsimp only at h
  split at h
  · cases h
  · exact if_neg ‹_›

theorem numberOr_some {d : Int} {n : Nat} (h : argument line = some n) :
    numberOr d (skipBlanks (line.drop 4)) = numberRead line := by
  unfold argument at h
  dsimp only at h
  split at h
  · exact if_pos ‹_›
  · cases h

theorem listed_none {text : Mdirent → List Byte} {n : Nat} (hm : box.message n = none) (h : Sends s t [noSuch]) :
    Listed text box s t (some n) := by
  simpa only [Listed, hm] using h

theorem listed_some {text : Mdirent → List Byte} {n : Nat} {m : Mdirent} (hm : box.message n = some m)
    (h : Sends s t [bytes "+OK " ++ decimal n ++ bytes " " ++ text m ++ bytes "\r\n"]) :
    Listed text box s t (some n) := by
  simpa only [Listed, hm] using h

/-- LIST and UIDL show the messages that exist. -/
theorem listing_answers (text : Mdirent → List Byte)
    (htext : ∀ (m : Mdirent) (b : Bool), text { m with deleted := b } = text m) (h : Holds box s)
    (hcmd : (Command.of line).number = argument line) (hlists : (Command.of line).lists = true) (hreads : Reads box line)
    (hrun : listing text line s = .ok () t) : t.mdir = s.mdir ∧ Listed text box s t (argument line) := by
  unfold listing at hrun
  obtain ⟨s₁, s₂, hget, hrun⟩ := bind_run_ok hrun
  cases hget
  dsimp only at hrun
  rw [find_eq h, h.count, totalSize_eq h, h.entries, entries_length] at hrun
  cases harg : argument line with
  | none =>
      rw [numberOr_none harg, if_neg (by omega), if_pos rfl, run_bind_of_ok (fprintf_run _ s)] at hrun
      have hrows := listFrom_run htext box.marked box.messages 0 (s.sends [(bytes "+OK " ++
        decimal box.existing.length ++ bytes " messages (" ++ decimal box.size ++ bytes " octets)\r\n").take 2046])
      unfold Maildrop.entries at hrun
      rw [run_bind_of_ok hrows, sends_sends] at hrun
      cases hrun
      refine ⟨rfl, ?_⟩
      unfold Listed Sends
      rw [List.map_append, List.map_append]
      exact List.append_assoc _ _ _
  | some n =>
      obtain ⟨hmessage, hsame, hne⟩ := reads_some (hcmd.trans harg) hreads
      rw [numberOr_some harg, hmessage, if_neg (hne hlists)] at hrun
      cases hm : box.message n with
      | none =>
          rw [hm] at hrun
          split at hrun
          · cases hrun
            exact ⟨rfl, listed_none hm (sends_text s noSuch)⟩
          · cases hrun
            exact ⟨rfl, listed_none hm (sends_text s noSuch)⟩
      | some m =>
          have hn := hsame (by rw [hm]; exact Option.some_ne_none m)
          obtain ⟨hpos, hlt⟩ := message_some hm
          rw [hm, hn, if_pos (by omega)] at hrun
          cases hrun
          exact ⟨rfl, listed_some hm (sends_text s _)⟩

/-- The message that a command other than LIST and UIDL works on. -/
theorem reads_message (hcmd : (Command.of line).number = argument line) (hreads : Reads box line) :
    box.message (numberOr 0 (skipBlanks (line.drop 4))) = box.message ((argument line).getD 0 : Nat) ∧
      (box.message ((argument line).getD 0 : Nat) ≠ none →
        numberOr 0 (skipBlanks (line.drop 4)) = ((argument line).getD 0 : Nat)) := by
  cases harg : argument line with
  | none =>
      rw [numberOr_none harg]
      exact ⟨rfl, fun _ => rfl⟩
  | some n =>
      obtain ⟨hmessage, hsame, -⟩ := reads_some (hcmd.trans harg) hreads
      rw [numberOr_some harg]
      exact ⟨hmessage, hsame⟩

theorem opened_none (hm : box.message ((argument line).getD 0 : Nat) = none) (h : Sends s t [noSuch]) :
    Opened env box s t (argument line) := by
  simpa only [Opened, hm] using h

/-- The entries and their number are kept. -/
def SameBox (s t : Session) : Prop := t.mdir.msg = s.mdir.msg ∧ t.mdir.mboxcount = s.mdir.mboxcount

/-- The end of an answer with the lines of a message. -/
theorem end_answers {msg : Int} (h : (do fprintf (bytes ".\r\n"); touch msg : S Unit) s = .ok () t) :
    SameBox s t ∧ t.conn.sent = s.conn.sent ++ [(bytes ".\r\n").take 2046] := by
  rw [run_bind_of_ok (fprintf_run _ s)] at h
  cases h
  refine ⟨?_, rfl⟩
  dsimp only
  split <;> exact ⟨rfl, rfl⟩

/-- RETR opens the file of a message that exists. -/
theorem retr_answers (h : Holds box s) (hcmd : (Command.of line).number = argument line) (hreads : Reads box line)
    (hrun : pop3Retr env line s = .ok () t) : SameBox s t ∧ Opened env box s t (argument line) := by
  unfold pop3Retr at hrun
  obtain ⟨s₁, s₂, hget, hrun⟩ := bind_run_ok hrun
  cases hget
  dsimp only at hrun
  rw [find_eq h, (reads_message hcmd hreads).1] at hrun
  cases hm : box.message ((argument line).getD 0 : Nat) with
  | none =>
      rw [hm] at hrun
      cases hrun
      exact ⟨⟨rfl, rfl⟩, opened_none hm (sends_text s noSuch)⟩
  | some m =>
      rw [hm] at hrun
      dsimp only at hrun
      rw [run_bind_of_ok (tick_run s)] at hrun
      unfold Opened
      rw [hm]
      dsimp only
      cases hopen : env.fopen s.tick m.filename with
      | none =>
          rw [hopen] at hrun
          cases hrun
          exact ⟨⟨rfl, rfl⟩, rfl⟩
      | some content =>
          rw [hopen] at hrun
          dsimp only at hrun
          rw [run_bind_of_ok (fprintf_run _ _)] at hrun
          obtain ⟨calls, hloop, -⟩ := retrLoop_run (fgetsAll 1023 content) []
            (({ s with tick := s.tick + 1 } : Session).sends
              [(bytes "+OK " ++ decimal m.filesize ++ bytes " octets\r\n").take 2046])
          rw [run_bind_of_ok hloop, sends_sends] at hrun
          obtain ⟨hsame, hsent⟩ := end_answers hrun
          refine ⟨hsame, calls ++ [(bytes ".\r\n").take 2046], ?_⟩
          rw [hsent]
          exact List.append_assoc s.conn.sent _ _

/-- TOP opens the file of a message that exists. -/
theorem top_answers (h : Holds box s) (hcmd : (Command.of line).number = argument line) (hreads : Reads box line)
    (hrun : pop3Top env line s = .ok () t) : SameBox s t ∧ Opened env box s t (argument line) := by
  unfold pop3Top at hrun
  obtain ⟨s₁, s₂, hget, hrun⟩ := bind_run_ok hrun
  cases hget
  dsimp only at hrun
  rw [find_eq h, (reads_message hcmd hreads).1] at hrun
  cases hm : box.message ((argument line).getD 0 : Nat) with
  | none =>
      rw [hm] at hrun
      cases hrun
      exact ⟨⟨rfl, rfl⟩, opened_none hm (sends_text s noSuch)⟩
  | some m =>
      rw [hm] at hrun
      dsimp only at hrun
      rw [run_bind_of_ok (tick_run s)] at hrun
      unfold Opened
      rw [hm]
      dsimp only
      cases hopen : env.fopen s.tick m.filename with
      | none =>
          rw [hopen] at hrun
          cases hrun
          exact ⟨⟨rfl, rfl⟩, rfl⟩
      | some content =>
          rw [hopen] at hrun
          dsimp only at hrun
          have hshort : ∀ p ∈ fgetsAll 1023 content, p.length ≤ 1022 := fun p hp => fgetsAll_length_le hp
          have hrest : ∀ p ∈ ((fgetsAll 1023 content).dropWhile (!isBlankPiece ·)).drop 1, p.length ≤ 1022 :=
            fun p hp => hshort p ((List.dropWhile_sublist _).subset (List.mem_of_mem_drop hp))
          rw [run_bind_of_ok (fprintf_run _ _), run_bind_of_ok (topHeader_run _ hshort _), sends_sends,
            run_bind_of_ok (topBody_run _ _ hrest _), sends_sends] at hrun
          obtain ⟨hsame, hsent⟩ := end_answers hrun
          refine ⟨hsame, ?_⟩
          rw [hsent]
          simp only [Session.sends, List.append_assoc, List.cons_append,
            List.append_cancel_left_eq, List.cons.injEq, true_and, exists_eq']

theorem dele_none {n : Option Nat} (hm : box.message (n.getD 0 : Nat) = none)
    (h : ∃ reason, Sends s t [bytes "-ERR " ++ reason]) : Answers env box s t (.dele n) := by
  simpa only [Answers, hm] using h

theorem dele_some {n : Option Nat} {m : Mdirent} (hm : box.message (n.getD 0 : Nat) = some m)
    (h : Sends s t [bytes "+OK Message " ++ decimal (n.getD 0 : Nat) ++ bytes " deleted\r\n"]) :
    Answers env box s t (.dele n) := by
  simpa only [Answers, hm] using h

/-- DELE marks a message that exists. -/
theorem dele_answers (h : Holds box s) (hcmd : (Command.of line).number = argument line) (hreads : Reads box line)
    (hrun : pop3Dele line s = .ok () t) :
    Holds (box.after (.dele (argument line))) t ∧ Answers env box s t (.dele (argument line)) := by
  obtain ⟨hmessage, hsame⟩ := reads_message hcmd hreads
  unfold pop3Dele at hrun
  obtain ⟨s₁, s₂, hget, hrun⟩ := bind_run_ok hrun
  cases hget
  dsimp only at hrun
  rw [find_eq h, hmessage] at hrun
  cases hm : box.message ((argument line).getD 0 : Nat) with
  | none =>
      have hafter : box.after (.dele (argument line)) = box := by
        cases harg : argument line with
        | none => rfl
        | some n =>
            rw [harg] at hm
            exact if_neg (Bool.not_eq_true _ ▸ Option.isSome_eq_false_iff.mpr (Option.isNone_iff_eq_none.mpr hm))
      rw [hafter]
      rw [hm] at hrun
      split at hrun
      · cases hrun
        exact ⟨⟨h.entries, h.count⟩, dele_none hm ⟨bytes "No such message\r\n", rfl⟩⟩
      · cases hrun
        exact ⟨⟨h.entries, h.count⟩, dele_none hm ⟨bytes "Message " ++
          decimal (numberOr 0 (skipBlanks (line.drop 4))) ++ bytes " already deleted\r\n", rfl⟩⟩
  | some m =>
      obtain ⟨hpos, hlt⟩ := message_some hm
      have hn := hsame (by rw [hm]; exact Option.some_ne_none m)
      rw [hm, hn, h.entries, entries_length, if_neg (by omega)] at hrun
      cases harg : argument line with
      | none =>
          rw [harg] at hpos
          exact absurd hpos (by decide)
      | some n =>
          rw [harg] at hm hrun
          have hset : ((n : Int) - 1).toNat = n - 1 := by omega
          have hafter : box.after (.dele (some n)) = { box with marked := insert n box.marked } :=
            if_pos (Option.isSome_iff_exists.mpr ⟨m, hm⟩)
          have hholds := holds_insert h hm
          simp only [Option.getD_some, hset] at hrun
          rw [hafter]
          obtain ⟨s₁, s₂, hset, hrun⟩ := bind_run_ok hrun
          cases hset
          obtain ⟨s₁, s₂, htouch, hrun⟩ := bind_run_ok hrun
          cases htouch
          cases hrun
          refine ⟨?_, dele_some hm rfl⟩
          dsimp only
          split <;> exact ⟨hholds.entries, hholds.count⟩

theorem SameBox.holds (hsame : SameBox s t) (h : Holds box s) : Holds box t :=
  ⟨hsame.1.trans h.entries, hsame.2.trans h.count⟩

/-- A command changes the mailbox as it should, and is answered from it. -/
theorem command_answers (h : Holds box s) (hreads : Reads box line) (hrun : mailboxCommand env line s = .ok () t) :
    Holds (box.after (Command.of line)) t ∧ Answers env box s t (Command.of line) := by
  unfold mailboxCommand at hrun
  by_cases hcapa : sameText line (bytes "capa") = true
  · have hcmd : Command.of line = .other := by
      unfold Command.of
      rw [if_pos hcapa]
    rw [if_pos hcapa] at hrun
    rw [hcmd]
    cases hrun
    exact ⟨⟨h.entries, h.count⟩, trivial⟩
  rw [if_neg hcapa] at hrun
  by_cases hstat : sameText line (bytes "stat") = true
  · have hcmd : Command.of line = .stat := by
      unfold Command.of
      rw [if_neg hcapa, if_pos hstat]
    rw [if_pos hstat] at hrun
    rw [hcmd]
    obtain ⟨s₁, s₂, hget, hrun⟩ := bind_run_ok hrun
    cases hget
    rw [h.count, totalSize_eq h] at hrun
    cases hrun
    exact ⟨⟨h.entries, h.count⟩, sends_text s _⟩
  rw [if_neg hstat] at hrun
  by_cases hlist : startsWith line "list" = true
  · have hcmd : Command.of line = .list (argument line) := by
      unfold Command.of
      rw [if_neg hcapa, if_neg hstat, if_pos hlist]
    rw [if_pos hlist] at hrun
    obtain ⟨hmdir, hlisted⟩ := listing_answers (fun m => decimal m.filesize) (fun _ _ => rfl) h
      (congrArg Command.number hcmd) (congrArg Command.lists hcmd) hreads hrun
    rw [hcmd]
    exact ⟨⟨hmdir ▸ h.entries, hmdir ▸ h.count⟩, hlisted⟩
  rw [if_neg hlist] at hrun
  by_cases hretr : startsWith line "retr" = true
  · have hcmd : Command.of line = .retr (argument line) := by
      unfold Command.of
      rw [if_neg hcapa, if_neg hstat, if_neg hlist, if_pos hretr]
    rw [if_pos hretr] at hrun
    obtain ⟨hsame, hopened⟩ := retr_answers h (congrArg Command.number hcmd) hreads hrun
    rw [hcmd]
    exact ⟨hsame.holds h, hopened⟩
  rw [if_neg hretr] at hrun
  by_cases hdele : startsWith line "dele" = true
  · have hcmd : Command.of line = .dele (argument line) := by
      unfold Command.of
      rw [if_neg hcapa, if_neg hstat, if_neg hlist, if_neg hretr, if_pos hdele]
    rw [if_pos hdele] at hrun
    rw [hcmd]
    exact dele_answers h (congrArg Command.number hcmd) hreads hrun
  rw [if_neg hdele] at hrun
  by_cases hnoop : sameText line (bytes "noop") = true
  · have hcmd : Command.of line = .other := by
      unfold Command.of
      rw [if_neg hcapa, if_neg hstat, if_neg hlist, if_neg hretr, if_neg hdele, if_pos hnoop]
    rw [if_pos hnoop] at hrun
    rw [hcmd]
    cases hrun
    exact ⟨⟨h.entries, h.count⟩, trivial⟩
  rw [if_neg hnoop] at hrun
  by_cases hlast : sameText line (bytes "last") = true
  · have hcmd : Command.of line = .other := by
      unfold Command.of
      rw [if_neg hcapa, if_neg hstat, if_neg hlist, if_neg hretr, if_neg hdele, if_neg hnoop, if_pos hlast]
    rw [if_pos hlast] at hrun
    rw [hcmd]
    cases hrun
    exact ⟨⟨h.entries, h.count⟩, trivial⟩
  rw [if_neg hlast] at hrun
  by_cases hrset : sameText line (bytes "rset") = true
  · have hcmd : Command.of line = .rset := by
      unfold Command.of
      rw [if_neg hcapa, if_neg hstat, if_neg hlist, if_neg hretr, if_neg hdele, if_neg hnoop, if_neg hlast, if_pos hrset]
    rw [if_pos hrset] at hrun
    rw [hcmd]
    obtain ⟨s₁, s₂, hset, hrun⟩ := bind_run_ok hrun
    cases hset
    cases hrun
    have hholds := holds_reset h
    exact ⟨⟨hholds.entries, hholds.count⟩, sends_text s _⟩
  rw [if_neg hrset] at hrun
  by_cases htop : startsWith line "top" = true
  · have hcmd : Command.of line = .top (argument line) := by
      unfold Command.of
      rw [if_neg hcapa, if_neg hstat, if_neg hlist, if_neg hretr, if_neg hdele, if_neg hnoop, if_neg hlast, if_neg hrset, if_pos htop]
    rw [if_pos htop] at hrun
    obtain ⟨hsame, hopened⟩ := top_answers h (congrArg Command.number hcmd) hreads hrun
    rw [hcmd]
    exact ⟨hsame.holds h, hopened⟩
  rw [if_neg htop] at hrun
  by_cases huidl : startsWith line "uidl" = true
  · have hcmd : Command.of line = .uidl (argument line) := by
      unfold Command.of
      rw [if_neg hcapa, if_neg hstat, if_neg hlist, if_neg hretr, if_neg hdele, if_neg hnoop, if_neg hlast, if_neg hrset, if_neg htop, if_pos huidl]
    rw [if_pos huidl] at hrun
    obtain ⟨hmdir, hlisted⟩ := listing_answers Mdirent.uidl (fun _ _ => rfl) h (congrArg Command.number hcmd)
      (congrArg Command.lists hcmd) hreads hrun
    rw [hcmd]
    exact ⟨⟨hmdir ▸ h.entries, hmdir ▸ h.count⟩, hlisted⟩
  rw [if_neg huidl] at hrun
  have hcmd : Command.of line = .other := by
    unfold Command.of
    rw [if_neg hcapa, if_neg hstat, if_neg hlist, if_neg hretr, if_neg hdele, if_neg hnoop, if_neg hlast, if_neg hrset, if_neg htop, if_neg huidl]
  rw [hcmd]
  cases hrun
  exact ⟨⟨h.entries, h.count⟩, trivial⟩

end

/-! ### Sessions -/

/-- The mailbox after some requests. -/
def Maildrop.afterAll (box : Maildrop) (requests : List (List Byte)) : Maildrop :=
  requests.foldl (fun box line => box.after (Command.of line)) box

/-- What is asked of each request, in the mailbox that it finds. -/
def Throughout (ok : Maildrop → List Byte → Prop) : Maildrop → List (List Byte) → Prop
  | _, [] => True
  | box, line :: requests => ok box line ∧ Throughout ok (box.after (Command.of line)) requests

/-- The requests that are served between two states, `quit` apart. -/
inductive Served (env : Env) : Session → List (List Byte) → Session → Prop where
  | nil (s : Session) : Served env s [] s
  | cons {s s₁ s₂ t : Session} {line : List Byte} {requests : List (List Byte)}
      (read : fgets 127 s = .ok (some line) s₁) (more : sameText (striprn line) (bytes "quit") = false)
      (command : mailboxCommand env (striprn line) s₁ = .ok () s₂) (rest : Served env s₂ requests t) :
      Served env s (striprn line :: requests) t

/-- A session has the state of a mailbox, and answers what comes next from it. -/
structure Shows (ok : Maildrop → List Byte → Prop) (env : Env) (box : Maildrop) (s : Session) : Prop extends
    Holds box s where
  answers : ∀ line s' t, fgets 127 s = .ok (some line) s' → ok box (striprn line) →
    mailboxCommand env (striprn line) s' = .ok () t → Answers env box s' t (Command.of (striprn line))

/-- The entries that `pop3_local` makes. -/
def spoolEntries (env : Env) (did : Int) (username : List Byte) (s : Session) : List Mdirent :=
  (env.entries (s.tick + 1)).mapIdx (mdirent (mailspoolDir env did username))

/-- The mailbox that `pop3_local` opens. -/
def spoolBox (env : Env) (did : Int) (username : List Byte) (s : Session) : Maildrop where
  messages := spoolEntries env did username s
  fresh m hm := by
    obtain ⟨i, hi, rfl⟩ := List.mem_mapIdx.mp hm
    rfl

/-- The state that its loop starts in. -/
def opened (env : Env) (did : Int) (username : List Byte) (s : Session) : Session :=
  { s with
    tick := s.tick + 2
    mdir := { mboxcount := (spoolEntries env did username s).length, msg := spoolEntries env did username s } }

/-- A session shows its mailbox as long as the requests are as they should be, and the files that are unlinked are
those of the messages that are marked when it quits. -/
structure ServesMailbox (ok : Maildrop → List Byte → Prop) (env : Env) (did : Int) (username : List Byte) (s : Session) :
    Prop where
  shows : ∀ requests t, Served env (opened env did username s) requests t →
    Throughout ok (spoolBox env did username s) requests →
      Shows ok env ((spoolBox env did username s).afterAll requests) t
  unlinks : env.spoolReady s.tick = true → ∃ requests t u, pop3Local env did username s = .ok () u ∧
    Served env (opened env did username s) requests t ∧
      (Throughout ok (spoolBox env did username s) requests → u.removed.map Mdirent.filename =
        if quits t then ((spoolBox env did username s).afterAll requests).condemned.map Mdirent.filename
        else s.removed.map Mdirent.filename)
  keeps : env.spoolReady s.tick = false → ∃ u, pop3Local env did username s = .ok () u ∧ u.removed = s.removed

section

variable {env : Env} {box : Maildrop} {s s' t : Session} {line : List Byte} {requests : List (List Byte)}

theorem fgets_run (max : Nat) (s : Session) :
    fgets max s = .ok (s.conn.fgets max).1 { s with conn := (s.conn.fgets max).2 } := rfl

theorem fgets_state (hread : fgets 127 s = .ok (some line) s') :
    (s.conn.fgets 127).1 = some line ∧ s' = { s with conn := (s.conn.fgets 127).2 } := by
  rw [fgets_run] at hread
  injection hread with hline hstate
  exact ⟨hline, hstate.symm⟩

theorem fgets_holds (h : Holds box s) (hread : fgets 127 s = .ok (some line) s') : Holds box s' := by
  rw [(fgets_state hread).2]
  exact ⟨h.entries, h.count⟩

theorem served_holds (h : Holds box s) (hserved : Served env s requests t) (hreads : Throughout Reads box requests) :
    Holds (box.afterAll requests) t := by
  induction hserved generalizing box with
  | nil s => exact h
  | cons read more command rest ih =>
      exact ih (command_answers (fgets_holds h read) hreads.1 command).1 hreads.2

theorem shows_of_holds (h : Holds box s) : Shows Reads env box s where
  toHolds := h
  answers _ _ _ hread hok hrun := (command_answers (fgets_holds h hread) hok hrun).2

/-- A command is served whatever it is. -/
theorem command_run (env : Env) (line : List Byte) (s : Session) :
    ∃ t, mailboxCommand env line s = .ok () t ∧ Beside s t := by
  obtain ⟨⟨⟩, t, hrun, hbeside⟩ := (Calm.command env line).run s
  exact ⟨t, hrun, hbeside⟩

theorem beside_left (h : Beside s t) : t.conn.left = s.conn.left := by
  unfold Conn.left
  rw [h.socket]

/-- The loop serves requests, up to one that is `quit` or to the end of the connection. -/
theorem mailboxLoop_served (env : Env) (fuel : Nat) (s : Session) (hfuel : s.conn.left < fuel) :
    ∃ requests t u, mailboxLoop env fuel s = .ok (quits t) u ∧ Served env s requests t ∧ u.mdir = t.mdir ∧
      u.removed = s.removed := by
  induction fuel generalizing s with
  | zero => exact absurd hfuel (Nat.not_lt_zero _)
  | succ fuel ih =>
      unfold mailboxLoop
      cases hline : (s.conn.fgets 127).1 with
      | none =>
          have hread : fgets 127 s = .ok none { s with conn := (s.conn.fgets 127).2 } := by rw [fgets_run, hline]
          have hquits : quits s = false := by
            unfold quits
            rw [hread]
          have hrequest : mailboxRequest env s = .ok none { s with conn := (s.conn.fgets 127).2 } := by
            unfold mailboxRequest
            rw [run_bind_of_ok hread]
            rfl
          refine ⟨[], s, { s with conn := (s.conn.fgets 127).2 }, ?_, .nil s, rfl, rfl⟩
          rw [run_bind_of_ok hrequest, hquits]
          rfl
      | some line =>
          have hread : fgets 127 s = .ok (some line) { s with conn := (s.conn.fgets 127).2 } := by
            rw [fgets_run, hline]
          by_cases hquit : sameText (striprn line) (bytes "quit") = true
          · have hquits : quits s = true := by
              unfold quits
              rw [hread]
              exact hquit
            have hrequest := @mailboxRequest_run env _ _ _ hread
            rw [if_pos hquit] at hrequest
            refine ⟨[], s, ({ s with conn := (s.conn.fgets 127).2 } : Session).sends [bytes "+OK Goodbye\r\n"], ?_,
              .nil s, rfl, rfl⟩
            rw [run_bind_of_ok hrequest, hquits]
            rfl
          · obtain ⟨s₂, hcommand, hbeside⟩ := command_run env (striprn line) { s with conn := (s.conn.fgets 127).2 }
            have hrequest : mailboxRequest env s = .ok (some true) s₂ := by
              rw [mailboxRequest_run hread, if_neg hquit, run_bind_of_ok hcommand]
              rfl
            have hless : s₂.conn.left < fuel := by
              have hlt := (fgets_left s.conn 127).2 (by decide) (by rw [hline]; rfl)
              rw [beside_left hbeside]
              exact Nat.lt_of_lt_of_le hlt (Nat.le_of_lt_succ hfuel)
            obtain ⟨requests, t, u, hloop, hserved, hmdir, hremoved⟩ := ih s₂ hless
            refine ⟨striprn line :: requests, t, u, ?_, ?_, hmdir, hremoved.trans hbeside.removed⟩
            · rw [run_bind_of_ok hrequest]
              exact hloop
            · exact .cons hread (Bool.not_eq_true _ ▸ hquit) hcommand hserved

/-- The entries that are deleted are the messages that are marked. -/
theorem condemned_files (box : Maildrop) :
    (box.entries.filter Mdirent.deleted).map Mdirent.filename = box.condemned.map Mdirent.filename := by
  unfold Maildrop.entries Maildrop.condemned
  generalize box.messages.zipIdx 1 = l
  induction l with
  | nil => rfl
  | cons p l ih =>
      by_cases hmark : p.2 ∈ box.marked
      · simpa [hmark] using ih
      · simpa [hmark] using ih

theorem spoolBox_holds (env : Env) (did : Int) (username : List Byte) (s : Session) :
    Holds (spoolBox env did username s) (opened env did username s) := by
  refine ⟨List.ext_getElem? fun i => ?_, ?_⟩
  · rw [entries_getElem?]
    show (spoolEntries env did username s)[i]? = (spoolEntries env did username s)[i]?.map _
    cases hget : (spoolEntries env did username s)[i]? with
    | none => rfl
    | some m =>
        have hfresh := (spoolBox env did username s).fresh m (List.mem_of_getElem? hget)
        have hmark : i + 1 ∉ (spoolBox env did username s).marked := Finset.notMem_empty _
        rw [Option.map_some, decide_eq_false hmark, unmarked hfresh]
  · have hall : (spoolBox env did username s).existing = (spoolEntries env did username s).zipIdx 1 :=
      List.filter_eq_self.mpr fun p _ => decide_eq_true (Finset.notMem_empty p.2)
    rw [hall, List.length_zipIdx]
    rfl

end

/-- A session in which no argument is read for another serves the mailbox that it opened. -/
theorem session_servesMailbox (env : Env) (did : Int) (username : List Byte) (s : Session) :
    ServesMailbox Reads env did username s where
  shows requests t hserved hreads := shows_of_holds (served_holds (spoolBox_holds env did username s) hserved hreads)
  unlinks hready := by
    obtain ⟨requests, t, u, hloop, hserved, hmdir, hremoved⟩ := mailboxLoop_served env
      ((opened env did username s).conn.left + 1) (opened env did username s) (Nat.lt_succ_self _)
    have hlocal : pop3Local env did username s =
        .ok () (if quits t then { u with removed := u.mdir.msg.filter Mdirent.deleted } else u) := by
      unfold pop3Local
      rw [run_bind_of_ok (tick_run s), if_pos hready, run_bind_of_ok (tick_run _)]
      show (serve env (spoolEntries env did username s)) { s with tick := s.tick + 2 } = _
      unfold serve
      rw [run_bind_of_ok (show setMdir _ _ = .ok () (opened env did username s) from rfl),
        run_bind_of_ok (show (get : S Session) _ = .ok (opened env did username s) (opened env did username s) from rfl),
        run_bind_of_ok hloop]
      cases quits t <;> rfl
    refine ⟨requests, t, _, hlocal, hserved, fun hreads => ?_⟩
    have hholds := served_holds (spoolBox_holds env did username s) hserved hreads
    split
    · rw [hmdir, hholds.entries, condemned_files]
    · rw [hremoved]
      rfl
  keeps hready := by
    unfold pop3Local
    rw [run_bind_of_ok (tick_run s), hready]
    exact ⟨_, rfl, rfl⟩

/-- Surroundings with one message in the mailbox. -/
def oneMessage : Env := { goodEnv with entries := fun _ => [(bytes "1", 100)] }

/-- A session that asks for a large number. -/
def asking : Session := opened oneMessage 1 (bytes "u") (newSession [bytes "list 4294967297\r\n"] [])

/-- LIST answers 4294967297 with the first message. -/
theorem not_servesMailbox :
    ¬ ServesMailbox (fun _ _ => True) oneMessage 1 (bytes "u") (newSession [bytes "list 4294967297\r\n"] []) := by
  intro h
  have hline : (asking.conn.fgets 127).1 = some (bytes "list 4294967297\r\n") := by decide +kernel
  have hread : fgets 127 asking = .ok (some (bytes "list 4294967297\r\n")) { asking with
      conn := (asking.conn.fgets 127).2 } := by rw [fgets_run, hline]
  obtain ⟨t, hrun, -⟩ := command_run oneMessage (striprn (bytes "list 4294967297\r\n")) { asking with
      conn := (asking.conn.fgets 127).2 }
  have hanswers := (h.shows [] asking (.nil asking) trivial).answers _ _ t hread trivial hrun
  have hsent : t.conn.sent = [bytes "+OK 1 100\r\n"] := by
    have hfinal : t = final (mailboxCommand oneMessage (striprn (bytes "list 4294967297\r\n")) { asking with
      conn := (asking.conn.fgets 127).2 }) := by rw [hrun]; rfl
    rw [hfinal]
    decide +kernel
  have hof : Command.of (striprn (bytes "list 4294967297\r\n")) = .list (some 4294967297) := by decide +kernel
  rw [hof] at hanswers
  have hnone : ((spoolBox oneMessage 1 (bytes "u") (newSession [bytes "list 4294967297\r\n"] [])).afterAll []).message
      (4294967297 : Nat) = none := by decide +kernel
  have hsends : Sends { asking with conn := (asking.conn.fgets 127).2 } t [noSuch] := by
    simpa only [Answers, Listed, hnone] using hanswers
  unfold Sends at hsends
  rw [hsent] at hsends
  revert hsends
  decide +kernel

end NullG.Pop3d
