/-
What RETR and TOP reply.

Both send a file as `fgets` reads it and then a line with a dot, whatever the file ends with. TOP counts the
pieces of 1022 bytes that `fgets` reads as lines. So a reply is the lines that were asked for and one line
with a dot exactly if the part of the file that is sent ends with a line, has no such line, and is read line
by line.
-/

import NullG.Mail.Lines
import NullG.Pop3d.Server
import NullG.Smtpd.Data
import NullG.Smtpd.Delivery

namespace NullG.Pop3d

open NullG.Nsp NullG.Lib NullG.Net NullG.Mail

/-! ### Files and requests -/

/-- What the file of a message was written from. -/
inductive Written where
  | accept (env : Smtpd.Env) (m : Smtpd.Mailconn) (now : Nat) (rcpt : List Byte)
  | bounce (hostName date sender rcpt reason : List Byte) (original : Option (List Byte))

namespace Written

/-- The file that `smtp_accept` or `bounce_send` writes. -/
def file : Written → List Byte
  | accept env m now rcpt => Smtpd.messageFor env m now rcpt
  | bounce hostName date sender rcpt reason original => bounceText hostName date sender rcpt reason original

/-- There are no zeros in the strings that are written. -/
def NoZeros : Written → Prop
  | accept env m now rcpt => 0 ∉ m.helo ++ (env.remoteAddr ++ (env.hostName ++ (rcpt ++ (env.date now ++ m.msgbody))))
  | bounce hostName date sender rcpt reason _ => 0 ∉ hostName ++ (date ++ (sender ++ (rcpt ++ reason)))

/-- What is written last is empty or ends with a line: the message, or the copy of the original one. -/
def EndsLine : Written → Prop
  | accept _ m _ _ => m.msgbody = [] ∨ ended isNl m.msgbody = true
  | bounce _ _ _ _ _ none => True
  | bounce _ _ _ _ _ (some content) =>
      copyOriginal 0 (fgetsAll 1023 content) = [] ∨ ended isNl (copyOriginal 0 (fgetsAll 1023 content)) = true

end Written

/-- The requests that are answered with a part of a file. -/
inductive Request where
  | retr
  | top
  deriving DecidableEq

/-- What serves a request. -/
def Request.serve (env : Env) (line : List Byte) : Request → S Unit
  | retr => pop3Retr env line
  | top => pop3Top env line

/-- The number of the message in a request. -/
def msgNumber (line : List Byte) : Int := numberOr 0 (skipBlanks (line.drop 4))

/-- The number of lines in a TOP request. -/
def lineCount (line : List Byte) : Nat :=
  (numberOr 0 (skipBlanks ((skipBlanks (line.drop 4)).dropWhile ncIsdigit))).toNat

/-- The empty line behind a header. -/
def isBlankLine (line : List Byte) : Bool := (lineText line).isEmpty

/-- What `pop3_top` takes for the empty line. -/
def isBlankPiece (buffer : List Byte) : Bool := (striprn buffer).isEmpty

/-- The lines of a file that are asked for: all of them, or the header, the empty line and as many lines as the
request says. -/
def Request.asksFor (line file : List Byte) : Request → List (List Byte)
  | retr => lines isNl file
  | top => upTo isBlankLine (lineCount line) (lines isNl file)

/-- The reply behind its first line. -/
def replyText (s t : Session) : List Byte := ((t.conn.sent.drop s.conn.sent.length).drop 1).flatten

/-- A reply is these lines and one line that holds a single dot, which none of them does. -/
def MultiLine (ls : List (List Byte)) (reply : List Byte) : Prop :=
  lines isNl reply = ls ++ [bytes ".\r\n"] ∧ ∀ line ∈ ls, isDotLine line = false

/-- The pieces up to the empty line and `n` more are what the lines are: there are no more pieces, or no piece of
the header looks like the empty line and the `n` lines are no longer than a piece. -/
def TopReads (n : Nat) (file : List Byte) : Prop :=
  ((pieces isNl 1022 file).dropWhile (!isBlankPiece ·)).length ≤ n + 1 ∨
    (∀ line ∈ (lines isNl file).takeWhile (!isBlankLine ·), ∀ p ∈ pieces isNl 1022 line, isBlankPiece p = false) ∧
      ∀ line ∈ ((lines isNl file).dropWhile (!isBlankLine ·)).take (n + 1), line.length ≤ 1022

/-- A request for a file can be served. -/
structure Request.Serves (r : Request) (line : List Byte) (w : Written) : Prop where
  noDot : ∀ l ∈ r.asksFor line w.file, isDotLine l = false
  /-- where the end of the file is asked for, it ends with a line -/
  ends : r.asksFor line w.file = lines isNl w.file → w.EndsLine
  reads : r = .top → TopReads (lineCount line) w.file

/-! ### What is sent -/

section

variable {s t : Session} {text : List Byte}

/-- The session has sent more. -/
def Session.sends (s : Session) (calls : List (List Byte)) : Session :=
  { s with conn := { s.conn with sent := s.conn.sent ++ calls } }

theorem sends_nil (s : Session) : s.sends [] = s := by
  unfold Session.sends
  rw [List.append_nil]

theorem sends_sends (s : Session) (calls calls' : List (List Byte)) :
    (s.sends calls).sends calls' = s.sends (calls ++ calls') := by
  unfold Session.sends
  rw [List.append_assoc]

theorem send_run (text : List Byte) (s : Session) : send text s = .ok () (s.sends [text]) := rfl

theorem fprintf_run (text : List Byte) (s : Session) : fprintf text s = .ok () (s.sends [text.take 2046]) := rfl

theorem retrLoop_run (ps : List (List Byte)) (outbuffer : List Byte) (s : Session) :
    ∃ calls, retrLoop ps outbuffer s = .ok () (s.sends calls) ∧ calls.flatten = outbuffer ++ ps.flatten := by
  induction ps generalizing outbuffer s with
  | nil => exact ⟨[outbuffer], send_run outbuffer s, rfl⟩
  | cons buffer ps ih =>
      unfold retrLoop
      split
      · obtain ⟨calls, hrun, hflat⟩ := ih buffer (s.sends [outbuffer])
        refine ⟨outbuffer :: calls, ?_, ?_⟩
        · rw [run_bind_of_ok (send_run outbuffer s), hrun, sends_sends]
          rfl
        · rw [List.flatten_cons, hflat, List.flatten_cons]
      · obtain ⟨calls, hrun, hflat⟩ := ih (outbuffer ++ buffer) s
        exact ⟨calls, hrun, by rw [hflat, List.append_assoc, List.flatten_cons]⟩

/-- The pieces of a file are sent as they are. -/
theorem fprintf_piece {p : List Byte} (h : p.length ≤ 1022) (s : Session) : fprintf p s = .ok () (s.sends [p]) := by
  rw [fprintf_run, List.take_of_length_le (Nat.le_trans h (by decide))]

theorem topHeader_run (ps : List (List Byte)) (hps : ∀ p ∈ ps, p.length ≤ 1022) (s : Session) :
    topHeader ps s = .ok ((ps.dropWhile (!isBlankPiece ·)).drop 1)
      (s.sends (ps.takeWhile (!isBlankPiece ·) ++ (ps.dropWhile (!isBlankPiece ·)).take 1)) := by
  induction ps generalizing s with
  | nil => exact congrArg (EStateM.Result.ok []) (sends_nil s).symm
  | cons p ps ih =>
      have hsend := fprintf_piece (hps p List.mem_cons_self) s
      unfold topHeader
      rw [run_bind_of_ok hsend]
      by_cases hblank : isBlankPiece p = true
      · have hnot : ¬ (!isBlankPiece p) = true := by
          rw [hblank]
          exact Bool.false_ne_true
        have htake := List.takeWhile_cons_of_neg (p := (!isBlankPiece ·)) (l := ps) hnot
        have hdrop := List.dropWhile_cons_of_neg (p := (!isBlankPiece ·)) (l := ps) hnot
        rw [htake, hdrop]
        exact congrFun (if_pos hblank) _
      · have hpos : (!isBlankPiece p) = true := by
          rw [Bool.not_eq_true] at hblank
          rw [hblank]
          rfl
        have htake := List.takeWhile_cons_of_pos (p := (!isBlankPiece ·)) (l := ps) hpos
        have hdrop := List.dropWhile_cons_of_pos (p := (!isBlankPiece ·)) (l := ps) hpos
        rw [htake, hdrop]
        refine (congrFun (if_neg hblank) _).trans ?_
        rw [ih (fun q hq => hps q (List.mem_cons_of_mem p hq)), sends_sends]
        rfl

theorem topBody_run (n : Nat) (ps : List (List Byte)) (hps : ∀ p ∈ ps, p.length ≤ 1022) (s : Session) :
    topBody n ps s = .ok () (s.sends (ps.take n)) := by
  induction n generalizing ps s with
  | zero =>
      rw [List.take_zero, sends_nil]
      rfl
  | succ n ih =>
      cases ps with
      | nil =>
          rw [List.take_nil, sends_nil]
          rfl
      | cons p ps =>
          unfold topBody
          rw [run_bind_of_ok (fprintf_piece (hps p List.mem_cons_self) s),
            ih ps (fun q hq => hps q (List.mem_cons_of_mem p hq)), sends_sends, List.take_succ_cons]
          rfl

theorem tick_run (s : Session) : tick s = .ok s.tick { s with tick := s.tick + 1 } := rfl

/-- The end of a reply, behind its first line and the calls with a part of the file. -/
theorem dot_run {msg : Int} {ok : List Byte} {calls : List (List Byte)}
    (h : (do fprintf (bytes ".\r\n"); touch msg : S Unit) (({ s with tick := s.tick + 1 } : Session).sends
      ([ok] ++ calls)) = .ok () t) : replyText s t = calls.flatten ++ bytes ".\r\n" := by
  rw [run_bind_of_ok (fprintf_run _ _), sends_sends] at h
  cases h
  show (((s.conn.sent ++ _).drop s.conn.sent.length).drop 1).flatten = _
  rw [List.drop_left, List.append_assoc, List.singleton_append, List.drop_one, List.tail_cons, List.flatten_append,
    List.flatten_singleton]
  rfl

variable {env : Env} {line content : List Byte} {m : Mdirent}

/-- The pieces of the file are sent. -/
theorem retr_run (hfind : s.mdir.find (msgNumber line) = some m) (hopen : env.fopen s.tick m.filename = some content)
    (h : pop3Retr env line s = .ok () t) : replyText s t = (fgetsAll 1023 content).flatten ++ bytes ".\r\n" := by
  unfold msgNumber at hfind
  unfold pop3Retr at h
  obtain ⟨s₁, s₂, hget, h⟩ := bind_run_ok h
  cases hget
  dsimp only at h
  rw [hfind] at h
  dsimp only at h
  rw [run_bind_of_ok (tick_run s), hopen] at h
  dsimp only at h
  rw [run_bind_of_ok (fprintf_run _ _)] at h
  obtain ⟨calls, hrun, hflat⟩ := retrLoop_run (fgetsAll 1023 content) [] (({ s with tick := s.tick + 1 } : Session).sends
    [(bytes "+OK " ++ decimal m.filesize ++ bytes " octets\r\n").take 2046])
  rw [run_bind_of_ok hrun, sends_sends] at h
  rw [dot_run h, hflat]
  rfl

/-- The pieces of the file are sent up to the first empty one, and as many more as the request says. -/
theorem top_run (hfind : s.mdir.find (msgNumber line) = some m) (hopen : env.fopen s.tick m.filename = some content)
    (h : pop3Top env line s = .ok () t) :
    replyText s t = (upTo isBlankPiece (lineCount line) (fgetsAll 1023 content)).flatten ++ bytes ".\r\n" := by
  have hshort : ∀ p ∈ fgetsAll 1023 content, p.length ≤ 1022 := fun p hp => fgetsAll_length_le hp
  have hrest : ∀ p ∈ ((fgetsAll 1023 content).dropWhile (!isBlankPiece ·)).drop 1, p.length ≤ 1022 :=
    fun p hp => hshort p ((List.dropWhile_sublist _).subset (List.mem_of_mem_drop hp))
  unfold msgNumber at hfind
  unfold pop3Top at h
  obtain ⟨s₁, s₂, hget, h⟩ := bind_run_ok h
  cases hget
  dsimp only at h
  rw [hfind] at h
  dsimp only at h
  rw [run_bind_of_ok (tick_run s), hopen] at h
  dsimp only at h
  rw [run_bind_of_ok (fprintf_run _ _), run_bind_of_ok (topHeader_run _ hshort _), sends_sends,
    run_bind_of_ok (topBody_run _ _ hrest _), sends_sends, List.append_assoc] at h
  rw [dot_run h]
  unfold upTo
  rw [List.append_assoc, Nat.add_comm (lineCount line) 1, List.take_add]
  rfl

end

/-! ### What is written -/

theorem mem_copyOriginal {c : Byte} {ps : List (List Byte)} (br : Nat) (h : c ∈ copyOriginal br ps) : ∃ p ∈ ps, c ∈ p := by
  induction ps generalizing br with
  | nil => exact absurd h List.not_mem_nil
  | cons p ps ih =>
      unfold copyOriginal at h
      split at h
      · exact absurd h List.not_mem_nil
      · rcases List.mem_append.mp h with h | h
        · exact ⟨p, List.mem_cons_self, h⟩
        · obtain ⟨q, hq, h⟩ := ih _ h
          exact ⟨q, List.mem_cons_of_mem p hq, h⟩

namespace Written

variable {w : Written}

/-- No zeros are written to a file. -/
theorem NoZeros.file (h : w.NoZeros) : 0 ∉ w.file := by
  cases w with
  | accept env m now rcpt =>
      unfold NoZeros at h
      show 0 ∉ Smtpd.messageFor env m now rcpt
      unfold Smtpd.messageFor Smtpd.receivedText
      simp only [List.mem_append, not_or] at h ⊢
      obtain ⟨hhelo, haddr, hhost, hrcpt, hdate, hbody⟩ := h
      exact ⟨⟨⟨⟨⟨⟨⟨⟨⟨⟨⟨by decide, hhelo⟩, by decide⟩, haddr⟩, by decide⟩, hhost⟩, by decide⟩, hrcpt⟩, by decide⟩, hdate⟩,
        by decide⟩, hbody⟩
  | bounce hostName date sender rcpt reason original =>
      unfold NoZeros at h
      show 0 ∉ bounceText hostName date sender rcpt reason original
      unfold bounceText
      simp only [List.mem_append, not_or] at h ⊢
      obtain ⟨hhost, hdate, hsender, hrcpt, hreason⟩ := h
      refine ⟨⟨⟨⟨⟨⟨⟨⟨⟨⟨⟨by decide, hdate⟩, by decide⟩, hhost⟩, by decide⟩, hsender⟩, by decide⟩, hrcpt⟩, by decide⟩, hreason⟩,
        by decide⟩, ?_⟩
      cases original with
      | none => exact List.not_mem_nil
      | some content =>
          intro hzero
          rcases List.mem_append.mp hzero with hzero | hzero
          · revert hzero
            decide
          · obtain ⟨p, hp, hzero⟩ := mem_copyOriginal 0 hzero
            obtain ⟨q, -, rfl⟩ := List.mem_map.mp hp
            exact zero_notMem_cstr q hzero

/-- A file ends with a line exactly if what is written last does. -/
theorem file_ended (w : Written) : (w.file = [] ∨ ended isNl w.file = true) ↔ w.EndsLine := by
  -- a text behind a line that is ended
  have hbehind : ∀ a b : List Byte, ended isNl a = true →
      (a ++ b = [] ∨ ended isNl (a ++ b) = true ↔ b = [] ∨ ended isNl b = true) := by
    intro a b ha
    have hne := ne_nil_of_ended ha
    by_cases hb : b = []
    · rw [hb, List.append_nil]
      exact ⟨fun _ => .inl rfl, fun _ => .inr ha⟩
    · rw [ended_append hb]
      exact or_congr ⟨fun h => absurd (List.append_eq_nil_iff.mp h).1 hne, fun h => absurd h hb⟩ Iff.rfl
  have hcrlf : ∀ (a : List Byte) (text : String), ended isNl (bytes text) = true → ended isNl (a ++ bytes text) = true := by
    intro a text htext
    rw [ended_append (ne_nil_of_ended htext)]
    exact htext
  cases w with
  | accept env m now rcpt => exact hbehind _ _ (hcrlf _ "\r\n" (by decide))
  | bounce hostName date sender rcpt reason original =>
      show bounceText hostName date sender rcpt reason original = [] ∨ _ ↔ _
      cases original with
      | none =>
          refine iff_of_true (.inr ?_) trivial
          show ended isNl (bounceText hostName date sender rcpt reason none) = true
          unfold bounceText
          rw [List.append_nil]
          exact hcrlf _ "]\r\n" (by decide)
      | some content =>
          show _ ∨ ended isNl (bounceText hostName date sender rcpt reason (some content)) = true ↔ _
          unfold bounceText
          rw [← List.append_assoc]
          exact hbehind _ _ (hcrlf _ "\r\n--- Below this line is a copy of the original message.\r\n\r\n" (by decide))

end Written

/-! ### The reply -/

section

variable {env : Env} {s t : Session} {line : List Byte} {m : Mdirent} {w : Written} {r : Request}

theorem asksFor_begins (r : Request) (line file : List Byte) : r.asksFor line file <+: lines isNl file := by
  cases r with
  | retr => exact List.prefix_refl _
  | top => exact upTo_begins _ _ _

/-- A text and a line with a dot are the lines that were asked for and that line, exactly if the text is what these
lines hold and ends with a line. -/
theorem lines_dot_iff {file text : List Byte} {ls : List (List Byte)} (hls : ls <+: lines isNl file) :
    lines isNl (text ++ bytes ".\r\n") = ls ++ [bytes ".\r\n"] ↔
      text = ls.flatten ∧ (ls.flatten = [] ∨ ended isNl ls.flatten = true) := by
  obtain ⟨rest, hrest⟩ := hls
  have hdot : lines isNl (bytes ".\r\n") = [bytes ".\r\n"] := by decide
  constructor
  · intro h
    have hflat := congrArg List.flatten h
    rw [lines_flatten, List.flatten_append, List.flatten_singleton] at hflat
    obtain rfl := List.append_cancel_right hflat
    exact ⟨rfl, lines_split h (List.cons_ne_nil _ _)⟩
  · rintro ⟨rfl, hend⟩
    rw [lines_append_of_ended hend, lines_of_lines hrest.symm, hdot]

/-- The part of the file that was asked for ends with a line, if it is not the end of the file. -/
theorem asksFor_ended :
    ((r.asksFor line w.file).flatten = [] ∨ ended isNl (r.asksFor line w.file).flatten = true) ↔
      (r.asksFor line w.file = lines isNl w.file → w.EndsLine) := by
  obtain ⟨rest, hrest⟩ := asksFor_begins r line w.file
  by_cases hall : rest = []
  · rw [hall, List.append_nil] at hrest
    rw [hrest, lines_flatten, w.file_ended]
    exact ⟨fun h _ => h, fun h => h rfl⟩
  · refine iff_of_true (lines_split hrest.symm hall) fun heq => ?_
    have hlen := congrArg List.length hrest
    rw [List.length_append, heq] at hlen
    exact absurd (List.eq_nil_of_length_eq_zero (by omega)) hall

theorem isBlankPiece_of_line {line : List Byte} (h : isBlankLine line = true) :
    line.length ≤ 1022 ∧ isBlankPiece line = true := by
  have htext : lineText line = [] := List.isEmpty_iff.mp h
  cases hend : ended isNl line with
  | true =>
      rcases lineText_cases hend with hline | hline
      · rw [htext] at hline
        rw [hline]
        decide
      · rw [htext] at hline
        rw [hline]
        decide
  | false =>
      unfold lineText at htext
      rw [hend, if_neg Bool.false_ne_true] at htext
      rw [htext]
      decide

/-- A reply is what was asked for and a line with a dot exactly if the request can be served. -/
theorem multiLine_iff (hzeros : w.NoZeros) (hfind : s.mdir.find (msgNumber line) = some m)
    (hopen : env.fopen s.tick m.filename = some w.file) (hrun : r.serve env line s = .ok () t) :
    MultiLine (r.asksFor line w.file) (replyText s t) ↔ r.Serves line w := by
  have hpieces : fgetsAll 1023 w.file = pieces isNl 1022 w.file := fgetsAll_eq hzeros.file (by decide)
  unfold MultiLine
  cases r with
  | retr =>
      rw [retr_run hfind hopen hrun, hpieces, pieces_flatten (by decide), lines_dot_iff (asksFor_begins .retr line w.file),
        asksFor_ended]
      constructor
      · exact fun h => ⟨h.2, h.1.2, fun hr => by cases hr⟩
      · exact fun h => ⟨⟨(lines_flatten w.file).symm, h.ends⟩, h.noDot⟩
  | top =>
      rw [top_run hfind hopen hrun, hpieces, lines_dot_iff (asksFor_begins .top line w.file), asksFor_ended]
      have hreads := upTo_pieces_iff (S := isNl) (l := w.file) (M := 1022) (by decide)
        (fun line h => isBlankPiece_of_line h) (lineCount line)
      constructor
      · exact fun h => ⟨h.2, h.1.2, fun _ => hreads.mp h.1.1⟩
      · exact fun h => ⟨⟨hreads.mpr (h.reads rfl), h.ends⟩, h.noDot⟩

end

/-- Surroundings in which every file is this one. -/
def holding (w : Written) : Env := { goodEnv with fopen := fun _ _ => some w.file }

/-- A session with one message. -/
def reading : Session :=
  { newSession [] [] with mdir := { mboxcount := 1, msg := [⟨1, false, 100, bytes "f", bytes "1"⟩] } }

/-- A bounce without a copy. -/
def shortBounce : Written := .bounce (bytes "h") (bytes "d") (bytes "a@b") (bytes "c@d") (bytes "550 no") none

/-- The state behind a request. -/
theorem serve_final {env : Env} {line : List Byte} {r : Request} {s : Session}
    (h : (match r.serve env line s with
      | .ok _ _ => true
      | .error _ _ => false) = true) : r.serve env line s = .ok () (final (r.serve env line s)) := by
  cases hrun : r.serve env line s with
  | ok a t => rfl
  | error e t =>
      rw [hrun] at h
      cases h

theorem multiLine_bounce :
    MultiLine (Request.top.asksFor (bytes "top 1 2") shortBounce.file)
      (replyText reading (final (Request.top.serve (holding shortBounce) (bytes "top 1 2") reading))) :=
  (multiLine_iff (by unfold Written.NoZeros shortBounce; decide) rfl rfl (serve_final (by decide +kernel))).mpr
    ⟨by decide +kernel, fun _ => trivial, fun _ => by unfold TopReads; decide +kernel⟩

/-- The file of a message that ends in the middle of a long line. -/
def cutMessage : Written :=
  .accept Smtpd.goodEnv (final (Smtpd.dataLoop Smtpd.goodEnv 0 2000 {} false
    (Smtpd.answered (Smtpd.mailing Smtpd.longLine)))).mconn 0 (bytes "d@h")

/-- The reply to RETR has no line with a dot. -/
theorem not_multiLine :
    cutMessage.NoZeros ∧ ¬ MultiLine (Request.retr.asksFor (bytes "retr 1") cutMessage.file)
      (replyText reading (final (Request.retr.serve (holding cutMessage) (bytes "retr 1") reading))) := by
  refine ⟨by unfold Written.NoZeros cutMessage; decide +kernel, fun h => ?_⟩
  have hdots : (lines isNl (replyText reading (final (Request.retr.serve (holding cutMessage) (bytes "retr 1")
      reading)))).any isDotLine = false := by decide +kernel
  rw [h.1, List.any_append] at hdots
  cases (Bool.or_eq_false_iff.mp hdots).2

end NullG.Pop3d
