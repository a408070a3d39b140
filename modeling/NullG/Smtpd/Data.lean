/-
The message that `smtp_data` reads.

A message is a list of lines up to one with a dot only, but `smtp_data` reads pieces of at most 1023
bytes. A piece at the end of a long line may look like the dot, or like the empty line that ends the
header, and what a piece shows of a header is not what the line says. `Readable` says that this does
not happen; then, and only then, is the message what it should be.
-/

import NullG.Mail.Lines
import NullG.Smtpd.Session

namespace NullG.Smtpd

open NullG.Nsp NullG.Lib NullG.Net NullG.Mail

/-! ### What the message should be -/

/-- The bytes that the client has yet to send. -/
def ahead (s : Session) : List Byte := s.conn.socket.pending.map Octet.byte

/-- The lines of the message. -/
def messageLines (l : List Byte) : List (List Byte) := (lines isNl l).takeWhile (!isDot ·)

/-- What comes behind the line with the dot. -/
def behindMessage (l : List Byte) : List Byte := (((lines isNl l).dropWhile (!isDot ·)).drop 1).flatten

/-- The header of a message: what comes before an empty line. -/
def headerPart (ls : List (List Byte)) : List (List Byte) := ls.takeWhile (!isBlank ·)

/-- The message from its empty line on. -/
def bodyPart (ls : List (List Byte)) : List (List Byte) := ls.dropWhile (!isBlank ·)

/-- The headers that are inserted where they are missing. -/
def headerNames : List String := ["From:", "Date:", "Message-ID:"]

/-- A header is there. -/
def names (ls : List (List Byte)) (name : String) : Bool := ls.any (startsWith · name)

/-- The lines that are inserted, of headers that are there. -/
def missingHeaders (env : Env) (now : Nat) (sender : List Byte) (has : String → Bool) : List Byte :=
  (if has "From:" then [] else (bytes "From: " ++ sender ++ bytes "\r\n").take 1023) ++
  (if has "Date:" then []
    else (bytes "Date: " ++ env.date now ++ bytes "\r\n").take 1023 ++
      (bytes "Date-warning: Date header was inserted by " ++ env.hostName ++ bytes "\r\n").take 1023) ++
  (if has "Message-ID:" then []
    else (bytes "Message-id: <" ++ natDigits (env.time now) ++ bytes "@" ++ env.hostName ++ bytes ">\r\n").take 1023)

/-- The message that these lines are. -/
def expected (env : Env) (now : Nat) (sender : List Byte) (ls : List (List Byte)) : List Byte :=
  (headerPart ls).flatten ++ missingHeaders env now sender (names (headerPart ls)) ++ (bodyPart ls).flatten

/-! ### What its pieces show -/

/-- The pieces of a message. -/
def messagePieces (ls : List (List Byte)) : List (List Byte) := pieces isNl 1023 ls.flatten

/-- The value of a header in the last piece that starts with it and a blank. -/
def lastValue (ps : List (List Byte)) (start : String) : List Byte :=
  ((ps.filter (startsWith · start)).getLast?.map (headerValue · start.length)).getD []

/-- The pieces show a header. -/
def shows (ps : List (List Byte)) (name : String) : Bool := !(lastValue ps (name ++ " ")).isEmpty

/-- The pieces of a message are as good as its lines. -/
structure Readable (ls : List (List Byte)) : Prop where
  /-- no piece looks like the end of the message -/
  dots : ∀ p ∈ messagePieces ls, isDot p = false
  /-- the pieces show the headers that are there -/
  headers : ∀ name ∈ headerNames, shows (headerPart (messagePieces ls)) name = names (headerPart ls) name
  /-- where something is inserted, no piece of the header looks like its end -/
  blank : (∃ name ∈ headerNames, names (headerPart ls) name = false) →
    (headerPart (messagePieces ls)).flatten = (headerPart ls).flatten

/-- The state in which `smtp_data` has answered 354. -/
def answered (s : Session) : Session :=
  { s.ticked with
    conn := s.conn.fprintf (bytes "354 Send the mail data, end with ." ++ bytes "\r\n")
    mconn := { s.mconn with msgbody := [] }
    events := s.events ++ [.data] }

/-- The message is read up to the first line with a dot only, and it is these lines with the headers
that are missing. -/
def FramesData (env : Env) (s : Session) : Prop :=
  ∃ t, dataLoop env s.world.tick (s.conn.left + 1) {} false (answered s) = .ok true t ∧
    t.mconn.msgbody = expected env s.world.tick s.mconn.sender (messageLines (ahead s)) ∧
    ahead t = behindMessage (ahead s)

section

variable {env : Env} {s : Session} {now : Nat} {sender : List Byte} {h : Msgheader}

/-! ### The headers -/

/-- What the loop adds to the message for the pieces that it reads. -/
def collect (env : Env) (now : Nat) (sender : List Byte) : Msgheader → Bool → List (List Byte) → List Byte
  | _, _, [] => []
  | h, done, line :: rest =>
      let r := if done then (h, true, []) else headerLine env now sender line h
      r.2.2 ++ if isDot line then [] else line ++ collect env now sender r.1 r.2.1 rest

/-- What a header is remembered as. -/
def kept (h : Msgheader) (line : List Byte) : Msgheader :=
  if startsWith line "From: " then { h with sender := headerValue line 6 }
  else if startsWith line "Date: " then { h with date := headerValue line 6 }
  else if startsWith line "Message-ID: " then { h with messageId := headerValue line 12 }
  else h

/-- A line that ends the header is none of the headers. -/
theorem blank_starts {line : List Byte} (hline : (isBlank line || isDot line) = true) :
    startsWith line "From: " = false ∧ startsWith line "Date: " = false ∧ startsWith line "Message-ID: " = false := by
  have hstart : ∀ l ∈ [bytes "\r\n", bytes "\n", bytes ".\r\n", bytes ".\n"],
      startsWith l "From: " = false ∧ startsWith l "Date: " = false ∧ startsWith l "Message-ID: " = false := by decide
  have hmem : line ∈ [bytes "\r\n", bytes "\n", bytes ".\r\n", bytes ".\n"] := by
    simp only [isBlank, isDot, Bool.or_eq_true, beq_iff_eq] at hline
    simp only [List.mem_cons, List.not_mem_nil, or_false]
    tauto
  exact hstart line hmem

theorem blank_cases {line : List Byte} (hline : isBlank line = true ∨ isDot line = true) :
    headerLine env now sender line h = (h, true, addedHeaders env now sender h) := by
  have hend : (isBlank line || isDot line) = true := Bool.or_eq_true_iff.mpr hline
  obtain ⟨hfrom, hdate, hid⟩ := blank_starts hend
  unfold headerLine
  rw [hfrom, hdate, hid, hend]
  rfl

theorem headerLine_of_go {line : List Byte} (hblank : isBlank line = false) (hdot : isDot line = false) :
    headerLine env now sender line h = (kept h line, false, []) := by
  unfold headerLine kept
  rw [hblank, hdot]
  by_cases hfrom : startsWith line "From: " = true
  · rw [if_pos hfrom, if_pos hfrom]
  · rw [if_neg hfrom, if_neg hfrom]
    by_cases hdate : startsWith line "Date: " = true
    · rw [if_pos hdate, if_pos hdate]
    · rw [if_neg hdate, if_neg hdate]
      by_cases hid : startsWith line "Message-ID: " = true
      · rw [if_pos hid, if_pos hid]
      · rw [if_neg hid, if_neg hid]
        rfl

/-- Behind the header everything is copied. -/
theorem collect_body {ps : List (List Byte)} {dot : List Byte} (hps : ∀ p ∈ ps, isDot p = false)
    (hdot : isDot dot = true) : collect env now sender h true (ps ++ [dot]) = ps.flatten := by
  induction ps with
  | nil =>
      rw [List.nil_append]
      unfold collect
      simp only [hdot, if_true]
      rfl
  | cons p ps ih =>
      have hp := hps p List.mem_cons_self
      rw [List.cons_append]
      unfold collect
      simp only [hp, if_true]
      rw [ih fun q hq => hps q (List.mem_cons_of_mem _ hq)]
      rfl

/-- In the header it is copied too, and the headers that are missing are added behind it. -/
theorem collect_header {ps : List (List Byte)} {dot : List Byte} (hps : ∀ p ∈ ps, isDot p = false)
    (hdot : isDot dot = true) :
    collect env now sender h false (ps ++ [dot]) =
      (headerPart ps).flatten ++ addedHeaders env now sender ((headerPart ps).foldl kept h) ++ (bodyPart ps).flatten := by
  induction ps generalizing h with
  | nil =>
      rw [List.nil_append]
      unfold collect
      rw [if_neg Bool.false_ne_true, blank_cases (.inr hdot)]
      simp only [hdot, if_true, headerPart, bodyPart, List.takeWhile_nil, List.dropWhile_nil, List.flatten_nil,
        List.foldl_nil, List.nil_append]
  | cons p ps ih =>
      have hp := hps p List.mem_cons_self
      have hrest : ∀ q ∈ ps, isDot q = false := fun q hq => hps q (List.mem_cons_of_mem _ hq)
      rw [List.cons_append]
      unfold collect
      rw [if_neg Bool.false_ne_true]
      cases hblank : isBlank p with
      | true =>
          rw [blank_cases (.inl hblank)]
          simp only [hp, headerPart, bodyPart, List.takeWhile_cons, List.dropWhile_cons, hblank]
          rw [if_neg Bool.false_ne_true, collect_body hrest hdot]
          rfl
      | false =>
          rw [headerLine_of_go hblank hp]
          simp only [hp, headerPart, bodyPart, List.takeWhile_cons, List.dropWhile_cons, hblank, Bool.not_false, if_true,
            List.flatten_cons, List.foldl_cons, List.nil_append]
          rw [if_neg Bool.false_ne_true]
          have hih := ih hrest (h := kept h p)
          simp only [headerPart, bodyPart] at hih
          rw [hih, List.append_assoc, List.append_assoc, List.append_assoc]

/-! ### The loop -/

theorem isDot_cases {line : List Byte} (h : isDot line = true) : line = bytes ".\r" ++ [ch '\n'] ∨ line = bytes "." ++ [ch '\n'] := by
  rcases Bool.or_eq_true_iff.mp h with h | h
  · exact .inl (beq_iff_eq.mp h)
  · exact .inr (beq_iff_eq.mp h)

theorem ended_of_isDot {line : List Byte} (h : isDot line = true) : Lib.ended isNl line = true := by
  rcases isDot_cases h with rfl | rfl <;> rfl

/-- A call of `tcp_fgets` returns the first piece of what comes. -/
theorem fgets_piece {max : Nat} (hmax : 0 < max) (hsound : s.conn.socket.Sound)
    (hwhole : whole isNl max (piece isNl max (ahead s)) = true) :
    ∃ conn, fgets max s = .ok (some (cstr (piece isNl max (ahead s)))) { s with conn := conn } ∧
      conn.socket.Sound ∧ conn.socket.pending.map Octet.byte = (ahead s).drop (piece isNl max (ahead s)).length := by
  have hstop : ∀ c : Octet, isNl c.byte = c.isLf := fun c => rfl
  have hpiece : (firstPiece max s.conn.socket.pending).map Octet.byte = piece isNl max (ahead s) := map_piece hstop max _
  have hwhole' : whole Octet.isLf max (firstPiece max s.conn.socket.pending) = true := by
    rw [← hpiece] at hwhole
    unfold whole Lib.ended at hwhole ⊢
    rw [List.length_map, List.getLast?_map] at hwhole
    cases hlast : (firstPiece max s.conn.socket.pending).getLast? with
    | none =>
        rw [hlast] at hwhole
        exact hwhole
    | some c =>
        rw [hlast] at hwhole
        exact hwhole
  obtain ⟨socket, hsocket, hrun⟩ := tcpFgets_run hmax hsound
  rw [hwhole', if_pos rfl] at hrun
  obtain ⟨hcall, hsplit⟩ := hrun
  refine ⟨{ s.conn with socket := socket, reads := s.conn.reads ++ [(socket.usingTls, firstPiece max s.conn.socket.pending)] },
    ?_, hsocket, ?_⟩
  · unfold fgets Conn.fgets
    rw [run_bind_of_ok (show (get : S Session) s = .ok s s from rfl), hcall, ← hpiece]
    rfl
  · show socket.pending.map Octet.byte = _
    have hahead : ahead s = (firstPiece max s.conn.socket.pending).map Octet.byte ++ socket.pending.map Octet.byte := by
      rw [← List.map_append, ← hsplit]
      rfl
    rw [← hpiece, hahead, List.drop_left]

/-- The loop reads the first piece of what comes, as long as the end of the message is to come. -/
theorem fgets_of_pieces {p dot : List Byte} {rest : List (List Byte)} (hsound : s.conn.socket.Sound)
    (hpieces : pieces isNl 1023 (ahead s) = p :: rest) (hmem : dot ∈ p :: rest) (hdot : isDot dot = true) (hnul : 0 ∉ p) :
    ∃ conn, fgets 1023 s = .ok (some p) { s with conn := conn } ∧ conn.socket.Sound ∧
      pieces isNl 1023 (conn.socket.pending.map Octet.byte) = rest ∧
      conn.socket.pending.map Octet.byte = rest.flatten := by
  have hlf : ¬ Free isNl (ahead s) := by
    intro hfree
    have hdotfree : Free isNl dot := by
      intro c hc
      refine hfree c ?_
      rw [← pieces_flatten (S := isNl) (M := 1023) (by decide) (ahead s), hpieces]
      exact List.mem_flatten.mpr ⟨dot, hmem, hc⟩
    have hend := ended_of_isDot hdot
    rw [hdotfree.not_ended] at hend
    cases hend
  have hne : ahead s ≠ [] := by
    intro hnil
    rw [hnil] at hlf
    exact hlf free_nil
  obtain ⟨conn, hread, hsound', hahead⟩ := @fgets_piece s 1023 (by decide) hsound (whole_of_not_free hlf)
  rw [pieces_eq (by decide) hne, ← hahead] at hpieces
  obtain ⟨hpiece, hrest⟩ := List.cons.inj hpieces
  refine ⟨conn, ?_, hsound', hrest, ?_⟩
  · rw [hread, hpiece, cstr_eq hnul]
  · rw [← hrest, pieces_flatten (by decide)]

/-- A round of the loop. -/
theorem dataLoop_line {fuel : Nat} {done : Bool} {line : List Byte} {t : Session}
    (hread : fgets 1023 s = .ok (some line) t) {r : Msgheader × Bool × List Byte}
    (hr : (if done then (h, true, []) else headerLine env now t.mconn.sender line h) = r) :
    dataLoop env now (fuel + 1) h done s =
      if isDot line then .ok true { t with mconn := { t.mconn with msgbody := t.mconn.msgbody ++ r.2.2 } }
      else dataLoop env now fuel r.1 r.2.1
        { t with mconn := { t.mconn with msgbody := t.mconn.msgbody ++ r.2.2 ++ line } } := by
  rw [← hr, dataLoop, run_bind_of_ok hread]
  by_cases hdot : isDot line = true
  · rw [if_pos hdot]
    simp only [hdot, if_true]
    rfl
  · rw [if_neg hdot]
    simp only [hdot]
    rfl

/-- The loop reads pieces up to the first that looks like the end. -/
theorem dataLoop_run {fuel : Nat} {done : Bool} {before after : List (List Byte)} {dot : List Byte}
    (hsound : s.conn.socket.Sound) (hpieces : pieces isNl 1023 (ahead s) = before ++ dot :: after)
    (hbefore : ∀ p ∈ before, isDot p = false ∧ 0 ∉ p) (hdot : isDot dot = true) (hfuel : before.length < fuel) :
    ∃ t, dataLoop env now fuel h done s = .ok true t ∧
      t.mconn.msgbody = s.mconn.msgbody ++ collect env now s.mconn.sender h done (before ++ [dot]) ∧
      ahead t = after.flatten := by
  have hnul : 0 ∉ dot := by
    rcases isDot_cases hdot with rfl | rfl <;> decide
  induction before generalizing s fuel h done with
  | nil =>
      obtain ⟨fuel, rfl⟩ := Nat.exists_eq_add_one_of_ne_zero (Nat.ne_of_gt hfuel)
      obtain ⟨conn, hread, -, -, hflat⟩ := fgets_of_pieces hsound hpieces List.mem_cons_self hdot hnul
      refine ⟨_, (dataLoop_line hread rfl).trans (if_pos hdot), ?_, hflat⟩
      show s.mconn.msgbody ++ _ = _
      rw [List.nil_append]
      unfold collect
      simp only [hdot, if_true, List.append_nil]
  | cons p before ih =>
      obtain ⟨fuel, rfl⟩ := Nat.exists_eq_add_one_of_ne_zero (Nat.ne_of_gt (Nat.zero_lt_of_lt hfuel))
      obtain ⟨hp, hrest⟩ := List.forall_mem_cons.mp hbefore
      obtain ⟨conn, hread, hsound', hpieces', -⟩ := fgets_of_pieces hsound hpieces
        (List.mem_cons_of_mem _ (List.mem_append_right _ List.mem_cons_self)) hdot hp.2
      generalize hr : (if done then (h, true, []) else headerLine env now s.mconn.sender p h) = r
      let t : Session := { s with conn := conn, mconn := { s.mconn with msgbody := s.mconn.msgbody ++ r.2.2 ++ p } }
      obtain ⟨u, hloop, hbody, hahead⟩ := @ih t r.1 fuel r.2.1 hsound' hpieces' hrest
        (Nat.lt_of_succ_lt_succ hfuel)
      refine ⟨u, ?_, ?_, hahead⟩
      · rw [dataLoop_line hread hr, if_neg (by rw [hp.1]; exact Bool.false_ne_true)]
        exact hloop
      · rw [hbody, List.cons_append, collect]
        simp only [hp.1, hr, t]
        rw [if_neg Bool.false_ne_true, List.append_assoc, List.append_assoc]

/-! ### The headers that are missing -/

/-- What is kept of a header by all pieces together. -/
theorem foldl_kept {field : Msgheader → List Byte} {start : String} {n : Nat}
    (hfield : ∀ h line, field (kept h line) = if startsWith line start then headerValue line n else field h)
    (ps : List (List Byte)) (h : Msgheader) :
    field (ps.foldl kept h) = ((ps.filter (startsWith · start)).getLast?.map (headerValue · n)).getD (field h) := by
  induction ps generalizing h with
  | nil => rfl
  | cons p ps ih =>
      rw [List.foldl_cons, ih, hfield, List.filter_cons]
      cases hp : startsWith p start with
      | false =>
          rw [if_neg Bool.false_ne_true, if_neg Bool.false_ne_true]
      | true =>
          rw [if_pos rfl, if_pos rfl]
          cases hlast : (ps.filter (startsWith · start)).getLast? with
          | none =>
              rw [List.getLast?_eq_none_iff.mp hlast]
              rfl
          | some q =>
              rw [List.getLast?_cons, hlast]
              rfl

theorem not_startsWith_of {line : List Byte} {a b : String} {c d : Byte} {l l' : List Byte}
    (ha : (bytes a).map lower = c :: l) (hb : (bytes b).map lower = d :: l') (hne : c ≠ d) (h : startsWith line a = true) :
    startsWith line b = false := by
  obtain ⟨x, rest, rfl, hx⟩ := first_of_startsWith ha h
  exact not_startsWith hb (by rw [hx]; exact hne) rest

theorem kept_sender (h : Msgheader) (line : List Byte) :
    (kept h line).sender = if startsWith line "From: " then headerValue line 6 else h.sender := by
  unfold kept
  split
  · rfl
  · split
    · rfl
    · split <;> rfl

theorem kept_date (h : Msgheader) (line : List Byte) :
    (kept h line).date = if startsWith line "Date: " then headerValue line 6 else h.date := by
  unfold kept
  by_cases hdate : startsWith line "Date: " = true
  · rw [not_startsWith_of (c := 100) (d := 102) rfl rfl (by decide) hdate, if_neg Bool.false_ne_true, if_pos hdate,
      if_pos hdate]
  · rw [if_neg hdate, if_neg hdate]
    split
    · rfl
    · split <;> rfl

theorem kept_messageId (h : Msgheader) (line : List Byte) :
    (kept h line).messageId = if startsWith line "Message-ID: " then headerValue line 12 else h.messageId := by
  unfold kept
  by_cases hid : startsWith line "Message-ID: " = true
  · rw [not_startsWith_of (c := 109) (d := 102) rfl rfl (by decide) hid,
      not_startsWith_of (c := 109) (d := 100) rfl rfl (by decide) hid, if_neg Bool.false_ne_true,
      if_neg Bool.false_ne_true, if_pos hid, if_pos hid]
  · rw [if_neg hid, if_neg hid]
    split
    · rfl
    · split <;> rfl

/-- The headers that are added are those that the pieces do not show. -/
theorem addedHeaders_eq (ps : List (List Byte)) :
    addedHeaders env now sender (ps.foldl kept {}) = missingHeaders env now sender (shows ps) := by
  have hsender : (ps.foldl kept {}).sender = lastValue ps "From: " := foldl_kept kept_sender ps {}
  have hdate : (ps.foldl kept {}).date = lastValue ps "Date: " := foldl_kept kept_date ps {}
  have hid : (ps.foldl kept {}).messageId = lastValue ps "Message-ID: " := foldl_kept kept_messageId ps {}
  have hshows : ∀ start name : String, name ++ " " = start →
      shows ps name = !(lastValue ps start).isEmpty := by
    rintro start name rfl
    rfl
  unfold addedHeaders missingHeaders
  rw [hsender, hdate, hid, hshows "From: " "From:" rfl,
    hshows "Date: " "Date:" rfl, hshows "Message-ID: " "Message-ID:" rfl]
  cases (lastValue ps "From: ").isEmpty <;> cases (lastValue ps "Date: ").isEmpty <;>
    cases (lastValue ps "Message-ID: ").isEmpty <;>
    simp only [strncatf, Bool.not_true, Bool.not_false, if_true, Bool.false_eq_true, if_false, List.nil_append,
      List.append_nil, List.append_assoc]

/-- Lines with a first letter of their own are told from the text. -/
theorem optional_inj {a b : Bool} {c : Byte} {l r r' : List Byte} (hr : r.head? ≠ some c) (hr' : r'.head? ≠ some c)
    (h : (if a then [] else c :: l) ++ r = (if b then [] else c :: l) ++ r') : a = b ∧ r = r' := by
  cases a with
  | true =>
      cases b with
      | true => exact ⟨rfl, h⟩
      | false =>
          have h' : r = c :: l ++ r' := h
          rw [h'] at hr
          exact absurd rfl hr
  | false =>
      cases b with
      | true =>
          have h' : c :: l ++ r = r' := h
          rw [← h'] at hr'
          exact absurd rfl hr'
      | false => exact ⟨rfl, List.append_cancel_left h⟩

theorem missingHeaders_head (has : String → Bool) :
    missingHeaders env now sender has = [] ∨ ∃ c l, missingHeaders env now sender has = c :: l ∧
      c ≠ ch '\r' ∧ c ≠ ch '\n' := by
  unfold missingHeaders
  cases has "From:" with
  | false => exact .inr ⟨70, _, rfl, by decide, by decide⟩
  | true =>
      cases has "Date:" with
      | false => exact .inr ⟨68, _, rfl, by decide, by decide⟩
      | true =>
          cases has "Message-ID:" with
          | false => exact .inr ⟨77, _, rfl, by decide, by decide⟩
          | true => exact .inl rfl

/-- The text says which headers were missing. -/
theorem missingHeaders_inj {has has' : String → Bool}
    (h : missingHeaders env now sender has = missingHeaders env now sender has') :
    ∀ name ∈ headerNames, has name = has' name := by
  obtain ⟨F, hF⟩ : ∃ F, (bytes "From: " ++ sender ++ bytes "\r\n").take 1023 = 70 :: F := ⟨_, rfl⟩
  obtain ⟨D, hD⟩ : ∃ D, (bytes "Date: " ++ env.date now ++ bytes "\r\n").take 1023 ++
      (bytes "Date-warning: Date header was inserted by " ++ env.hostName ++ bytes "\r\n").take 1023 = 68 :: D := ⟨_, rfl⟩
  obtain ⟨M, hM⟩ : ∃ M, (bytes "Message-id: <" ++ natDigits (env.time now) ++ bytes "@" ++ env.hostName ++
      bytes ">\r\n").take 1023 = 77 :: M := ⟨_, rfl⟩
  unfold missingHeaders at h
  rw [hF, hD, hM, List.append_assoc, List.append_assoc] at h
  have hlast : ∀ b : Bool, (if b then [] else 77 :: M).head? ≠ some 68 := by
    intro b
    cases b <;> simp
  have hrest : ∀ a b : Bool, ((if a then [] else 68 :: D) ++ (if b then [] else 77 :: M)).head? ≠ some 70 := by
    intro a b
    cases a <;> cases b <;> simp
  obtain ⟨hfrom, h⟩ := optional_inj (hrest _ _) (hrest _ _) h
  obtain ⟨hdate, h⟩ := optional_inj (hlast _) (hlast _) h
  have hid := (@optional_inj _ _ _ _ [] [] (by simp) (by simp) (congrArg (· ++ []) h)).1
  intro name hname
  simp only [headerNames, List.mem_cons, List.not_mem_nil, or_false] at hname
  rcases hname with rfl | rfl | rfl
  · exact hfrom
  · exact hdate
  · exact hid

theorem missingHeaders_congr {has has' : String → Bool} (h : ∀ name ∈ headerNames, has name = has' name) :
    missingHeaders env now sender has = missingHeaders env now sender has' := by
  unfold missingHeaders
  rw [h "From:" (by decide), h "Date:" (by decide), h "Message-ID:" (by decide)]

/-- Nothing is missing where all headers are there. -/
theorem missingHeaders_ne_nil {has : String → Bool} (h : ∃ name ∈ headerNames, has name = false) :
    missingHeaders env now sender has ≠ [] := by
  intro hnil
  obtain ⟨name, hname, hfalse⟩ := h
  have hall : missingHeaders env now sender (fun _ => true) = [] := rfl
  cases (missingHeaders_inj (hnil.trans hall.symm) name hname).symm.trans hfalse

/-! ### Pieces and lines of the header -/

theorem isBlank_cases {line : List Byte} (h : isBlank line = true) :
    line = bytes "\r" ++ [ch '\n'] ∨ line = [] ++ [ch '\n'] := by
  rcases Bool.or_eq_true_iff.mp h with h | h
  · exact .inl (beq_iff_eq.mp h)
  · exact .inr (beq_iff_eq.mp h)

/-- A line that is short enough is a piece. -/
theorem pieces_cons {p : List Byte} (hp : Free isNl p) (hlen : p.length < 1023) (r : List Byte) :
    pieces isNl 1023 ((p ++ [ch '\n']) ++ r) = (p ++ [ch '\n']) :: pieces isNl 1023 r := by
  rw [pieces_append (by decide) (.inr (ended_concat p _)), pieces_of_short hp rfl hlen]
  rfl

theorem pieces_dot {dot : List Byte} (h : isDot dot = true) (r : List Byte) :
    pieces isNl 1023 (dot ++ r) = dot :: pieces isNl 1023 r := by
  rcases isDot_cases h with rfl | rfl
  · exact pieces_cons (by decide) (by decide) r
  · exact pieces_cons (by decide) (by decide) r

theorem pieces_blank {line : List Byte} (h : isBlank line = true) (r : List Byte) :
    pieces isNl 1023 (line ++ r) = line :: pieces isNl 1023 r := by
  rcases isBlank_cases h with rfl | rfl
  · exact pieces_cons (by decide) (by decide) r
  · exact pieces_cons (by decide) (by decide) r

theorem headerPart_append (ls : List (List Byte)) : headerPart ls ++ bodyPart ls = ls :=
  List.takeWhile_append_dropWhile

/-- What is dropped starts with an empty line. -/
theorem bodyPart_cases (ls : List (List Byte)) :
    bodyPart ls = [] ∨ ∃ line rest, bodyPart ls = line :: rest ∧ isBlank line = true := by
  unfold bodyPart
  cases hdrop : ls.dropWhile (!isBlank ·) with
  | nil => exact .inl rfl
  | cons line rest =>
      have hhead := List.head?_dropWhile_not (!isBlank ·) ls
      rw [hdrop] at hhead
      refine .inr ⟨line, rest, rfl, ?_⟩
      simpa using hhead

/-- The header does not go on behind an empty line. -/
theorem headerPart_of_nil (xs : List (List Byte)) {ys : List (List Byte)} (h : headerPart ys = []) :
    headerPart (xs ++ ys) = headerPart xs ∧ bodyPart (xs ++ ys) = bodyPart xs ++ ys := by
  induction xs with
  | nil =>
      have hall := headerPart_append ys
      rw [h, List.nil_append] at hall
      exact ⟨h, hall⟩
  | cons x xs ih =>
      unfold headerPart bodyPart at ih ⊢
      rw [List.cons_append, List.takeWhile_cons, List.takeWhile_cons, List.dropWhile_cons, List.dropWhile_cons]
      cases hx : isBlank x with
      | true => exact ⟨rfl, rfl⟩
      | false => exact ⟨congrArg (x :: ·) ih.1, ih.2⟩

/-- The pieces of the header stop at its last line or before it, and there with an empty one. -/
theorem headerPart_pieces {l dot : List Byte} {ls after : List (List Byte)}
    (hlines : lines isNl l = ls ++ dot :: after) :
    ∃ y, (headerPart ls).flatten = (headerPart (messagePieces ls)).flatten ++ y ∧
      (bodyPart (messagePieces ls)).flatten = y ++ (bodyPart ls).flatten ∧
      (y = [] ∨ ∃ c r, y = c :: r ∧ (c = ch '\r' ∨ c = ch '\n')) := by
  have hsplit : (headerPart ls).flatten = [] ∨ Lib.ended isNl (headerPart ls).flatten = true := by
    refine @lines_split _ isNl l _ (bodyPart ls ++ dot :: after) ?_ ?_
    · rw [hlines, ← List.append_assoc, headerPart_append]
    · exact List.append_ne_nil_of_right_ne_nil _ (List.cons_ne_nil _ _)
  have hpieces : messagePieces ls =
      pieces isNl 1023 (headerPart ls).flatten ++ pieces isNl 1023 (bodyPart ls).flatten := by
    unfold messagePieces
    rw [← pieces_append (by decide) hsplit, ← List.flatten_append, headerPart_append]
  -- the pieces of the rest start with the empty line
  have hrest : headerPart (pieces isNl 1023 (bodyPart ls).flatten) = [] := by
    rcases bodyPart_cases ls with hnil | ⟨line, rest, hbody, hblank⟩
    · rw [hnil]
      rfl
    · rw [hbody, List.flatten_cons, pieces_blank hblank]
      unfold headerPart
      rw [List.takeWhile_cons, hblank]
      rfl
  obtain ⟨hhead, hbody⟩ := headerPart_of_nil (pieces isNl 1023 (headerPart ls).flatten) hrest
  refine ⟨(bodyPart (pieces isNl 1023 (headerPart ls).flatten)).flatten, ?_, ?_, ?_⟩
  · rw [hpieces, hhead, ← List.flatten_append, headerPart_append, pieces_flatten (by decide)]
  · rw [hpieces, hbody, List.flatten_append, pieces_flatten (by decide)]
  · rcases bodyPart_cases (pieces isNl 1023 (headerPart ls).flatten) with hnil | ⟨line, rest, hbody, hblank⟩
    · rw [hnil]
      exact .inl rfl
    · rw [hbody, List.flatten_cons]
      rcases isBlank_cases hblank with rfl | rfl
      · exact .inr ⟨_, _, rfl, .inl rfl⟩
      · exact .inr ⟨_, _, rfl, .inr rfl⟩

/-- What the loop makes of a message is what it should be where the pieces show the headers. -/
theorem collect_eq_expected_iff {l dot : List Byte} {ls after : List (List Byte)}
    (hlines : lines isNl l = ls ++ dot :: after) (hdot : isDot dot = true)
    (hdots : ∀ p ∈ messagePieces ls, isDot p = false) :
    collect env now sender {} false (messagePieces ls ++ [dot]) = expected env now sender ls ↔ Readable ls := by
  obtain ⟨y, hhead, hbody, hy⟩ := headerPart_pieces hlines
  rw [collect_header hdots hdot, addedHeaders_eq, hbody]
  unfold expected
  rw [hhead]
  constructor
  · intro heq
    -- what is added is the same, and stands behind the same lines
    have hmove : missingHeaders env now sender (shows (headerPart (messagePieces ls))) ++ y =
        y ++ missingHeaders env now sender (names (headerPart ls)) := by
      have heq' := heq
      simp only [List.append_assoc] at heq'
      have hcancel := List.append_cancel_left heq'
      rw [← List.append_assoc, ← List.append_assoc] at hcancel
      exact List.append_cancel_right hcancel
    rcases hy with rfl | ⟨c, r, rfl, hc⟩
    · rw [List.append_nil, List.nil_append] at hmove
      refine ⟨hdots, missingHeaders_inj hmove, fun _ => ?_⟩
      rw [hhead, List.append_nil]
    · rcases @missingHeaders_head env now sender
        (shows (headerPart (messagePieces ls))) with hnil | ⟨d, m, hm, hr, hn⟩
      · have hnone : missingHeaders env now sender (names (headerPart ls)) = [] := by
          rw [hnil, List.nil_append] at hmove
          exact List.self_eq_append_right.mp hmove
        refine ⟨hdots, missingHeaders_inj (hnil.trans hnone.symm), fun hmissing => ?_⟩
        exact absurd hnone (missingHeaders_ne_nil hmissing)
      · rw [hm] at hmove
        obtain ⟨rfl, -⟩ := List.cons.inj hmove
        rcases hc with rfl | rfl
        · exact absurd rfl hr
        · exact absurd rfl hn
  · rintro ⟨-, hheaders, hblank⟩
    rw [missingHeaders_congr hheaders]
    by_cases hmissing : ∃ name ∈ headerNames, names (headerPart ls) name = false
    · have hy' := hblank hmissing
      rw [hhead] at hy'
      obtain rfl := List.append_right_eq_self.mp hy'.symm
      rw [List.append_nil, List.nil_append]
    · have hnone : missingHeaders env now sender (names (headerPart ls)) = [] := by
        have hall : ∀ name ∈ headerNames, names (headerPart ls) name = (fun _ => true) name := by
          intro name hname
          cases hname' : names (headerPart ls) name with
          | true => rfl
          | false => exact absurd ⟨name, hname, hname'⟩ hmissing
        exact (missingHeaders_congr hall).trans rfl
      rw [hnone, List.append_nil, List.append_nil, List.append_assoc]

/-- The first line or piece that looks like the end. -/
theorem first_dot {ps : List (List Byte)} (h : ps.any isDot = true) :
    ∃ before dot after, ps = before ++ dot :: after ∧ (∀ p ∈ before, isDot p = false) ∧ isDot dot = true := by
  obtain ⟨dot, hfind⟩ := Option.isSome_iff_exists.mp (List.find?_isSome.mpr (List.any_eq_true.mp h))
  obtain ⟨hdot, before, after, hsplit, hbefore⟩ := List.find?_eq_some_iff_append.mp hfind
  refine ⟨before, dot, after, hsplit, fun p hp => ?_, hdot⟩
  simpa using hbefore p hp

/-- A message that comes to its end. -/
theorem message_split {l : List Byte} (h : (lines isNl l).any isDot = true) :
    ∃ dot after, lines isNl l = messageLines l ++ dot :: after ∧ isDot dot = true ∧ behindMessage l = after.flatten := by
  obtain ⟨before, dot, after, hsplit, hbefore, hdot⟩ := first_dot h
  have hgo : ∀ p ∈ before, (!isDot p) = true := fun p hp => by rw [hbefore p hp]; rfl
  have htake : messageLines l = before := by
    unfold messageLines
    rw [hsplit, List.takeWhile_append_of_pos hgo, List.takeWhile_cons, hdot]
    exact List.append_nil _
  refine ⟨dot, after, by rw [htake, hsplit], hdot, ?_⟩
  unfold behindMessage
  rw [hsplit, List.dropWhile_append_of_pos hgo, List.dropWhile_cons, hdot]
  rfl

/-- `smtp_data` reads a message as it should exactly where its pieces are as good as its lines. -/
theorem framesData_iff (env : Env) (s : Session) (hsound : s.conn.socket.Sound)
    (hnul : 0 ∉ (messageLines (ahead s)).flatten) (hend : (lines isNl (ahead s)).any isDot = true) :
    FramesData env s ↔ Readable (messageLines (ahead s)) := by
  obtain ⟨dot, after, hlines, hdot, hbehind⟩ := message_split hend
  have hpieces : pieces isNl 1023 (ahead s) =
      messagePieces (messageLines (ahead s)) ++ dot :: pieces isNl 1023 after.flatten := by
    rw [pieces_of_lines (by decide) hlines, List.flatten_cons, pieces_dot hdot]
    rfl
  have hfuel : (messagePieces (messageLines (ahead s))).length < s.conn.left + 1 := by
    have hlen := pieces_length_le (S := isNl) (M := 1023) (by decide) (ahead s)
    have hpending : (ahead s).length ≤ s.conn.left := by
      unfold ahead
      rw [List.length_map]
      exact pending_length s.conn
    rw [hpieces, List.length_append] at hlen
    omega
  have hclean : ∀ p ∈ messagePieces (messageLines (ahead s)), 0 ∉ p := by
    intro p hp hzero
    refine hnul ?_
    rw [← pieces_flatten (S := isNl) (M := 1023) (by decide) (messageLines (ahead s)).flatten]
    exact List.mem_flatten.mpr ⟨p, hp, hzero⟩
  by_cases hdots : ∀ p ∈ messagePieces (messageLines (ahead s)), isDot p = false
  · obtain ⟨t, hrun, hbody, hahead⟩ := @dataLoop_run env (answered s) s.world.tick {} _ false _ _ _
      hsound hpieces (fun p hp => ⟨hdots p hp, hclean p hp⟩) hdot hfuel
    rw [pieces_flatten (by decide)] at hahead
    have hbody' : t.mconn.msgbody = collect env s.world.tick s.mconn.sender {} false
      (messagePieces (messageLines (ahead s)) ++ [dot]) := hbody
    rw [← @collect_eq_expected_iff env s.world.tick s.mconn.sender _ _ _ _ hlines hdot hdots]
    constructor
    · rintro ⟨u, hrun', hexpected, -⟩
      cases hrun.symm.trans hrun'
      exact hbody'.symm.trans hexpected
    · intro hexpected
      exact ⟨t, hrun, hbody'.trans hexpected, hahead.trans hbehind.symm⟩
  · -- the loop stops at a piece in front of the line with the dot
    have hany : (messagePieces (messageLines (ahead s))).any isDot = true := by
      simpa using hdots
    obtain ⟨before, stop, rest, hsplit, hbefore, hstop⟩ := first_dot hany
    obtain ⟨t, hrun, -, hahead⟩ := @dataLoop_run env (answered s) s.world.tick {} _ false before
      (rest ++ dot :: pieces isNl 1023 after.flatten) stop hsound
      (by rw [show ahead (answered s) = ahead s from rfl, hpieces, hsplit, List.append_assoc, List.cons_append])
      (fun p hp => ⟨hbefore p hp, hclean p (by rw [hsplit]; exact List.mem_append_left _ hp)⟩) hstop (by
        rw [hsplit, List.length_append] at hfuel
        exact Nat.lt_of_le_of_lt (Nat.le_add_right _ _) hfuel)
    constructor
    · rintro ⟨u, hrun', -, hbehind'⟩
      cases hrun.symm.trans hrun'
      rw [hahead, hbehind, List.flatten_append, List.flatten_cons, pieces_flatten (by decide)] at hbehind'
      have hlen := congrArg List.length hbehind'
      have hpos : 0 < dot.length := List.length_pos_of_ne_nil (ne_nil_of_ended (ended_of_isDot hdot))
      rw [List.length_append, List.length_append] at hlen
      omega
    · intro h
      exact absurd h.dots hdots

end

/-- A session in which a client sends a message from `c@h`. -/
def mailing (message : List Byte) : Session :=
  let s := newSession [message] []
  { s with mconn := { s.mconn with sender := bytes "c@h", numRcpts := 1 } }

theorem mailing_sound (message : List Byte) : (mailing message).conn.socket.Sound := ⟨clearBuf_length, Nat.zero_le _⟩

/-- A message without a date, and what the client sends behind it. -/
theorem framesData_short :
    FramesData goodEnv (mailing (bytes "From: a\r\nMessage-ID: b\r\n\r\n..\r\n.\r\nQUIT\r\n")) :=
  (framesData_iff goodEnv _ (mailing_sound _) (by decide +kernel) (by decide +kernel)).mpr
    ⟨by decide +kernel, by decide +kernel, by decide +kernel⟩

/-- A line of 1024 bytes whose last one is a dot. -/
def longLine : List Byte := bytes "\n" ++ List.replicate 1023 (ch 'a') ++ bytes ".\r\nb\r\n.\r\n"

/-- The message ends in the middle of a long line. -/
theorem not_framesData :
    0 ∉ (messageLines (ahead (mailing longLine))).flatten ∧ (lines isNl (ahead (mailing longLine))).any isDot = true ∧
      ¬ FramesData goodEnv (mailing longLine) := by
  refine ⟨by decide +kernel, by decide +kernel, ?_⟩
  rintro ⟨t, hrun, -, hbehind⟩
  have hleft : (match dataLoop goodEnv (mailing longLine).world.tick ((mailing longLine).conn.left + 1) {} false
      (answered (mailing longLine)) with
    | .ok _ t => (ahead t).length
    | .error _ _ => 0) = 6 := by decide +kernel
  rw [hrun] at hleft
  have hlen : (ahead t).length = 6 := hleft
  rw [hbehind] at hlen
  have hnone : (behindMessage (ahead (mailing longLine))).length = 0 := by decide +kernel
  cases hlen.symm.trans hnone

end NullG.Smtpd
