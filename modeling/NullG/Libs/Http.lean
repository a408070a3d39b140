/-
The HTTP client of the script library (`libs/net/http.c`).

`libnsp_net_http_client_send` splits the status line and the header lines at the place where `nc_strchr` finds a blank
or a colon, and reads through the pointer before it is known that one was found. So a server is survived whose lines
have what is looked for, and no other (`receive_iff`).
-/

import NullG.Lib.Except
import NullG.Lib.Memory
import NullG.Libs.Pop3

namespace NullG.Libs.Http

open NullG.Nsp NullG.Lib NullG.Mail
open NullG.Libs.Pop3 (stripped cstr_stripped)

/-! ### The code -/

/-- A call stops: memory outside of `tmpbuf` is used, or a null pointer; or the model has taken as many steps as there
are bytes. -/
inductive Fault where
  | memory
  | stuck
  deriving DecidableEq

/-- `*p`; a null pointer is `none`. -/
def deref (tmpbuf : List Byte) (p : Option Nat) : Option Byte := p.bind (tmpbuf[·]?)

/-- The loop of `_nc_strchr`, on the cells from the place `a` on: the pointer that it returns. -/
def strchrFrom (c : Byte) : List Byte → Nat → Option (Option Nat)
  | [], _ => none
  | d :: cells, a => if d = c then some (some a) else if d = 0 then some none else strchrFrom c cells (a + 1)

/-- `nc_strchr`. -/
def ncStrchr (tmpbuf : List Byte) (s : Option Nat) (c : Byte) : Option (Option Nat) :=
  s.bind fun a => strchrFrom c (tmpbuf.drop a) a

/-- `(*p1) && (*p2)`. -/
def bothSet (tmpbuf : List Byte) (p1 p2 : Option Nat) : Option Bool := do
  if (← deref tmpbuf p1) = 0 then some false else some ((← deref tmpbuf p2) != 0)

/-- `*p2++ = '\0'`. -/
def cut (tmpbuf : List Byte) (p2 : Option Nat) : Option (List Byte × Nat) := do
  let a ← p2
  some (← Memory.write tmpbuf a [0], a + 1)

/-- `while (nc_isspace(*p2)) p2++;` -/
def skipSpaces (tmpbuf : List Byte) (p2 : Nat) : Option Nat := Memory.skip tmpbuf ncIsspace tmpbuf.length p2

/-- `for (p = p1; *p; p++) *p = nc_tolower(*p);` -/
def lowerString : List Byte → Option (List Byte)
  | [] => none
  | c :: cells => if c = 0 then some (c :: cells) else (lowerString cells).map (lower c :: ·)

/-- What is set in a table. -/
inductive Field where
  | str (s : List Byte)
  | num (n : Int)
  deriving DecidableEq

/-- A string, which is a number if it has nothing but digits. -/
def field (tmpbuf : List Byte) (p1 : Nat) : Option Field := do
  let s ← Memory.str 0 tmpbuf p1
  let p ← Memory.skip tmpbuf ncIsdigit tmpbuf.length p1
  some (if (← tmpbuf[p]?) ≠ 0 then .str s else .num (atoi s))

/-- The status line behind its first word: `b` and `c`. -/
def statusRest (tmpbuf : List Byte) (p1 : Option Nat) (stat : List (List Byte × Field)) :
    Option (List Byte × List (List Byte × Field)) := do
  let p2 ← ncStrchr tmpbuf p1 (ch ' ')
  if ← bothSet tmpbuf p1 p2 then
    let (tmpbuf, p2) ← cut tmpbuf p2
    let p2 ← skipSpaces tmpbuf p2
    let b ← field tmpbuf (← p1)
    let c ← Memory.str 0 tmpbuf p2
    some (tmpbuf, stat ++ [(bytes "b", b), (bytes "c", .str c)])
  else some (tmpbuf, stat)

/-- The status line is split: `tmpbuf` and `stat`. -/
def statusLine (tmpbuf : List Byte) : Option (List Byte × List (List Byte × Field)) := do
  let p1 := some 0
  let p2 ← ncStrchr tmpbuf p1 (ch ' ')
  if ← bothSet tmpbuf p1 p2 then
    let (tmpbuf, p2) ← cut tmpbuf p2
    let p2 ← skipSpaces tmpbuf p2
    let a ← Memory.str 0 tmpbuf 0
    statusRest tmpbuf (some p2) [(bytes "a", .str a)]
  else statusRest tmpbuf p2 []

/-- A header line is split: `tmpbuf`, and what is set in `headers`. -/
def headerLine (tmpbuf : List Byte) : Option (List Byte × Option (List Byte × Field)) := do
  let p1 := some 0
  let p2 ← ncStrchr tmpbuf p1 (ch ':')
  if ← bothSet tmpbuf p1 p2 then
    let (tmpbuf, p2) ← cut tmpbuf p2
    let tmpbuf ← lowerString tmpbuf
    let p2 ← skipSpaces tmpbuf p2
    let name ← Memory.str 0 tmpbuf 0
    if name = bytes "content-length" then some (tmpbuf, some (name, ← field tmpbuf p2))
    else some (tmpbuf, some (name, .str (← Memory.str 0 tmpbuf p2)))
  else some (tmpbuf, none)

/-- What the caller gets. -/
structure Reply where
  status : Option (List Byte) := none
  stat : List (List Byte × Field) := []
  head : List Byte := []
  headers : List (List Byte × Field) := []
  cl : Int := -1
  body : List Byte := []

/-- A header is set; `cl` is the number that `content-length` has. -/
def Reply.set (r : Reply) (header : Option (List Byte × Field)) : Reply :=
  match header with
  | none => r
  | some (name, .num n) => { r with headers := r.headers ++ [(name, .num n)], cl := n }
  | some (name, .str s) => { r with headers := r.headers ++ [(name, .str s)] }

/-- A line is read into `tmpbuf`: `rc`, `tmpbuf` and the socket. -/
def gets (tmpbuf : List Byte) (socket : TcpSocket) : Except Fault (Int × List Byte × List Byte × TcpSocket) :=
  match tcpFgets 1023 socket with
  | (none, socket) => .ok (-1, [], tmpbuf, socket)
  | (some line, socket) =>
      match Memory.write tmpbuf 0 (line ++ [0]) with
      | none => .error .memory
      | some tmpbuf => .ok (line.length, line, tmpbuf, socket)

/-- The loop that reads the header. -/
def readHead : Nat → Reply → List Byte → TcpSocket → Except Fault (Reply × List Byte × TcpSocket)
  | 0, _, _, _ => .error .stuck
  | fuel + 1, r, tmpbuf, socket => do
      let (rc, line, tmpbuf, socket) ← gets tmpbuf socket
      if rc < 1 then .ok (r, tmpbuf, socket)
      else
        let r := { r with head := r.head ++ line }
        let tmpbuf := stripped tmpbuf
        if (cstr tmpbuf).length < 1 then .ok (r, tmpbuf, socket)
        else
          match headerLine tmpbuf with
          | none => .error .memory
          | some (tmpbuf, header) => readHead fuel (r.set header) tmpbuf socket

/-- The loop that reads the body; `len` is an `int`. -/
def readBody : Nat → Reply → Int → List Byte → TcpSocket → Except Fault Reply
  | 0, _, _, _, _ => .error .stuck
  | fuel + 1, r, len, tmpbuf, socket => do
      let (rc, line, tmpbuf, socket) ← gets tmpbuf socket
      if rc < 1 then .ok r
      else
        let len := (len + rc).bmod (2 ^ 32)
        let r := { r with body := r.body ++ line }
        if r.cl > -1 ∧ len ≥ r.cl then .ok r else readBody fuel r len (stripped tmpbuf) socket

/-- What follows the first line. -/
def readRest (r : Reply) (tmpbuf : List Byte) (socket : TcpSocket) : Except Fault Reply := do
  let (r, tmpbuf, socket) ← readHead (socket.pending.length + 1) r tmpbuf socket
  let r := { r with head := striprn r.head }
  readBody (socket.pending.length + 1) r 0 tmpbuf socket

/-- `libnsp_net_http_client_send`, from the first `tcp_fgets` on. -/
def receive (tmpbuf : List Byte) (socket : TcpSocket) : Except Fault Reply := do
  let (rc, _, tmpbuf, socket) ← gets tmpbuf socket
  if rc > 0 then
    let status := striprn (cstr tmpbuf)
    match statusLine (stripped tmpbuf) with
    | none => .error .memory
    | some (tmpbuf, stat) => readRest { status := some status, stat := stat } tmpbuf socket
  else readRest { } tmpbuf socket

/-! ### What is looked for -/

/-- The text of a line: up to a NUL, without what `striprn` takes. -/
def lineText (line : List Byte) : List Byte := striprn (cstr line)

/-- What follows the first blank, and the white space behind it. -/
def behindBlank (text : List Byte) : List Byte :=
  ((text.dropWhile (· != ch ' ')).drop 1).dropWhile ncIsspace

/-- A status line has a blank, and what follows it is nothing or has a blank too. -/
def StatusSplits (text : List Byte) : Prop :=
  ch ' ' ∈ text ∧ (behindBlank text = [] ∨ ch ' ' ∈ behindBlank text)

/-- The lines of the header: up to the first without a text. -/
def headLines (lines : List (List Byte)) : List (List Byte) := lines.takeWhile fun line => !(lineText line).isEmpty

/-- The first line splits as a status line, and each line of the header has a colon. -/
def Splits : List (List Byte) → Prop
  | [] => True
  | line :: lines => StatusSplits (lineText line) ∧ ∀ l ∈ headLines lines, ch ':' ∈ lineText l

instance (text : List Byte) : Decidable (StatusSplits text) :=
  inferInstanceAs (Decidable (ch ' ' ∈ text ∧ (behindBlank text = [] ∨ ch ' ' ∈ behindBlank text)))

instance (lines : List (List Byte)) : Decidable (Splits lines) :=
  match lines with
  | [] => inferInstanceAs (Decidable True)
  | line :: lines =>
      inferInstanceAs (Decidable (StatusSplits (lineText line) ∧ ∀ l ∈ headLines lines, ch ':' ∈ lineText l))

/-! ### Strings in `tmpbuf` -/

/-- There is a string at a place of `tmpbuf`. -/
structure At (tmpbuf : List Byte) (p : Nat) (text : List Byte) : Prop where
  cells : ∃ before rest, tmpbuf = before ++ (text ++ 0 :: rest) ∧ before.length = p
  clean : 0 ∉ text

section

variable {tmpbuf a b text : List Byte} {p : Nat} {c : Byte} {stat : List (List Byte × Field)}

theorem split_mem (h : c ∈ text) :
    text = text.takeWhile (· != c) ++ c :: (text.dropWhile (· != c)).drop 1 ∧ c ∉ text.takeWhile (· != c) := by
  refine ⟨?_, ?_⟩
  · induction text with
    | nil => exact absurd h List.not_mem_nil
    | cons d text ih =>
        by_cases hd : d = c
        · subst hd
          simp
        · have hrest := ih ((List.mem_cons.mp h).resolve_left (Ne.symm hd))
          have hpass : (d != c) = true := bne_iff_ne.mpr hd
          rw [List.takeWhile_cons_of_pos (p := (· != c)) hpass, List.dropWhile_cons_of_pos (p := (· != c)) hpass,
            List.cons_append, ← hrest]
  · intro hmem
    have htest := List.mem_takeWhile_imp hmem
    exact absurd rfl (bne_iff_ne.mp htest)

namespace At

theorem str (h : At tmpbuf p text) : Memory.str 0 tmpbuf p = some text := by
  obtain ⟨before, rest, rfl, rfl⟩ := h.cells
  exact Memory.str_run List.drop_left h.clean

theorem deref_nil (h : At tmpbuf p []) : deref tmpbuf (some p) = some 0 := by
  obtain ⟨before, rest, rfl, rfl⟩ := h.cells
  exact Memory.read_end

theorem deref_cons (h : At tmpbuf p (c :: text)) : deref tmpbuf (some p) = some c ∧ c ≠ 0 := by
  obtain ⟨before, rest, rfl, rfl⟩ := h.cells
  refine ⟨Memory.read_end, ?_⟩
  rintro rfl
  exact h.clean List.mem_cons_self

theorem strchrFrom_run (hzero : 0 ∉ text) (hc : c ≠ 0) (rest : List Byte) (i : Nat) :
    strchrFrom c (text ++ 0 :: rest) i =
      some (if c ∈ text then some (i + (text.takeWhile (· != c)).length) else none) := by
  induction text generalizing i with
  | nil => simp [strchrFrom, hc.symm]
  | cons d text ih =>
      obtain ⟨hd, hrest⟩ : 0 ≠ d ∧ 0 ∉ text := by simpa using hzero
      rw [List.cons_append, strchrFrom]
      by_cases hdc : d = c
      · subst hdc
        simp
      · have hpass : (d != c) = true := bne_iff_ne.mpr hdc
        rw [if_neg hdc, if_neg hd.symm, ih hrest, List.takeWhile_cons_of_pos (p := (· != c)) hpass, List.length_cons]
        by_cases hmem : c ∈ text
        · rw [if_pos hmem, if_pos (List.mem_cons_of_mem d hmem), Nat.add_right_comm, Nat.add_assoc i]
        · have hnot : c ∉ d :: text := List.not_mem_cons_of_ne_of_not_mem (Ne.symm hdc) hmem
          rw [if_neg hmem, if_neg hnot]

/-- A character that is not there is not found. -/
theorem strchr_none (h : At tmpbuf p text) (hc : c ≠ 0) (hmem : c ∉ text) :
    ncStrchr tmpbuf (some p) c = some none := by
  obtain ⟨before, rest, rfl, rfl⟩ := h.cells
  rw [ncStrchr, Option.bind_some, List.drop_left, strchrFrom_run h.clean hc, if_neg hmem]

/-- The first character of a kind is found. -/
theorem strchr_some (h : At tmpbuf p (a ++ c :: b)) (ha : c ∉ a) :
    ncStrchr tmpbuf (some p) c = some (some (p + a.length)) := by
  have hc : c ≠ 0 := by
    rintro rfl
    exact h.clean (List.mem_append_right _ List.mem_cons_self)
  have hall : ∀ d ∈ a, (d != c) = true := fun d hd => bne_iff_ne.mpr fun heq => ha (heq ▸ hd)
  have htake : (a ++ c :: b).takeWhile (· != c) = a := by
    rw [List.takeWhile_append_of_pos hall, List.takeWhile_cons_of_neg (by simp), List.append_nil]
  obtain ⟨before, rest, hcells, rfl⟩ := h.cells
  rw [ncStrchr, Option.bind_some, hcells, List.drop_left, strchrFrom_run h.clean hc,
    if_pos (List.mem_append_right _ List.mem_cons_self), htake]

/-- A string is cut in two. -/
theorem cut_run (h : At tmpbuf p (a ++ c :: b)) : ∃ tmpbuf', cut tmpbuf (some (p + a.length)) =
    some (tmpbuf', p + a.length + 1) ∧ At tmpbuf' p a ∧ At tmpbuf' (p + a.length + 1) b ∧
      tmpbuf'.length = tmpbuf.length := by
  obtain ⟨before, rest, hcells, rfl⟩ := h.cells
  have hclean := h.clean
  rw [List.mem_append, List.mem_cons, not_or, not_or] at hclean
  have hsplit : tmpbuf = (before ++ a) ++ ([c] ++ (b ++ 0 :: rest)) := by
    rw [hcells]
    simp
  have hwrite : Memory.write tmpbuf (before.length + a.length) [0] =
      some ((before ++ a) ++ ([0] ++ (b ++ 0 :: rest))) := by
    rw [hsplit, ← List.length_append]
    exact Memory.write_over [0] [c] rfl _ _
  refine ⟨_, ?_, ⟨⟨before, b ++ 0 :: rest, ?_, rfl⟩, hclean.1⟩,
    ⟨⟨before ++ a ++ [0], rest, ?_, ?_⟩, hclean.2.2⟩, Memory.write_length hwrite⟩
  · rw [cut, Option.bind_eq_bind, Option.bind_some, hwrite]
    rfl
  · simp
  · simp
  · simp [Nat.add_assoc]

/-- A loop that goes on behind characters ends in the string or behind it. -/
theorem skip_run (h : At tmpbuf p text) (test : Byte → Bool) (hzero : test 0 = false) :
    Memory.skip tmpbuf test tmpbuf.length p = some (p + (text.takeWhile test).length) ∧
      At tmpbuf (p + (text.takeWhile test).length) (text.dropWhile test) := by
  obtain ⟨before, rest, hcells, rfl⟩ := h.cells
  have hle : before.length ≤ (before ++ text).length := (List.sublist_append_left before text).length_le
  have hrounds : (before ++ text).length < tmpbuf.length + before.length := by
    rw [hcells]
    simp only [List.length_append, List.length_cons]
    omega
  have hrun : Memory.skip (before ++ text ++ 0 :: rest) test tmpbuf.length before.length = _ :=
    Memory.skip_run hzero hle hrounds
  rw [List.append_assoc, ← hcells, List.drop_left] at hrun
  refine ⟨hrun, ⟨before ++ text.takeWhile test, rest, ?_, List.length_append⟩, fun hmem => ?_⟩
  · rw [hcells, List.append_assoc, ← List.append_assoc (text.takeWhile test), List.takeWhile_append_dropWhile]
  · exact h.clean ((List.dropWhile_suffix test).subset hmem)

theorem deref_some (h : At tmpbuf p text) : ∃ d, tmpbuf[p]? = some d := by
  cases text with
  | nil => exact ⟨0, h.deref_nil⟩
  | cons d text => exact ⟨d, h.deref_cons.1⟩

theorem field_run (h : At tmpbuf p text) : ∃ v, field tmpbuf p = some v := by
  obtain ⟨hskip, hend⟩ := h.skip_run ncIsdigit rfl
  obtain ⟨d, hd⟩ := hend.deref_some
  rw [field, h.str, Option.bind_eq_bind, Option.bind_some, hskip, Option.bind_eq_bind, Option.bind_some, hd]
  exact ⟨_, rfl⟩

/-- The first string in `tmpbuf` is put into lower case; one behind it stays. -/
theorem lower_run {tail : List Byte} (h : At tmpbuf 0 text) (htail : At tmpbuf p tail) (hp : text.length < p) :
    ∃ tmpbuf', lowerString tmpbuf = some tmpbuf' ∧ (∃ name, Memory.str 0 tmpbuf' 0 = some name) ∧
      At tmpbuf' p tail ∧ tmpbuf'.length = tmpbuf.length := by
  have hlower : ∀ (text rest : List Byte), 0 ∉ text →
      lowerString (text ++ 0 :: rest) = some (text.map lower ++ 0 :: rest) := by
    intro text rest hclean
    induction text with
    | nil => simp [lowerString]
    | cons d text ih =>
        obtain ⟨hd, hrest⟩ : 0 ≠ d ∧ 0 ∉ text := by simpa using hclean
        rw [List.cons_append, lowerString, if_neg hd.symm, ih hrest]
        rfl
  obtain ⟨before, rest, hcells, hbefore⟩ := h.cells
  obtain rfl := List.length_eq_zero_iff.mp hbefore
  rw [List.nil_append] at hcells
  have hrun := hlower text rest h.clean
  rw [← hcells] at hrun
  refine ⟨_, hrun, ?_, ?_, ?_⟩
  · rw [Memory.str, List.drop_zero, if_pos (List.mem_append_right _ List.mem_cons_self)]
    exact ⟨_, rfl⟩
  · obtain ⟨before', rest', hcells', rfl⟩ := htail.cells
    have hsplit : rest = before'.drop (text.length + 1) ++ (tail ++ 0 :: rest') := by
      have hdrop : tmpbuf.drop (text.length + 1) = rest := by
        rw [hcells, ← List.drop_drop, List.drop_left]
        rfl
      rw [← hdrop, hcells', List.drop_append_of_le_length hp]
    refine ⟨⟨text.map lower ++ 0 :: before'.drop (text.length + 1), rest', ?_, ?_⟩, htail.clean⟩
    · rw [hsplit, List.append_assoc]
      rfl
    · simp only [List.length_append, List.length_map, List.length_cons, List.length_drop]
      omega
  · rw [hcells]
    simp

end At

/-! ### The lines -/

theorem bothSet_nil (h : At tmpbuf p []) (p2 : Option Nat) : bothSet tmpbuf (some p) p2 = some false := by
  rw [bothSet, h.deref_nil]
  rfl

/-- A null pointer is read. -/
theorem bothSet_null (h : At tmpbuf p text) (hne : text ≠ []) : bothSet tmpbuf (some p) none = none := by
  obtain ⟨d, text, rfl⟩ := List.exists_cons_of_ne_nil hne
  obtain ⟨hderef, hd⟩ := h.deref_cons
  rw [bothSet, hderef, Option.bind_eq_bind, Option.bind_some, if_neg hd]
  rfl

theorem bothSet_found (h : At tmpbuf p (a ++ c :: b)) : bothSet tmpbuf (some p) (some (p + a.length)) = some true := by
  have hfirst : ∃ d, deref tmpbuf (some p) = some d ∧ d ≠ 0 := by
    cases a with
    | nil => exact ⟨c, h.deref_cons⟩
    | cons d a => exact ⟨d, h.deref_cons⟩
  have hsecond : deref tmpbuf (some (p + a.length)) = some c ∧ c ≠ 0 := by
    obtain ⟨before, rest, hcells, rfl⟩ := h.cells
    have hat : At tmpbuf (before.length + a.length) (c :: b) :=
      ⟨⟨before ++ a, rest, by rw [hcells]; simp, List.length_append⟩,
        fun hmem => h.clean (List.mem_append_right a hmem)⟩
    exact hat.deref_cons
  obtain ⟨d, hderef, hd⟩ := hfirst
  rw [bothSet, hderef, Option.bind_eq_bind, Option.bind_some, if_neg hd, hsecond.1, Option.bind_some,
    bne_iff_ne.mpr hsecond.2]

theorem statusRest_ok (h : At tmpbuf p text) (hsplit : text = [] ∨ ch ' ' ∈ text) :
    ∃ tmpbuf' stat', statusRest tmpbuf (some p) stat = some (tmpbuf', stat') ∧ tmpbuf'.length = tmpbuf.length := by
  rcases hsplit with rfl | hmem
  · rw [statusRest, h.strchr_none (by decide) List.not_mem_nil, Option.bind_eq_bind, Option.bind_some, bothSet_nil h]
    exact ⟨_, _, rfl, rfl⟩
  · obtain ⟨hparts, ha⟩ := split_mem hmem
    generalize text.takeWhile (· != ch ' ') = a at hparts ha
    generalize (text.dropWhile (· != ch ' ')).drop 1 = b at hparts
    subst hparts
    obtain ⟨tmpbuf', hcut, hfirst, hsecond, hlen⟩ := h.cut_run
    obtain ⟨hskip, hend⟩ := hsecond.skip_run ncIsspace rfl
    obtain ⟨v, hv⟩ := hfirst.field_run
    refine ⟨tmpbuf', stat ++ [(bytes "b", v), (bytes "c", .str (b.dropWhile ncIsspace))], ?_, hlen⟩
    simp only [statusRest, h.strchr_some ha, bothSet_found h, hcut, skipSpaces, hskip, hv, hend.str,
      Option.bind_eq_bind, Option.bind_some, if_true]

theorem statusRest_null (h : At tmpbuf p text) (hne : text ≠ []) (hmem : ch ' ' ∉ text) :
    statusRest tmpbuf (some p) stat = none := by
  rw [statusRest, h.strchr_none (by decide) hmem, Option.bind_eq_bind, Option.bind_some, bothSet_null h hne]
  rfl

/-- The first word of a status line is split off. -/
theorem statusLine_word (h : At tmpbuf 0 (a ++ ch ' ' :: b)) (ha : ch ' ' ∉ a) :
    ∃ tmpbuf' p, statusLine tmpbuf = statusRest tmpbuf' (some p) [(bytes "a", .str a)] ∧
      At tmpbuf' p (b.dropWhile ncIsspace) ∧ tmpbuf'.length = tmpbuf.length := by
  obtain ⟨tmpbuf', hcut, hfirst, hsecond, hlen⟩ := h.cut_run
  obtain ⟨hskip, hend⟩ := hsecond.skip_run ncIsspace rfl
  refine ⟨tmpbuf', _, ?_, hend, hlen⟩
  simp only [statusLine, h.strchr_some ha, bothSet_found h, hcut, skipSpaces, hskip, hfirst.str,
    Option.bind_eq_bind, Option.bind_some, if_true]

/-- A status line that splits is split. -/
theorem statusLine_ok (h : At tmpbuf 0 text) (hsplit : StatusSplits text) :
    ∃ tmpbuf' stat, statusLine tmpbuf = some (tmpbuf', stat) ∧ tmpbuf'.length = tmpbuf.length := by
  obtain ⟨hparts, ha⟩ := split_mem hsplit.1
  rw [hparts] at h
  obtain ⟨tmpbuf', p, hrun, hat, hlen⟩ := statusLine_word h ha
  rw [hrun, ← hlen]
  exact statusRest_ok hat hsplit.2

/-- One that does not is read through a null pointer. -/
theorem statusLine_null (h : At tmpbuf 0 text) (hsplit : ¬ StatusSplits text) : statusLine tmpbuf = none := by
  by_cases hmem : ch ' ' ∈ text
  · obtain ⟨hparts, ha⟩ := split_mem hmem
    have hrest : ¬ (behindBlank text = [] ∨ ch ' ' ∈ behindBlank text) := fun hrest => hsplit ⟨hmem, hrest⟩
    rw [not_or] at hrest
    rw [hparts] at h
    obtain ⟨tmpbuf', p, hrun, hat, -⟩ := statusLine_word h ha
    rw [hrun]
    exact statusRest_null hat hrest.1 hrest.2
  · by_cases hnil : text = []
    · subst hnil
      rw [statusLine, h.strchr_none (by decide) hmem, Option.bind_eq_bind, Option.bind_some, bothSet_nil h]
      rfl
    · rw [statusLine, h.strchr_none (by decide) hmem, Option.bind_eq_bind, Option.bind_some, bothSet_null h hnil]
      rfl

theorem headerLine_ok (h : At tmpbuf 0 text) (hmem : ch ':' ∈ text) :
    ∃ tmpbuf' header, headerLine tmpbuf = some (tmpbuf', header) ∧ tmpbuf'.length = tmpbuf.length := by
  obtain ⟨hparts, ha⟩ := split_mem hmem
  generalize text.takeWhile (· != ch ':') = a at hparts ha
  generalize (text.dropWhile (· != ch ':')).drop 1 = b at hparts
  subst hparts
  obtain ⟨tmpbuf', hcut, hfirst, hsecond, hlen⟩ := h.cut_run
  obtain ⟨tmpbuf'', hlower, ⟨name, hname⟩, hsecond, hlen'⟩ := hfirst.lower_run hsecond (by omega)
  obtain ⟨hskip, hend⟩ := hsecond.skip_run ncIsspace rfl
  obtain ⟨v, hv⟩ := hend.field_run
  have hrun : headerLine tmpbuf = some (tmpbuf'', some (name,
      if name = bytes "content-length" then v else .str (b.dropWhile ncIsspace))) := by
    simp only [headerLine, h.strchr_some ha, bothSet_found h, hcut, hlower, skipSpaces, hskip, hname, hv, hend.str,
      Option.bind_eq_bind, Option.bind_some, if_true]
    split <;> rfl
  exact ⟨_, _, hrun, hlen'.trans hlen⟩

theorem headerLine_null (h : At tmpbuf 0 text) (hne : text ≠ []) (hmem : ch ':' ∉ text) : headerLine tmpbuf = none := by
  rw [headerLine, h.strchr_none (by decide) hmem, Option.bind_eq_bind, Option.bind_some, bothSet_null h hne]
  rfl

/-! ### Reading -/

variable {socket : TcpSocket} {line : List Byte} {lines : List (List Byte)} {r : Reply} {fuel : Nat} {n : Int}

theorem cstr_at (h : 0 ∈ tmpbuf) : At tmpbuf 0 (cstr tmpbuf) := by
  obtain ⟨hparts, -⟩ := split_mem h
  exact ⟨⟨[], (tmpbuf.dropWhile (· != 0)).drop 1, hparts, rfl⟩, zero_notMem_cstr tmpbuf⟩

/-- A line that was read and stripped is a string. -/
theorem stripped_at (h : 0 ∈ tmpbuf) :
    At (stripped tmpbuf) 0 (striprn (cstr tmpbuf)) ∧ (stripped tmpbuf).length = tmpbuf.length := by
  have hless : (cstr tmpbuf).length < tmpbuf.length := by
    obtain ⟨hparts, -⟩ := split_mem h
    have hlen := congrArg List.length hparts
    rw [List.length_append, List.length_cons] at hlen
    rw [cstr]
    omega
  have hle : (striprn (cstr tmpbuf)).length ≤ (cstr tmpbuf).length := (striprn_begins _).length_le
  have hlen : (stripped tmpbuf).length = tmpbuf.length := by
    rw [stripped]
    simp only [List.length_append, List.length_replicate, List.length_drop]
    omega
  refine ⟨?_, hlen⟩
  rw [← cstr_stripped]
  refine cstr_at ?_
  by_contra hzero
  have hsame := cstr_eq hzero
  rw [cstr_stripped] at hsame
  rw [← hsame] at hlen
  omega

/-- The reads are not empty, and fit into `tmpbuf`. -/
theorem reads_length (h : line ∈ socket.reads 1023) : 0 < line.length ∧ line.length ≤ 1023 := by
  obtain ⟨l, hne, rfl⟩ := exists_of_mem_pieces (by decide) (List.mem_filter.mp h).1
  exact ⟨List.length_pos_of_ne_nil (piece_ne_nil (by decide) hne), piece_length_le 1023 l⟩

/-- Behind the last read nothing comes. -/
theorem gets_nil (hsound : socket.Sound) (hlen : tmpbuf.length = 1024) (hreads : socket.reads 1023 = []) :
    ∃ rc line tmpbuf' socket', gets tmpbuf socket = .ok (rc, line, tmpbuf', socket') ∧ rc < 1 ∧ socket'.Sound ∧
      tmpbuf'.length = 1024 ∧ socket'.reads 1023 = [] := by
  obtain ⟨socket', hsound', -, -, htail, hrun⟩ := @tcpFgets_reads socket 1023 (by decide) hsound
  rw [hreads] at htail hrun
  rw [gets, hrun]
  cases socket.useTls with
  | true => exact ⟨-1, [], tmpbuf, socket', rfl, by decide, hsound', hlen, htail⟩
  | false =>
      have hfits : 0 + ([] ++ [(0 : Byte)]).length ≤ tmpbuf.length := by
        rw [hlen]
        decide
      have hwrite := Memory.write_of_le hfits
      refine ⟨0, [], _, socket', ?_, by decide, hsound', (Memory.write_length hwrite).trans hlen, htail⟩
      simp only [Option.or, List.head?_nil, Bool.false_eq_true, if_false]
      rw [hwrite]
      rfl

/-- The first read is stored in `tmpbuf`. -/
theorem gets_cons (hsound : socket.Sound) (hlen : tmpbuf.length = 1024) (hreads : socket.reads 1023 = line :: lines) :
    ∃ tmpbuf' socket', gets tmpbuf socket = .ok (line.length, line, tmpbuf', socket') ∧ 0 < line.length ∧
      socket'.Sound ∧ tmpbuf'.length = 1024 ∧ socket'.reads 1023 = lines ∧ cstr tmpbuf' = cstr line ∧ 0 ∈ tmpbuf' := by
  obtain ⟨socket', hsound', -, -, htail, hrun⟩ := @tcpFgets_reads socket 1023 (by decide) hsound
  have hmem : line ∈ socket.reads 1023 := by
    rw [hreads]
    exact List.mem_cons_self
  obtain ⟨hpos, hle⟩ := reads_length hmem
  rw [hreads] at htail hrun
  have hfits : 0 + (line ++ [(0 : Byte)]).length ≤ tmpbuf.length := by
    rw [hlen, List.length_append, List.length_singleton]
    omega
  have hwrite := Memory.write_of_le hfits
  refine ⟨_, socket', ?_, hpos, hsound', (Memory.write_length hwrite).trans hlen, htail, ?_, ?_⟩
  · rw [gets, hrun]
    simp only [Option.or, List.head?_cons]
    rw [hwrite]
  · rw [List.take_zero, List.nil_append, List.append_assoc]
    exact cstr_append_zero line _
  · simp

/-! ### The loops -/

/-- The body is read, whatever comes. -/
theorem readBody_run (hsound : socket.Sound) (hlen : tmpbuf.length = 1024)
    (hfuel : (socket.reads 1023).length < fuel) : ∃ r', readBody fuel r n tmpbuf socket = .ok r' := by
  induction fuel generalizing r n tmpbuf socket with
  | zero => exact absurd hfuel (Nat.not_lt_zero _)
  | succ fuel ih =>
      cases hreads : socket.reads 1023 with
      | nil =>
          obtain ⟨rc, line, tmpbuf', socket', hrun, hrc, -⟩ := gets_nil hsound hlen hreads
          refine ⟨r, ?_⟩
          simp only [readBody, hrun, ok_bind, if_pos hrc]
      | cons line lines =>
          obtain ⟨tmpbuf', socket', hrun, hpos, hsound', hlen', htail, -, hzero⟩ := gets_cons hsound hlen hreads
          have hrc : ¬ (line.length : Int) < 1 := by omega
          have hfuel' : (socket'.reads 1023).length < fuel := by
            rw [hreads, List.length_cons] at hfuel
            rw [htail]
            omega
          have hlen'' := (stripped_at hzero).2.trans hlen'
          simp only [readBody, hrun, ok_bind, if_neg hrc]
          split
          · exact ⟨_, rfl⟩
          · exact ih hsound' hlen'' hfuel'

/-- A line of the header is read and stripped. -/
theorem readHead_line (hsound : socket.Sound) (hlen : tmpbuf.length = 1024)
    (hreads : socket.reads 1023 = line :: lines) :
    ∃ tmpbuf' socket', socket'.Sound ∧ tmpbuf'.length = 1024 ∧ socket'.reads 1023 = lines ∧
      At tmpbuf' 0 (lineText line) ∧ ∀ fuel r, readHead (fuel + 1) r tmpbuf socket =
        if (lineText line).length < 1 then .ok ({ r with head := r.head ++ line }, tmpbuf', socket')
        else
          match headerLine tmpbuf' with
          | none => .error .memory
          | some (tmpbuf, header) => readHead fuel ({ r with head := r.head ++ line }.set header) tmpbuf socket' := by
  obtain ⟨tmpbuf', socket', hrun, hpos, hsound', hlen', htail, hcstr, hzero⟩ := gets_cons hsound hlen hreads
  obtain ⟨hat, hlen''⟩ := stripped_at hzero
  have hrc : ¬ (line.length : Int) < 1 := by omega
  have htext : cstr (stripped tmpbuf') = lineText line := by rw [cstr_stripped, hcstr, lineText]
  rw [hcstr] at hat
  refine ⟨stripped tmpbuf', socket', hsound', hlen''.trans hlen', htail, hat, ?_⟩
  intro fuel r
  simp only [readHead, hrun, ok_bind, if_neg hrc, htext]

theorem headLines_cons (line : List Byte) (lines : List (List Byte)) :
    headLines (line :: lines) = if lineText line = [] then [] else line :: headLines lines := by
  rw [headLines, List.takeWhile_cons]
  by_cases hempty : lineText line = []
  · rw [if_pos hempty, hempty]
    rfl
  · have hmore : (!(lineText line).isEmpty) = true := by simpa using hempty
    rw [if_neg hempty, hmore, if_pos rfl]
    rfl

/-- Lines with a colon are read up to the first without a text. -/
theorem readHead_ok (hsound : socket.Sound) (hlen : tmpbuf.length = 1024) (hfuel : (socket.reads 1023).length < fuel)
    (hcolons : ∀ l ∈ headLines (socket.reads 1023), ch ':' ∈ lineText l) :
    ∃ r' tmpbuf' socket', readHead fuel r tmpbuf socket = .ok (r', tmpbuf', socket') ∧ socket'.Sound ∧
      tmpbuf'.length = 1024 := by
  induction fuel generalizing r tmpbuf socket with
  | zero => exact absurd hfuel (Nat.not_lt_zero _)
  | succ fuel ih =>
      cases hreads : socket.reads 1023 with
      | nil =>
          obtain ⟨rc, line, tmpbuf', socket', hrun, hrc, hsound', hlen', -⟩ := gets_nil hsound hlen hreads
          refine ⟨r, tmpbuf', socket', ?_, hsound', hlen'⟩
          simp only [readHead, hrun, ok_bind, if_pos hrc]
      | cons line lines =>
          obtain ⟨tmpbuf', socket', hsound', hlen', htail, hat, hround⟩ := readHead_line hsound hlen hreads
          rw [hreads, List.length_cons] at hfuel
          rw [hreads, headLines_cons] at hcolons
          rw [hround]
          by_cases hempty : lineText line = []
          · rw [hempty, if_pos (by decide)]
            exact ⟨_, _, _, rfl, hsound', hlen'⟩
          · have hpos := List.length_pos_of_ne_nil hempty
            rw [if_neg hempty] at hcolons
            obtain ⟨hcolon, hcolons⟩ := List.forall_mem_cons.mp hcolons
            obtain ⟨tmpbuf'', header, hsplit, hlen''⟩ := headerLine_ok hat hcolon
            rw [if_neg (by omega), hsplit]
            refine ih hsound' (hlen''.trans hlen') ?_ ?_
            · rw [htail]
              omega
            · rw [htail]
              exact hcolons

/-- A line without a colon is read through a null pointer. -/
theorem readHead_null (hsound : socket.Sound) (hlen : tmpbuf.length = 1024)
    (hfuel : (socket.reads 1023).length < fuel)
    (hcolons : ¬ ∀ l ∈ headLines (socket.reads 1023), ch ':' ∈ lineText l) :
    readHead fuel r tmpbuf socket = .error .memory := by
  induction fuel generalizing r tmpbuf socket with
  | zero => exact absurd hfuel (Nat.not_lt_zero _)
  | succ fuel ih =>
      cases hreads : socket.reads 1023 with
      | nil =>
          rw [hreads] at hcolons
          exact absurd (List.forall_mem_nil _) hcolons
      | cons line lines =>
          obtain ⟨tmpbuf', socket', hsound', hlen', htail, hat, hround⟩ := readHead_line hsound hlen hreads
          rw [hreads, List.length_cons] at hfuel
          rw [hreads, headLines_cons] at hcolons
          rw [hround]
          by_cases hempty : lineText line = []
          · rw [if_pos hempty] at hcolons
            exact absurd (List.forall_mem_nil _) hcolons
          · have hpos := List.length_pos_of_ne_nil hempty
            rw [if_neg hempty, List.forall_mem_cons] at hcolons
            rw [if_neg (by omega)]
            by_cases hcolon : ch ':' ∈ lineText line
            · obtain ⟨tmpbuf'', header, hsplit, hlen''⟩ := headerLine_ok hat hcolon
              rw [hsplit]
              refine ih hsound' (hlen''.trans hlen') ?_ ?_
              · rw [htail]
                omega
              · rw [htail]
                exact fun h => hcolons ⟨hcolon, h⟩
            · rw [headerLine_null hat hempty hcolon]

/-- There are no more reads than bytes. -/
theorem reads_count (socket : TcpSocket) : (socket.reads 1023).length < socket.pending.length + 1 :=
  Nat.lt_succ_of_le ((List.length_filter_le _ _).trans (pieces_length_le (by decide) _))

theorem readRest_ok (hsound : socket.Sound) (hlen : tmpbuf.length = 1024)
    (hcolons : ∀ l ∈ headLines (socket.reads 1023), ch ':' ∈ lineText l) :
    ∃ r', readRest r tmpbuf socket = .ok r' := by
  obtain ⟨r', tmpbuf', socket', hhead, hsound', hlen'⟩ := readHead_ok hsound hlen (reads_count socket) hcolons
  obtain ⟨r'', hbody⟩ := @readBody_run tmpbuf' socket' { r' with head := striprn r'.head } _ 0 hsound' hlen'
    (reads_count socket')
  refine ⟨r'', ?_⟩
  rw [readRest, hhead]
  exact hbody

theorem readRest_null (hsound : socket.Sound) (hlen : tmpbuf.length = 1024)
    (hcolons : ¬ ∀ l ∈ headLines (socket.reads 1023), ch ':' ∈ lineText l) :
    readRest r tmpbuf socket = .error .memory := by
  rw [readRest, readHead_null hsound hlen (reads_count socket) hcolons]
  rfl

/-- An answer whose lines split is read. -/
theorem receive_ok (hsound : socket.Sound) (hlen : tmpbuf.length = 1024) (hsplits : Splits (socket.reads 1023)) :
    ∃ r, receive tmpbuf socket = .ok r := by
  cases hreads : socket.reads 1023 with
  | nil =>
      obtain ⟨rc, line, tmpbuf', socket', hrun, hrc, hsound', hlen', htail⟩ := gets_nil hsound hlen hreads
      have hnone : ∀ l ∈ headLines (socket'.reads 1023), ch ':' ∈ lineText l := by
        rw [htail]
        exact List.forall_mem_nil _
      simp only [receive, hrun, ok_bind, if_neg (show ¬ rc > 0 by omega)]
      exact readRest_ok hsound' hlen' hnone
  | cons line lines =>
      rw [hreads] at hsplits
      obtain ⟨tmpbuf', socket', hrun, hpos, hsound', hlen', htail, hcstr, hzero⟩ := gets_cons hsound hlen hreads
      obtain ⟨hat, hlen''⟩ := stripped_at hzero
      rw [hcstr] at hat
      obtain ⟨tmpbuf'', stat, hstat, hlen₂⟩ := statusLine_ok hat hsplits.1
      simp only [receive, hrun, ok_bind, if_pos (show (line.length : Int) > 0 by omega), hstat]
      refine readRest_ok hsound' (hlen₂.trans (hlen''.trans hlen')) ?_
      rw [htail]
      exact hsplits.2

/-- Of another a null pointer is read. -/
theorem receive_null (hsound : socket.Sound) (hlen : tmpbuf.length = 1024) (hsplits : ¬ Splits (socket.reads 1023)) :
    receive tmpbuf socket = .error .memory := by
  cases hreads : socket.reads 1023 with
  | nil =>
      rw [hreads] at hsplits
      exact absurd trivial hsplits
  | cons line lines =>
      rw [hreads, Splits] at hsplits
      obtain ⟨tmpbuf', socket', hrun, hpos, hsound', hlen', htail, hcstr, hzero⟩ := gets_cons hsound hlen hreads
      obtain ⟨hat, hlen''⟩ := stripped_at hzero
      rw [hcstr] at hat
      simp only [receive, hrun, ok_bind, if_pos (show (line.length : Int) > 0 by omega)]
      by_cases hstatus : StatusSplits (lineText line)
      · obtain ⟨tmpbuf'', stat, hstat, hlen₂⟩ := statusLine_ok hat hstatus
        rw [hstat]
        refine readRest_null hsound' (hlen₂.trans (hlen''.trans hlen')) ?_
        rw [htail]
        exact fun h => hsplits ⟨hstatus, h⟩
      · rw [statusLine_null hat hstatus]

end

/-- A call returns, with its pointers inside of `tmpbuf`, just if the lines of the server split; else it does not get
stuck, but reads through a null pointer. -/
theorem receive_iff {tmpbuf : List Byte} {socket : TcpSocket} (hsound : socket.Sound) (hlen : tmpbuf.length = 1024) :
    receive tmpbuf socket ≠ .error .stuck ∧
      ((∃ r, receive tmpbuf socket = .ok r) ↔ Splits (socket.reads 1023)) := by
  by_cases hsplits : Splits (socket.reads 1023)
  · obtain ⟨r, hrun⟩ := receive_ok hsound hlen hsplits
    rw [hrun]
    refine ⟨?_, iff_of_true ⟨r, rfl⟩ hsplits⟩
    intro h
    cases h
  · rw [receive_null hsound hlen hsplits]
    refine ⟨?_, iff_of_false ?_ hsplits⟩
    · intro h
      cases h
    · rintro ⟨r, h⟩
      cases h

/-- A server that answers as it should, in two packets. -/
theorem receive_answer : ∃ r, receive (List.replicate 1024 0)
    (connected [bytes "HTTP/1.0 200 OK\r\nA: b", bytes "\r\n\r\nc"]) = .ok r :=
  (receive_iff (connected_sound _) List.length_replicate).2.mpr (by decide)

/-- A status line without a reason. -/
theorem not_received_short : ¬ ∀ (tmpbuf : List Byte) (recvs : List (List Byte)), tmpbuf.length = 1024 →
    ∃ r, receive tmpbuf (connected recvs) = .ok r := by
  intro h
  have hlen : (List.replicate 1024 (0 : Byte)).length = 1024 := List.length_replicate
  have hnull := receive_null (connected_sound [bytes "HTTP/1.1 200\r\n"]) hlen (by decide)
  obtain ⟨r, hrun⟩ := h _ [bytes "HTTP/1.1 200\r\n"] hlen
  rw [hnull] at hrun
  cases hrun

end NullG.Libs.Http
