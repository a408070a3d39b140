/-
The text of a session (`auth_dumpvars` and `auth_savesession` of `httpd_auth.c`).

A table is printed into a buffer of `MAX_FIELD_SIZE` bytes, each piece by a call of `snprintf` whose result is taken
from what is left of the buffer. The result counts what was cut, so that nothing can follow a piece that does not fit,
except where `strlen` repairs the count behind a nested table (`dumps_iff`).
-/

import NullG.Lib.Memory
import NullG.Mail.Lines
import NullG.Nsp.Dumpvars

namespace NullG.Httpd.SessionDump

open NullG.Nsp NullG.Lib NullG.Mail
open NullG.Nsp.Dumpvars (Entries Leaf)

/-! ### The code -/

/-- `nsp_tostr`. -/
def nspTostr : Leaf → List Byte
  | .null => bytes "null"
  | .boolean b => if b then bytes "true" else bytes "false"
  | .number q => nNtoa q true 6
  | .string b => b
  | .other => []

/-- `snprintf(buf, len, ...)` of a text at the place `buf` of a block: the block, and what it returns. There is no
result where the size is negative, the text is longer than an `int` can tell, or the block is left. -/
def snprintf (mem : List Byte) (buf : Nat) (len : Int) (text : List Byte) : Option (List Byte × Nat) :=
  if len < 0 then none
  else do
    let x ← Memory.int text.length
    if len = 0 then some (mem, x)
    else some (← Memory.write mem buf (text.take (len.toNat - 1) ++ [0]), x)

/-- The name of an entry, which has brackets if it starts with a digit. -/
def label (name : List Byte) : List Byte :=
  if ncIsdigit (name.headD 0) then bytes "[" ++ cstr name ++ bytes "]" else cstr name

/-- `l` -/
def separator (next : Entries) : List Byte := if next.isNil then [] else bytes ","

/-- What is printed for an entry that is no table. -/
def leafText (name : List Byte) (v : Leaf) (l : List Byte) : Option (List Byte) :=
  match v with
  | .null | .boolean _ | .number _ => some (label name ++ bytes "=" ++ cstr (nspTostr v) ++ l ++ bytes " ")
  | .string _ => some (label name ++ bytes "=\"" ++ cstr (nspTostr v) ++ bytes "\"" ++ l ++ bytes " ")
  | .other => none

/-- What is printed in front of the entries of a table, and behind them. -/
def openText (name : List Byte) : List Byte := label name ++ bytes "=\x7b "

def closeText (l : List Byte) : List Byte := bytes "\x7d" ++ l ++ bytes " "

/-- `auth_dumpvars`, at the place `buf` of a block: the block that it leaves. -/
def authDumpvars : Entries → List Byte → Nat → Int → Option (List Byte)
  | .nil, mem, _, _ => some mem
  | .leaf name hidden v next, mem, buf, len =>
      if hidden then authDumpvars next mem buf len
      else
        match leafText name v (separator next) with
        | some text => do
            let (mem, x) ← snprintf mem buf len text
            authDumpvars next mem (buf + x) (len - x)
        | none => authDumpvars next mem buf len
  | .table name hidden f next, mem, buf, len =>
      if hidden then authDumpvars next mem buf len
      else if cstr name = bytes "_globals_" then authDumpvars next mem buf len
      else do
        let (mem, x) ← snprintf mem buf len (openText name)
        let len := len - x
        let buf := buf + x
        let mem ← authDumpvars f mem buf len
        let n := (← Memory.str 0 mem buf).length
        let len := len - n
        let buf := buf + n
        let (mem, x) ← snprintf mem buf len (closeText (separator next))
        authDumpvars next mem (buf + x) (len - x)

/-- `MAX_FIELD_SIZE` -/
def maxFieldSize : Nat := 32768

/-- The call in `auth_savesession`, with the first entry of `_SESSION`: what is in `data` then. -/
def authSavesession (f : Entries) : Option (List Byte) :=
  authDumpvars f (List.replicate maxFieldSize 0) 0 (maxFieldSize - 1)

/-! ### What is printed -/

/-- The text of a call of `snprintf`. -/
inductive Piece where
  | value (text : List Byte)
  | opening (text : List Byte)
  | closing (text : List Byte)

namespace Piece

def text : Piece → List Byte
  | value t | opening t | closing t => t

@[simp] theorem text_value (t : List Byte) : (value t).text = t := rfl

@[simp] theorem text_opening (t : List Byte) : (opening t).text = t := rfl

@[simp] theorem text_closing (t : List Byte) : (closing t).text = t := rfl

def isOpening : Piece → Prop
  | opening _ => True
  | _ => False

def isClosing : Piece → Prop
  | closing _ => True
  | _ => False

end Piece

/-- The pieces of a table, in order. -/
def pieces : Entries → List Piece
  | .nil => []
  | .leaf name hidden v next =>
      if hidden then pieces next
      else
        match leafText name v (separator next) with
        | some text => .value text :: pieces next
        | none => pieces next
  | .table name hidden f next =>
      if hidden then pieces next
      else if cstr name = bytes "_globals_" then pieces next
      else .opening (openText name) :: (pieces f ++ .closing (closeText (separator next)) :: pieces next)

/-- The text of a table. -/
def whole (ps : List Piece) : List Byte := ps.flatMap Piece.text

/-- Each length is an `int`. -/
def Counted (ps : List Piece) : Prop := ∀ p ∈ ps, p.text.length < 2 ^ 31

/-- All tables are closed, and nothing else is printed. -/
def Closings (ps : List Piece) : Prop := ∀ p ∈ ps, p.isClosing

/-- What may follow a piece that does not fit: the ends of the tables around it, and one value in front of them if
exactly the NUL of the piece was missing. -/
def AfterCut (exact : Prop) : List Piece → Prop
  | [] => True
  | .value _ :: after => exact ∧ Closings after
  | .opening _ :: _ => False
  | .closing _ :: after => Closings after

/-- The first piece that does not fit in `len` bytes with its NUL is followed by what may follow it, and opens no table
unless exactly its NUL was missing. -/
def Fits (len : Nat) : List Piece → Prop
  | [] => True
  | p :: after =>
      if p.text.length < len then Fits (len - p.text.length) after
      else (p.isOpening → p.text.length = len) ∧ AfterCut (p.text.length = len) after

section

variable {e next f : Entries} {mem mem' out s t : List Byte} {buf x len free : Nat} {i : Int} {p : Piece}
  {ps qs : List Piece} {exact : Prop}

theorem whole_append (ps qs : List Piece) : whole (ps ++ qs) = whole ps ++ whole qs := List.flatMap_append

theorem whole_cons (p : Piece) (ps : List Piece) : whole (p :: ps) = p.text ++ whole ps := List.flatMap_cons

theorem counted_nil : Counted [] := List.forall_mem_nil _

theorem counted_cons : Counted (p :: ps) ↔ p.text.length < 2 ^ 31 ∧ Counted ps := List.forall_mem_cons

theorem counted_append : Counted (ps ++ qs) ↔ Counted ps ∧ Counted qs := List.forall_mem_append

theorem counted_nil_iff : Counted ps ∧ ps = [] ↔ ps = [] :=
  and_iff_right_of_imp fun h => h ▸ counted_nil

/-- A table starts with a value or with a table. -/
theorem pieces_head (e : Entries) : pieces e = [] ∨ (∃ t next, pieces e = .value t :: pieces next) ∨
    ∃ t f c next, pieces e = .opening t :: (pieces f ++ .closing c :: pieces next) := by
  induction e with
  | nil => exact Or.inl rfl
  | leaf name hidden v next ih =>
      rw [pieces]
      split
      · exact ih
      · split
        · exact Or.inr (Or.inl ⟨_, next, rfl⟩)
        · exact ih
  | table name hidden f next _ ih =>
      rw [pieces]
      split
      · exact ih
      · split
        · exact ih
        · exact Or.inr (Or.inr ⟨_, f, _, next, rfl⟩)

/-- A table has no end without a start. -/
theorem closings_pieces (e : Entries) : Closings (pieces e) ↔ pieces e = [] := by
  constructor
  · intro h
    obtain hnil | ⟨t, next, hvalue⟩ | ⟨t, f, c, next, hopening⟩ := pieces_head e
    · exact hnil
    · have hfirst : Piece.isClosing (.value t) := h _ (by rw [hvalue]; exact List.mem_cons_self)
      exact hfirst.elim
    · have hfirst : Piece.isClosing (.opening t) := h _ (by rw [hopening]; exact List.mem_cons_self)
      exact hfirst.elim
  · intro h
    rw [h]
    exact List.forall_mem_nil _

/-! ### The texts -/

theorem leafText_length {name l : List Byte} {v : Leaf} (h : leafText name v l = some t) : 2 ≤ t.length := by
  have hequals : (bytes "=").length = 1 := rfl
  have hspace : (bytes " ").length = 1 := rfl
  have hquoted : (bytes "=\"").length = 2 := rfl
  unfold leafText at h
  split at h
  case h_5 => cases h
  all_goals
    cases h
    simp only [List.length_append]
    omega

theorem openText_pos (name : List Byte) : 0 < (openText name).length := by
  have hbrace : (bytes "=\x7b ").length = 3 := rfl
  rw [openText, List.length_append]
  omega

theorem closeText_length (l : List Byte) : 2 ≤ (closeText l).length := by
  have hbrace : (bytes "\x7d").length = 1 := rfl
  have hspace : (bytes " ").length = 1 := rfl
  rw [closeText, List.length_append, List.length_append]
  omega

theorem zero_notMem_label (name : List Byte) : 0 ∉ label name := by
  have hname := zero_notMem_cstr name
  have hopen : (0 : Byte) ∉ bytes "[" := by decide
  have hclose : (0 : Byte) ∉ bytes "]" := by decide
  unfold label
  split
  · simp only [List.mem_append, not_or]
    exact ⟨⟨hopen, hname⟩, hclose⟩
  · exact hname

theorem zero_notMem_separator (next : Entries) : 0 ∉ separator next := by
  unfold separator
  split
  · exact List.not_mem_nil
  · decide

theorem zero_notMem_leafText {name : List Byte} {v : Leaf} (h : leafText name v (separator next) = some t) :
    0 ∉ t := by
  have hname := zero_notMem_label name
  have hvalue := zero_notMem_cstr (nspTostr v)
  have hl := zero_notMem_separator next
  have hequals : (0 : Byte) ∉ bytes "=" := by decide
  have hspace : (0 : Byte) ∉ bytes " " := by decide
  have hquoted : (0 : Byte) ∉ bytes "=\"" := by decide
  have hquote : (0 : Byte) ∉ bytes "\"" := by decide
  unfold leafText at h
  split at h
  case h_5 => cases h
  all_goals
    cases h
    simp only [List.mem_append, not_or]
    simp only [hname, hvalue, hl, hequals, hspace, hquoted, hquote, not_false_eq_true, and_self]

theorem zero_notMem_openText (name : List Byte) : 0 ∉ openText name := by
  have hbrace : (0 : Byte) ∉ bytes "=\x7b " := by decide
  rw [openText, List.mem_append, not_or]
  exact ⟨zero_notMem_label name, hbrace⟩

theorem zero_notMem_closeText (next : Entries) : 0 ∉ closeText (separator next) := by
  have hbrace : (0 : Byte) ∉ bytes "\x7d" := by decide
  have hspace : (0 : Byte) ∉ bytes " " := by decide
  rw [closeText, List.mem_append, List.mem_append, not_or, not_or]
  exact ⟨⟨hbrace, zero_notMem_separator next⟩, hspace⟩

/-- The text of a table is a string. -/
theorem zero_notMem_whole (e : Entries) : 0 ∉ whole (pieces e) := by
  induction e with
  | nil => exact List.not_mem_nil
  | leaf name hidden v next ih =>
      rw [pieces]
      split
      · exact ih
      · split
        · rename_i text htext
          rw [whole_cons, List.mem_append, not_or]
          exact ⟨zero_notMem_leafText htext, ih⟩
        · exact ih
  | table name hidden f next hf hnext =>
      rw [pieces]
      split
      · exact hnext
      · split
        · exact hnext
        · rw [whole_cons, whole_append, whole_cons]
          simp only [List.mem_append, not_or]
          exact ⟨zero_notMem_openText name, hf, zero_notMem_closeText next, hnext⟩

/-! ### Behind the end of the buffer -/

theorem snprintf_negative (h : i < 0) : snprintf mem buf i t = none := if_pos h

/-- Without a byte left, nothing is written. -/
theorem snprintf_zero : snprintf mem buf 0 t = (Memory.int t.length).map (mem, ·) := by
  rw [snprintf, if_neg (by decide)]
  cases Memory.int t.length <;> rfl

/-- A negative size can be carried along only where nothing is printed. -/
theorem dumps_negative (e : Entries) (h : i < 0) :
    authDumpvars e mem buf i = some mem' ↔ pieces e = [] ∧ mem' = mem := by
  induction e with
  | nil => simp [authDumpvars, pieces, eq_comm]
  | leaf name hidden v next ih =>
      rw [authDumpvars, pieces]
      split
      · exact ih
      · split
        · simp [snprintf_negative h]
        · exact ih
  | table name hidden f next _ ih =>
      rw [authDumpvars, pieces]
      split
      · exact ih
      · split
        · exact ih
        · simp [snprintf_negative h]

/-- Without a byte left, one value may be printed. -/
theorem dumps_zero (e : Entries) :
    authDumpvars e mem buf 0 = some mem' ↔ (Counted (pieces e) ∧ AfterCut True (pieces e)) ∧ mem' = mem := by
  induction e with
  | nil => simp [authDumpvars, pieces, eq_comm, counted_nil, AfterCut]
  | leaf name hidden v next ih =>
      rw [authDumpvars, pieces]
      split
      · exact ih
      · split
        · rename_i text htext
          have hlen := leafText_length htext
          rw [snprintf_zero, counted_cons, AfterCut, closings_pieces]
          by_cases hint : text.length < 2 ^ 31
          · have hneg : (0 : Int) - text.length < 0 := by omega
            have hx : Memory.int text.length = some text.length := if_pos hint
            rw [hx, Option.map_some, Option.bind_eq_bind, Option.bind_some, dumps_negative next hneg, Piece.text_value,
              and_iff_right hint, true_and, counted_nil_iff]
          · have hx : Memory.int text.length = none := if_neg hint
            rw [hx]
            exact iff_of_false nofun fun h => hint h.1.1.1
        · exact ih
  | table name hidden f next _ ih =>
      rw [authDumpvars, pieces]
      split
      · exact ih
      · split
        · exact ih
        · rw [snprintf_zero, AfterCut]
          have hpos := openText_pos name
          have hneg : (0 : Int) - (openText name).length < 0 := by omega
          simp only [and_false, false_and, iff_false]
          intro h
          simp only [Option.bind_eq_bind, Option.bind_eq_some_iff, Option.map_eq_some_iff] at h
          obtain ⟨_, ⟨x, hx, rfl⟩, mem₁, -, s, -, p, hp, -⟩ := h
          obtain ⟨-, rfl⟩ := Memory.int_eq_some.mp hx
          rw [snprintf_negative (by omega)] at hp
          cases hp

theorem dumps_zero_none (e : Entries) (h : ¬ (Counted (pieces e) ∧ AfterCut True (pieces e))) :
    authDumpvars e mem buf 0 = none :=
  Option.eq_none_iff_forall_ne_some.mpr fun _ hmem => h ((dumps_zero e).mp hmem).1

/-! ### In the buffer -/

/-- The text in a buffer, and how much fits behind it with its NUL. -/
structure Room where
  out : List Byte
  free : Nat

namespace Room

/-- The buffer: the cells behind the text are zero. -/
def block (r : Room) : List Byte := r.out ++ List.replicate (r.free + 2) 0

/-- A text is put there, as far as it fits. -/
def put (r : Room) (s : List Byte) : Room := ⟨r.out ++ s.take r.free, r.free - s.length⟩

variable {r : Room}

theorem put_put (r : Room) (s t : List Byte) : (r.put s).put t = r.put (s ++ t) := by
  simp [put, List.take_append, Nat.sub_sub]

theorem put_length (r : Room) (s : List Byte) (h : s.length ≤ r.free) :
    (r.put s).out.length = r.out.length + s.length := by
  rw [put, List.length_append, List.length_take, Nat.min_eq_right h]

theorem put_take_length (r : Room) (s : List Byte) :
    r.out.length + (s.take r.free).length = (r.put s).out.length := List.length_append.symm

theorem put_take_free (r : Room) (s : List Byte) :
    ((r.free + 1 : Nat) : Int) - (s.take r.free).length = ((r.put s).free + 1 : Nat) := by
  have hfree : (r.put s).free = r.free - s.length := rfl
  rw [hfree, List.length_take]
  omega

/-- What comes behind a text that fills the buffer is lost. -/
theorem put_full (h : r.free ≤ s.length) (t : List Byte) : r.put (s ++ t) = r.put s := by
  simp [put, List.take_append, Nat.sub_eq_zero_of_le h, Nat.sub_eq_zero_of_le (h.trans (Nat.le_add_right _ _))]

theorem snprintf_run (r : Room) (t : List Byte) :
    snprintf r.block r.out.length (r.free + 1 : Nat) t = (Memory.int t.length).map ((r.put t).block, ·) := by
  have hroom : (t.take r.free ++ [0]).length ≤ r.free + 2 := by
    rw [List.length_append, List.length_take, List.length_singleton]
    omega
  have hrest : r.free + 2 - (t.take r.free ++ [0]).length + 1 = r.free - t.length + 2 := by
    rw [List.length_append, List.length_take, List.length_singleton]
    omega
  have hcells : t.take r.free ++ [0] ++ List.replicate (r.free + 2 - (t.take r.free ++ [0]).length) 0 =
      t.take r.free ++ List.replicate (r.free - t.length + 2) 0 := by
    rw [← hrest, List.replicate_succ, List.append_assoc, List.singleton_append]
  have hwrite : Memory.write r.block r.out.length (t.take r.free ++ [0]) = some (r.put t).block := by
    rw [block, Memory.write_replicate 0 r.out hroom, hcells, block, put, List.append_assoc]
  rw [snprintf, if_neg (by omega)]
  cases Memory.int t.length with
  | none => rfl
  | some x =>
      rw [Option.bind_eq_bind, Option.bind_some, if_neg (by omega), Int.toNat_natCast, Nat.add_sub_cancel, hwrite]
      rfl

/-- `strlen` finds what was put behind the text. -/
theorem strlen_run (r : Room) (h : 0 ∉ s) : Memory.str 0 (r.put s).block r.out.length = some (s.take r.free) := by
  have hdrop : (r.put s).block.drop r.out.length = s.take r.free ++ 0 :: List.replicate (r.free - s.length + 1) 0 := by
    rw [block, put, List.append_assoc, List.drop_left]
    rfl
  exact Memory.str_run hdrop fun hmem => h (List.mem_of_mem_take hmem)

/-- Without a byte left, `strlen` finds the last cell. -/
theorem strlen_end (r : Room) (h : s.length = r.free + 1) :
    Memory.str 0 (r.put s).block (r.out.length + s.length) = some [] := by
  have hout : (r.put s).out.length = r.out.length + r.free := by
    rw [put, List.length_append, List.length_take, Nat.min_eq_left (by omega)]
  have hfree : (r.put s).free = 0 := Nat.sub_eq_zero_of_le (by omega)
  have hdrop : (r.put s).block.drop (r.out.length + s.length) = [] ++ 0 :: [] := by
    rw [block, hfree, h, ← Nat.add_assoc, ← hout, ← List.drop_drop, List.drop_left]
    rfl
  exact Memory.str_run hdrop List.not_mem_nil

end Room

/-! ### Whole tables -/

theorem afterCut_false (ps : List Piece) : AfterCut False ps ↔ Closings ps := by
  cases ps with
  | nil => exact iff_of_true trivial (List.forall_mem_nil _)
  | cons p ps => cases p <;> simp [AfterCut, Closings, Piece.isClosing]

theorem afterCut_append (hp : p.isClosing) : AfterCut exact (ps ++ p :: qs) ↔ AfterCut exact ps ∧ Closings qs := by
  have hclosings : ∀ ps, Closings (ps ++ p :: qs) ↔ Closings ps ∧ Closings qs := by
    intro ps
    simp [Closings, or_imp, forall_and, hp]
  cases ps with
  | nil =>
      cases p with
      | closing t => simp [AfterCut]
      | value t => exact hp.elim
      | opening t => exact hp.elim
  | cons q ps => cases q <;> simp [AfterCut, hclosings, and_assoc]

theorem fits_of_lt (h : p.text.length < len) : Fits len (p :: ps) ↔ Fits (len - p.text.length) ps := by
  rw [Fits, if_pos h]

theorem fits_of_le (h : ¬ p.text.length < len) :
    Fits len (p :: ps) ↔ (p.isOpening → p.text.length = len) ∧ AfterCut (p.text.length = len) ps := by
  rw [Fits, if_neg h]

/-- The end of a table comes behind what is in it. -/
theorem fits_append (hp : p.isClosing) (hlen : 2 ≤ p.text.length) :
    Fits (free + 1) (ps ++ p :: qs) ↔ Fits (free + 1) ps ∧ Fits (free - (whole ps).length + 1) (p :: qs) := by
  induction ps generalizing free with
  | nil => simp [Fits, whole]
  | cons q ps ih =>
      rw [List.cons_append, Fits, Fits, whole_cons, List.length_append]
      by_cases hq : q.text.length < free + 1
      · have hleft : free + 1 - q.text.length = free - q.text.length + 1 := by omega
        rw [if_pos hq, if_pos hq, hleft, ih, Nat.sub_sub]
      · have hfull : free - (q.text.length + (whole ps).length) + 1 = 1 := by omega
        have hnot : ¬ p.text.length < 1 := by omega
        have hne : (p.text.length = 1) = False := eq_false (by omega)
        have hopening : ¬ p.isOpening := by
          cases p with
          | closing t => exact not_false
          | value t => exact hp.elim
          | opening t => exact hp.elim
        rw [if_neg hq, if_neg hq, hfull, Fits, if_neg hnot, hne, afterCut_append hp, afterCut_false, and_assoc,
          and_iff_right fun h => absurd h hopening]

/-- What a table does to a buffer. -/
def Runs (e : Entries) : Prop :=
  ∀ (r : Room) (mem' : List Byte), authDumpvars e r.block r.out.length (r.free + 1 : Nat) = some mem' ↔
    (Counted (pieces e) ∧ Fits (r.free + 1) (pieces e)) ∧ mem' = (r.put (whole (pieces e))).block

theorem Runs.eq_none (hf : Runs f) (r : Room) (h : ¬ (Counted (pieces f) ∧ Fits (r.free + 1) (pieces f))) :
    authDumpvars f r.block r.out.length (r.free + 1 : Nat) = none :=
  Option.eq_none_iff_forall_ne_some.mpr fun mem' hmem => h ((hf r mem').mp hmem).1

/-- A piece that opens no table is printed, and then the entries behind it. -/
theorem Runs.print (hnext : Runs next) (r : Room) (hp : ¬ p.isOpening) :
    ((snprintf r.block r.out.length (r.free + 1 : Nat) p.text).bind fun q =>
      authDumpvars next q.1 (r.out.length + q.2) ((r.free + 1 : Nat) - q.2)) = some mem' ↔
    (Counted (p :: pieces next) ∧ Fits (r.free + 1) (p :: pieces next)) ∧
      mem' = (r.put (whole (p :: pieces next))).block := by
  rw [Room.snprintf_run, counted_cons, Fits, whole_cons]
  by_cases hint : p.text.length < 2 ^ 31
  · have hx : Memory.int p.text.length = some p.text.length := if_pos hint
    rw [hx, Option.map_some, Option.bind_some, and_iff_right hint]
    by_cases hfit : p.text.length < r.free + 1
    · have hbuf : r.out.length + p.text.length = (r.put p.text).out.length := (r.put_length p.text (by omega)).symm
      have hleft : r.free + 1 - p.text.length = (r.put p.text).free + 1 := Nat.sub_add_comm (by omega)
      have hlen : ((r.free + 1 : Nat) : Int) - p.text.length = ((r.put p.text).free + 1 : Nat) := by
        rw [← hleft]
        omega
      rw [if_pos hfit, hbuf, hlen, hnext, hleft, Room.put_put]
    · rw [if_neg hfit, Room.put_full (by omega), and_iff_right fun h => absurd h hp]
      by_cases hexact : p.text.length = r.free + 1
      · have hlen : ((r.free + 1 : Nat) : Int) - p.text.length = 0 := by omega
        rw [hlen, dumps_zero, eq_true hexact]
      · have hneg : ((r.free + 1 : Nat) : Int) - p.text.length < 0 := by omega
        rw [dumps_negative next hneg, eq_false hexact, afterCut_false, closings_pieces,
          counted_nil_iff]
  · have hx : Memory.int p.text.length = none := if_neg hint
    rw [hx]
    exact iff_of_false nofun fun h => hint h.1.1.1

/-- A table is opened, its entries are printed, and then what is behind it. -/
theorem Runs.table (hf : Runs f) (hnext : Runs next) (r : Room) {o c : List Byte} (hc : 2 ≤ c.length) :
    ((snprintf r.block r.out.length (r.free + 1 : Nat) o).bind fun q =>
      (authDumpvars f q.1 (r.out.length + q.2) ((r.free + 1 : Nat) - q.2)).bind fun mem =>
        (Memory.str 0 mem (r.out.length + q.2)).bind fun text =>
          (snprintf mem (r.out.length + q.2 + text.length) ((r.free + 1 : Nat) - q.2 - text.length) c).bind fun q' =>
            authDumpvars next q'.1 (r.out.length + q.2 + text.length + q'.2)
              ((r.free + 1 : Nat) - q.2 - text.length - q'.2)) = some mem' ↔
    (Counted (.opening o :: (pieces f ++ .closing c :: pieces next)) ∧
      Fits (r.free + 1) (.opening o :: (pieces f ++ .closing c :: pieces next))) ∧
      mem' = (r.put (whole (.opening o :: (pieces f ++ .closing c :: pieces next)))).block := by
  have hwhole : whole (.opening o :: (pieces f ++ .closing c :: pieces next)) =
      o ++ (whole (pieces f) ++ whole (.closing c :: pieces next)) := by
    rw [whole_cons, whole_append]
    rfl
  have hcounted : Counted (.opening o :: (pieces f ++ .closing c :: pieces next)) ↔
      o.length < 2 ^ 31 ∧ Counted (pieces f) ∧ Counted (.closing c :: pieces next) := by
    rw [counted_cons, counted_append]
    rfl
  rw [Room.snprintf_run, hcounted, hwhole]
  by_cases hint : o.length < 2 ^ 31
  · have hx : Memory.int o.length = some o.length := if_pos hint
    rw [hx, Option.map_some, Option.bind_some, and_iff_right hint]
    by_cases hfit : o.length < r.free + 1
    · have hbuf : r.out.length + o.length = (r.put o).out.length := (r.put_length o (by omega)).symm
      have hleft : r.free + 1 - o.length = (r.put o).free + 1 := Nat.sub_add_comm (by omega)
      have hlen : ((r.free + 1 : Nat) : Int) - o.length = ((r.put o).free + 1 : Nat) := by
        rw [← hleft]
        omega
      have hfits : Fits (r.free + 1) (.opening o :: (pieces f ++ .closing c :: pieces next)) ↔
          Fits ((r.put o).free + 1) (pieces f) ∧
            Fits (((r.put o).put (whole (pieces f))).free + 1) (.closing c :: pieces next) := by
        rw [fits_of_lt (p := .opening o) hfit, Piece.text_opening, hleft]
        exact fits_append (p := .closing c) trivial hc
      rw [hbuf, hlen, hfits, ← Room.put_put, ← Room.put_put]
      by_cases hcond : Counted (pieces f) ∧ Fits ((r.put o).free + 1) (pieces f)
      · have hrun := (hf (r.put o) _).mpr ⟨hcond, rfl⟩
        have hbuf' := (r.put o).put_take_length (whole (pieces f))
        have hlen' := (r.put o).put_take_free (whole (pieces f))
        rw [hrun, Option.bind_some, Room.strlen_run _ (zero_notMem_whole f), Option.bind_some, hbuf', hlen',
          and_iff_right hcond.1, and_iff_right hcond.2]
        exact hnext.print ((r.put o).put (whole (pieces f))) (p := .closing c) not_false
      · rw [hf.eq_none _ hcond]
        exact iff_of_false nofun fun h => hcond ⟨h.1.1.1, h.1.2.1⟩
    · have hfits : Fits (r.free + 1) (.opening o :: (pieces f ++ .closing c :: pieces next)) ↔
          o.length = r.free + 1 ∧ AfterCut (o.length = r.free + 1) (pieces f) ∧ pieces next = [] := by
        rw [fits_of_le (p := .opening o) hfit, afterCut_append (p := .closing c) trivial, closings_pieces]
        exact and_congr_left' (forall_prop_of_true trivial)
      rw [hfits, Room.put_full (by omega)]
      by_cases hexact : o.length = r.free + 1
      · have hlen : ((r.free + 1 : Nat) : Int) - o.length = 0 := by omega
        have hend := r.strlen_end hexact
        rw [hlen, eq_true hexact, true_and]
        by_cases hcond : Counted (pieces f) ∧ AfterCut True (pieces f)
        · have hneg : (0 : Int) - c.length < 0 := by omega
          rw [(dumps_zero f).mpr ⟨hcond, rfl⟩, Option.bind_some, hend, Option.bind_some, List.length_nil, Nat.cast_zero,
            sub_zero, snprintf_zero, and_iff_right hcond.1, and_iff_right hcond.2, counted_cons]
          by_cases hint' : c.length < 2 ^ 31
          · have hx' : Memory.int c.length = some c.length := if_pos hint'
            rw [hx', Option.map_some, Option.bind_some]
            dsimp only
            rw [dumps_negative next hneg, Piece.text_closing, and_iff_right hint', counted_nil_iff]
          · have hx' : Memory.int c.length = none := if_neg hint'
            rw [hx']
            exact iff_of_false nofun fun h => hint' h.1.1.1
        · rw [dumps_zero_none f hcond]
          exact iff_of_false nofun fun h => hcond ⟨h.1.1.1, h.1.2.1⟩
      · have hneg : ((r.free + 1 : Nat) : Int) - o.length < 0 := by omega
        refine iff_of_false ?_ fun h => hexact h.1.2.1
        intro h
        obtain ⟨mem₁, -, h⟩ := Option.bind_eq_some_iff.mp h
        obtain ⟨text, -, h⟩ := Option.bind_eq_some_iff.mp h
        rw [snprintf_negative (by omega)] at h
        cases h
  · have hx : Memory.int o.length = none := if_neg hint
    rw [hx]
    exact iff_of_false nofun fun h => hint h.1.1.1

/-- The code is held to what it prints, by induction on the table. -/
theorem runs (e : Entries) : Runs e := by
  induction e with
  | nil =>
      intro r mem'
      have hput : r.put (whole (pieces .nil)) = r := by simp [pieces, whole, Room.put]
      rw [hput]
      simp [authDumpvars, pieces, counted_nil, Fits, eq_comm]
  | leaf name hidden v next ih =>
      intro r mem'
      rw [authDumpvars, pieces]
      split
      · exact ih r mem'
      · split
        · rename_i text _
          exact ih.print r (p := .value text) not_false
        · exact ih r mem'
  | table name hidden f next hf hnext =>
      intro r mem'
      rw [authDumpvars, pieces]
      split
      · exact hnext r mem'
      · split
        · exact hnext r mem'
        · exact hf.table hnext r (closeText_length _)

/-- What `auth_savesession` leaves in its buffer: the text of the table, as far as it fits. -/
theorem savesession_eq : authSavesession f = some mem ↔
    (Counted (pieces f) ∧ Fits (maxFieldSize - 1) (pieces f)) ∧
      mem = (Room.put ⟨[], maxFieldSize - 2⟩ (whole (pieces f))).block :=
  runs f ⟨[], maxFieldSize - 2⟩ mem

theorem savesession_isSome :
    (authSavesession f).isSome ↔ Counted (pieces f) ∧ Fits (maxFieldSize - 1) (pieces f) := by
  rw [Option.isSome_iff_exists]
  constructor
  · rintro ⟨mem, hmem⟩
    exact (savesession_eq.mp hmem).1
  · intro h
    exact ⟨_, savesession_eq.mpr ⟨h, rfl⟩⟩

end

/-- The dump stays in its buffer, and `snprintf` is given no negative size, just where what follows the first piece that
does not fit can do no harm. -/
theorem session_dump_iff (f : Entries) :
    (authSavesession f).isSome ↔ Counted (pieces f) ∧ Fits (maxFieldSize - 1) (pieces f) := savesession_isSome

/-- A value with another entry behind it. -/
def twoEntries (b : List Byte) : Entries :=
  .leaf (bytes "a") false (.string b) (.leaf (bytes "b") false .null .nil)

theorem not_fits_twoEntries {b : List Byte} (h : maxFieldSize ≤ (cstr b).length) :
    ¬ Fits (maxFieldSize - 1) (pieces (twoEntries b)) := by
  have hpieces : pieces (twoEntries b) =
      [.value (label (bytes "a") ++ bytes "=\"" ++ cstr b ++ bytes "\"" ++ bytes "," ++ bytes " "),
        .value (label (bytes "b") ++ bytes "=" ++ cstr (nspTostr .null) ++ [] ++ bytes " ")] := rfl
  have hmax : maxFieldSize = 32768 := rfl
  rw [hpieces, fits_of_le]
  · rintro ⟨-, hexact, -⟩
    simp only [Piece.text, List.length_append] at hexact
    omega
  · simp only [Piece.text, List.length_append]
    omega

theorem cstr_letters_length (n : Nat) : (cstr (List.replicate n (ch 'x'))).length = n := by
  rw [cstr_eq, List.length_replicate]
  intro hzero
  exact absurd (List.eq_of_mem_replicate hzero) (by decide)

theorem not_session_dump_long : ¬ ∀ f, (authSavesession f).isSome := by
  intro h
  obtain ⟨b, hb⟩ : ∃ b, (cstr b).length = maxFieldSize := ⟨_, cstr_letters_length maxFieldSize⟩
  exact not_fits_twoEntries hb.ge (savesession_isSome.mp (h (twoEntries b))).2

end NullG.Httpd.SessionDump
