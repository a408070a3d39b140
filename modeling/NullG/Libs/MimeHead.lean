/-
The header block of a message (`mime_read_head` of `libs/net/mime.c`).

A name that comes again turns its string into a table of the values. The table `head` is not sorted, so that a lookup
takes the first entry with the name, or with the number of a numeral; the tables of values are sorted. The block is read
as it was written where names are short and no two are numerals of one number (`mimeReadHead_iff`). What is found of the
fields for the table `headvalues` is not modelled: nothing here reads it.
-/

import NullG.Httpd.Query
import NullG.Lib.Memory
import NullG.Nsp.Append

namespace NullG.Libs.Mime

open NullG.Lib NullG.Mail
open NullG.Nsp hiding found
open NullG.Httpd (Table numeral found Clash byte_all)

/-! ### Sorted tables -/

/-- The numbers that `n_aton` makes of numerals, cast to a `signed long`. A `double` is exact where an `int` is. -/
structure Aton where
  nval : List Byte → Int
  small : ∀ n, n < 2 ^ 31 → nval (natDigits n) = n

theorem trunc_nAton_natDigits (n : Nat) (_ : n < 2 ^ 31) : Num.trunc (nAton (natDigits n)) = n := by
  have hname := nameNval_natDigits n
  rwa [nameNval, if_pos (allDigits_natDigits n)] at hname

/-- Numbers that are exact everywhere. -/
def Aton.exact : Aton := ⟨fun name => Num.trunc (nAton name), trunc_nAton_natDigits⟩

/-- `cmp` of `n_locateobj`: the name of an entry and the name that is searched. -/
def locateCmp (nval : List Byte → Int) (oname name : List Byte) : Int :=
  if -1 < numeral nval oname then numeral nval name - numeral nval oname else nameCmp name oname

/-- A table with `NST_AUTOSORT` and the place of its entry `table.i`. -/
structure SortedTable where
  entries : Table
  i : Nat

/-- Where a name is set in a table: at an entry, or as a new one in front of a place. -/
inductive Place where
  | hit (k : Nat)
  | before (k : Nat)

section

variable (cmp : List Byte → Int)

/-- The loop over `next`, from the entry `k` on: the new `table.i`, and where the loop ends. -/
def searchForward (i : Nat) : Nat → Table → Nat × Place
  | k, [] => (i, .before k)
  | k, e :: es =>
      if cmp e.1 < 0 then searchForward k (k + 1) es
      else (i, if cmp e.1 = 0 then .hit k else .before k)

/-- The loop over `prev`, from the last of the entries on. -/
def searchBackward (i : Nat) : Table → Nat × Place
  | [] => (i, .before 0)
  | e :: es =>
      if 0 < cmp e.1 then searchBackward es.length es
      else (i, if cmp e.1 = 0 then .hit es.length else .before (es.length + 1))

/-- `n_locateobj` in a table that is not empty. -/
def SortedTable.locate (t : SortedTable) : Nat × Place :=
  match t.entries.drop t.i with
  | [] => (t.i, .before t.entries.length)
  | e :: es =>
      if cmp e.1 < 0 then searchForward cmp t.i t.i (e :: es)
      else if 0 < cmp e.1 then searchBackward cmp t.i (t.entries.take (t.i + 1)).reverse
      else (t.i, .hit t.i)

end

/-- `nsp_setstr`: the table, and the place of the entry that is set. -/
def SortedTable.set (nval : List Byte → Int) (t : SortedTable) (oname value : List Byte) : SortedTable × Nat :=
  if t.entries = [] then (⟨[(clip oname, value)], 0⟩, 0)
  else
    match t.locate (locateCmp nval oname) with
    | (i, .hit k) => (⟨t.entries.modify k fun e => (e.1, value), i⟩, k)
    | (i, .before k) => (⟨t.entries.insertIdx k (clip oname, value), if k ≤ i then i + 1 else i⟩, k)

/-! ### The table of fields -/

/-- What an entry of `head` holds. -/
inductive HeadVal where
  | str (s : List Byte)
  | table (t : SortedTable)

/-- An entry of `head`. -/
structure HeadEntry where
  name : List Byte
  content : HeadVal

/-- `nsp_strcat` of a string, or of the entry at a place of a table. -/
def HeadVal.strcat (text : List Byte) : Option Nat → HeadVal → HeadVal
  | none, .str s => .str (s ++ text)
  | some j, .table t => .table { t with entries := t.entries.modify j fun e => (e.1, e.2 ++ text) }
  | _, c => c

/-- What `mime_read_head` works on: its buffer, the entries of `head`, and `cobj`, which is an entry or one of the
entries of its table. -/
structure Head where
  namebuf : List Byte
  entries : List HeadEntry
  cobj : Option (Nat × Option Nat)

/-- `if (cobj) nsp_strcat(N, cobj, ...)` -/
def Head.strcat (h : Head) (text : List Byte) : Head :=
  match h.cobj with
  | none => h
  | some (k, j) => { h with entries := h.entries.modify k fun e => { e with content := e.content.strcat text j } }

/-- `nsp_getobj` -/
def getObj (nval : List Byte → Int) (entries : List HeadEntry) (oname : List Byte) : Option HeadEntry :=
  entries.find? fun e => found nval oname e.name

/-- A value is set in the table of an entry, under the number that `n_ntoa` writes into `namebuf`. -/
def Head.setNumber (nval : List Byte → Int) (h : Head) (k : Nat) (t : SortedTable) (size : Nat) (value : List Byte) :
    Option Head := do
  let namebuf ← Memory.write h.namebuf 0 (natDigits size ++ [0])
  let (t, j) := t.set nval (cstr namebuf) value
  return ⟨namebuf, h.entries.modify k fun e => { e with content := .table t }, some (k, some j)⟩

/-- A value is set under the name in `namebuf`. The size of the string that becomes the entry `0` of a table goes
through an `unsigned int`; the entries of a table are counted by an `int`. -/
def Head.setValue (nval : List Byte → Int) (h : Head) (value : List Byte) : Option Head :=
  let oname := cstr h.namebuf
  match h.entries.findIdx? fun e => found nval oname e.name with
  | none =>
      if oname = [] then some { h with cobj := none }
      else some { h with entries := h.entries ++ [⟨clip oname, .str value⟩], cobj := some (h.entries.length, none) }
  | some k => do
      let e ← h.entries[k]?
      match e.content with
      | .str s => h.setNumber nval k ⟨[([ch '0'], s.take (s.length % 2 ^ 32))], 0⟩ 1 value
      | .table t =>
          let size ← Memory.int t.entries.length
          h.setNumber nval k t size value

/-! ### Lines -/

/-- `isalnum(c) || c == '-' || c == '_'` -/
def isName (c : Byte) : Bool := ncIsalpha c || ncIsdigit c || c == ch '-' || c == ch '_'

/-- `c && c != '\r' && c != '\n'` -/
def inLine (c : Byte) : Bool := c != 0 && c != ch '\r' && c != ch '\n'

/-- `c == ' ' || c == '\t'` -/
def isBlank (c : Byte) : Bool := c == ch ' ' || c == ch '\t'

/-- `if (*inptr == c) inptr++;` -/
def skipByte (c : Byte) (inptr : List Byte) : List Byte := if inptr.head? = some c then inptr.drop 1 else inptr

/-- Behind the end of a line. -/
def skipEol (inptr : List Byte) : List Byte := skipByte (ch '\n') (skipByte (ch '\r') inptr)

/-- The name at the start of a line is written from the place `p` of `namebuf` on, with a NUL. -/
def readName (namebuf : List Byte) (p : Nat) : List Byte → Option (List Byte × List Byte)
  | [] => (Memory.write namebuf p [0]).map fun namebuf => (namebuf, [])
  | c :: inptr =>
      if isName c then (Memory.write namebuf p [lower c]).bind fun namebuf => readName namebuf (p + 1) inptr
      else (Memory.write namebuf p [0]).map fun namebuf => (namebuf, c :: inptr)

/-- A line is read, or the loop ends in front of it. -/
inductive Line where
  | next (h : Head) (inptr : List Byte)
  | stop (inptr : List Byte)

/-- What the loop does with what follows the name of a line. -/
def readRest (nval : List Byte → Int) (h : Head) : List Byte → Option Line
  | [] => some (.stop [])
  | c :: inptr =>
      if c = ch ':' then
        let p := skipByte (ch ' ') inptr
        (h.setValue nval (p.takeWhile inLine)).map fun h => .next h (skipEol (p.dropWhile inLine))
      else if isBlank c then
        let p := inptr.dropWhile isBlank
        some (.next ((h.strcat [ch ' ']).strcat (p.takeWhile inLine)) (skipEol (p.dropWhile inLine)))
      else if inLine c then some (.next h (skipEol (inptr.dropWhile inLine)))
      else some (.stop (c :: inptr))

/-- A round of the loop. -/
def readLine (nval : List Byte → Int) (h : Head) (inptr : List Byte) : Option Line :=
  (readName h.namebuf 0 inptr).bind fun r => readRest nval { h with namebuf := r.1 } r.2

/-- The loop, with as many rounds as are left: the entries of `head`, and the pointer that is returned. -/
def readLines (nval : List Byte → Int) : Nat → Head → List Byte → Option (List HeadEntry × List Byte)
  | 0, _, _ => none
  | n + 1, h, inptr =>
      match readLine nval h inptr with
      | none => none
      | some (.stop inptr) => some (h.entries, skipEol inptr)
      | some (.next h inptr) => readLines nval n h inptr

/-- `mime_read_head` of a table with no `head` yet. Each round reads a byte. -/
def mimeReadHead (nval : List Byte → Int) (inptr : List Byte) : Option (List HeadEntry × List Byte) :=
  readLines nval (inptr.length + 1) ⟨List.replicate (maxObjnamelen + 1) 0, [], none⟩ inptr

/-! ### Header blocks -/

/-- The end of a line. -/
inductive Eol where
  | crlf
  | lf

/-- Its bytes. -/
def Eol.text : Eol → List Byte
  | .crlf => [ch '\r', ch '\n']
  | .lf => [ch '\n']

/-- A line that continues a value. -/
structure Fold where
  indent : List Byte
  text : List Byte
  eol : Eol
  indented : indent ≠ [] ∧ ∀ c ∈ indent, isBlank c = true
  plain : (∀ c ∈ text, inLine c = true) ∧ ∀ c, text.head? = some c → isBlank c = false

/-- A line with a name and a value, and the lines that continue it. -/
structure Field where
  name : List Byte
  value : List Byte
  eol : Eol
  folds : List Fold
  isName : name ≠ [] ∧ ∀ c ∈ name, isName c = true
  plain : ∀ c ∈ value, inLine c = true

/-- A header block with the blank line behind it. -/
structure Block where
  fields : List Field
  blank : Eol

def Fold.line (f : Fold) : List Byte := f.indent ++ f.text ++ f.eol.text

def Field.lines (f : Field) : List Byte :=
  f.name ++ ch ':' :: ch ' ' :: f.value ++ f.eol.text ++ f.folds.flatMap Fold.line

def Block.text (b : Block) : List Byte := b.fields.flatMap Field.lines ++ b.blank.text

/-- The name in lower case. -/
def Field.key (f : Field) : List Byte := f.name.map lower

/-- The value with its lines joined by spaces. -/
def Field.whole (f : Field) : List Byte := f.value ++ f.folds.flatMap fun l => ch ' ' :: l.text

/-- The values of a name, in their order. -/
def valuesOf (oname : List Byte) (vs : Table) : List (List Byte) := (vs.filter fun v => v.1 == oname).map Prod.snd

/-- The names and values of a block. -/
def Block.values (b : Block) : Table := b.fields.map fun f => (f.key, f.whole)

/-- Values, numbered from 0 on. -/
def numbered (l : List (List Byte)) : Table := l.mapIdx fun i v => (natDigits i, v)

/-- A string is the only value, a table holds several. -/
def HeadVal.Holds (l : List (List Byte)) : HeadVal → Prop
  | .str s => l = [s]
  | .table t => 2 ≤ l.length ∧ t.entries = numbered l

/-- The block is read up to the byte behind the blank line, and each of its names has an entry with its values. -/
def Block.Read (nval : List Byte → Int) (b : Block) (rest : List Byte) : Prop :=
  ∃ entries, mimeReadHead nval (b.text ++ rest) = some (entries, rest) ∧
    ∀ f ∈ b.fields, ∃ c, getObj nval entries f.key = some ⟨f.key, c⟩ ∧ c.Holds (valuesOf f.key b.values)

/-- A block that is read as it was written. -/
structure Block.Clean (nval : List Byte → Int) (b : Block) : Prop where
  short : ∀ f ∈ b.fields, f.name.length ≤ 63
  numerals : ∀ f ∈ b.fields, ∀ g ∈ b.fields, Clash nval f.key g.key → f.key = g.key
  first : ∀ f ∈ b.fields, ∀ v w l, valuesOf f.key b.values = v :: w :: l → v.length < 2 ^ 32
  count : ∀ f ∈ b.fields, (valuesOf f.key b.values).length ≤ 2 ^ 31

/-! ### Tables of values -/

section

variable {nval : List Byte → Int} {oname value : List Byte}

theorem found_self (nval : List Byte → Int) (p : List Byte) : found nval p p = true := by
  unfold found
  split
  · exact beq_self_eq_true _
  · exact beq_self_eq_true _

theorem modify_middle {α : Type} (A B : List α) (e : α) (f : α → α) :
    (A ++ e :: B).modify A.length f = A ++ f e :: B := by
  induction A with
  | nil => rfl
  | cons a A ih => exact congrArg (a :: ·) ih

/-- A search for a name above all the entries ends behind them. -/
theorem searchForward_end {cmp : List Byte → Int} {es : Table} (h : ∀ e ∈ es, cmp e.1 < 0) {i k : Nat}
    (hi : i < k + es.length) :
    ∃ i', searchForward cmp i k es = (i', .before (k + es.length)) ∧ i' < k + es.length := by
  induction es generalizing i k with
  | nil => exact ⟨i, rfl, hi⟩
  | cons e es ih =>
      have hlen : k + (e :: es).length = k + 1 + es.length := by
        rw [List.length_cons]
        omega
      obtain ⟨i', hsearch, hi'⟩ := ih (fun d hd => h d (List.mem_cons_of_mem e hd)) (i := k) (k := k + 1) (by omega)
      rw [hlen, searchForward, if_pos (h e List.mem_cons_self)]
      exact ⟨i', hsearch, hi'⟩

/-- A name above all the entries is set behind them, wherever the search begins. -/
theorem set_behind (value : List Byte) {t : SortedTable} (hi : t.i < t.entries.length)
    (h : ∀ e ∈ t.entries, locateCmp nval oname e.1 < 0) :
    ∃ i', t.set nval oname value = (⟨t.entries ++ [(clip oname, value)], i'⟩, t.entries.length) ∧
      i' < t.entries.length + 1 := by
  have hne : t.entries ≠ [] := List.ne_nil_of_length_pos (by omega)
  have hdrop := List.drop_eq_getElem_cons hi
  have hbehind : ∀ e ∈ t.entries.drop t.i, locateCmp nval oname e.1 < 0 := fun e he => h e (List.mem_of_mem_drop he)
  have hlen : t.i + (t.entries.drop t.i).length = t.entries.length := by
    rw [List.length_drop]
    omega
  obtain ⟨i', hsearch, hi'⟩ := searchForward_end hbehind (i := t.i) (k := t.i) (by omega)
  have hlocate : t.locate (locateCmp nval oname) = (i', .before t.entries.length) := by
    rw [hlen] at hsearch
    rw [SortedTable.locate]
    rw [hdrop] at hsearch hbehind ⊢
    dsimp only
    rw [if_pos (hbehind _ List.mem_cons_self), hsearch]
  refine ⟨i', ?_, by omega⟩
  rw [SortedTable.set, if_neg hne, hlocate]
  dsimp only
  rw [List.insertIdx_length_self, if_neg (by omega)]

theorem numeral_natDigits (aton : Aton) {n : Nat} (h : n < 2 ^ 31) : numeral aton.nval (natDigits n) = n := by
  rw [numeral, if_pos (allDigits_natDigits n), aton.small n h]

theorem mem_numbered {l : List (List Byte)} {e : List Byte × List Byte} (he : e ∈ numbered l) :
    ∃ j, j < l.length ∧ e.1 = natDigits j := by
  obtain ⟨j, hj, rfl⟩ := List.mem_mapIdx.mp he
  exact ⟨j, hj, rfl⟩

theorem numbered_length (l : List (List Byte)) : (numbered l).length = l.length := List.length_mapIdx

theorem numbered_concat (l : List (List Byte)) (v : List Byte) :
    numbered (l ++ [v]) = numbered l ++ [(natDigits l.length, v)] := List.mapIdx_concat

/-- The next number is set behind the values. -/
theorem set_number (aton : Aton) (value : List Byte) {t : SortedTable} {l : List (List Byte)}
    (ht : t.entries = numbered l)
    (hi : t.i < t.entries.length) (hl : l.length < 2 ^ 31) :
    ∃ i', t.set aton.nval (natDigits l.length) value = (⟨numbered (l ++ [value]), i'⟩, l.length) ∧
      i' < l.length + 1 := by
  have hcmp : ∀ e ∈ t.entries, locateCmp aton.nval (natDigits l.length) e.1 < 0 := by
    intro e he
    rw [ht] at he
    obtain ⟨j, hj, hname⟩ := mem_numbered he
    rw [locateCmp, hname, numeral_natDigits aton hl, numeral_natDigits aton (hj.trans hl), if_pos (by omega)]
    omega
  obtain ⟨i', hset, hi'⟩ := set_behind value hi hcmp
  have hlen : t.entries.length = l.length := by rw [ht, numbered_length]
  rw [hlen, ht, (validName_natDigits hl).clip, ← numbered_concat] at hset
  exact ⟨i', hset, hlen ▸ hi'⟩

/-- The text of a number is written with room to spare. -/
theorem setNumber_run (aton : Aton) (value : List Byte) {h : Head} {t : SortedTable} {l : List (List Byte)} (k : Nat)
    (hbuf : h.namebuf.length = maxObjnamelen + 1) (ht : t.entries = numbered l) (hi : t.i < t.entries.length)
    (hl : l.length < 2 ^ 31) :
    ∃ namebuf i', h.setNumber aton.nval k t l.length value = some ⟨namebuf,
        h.entries.modify k fun e => { e with content := .table ⟨numbered (l ++ [value]), i'⟩ },
        some (k, some l.length)⟩ ∧ namebuf.length = maxObjnamelen + 1 ∧ i' < l.length + 1 := by
  have hname := validName_natDigits hl
  obtain ⟨i', hset, hi'⟩ := set_number aton value ht hi hl
  have hfits : 0 + (natDigits l.length ++ [0]).length ≤ h.namebuf.length := by
    have hshort := hname.short
    have hmax : maxObjnamelen = 64 := rfl
    rw [hbuf, List.length_append, List.length_singleton]
    omega
  have hwrite := Memory.write_of_le hfits
  have hcstr : cstr (h.namebuf.take 0 ++ (natDigits l.length ++ [0]) ++
      h.namebuf.drop (0 + (natDigits l.length ++ [0]).length)) = natDigits l.length := by
    rw [List.take_zero, List.nil_append, List.append_assoc, List.singleton_append, cstr_append_zero,
      cstr_eq hname.nulFree]
  have hlen := Memory.write_length hwrite
  refine ⟨_, i', ?_, hlen.trans hbuf, hi'⟩
  rw [Head.setNumber, hwrite, Option.bind_eq_bind, Option.bind_some, hcstr, hset]
  rfl

end

/-! ### What has been read -/

/-- Values, of which the first has become the entry `0` of a table. -/
def cut : List (List Byte) → List (List Byte)
  | [] => []
  | v :: l => v.take (v.length % 2 ^ 32) :: l

/-- What an entry holds of the values of its name. -/
def HeadVal.Stores (l : List (List Byte)) : HeadVal → Prop
  | .str s => l = [s]
  | .table t => 2 ≤ l.length ∧ t.entries = numbered (cut l) ∧ t.i < t.entries.length

/-- Where the value of a name is set that has had some before. -/
def slot (before : Nat) : Option Nat := if before = 0 then none else some before

/-- Names that are found for no other. -/
structure Separate (nval : List Byte → Int) (S : Set (List Byte)) : Prop where
  valid : ∀ p ∈ S, p ≠ [] ∧ p.length ≤ 63
  found : ∀ p ∈ S, ∀ q ∈ S, found nval p q = true → q = p

/-- The entries of `head` are the names that have been read, with their values. -/
structure Reading (S : Set (List Byte)) (vs : Table) (h : Head) : Prop where
  buf : h.namebuf.length = maxObjnamelen + 1
  mem : ∀ v ∈ vs, v.1 ∈ S
  nodup : (h.entries.map HeadEntry.name).Nodup
  names : ∀ n, n ∈ h.entries.map HeadEntry.name ↔ n ∈ vs.map Prod.fst
  stores : ∀ e ∈ h.entries, e.content.Stores (valuesOf e.name vs)
  count : ∀ n, (valuesOf n vs).length ≤ 2 ^ 31
  /-- `cobj` is the last value -/
  last : ∀ us n v, vs = us ++ [(n, v)] → ∃ A c B, h.entries = A ++ ⟨n, c⟩ :: B ∧
    h.cobj = some (A.length, slot (valuesOf n us).length)

section

variable {nval : List Byte → Int} {S : Set (List Byte)} {us vs : Table} {h : Head} {n v text : List Byte}

theorem valuesOf_append (n : List Byte) (us vs : Table) : valuesOf n (us ++ vs) = valuesOf n us ++ valuesOf n vs := by
  rw [valuesOf, List.filter_append, List.map_append]
  rfl

theorem valuesOf_same (n v : List Byte) (us : Table) : valuesOf n (us ++ [(n, v)]) = valuesOf n us ++ [v] := by
  have hone : valuesOf n [(n, v)] = [v] := by
    rw [valuesOf, List.filter_singleton, beq_self_eq_true]
    rfl
  rw [valuesOf_append, hone]

theorem valuesOf_other {m : List Byte} (hne : m ≠ n) (v : List Byte) (us : Table) :
    valuesOf m (us ++ [(n, v)]) = valuesOf m us := by
  have hnone : valuesOf m [(n, v)] = [] := by
    rw [valuesOf, List.filter_singleton, beq_eq_false_iff_ne.mpr hne.symm]
    rfl
  rw [valuesOf_append, hnone, List.append_nil]

theorem valuesOf_eq_nil_iff : valuesOf n us = [] ↔ n ∉ us.map Prod.fst := by
  rw [valuesOf, List.map_eq_nil_iff, List.filter_eq_nil_iff, List.mem_map]
  constructor
  · rintro hall ⟨v, hv, rfl⟩
    exact hall v hv (beq_self_eq_true _)
  · exact fun hnone v hv heq => hnone ⟨v, hv, eq_of_beq heq⟩

theorem cut_concat {l : List (List Byte)} (hne : l ≠ []) (v : List Byte) : cut (l ++ [v]) = cut l ++ [v] := by
  cases l with
  | nil => exact absurd rfl hne
  | cons w l => rfl

theorem cut_length (l : List (List Byte)) : (cut l).length = l.length := by
  cases l with
  | nil => rfl
  | cons v l => rfl

/-- An entry is changed: those of other names keep their values. -/
theorem stores_middle {A B : List HeadEntry} {c c' : HeadVal}
    (hnodup : ((A ++ ⟨n, c⟩ :: B).map HeadEntry.name).Nodup)
    (hstores : ∀ e ∈ A ++ ⟨n, c⟩ :: B, e.content.Stores (valuesOf e.name us))
    (hother : ∀ m, m ≠ n → valuesOf m vs = valuesOf m us) (hc : c'.Stores (valuesOf n vs)) :
    ∀ e ∈ A ++ ⟨n, c'⟩ :: B, e.content.Stores (valuesOf e.name vs) := by
  rw [List.map_append, List.map_cons, List.nodup_middle, List.nodup_cons, ← List.map_append, List.mem_map] at hnodup
  intro e he
  rw [mem_middle] at he
  rcases he with rfl | he
  · exact hc
  · have hne : e.name ≠ n := fun heq => hnodup.1 ⟨e, he, heq⟩
    rw [hother e.name hne]
    exact hstores e (mem_middle.mpr (.inr he))

/-- A name that has been read is found at its entry. -/
theorem Reading.entry (hr : Reading S vs h) (hn : n ∈ vs.map Prod.fst) : ∃ A c B, h.entries = A ++ ⟨n, c⟩ :: B := by
  obtain ⟨e, he, rfl⟩ := List.mem_map.mp ((hr.names n).mpr hn)
  obtain ⟨A, B, hsplit⟩ := List.append_of_mem he
  exact ⟨A, e.content, B, hsplit⟩

theorem Reading.entry_mem (hr : Reading S vs h) {e : HeadEntry} (he : e ∈ h.entries) : e.name ∈ S := by
  obtain ⟨v, hv, hname⟩ := List.mem_map.mp ((hr.names e.name).mp (List.mem_map_of_mem he))
  exact hname ▸ hr.mem v hv

theorem Reading.not_found (hr : Reading S vs h) (hS : Separate nval S) (hn : n ∈ S) {e : HeadEntry}
    (he : e ∈ h.entries) (hne : e.name ≠ n) : found nval n e.name = false :=
  Bool.eq_false_iff.mpr fun hfound => hne (hS.found n hn e.name (hr.entry_mem he) hfound)

theorem Reading.findIdx (hr : Reading S vs h) (hS : Separate nval S) (hn : n ∈ S) {A B : List HeadEntry} {c : HeadVal}
    (hentries : h.entries = A ++ ⟨n, c⟩ :: B) :
    (h.entries.findIdx? fun e => found nval n e.name) = some A.length := by
  have hnodup := hr.nodup
  rw [hentries, List.map_append, List.map_cons, List.nodup_middle, List.nodup_cons, ← List.map_append,
    List.mem_map] at hnodup
  have hA : (A.findIdx? fun e => found nval n e.name) = none := by
    rw [List.findIdx?_eq_none_iff]
    intro e he
    refine hr.not_found hS hn ?_ fun heq => hnodup.1 ⟨e, List.mem_append_left B he, heq⟩
    rw [hentries]
    exact List.mem_append_left _ he
  rw [hentries, List.findIdx?_append, hA, List.findIdx?_cons, found_self]
  exact congrArg some (Nat.zero_add _)

/-- An entry is changed, and the last value is one of its name. -/
theorem Reading.change {ws : Table} {w namebuf : List Byte} {A B : List HeadEntry} {c c' : HeadVal}
    (hr : Reading S us h) (hentries : h.entries = A ++ ⟨n, c⟩ :: B)
    (hnames : ∀ m, m ∈ (ws ++ [(n, w)]).map Prod.fst ↔ m ∈ us.map Prod.fst)
    (hother : ∀ m, m ≠ n → valuesOf m (ws ++ [(n, w)]) = valuesOf m us)
    (hc : c'.Stores (valuesOf n (ws ++ [(n, w)]))) (hcount : (valuesOf n (ws ++ [(n, w)])).length ≤ 2 ^ 31)
    (hbuf : namebuf.length = maxObjnamelen + 1) :
    Reading S (ws ++ [(n, w)]) ⟨namebuf, A ++ ⟨n, c'⟩ :: B, some (A.length, slot (valuesOf n ws).length)⟩ where
  buf := hbuf
  mem := by
    intro v hv
    obtain ⟨u, hu, hname⟩ := List.mem_map.mp ((hnames v.1).mp (List.mem_map_of_mem hv))
    exact hname ▸ hr.mem u hu
  nodup := by
    have hnodup := hr.nodup
    rw [hentries, List.map_append, List.map_cons] at hnodup
    rwa [List.map_append, List.map_cons]
  names := by
    intro m
    have hold := hr.names m
    rw [hentries, List.map_append, List.map_cons] at hold
    rw [List.map_append, List.map_cons, hnames]
    exact hold
  stores := stores_middle (hentries ▸ hr.nodup) (hentries ▸ hr.stores) hother hc
  count := by
    intro m
    by_cases hm : m = n
    · rw [hm]
      exact hcount
    · rw [hother m hm]
      exact hr.count m
  last := by
    intro us' n' v' heq
    obtain ⟨rfl, hlast⟩ := List.append_inj' heq rfl
    obtain ⟨rfl, rfl⟩ := Prod.mk.inj (List.singleton_inj.mp hlast)
    exact ⟨A, c', B, rfl, rfl⟩

theorem mem_names_concat (hn : n ∈ us.map Prod.fst) (m : List Byte) :
    m ∈ (us ++ [(n, v)]).map Prod.fst ↔ m ∈ us.map Prod.fst := by
  rw [List.map_append, List.mem_append, List.map_singleton, List.mem_singleton]
  constructor
  · rintro (hm | rfl)
    · exact hm
    · exact hn
  · exact .inl

/-- Another value of a name that has been read: its string becomes a table, or its table gets another entry. -/
theorem Reading.set_old {aton : Aton} (hr : Reading S us h) (hS : Separate aton.nval S) (hn : n ∈ us.map Prod.fst)
    (hbuf : cstr h.namebuf = n) :
    if (valuesOf n us).length < 2 ^ 31 then ∃ h', h.setValue aton.nval v = some h' ∧ Reading S (us ++ [(n, v)]) h'
    else h.setValue aton.nval v = none := by
  obtain ⟨u, hu, hname⟩ := List.mem_map.mp hn
  have hnS : n ∈ S := hname ▸ hr.mem u hu
  obtain ⟨A, c, B, hentries⟩ := hr.entry hn
  have hfind := hr.findIdx hS hnS hentries
  have hget : h.entries[A.length]? = some ⟨n, c⟩ := by
    rw [hentries, List.getElem?_append_right (Nat.le_refl _), Nat.sub_self, List.getElem?_cons_zero]
  have hstores : c.Stores (valuesOf n us) := hr.stores ⟨n, c⟩ (hentries ▸ List.mem_append_right A List.mem_cons_self)
  have hne : valuesOf n us ≠ [] := fun hnil => valuesOf_eq_nil_iff.mp hnil hn
  -- the values behind `l` in a table that is set at the next number
  have hadd : ∀ (t : SortedTable), t.entries = numbered (cut (valuesOf n us)) → t.i < t.entries.length →
      (valuesOf n us).length < 2 ^ 31 → ∃ h', h.setNumber aton.nval A.length t (valuesOf n us).length v = some h' ∧
        Reading S (us ++ [(n, v)]) h' := by
    intro t ht hi hlt
    have hlen := cut_length (valuesOf n us)
    obtain ⟨namebuf, i', hset, hlength, hi'⟩ := setNumber_run aton v A.length hr.buf ht hi (hlen ▸ hlt)
    rw [hentries, modify_middle, hlen] at hset
    refine ⟨_, hset, ?_⟩
    have hsame := valuesOf_same n v us
    have hslot : slot (valuesOf n us).length = some (valuesOf n us).length :=
      if_neg fun hzero => hne (List.length_eq_zero_iff.mp hzero)
    rw [← hslot]
    refine hr.change hentries (mem_names_concat hn) (fun m hm => valuesOf_other hm v us) ?_ ?_ hlength
    · rw [hsame]
      refine ⟨?_, ?_, ?_⟩
      · have hpos := List.length_pos_iff.mpr hne
        rw [List.length_append, List.length_singleton]
        omega
      · rw [cut_concat hne]
      · show i' < (numbered (cut (valuesOf n us) ++ [v])).length
        rw [numbered_length, List.length_append, List.length_singleton]
        exact hi'
    · rw [hsame, List.length_append, List.length_singleton]
      exact hlt
  rw [Head.setValue, hbuf, hfind]
  dsimp only
  rw [hget, Option.bind_eq_bind, Option.bind_some]
  cases c with
  | str s =>
      have hone : valuesOf n us = [s] := hstores
      have hlt : [s].length < 2 ^ 31 := Nat.one_lt_two_pow (by decide)
      rw [hone] at hadd ⊢
      rw [if_pos hlt]
      exact hadd _ rfl Nat.one_pos hlt
  | table t =>
      obtain ⟨-, ht, hi⟩ := hstores
      have hlen : t.entries.length = (valuesOf n us).length := by rw [ht, numbered_length, cut_length]
      dsimp only
      rw [hlen, Memory.int]
      split
      · rename_i hlt
        exact hadd t ht hi hlt
      · rfl

/-- The first value of a name. -/
theorem Reading.set_new (hr : Reading S us h) (hS : Separate nval S) (hnS : n ∈ S) (hn : n ∉ us.map Prod.fst)
    (hbuf : cstr h.namebuf = n) :
    ∃ h', h.setValue nval v = some h' ∧ Reading S (us ++ [(n, v)]) h' := by
  have hnone : ∀ e ∈ h.entries, e.name ≠ n := fun e he heq => hn ((hr.names n).mp (heq ▸ List.mem_map_of_mem he))
  have hfind : (h.entries.findIdx? fun e => found nval n e.name) = none :=
    List.findIdx?_eq_none_iff.mpr fun e he => hr.not_found hS hnS he (hnone e he)
  have hclip : clip n = n := List.take_of_length_le (hS.valid n hnS).2
  have hnil : valuesOf n us = [] := valuesOf_eq_nil_iff.mpr hn
  refine ⟨{ h with entries := h.entries ++ [⟨n, .str v⟩], cobj := some (h.entries.length, none) }, ?_, ?_⟩
  · rw [Head.setValue, hbuf, hfind]
    dsimp only
    rw [if_neg (hS.valid n hnS).1, hclip]
  · refine ⟨hr.buf, ?_, ?_, ?_, ?_, ?_, ?_⟩
    · intro u hu
      rcases List.mem_append.mp hu with hu | hu
      · exact hr.mem u hu
      · rw [List.mem_singleton.mp hu]
        exact hnS
    · rw [List.map_append, List.map_singleton, List.nodup_append_comm, List.singleton_append, List.nodup_cons]
      exact ⟨fun hmem => hn ((hr.names n).mp hmem), hr.nodup⟩
    · intro m
      rw [List.map_append, List.map_append, List.mem_append, List.mem_append, hr.names m]
      rfl
    · intro e he
      rcases List.mem_append.mp he with he | he
      · rw [valuesOf_other (hnone e he)]
        exact hr.stores e he
      · rw [List.mem_singleton.mp he, valuesOf_same, hnil]
        rfl
    · intro m
      by_cases hm : m = n
      · rw [hm, valuesOf_same, hnil]
        exact Nat.one_le_two_pow
      · rw [valuesOf_other hm]
        exact hr.count m
    · intro us' n' v' heq
      obtain ⟨rfl, hlast⟩ := List.append_inj' heq rfl
      obtain ⟨rfl, rfl⟩ := Prod.mk.inj (List.singleton_inj.mp hlast)
      exact ⟨h.entries, .str v, [], rfl, by rw [hnil]; rfl⟩

/-- More text for the value that was set last. -/
theorem Reading.strcat (hr : Reading S (us ++ [(n, v)]) h) (text : List Byte) :
    Reading S (us ++ [(n, v ++ text)]) (h.strcat text) := by
  obtain ⟨A, c, B, hentries, hcobj⟩ := hr.last us n v rfl
  have hstores : c.Stores (valuesOf n (us ++ [(n, v)])) :=
    hr.stores ⟨n, c⟩ (hentries ▸ List.mem_append_right A List.mem_cons_self)
  have hrun : h.strcat text = ⟨h.namebuf, A ++ ⟨n, c.strcat text (slot (valuesOf n us).length)⟩ :: B,
      some (A.length, slot (valuesOf n us).length)⟩ := by
    rw [Head.strcat, hcobj]
    dsimp only
    rw [hentries, modify_middle]
  have hcount := hr.count n
  rw [hrun]
  refine hr.change hentries (fun m => by rw [List.map_append, List.map_append]; rfl) ?_ ?_ ?_ hr.buf
  · intro m hm
    rw [valuesOf_other hm, valuesOf_other hm]
  · rw [valuesOf_same] at hstores ⊢
    cases c with
    | str s =>
        have hone : valuesOf n us ++ [v] = [s] := hstores
        have hnil : valuesOf n us = [] := by
          have hlen := congrArg List.length hone
          rw [List.length_append] at hlen
          exact List.length_eq_zero_iff.mp (Nat.succ.inj hlen)
        rw [hnil] at hone ⊢
        rw [← List.singleton_inj.mp hone]
        rfl
    | table t =>
        obtain ⟨hlen, ht, hi⟩ := hstores
        have hne : valuesOf n us ≠ [] := by
          rintro hnil
          rw [hnil] at hlen
          exact absurd hlen (Nat.not_succ_le_self 1)
        have hslot : slot (valuesOf n us).length = some (cut (valuesOf n us)).length := by
          rw [cut_length]
          exact if_neg fun hzero => hne (List.length_eq_zero_iff.mp hzero)
        rw [cut_concat hne, numbered_concat] at ht
        rw [hslot]
        refine ⟨?_, ?_, ?_⟩
        · rw [List.length_append] at hlen ⊢
          exact hlen
        · show t.entries.modify _ _ = _
          rw [ht, cut_concat hne, numbered_concat, ← numbered_length, modify_middle]
        · show t.i < (t.entries.modify _ _).length
          rw [List.length_modify]
          exact hi
  · rw [valuesOf_same, List.length_append] at hcount ⊢
    exact hcount

end

/-! ### Rounds of the loop -/

section

variable {nval : List Byte → Int} {h h' : Head} {inptr rest : List Byte}

theorem isName_lower {c : Byte} (hc : isName c = true) : lower c ≠ 0 := by
  have hall := byte_all (p := fun c => !isName c || lower c != 0) (by decide +kernel) c
  rw [hc, Bool.not_true, Bool.false_or, bne_iff_ne] at hall
  exact hall

/-- The name is written byte by byte, and its NUL. -/
theorem readName_eq (namebuf : List Byte) (p : Nat) (inptr : List Byte) :
    readName namebuf p inptr = (Memory.write namebuf p ((inptr.takeWhile isName).map lower ++ [0])).map
      fun namebuf => (namebuf, inptr.dropWhile isName) := by
  induction inptr generalizing namebuf p with
  | nil => rfl
  | cons c inptr ih =>
      by_cases hc : isName c = true
      · have happend := Memory.write_append namebuf p [lower c] ((inptr.takeWhile isName).map lower ++ [0])
        rw [List.singleton_append, List.length_singleton] at happend
        rw [readName, if_pos hc, List.takeWhile_cons_of_pos hc, List.dropWhile_cons_of_pos hc, List.map_cons,
          List.cons_append, happend, Option.map_bind]
        exact congrArg _ (funext fun namebuf => ih namebuf (p + 1))
      · rw [readName, if_neg hc, List.takeWhile_cons_of_neg hc, List.dropWhile_cons_of_neg hc]
        rfl

theorem skipByte_length (c : Byte) (inptr : List Byte) : (skipByte c inptr).length ≤ inptr.length := by
  unfold skipByte
  split
  · exact (List.drop_sublist _ _).length_le
  · exact Nat.le_refl _

theorem skipEol_length (inptr : List Byte) : (skipEol inptr).length ≤ inptr.length :=
  (skipByte_length _ _).trans (skipByte_length _ _)

theorem dropWhile_length (p : Byte → Bool) (inptr : List Byte) : (inptr.dropWhile p).length ≤ inptr.length :=
  (List.dropWhile_sublist p).length_le

/-- Each round reads a byte. -/
theorem readLine_length (hline : readLine nval h inptr = some (.next h' rest)) : rest.length < inptr.length := by
  obtain ⟨r, hname, hrest⟩ := Option.bind_eq_some_iff.mp hline
  rw [readName_eq] at hname
  obtain ⟨namebuf, -, rfl⟩ := Option.map_eq_some_iff.mp hname
  have hdrop := dropWhile_length isName inptr
  dsimp only at hrest
  generalize inptr.dropWhile isName = left at hrest hdrop
  have hend : ∀ {c : Byte} {p : List Byte}, p.length ≤ left.length - 1 → left ≠ [] →
      (skipEol (p.dropWhile inLine)).length < inptr.length := by
    intro c p hp hne
    have hskip := skipEol_length (p.dropWhile inLine)
    have hline := dropWhile_length inLine p
    have hpos := List.length_pos_iff.mpr hne
    omega
  cases left with
  | nil => cases hrest
  | cons c left =>
      rw [readRest] at hrest
      split at hrest
      · obtain ⟨h'', -, heq⟩ := Option.map_eq_some_iff.mp hrest
        cases heq
        exact hend (c := c) (skipByte_length _ left) (List.cons_ne_nil c left)
      · split at hrest
        · cases hrest
          exact hend (c := c) (dropWhile_length _ left) (List.cons_ne_nil c left)
        · split at hrest
          · cases hrest
            exact hend (c := c) (Nat.le_refl _) (List.cons_ne_nil c left)
          · cases hrest

/-- More rounds than bytes are enough. -/
theorem readLines_fuel {n m : Nat} (hn : inptr.length < n) (hm : inptr.length < m) :
    readLines nval n h inptr = readLines nval m h inptr := by
  induction n generalizing m h inptr with
  | zero => cases hn
  | succ n ih =>
      cases m with
      | zero => cases hm
      | succ m =>
          rw [readLines, readLines]
          cases hline : readLine nval h inptr with
          | none => rfl
          | some line =>
              cases line with
              | stop rest => rfl
              | next h' rest =>
                  have hlt := readLine_length hline
                  exact ih (by omega) (by omega)

/-- The loop, with the rounds that it needs. -/
def readAll (nval : List Byte → Int) (h : Head) (inptr : List Byte) : Option (List HeadEntry × List Byte) :=
  readLines nval (inptr.length + 1) h inptr

theorem readAll_none (hline : readLine nval h inptr = none) : readAll nval h inptr = none := by
  rw [readAll, readLines, hline]

theorem readAll_stop (hline : readLine nval h inptr = some (.stop rest)) :
    readAll nval h inptr = some (h.entries, skipEol rest) := by
  rw [readAll, readLines, hline]

theorem readAll_next (hline : readLine nval h inptr = some (.next h' rest)) :
    readAll nval h inptr = readAll nval h' rest := by
  have hlt := readLine_length hline
  rw [readAll, readLines, hline]
  exact readLines_fuel hlt (Nat.lt_succ_self _)

end

/-! ### Lines of a block -/

section

variable {nval : List Byte → Int} {S : Set (List Byte)} {us : Table} {h : Head} {n v : List Byte}

theorem skipEol_text (e : Eol) (rest : List Byte) : skipEol (e.text ++ rest) = rest := by
  cases e with
  | crlf => rfl
  | lf => rfl

theorem text_of_line {v : List Byte} (hv : ∀ c ∈ v, inLine c = true) (e : Eol) (rest : List Byte) :
    (v ++ (e.text ++ rest)).takeWhile inLine = v ∧ skipEol ((v ++ (e.text ++ rest)).dropWhile inLine) = rest := by
  have htake : (e.text ++ rest).takeWhile inLine = [] := by
    cases e with
    | crlf => rfl
    | lf => rfl
  have hdrop : (e.text ++ rest).dropWhile inLine = e.text ++ rest := by
    cases e with
    | crlf => rfl
    | lf => rfl
  rw [List.takeWhile_append_of_pos hv, List.dropWhile_append_of_pos hv, htake, hdrop, List.append_nil, skipEol_text]
  exact ⟨rfl, rfl⟩

/-- A line without a name leaves an empty one. -/
theorem readLine_noName (nval : List Byte → Int) {c : Byte} (hc : isName c = false)
    (hbuf : h.namebuf.length = maxObjnamelen + 1) (inptr : List Byte) : ∃ namebuf, namebuf.length = maxObjnamelen + 1 ∧
      readLine nval h (c :: inptr) = readRest nval { h with namebuf } (c :: inptr) := by
  have hneg : ¬ isName c = true := by rw [hc]; exact Bool.false_ne_true
  have hfits : 0 + [(0 : Byte)].length ≤ h.namebuf.length := by
    rw [hbuf]
    decide
  have hwrite := Memory.write_of_le hfits
  refine ⟨_, (Memory.write_length hwrite).trans hbuf, ?_⟩
  rw [readLine, readName_eq, List.takeWhile_cons_of_neg hneg, List.dropWhile_cons_of_neg hneg, List.map_nil,
    List.nil_append, hwrite]
  rfl

/-- A line with a name: `namebuf` has the name in lower case, and the value is set. -/
theorem readLine_field (nval : List Byte → Int) (f : Field) (hshort : f.name.length ≤ 63)
    (hbuf : h.namebuf.length = maxObjnamelen + 1)
    (rest : List Byte) : ∃ namebuf, namebuf.length = maxObjnamelen + 1 ∧ cstr namebuf = f.key ∧
      readLine nval h (f.name ++ ch ':' :: ch ' ' :: f.value ++ f.eol.text ++ rest) =
        ({ h with namebuf }.setValue nval f.value).map fun h => .next h rest := by
  have hcolon : ¬ isName (ch ':') = true := by decide
  have hkey : 0 ∉ f.key := by
    intro hzero
    obtain ⟨c, hc, heq⟩ := List.mem_map.mp hzero
    exact isName_lower (f.isName.2 c hc) heq
  have hfits : 0 + (f.key ++ [0]).length ≤ h.namebuf.length := by
    have hmax : maxObjnamelen = 64 := rfl
    rw [hbuf, List.length_append, Field.key, List.length_map, List.length_singleton]
    omega
  have hwrite := Memory.write_of_le hfits
  obtain ⟨htext, hend⟩ := text_of_line f.plain f.eol rest
  have happend : f.name ++ ch ':' :: ch ' ' :: f.value ++ f.eol.text ++ rest =
      f.name ++ ch ':' :: ch ' ' :: (f.value ++ (f.eol.text ++ rest)) := by
    simp only [List.append_assoc, List.cons_append]
  refine ⟨_, (Memory.write_length hwrite).trans hbuf, ?_, ?_⟩
  · rw [List.take_zero, List.nil_append, List.append_assoc, List.singleton_append, cstr_append_zero, cstr_eq hkey]
  · rw [readLine, readName_eq, happend, List.takeWhile_append_of_pos f.isName.2,
      List.dropWhile_append_of_pos f.isName.2, List.takeWhile_cons_of_neg hcolon, List.dropWhile_cons_of_neg hcolon,
      List.append_nil, ← Field.key, hwrite]
    show readRest nval _ (ch ':' :: ch ' ' :: (f.value ++ (f.eol.text ++ rest))) = _
    rw [readRest, if_pos rfl]
    show Option.map _ (Head.setValue nval _ ((f.value ++ (f.eol.text ++ rest)).takeWhile inLine)) = _
    rw [htext]
    show Option.map (fun h => Line.next h (skipEol ((f.value ++ (f.eol.text ++ rest)).dropWhile inLine))) _ = _
    rw [hend]

/-- A line that continues a value. -/
theorem readLine_fold (nval : List Byte → Int) (l : Fold) (hbuf : h.namebuf.length = maxObjnamelen + 1)
    (rest : List Byte) :
    ∃ namebuf, namebuf.length = maxObjnamelen + 1 ∧ readLine nval h (l.line ++ rest) =
      some (.next (({ h with namebuf }.strcat [ch ' ']).strcat l.text) rest) := by
  obtain ⟨hne, hblank⟩ := l.indented
  obtain ⟨hplain, hstart⟩ := l.plain
  obtain ⟨htext, hend⟩ := text_of_line hplain l.eol rest
  cases hindent : l.indent with
  | nil => exact absurd hindent hne
  | cons c indent =>
      rw [hindent] at hblank
      have hc := hblank c List.mem_cons_self
      have hname : isName c = false ∧ c ≠ ch ':' := by
        rw [isBlank, Bool.or_eq_true, beq_iff_eq, beq_iff_eq] at hc
        rcases hc with rfl | rfl
        · decide
        · decide
      have happend : l.line ++ rest = c :: (indent ++ (l.text ++ (l.eol.text ++ rest))) := by
        simp only [Fold.line, hindent, List.append_assoc, List.cons_append]
      have hdrop : (l.text ++ (l.eol.text ++ rest)).dropWhile isBlank = l.text ++ (l.eol.text ++ rest) := by
        cases htext : l.text with
        | nil =>
            cases l.eol with
            | crlf => rfl
            | lf => rfl
        | cons d text =>
            have hd := hstart d (by rw [htext]; rfl)
            exact List.dropWhile_cons_of_neg (by rw [hd]; exact Bool.false_ne_true)
      obtain ⟨namebuf, hlen, hline⟩ := readLine_noName nval hname.1 hbuf
        (indent ++ (l.text ++ (l.eol.text ++ rest)))
      refine ⟨namebuf, hlen, ?_⟩
      rw [happend, hline, readRest, if_neg hname.2, if_pos hc]
      dsimp only
      rw [List.dropWhile_append_of_pos fun d hd => hblank d (List.mem_cons_of_mem c hd), hdrop, htext, hend]

theorem readLine_blank (nval : List Byte → Int) (e : Eol) (hbuf : h.namebuf.length = maxObjnamelen + 1)
    (rest : List Byte) :
    readLine nval h (e.text ++ rest) = some (.stop (e.text ++ rest)) := by
  cases e with
  | crlf =>
      obtain ⟨namebuf, -, hline⟩ := readLine_noName nval (c := ch '\r') (by decide) hbuf (ch '\n' :: rest)
      exact hline
  | lf =>
      obtain ⟨namebuf, -, hline⟩ := readLine_noName nval (c := ch '\n') (by decide) hbuf rest
      exact hline

theorem Reading.rebuf (hr : Reading S us h) {namebuf : List Byte} (hbuf : namebuf.length = maxObjnamelen + 1) :
    Reading S us { h with namebuf } :=
  { hr with buf := hbuf }

/-! ### Blocks -/

/-- The lines that continue a value. -/
theorem folds_run (nval : List Byte → Int) (folds : List Fold) (hr : Reading S (us ++ [(n, v)]) h) (rest : List Byte) :
    ∃ h', readAll nval h (folds.flatMap Fold.line ++ rest) = readAll nval h' rest ∧
      Reading S (us ++ [(n, v ++ folds.flatMap fun l => ch ' ' :: l.text)]) h' := by
  induction folds generalizing h v with
  | nil => exact ⟨h, rfl, by rwa [List.flatMap_nil, List.append_nil]⟩
  | cons l folds ih =>
      obtain ⟨namebuf, hbuf, hline⟩ := readLine_fold nval l hr.buf (folds.flatMap Fold.line ++ rest)
      have hnext := ((hr.rebuf hbuf).strcat [ch ' ']).strcat l.text
      obtain ⟨h', hrun, hr'⟩ := ih hnext
      refine ⟨h', ?_, ?_⟩
      · rw [List.flatMap_cons, List.append_assoc, readAll_next hline, hrun]
      · rw [List.flatMap_cons]
        rw [List.append_assoc, List.append_assoc, List.singleton_append] at hr'
        exact hr'

/-- A field with the lines that continue it. Only the count of its values can stop it. -/
theorem field_run {aton : Aton} (f : Field) (hr : Reading S us h) (hS : Separate aton.nval S) (hf : f.key ∈ S)
    (rest : List Byte) :
    if (valuesOf f.key us).length < 2 ^ 31 then
      ∃ h', readAll aton.nval h (f.lines ++ rest) = readAll aton.nval h' rest ∧ Reading S (us ++ [(f.key, f.whole)]) h'
    else readAll aton.nval h (f.lines ++ rest) = none := by
  have hshort : f.name.length ≤ 63 := by
    have hkey := (hS.valid f.key hf).2
    rwa [Field.key, List.length_map] at hkey
  obtain ⟨namebuf, hbuf, hname, hline⟩ := readLine_field aton.nval f hshort hr.buf
    (f.folds.flatMap Fold.line ++ rest)
  have happend : f.lines ++ rest =
      f.name ++ ch ':' :: ch ' ' :: f.value ++ f.eol.text ++ (f.folds.flatMap Fold.line ++ rest) :=
    List.append_assoc _ _ _
  have hgo : ∀ h', Head.setValue aton.nval { h with namebuf } f.value = some h' →
      Reading S (us ++ [(f.key, f.value)]) h' →
        ∃ h', readAll aton.nval h (f.lines ++ rest) = readAll aton.nval h' rest ∧
          Reading S (us ++ [(f.key, f.whole)]) h' := by
    intro h' hset hr'
    obtain ⟨h'', hrun, hr''⟩ := folds_run aton.nval f.folds hr' rest
    refine ⟨h'', ?_, hr''⟩
    rw [happend, readAll_next (hline.trans (congrArg _ hset)), hrun]
  by_cases hn : f.key ∈ us.map Prod.fst
  · have hset := (hr.rebuf hbuf).set_old (v := f.value) hS hn hname
    split at hset
    · obtain ⟨h', hset, hr'⟩ := hset
      rw [if_pos ‹_›]
      exact hgo h' hset hr'
    · rw [if_neg ‹_›, happend]
      exact readAll_none (hline.trans (congrArg _ hset))
  · have hnil : valuesOf f.key us = [] := valuesOf_eq_nil_iff.mpr hn
    obtain ⟨h', hset, hr'⟩ := (hr.rebuf hbuf).set_new (v := f.value) hS hf hn hname
    have hlt : ([] : List (List Byte)).length < 2 ^ 31 := Nat.two_pow_pos 31
    rw [hnil, if_pos hlt]
    exact hgo h' hset hr'

/-- The fields of a block: where their loop returns, it has read them, and it returns unless a name has too many
values. -/
theorem fields_run {aton : Aton} (fields : List Field) (hS : Separate aton.nval S) (hf : ∀ f ∈ fields, f.key ∈ S)
    (hr : Reading S us h) (blank : Eol) (rest : List Byte) :
    (∀ r, readAll aton.nval h (fields.flatMap Field.lines ++ (blank.text ++ rest)) = some r →
      ∃ h', r = (h'.entries, rest) ∧ Reading S (us ++ fields.map fun f => (f.key, f.whole)) h') ∧
    ((∀ n, (valuesOf n (us ++ fields.map fun f => (f.key, f.whole))).length ≤ 2 ^ 31) →
      ∃ r, readAll aton.nval h (fields.flatMap Field.lines ++ (blank.text ++ rest)) = some r) := by
  induction fields generalizing us h with
  | nil =>
      have hstop := readAll_stop (readLine_blank aton.nval blank hr.buf rest)
      rw [skipEol_text] at hstop
      refine ⟨fun r hrun => ⟨h, ?_, by rwa [List.map_nil, List.append_nil]⟩, fun _ => ⟨_, hstop⟩⟩
      exact (Option.some.inj (hstop.symm.trans hrun)).symm
  | cons f fields ih =>
      have hfield := field_run f hr hS (hf f List.mem_cons_self) (fields.flatMap Field.lines ++ (blank.text ++ rest))
      have happend : ∀ vs : Table, us ++ (f.key, f.whole) :: vs = (us ++ [(f.key, f.whole)]) ++ vs := fun vs => by
        rw [List.append_assoc, List.singleton_append]
      rw [List.flatMap_cons, List.append_assoc, List.map_cons, happend]
      split at hfield
      · obtain ⟨h', hrun, hr'⟩ := hfield
        rw [hrun]
        exact ih (fun g hg => hf g (List.mem_cons_of_mem f hg)) hr'
      · rename_i hmany
        rw [hfield]
        refine ⟨fun r hrun => absurd hrun.symm (Option.some_ne_none r), fun hcount => absurd (hcount f.key) ?_⟩
        rw [valuesOf_append, valuesOf_same, List.length_append, List.length_append, List.length_singleton]
        omega

end

/-! ### Short names -/

section

variable {nval : List Byte → Int} {h h' : Head} {inptr rest : List Byte}

/-- The names of the entries, as `n_setname` leaves them. -/
def Head.ShortNames (h : Head) : Prop := ∀ n ∈ h.entries.map HeadEntry.name, n.length ≤ 63

theorem names_modify {f : HeadEntry → HeadEntry} (hf : ∀ e, (f e).name = e.name) (entries : List HeadEntry) (k : Nat) :
    (entries.modify k f).map HeadEntry.name = entries.map HeadEntry.name := by
  induction entries generalizing k with
  | nil => rw [List.modify_nil]
  | cons e entries ih =>
      cases k with
      | zero => rw [List.modify_zero_cons, List.map_cons, List.map_cons, hf]
      | succ k => rw [List.modify_succ_cons, List.map_cons, List.map_cons, ih]

theorem Head.ShortNames.modify (hs : h.ShortNames) {f : HeadEntry → HeadEntry} (hf : ∀ e, (f e).name = e.name)
    (namebuf : List Byte) (k : Nat) (cobj : Option (Nat × Option Nat)) :
    Head.ShortNames ⟨namebuf, h.entries.modify k f, cobj⟩ := by
  unfold Head.ShortNames
  dsimp only
  rw [names_modify hf]
  exact hs

theorem Head.ShortNames.strcat (hs : h.ShortNames) (text : List Byte) : (h.strcat text).ShortNames := by
  unfold Head.strcat
  split
  · exact hs
  · exact hs.modify (by intro e; rfl) _ _ _

theorem Head.ShortNames.setNumber (hs : h.ShortNames) {k size : Nat} {t : SortedTable} {value : List Byte}
    (hset : h.setNumber nval k t size value = some h') : h'.ShortNames := by
  obtain ⟨namebuf, -, hset⟩ := Option.bind_eq_some_iff.mp hset
  rw [← Option.some.inj hset]
  exact hs.modify (by intro e; rfl) _ _ _

theorem Head.ShortNames.setValue (hs : h.ShortNames) {value : List Byte} (hset : h.setValue nval value = some h') :
    h'.ShortNames := by
  unfold Head.setValue at hset
  dsimp only at hset
  split at hset
  · split at hset
    · cases hset
      exact hs
    · cases hset
      intro n hn
      rw [List.map_append, List.mem_append, List.map_singleton, List.mem_singleton] at hn
      rcases hn with hn | rfl
      · exact hs n hn
      · exact List.length_take_le _ _
  · obtain ⟨e, -, hset⟩ := Option.bind_eq_some_iff.mp hset
    split at hset
    · exact hs.setNumber hset
    · obtain ⟨size, -, hset⟩ := Option.bind_eq_some_iff.mp hset
      exact hs.setNumber hset

theorem readLine_shortNames (hs : h.ShortNames) (hline : readLine nval h inptr = some (.next h' rest)) :
    h'.ShortNames := by
  obtain ⟨r, -, hrest⟩ := Option.bind_eq_some_iff.mp hline
  have hs' : ({ h with namebuf := r.1 } : Head).ShortNames := hs
  unfold readRest at hrest
  split at hrest
  · cases hrest
  · split at hrest
    · obtain ⟨h'', hset, heq⟩ := Option.map_eq_some_iff.mp hrest
      cases heq
      exact hs'.setValue hset
    · split at hrest
      · cases hrest
        exact (hs'.strcat _).strcat _
      · split at hrest
        · cases hrest
          exact hs'
        · cases hrest

/-- Whatever is read, the names of the entries are short. -/
theorem readLines_shortNames {n : Nat} {entries : List HeadEntry} (hs : h.ShortNames)
    (hrun : readLines nval n h inptr = some (entries, rest)) : ∀ e ∈ entries, e.name.length ≤ 63 := by
  induction n generalizing h inptr with
  | zero => cases hrun
  | succ n ih =>
      rw [readLines] at hrun
      cases hline : readLine nval h inptr with
      | none =>
          rw [hline] at hrun
          cases hrun
      | some line =>
          rw [hline] at hrun
          cases line with
          | stop p =>
              cases hrun
              exact fun e he => hs e.name (List.mem_map_of_mem he)
          | next h'' p => exact ih (readLine_shortNames hs hline) hrun

end

/-! ### The header block -/

section

variable {nval : List Byte → Int} {b : Block} {rest : List Byte}

/-- An entry that is found is one of the entries. -/
theorem mem_of_getObj {entries : List HeadEntry} {oname : List Byte} {e : HeadEntry}
    (h : getObj nval entries oname = some e) : e ∈ entries := List.mem_of_find?_eq_some h

theorem getObj_of_clash {p p' : List Byte} (h : Clash nval p p') (entries : List HeadEntry) :
    getObj nval entries p = getObj nval entries p' := by
  have hsame : found nval p = found nval p' := by
    funext name
    rw [found, found, if_pos h.1, if_pos (h.2 ▸ h.1), h.2]
  rw [getObj, getObj, hsame]

/-- The names of a block that is read are short, and no two of them are numerals of one number. -/
theorem names_of_read (h : b.Read nval rest) : (∀ f ∈ b.fields, f.name.length ≤ 63) ∧
    ∀ f ∈ b.fields, ∀ g ∈ b.fields, Clash nval f.key g.key → f.key = g.key := by
  obtain ⟨entries, hrun, hread⟩ := h
  constructor
  · intro f hf
    obtain ⟨c, hget, -⟩ := hread f hf
    have hshort := readLines_shortNames (fun n hn => absurd hn List.not_mem_nil) hrun _ (mem_of_getObj hget)
    rwa [Field.key, List.length_map] at hshort
  · intro f hf g hg hclash
    obtain ⟨c, hget, -⟩ := hread f hf
    obtain ⟨d, hget', -⟩ := hread g hg
    rw [getObj_of_clash hclash, hget'] at hget
    exact (congrArg HeadEntry.name (Option.some.inj hget)).symm

/-- The names of a block are separate where they are short and no two are numerals of one number. -/
theorem separate_keys (hshort : ∀ f ∈ b.fields, f.name.length ≤ 63)
    (hnum : ∀ f ∈ b.fields, ∀ g ∈ b.fields, Clash nval f.key g.key → f.key = g.key) :
    Separate nval {p | ∃ f ∈ b.fields, f.key = p} where
  valid := by
    rintro p ⟨f, hf, rfl⟩
    refine ⟨fun hnil => f.isName.1 (List.map_eq_nil_iff.mp hnil), ?_⟩
    rw [Field.key, List.length_map]
    exact hshort f hf
  found := by
    rintro p ⟨f, hf, rfl⟩ q ⟨g, hg, rfl⟩ hfound
    by_contra hne
    have hnot := Httpd.not_found hne fun hclash => hne (hnum g hg f hf hclash)
    rw [hnot] at hfound
    cases hfound

theorem reading_start (S : Set (List Byte)) : Reading S [] ⟨List.replicate (maxObjnamelen + 1) 0, [], none⟩ where
  buf := List.length_replicate
  mem := fun _ hv => absurd hv List.not_mem_nil
  nodup := List.nodup_nil
  names := fun _ => Iff.rfl
  stores := fun _ he => absurd he List.not_mem_nil
  count := fun _ => Nat.zero_le _
  last := fun us _ _ heq => absurd heq.symm (List.append_ne_nil_of_right_ne_nil us (List.cons_ne_nil _ _))

/-- The loop over a block whose names are separate. -/
theorem block_run (aton : Aton) (hS : Separate aton.nval {p | ∃ f ∈ b.fields, f.key = p}) (rest : List Byte) :
    (∀ r, mimeReadHead aton.nval (b.text ++ rest) = some r →
      ∃ h, r = (h.entries, rest) ∧ Reading {p | ∃ f ∈ b.fields, f.key = p} b.values h) ∧
    ((∀ n, (valuesOf n b.values).length ≤ 2 ^ 31) → ∃ r, mimeReadHead aton.nval (b.text ++ rest) = some r) := by
  have hrun := fields_run b.fields hS (fun f hf => ⟨f, hf, rfl⟩) (reading_start _) b.blank rest
  rw [List.nil_append, ← List.append_assoc] at hrun
  exact hrun

/-- The entry of a name that has been read is found. -/
theorem Reading.getObj {S : Set (List Byte)} {vs : Table} {h : Head} {n : List Byte} (hr : Reading S vs h)
    (hS : Separate nval S) (hn : n ∈ vs.map Prod.fst) :
    ∃ c, getObj nval h.entries n = some ⟨n, c⟩ ∧ c.Stores (valuesOf n vs) := by
  obtain ⟨A, c, B, hentries⟩ := hr.entry hn
  obtain ⟨u, hu, hname⟩ := List.mem_map.mp hn
  have hfind := hr.findIdx hS (hname ▸ hr.mem u hu) hentries
  refine ⟨c, ?_, hr.stores ⟨n, c⟩ (hentries ▸ List.mem_append_right A List.mem_cons_self)⟩
  rw [Mime.getObj, List.find?_eq_bind_findIdx?_getElem?, hfind, Option.bind_some, hentries,
    List.getElem?_append_right (Nat.le_refl _), Nat.sub_self, List.getElem?_cons_zero]

theorem cut_eq_iff (v : List Byte) (l : List (List Byte)) : cut (v :: l) = v :: l ↔ v.length < 2 ^ 32 := by
  rw [cut, List.cons.injEq, List.take_eq_self_iff]
  constructor
  · rintro ⟨hle, -⟩
    have hlt := Nat.mod_lt v.length (Nat.two_pow_pos 32)
    omega
  · intro hlt
    exact ⟨(Nat.mod_eq_of_lt hlt).symm.le, rfl⟩

theorem numbered_injective {l l' : List (List Byte)} (h : numbered l = numbered l') : l = l' := by
  refine List.ext_getElem? fun i => ?_
  have hi := congrArg (fun t : Table => t[i]?.map Prod.snd) h
  simpa [numbered, Function.comp_def] using hi

/-- What an entry stores are the values, where the first of several is not cut. -/
theorem holds_iff_of_stores {c : HeadVal} {l : List (List Byte)} (h : c.Stores l) :
    c.Holds l ↔ ∀ v w m, l = v :: w :: m → v.length < 2 ^ 32 := by
  cases c with
  | str s =>
      have hone : l = [s] := h
      refine ⟨fun _ v w m heq => ?_, fun _ => hone⟩
      rw [hone] at heq
      cases heq
  | table t =>
      obtain ⟨hlen, ht, -⟩ := h
      constructor
      · rintro ⟨-, hentries⟩ v w m rfl
        exact (cut_eq_iff v (w :: m)).mp (numbered_injective (ht.symm.trans hentries))
      · intro hfirst
        cases l with
        | nil => exact absurd hlen (by decide)
        | cons v l =>
            cases l with
            | nil => exact absurd hlen (Nat.not_succ_le_self 1)
            | cons w m => exact ⟨hlen, by rw [ht, (cut_eq_iff v (w :: m)).mpr (hfirst v w m rfl)]⟩

/-- A header block is read to its end, with `head[name]` the value or the table of the values of each name, exactly
where the names are short and no two of them are numerals of one number, a first value that gets others behind it is
short enough for its size, and no name comes too often. -/
theorem mimeReadHead_iff (aton : Aton) (b : Block) (rest : List Byte) : b.Read aton.nval rest ↔ b.Clean aton.nval := by
  constructor
  · intro hread
    obtain ⟨hshort, hnum⟩ := names_of_read hread
    have hS := separate_keys hshort hnum
    obtain ⟨entries, hrun, hread⟩ := hread
    obtain ⟨h, heq, hr⟩ := (block_run aton hS rest).1 _ hrun
    obtain ⟨rfl, -⟩ := Prod.mk.inj heq
    refine ⟨hshort, hnum, fun f hf => ?_, fun f hf => hr.count f.key⟩
    obtain ⟨c, hget, hholds⟩ := hread f hf
    obtain ⟨d, hget', hstores⟩ := hr.getObj hS (n := f.key) (List.mem_map.mpr ⟨_, List.mem_map_of_mem hf, rfl⟩)
    have hsame : c = d := congrArg HeadEntry.content (Option.some.inj (hget.symm.trans hget'))
    exact (holds_iff_of_stores hstores).mp (hsame ▸ hholds)
  · intro hclean
    have hS := separate_keys hclean.short hclean.numerals
    have hcount : ∀ n, (valuesOf n b.values).length ≤ 2 ^ 31 := by
      intro n
      by_cases hn : n ∈ b.values.map Prod.fst
      · obtain ⟨v, hv, rfl⟩ := List.mem_map.mp hn
        obtain ⟨f, hf, rfl⟩ := List.mem_map.mp hv
        exact hclean.count f hf
      · rw [valuesOf_eq_nil_iff.mpr hn]
        exact Nat.zero_le _
    obtain ⟨r, hrun⟩ := (block_run aton hS rest).2 hcount
    obtain ⟨h, rfl, hr⟩ := (block_run aton hS rest).1 r hrun
    refine ⟨h.entries, hrun, fun f hf => ?_⟩
    obtain ⟨c, hget, hstores⟩ := hr.getObj hS (n := f.key) (List.mem_map.mpr ⟨_, List.mem_map_of_mem hf, rfl⟩)
    exact ⟨c, hget, (holds_iff_of_stores hstores).mpr (hclean.first f hf)⟩

end

theorem overlong_isName : List.replicate 65 (ch 'a') ≠ [] ∧ ∀ c ∈ List.replicate 65 (ch 'a'), isName c = true :=
  ⟨List.cons_ne_nil _ _, fun c hc => by rw [List.eq_of_mem_replicate hc]; decide⟩

theorem overlong_plain : ∀ c ∈ bytes "v", inLine c = true := List.all_eq_true.mp (by decide)

/-- A header with a name of 65 letters. -/
def overlong : Block :=
  ⟨[⟨List.replicate 65 (ch 'a'), bytes "v", .crlf, [], overlong_isName, overlong_plain⟩], .crlf⟩

/-- Its NUL is written behind `namebuf`. -/
theorem not_read_overlong : ¬ ∀ (b : Block) (rest : List Byte), b.Read Aton.exact.nval rest := by
  intro hall
  obtain ⟨entries, hrun, -⟩ := hall overlong []
  have hnone : (mimeReadHead Aton.exact.nval (overlong.text ++ [])).isNone = true := by decide +kernel
  rw [hrun] at hnone
  cases hnone

end NullG.Libs.Mime
