/-
dBase files (`libs/data/dbf.c`).

`getnext` takes the records from a buffer for 256 of them, flags included, that is filled again when it is empty, and a
row is a table under the names of the fields. So the rows come back in their order, but for three things: a field whose
name is empty is not set, two names that are digits of one number are one entry of the table, and a row of one byte
whose flag is a 26 is taken for the end of the file (`records_iff`).
-/

import NullG.Lib.LittleEndian
import NullG.Lib.Refill
import NullG.Lib.Successive
import NullG.Nsp.Append
import Mathlib.Data.List.DropRight

namespace NullG.Libs.Dbf

open NullG.Lib NullG.Lib.LittleEndian
open NullG.Nsp hiding decimal

/-! ### The code -/

/-- `get_short`. -/
def getShort (cp : List Byte) : Int := (decode (cp.take 2) : Int).bmod (2 ^ 16)

/-- `hlen`: the `short` of the header as an `unsigned long`. -/
def hlen (header : List Byte) : Nat := (getShort (header.drop 8) % 2 ^ 64).toNat

/-- `dbf_flen`. -/
def flen (field : List Byte) : Nat := (field.getD 16 0).toNat

/-- What `DBF_CONN` has of an open file. The place in the file is `offset` until the fields are read. -/
structure Conn where
  fields : List (List Byte)
  rowsize : Nat
  pos : Nat
  recbuf : Option (List Byte) := none
  recbuflen : Nat := 0
  recbufoffset : Nat := 0

/-- What opening a file leaves: a connection, nothing, or a field behind the last one that there is room for. -/
inductive Opened where
  | ready (c : Conn)
  | error
  | overrun

/-- The loop that reads the fields. `fbuf` is what it finds in `fbuf` when there is nothing to read. -/
def readFields (fbuf : Byte) (file : List Byte) (hlen : Nat) (c : Conn) : Opened :=
  if c.pos + 32 > hlen then
    if (file.drop c.pos).head?.getD fbuf = 13 then .ready { c with pos := c.pos + ((file.drop c.pos).take 1).length }
    else .error
  else if 64 ≤ c.fields.length then .overrun
  else
    let field := (file.drop c.pos).take 32
    if field.length ≠ 32 then .error
    else readFields fbuf file hlen
      { c with fields := c.fields ++ [field], rowsize := c.rowsize + flen field, pos := c.pos + 32 }
termination_by 64 - c.fields.length
decreasing_by
  rw [List.length_append, List.length_singleton]
  omega

/-- `libnsp_data_dbf_open`, of a file that was opened. -/
def dbfOpen (fbuf : Byte) (file : List Byte) : Opened :=
  let header := file.take 32
  if header.length ≠ 32 then .error else readFields fbuf file (hlen header) { fields := [], rowsize := 0, pos := 32 }

/-- A table that is not sorted: its names and their strings. -/
abbrev Row := List (List Byte × List Byte)

/-- `cmp` of `n_locateobj`. -/
def cmp (oname name : List Byte) : Int :=
  if nameNval oname > -1 then nameNval name - nameNval oname else nameCmp name oname

/-- `n_locateobj` in a table that is not sorted, and what `nsp_setstr` leaves there. -/
def locate (oname str : List Byte) : Row → Row
  | [] => [(clip oname, str)]
  | (name, s) :: row => if cmp oname name = 0 then (name, str) :: row else (name, s) :: locate oname str row

/-- `nsp_setstr`. -/
def setstr (oname str : List Byte) (row : Row) : Row := if oname = [] then row else locate oname str row

/-- `while (plen > 1 && p1[plen - 1] == ' ') plen--`. -/
def trimmed (p1 : List Byte) : Nat → Nat
  | n + 2 => if p1[n + 1]? = some (ch ' ') then trimmed p1 (n + 1) else n + 2
  | plen => plen

/-- The loop over the fields. A name ends with the first NUL behind its first byte, wherever that is. -/
def setFields : List (List Byte) → List Byte → Row → Row
  | [], _, row => row
  | field :: fields, p1, row =>
      setFields fields (p1.drop (flen field))
        (setstr (cstr (field ++ fields.flatten)) (p1.take (trimmed p1 (flen field))) row)

/-- What `libnsp_data_dbf_getnext` returns. -/
inductive Next where
  | row (row : Row) (c : Conn)
  | null (c : Conn)
  | mismatch

/-- The buffer, made of `mem` by the first call, and filled when it is empty. -/
def Conn.filled (file mem : List Byte) (c : Conn) : Conn :=
  let c := if c.recbuf.isNone then { c with recbuf := some mem, recbuflen := 0, recbufoffset := 0 } else c
  if c.recbuflen = c.recbufoffset then
    let data := (file.drop c.pos).take (c.rowsize * 256 + 256)
    { c with
      recbuf := some (data ++ (c.recbuf.getD []).drop data.length)
      recbuflen := data.length
      recbufoffset := 0
      pos := c.pos + data.length }
  else c

/-- `libnsp_data_dbf_getnext`. -/
def getnext (file mem : List Byte) (c : Conn) : Next :=
  let c := c.filled file mem
  let buf := c.recbuf.getD []
  let r := min (c.recbuflen - c.recbufoffset : Int) c.rowsize
  if r = 1 ∧ buf[c.recbufoffset]? = some 26 then .null c
  else if r = 0 then .null c
  else if r ≠ c.rowsize then .mismatch
  else
    .row (setFields c.fields (buf.drop (c.recbufoffset + 1)) [])
      { c with recbufoffset := c.recbufoffset + c.rowsize + 1 }

/-- The calls of `getnext` return these rows, and then null. -/
def Reads (file mem : List Byte) : Conn → List Row → Prop :=
  Yields (fun c row c' => getnext file mem c = .row row c') fun c => ∃ c', getnext file mem c = .null c'

/-! ### Files -/

/-- A field: its name, ended by a NUL within eleven bytes, and its length. -/
structure Field where
  name : List Byte
  pad : List Byte
  type : List Byte
  len : Byte
  stub : List Byte
  nulFree : 0 ∉ name
  namelen : name.length + 1 + pad.length = 11
  typelen : type.length = 5
  positive : len ≠ 0
  stublen : stub.length = 15

def Field.bytes (f : Field) : List Byte := f.name ++ 0 :: f.pad ++ f.type ++ f.len :: f.stub

/-- A record: its flag and the bytes of its fields. -/
structure Record where
  flag : Byte
  data : List Byte

def Record.bytes (r : Record) : List Byte := r.flag :: r.data

/-- The bytes of a row, without its flag. -/
def rowsize (fields : List Field) : Nat := (fields.map fun f => f.len.toNat).sum

/-- A file as the format has it. -/
structure File where
  front : List Byte
  back : List Byte
  fields : List Field
  records : List Record
  ended : Bool
  frontlen : front.length = 8
  backlen : back.length = 22
  some_field : fields ≠ []
  room : fields.length ≤ 64
  distinct : (fields.map Field.name).Nodup
  width : ∀ r ∈ records, r.data.length = rowsize fields

/-- The end of a file. -/
def File.tail (f : File) : List Byte := if f.ended then [26] else []

/-- The header, the fields and the byte behind them. -/
def File.head (f : File) : List Byte :=
  f.front ++ encode 2 (33 + 32 * f.fields.length) ++ f.back ++ f.fields.flatMap Field.bytes ++ [13]

def File.bytes (f : File) : List Byte := f.head ++ (f.records.flatMap Record.bytes ++ f.tail)

/-- The bytes of the fields, one after the other. -/
def slices : List Field → List Byte → List (List Byte)
  | [], _ => []
  | f :: fields, data => data.take f.len.toNat :: slices fields (data.drop f.len.toNat)

/-- Without the spaces at the end, but for a first one. -/
def stripped (s : List Byte) : List Byte :=
  if s.rdropWhile (· == ch ' ') = [] then s.take 1 else s.rdropWhile (· == ch ' ')

/-- The row of a record. -/
def row (fields : List Field) (r : Record) : Row :=
  (fields.map Field.name).zip ((slices fields r.data).map stripped)

/-- The file is opened, and its rows come back, whatever is in the memory. -/
def ReadsBack (f : File) : Prop :=
  ∀ fbuf mem, ∃ c, dbfOpen fbuf f.bytes = .ready c ∧ Reads f.bytes mem c (f.records.map (row f.fields))

/-- Two names that are digits of one number. -/
def SameNumber (p q : List Byte) : Prop :=
  allDigits p = true ∧ allDigits q = true ∧ NullG.Nsp.decimal p = NullG.Nsp.decimal q

/-- The names are entries of their own. -/
def Separate (fields : List Field) : Prop :=
  (∀ f ∈ fields, f.name ≠ []) ∧ (fields.map Field.name).Pairwise fun p q => ¬ SameNumber p q

/-- If rows have one byte, no flag is a 26; and if there are rows, the names are entries of their own. -/
def Readable (f : File) : Prop :=
  (rowsize f.fields = 1 → ∀ r ∈ f.records, r.flag ≠ 26) ∧ (f.records ≠ [] → Separate f.fields)

/-! ### Opening -/

section Open

variable {file : List Byte} {c : Conn}

theorem length_fieldBytes (f : Field) : f.bytes.length = 32 := by
  have hname := f.namelen
  rw [Field.bytes, List.length_append, List.length_append, List.length_append, List.length_cons, List.length_cons,
    f.typelen, f.stublen]
  omega

theorem flen_bytes (f : Field) : flen f.bytes = f.len.toNat := by
  have hbefore : (f.name ++ 0 :: f.pad ++ f.type).length = 16 := by
    have hname := f.namelen
    rw [List.length_append, List.length_append, List.length_cons, f.typelen]
    omega
  rw [flen, Field.bytes, List.getD_eq_getElem?_getD, List.getElem?_append_right (hbefore ▸ Nat.le_refl _), hbefore]
  rfl

theorem cstr_bytes (f : Field) (rest : List Byte) : cstr (f.bytes ++ rest) = f.name := by
  rw [cstr, Field.bytes, List.append_assoc, List.append_assoc, List.append_assoc, List.takeWhile_append_of_pos]
  · rw [List.cons_append, List.takeWhile_cons_of_neg (by simp), List.append_nil]
  · intro c hc
    simpa using fun h : c = 0 => f.nulFree (h ▸ hc)

theorem length_flatMap_bytes (fields : List Field) : (fields.flatMap Field.bytes).length = 32 * fields.length := by
  induction fields with
  | nil => rfl
  | cons f fields ih =>
      rw [List.flatMap_cons, List.length_append, length_fieldBytes, ih, List.length_cons]
      omega

theorem rowsize_cons (f : Field) (fields : List Field) : rowsize (f :: fields) = f.len.toNat + rowsize fields := rfl

/-- The loop reads the fields up to the byte behind them. -/
theorem readFields_run (fbuf : Byte) {n : Nat} (hn : n ≤ 64) (rest : List Byte) (fields : List Field) (c : Conn)
    (hpos : c.pos = 32 + 32 * c.fields.length) (hlen : c.fields.length + fields.length = n)
    (hdrop : file.drop c.pos = fields.flatMap Field.bytes ++ 13 :: rest) :
    readFields fbuf file (33 + 32 * n) c = .ready { c with
      fields := c.fields ++ fields.map Field.bytes
      rowsize := c.rowsize + rowsize fields
      pos := c.pos + 32 * fields.length + 1 } := by
  induction fields generalizing c with
  | nil =>
      rw [List.length_nil, Nat.add_zero] at hlen
      rw [List.flatMap_nil, List.nil_append] at hdrop
      have hend : (13 :: rest).head?.getD fbuf = 13 := rfl
      rw [readFields, if_pos (by omega), hdrop, if_pos hend, List.map_nil, List.append_nil]
      rfl
  | cons f fields ih =>
      rw [List.length_cons] at hlen
      have htake : (file.drop c.pos).take 32 = f.bytes := by
        rw [hdrop, List.flatMap_cons, List.append_assoc, ← length_fieldBytes f, List.take_left]
      rw [readFields, if_neg (by omega), if_neg (by omega), htake]
      dsimp only
      rw [if_neg (not_not.mpr (length_fieldBytes f)), ih]
      · rw [flen_bytes, rowsize_cons, List.append_assoc, List.length_cons, List.map_cons, Nat.add_assoc c.rowsize,
          List.singleton_append]
        congr 2
        dsimp only
        omega
      · dsimp only
        rw [List.length_append, List.length_singleton]
        omega
      · dsimp only
        rw [List.length_append, List.length_singleton]
        omega
      · dsimp only
        rw [← List.drop_drop, hdrop, List.flatMap_cons, List.append_assoc, List.drop_left' (length_fieldBytes f)]

/-- A connection to a file whose fields were read. -/
def opened (f : File) : Conn where
  fields := f.fields.map Field.bytes
  rowsize := rowsize f.fields
  pos := 33 + 32 * f.fields.length

theorem length_header (f : File) : (f.front ++ encode 2 (33 + 32 * f.fields.length) ++ f.back).length = 32 := by
  rw [List.length_append, List.length_append, length_encode, f.frontlen, f.backlen]

theorem hlen_header (f : File) :
    hlen (f.front ++ encode 2 (33 + 32 * f.fields.length) ++ f.back) = 33 + 32 * f.fields.length := by
  have hroom := f.room
  generalize hn : 33 + 32 * f.fields.length = n
  have hlt : n < 256 ^ 2 := Nat.lt_of_le_of_lt (show n ≤ 2081 by omega) (by decide)
  have hshort : getShort ((f.front ++ encode 2 n ++ f.back).drop 8) = n := by
    have hdecode : decode (((f.front ++ encode 2 n ++ f.back).drop 8).take 2) = n := by
      rw [List.append_assoc, List.drop_left' f.frontlen, List.take_left' (length_encode 2 n), decode_encode_of_lt hlt]
    unfold getShort
    rw [hdecode]
    exact Int.bmod_eq_of_le (by omega) (by omega)
  rw [hlen, hshort, Int.emod_eq_of_lt (Int.natCast_nonneg n) (by omega), Int.toNat_natCast]

theorem length_head (f : File) : f.head.length = 33 + 32 * f.fields.length := by
  rw [File.head, List.length_append, List.length_append, length_header, length_flatMap_bytes, List.length_singleton]
  omega

theorem dbfOpen_run (f : File) (fbuf : Byte) : dbfOpen fbuf f.bytes = .ready (opened f) := by
  have hbytes : f.bytes = f.front ++ encode 2 (33 + 32 * f.fields.length) ++ f.back ++
      (f.fields.flatMap Field.bytes ++ 13 :: (f.records.flatMap Record.bytes ++ f.tail)) := by
    simp only [File.bytes, File.head, List.append_assoc, List.singleton_append]
  have htake : f.bytes.take 32 = f.front ++ encode 2 (33 + 32 * f.fields.length) ++ f.back := by
    rw [hbytes, List.take_left' (length_header f)]
  have hdrop : f.bytes.drop 32 = f.fields.flatMap Field.bytes ++ 13 :: (f.records.flatMap Record.bytes ++ f.tail) := by
    rw [hbytes, List.drop_left' (length_header f)]
  rw [dbfOpen, htake, if_neg (not_not.mpr (length_header f)), hlen_header,
    readFields_run fbuf f.room _ f.fields _ rfl (Nat.zero_add _) hdrop, opened]
  congr 2
  · exact Nat.zero_add _
  · dsimp only
    omega

theorem drop_opened (f : File) : f.bytes.drop (opened f).pos = f.records.flatMap Record.bytes ++ f.tail := by
  rw [File.bytes, opened, List.drop_left' (length_head f)]

end Open

/-! ### The row of a record -/

section Rows

variable {data : List Byte}

theorem trimmed_succ (p1 : List Byte) (n : Nat) :
    trimmed p1 (n + 2) = if p1[n + 1]? = some (ch ' ') then trimmed p1 (n + 1) else n + 2 := rfl

theorem stripped_space {s : List Byte} (hs : s ≠ []) : stripped (s ++ [ch ' ']) = stripped s := by
  have htake : (s ++ [ch ' ']).take 1 = s.take 1 :=
    List.take_append_of_le_length (List.length_pos_of_ne_nil hs)
  rw [stripped, stripped, List.rdropWhile_concat_pos _ _ _ (by simp), htake]

theorem stripped_other (s : List Byte) {c : Byte} (hc : c ≠ ch ' ') : stripped (s ++ [c]) = s ++ [c] := by
  rw [stripped, List.rdropWhile_concat_neg _ _ _ (by simpa using hc), if_neg (List.concat_ne_nil c s)]

theorem stripped_singleton (c : Byte) : stripped [c] = [c] := by
  rw [stripped, List.rdropWhile_singleton]
  split
  · rfl
  · split
    · rfl
    · rfl

/-- What is left of a field. -/
theorem take_trimmed {n : Nat} (hn : n < data.length) (more : List Byte) :
    (data ++ more).take (trimmed (data ++ more) (n + 1)) = stripped (data.take (n + 1)) := by
  induction n with
  | zero =>
      obtain ⟨c, data, rfl⟩ := List.exists_cons_of_length_pos hn
      exact (stripped_singleton c).symm
  | succ n ih =>
      have hlt : n < data.length := Nat.lt_of_succ_lt hn
      have hsplit : data.take (n + 1 + 1) = data.take (n + 1) ++ [data[n + 1]] := List.take_succ_eq_append_getElem hn
      have hne : data.take (n + 1) ≠ [] := List.ne_nil_of_length_pos (by rw [List.length_take]; omega)
      rw [trimmed_succ, List.getElem?_append_left hn, List.getElem?_eq_getElem hn, hsplit]
      split
      · rename_i hspace
        rw [ih hlt, Option.some.inj hspace, stripped_space hne]
      · rename_i hother
        rw [stripped_other _ fun h => hother (congrArg some h), ← hsplit, List.take_append_of_le_length hn]

/-- Settings one after the other. -/
def setAll (kvs : Row) (row : Row) : Row := kvs.foldl (fun row kv => setstr kv.1 kv.2 row) row

/-- The loop over the fields sets each slice under the name of its field. -/
theorem setFields_run (fields : List Field) (more : List Byte) (hdata : data.length = rowsize fields) (row : Row) :
    setFields (fields.map Field.bytes) (data ++ more) row =
      setAll ((fields.map Field.name).zip ((slices fields data).map stripped)) row := by
  induction fields generalizing data row with
  | nil => rfl
  | cons f fields ih =>
      rw [rowsize_cons] at hdata
      obtain ⟨n, hn⟩ : ∃ n, f.len.toNat = n + 1 := Nat.exists_eq_succ_of_ne_zero fun h =>
        f.positive (UInt8.toNat_inj.mp h)
      have hlen : (data.drop f.len.toNat).length = rowsize fields := by
        rw [List.length_drop]
        omega
      have hrest := ih hlen (setstr f.name (stripped (data.take f.len.toNat)) row)
      rw [List.map_cons, setFields, cstr_bytes, flen_bytes, List.drop_append_of_le_length (by omega)]
      rw [hn] at hrest ⊢
      rw [take_trimmed (by omega), hrest, slices, hn]
      rfl

/-! ### The names of a row -/

theorem cmp_eq_zero_iff {k p : List Byte} (hk : 0 ∉ k) (hp : 0 ∉ p) : cmp k p = 0 ↔ p = k ∨ SameNumber p k := by
  unfold cmp
  split
  · rename_i hnum
    have hk' := nameNval_gt_iff.mp hnum
    constructor
    · intro h
      have hp' : allDigits p = true := nameNval_gt_iff.mp (by omega)
      rw [nameNval_numeral hk', nameNval_numeral hp'] at h
      exact .inr ⟨hp', hk', by omega⟩
    · rintro (rfl | ⟨hp', -, hdecimal⟩)
      · omega
      · rw [nameNval_numeral hk', nameNval_numeral hp']
        omega
  · rename_i hnum
    constructor
    · exact fun h => .inl (eq_of_nameCmp hp hk h)
    · rintro (rfl | ⟨-, hk', -⟩)
      · have := nameCmp_swap p p
        omega
      · exact absurd (nameNval_gt_iff.mpr hk') hnum

theorem locate_new {oname : List Byte} (hclip : clip oname = oname) (str : List Byte) {row : Row}
    (h : ∀ e ∈ row, cmp oname e.1 ≠ 0) : locate oname str row = row ++ [(oname, str)] := by
  induction row with
  | nil => rw [locate, hclip, List.nil_append]
  | cons e row ih =>
      rw [locate, if_neg (h e List.mem_cons_self), ih fun e' he' => h e' (List.mem_cons_of_mem e he'), List.cons_append]

theorem length_locate_old {oname str : List Byte} {row : Row} (h : ∃ e ∈ row, cmp oname e.1 = 0) :
    (locate oname str row).length = row.length := by
  induction row with
  | nil => exact absurd h fun ⟨e, he, _⟩ => List.not_mem_nil he
  | cons e row ih =>
      rw [locate]
      split
      · rfl
      · rename_i hother
        obtain ⟨e', he', hzero⟩ := h
        rw [List.length_cons, List.length_cons, ih]
        rcases List.mem_cons.mp he' with rfl | he'
        · exact absurd hzero hother
        · exact ⟨e', he', hzero⟩

theorem length_setstr_le (oname str : List Byte) (row : Row) : (setstr oname str row).length ≤ row.length + 1 := by
  have hlocate : ∀ row : Row, (locate oname str row).length ≤ row.length + 1 := by
    intro row
    induction row with
    | nil => exact Nat.le_refl 1
    | cons e row ih =>
        rw [locate]
        split
        · exact Nat.le_succ _
        · exact Nat.succ_le_succ ih
  rw [setstr]
  split
  · exact Nat.le_succ _
  · exact hlocate row

theorem length_setAll_le (kvs row : Row) : (setAll kvs row).length ≤ row.length + kvs.length := by
  induction kvs generalizing row with
  | nil => exact Nat.le_refl _
  | cons kv kvs ih =>
      have hone := length_setstr_le kv.1 kv.2 row
      have hrest := ih (setstr kv.1 kv.2 row)
      rw [List.length_cons]
      exact hrest.trans (by omega)

/-- The settings are entries of their own just where no name is empty or names an entry that is there. -/
theorem setAll_eq_iff {kvs : Row} (hclip : ∀ kv ∈ kvs, clip kv.1 = kv.1) (row : Row) : setAll kvs row = row ++ kvs ↔
    (∀ kv ∈ kvs, kv.1 ≠ [] ∧ ∀ e ∈ row, cmp kv.1 e.1 ≠ 0) ∧ kvs.Pairwise fun p q => cmp q.1 p.1 ≠ 0 := by
  induction kvs generalizing row with
  | nil => exact iff_of_true (List.append_nil row).symm ⟨fun _ h => absurd h List.not_mem_nil, .nil⟩
  | cons kv kvs ih =>
      by_cases hnew : kv.1 ≠ [] ∧ ∀ e ∈ row, cmp kv.1 e.1 ≠ 0
      · have hset : setstr kv.1 kv.2 row = row ++ [kv] := by
          rw [setstr, if_neg hnew.1, locate_new (hclip kv List.mem_cons_self) kv.2 hnew.2]
        have hrest := ih (fun kv' h => hclip kv' (List.mem_cons_of_mem kv h)) (row ++ [kv])
        rw [List.append_assoc, List.singleton_append] at hrest
        rw [setAll, List.foldl_cons, hset]
        refine hrest.trans ⟨fun ⟨hall, hpair⟩ => ⟨?_, ?_⟩, fun ⟨hall, hpair⟩ => ⟨?_, ?_⟩⟩
        · intro kv' hkv'
          rcases List.mem_cons.mp hkv' with rfl | hkv'
          · exact hnew
          · exact ⟨(hall kv' hkv').1, fun e he => (hall kv' hkv').2 e (List.mem_append_left _ he)⟩
        · exact List.pairwise_cons.mpr ⟨fun q hq => (hall q hq).2 kv (by simp), hpair⟩
        · intro kv' hkv'
          have hold := hall kv' (List.mem_cons_of_mem kv hkv')
          refine ⟨hold.1, fun e he => ?_⟩
          rcases List.mem_append.mp he with he | he
          · exact hold.2 e he
          · rw [List.mem_singleton.mp he]
            exact (List.pairwise_cons.mp hpair).1 kv' hkv'
        · exact (List.pairwise_cons.mp hpair).2
      · refine iff_of_false (fun h => ?_) fun h => hnew (h.1 kv List.mem_cons_self)
        -- an entry is missing
        have hset : (setstr kv.1 kv.2 row).length = row.length := by
          rw [setstr]
          split
          · rfl
          · rename_i hne
            rw [not_and] at hnew
            have hold := hnew hne
            push Not at hold
            exact length_locate_old hold
        have hlen := congrArg List.length h
        have hrest := length_setAll_le kvs (setstr kv.1 kv.2 row)
        rw [setAll, List.foldl_cons, List.length_append, List.length_cons] at hlen
        rw [setAll] at hrest
        omega

theorem length_slices (fields : List Field) (data : List Byte) : (slices fields data).length = fields.length := by
  induction fields generalizing data with
  | nil => rfl
  | cons f fields ih => rw [slices, List.length_cons, ih, List.length_cons]

/-- The names of a row. -/
theorem map_fst_row (fields : List Field) (r : Record) : (row fields r).map Prod.fst = fields.map Field.name := by
  rw [row, List.map_fst_zip]
  rw [List.length_map, List.length_map, length_slices]

theorem nulFree_of_mem {fields : List Field} {p : List Byte} (hp : p ∈ fields.map Field.name) : 0 ∉ p := by
  obtain ⟨f, -, rfl⟩ := List.mem_map.mp hp
  exact f.nulFree

/-- A row has all its entries just where the names are entries of their own. -/
theorem setAll_row_iff {fields : List Field} (hdistinct : (fields.map Field.name).Nodup) (r : Record) :
    setAll (row fields r) [] = row fields r ↔ Separate fields := by
  have hname : ∀ kv ∈ row fields r, kv.1 ∈ fields.map Field.name := fun kv h =>
    map_fst_row fields r ▸ List.mem_map_of_mem h
  have hclip : ∀ kv ∈ row fields r, clip kv.1 = kv.1 := by
    intro kv h
    obtain ⟨f, -, hf⟩ := List.mem_map.mp (hname kv h)
    have hlen := f.namelen
    exact List.take_of_length_le (by rw [← hf, maxObjnamelen]; omega)
  have hpair : ((row fields r).Pairwise fun p q => cmp q.1 p.1 ≠ 0) ↔
      (fields.map Field.name).Pairwise fun p q => ¬ SameNumber p q := by
    have hcmp : (fields.map Field.name).Pairwise (fun p q => cmp q p ≠ 0) ↔
        (fields.map Field.name).Pairwise fun p q => p ≠ q ∧ ¬ SameNumber p q :=
      List.Pairwise.iff_of_mem fun hp hq => by
        rw [ne_eq, cmp_eq_zero_iff (nulFree_of_mem hq) (nulFree_of_mem hp), not_or]
    rw [← map_fst_row fields r] at hcmp
    rw [← List.pairwise_map (R := fun p q => cmp q p ≠ 0), hcmp, map_fst_row, List.pairwise_and_iff]
    exact and_iff_right hdistinct
  have hnonempty : (∀ kv ∈ row fields r, kv.1 ≠ [] ∧ ∀ e ∈ ([] : Row), cmp kv.1 e.1 ≠ 0) ↔
      ∀ f ∈ fields, f.name ≠ [] := by
    constructor
    · intro h f hf
      obtain ⟨kv, hkv, hname⟩ := List.mem_map.mp (map_fst_row fields r ▸ List.mem_map_of_mem (f := Field.name) hf)
      exact hname ▸ (h kv hkv).1
    · intro h kv hkv
      obtain ⟨f, hf, hname⟩ := List.mem_map.mp (hname kv hkv)
      exact ⟨hname ▸ h f hf, fun e he => absurd he List.not_mem_nil⟩
  have hall := setAll_eq_iff hclip []
  rw [List.nil_append] at hall
  rw [hall, hnonempty, hpair, Separate]

end Rows

/-! ### The buffer -/

section Buffer

variable {f : File} {c : Conn} {rs : List Record} {mem : List Byte}

/-- What the buffer has left. -/
def Conn.avail (c : Conn) : List Byte := ((c.recbuf.getD []).take c.recbuflen).drop c.recbufoffset

/-- The connection has these records in front of it. -/
structure At (f : File) (c : Conn) (rs : List Record) : Prop where
  fields : c.fields = f.fields.map Field.bytes
  rowsize : c.rowsize = rowsize f.fields
  fresh : c.recbuf = none → c.recbuflen = 0 ∧ c.recbufoffset = 0
  within : c.recbufoffset ≤ c.recbuflen ∧ c.recbuflen ≤ (c.recbuf.getD []).length
  data : c.avail ++ f.bytes.drop c.pos = rs.flatMap Record.bytes ++ f.tail
  aligned : Aligned (c.rowsize + 1) c.avail (f.bytes.drop c.pos)
  width : ∀ r ∈ rs, r.data.length = c.rowsize

theorem at_opened (f : File) : At f (opened f) f.records where
  fields := rfl
  rowsize := rfl
  fresh _ := ⟨rfl, rfl⟩
  within := ⟨Nat.le_refl 0, Nat.le_refl 0⟩
  data := drop_opened f
  aligned := .inr (Nat.dvd_zero _)
  width := f.width

theorem At.length_avail (h : At f c rs) : c.avail.length = c.recbuflen - c.recbufoffset := by
  rw [Conn.avail, List.length_drop, List.length_take_of_le h.within.2]

theorem filled_full (hsome : c.recbuf ≠ none) (hne : c.recbuflen ≠ c.recbufoffset) (file mem : List Byte) :
    c.filled file mem = c := by
  have hbuf : ¬ c.recbuf.isNone = true := fun h => hsome (Option.isNone_iff_eq_none.mp h)
  rw [Conn.filled, if_neg hbuf]
  exact if_neg hne

theorem filled_empty (h : c.recbuf = none → c.recbuflen = 0 ∧ c.recbufoffset = 0) (heq : c.recbuflen = c.recbufoffset)
    (file mem : List Byte) : ∃ buf, c.filled file mem = { c with
      recbuf := some ((file.drop c.pos).take (c.rowsize * 256 + 256) ++ buf)
      recbuflen := ((file.drop c.pos).take (c.rowsize * 256 + 256)).length
      recbufoffset := 0
      pos := c.pos + ((file.drop c.pos).take (c.rowsize * 256 + 256)).length } := by
  by_cases hnone : c.recbuf.isNone = true
  · obtain ⟨hzero, hzero'⟩ := h (Option.isNone_iff_eq_none.mp hnone)
    rw [Conn.filled, if_pos hnone]
    dsimp only
    rw [if_pos rfl]
    exact ⟨_, rfl⟩
  · rw [Conn.filled, if_neg hnone]
    dsimp only
    rw [if_pos heq]
    exact ⟨_, rfl⟩

/-- Filling the buffer keeps what is in front, and leaves an empty buffer only at the end. -/
theorem At.filled (h : At f c rs) (mem : List Byte) : At f (c.filled f.bytes mem) rs ∧
    ((c.filled f.bytes mem).avail = [] → rs.flatMap Record.bytes ++ f.tail = []) := by
  have hlen := h.length_avail
  by_cases heq : c.recbuflen = c.recbufoffset
  · have hnil : c.avail = [] := List.length_eq_zero_iff.mp (by omega)
    have hdata := h.data
    rw [hnil, List.nil_append] at hdata
    obtain ⟨buf, hfilled⟩ := filled_empty h.fresh heq f.bytes mem
    rw [hfilled]
    generalize hn : c.rowsize * 256 + 256 = n at hfilled
    have havail : ∀ l : List Byte, (((l ++ buf).take l.length).drop 0) = l := fun l => by
      rw [List.take_left, List.drop_zero]
    have hrest : f.bytes.drop (c.pos + ((f.bytes.drop c.pos).take n).length) = (f.bytes.drop c.pos).drop n := by
      rw [← List.drop_drop, List.length_take]
      by_cases hle : n ≤ (f.bytes.drop c.pos).length
      · rw [Nat.min_eq_left hle]
      · rw [Nat.min_eq_right (Nat.le_of_not_le hle), List.drop_length, List.drop_eq_nil_of_le (Nat.le_of_not_le hle)]
    have hdvd : c.rowsize + 1 ∣ n := ⟨256, by omega⟩
    refine ⟨⟨h.fields, h.rowsize, nofun, ⟨Nat.zero_le _, ?_⟩, ?_, ?_, h.width⟩, ?_⟩
    · rw [Option.getD_some, List.length_append]
      exact Nat.le_add_right _ _
    · rw [Conn.avail, Option.getD_some, havail, hrest, List.take_append_drop, hdata]
    · rw [Conn.avail, Option.getD_some, havail, hrest]
      exact aligned_refill hdvd _
    · rw [Conn.avail, Option.getD_some, havail, ← hdata]
      exact fun htake => (List.take_eq_nil_iff.mp htake).resolve_left (by omega)
  · have hsome : c.recbuf ≠ none := by
      intro hnone
      obtain ⟨hzero, hzero'⟩ := h.fresh hnone
      exact heq (hzero.trans hzero'.symm)
    rw [filled_full hsome heq]
    refine ⟨h, fun hnil => ?_⟩
    rw [hnil, List.length_nil] at hlen
    have := h.within.1
    omega

theorem At.drop_buf (h : At f c rs) :
    (c.recbuf.getD []).drop c.recbufoffset = c.avail ++ (c.recbuf.getD []).drop c.recbuflen := by
  have hlen : c.recbufoffset ≤ ((c.recbuf.getD []).take c.recbuflen).length := by
    rw [List.length_take_of_le h.within.2]
    exact h.within.1
  calc
    _ = ((c.recbuf.getD []).take c.recbuflen ++ (c.recbuf.getD []).drop c.recbuflen).drop c.recbufoffset := by
      rw [List.take_append_drop]
    _ = _ := List.drop_append_of_le_length hlen

theorem At.left_eq (h : At f c rs) : (c.recbuflen - c.recbufoffset : Int) = c.avail.length := by
  have hlen := h.length_avail
  have hle := h.within.1
  omega

theorem length_recordBytes (r : Record) : r.bytes.length = r.data.length + 1 := rfl

/-- A call behind the last record. -/
theorem getnext_end (h : At f c []) (hpos : 0 < c.rowsize) {c₀ : Conn} (hfilled : c₀.filled f.bytes mem = c) :
    getnext f.bytes mem c₀ = .null c := by
  have hdata := h.data
  rw [List.flatMap_nil, List.nil_append] at hdata
  rw [getnext, hfilled, h.left_eq]
  by_cases hnil : c.avail = []
  · rw [hnil, List.length_nil, if_neg (by omega), if_pos (by omega)]
  · -- all that is left is the byte at the end
    have htail : f.tail = [26] := by
      rw [File.tail] at hdata ⊢
      split at hdata
      · rename_i hended
        rw [if_pos hended]
      · exact absurd (List.append_eq_nil_iff.mp hdata).1 hnil
    rw [htail] at hdata
    have havail : c.avail = [26] := by
      rcases List.append_eq_singleton_iff.mp hdata with ⟨h, -⟩ | ⟨h, -⟩
      · exact absurd h hnil
      · exact h
    have hhead : (c.recbuf.getD [])[c.recbufoffset]? = some 26 := by
      rw [← List.head?_drop, h.drop_buf, havail]
      rfl
    rw [havail, List.length_singleton, if_pos ⟨by omega, hhead⟩]

/-- A call in front of a record. -/
theorem getnext_record {r : Record} (h : At f c (r :: rs)) (hpos : 0 < c.rowsize) (hrefill : c.avail ≠ []) {c₀ : Conn}
    (hfilled : c₀.filled f.bytes mem = c) :
    if c.rowsize = 1 ∧ r.flag = 26 then getnext f.bytes mem c₀ = .null c
    else ∃ c', getnext f.bytes mem c₀ = .row (setAll (row f.fields r) []) c' ∧ At f c' rs := by
  have hdata := h.data
  have hwidth := h.width r List.mem_cons_self
  rw [List.flatMap_cons, List.append_assoc] at hdata
  obtain ⟨avail, havail, hsplit, halign⟩ := h.aligned.serves hrefill hdata (by rw [length_recordBytes, hwidth])
  have hbuf := h.drop_buf
  rw [havail, List.append_assoc] at hbuf
  have hhead : (c.recbuf.getD [])[c.recbufoffset]? = some r.flag := by
    rw [← List.head?_drop, hbuf]
    rfl
  have hlen : c.avail.length = c.rowsize + 1 + avail.length := by
    rw [havail, List.length_append, length_recordBytes, hwidth]
  have hmin : min (c.avail.length : Int) c.rowsize = c.rowsize := by omega
  rw [getnext, hfilled, h.left_eq, hmin, hhead]
  split
  · rename_i hend
    rw [if_pos ⟨by omega, congrArg some hend.2⟩]
  · rename_i hother
    have hgoes : ¬ ((c.rowsize : Int) = 1 ∧ some r.flag = some 26) := fun hend =>
      hother ⟨by omega, Option.some.inj hend.2⟩
    have hp1 : (c.recbuf.getD []).drop (c.recbufoffset + 1) =
        r.data ++ (avail ++ (c.recbuf.getD []).drop c.recbuflen) := by
      rw [← List.drop_drop, hbuf]
      rfl
    have hset : setFields c.fields ((c.recbuf.getD []).drop (c.recbufoffset + 1)) [] = setAll (row f.fields r) [] := by
      rw [hp1, h.fields, setFields_run f.fields _ (hwidth.trans h.rowsize), row]
    rw [if_neg hgoes, if_neg (by omega), if_neg (not_not.mpr rfl), hset]
    have havail' : Conn.avail { c with recbufoffset := c.recbufoffset + c.rowsize + 1 } = avail := by
      have hdrop : (c.avail).drop (c.rowsize + 1) = avail := by
        rw [havail, List.drop_left' (by rw [length_recordBytes, hwidth])]
      rw [← hdrop, Conn.avail, Conn.avail, List.drop_drop, Nat.add_assoc]
    have hbehind := h.length_avail
    refine ⟨_, rfl, h.fields, h.rowsize, fun hnone => ?_, ⟨?_, h.within.2⟩, ?_, ?_, fun r' hr' => ?_⟩
    · have := h.fresh hnone
      omega
    · dsimp only
      omega
    · rw [havail', hsplit]
    · rw [havail']
      exact halign
    · exact h.width r' (List.mem_cons_of_mem r hr')

/-- The records in front of a connection come back just where they can be read. -/
theorem reads_iff (hpos : 0 < rowsize f.fields) (hdistinct : (f.fields.map Field.name).Nodup) (h : At f c rs) :
    Reads f.bytes mem c (rs.map (row f.fields)) ↔
      (rowsize f.fields = 1 → ∀ r ∈ rs, r.flag ≠ 26) ∧ (rs ≠ [] → Separate f.fields) := by
  induction rs generalizing c with
  | nil =>
      obtain ⟨h', -⟩ := h.filled mem
      exact iff_of_true (.stop ⟨_, getnext_end h' (h'.rowsize ▸ hpos) rfl⟩)
        ⟨fun _ _ hr => absurd hr List.not_mem_nil, fun hne => absurd rfl hne⟩
  | cons r rs ih =>
      obtain ⟨h', hend⟩ := h.filled mem
      have hrefill : (c.filled f.bytes mem).avail ≠ [] := fun hnil =>
        absurd (List.append_eq_nil_iff.mp (hend hnil)).1 (List.cons_ne_nil _ _)
      have hcall := getnext_record h' (h'.rowsize ▸ hpos) hrefill rfl
      rw [List.map_cons, Reads, yields_cons_iff]
      split at hcall
      · rename_i hbad
        rw [h'.rowsize] at hbad
        refine iff_of_false (fun ⟨c', hrow, _⟩ => ?_) fun hok => hok.1 hbad.1 r List.mem_cons_self hbad.2
        rw [hcall] at hrow
        cases hrow
      · rename_i hflag
        rw [h'.rowsize] at hflag
        obtain ⟨c', hrow, hat⟩ := hcall
        have hnames := setAll_row_iff hdistinct r
        constructor
        · rintro ⟨c'', hrow', hrest⟩
          rw [hrow] at hrow'
          obtain ⟨heq, rfl⟩ := Next.row.inj hrow'
          obtain ⟨hflags, -⟩ := (ih hat).mp hrest
          refine ⟨fun hone r' hr' => ?_, fun _ => hnames.mp heq⟩
          rcases List.mem_cons.mp hr' with rfl | hr'
          · exact fun h26 => hflag ⟨hone, h26⟩
          · exact hflags hone r' hr'
        · rintro ⟨hflags, hseparate⟩
          have hseparate := hseparate (List.cons_ne_nil r rs)
          rw [hnames.mpr hseparate] at hrow
          exact ⟨c', hrow, (ih hat).mpr ⟨fun hone r' hr' => hflags hone r' (List.mem_cons_of_mem r hr'),
            fun _ => hseparate⟩⟩

end Buffer

theorem rowsize_pos (f : File) : 0 < rowsize f.fields := by
  obtain ⟨g, fields, hfields⟩ := List.exists_cons_of_ne_nil f.some_field
  have hlen : g.len.toNat ≠ 0 := fun h => g.positive (UInt8.toNat_inj.mp h)
  rw [hfields, rowsize_cons]
  omega

theorem reads_opened_iff (f : File) (mem : List Byte) :
    Reads f.bytes mem (opened f) (f.records.map (row f.fields)) ↔ Readable f :=
  reads_iff (rowsize_pos f) f.distinct (at_opened f)

theorem readable_of_readsBack {f : File} (h : ReadsBack f) : Readable f := by
  obtain ⟨c, hopen, hread⟩ := h 0 []
  rw [dbfOpen_run] at hopen
  exact (reads_opened_iff f []).mp (Opened.ready.inj hopen ▸ hread)

/-- The rows of a file come back in their order just where the names are entries of their own and no row of one byte
has a 26 for its flag. -/
theorem records_iff (f : File) : ReadsBack f ↔ Readable f :=
  ⟨readable_of_readsBack, fun h fbuf mem => ⟨_, dbfOpen_run f fbuf, (reads_opened_iff f mem).mpr h⟩⟩

/-- A field of one byte. -/
def byteField (name pad : List Byte) (h : 0 ∉ name) (hlen : name.length + 1 + pad.length = 11) : Field :=
  ⟨name, pad, List.replicate 5 0, 1, List.replicate 15 0, h, hlen, rfl, by decide, rfl⟩

/-- A file with one record. -/
def oneRecord (fields : List Field) (r : Record) (hsome : fields ≠ []) (hroom : fields.length ≤ 64)
    (hdistinct : (fields.map Field.name).Nodup) (hwidth : r.data.length = rowsize fields) : File where
  front := List.replicate 8 0
  back := List.replicate 22 0
  fields := fields
  records := [r]
  ended := true
  frontlen := rfl
  backlen := rfl
  some_field := hsome
  room := hroom
  distinct := hdistinct
  width := fun _ hr => List.mem_singleton.mp hr ▸ hwidth

/-- The fields `1` and `01`. -/
def numbered : File :=
  oneRecord [byteField (bytes "1") (List.replicate 9 0) (by decide) rfl,
    byteField (bytes "01") (List.replicate 8 0) (by decide) rfl] ⟨ch ' ', bytes "ab"⟩
    (List.cons_ne_nil _ _) (by decide) (by decide) rfl

/-- A field whose name is empty. -/
def unnamed : File :=
  oneRecord [byteField [] (List.replicate 10 0) List.not_mem_nil rfl] ⟨ch ' ', bytes "a"⟩
    (List.cons_ne_nil _ _) (by decide) (List.nodup_singleton _) rfl

/-- A row of one byte whose flag is a 26. -/
def flagged : File :=
  oneRecord [byteField (bytes "a") (List.replicate 9 0) (by decide) rfl] ⟨26, bytes "a"⟩
    (List.cons_ne_nil _ _) (by decide) (List.nodup_singleton _) rfl

/-- The second field takes the place of the first one; the field is missing; the row is the end of the file. -/
theorem not_readsBack : ¬ ReadsBack numbered ∧ ¬ ReadsBack unnamed ∧ ¬ ReadsBack flagged := by
  refine ⟨fun h => ?_, fun h => ?_, fun h => ?_⟩
  · have hpair := ((readable_of_readsBack h).2 (List.cons_ne_nil _ _)).2
    exact (List.pairwise_cons.mp hpair).1 (bytes "01") (by decide) ⟨by decide, by decide, by decide⟩
  · exact ((readable_of_readsBack h).2 (List.cons_ne_nil _ _)).1 _ (List.mem_singleton_self _) rfl
  · exact (readable_of_readsBack h).1 rfl _ (List.mem_singleton_self _) rfl

end NullG.Libs.Dbf
