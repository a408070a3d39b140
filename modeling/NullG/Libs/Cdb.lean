/-
Constant databases (`libs/data/cdb.c`).

A file is a table of contents with 256 buckets, the records one after another, and the slots of the buckets. The first
pass of `cdb_write` counts the names of each bucket in the table of contents; the second one puts the place of each
record into the first slot of its bucket whose hash is zero. `writei4` is a macro that evaluates its number for every
byte that it writes, and the number is a counter that it is writing to; a hash may be zero itself; and `cdb_read` reads
the lengths of a record from an array of `char`. A table comes back from its file only if none of these shows
(`roundTrips_iff`).
-/

import NullG.Lib.Buckets
import NullG.Lib.Lengths
import NullG.Lib.LittleEndian
import NullG.Nsp.TableMap
import Mathlib.Data.List.TakeWhile

namespace NullG.Libs.Cdb

open NullG.Lib NullG.Lib.LittleEndian
open NullG.Nsp (Byte bytes TableCall Setting mapOf ValidName allDigits mem_of_mapOf exists_mapOf mapOf_congr)

/-- A string in a table. -/
structure Record where
  name : List Byte
  str : List Byte
deriving DecidableEq

/-- How it comes into a table. -/
def Record.call (r : Record) : TableCall := .set r.name (.string r.str)

/-- A slot of the index. -/
structure Slot where
  hash : Nat
  offset : Nat
deriving DecidableEq

/-- A slot that nothing was written to. -/
def blank : Slot := ⟨0, 0⟩

/-- `readi4(hashptr) == 0`: the hash says whether the slot is taken. -/
def Slot.free (s : Slot) : Bool := s.hash == 0

def Slot.bytes (s : Slot) : List Byte := encode 4 s.hash ++ encode 4 s.offset

def cdbHash (buf : List Byte) : UInt64 := buf.foldl (fun hash c => (hash + (hash <<< 5)) ^^^ c.toUInt64) 5381

/-- `(uchar)hash % 255`. -/
def hashmod (hash : UInt64) : Nat := hash.toUInt8.toNat % 255

/-! ### `cdb_write` -/

/-- What is written of a string. -/
def Record.bytes (r : Record) : List Byte := encode 4 r.name.length ++ encode 4 r.str.length ++ r.name ++ r.str

/-- The byte `i` of `n` is written into `x`. -/
def putByte (i n x : Nat) : Nat := x % 256 ^ i + 256 ^ i * (n / 256 ^ i % 256) + 256 ^ (i + 1) * (x / 256 ^ (i + 1))

/-- `writei4((readi4(hashptr) + 1), hashptr)`: each byte is that of one more than what is there by then. -/
def bump (x : Nat) : Nat :=
  let x := putByte 0 (x + 1) x
  let x := putByte 1 (x + 1) x
  let x := putByte 2 (x + 1) x
  putByte 3 (x + 1) x

/-- The counts of the buckets after the first pass. -/
def counts (rs : List Record) : Nat → Nat :=
  rs.foldl (fun toc r b => if b = hashmod (cdbHash r.name) then bump (toc b) else toc b) fun _ => 0

def datasize (rs : List Record) : Nat := (rs.flatMap Record.bytes).length

/-- The table of contents: where the slots of each bucket are, and how many. -/
def toc (rs : List Record) : List Byte :=
  (List.range 256).flatMap fun i =>
    encode 4 (2048 + datasize rs + 8 * startOf (counts rs) i) ++ encode 4 (counts rs i)

/-- The second pass, from the record at `w` on. There is no result if it leaves the index. -/
def putSlots (start : Nat → Nat) : Nat → List Record → List Slot → Option (List Slot)
  | _, [], idx => some idx
  | w, r :: rs, idx =>
      let hash := cdbHash r.name
      match place Slot.free (start (hashmod hash)) ⟨hash.toNat % 2 ^ 32, w⟩ idx with
      | none => none
      | some idx => putSlots start (w + (8 + r.name.length + r.str.length)) rs idx

/-- The file that `cdb_write` makes for the strings of a table. -/
def cdbWrite (rs : List Record) : Option (List Byte) :=
  match putSlots (startOf (counts rs)) 2048 rs (List.replicate rs.length blank) with
  | none => none
  | some idx => some (toc rs ++ rs.flatMap Record.bytes ++ idx.flatMap Slot.bytes)

/-! ### `cdb_read` -/

/-- `readi4` of `uchar`s. -/
def readi4 (p : List Byte) : Int := (decode (p.take 4) : Int).bmod (2 ^ 32)

/-- A `char`. -/
def schar (c : Byte) : Int := if c.toNat < 128 then c.toNat else c.toNat - 256

/-- `readi4` of `char`s. -/
def readi4Char : List Byte → Int
  | a :: b :: c :: d :: _ => schar a + schar b * 2 ^ 8 + schar c * 2 ^ 16 + schar d * 2 ^ 24
  | _ => 0

/-- `read` of `n` bytes at `pos`. There is no result if it gets less, for what it reads to is not initialised. -/
def readAt (file : List Byte) (pos n : Nat) : Option (List Byte) :=
  if pos + n ≤ file.length then some ((file.drop pos).take n) else none

/-- `read` of `n` bytes at `pos` to zeroed memory. -/
def readZeroed (file : List Byte) (pos n : Nat) : List Byte :=
  let got := (file.drop pos).take n
  got ++ List.replicate (n - got.length) 0

def maxObjnamelen : Nat := 64

/-- The string of a record. A length below zero is none that there is memory for. -/
def readStr (file name : List Byte) (pos : Nat) (len : Int) : Option (List TableCall) :=
  if len = 0 then some [.set name (.string [])]
  else if len < 0 then none
  else
    match readAt file pos len.toNat with
    | none => none
    | some str => some [.set name (.string str)]

/-- A record. -/
def readRecord (file : List Byte) (offset : Nat) : Option (List TableCall) :=
  match readAt file offset 8 with
  | none => none
  | some nbuf =>
      let len := readi4Char nbuf
      if len = 0 then some []
      else if len < 0 then none
      else
        match readAt file (offset + 8) (min len.toNat maxObjnamelen) with
        | none => none
        | some namebuf =>
            readStr file (namebuf.takeWhile (· != 0)) (offset + 8 + len.toNat) (readi4Char (nbuf.drop 4))

/-- The record that a slot points to. -/
def readOffset (file : List Byte) (offset : Int) : Option (List TableCall) :=
  if offset = 0 then some [] else if offset < 0 then none else readRecord file offset.toNat

/-- The slots of a bucket, from `p` on. -/
def readSlots (file : List Byte) : Nat → List Byte → Option (List TableCall)
  | 0, _ => some []
  | count + 1, p =>
      (readOffset file (readi4 (p.drop 4))).bind fun calls => (readSlots file count (p.drop 8)).map (calls ++ ·)

/-- A bucket. An offset or a count below zero is nothing that can be read. -/
def readBucket (file toc : List Byte) (i : Nat) : Option (List TableCall) :=
  let offset := readi4 (toc.drop (8 * i))
  let count := readi4 (toc.drop (8 * i + 4))
  if count = 0 then some []
  else if offset < 0 ∨ count < 0 then none
  else readSlots file count.toNat (readZeroed file offset.toNat (8 * count.toNat))

/-- The buckets from `i` on. -/
def readBuckets (file toc : List Byte) : List Nat → Option (List TableCall)
  | [] => some []
  | i :: is => (readBucket file toc i).bind fun calls => (readBuckets file toc is).map (calls ++ ·)

/-- The calls that `cdb_read` makes on the new table. -/
def cdbRead (file : List Byte) : Option (List TableCall) :=
  readBuckets file (readZeroed file 0 2048) (List.range 256)

/-! ### Round trips -/

/-- A table of strings, small enough for a file. -/
structure Table where
  records : List Record
  names : ∀ r ∈ records, ValidName r.name ∧ allDigits r.name = false
  nodup : (records.map Record.name).Nodup
  small : 2048 + datasize records + 8 * records.length < 2 ^ 31

/-- The table that is read has the same strings under the same names. -/
def RoundTrips (t : Table) : Prop :=
  ∃ file, cdbWrite t.records = some file ∧
    ∃ calls, cdbRead file = some calls ∧ mapOf calls = mapOf (t.records.map Record.call)

/-- How many names a bucket has. -/
def names (rs : List Record) (b : Nat) : Nat := countIn (fun r => hashmod (cdbHash r.name)) rs b

/-- A number that the macro counts up to. -/
def Counted (n : Nat) : Prop := n % 256 ≠ 255 ∧ n % 2 ^ 16 < 65279 ∧ n % 2 ^ 24 < 16711423

instance (n : Nat) : Decidable (Counted n) := inferInstanceAs (Decidable (_ ∧ _ ∧ _))

/-- A length whose bytes are none below zero. -/
def Plain (n : Nat) : Prop := n % 256 < 128 ∧ n / 256 % 256 < 128 ∧ n / 65536 % 256 < 128

instance (n : Nat) : Decidable (Plain n) := inferInstanceAs (Decidable (_ ∧ _ ∧ _))

/-- The lengths of the strings are read as they are, every bucket that another one follows is counted right, and no hash
that is zero has another name of its bucket behind it. -/
structure Sound (rs : List Record) : Prop where
  lengths : ∀ r ∈ rs, Plain r.str.length
  counted : ∀ b, names rs b ≠ 0 → ∀ k < b, Counted (names rs k)
  hashes : rs.Pairwise fun r r' => hashmod (cdbHash r'.name) = hashmod (cdbHash r.name) →
    (cdbHash r.name).toNat % 2 ^ 32 ≠ 0

/-! ### The counters -/

section

variable {a b c d : Nat}

/-- A number of four bytes. -/
def ofBytes (a b c d : Nat) : Nat := a + 256 * b + 65536 * c + 16777216 * d

theorem putByte_zero (ha : a < 256) (n : Nat) : putByte 0 n (ofBytes a b c d) = ofBytes (n % 256) b c d := by
  have hhigh : ofBytes a b c d / 256 = b + 256 * c + 65536 * d := by
    rw [ofBytes]
    omega
  simp only [putByte, Nat.zero_add, Nat.pow_zero, Nat.pow_one, Nat.mod_one, Nat.div_one, Nat.one_mul]
  rw [hhigh, ofBytes]
  omega

theorem putByte_one (ha : a < 256) (hb : b < 256) (n : Nat) :
    putByte 1 n (ofBytes a b c d) = ofBytes a (n / 256 % 256) c d := by
  have hlow : ofBytes a b c d % 256 = a := by
    rw [ofBytes]
    omega
  have hhigh : ofBytes a b c d / 65536 = c + 256 * d := by
    rw [ofBytes]
    omega
  simp only [putByte, Nat.pow_one, Nat.reduceAdd, Nat.reducePow]
  rw [hlow, hhigh, ofBytes]
  omega

theorem putByte_two (ha : a < 256) (hb : b < 256) (hc : c < 256) (n : Nat) :
    putByte 2 n (ofBytes a b c d) = ofBytes a b (n / 65536 % 256) d := by
  have hlow : ofBytes a b c d % 65536 = a + 256 * b := by
    rw [ofBytes]
    omega
  have hhigh : ofBytes a b c d / 16777216 = d := by
    rw [ofBytes]
    omega
  simp only [putByte, Nat.reduceAdd, Nat.reducePow]
  rw [hlow, hhigh, ofBytes]

theorem putByte_three (ha : a < 256) (hb : b < 256) (hc : c < 256) (hd : d < 256) (n : Nat) :
    putByte 3 n (ofBytes a b c d) = ofBytes a b c (n / 16777216 % 256) := by
  have hlow : ofBytes a b c d % 16777216 = a + 256 * b + 65536 * c := by
    rw [ofBytes]
    omega
  have hhigh : ofBytes a b c d / 4294967296 = 0 := by
    rw [ofBytes]
    omega
  simp only [putByte, Nat.reduceAdd, Nat.reducePow]
  rw [hlow, hhigh, ofBytes]
  omega

end

/-- What the counter of a bucket is after `n` names. -/
def counter (n : Nat) : Nat :=
  ofBytes (n % 256) ((n + 1) / 256 % 256) ((n + 257) / 65536 % 256) ((n + 65793) / 16777216)

/-- The third byte takes the carry of the first two, as they are by then. -/
theorem carry_two (n : Nat) :
    ((n + 1) % 256 + 256 * ((n + 2) / 256 % 256) + 1) / 65536 = (n + 258) / 65536 - (n + 257) / 65536 := by omega

/-- The fourth byte takes the carry of the first three. -/
theorem carry_three (n : Nat) :
    ((n + 1) % 256 + 256 * ((n + 2) / 256 % 256) + 65536 * ((n + 258) / 65536 % 256) + 1) / 16777216 =
      (n + 65794) / 16777216 - (n + 65793) / 16777216 := by
  by_cases h : (n + 2) % 256 = 0
  · obtain ⟨k, hk⟩ : ∃ k, n + 2 = 256 * k := ⟨(n + 2) / 256, by omega⟩
    have h1 : (n + 1) % 256 = 255 := by omega
    have h2 : (n + 2) / 256 = k := by omega
    have h3 : (n + 258) / 65536 = (k + 1) / 256 := by omega
    have h4 : (n + 65794) / 16777216 = (k + 257) / 65536 := by omega
    have h5 : (n + 65793) / 16777216 = (k + 256) / 65536 := by omega
    have h6 : (255 + 256 * (k % 256) + 65536 * ((k + 1) / 256 % 256) + 1) / 16777216 =
        (1 + k % 256 + 256 * ((k + 1) / 256 % 256)) / 65536 := by omega
    rw [h1, h2, h3, h4, h5, h6]
    omega
  · have h1 : (n + 65794) / 16777216 = (n + 65793) / 16777216 := by omega
    have h2 : (n + 1) % 256 < 255 := by omega
    rw [h1]
    omega

theorem bump_counter {n : Nat} (h : n < 2 ^ 31) : bump (counter n) = counter (n + 1) := by
  have ha : n % 256 < 256 := Nat.mod_lt _ (by decide)
  have hb : (n + 1) / 256 % 256 < 256 := Nat.mod_lt _ (by decide)
  have hc : (n + 257) / 65536 % 256 < 256 := Nat.mod_lt _ (by decide)
  have hd : (n + 65793) / 16777216 < 256 := by omega
  have ha' : (n + 1) % 256 < 256 := Nat.mod_lt _ (by decide)
  have hb' : (n + 2) / 256 % 256 < 256 := Nat.mod_lt _ (by decide)
  have hc' : (n + 258) / 65536 % 256 < 256 := Nat.mod_lt _ (by decide)
  have hlow : (counter n + 1) % 256 = (n + 1) % 256 := by
    rw [counter, ofBytes]
    omega
  have hone : ∀ a b c d, (ofBytes a b c d + 1) / 256 % 256 = (b + (a + 1) / 256) % 256 := by
    intro a b c d
    rw [ofBytes]
    omega
  have htwo : ∀ a b c d, (ofBytes a b c d + 1) / 65536 % 256 = (c + (a + 256 * b + 1) / 65536) % 256 := by
    intro a b c d
    rw [ofBytes]
    omega
  have hthree : ∀ a b c d,
      (ofBytes a b c d + 1) / 16777216 % 256 = (d + (a + 256 * b + 65536 * c + 1) / 16777216) % 256 := by
    intro a b c d
    rw [ofBytes]
    omega
  have h1 : ((n + 1) / 256 % 256 + ((n + 1) % 256 + 1) / 256) % 256 = (n + 2) / 256 % 256 := by omega
  have h2 : ((n + 257) / 65536 % 256 + ((n + 258) / 65536 - (n + 257) / 65536)) % 256 = (n + 258) / 65536 % 256 := by
    omega
  have h3 : ((n + 65793) / 16777216 + ((n + 65794) / 16777216 - (n + 65793) / 16777216)) % 256 =
      (n + 65794) / 16777216 := by omega
  simp only [bump]
  rw [counter, putByte_zero ha, ← counter, hlow, putByte_one ha' hb, hone, h1, putByte_two ha' hb' hc, htwo, carry_two,
    h2, putByte_three ha' hb' hc' hd, hthree, carry_three, h3]
  simp only [counter, Nat.add_assoc, Nat.reduceAdd]

theorem counter_eq_iff (n : Nat) : counter n = n ↔ Counted n := by
  simp only [counter, ofBytes, Counted, Nat.reducePow]
  omega

theorem le_counter (n : Nat) : n ≤ counter n := by
  rw [counter, ofBytes]
  omega

theorem counter_le (n : Nat) : counter n ≤ n + 16843008 := by
  rw [counter, ofBytes]
  omega

/-- The names of the records before it are what a bucket has counted. -/
theorem counts_eq (rs : List Record) (h : rs.length < 2 ^ 31) (b : Nat) : counts rs b = counter (names rs b) := by
  have hfold : ∀ (rs : List Record) (toc : Nat → Nat) (k : Nat), toc b = counter k → k + rs.length < 2 ^ 31 →
      rs.foldl (fun toc r b => if b = hashmod (cdbHash r.name) then bump (toc b) else toc b) toc b =
        counter (k + names rs b) := by
    intro rs
    induction rs with
    | nil => exact fun toc k htoc _ => htoc
    | cons r rs ih =>
        intro toc k htoc hlen
        rw [List.length_cons] at hlen
        rw [List.foldl_cons]
        by_cases hb : hashmod (cdbHash r.name) = b
        · have hnames : names (r :: rs) b = names rs b + 1 := by simp [names, countIn, hb]
          rw [ih _ (k + 1) (by rw [if_pos hb.symm, htoc, bump_counter (by omega)]) (by omega), hnames]
          congr 1
          omega
        · have hnames : names (r :: rs) b = names rs b := by simp [names, countIn, hb]
          rw [ih _ k (by rw [if_neg (fun h => hb h.symm), htoc]) (by omega), hnames]
  have hall := hfold rs (fun _ => 0) 0 rfl (by omega)
  rw [Nat.zero_add] at hall
  exact hall

/-! ### The slots that are put -/

/-- The slots of the records, of which the first is at `w`. -/
def slotsOf : Nat → List Record → List Slot
  | _, [] => []
  | w, r :: rs => ⟨(cdbHash r.name).toNat % 2 ^ 32, w⟩ :: slotsOf (w + (8 + r.name.length + r.str.length)) rs

/-- The bucket of a slot. -/
def Slot.bucket (s : Slot) : Nat := s.hash % 256 % 255

theorem hashmod_eq (hash : UInt64) : hashmod hash = hash.toNat % 2 ^ 32 % 256 % 255 := by
  rw [hashmod, UInt64.toNat_toUInt8]
  omega

theorem length_recordBytes (r : Record) : r.bytes.length = 8 + r.name.length + r.str.length := by
  simp [Record.bytes]
  omega

theorem putSlots_eq_fill (start : Nat → Nat) (w : Nat) (rs : List Record) (idx : List Slot) :
    putSlots start w rs idx = fill Slot.free (fun s => start s.bucket) (slotsOf w rs) idx := by
  induction rs generalizing w idx with
  | nil => rfl
  | cons r rs ih =>
      rw [putSlots, slotsOf, fill, Slot.bucket, ← hashmod_eq]
      cases place Slot.free (start (hashmod (cdbHash r.name))) ⟨(cdbHash r.name).toNat % 2 ^ 32, w⟩ idx with
      | none => rfl
      | some idx => exact ih _ idx

variable {rs : List Record} {w : Nat} {s : Slot}

theorem length_slotsOf (w : Nat) (rs : List Record) : (slotsOf w rs).length = rs.length := by
  induction rs generalizing w with
  | nil => rfl
  | cons r rs ih => rw [slotsOf, List.length_cons, List.length_cons, ih]

theorem map_hash_slotsOf (w : Nat) (rs : List Record) :
    (slotsOf w rs).map Slot.hash = rs.map fun r => (cdbHash r.name).toNat % 2 ^ 32 := by
  induction rs generalizing w with
  | nil => rfl
  | cons r rs ih => rw [slotsOf, List.map_cons, List.map_cons, ih]

theorem countIn_slotsOf (w : Nat) (rs : List Record) (b : Nat) :
    countIn Slot.bucket (slotsOf w rs) b = names rs b := by
  induction rs generalizing w with
  | nil => rfl
  | cons r rs ih =>
      have hrest := ih (w + (8 + r.name.length + r.str.length))
      rw [countIn, names, countIn] at hrest ⊢
      rw [slotsOf, List.countP_cons, List.countP_cons, hrest, Slot.bucket, ← hashmod_eq]

/-- A slot points to its record. -/
theorem mem_slotsOf (h : s ∈ slotsOf w rs) : ∃ pre r post, rs = pre ++ r :: post ∧
    s = ⟨(cdbHash r.name).toNat % 2 ^ 32, w + datasize pre⟩ := by
  induction rs generalizing w with
  | nil => exact absurd h List.not_mem_nil
  | cons r rs ih =>
      rcases List.mem_cons.mp h with rfl | h
      · exact ⟨[], r, rs, rfl, rfl⟩
      · obtain ⟨pre, r', post, rfl, rfl⟩ := ih h
        refine ⟨r :: pre, r', post, rfl, ?_⟩
        rw [datasize, datasize, List.flatMap_cons, List.length_append, length_recordBytes, Nat.add_assoc]

theorem exists_slotOf {pre post : List Record} {r : Record} :
    (⟨(cdbHash r.name).toNat % 2 ^ 32, w + datasize pre⟩ : Slot) ∈ slotsOf w (pre ++ r :: post) := by
  induction pre generalizing w with
  | nil => exact List.mem_cons_self
  | cons q pre ih =>
      rw [datasize, List.flatMap_cons, List.length_append, length_recordBytes, ← Nat.add_assoc]
      exact List.mem_cons_of_mem _ ih

theorem nodup_slotsOf (w : Nat) (rs : List Record) : (slotsOf w rs).Nodup := by
  have hlt : ∀ {w rs}, (slotsOf w rs).Pairwise fun s s' => s.offset < s'.offset := by
    intro w rs
    induction rs generalizing w with
    | nil => exact List.Pairwise.nil
    | cons r rs ih =>
        refine List.pairwise_cons.mpr ⟨fun s hs => ?_, ih⟩
        obtain ⟨pre, r', post, rfl, rfl⟩ := mem_slotsOf hs
        show w < w + (8 + r.name.length + r.str.length) + datasize pre
        omega
  refine hlt.imp fun {a b} hab heq => ?_
  rw [heq] at hab
  exact Nat.lt_irrefl _ hab

/-- When the second pass puts every record into a slot where it stays. -/
theorem putSlots_iff (hlen : rs.length < 2 ^ 31) :
    (∃ idx, putSlots (startOf (counts rs)) 2048 rs (List.replicate rs.length blank) = some idx ∧
        ∀ s ∈ slotsOf 2048 rs, s ∈ idx) ↔
      (∀ b, names rs b ≠ 0 → ∀ k < b, Counted (names rs k)) ∧
        rs.Pairwise fun r r' => hashmod (cdbHash r'.name) = hashmod (cdbHash r.name) →
          (cdbHash r.name).toNat % 2 ^ 32 ≠ 0 := by
  have hblank : blank ∉ slotsOf 2048 rs := by
    intro hmem
    obtain ⟨pre, r, post, -, heq⟩ := mem_slotsOf hmem
    have hoff : 0 = 2048 + datasize pre := congrArg Slot.offset heq
    omega
  have hbucket : ∀ s ∈ slotsOf 2048 rs, s.bucket < 256 := by
    intro s _
    rw [Slot.bucket]
    omega
  have hle : ∀ b, countIn Slot.bucket (slotsOf 2048 rs) b ≤ counts rs b := by
    intro b
    rw [countIn_slotsOf, counts_eq rs hlen]
    exact le_counter _
  have hfree : Slot.free blank = true := rfl
  have hiff := fill_iff (c := counts rs) hfree hblank (nodup_slotsOf 2048 rs) hbucket hle
  rw [length_slotsOf] at hiff
  simp only [putSlots_eq_fill, hiff, countIn_slotsOf, counts_eq rs hlen, counter_eq_iff]
  refine and_congr_right fun _ => ?_
  have hslots : (slotsOf 2048 rs).Pairwise (fun s s' => s'.bucket = s.bucket → s.free = false) ↔
      ((slotsOf 2048 rs).map Slot.hash).Pairwise fun h h' => h' % 256 % 255 = h % 256 % 255 → h ≠ 0 := by
    rw [List.pairwise_map]
    simp only [Slot.bucket, Slot.free, beq_eq_false_iff_ne]
  rw [hslots, map_hash_slotsOf, List.pairwise_map]
  simp only [hashmod_eq]

/-! ### Reading fields -/

variable {n : Nat} {file pre mid post : List Byte}

theorem readi4_encode (h : n < 2 ^ 31) (rest : List Byte) : readi4 (encode 4 n ++ rest) = n := by
  have hlt : n < 256 ^ 4 := Nat.lt_trans h (by decide)
  have hdecode : decode ((encode 4 n ++ rest).take 4) = n := by
    rw [List.take_left' (length_encode 4 n), decode_encode_of_lt hlt]
  unfold readi4
  rw [hdecode]
  exact Int.bmod_eq_of_le (by omega) (by omega)

theorem readi4Char_append (n : Nat) (rest : List Byte) : readi4Char (encode 4 n ++ rest) = readi4Char (encode 4 n) := by
  simp only [encode, List.cons_append, readi4Char]

theorem schar_toUInt8 (n : Nat) : schar n.toUInt8 = if n % 256 < 128 then (n : Int) % 256 else (n : Int) % 256 - 256 := by
  have hn : n.toUInt8.toNat = n % 256 := by simp [Nat.toUInt8]
  rw [schar, hn]
  rfl

/-- A length is read as it is, or as less. -/
theorem readi4Char_encode (h : n < 2 ^ 31) :
    readi4Char (encode 4 n) ≤ n ∧ (readi4Char (encode 4 n) = n ↔ Plain n) := by
  have hread : readi4Char (encode 4 n) = schar n.toUInt8 + schar (n / 256).toUInt8 * 2 ^ 8 +
      schar (n / 256 / 256).toUInt8 * 2 ^ 16 + schar (n / 256 / 256 / 256).toUInt8 * 2 ^ 24 := by
    simp only [encode, readi4Char]
  have hthree : n / 256 / 256 = n / 65536 := by omega
  rw [hread, schar_toUInt8, schar_toUInt8, schar_toUInt8, schar_toUInt8, hthree, Plain]
  split <;> split <;> split <;> split <;> constructor <;> omega

theorem readAt_append (pre post : List Byte) {pos n : Nat} (hfile : file = pre ++ (mid ++ post)) (hpos : pos = pre.length)
    (hn : n = mid.length) : readAt file pos n = some mid := by
  subst hfile hpos hn
  rw [readAt, if_pos (by simp), List.drop_left, List.take_left]

/-- What is read of a string. -/
def Record.read (r : Record) : Option (List TableCall) :=
  let len := readi4Char (encode 4 r.str.length)
  if len < 0 then none else some [.set r.name (.string (r.str.take len.toNat))]

theorem readRecord_bytes {r : Record} (hfile : file = pre ++ (r.bytes ++ post)) (hname : ValidName r.name)
    (hstr : r.str.length < 2 ^ 31) : readRecord file pre.length = r.read := by
  have hshort : r.name.length ≤ 63 := hname.short
  have hpos : r.name.length ≠ 0 := by simpa using hname.nonempty
  have hhead : readAt file pre.length 8 = some (encode 4 r.name.length ++ encode 4 r.str.length) :=
    readAt_append pre (r.name ++ (r.str ++ post)) (by rw [hfile, Record.bytes]; simp) rfl (by simp)
  have hlen : readi4Char (encode 4 r.name.length ++ encode 4 r.str.length) = r.name.length := by
    rw [readi4Char_append, (readi4Char_encode (by omega)).2, Plain]
    omega
  have hvalue : readi4Char ((encode 4 r.name.length ++ encode 4 r.str.length).drop 4) =
      readi4Char (encode 4 r.str.length) := by
    rw [List.drop_left' (length_encode 4 _)]
  have hnamebuf : readAt file (pre.length + 8) (min r.name.length maxObjnamelen) = some r.name := by
    refine readAt_append (pre ++ (encode 4 r.name.length ++ encode 4 r.str.length)) (r.str ++ post)
      (by rw [hfile, Record.bytes]; simp) (by simp) (Nat.min_eq_left ?_)
    rw [maxObjnamelen]
    omega
  have hnul : r.name.takeWhile (· != 0) = r.name := by
    rw [List.takeWhile_eq_self_iff]
    intro c hc
    simp only [bne_iff_ne]
    rintro rfl
    exact hname.nulFree hc
  rw [readRecord, hhead]
  simp only [hlen, hvalue, hnul, hnamebuf, Int.toNat_natCast, Int.natCast_eq_zero]
  rw [if_neg hpos, if_neg (by omega), Record.read, readStr]
  have hle := (readi4Char_encode hstr).1
  generalize readi4Char (encode 4 r.str.length) = len at hle ⊢
  by_cases hzero : len = 0
  · simp [hzero]
  · by_cases hneg : len < 0
    · simp only [if_neg hzero, if_pos hneg]
    · have hread : readAt file (pre.length + 8 + r.name.length) len.toNat = some (r.str.take len.toNat) := by
        refine readAt_append (pre ++ (encode 4 r.name.length ++ encode 4 r.str.length ++ r.name))
          (r.str.drop len.toNat ++ post) ?_ (by simp; omega) (by simp; omega)
        rw [hfile, Record.bytes, ← List.append_assoc (r.str.take len.toNat), List.take_append_drop]
        simp
      simp only [if_neg hzero, if_neg hneg, hread]

/-! ### Reading slots -/

/-- The records that the slots point to. -/
def readAll (file : List Byte) : List Slot → Option (List TableCall)
  | [] => some []
  | s :: ss => (readOffset file s.offset).bind fun calls => (readAll file ss).map (calls ++ ·)

variable {ss ss' : List Slot} {calls : List TableCall} {c : TableCall}

theorem readAll_append (ss ss' : List Slot) : readAll file (ss ++ ss') =
    (readAll file ss).bind fun calls => (readAll file ss').map (calls ++ ·) := by
  induction ss with
  | nil =>
      rw [List.nil_append, readAll, Option.bind_some]
      exact Option.map_id'.symm
  | cons s ss ih =>
      rw [List.cons_append, readAll, readAll, ih]
      cases readOffset file s.offset with
      | none => rfl
      | some calls => cases readAll file ss <;> cases readAll file ss' <;> simp

theorem readAll_blank (k : Nat) : readAll file (List.replicate k blank) = some [] := by
  induction k with
  | zero => rfl
  | succ k ih =>
      rw [List.replicate_succ, readAll, ih]
      rfl

/-- What is read comes from one of the slots. -/
theorem mem_readAll (h : readAll file ss = some calls) (hc : c ∈ calls) :
    ∃ s ∈ ss, ∃ cs, readOffset file s.offset = some cs ∧ c ∈ cs := by
  induction ss generalizing calls with
  | nil =>
      rw [← Option.some.inj h] at hc
      exact absurd hc List.not_mem_nil
  | cons s ss ih =>
      obtain ⟨cs, hcs, h⟩ := Option.bind_eq_some_iff.mp h
      obtain ⟨rest, hrest, rfl⟩ := Option.map_eq_some_iff.mp h
      rcases List.mem_append.mp hc with hc | hc
      · exact ⟨s, List.mem_cons_self, cs, hcs, hc⟩
      · obtain ⟨s', hs', h'⟩ := ih hrest hc
        exact ⟨s', List.mem_cons_of_mem s hs', h'⟩

/-- If all slots can be read, each is. -/
theorem exists_readAll (h : ∀ s ∈ ss, ∃ cs, readOffset file s.offset = some cs) :
    ∃ calls, readAll file ss = some calls ∧
      ∀ s ∈ ss, ∀ cs, readOffset file s.offset = some cs → cs ⊆ calls := by
  induction ss with
  | nil => exact ⟨[], rfl, fun s hs => absurd hs List.not_mem_nil⟩
  | cons s ss ih =>
      obtain ⟨cs, hcs⟩ := h s List.mem_cons_self
      obtain ⟨calls, hcalls, hall⟩ := ih fun s' hs' => h s' (List.mem_cons_of_mem s hs')
      refine ⟨cs ++ calls, by simp [readAll, hcs, hcalls], fun s' hs' cs' hcs' => ?_⟩
      rcases List.mem_cons.mp hs' with rfl | hs'
      · rw [hcs, Option.some.injEq] at hcs'
        exact hcs' ▸ List.subset_append_left cs calls
      · exact fun c hc => List.mem_append_right cs (hall s' hs' cs' hcs' hc)

theorem length_slotBytes (s : Slot) : s.bytes.length = 8 := by
  simp [Slot.bytes]

theorem readSlots_bytes (file : List Byte) (hss : ∀ s ∈ ss, s.offset < 2 ^ 31) :
    readSlots file ss.length (ss.flatMap Slot.bytes) = readAll file ss := by
  induction ss with
  | nil => rfl
  | cons s ss ih =>
      have hdrop : ((s :: ss).flatMap Slot.bytes).drop 4 = encode 4 s.offset ++ ss.flatMap Slot.bytes := by
        rw [List.flatMap_cons, Slot.bytes, List.append_assoc, List.drop_left' (length_encode 4 _)]
      have hoffset : readi4 (((s :: ss).flatMap Slot.bytes).drop 4) = s.offset := by
        rw [hdrop, readi4_encode (hss s List.mem_cons_self)]
      have hrest : ((s :: ss).flatMap Slot.bytes).drop 8 = ss.flatMap Slot.bytes := by
        rw [List.flatMap_cons, List.drop_left' (length_slotBytes s)]
      have hread := ih fun s' hs' => hss s' (List.mem_cons_of_mem s hs')
      simp only [List.length_cons, readSlots, readAll, hoffset, hrest, hread]

/-! ### Reading what was written -/

section

variable {rs : List Record} {idx : List Slot}

/-- The file with the index `idx`. -/
def fileOf (rs : List Record) (idx : List Slot) : List Byte :=
  toc rs ++ rs.flatMap Record.bytes ++ idx.flatMap Slot.bytes

theorem length_toc (rs : List Record) : (toc rs).length = 2048 := by
  rw [toc, length_flatMap_const (n := 8) (by simp), List.length_range]

theorem drop_fileOf (rs : List Record) (idx : List Slot) (k : Nat) :
    (fileOf rs idx).drop (2048 + datasize rs + 8 * k) = (idx.drop k).flatMap Slot.bytes := by
  have hlen : (toc rs ++ rs.flatMap Record.bytes).length = 2048 + datasize rs := by
    rw [List.length_append, length_toc, datasize]
  rw [fileOf, ← List.drop_drop, List.drop_left' hlen, drop_flatMap_const length_slotBytes]

theorem drop_toc (rs : List Record) {i : Nat} (hi : i < 256) : ∃ rest, (toc rs).drop (8 * i) =
    encode 4 (2048 + datasize rs + 8 * startOf (counts rs) i) ++ (encode 4 (counts rs i) ++ rest) := by
  have hrange : (List.range 256).drop i = i :: (List.range 256).drop (i + 1) := by
    rw [List.drop_eq_getElem_cons (by simpa using hi), List.getElem_range]
  have hdrop := drop_flatMap_const (n := 8) (l := List.range 256) (f := fun i =>
    encode 4 (2048 + datasize rs + 8 * startOf (counts rs) i) ++ encode 4 (counts rs i)) (by simp) i
  rw [hrange, List.flatMap_cons, List.append_assoc] at hdrop
  exact ⟨_, hdrop⟩

theorem readZeroed_index (rs : List Record) (idx : List Slot) (k count : Nat) :
    ∃ j, readZeroed (fileOf rs idx) (2048 + datasize rs + 8 * k) (8 * count) =
        ((idx.drop k).take count ++ List.replicate j blank).flatMap Slot.bytes ∧
      ((idx.drop k).take count ++ List.replicate j blank).length = count := by
  have hzeros : ∀ j, List.replicate (8 * j) (0 : Byte) = (List.replicate j blank).flatMap Slot.bytes := by
    intro j
    induction j with
    | zero => rfl
    | succ j ih =>
        rw [Nat.mul_succ, Nat.add_comm, List.replicate_add, ih]
        rfl
  refine ⟨count - ((idx.drop k).take count).length, ?_, ?_⟩
  · rw [readZeroed, drop_fileOf, take_flatMap_const length_slotBytes, List.flatMap_append, ← hzeros,
      length_flatMap_const length_slotBytes, ← Nat.mul_sub]
  · have hle : ((idx.drop k).take count).length ≤ count := List.length_take_le _ _
    rw [List.length_append, List.length_replicate]
    omega

variable (hput : putSlots (startOf (counts rs)) 2048 rs (List.replicate rs.length blank) = some idx)

include hput

theorem mem_idx {s : Slot} (hs : s ∈ idx) : s ∈ slotsOf 2048 rs ∨ s = blank := by
  rw [putSlots_eq_fill] at hput
  exact (mem_fill hput hs).imp_right List.eq_of_mem_replicate

variable (hlen : rs.length < 2 ^ 27) (hsmall : 2048 + datasize rs + 8 * rs.length < 2 ^ 31)

include hlen hsmall

theorem readBucket_fileOf {i : Nat} (hi : i < 256) : readBucket (fileOf rs idx) (toc rs) i =
    readAll (fileOf rs idx) ((idx.drop (startOf (counts rs) i)).take (counts rs i)) := by
  obtain ⟨rest, hrest⟩ := drop_toc rs hi
  have hcounts := counts_eq rs (by omega) i
  have hle := counter_le (names rs i)
  have hnames : names rs i ≤ rs.length := List.countP_le_length
  have hcount : readi4 ((toc rs).drop (8 * i + 4)) = counts rs i := by
    rw [← List.drop_drop, hrest, List.drop_left' (length_encode 4 _), readi4_encode (by omega)]
  rw [readBucket, hcount]
  by_cases hzero : counts rs i = 0
  · simp [hzero, readAll]
  · -- the bucket has a name, so that it starts in the index
    have hstart : startOf (counts rs) i < rs.length := by
      have hpos : 0 < countIn Slot.bucket (slotsOf 2048 rs) i := by
        rw [countIn_slotsOf]
        refine Nat.pos_of_ne_zero fun hnone => hzero ?_
        rw [hcounts, hnone]
        rfl
      obtain ⟨s, hs, hb⟩ := List.countP_pos_iff.mp hpos
      have hput' := hput
      rw [putSlots_eq_fill] at hput'
      have hlt := start_lt_of_fill hput' hs
      rwa [beq_iff_eq.mp hb, List.length_replicate] at hlt
    have hoffset : readi4 ((toc rs).drop (8 * i)) = (2048 + datasize rs + 8 * startOf (counts rs) i : Nat) := by
      rw [hrest, readi4_encode (by omega)]
    obtain ⟨j, hread, hlength⟩ := readZeroed_index rs idx (startOf (counts rs) i) (counts rs i)
    have hoffsets : ∀ s ∈ (idx.drop (startOf (counts rs) i)).take (counts rs i) ++ List.replicate j blank,
        s.offset < 2 ^ 31 := by
      intro s hs
      rcases List.mem_append.mp hs with hs | hs
      · rcases mem_idx hput (List.mem_of_mem_drop (List.mem_of_mem_take hs)) with hs | rfl
        · obtain ⟨pre, r, post, rfl, rfl⟩ := mem_slotsOf hs
          simp only [datasize, List.flatMap_append, List.length_append] at hsmall ⊢
          omega
        · exact Nat.two_pow_pos 31
      · rw [List.eq_of_mem_replicate hs]
        exact Nat.two_pow_pos 31
    have hslots := readSlots_bytes (fileOf rs idx) hoffsets
    rw [hlength, ← hread, readAll_append, readAll_blank] at hslots
    have hneg : ¬((2048 + datasize rs + 8 * startOf (counts rs) i : Nat) < (0 : Int) ∨ (counts rs i : Int) < 0) := by
      omega
    simp only [hoffset]
    rw [if_neg (by exact_mod_cast hzero), if_neg hneg, Int.toNat_natCast, Int.toNat_natCast, hslots]
    simp

theorem cdbRead_fileOf : cdbRead (fileOf rs idx) = readAll (fileOf rs idx) idx := by
  have hbuckets : ∀ is : List Nat, (∀ i ∈ is, i < 256) → readBuckets (fileOf rs idx) (toc rs) is =
      readAll (fileOf rs idx)
        (is.flatMap fun i => (idx.drop (startOf (counts rs) i)).take (counts rs i)) := by
    intro is his
    induction is with
    | nil => rfl
    | cons i is ih =>
        rw [readBuckets, readBucket_fileOf hput hlen hsmall (his i List.mem_cons_self),
          ih fun i' hi' => his i' (List.mem_cons_of_mem i hi'), List.flatMap_cons, readAll_append]
  have htoc : readZeroed (fileOf rs idx) 0 2048 = toc rs := by
    rw [readZeroed, List.drop_zero, fileOf, List.append_assoc, List.take_left' (length_toc rs), length_toc]
    simp
  have hall : idx.length ≤ startOf (counts rs) 256 := by
    have hput' := hput
    rw [putSlots_eq_fill] at hput'
    have hmono : startOf (countIn Slot.bucket (slotsOf 2048 rs)) 256 ≤ startOf (counts rs) 256 := by
      refine startOf_le (fun b => ?_) 256
      rw [countIn_slotsOf, counts_eq _ (by omega)]
      exact le_counter _
    have hcount : ((slotsOf 2048 rs).countP fun s => decide (s.bucket < 256)) = (slotsOf 2048 rs).length := by
      refine List.countP_eq_length.mpr fun s _ => decide_eq_true ?_
      rw [Slot.bucket]
      omega
    rwa [startOf_countIn, hcount, length_slotsOf, ← List.length_replicate (n := rs.length) (a := blank),
      ← fill_length hput'] at hmono
  rw [cdbRead, htoc, hbuckets _ fun i hi => List.mem_range.mp hi, flatMap_buckets, List.take_of_length_le hall]

end

/-! ### When a table comes back -/

section

variable {rs pre post : List Record} {r : Record} {idx : List Slot}

theorem readOffset_fileOf (hrs : rs = pre ++ r :: post) (hname : ValidName r.name) (hstr : r.str.length < 2 ^ 31) :
    readOffset (fileOf rs idx) (2048 + datasize pre : Nat) = r.read := by
  have hfile : fileOf rs idx = (toc rs ++ pre.flatMap Record.bytes) ++
      (r.bytes ++ (post.flatMap Record.bytes ++ idx.flatMap Slot.bytes)) := by
    have hrecords : rs.flatMap Record.bytes = pre.flatMap Record.bytes ++ (r.bytes ++ post.flatMap Record.bytes) := by
      rw [hrs, List.flatMap_append, List.flatMap_cons]
    rw [fileOf, hrecords]
    simp only [List.append_assoc]
  have hpos : (toc rs ++ pre.flatMap Record.bytes).length = 2048 + datasize pre := by
    rw [List.length_append, length_toc, datasize]
  have hread := readRecord_bytes hfile hname hstr
  rw [hpos] at hread
  rw [readOffset, if_neg (by omega), if_neg (by omega), Int.toNat_natCast, hread]

theorem read_of_plain (hstr : r.str.length < 2 ^ 31) (h : Plain r.str.length) : r.read = some [r.call] := by
  have hlen : readi4Char (encode 4 r.str.length) = r.str.length := (readi4Char_encode hstr).2.mpr h
  simp only [Record.read, hlen]
  rw [if_neg (by omega), Int.toNat_natCast, List.take_length, Record.call]

theorem plain_of_read (hstr : r.str.length < 2 ^ 31) {cs : List TableCall} (h : r.read = some cs)
    (hmem : r.call ∈ cs) : Plain r.str.length := by
  obtain ⟨hle, hiff⟩ := readi4Char_encode hstr
  refine hiff.mp (Int.le_antisymm hle ?_)
  simp only [Record.read] at h
  split at h
  · nomatch h
  · rw [← Option.some.inj h, List.mem_singleton, Record.call, TableCall.set.injEq, Setting.string.injEq] at hmem
    have hlength := congrArg List.length hmem.2
    rw [List.length_take] at hlength
    omega

theorem name_of_read {cs : List TableCall} (h : r.read = some cs) {k : List Byte} {v : Setting}
    (hmem : TableCall.set k v ∈ cs) : k = r.name := by
  simp only [Record.read] at h
  split at h
  · nomatch h
  · rw [← Option.some.inj h, List.mem_singleton, TableCall.set.injEq] at hmem
    exact hmem.1

end

section

variable (t : Table)

theorem Table.length_lt : t.records.length < 2 ^ 27 := by
  have hsmall := t.small
  have hlen : 8 * t.records.length ≤ datasize t.records := by
    rw [datasize]
    generalize t.records = rs
    induction rs with
    | nil => exact Nat.le_refl 0
    | cons r rs ih =>
        rw [List.flatMap_cons, List.length_append, length_recordBytes, List.length_cons]
        omega
  omega

variable {t} {r r' : Record}

theorem Table.str_lt (hr : r ∈ t.records) : r.str.length < 2 ^ 31 := by
  have hsmall := t.small
  obtain ⟨pre, post, hrs⟩ := List.append_of_mem hr
  rw [hrs, datasize, List.flatMap_append, List.flatMap_cons, List.length_append, List.length_append,
    length_recordBytes] at hsmall
  omega

theorem Table.eq_of_name (hr : r ∈ t.records) (hr' : r' ∈ t.records) (h : r.name = r'.name) : r = r' :=
  List.inj_on_of_nodup_map t.nodup hr hr' h

/-- A slot of the file, and its record. -/
theorem Table.slot_cases {idx : List Slot} {s : Slot} {cs : List TableCall} {k : List Byte} {v : Setting}
    (hs : s ∈ slotsOf 2048 t.records ∨ s = blank) (hread : readOffset (fileOf t.records idx) s.offset = some cs)
    (hmem : TableCall.set k v ∈ cs) :
    ∃ pre r post, t.records = pre ++ r :: post ∧ s = ⟨(cdbHash r.name).toNat % 2 ^ 32, 2048 + datasize pre⟩ ∧
      r.read = some cs ∧ k = r.name := by
  rcases hs with hs | rfl
  · obtain ⟨pre, r, post, hrs, rfl⟩ := mem_slotsOf hs
    have hr : r ∈ t.records := by simp [hrs]
    rw [readOffset_fileOf hrs (t.names r hr).1 (Table.str_lt hr)] at hread
    exact ⟨pre, r, post, hrs, rfl, hread, name_of_read hread hmem⟩
  · have hnone : readOffset (fileOf t.records idx) blank.offset = some [] := rfl
    rw [hnone] at hread
    rw [← Option.some.inj hread] at hmem
    exact absurd hmem List.not_mem_nil

variable (t)

/-- A table comes back if every record keeps its slot, and every length is read as it is. -/
theorem roundTrips_iff_slots : RoundTrips t ↔
    (∃ idx, putSlots (startOf (counts t.records)) 2048 t.records (List.replicate t.records.length blank) = some idx ∧
        ∀ s ∈ slotsOf 2048 t.records, s ∈ idx) ∧ ∀ r ∈ t.records, Plain r.str.length := by
  have hcall : ∀ {k v}, TableCall.set k v ∈ t.records.map Record.call ↔
      ∃ r ∈ t.records, r.name = k ∧ Setting.string r.str = v := by
    intro k v
    simp [Record.call]
  have hone : ∀ k v w, TableCall.set k v ∈ t.records.map Record.call →
      TableCall.set k w ∈ t.records.map Record.call → v = w := by
    intro k v w hv hw
    obtain ⟨r, hr, hk, rfl⟩ := hcall.mp hv
    obtain ⟨r', hr', hk', rfl⟩ := hcall.mp hw
    rw [Table.eq_of_name hr hr' (hk.trans hk'.symm)]
  constructor
  · rintro ⟨file, hwrite, calls, hread, hmap⟩
    rw [cdbWrite] at hwrite
    cases hput : putSlots (startOf (counts t.records)) 2048 t.records (List.replicate t.records.length blank) with
    | none =>
        rw [hput] at hwrite
        nomatch hwrite
    | some idx =>
        rw [hput] at hwrite
        obtain rfl : fileOf t.records idx = file := Option.some.inj hwrite
        rw [cdbRead_fileOf hput t.length_lt t.small] at hread
        -- the record of a name is read through a slot of its own
        have hall : ∀ r ∈ t.records, Plain r.str.length ∧ ∃ pre post, t.records = pre ++ r :: post ∧
            (⟨(cdbHash r.name).toNat % 2 ^ 32, 2048 + datasize pre⟩ : Slot) ∈ idx := by
          intro r hr
          obtain ⟨v, hv⟩ := exists_mapOf (hcall.mpr ⟨r, hr, rfl, rfl⟩)
          obtain rfl := hone _ _ _ (mem_of_mapOf hv) (hcall.mpr ⟨r, hr, rfl, rfl⟩)
          rw [← hmap] at hv
          obtain ⟨s, hs, cs, hcs, hmem⟩ := mem_readAll hread (mem_of_mapOf hv)
          obtain ⟨pre, r', post, hrs, rfl, hread', hname⟩ := Table.slot_cases (mem_idx hput hs) hcs hmem
          obtain rfl := Table.eq_of_name hr (by simp [hrs]) hname
          exact ⟨plain_of_read (Table.str_lt hr) hread' hmem, pre, post, hrs, hs⟩
        refine ⟨⟨idx, rfl, fun s hs => ?_⟩, fun r hr => (hall r hr).1⟩
        obtain ⟨pre, r, post, hrs, rfl⟩ := mem_slotsOf hs
        obtain ⟨-, pre', post', hrs', hmem⟩ := hall r (by simp [hrs])
        have hnodup := t.nodup.of_map
        rw [hrs, List.nodup_middle, List.nodup_cons, List.mem_append, not_or] at hnodup
        obtain ⟨rfl, -, rfl⟩ := (List.append_cons_inj_of_notMem hnodup.1.1 hnodup.1.2).mp (hrs.symm.trans hrs')
        exact hmem
  · rintro ⟨⟨idx, hput, hall⟩, hplain⟩
    have hwrite : cdbWrite t.records = some (fileOf t.records idx) := by rw [cdbWrite, hput, fileOf]
    have hslot : ∀ {pre r post}, t.records = pre ++ r :: post →
        readOffset (fileOf t.records idx) (2048 + datasize pre : Nat) = some [r.call] := by
      intro pre r post hrs
      have hr : r ∈ t.records := by simp [hrs]
      rw [readOffset_fileOf hrs (t.names r hr).1 (Table.str_lt hr), read_of_plain (Table.str_lt hr) (hplain r hr)]
    have hreads : ∀ s ∈ idx, ∃ cs, readOffset (fileOf t.records idx) s.offset = some cs := by
      intro s hs
      rcases mem_idx hput hs with hs | rfl
      · obtain ⟨pre, r, post, hrs, rfl⟩ := mem_slotsOf hs
        exact ⟨_, hslot hrs⟩
      · exact ⟨[], rfl⟩
    obtain ⟨calls, hcalls, hsub⟩ := exists_readAll hreads
    refine ⟨_, hwrite, calls, (cdbRead_fileOf hput t.length_lt t.small).trans hcalls, ?_⟩
    refine mapOf_congr (fun k v => ⟨fun hmem => ?_, fun hmem => ?_⟩) hone
    · obtain ⟨s, hs, cs, hcs, hmem⟩ := mem_readAll hcalls hmem
      obtain ⟨pre, r, post, hrs, rfl, hread, rfl⟩ := Table.slot_cases (mem_idx hput hs) hcs hmem
      have hr : r ∈ t.records := by simp [hrs]
      rw [read_of_plain (Table.str_lt hr) (hplain r hr), Option.some.injEq] at hread
      rw [← hread, List.mem_singleton] at hmem
      exact List.mem_map.mpr ⟨r, hr, hmem.symm⟩
    · obtain ⟨r, hr, hrv⟩ := List.mem_map.mp hmem
      obtain ⟨pre, post, hrs⟩ := List.append_of_mem hr
      have hmem' : (⟨(cdbHash r.name).toNat % 2 ^ 32, 2048 + datasize pre⟩ : Slot) ∈ idx := by
        refine hall _ ?_
        rw [hrs]
        exact exists_slotOf
      exact hrv ▸ hsub _ hmem' _ (hslot hrs) List.mem_cons_self

/-- What is left for the table to be sound. -/
theorem sound_iff (rs : List Record) : Sound rs ↔
    ((∀ b, names rs b ≠ 0 → ∀ k < b, Counted (names rs k)) ∧
      rs.Pairwise fun r r' => hashmod (cdbHash r'.name) = hashmod (cdbHash r.name) →
        (cdbHash r.name).toNat % 2 ^ 32 ≠ 0) ∧ ∀ r ∈ rs, Plain r.str.length :=
  ⟨fun h => ⟨⟨h.counted, h.hashes⟩, h.lengths⟩, fun h => ⟨h.2, h.1.1, h.1.2⟩⟩

/-- A table comes back from its file if and only if it is sound. -/
theorem roundTrips_iff : RoundTrips t ↔ Sound t.records := by
  have hlen := t.length_lt
  rw [roundTrips_iff_slots, putSlots_iff (by omega), ← sound_iff]

end

/-- A string of 200 bytes. -/
def longRecord : Record := ⟨bytes "a", List.replicate 200 0⟩

theorem length_longRecord : longRecord.str.length = 200 := List.length_replicate

/-- A table with it. -/
def longString : Table where
  records := [longRecord]
  names := by
    intro r hr
    rw [List.mem_singleton] at hr
    subst hr
    exact ⟨⟨by decide, by decide, by decide, fun h => absurd h (by decide)⟩, by decide⟩
  nodup := List.nodup_singleton _
  small := by
    rw [datasize, List.flatMap_singleton, length_recordBytes, length_longRecord]
    decide

/-- Its length is below zero for `cdb_read`. -/
theorem not_roundTrips_long : ¬RoundTrips longString := by
  intro h
  have hplain := ((roundTrips_iff_slots longString).mp h).2 longRecord List.mem_cons_self
  rw [length_longRecord] at hplain
  exact absurd hplain.1 (by decide)

end NullG.Libs.Cdb
