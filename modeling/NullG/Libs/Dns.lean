/-
The lookup of names (`libs/net/dns.c`, the part for POSIX).

The class and the time to live of a record are not read (`GETSHORT(class, cp)` and `GETLONG(ttl, cp)` are comments), so
that the class is taken for the length of the data, and the data is read where the time to live is. A response is
decoded only if its bytes are the same records in this shorter layout too (`decodes_iff`).
-/

import NullG.Lib.DomainName
import NullG.Mail.Numbers

namespace NullG.Libs.Dns

open NullG.Nsp NullG.Lib NullG.Mail

/-- `dn_expand` and `dn_skipname`: names are read as RFC 1035 says, and `text` is how their labels are written. -/
structure Resolver where
  expand : List Byte → Nat → Option (List Byte × Nat)
  skipname : List Byte → Nat → Option Nat
  text : List (List Byte) → List Byte
  expand_name : ∀ {msg p labels n}, NameAt msg p p labels n → expand msg p = some (text labels, n)
  skipname_name : ∀ {msg p labels n}, NameAt msg p p labels n → skipname msg p = some n

/-- A field of an entry. -/
inductive Value where
  | str (s : List Byte)
  | num (n : Nat)
deriving DecidableEq

/-- An entry of the table. -/
abbrev Entry := List (String × Value)

/-- How the reading of a record ends. -/
inductive Ending where
  /-- `break` -/
  | stop
  /-- `return -1` -/
  | failed
  /-- the next record is there -/
  | next (cp : Nat)

def tA : Nat := 1
def tNs : Nat := 2
def tSoa : Nat := 6
def tPtr : Nat := 12
def tMx : Nat := 15

/-- `GETSHORT`. There is no result behind the buffer. -/
def getShort (buf : List Byte) (cp : Nat) : Option Nat :=
  match buf[cp]?, buf[cp + 1]? with
  | some a, some b => some (a.toNat * 256 + b.toNat)
  | _, _ => none

/-- `GETLONG`. -/
def getLong (buf : List Byte) (cp : Nat) : Option Nat :=
  match getShort buf cp, getShort buf (cp + 2) with
  | some a, some b => some (a * 65536 + b)
  | _, _ => none

/-- `"%d.%d.%d.%d"` of the bytes at `cp`. -/
def getAddr (buf : List Byte) (cp : Nat) : Option (List Byte) :=
  match buf[cp]?, buf[cp + 1]?, buf[cp + 2]?, buf[cp + 3]? with
  | some a, some b, some c, some d =>
      some (natDigits a.toNat ++ [ch '.'] ++ natDigits b.toNat ++ [ch '.'] ++ natDigits c.toNat ++ [ch '.'] ++
        natDigits d.toNat)
  | _, _, _, _ => none

/-- The entries that are made. -/
def entryA (host addr : List Byte) : Entry := [("type", .str (bytes "A")), ("host", .str host), ("addr", .str addr)]

def entryNs (host : List Byte) : Entry := [("type", .str (bytes "NS")), ("host", .str host)]

def entryPtr (host : List Byte) : Entry := [("type", .str (bytes "PTR")), ("host", .str host)]

def entryMx (pref : Nat) (host : List Byte) : Entry :=
  [("type", .str (bytes "MX")), ("pref", .num pref), ("host", .str host)]

def entrySoa (host mail : List Byte) (serial refresh retry expire minttl : Nat) : Entry :=
  [("type", .str (bytes "SOA")), ("host", .str host), ("mail", .str mail), ("serial", .num serial),
    ("refresh", .num refresh), ("retry", .num retry), ("expire", .num expire), ("minttl", .num minttl)]

/-- The entry of a record whose data is a name. -/
def nameEntry (r : Resolver) (msg : List Byte) (cp e : Nat) (entry : List Byte → Entry) : Entry × Ending :=
  match r.expand msg cp with
  | none => ([], .failed)
  | some (host, _) => (entry host, .next e)

/-- The `switch` on the type of a record whose data is at `cp` and ends at `e`. There is no result if it reads behind
the buffer. -/
def readData (r : Resolver) (msg buf : List Byte) (type : Nat) (host : List Byte) (cp e : Nat) :
    Option (Entry × Ending) :=
  if type = tA then
    match getAddr buf cp with
    | none => none
    | some addr => some (entryA host addr, .next e)
  else if type = tNs then some (nameEntry r msg cp e entryNs)
  else if type = tSoa then
    -- `n` is unsigned, so that a name that is not expanded moves `cp` behind the buffer
    match r.expand msg cp with
    | none => none
    | some (host, n) =>
        match r.expand msg (cp + n) with
        | none => none
        | some (mail, m) =>
            let cp := cp + n + m
            match getLong buf cp, getLong buf (cp + 4), getLong buf (cp + 8), getLong buf (cp + 12),
              getLong buf (cp + 16) with
            | some serial, some refresh, some retry, some expire, some minttl =>
                some (entrySoa host mail serial refresh retry expire minttl, .next e)
            | _, _, _, _, _ => none
  else if type = tPtr then some (nameEntry r msg cp e entryPtr)
  else if type = tMx then
    match getShort buf cp with
    | none => none
    | some pref => some (nameEntry r msg (cp + 2) e (entryMx pref))
  else some ([("type", .num type)], .next e)

/-- A record. -/
def readRecord (r : Resolver) (msg buf : List Byte) (cp : Nat) : Option (Entry × Ending) :=
  match r.expand msg cp with
  | none => some ([], .stop)
  | some (host, n) =>
      let cp := cp + n
      match getShort buf cp, getShort buf (cp + 2) with
      | some type, some dlen => readData r msg buf type host (cp + 4) (cp + 4 + dlen)
      | _, _ => none

/-- The loop that reads the records: what is returned, the entries, and where it ends. -/
def readRecords (r : Resolver) (msg buf : List Byte) : Nat → Nat → List Entry → Option (Int × List Entry × Nat)
  | 0, cp, entries => some (0, entries, cp)
  | ancount + 1, cp, entries =>
      if cp < msg.length then
        match readRecord r msg buf cp with
        | none => none
        | some (entry, .stop) => some (0, entries ++ [entry], cp)
        | some (entry, .failed) => some (-1, entries ++ [entry], cp)
        | some (entry, .next e) => readRecords r msg buf ancount e (entries ++ [entry])
      else some (0, entries, cp)

/-- The loop that skips the questions. -/
def skipQuestions (r : Resolver) (msg : List Byte) : Nat → Nat → Option Nat
  | 0, cp => some cp
  | qdcount + 1, cp =>
      if cp < msg.length then
        match r.skipname msg cp with
        | none => none
        | some n => skipQuestions r msg qdcount (cp + n + 4)
      else some cp

/-- `dns_lookup` where `res_search` has returned `n` and has left `buf`: what is returned, the entries, and where it
ends. -/
def dnsLookup (r : Resolver) (n : Int) (buf : List Byte) : Option (Int × List Entry × Nat) :=
  if n < 12 then some (-1, [], 0)
  else
    let n := min n.toNat 8192
    let msg := buf.take n
    match getShort buf 4, getShort buf 6 with
    | some qdcount, some ancount =>
        match skipQuestions r msg qdcount 12 with
        | none => some (-1, [], 12)
        | some cp => readRecords r msg buf ancount cp []
    | _, _ => none

/-! ### Responses -/

/-- The data of a record. -/
inductive RData where
  | a (addr : List Byte)
  | ns (host : List Byte)
  | soa (host mail : List Byte) (serial refresh retry expire minttl : Nat)
  | ptr (host : List Byte)
  | mx (pref : Nat) (host : List Byte)

/-- A record of the answer section. -/
structure Answer where
  owner : List Byte
  data : RData

def RData.type : RData → Nat
  | .a _ => tA
  | .ns _ => tNs
  | .soa .. => tSoa
  | .ptr _ => tPtr
  | .mx .. => tMx

/-- The entry of a record: its type, its host, and its address or what else there is. -/
def Answer.entry (answer : Answer) : Entry :=
  match answer.data with
  | .a addr => entryA answer.owner addr
  | .ns host => entryNs host
  | .soa host mail serial refresh retry expire minttl => entrySoa host mail serial refresh retry expire minttl
  | .ptr host => entryPtr host
  | .mx pref host => entryMx pref host

section

variable (r : Resolver) (msg buf : List Byte)

/-- The data is at `p` and has `len` bytes; `name` says where which name is. -/
def DataAt (name : Nat → List Byte → Nat → Prop) (p len : Nat) : RData → Prop
  | .a addr => getAddr buf p = some addr ∧ len = 4
  | .ns host => name p host len
  | .soa host mail serial refresh retry expire minttl =>
      ∃ n m, name p host n ∧ name (p + n) mail m ∧ getLong buf (p + n + m) = some serial ∧
        getLong buf (p + n + m + 4) = some refresh ∧ getLong buf (p + n + m + 8) = some retry ∧
        getLong buf (p + n + m + 12) = some expire ∧ getLong buf (p + n + m + 16) = some minttl ∧ len = n + m + 20
  | .ptr host => name p host len
  | .mx pref host => getShort buf p = some pref ∧ ∃ n, name (p + 2) host n ∧ len = 2 + n

/-- A name of a message. -/
def HasName (p : Nat) (host : List Byte) (n : Nat) : Prop :=
  ∃ labels, NameAt msg p p labels n ∧ host = r.text labels

/-- A record as RFC 1035 lays it out: name, type, class, time to live, length and data. -/
def RecordAt (answer : Answer) (p next : Nat) : Prop :=
  ∃ n cls ttl len, HasName r msg p answer.owner n ∧ getShort msg (p + n) = some answer.data.type ∧
    getShort msg (p + n + 2) = some cls ∧ getLong msg (p + n + 4) = some ttl ∧ getShort msg (p + n + 8) = some len ∧
    DataAt msg (HasName r msg) (p + n + 10) len answer.data ∧ next = p + n + 10 + len

def RecordsAt : List Answer → Nat → Nat → Prop
  | [], p, stop => p = stop
  | answer :: answers, p, stop => ∃ next, RecordAt r msg answer p next ∧ RecordsAt answers next stop

/-- The questions: a name, a type and a class each. -/
def QuestionsAt : Nat → Nat → Nat → Prop
  | 0, p, start => p = start
  | qdcount + 1, p, start => ∃ labels n, NameAt msg p p labels n ∧ QuestionsAt qdcount (p + n + 4) start

/-- A response with these records between `start` and `stop`, whose questions are in the buffer. -/
structure WellFormed (answers : List Answer) (start stop : Nat) : Prop where
  long : 12 ≤ msg.length
  questions : ∃ qdcount, getShort msg 4 = some qdcount ∧ QuestionsAt (msg.take 8192) qdcount 12 start
  ancount : getShort msg 6 = some answers.length
  answers : RecordsAt r msg answers start stop

/-- A record in the layout without class and time to live. The next one is where its length says. -/
def ShortRecordAt (answer : Answer) (p next : Nat) : Prop :=
  ∃ owner n dlen len, r.expand msg p = some (owner, n) ∧ getShort buf (p + n) = some answer.data.type ∧
    getShort buf (p + n + 2) = some dlen ∧
    DataAt buf (fun p host n => r.expand msg p = some (host, n)) (p + n + 4) len answer.data ∧
    (answer.data.type = tA → owner = answer.owner) ∧ next = p + n + 4 + dlen

def ShortRecordsAt : List Answer → Nat → Nat → Prop
  | [], p, stop => p = stop
  | answer :: answers, p, stop =>
      p < msg.length ∧ ∃ next, ShortRecordAt r msg buf answer p next ∧ ShortRecordsAt answers next stop

/-- The lookup makes the entries of the records, in their order, and ends behind the last of them. -/
def Decodes (stale : List Byte) (answers : List Answer) (stop : Nat) : Prop :=
  dnsLookup r msg.length (msg.take 8192 ++ stale) = some (0, answers.map Answer.entry, stop)

end

section

variable {r : Resolver} {msg buf : List Byte} {answer : Answer} {p next : Nat}

/-! ### What is decoded -/

theorem Answer.entry_ne_nil (answer : Answer) : answer.entry ≠ [] := by
  obtain ⟨owner, data⟩ := answer
  cases data <;> exact List.cons_ne_nil _ _

theorem nameEntry_next {cp e e' : Nat} {entry : List Byte → Entry} {x : Entry}
    (h : nameEntry r msg cp e entry = (x, .next e')) :
    ∃ host n, r.expand msg cp = some (host, n) ∧ x = entry host ∧ e' = e := by
  unfold nameEntry at h
  split at h
  · exact nomatch (Prod.mk.inj h).2
  · next host n hname =>
      obtain ⟨hx, he⟩ := Prod.mk.inj h
      exact ⟨host, n, hname, hx.symm, (Ending.next.inj he).symm⟩

/-- What a record whose data is read is, by its type. -/
theorem readData_next {type cp e e' : Nat} {host : List Byte} {x : Entry}
    (h : readData r msg buf type host cp e = some (x, .next e')) :
    e' = e ∧ (x = [("type", .num type)] ∨ ∃ owner data len, x = Answer.entry ⟨owner, data⟩ ∧ type = data.type ∧
      DataAt buf (fun p host n => r.expand msg p = some (host, n)) cp len data ∧ (data.type = tA → host = owner)) := by
  unfold readData at h
  split at h
  · next htype =>
      split at h
      · exact nomatch h
      · next addr haddr =>
          obtain ⟨rfl, he⟩ := Prod.mk.inj (Option.some.inj h)
          exact ⟨(Ending.next.inj he).symm, .inr ⟨host, .a addr, 4, rfl, htype, ⟨haddr, rfl⟩, fun _ => rfl⟩⟩
  split at h
  · next htype =>
      obtain ⟨name, n, hname, rfl, he⟩ := nameEntry_next (Option.some.inj h)
      exact ⟨he, .inr ⟨host, .ns name, n, rfl, htype, hname, fun _ => rfl⟩⟩
  split at h
  · next htype =>
      split at h
      · exact nomatch h
      next name n hname =>
      split at h
      · exact nomatch h
      next mail m hmail =>
      dsimp only at h
      split at h
      · next serial refresh retry expire minttl h1 h2 h3 h4 h5 =>
          obtain ⟨rfl, he⟩ := Prod.mk.inj (Option.some.inj h)
          exact ⟨(Ending.next.inj he).symm, .inr ⟨host, .soa name mail serial refresh retry expire minttl, n + m + 20,
            rfl, htype, ⟨n, m, hname, hmail, h1, h2, h3, h4, h5, rfl⟩, fun _ => rfl⟩⟩
      · exact nomatch h
  split at h
  · next htype =>
      obtain ⟨name, n, hname, rfl, he⟩ := nameEntry_next (Option.some.inj h)
      exact ⟨he, .inr ⟨host, .ptr name, n, rfl, htype, hname, fun _ => rfl⟩⟩
  split at h
  · next htype =>
      split at h
      · exact nomatch h
      · next pref hpref =>
          obtain ⟨name, n, hname, rfl, he⟩ := nameEntry_next (Option.some.inj h)
          exact ⟨he, .inr ⟨host, .mx pref name, 2 + n, rfl, htype, ⟨hpref, n, hname, rfl⟩, fun _ => rfl⟩⟩
  · obtain ⟨rfl, he⟩ := Prod.mk.inj (Option.some.inj h)
    exact ⟨(Ending.next.inj he).symm, .inl rfl⟩

/-- The fields of an entry say what its record was, but for the owner of a record that is no address. -/
theorem entry_inj {a b : Answer} (h : a.entry = b.entry) :
    a.data = b.data ∧ (a.data.type = tA → a.owner = b.owner) := by
  obtain ⟨owner, data⟩ := a
  obtain ⟨owner', data'⟩ := b
  cases data <;> cases data' <;>
    simp_all [Answer.entry, entryA, entryNs, entrySoa, entryPtr, entryMx, bytes, RData.type, tA, tNs, tSoa, tPtr, tMx]

/-- The data of a record is read as it is laid out. -/
theorem readData_of_dataAt {cp len e : Nat} {host : List Byte}
    (h : DataAt buf (fun p host n => r.expand msg p = some (host, n)) cp len answer.data)
    (howner : answer.data.type = tA → host = answer.owner) :
    readData r msg buf answer.data.type host cp e = some (answer.entry, .next e) := by
  obtain ⟨owner, data⟩ := answer
  cases data with
  | a addr =>
      obtain rfl : host = owner := howner rfl
      simp [readData, RData.type, h.1, Answer.entry]
  | ns name =>
      simp [readData, RData.type, tA, tNs, nameEntry, show r.expand msg cp = some (name, len) from h, Answer.entry]
  | soa name mail serial refresh retry expire minttl =>
      obtain ⟨n, m, hname, hmail, h1, h2, h3, h4, h5, -⟩ := h
      simp [readData, RData.type, tA, tNs, tSoa, hname, hmail, h1, h2, h3, h4, h5, Answer.entry]
  | ptr name =>
      simp [readData, RData.type, tA, tNs, tSoa, tPtr, nameEntry, show r.expand msg cp = some (name, len) from h,
        Answer.entry]
  | mx pref name =>
      obtain ⟨hpref, n, hname, -⟩ := h
      simp [readData, RData.type, tA, tNs, tSoa, tPtr, tMx, hpref, nameEntry, hname, Answer.entry]

/-- A record is read if it is one in the layout without class and time to live, and only then. -/
theorem readRecord_iff : readRecord r msg buf p = some (answer.entry, .next next) ↔
    ShortRecordAt r msg buf answer p next := by
  constructor
  · intro h
    unfold readRecord at h
    split at h
    · exact nomatch (Prod.mk.inj (Option.some.inj h)).2
    next owner n hname =>
    dsimp only at h
    split at h
    · next type dlen htype hdlen =>
        obtain ⟨he, hx | ⟨owner', data, len, hentry, rfl, hdata, howner⟩⟩ := readData_next h
        · obtain ⟨owner', data⟩ := answer
          cases data <;> simp [Answer.entry, entryA, entryNs, entrySoa, entryPtr, entryMx] at hx
        · obtain ⟨hsame, hsame'⟩ := entry_inj hentry
          dsimp only at hsame hsame' howner
          refine ⟨owner, n, dlen, len, hname, ?_, hdlen, ?_, fun htype => ?_, he⟩
          · rw [hsame]
            exact htype
          · rw [hsame]
            exact hdata
          · rw [howner (hsame ▸ htype), hsame' htype]
    · exact nomatch h
  · rintro ⟨owner, n, dlen, len, hname, htype, hdlen, hdata, howner, rfl⟩
    rw [readRecord, hname]
    dsimp only
    rw [htype, hdlen]
    exact readData_of_dataAt hdata howner

theorem readData_stop {type cp e : Nat} {host : List Byte} {x : Entry} :
    readData r msg buf type host cp e ≠ some (x, .stop) := by
  have hname : ∀ cp entry, nameEntry r msg cp e entry ≠ (x, .stop) := by
    intro cp entry h
    unfold nameEntry at h
    split at h <;> exact nomatch (Prod.mk.inj h).2
  intro h
  unfold readData at h
  split at h
  · split at h
    · exact nomatch h
    · exact nomatch (Prod.mk.inj (Option.some.inj h)).2
  split at h
  · exact hname _ _ (Option.some.inj h)
  split at h
  · split at h
    · exact nomatch h
    split at h
    · exact nomatch h
    dsimp only at h
    split at h
    · exact nomatch (Prod.mk.inj (Option.some.inj h)).2
    · exact nomatch h
  split at h
  · exact hname _ _ (Option.some.inj h)
  split at h
  · split at h
    · exact nomatch h
    · exact hname _ _ (Option.some.inj h)
  · exact nomatch (Prod.mk.inj (Option.some.inj h)).2

/-- The loop is left where the name of a record is not expanded; its entry has no fields. -/
theorem readRecord_stop {x : Entry} (h : readRecord r msg buf p = some (x, .stop)) : x = [] := by
  unfold readRecord at h
  split at h
  · exact (Prod.mk.inj (Option.some.inj h)).1.symm
  · dsimp only at h
    split at h
    · exact absurd h readData_stop
    · exact nomatch h

/-- What was read before stays. -/
theorem readRecords_prefix {n : Nat} {entries out : List Entry} {rc : Int} {stop : Nat}
    (h : readRecords r msg buf n p entries = some (rc, out, stop)) : entries <+: out := by
  induction n generalizing p entries with
  | zero =>
      obtain ⟨-, h⟩ := Prod.mk.inj (Option.some.inj h)
      rw [(Prod.mk.inj h).1]
  | succ n ih =>
      rw [readRecords] at h
      split at h
      · split at h
        · exact nomatch h
        · obtain ⟨-, h⟩ := Prod.mk.inj (Option.some.inj h)
          rw [← (Prod.mk.inj h).1]
          exact List.prefix_append _ _
        · obtain ⟨-, h⟩ := Prod.mk.inj (Option.some.inj h)
          rw [← (Prod.mk.inj h).1]
          exact List.prefix_append _ _
        · exact (List.prefix_append _ _).trans (ih h)
      · obtain ⟨-, h⟩ := Prod.mk.inj (Option.some.inj h)
        rw [(Prod.mk.inj h).1]

/-- The records are read if they are in this layout, and only then. -/
theorem readRecords_iff {answers : List Answer} (entries : List Entry) {stop : Nat} :
    readRecords r msg buf answers.length p entries = some (0, entries ++ answers.map Answer.entry, stop) ↔
      ShortRecordsAt r msg buf answers p stop := by
  induction answers generalizing p entries with
  | nil =>
      rw [List.map_nil, List.append_nil, List.length_nil, readRecords, ShortRecordsAt]
      simp
  | cons answer answers ih =>
      rw [List.length_cons, readRecords, ShortRecordsAt, List.map_cons, List.append_cons]
      by_cases hp : p < msg.length
      · rw [if_pos hp]
        constructor
        · intro h
          refine ⟨hp, ?_⟩
          split at h
          · exact nomatch h
          · next x hx =>
              -- a record with a name that is not expanded
              have hentries := (Prod.mk.inj (Prod.mk.inj (Option.some.inj h)).2).1
              rw [readRecord_stop hx, List.append_assoc, List.singleton_append] at hentries
              have hfirst := (List.cons.inj (List.append_cancel_left hentries)).1
              exact absurd hfirst.symm answer.entry_ne_nil
          · exact absurd (Prod.mk.inj (Option.some.inj h)).1 (by decide)
          · next x e hx =>
              obtain ⟨t, ht⟩ := readRecords_prefix h
              rw [List.append_assoc, List.append_assoc, List.singleton_append, List.singleton_append] at ht
              obtain rfl := (List.cons.inj (List.append_cancel_left ht)).1
              exact ⟨e, readRecord_iff.mp hx, (ih _).mp h⟩
        · rintro ⟨-, next, hrecord, hrest⟩
          rw [readRecord_iff.mpr hrecord]
          exact (ih _).mpr hrest
      · rw [if_neg hp]
        refine ⟨fun h => ?_, fun h => absurd h.1 hp⟩
        have hlength := congrArg (fun x => x.2.1.length) (Option.some.inj h)
        simp at hlength

/-- The questions are skipped. -/
theorem skipQuestions_run {qdcount start : Nat} (h : QuestionsAt msg qdcount p start) :
    skipQuestions r msg qdcount p = some start := by
  induction qdcount generalizing p with
  | zero =>
      obtain rfl : p = start := h
      rfl
  | succ qdcount ih =>
      obtain ⟨labels, n, hname, hrest⟩ := h
      rw [skipQuestions, if_pos hname.lt_length, r.skipname_name hname]
      exact ih hrest

theorem getShort_append {a b : List Byte} (h : p + 2 ≤ a.length) : getShort (a ++ b) p = getShort a p := by
  rw [getShort, getShort, List.getElem?_append_left (by omega), List.getElem?_append_left (by omega)]

theorem getShort_le_length {x : Nat} (h : getShort msg p = some x) : p + 2 ≤ msg.length := by
  unfold getShort at h
  split at h
  · next _ _ _ hlast => exact lt_of_getElem? hlast
  · exact nomatch h

theorem getShort_mono {a : List Byte} {x : Nat} (h : getShort a p = some x) (b : List Byte) :
    getShort (a ++ b) p = some x :=
  (getShort_append (getShort_le_length h)).trans h

theorem getLong_mono {a : List Byte} {x : Nat} (h : getLong a p = some x) (b : List Byte) :
    getLong (a ++ b) p = some x := by
  unfold getLong at h
  split at h
  · next hi lo hhi hlo =>
      rw [getLong, getShort_mono hhi, getShort_mono hlo]
      exact h
  · exact nomatch h

/-- The lookup reads the records from the first one on. -/
theorem dnsLookup_run (r : Resolver) {msg : List Byte} {answers : List Answer} {start stop : Nat} (stale : List Byte)
    (h : WellFormed r msg answers start stop) : dnsLookup r msg.length (msg.take 8192 ++ stale) =
      readRecords r (msg.take 8192) (msg.take 8192 ++ stale) answers.length start [] := by
  have hlong := h.long
  obtain ⟨qdcount, hqdcount, hquestions⟩ := h.questions
  have hlength : (msg.take 8192).length = min 8192 msg.length := List.length_take
  have hmsg : (msg.take 8192 ++ stale).take (min msg.length 8192) = msg.take 8192 := by
    rw [Nat.min_comm, ← hlength, List.take_left]
  have hshort : ∀ p, p + 2 ≤ 12 → getShort (msg.take 8192 ++ stale) p = getShort msg p := by
    intro p hp
    rw [getShort_append (by omega)]
    conv => rhs; rw [← List.take_append_drop 8192 msg]
    rw [getShort_append (by omega)]
  rw [dnsLookup, if_neg (by omega), Int.toNat_natCast]
  dsimp only
  rw [hshort 4 (by decide), hqdcount, hshort 6 (by decide), h.ancount, hmsg]
  dsimp only
  rw [skipQuestions_run hquestions]

/-- A lookup makes the entries of the records of a response, in their order, and ends behind the last of them, if the
bytes are the same records in the layout without class and time to live; and only then. -/
theorem decodes_iff (r : Resolver) {msg : List Byte} {answers : List Answer} {start stop : Nat} (stale : List Byte)
    (h : WellFormed r msg answers start stop) :
    Decodes r msg stale answers stop ↔
      ShortRecordsAt r (msg.take 8192) (msg.take 8192 ++ stale) answers start stop := by
  rw [Decodes, dnsLookup_run r stale h]
  exact readRecords_iff []

end

/-- `dn_expand` and `dn_skipname`, of names whose labels need no escapes. -/
def rfc1035 : Resolver where
  expand msg p := (nameFrom msg (nameFuel msg p p) p p).map fun name => ((name.1.intersperse [ch '.']).flatten, name.2)
  skipname msg p := (nameFrom msg (nameFuel msg p p) p p).map Prod.snd
  text labels := (labels.intersperse [ch '.']).flatten
  expand_name h := by rw [h.read _ (Nat.le_refl _)]; rfl
  skipname_name h := by rw [h.read _ (Nat.le_refl _)]; rfl

/-- A response with an address of the root. -/
def rootAddress (cls : Byte) (ttl : List Byte) : List Byte :=
  [0, 0, 0x81, 0x80, 0, 0, 0, 1, 0, 0, 0, 0] ++ [0, 0, 1, 0, cls] ++ ttl ++ [0, 4, 1, 2, 3, 4]

/-- A class that is 6 more than the length, and a time to live that is the address. -/
theorem decodes_root : Decodes rfc1035 (rootAddress 10 [1, 2, 3, 4]) [] [⟨[], .a (bytes "1.2.3.4")⟩] 27 := by
  have hwell : WellFormed rfc1035 (rootAddress 10 [1, 2, 3, 4]) [⟨[], .a (bytes "1.2.3.4")⟩] 12 27 := by
    refine ⟨by decide, ⟨0, by decide, rfl⟩, by decide, ?_⟩
    exact ⟨27, ⟨1, 10, 0x01020304, 4, ⟨[], .root (by decide), rfl⟩, by decide, by decide, by decide, by decide,
      ⟨by decide, rfl⟩, rfl⟩, rfl⟩
  refine (decodes_iff rfc1035 [] hwell).mpr ?_
  exact ⟨by decide, 27, ⟨[], 1, 10, 4, by decide, by decide, by decide, ⟨by decide, rfl⟩, fun _ => rfl, rfl⟩, rfl⟩

/-- A record of the Internet class with a time to live of one hour. -/
theorem not_decodes_root : WellFormed rfc1035 (rootAddress 1 [0, 0, 14, 16]) [⟨[], .a (bytes "1.2.3.4")⟩] 12 27 ∧
    ¬ Decodes rfc1035 (rootAddress 1 [0, 0, 14, 16]) [] [⟨[], .a (bytes "1.2.3.4")⟩] 27 := by
  refine ⟨⟨by decide, ⟨0, by decide, rfl⟩, by decide, ?_⟩, by unfold Decodes; decide⟩
  exact ⟨27, ⟨1, 1, 3600, 4, ⟨[], .root (by decide), rfl⟩, by decide, by decide, by decide, by decide,
    ⟨by decide, rfl⟩, rfl⟩, rfl⟩

end NullG.Libs.Dns
