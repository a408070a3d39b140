/-
The host for a domain (`smtpq_dns.c`, the part for POSIX).

`dns_getmxbyname` keeps the hosts of the MX answers one behind the other in one buffer, and their preferences and places
next to them, and sorts those. It wants to see 20 hosts, 8192 bytes of the response and 512 bytes of a name: the host is
that of a least preference among those, and the buffer has room for all of them (`getmx_chosen`).
-/

import NullG.Lib.Exchange
import NullG.Libs.Dns

namespace NullG.Smtpq.MxHosts

open NullG.Nsp NullG.Lib NullG.Mail
open NullG.Libs.Dns (Resolver getShort getLong skipQuestions QuestionsAt HasName tMx skipQuestions_run
  getShort_mono getLong_mono)

/-! ### The code -/

/-- `MAXPACKET`. -/
def maxpacket : Nat := 8192

/-- `MAXMXHOSTS`. -/
def maxmxhosts : Nat := 20

/-- `MAXBUF`. -/
def maxbuf : Nat := 512

/-- `MAXMXBUFSIZ`. -/
def maxmxbufsiz : Nat := maxmxhosts * (maxbuf + 1)

/-- `C_IN`. -/
def cIn : Nat := 1

/-- `hostbuf` and `bp`, and what is in `prefer` and `MxHosts`: the preferences and the places in `hostbuf`. -/
structure Hosts where
  hostbuf : List Byte
  bp : Nat
  mx : List (Nat × Nat)

/-- What goes wrong: a write behind `hostbuf`, or a read behind the buffer of the response. -/
inductive Fault where
  | overrun
  | outside

/-- What `dn_expand` of a message leaves at `bp`, which has room for `MAXBUF` bytes. -/
inductive Expanded where
  | overrun
  | failed
  | name (text : List Byte) (n : Nat) (hs : Hosts)

/-- Bytes are written into a buffer. -/
def put (mem : List Byte) (at_ : Nat) (bs : List Byte) : List Byte := mem.take at_ ++ bs ++ mem.drop (at_ + bs.length)

/-- `dn_expand(msg, eom, cp, bp, MAXBUF)`. It fails for a name that has no room with its NUL. -/
def dnExpand (r : Resolver) (msg : List Byte) (cp : Nat) (hs : Hosts) : Expanded :=
  if hs.hostbuf.length < hs.bp + maxbuf then .overrun
  else
    match r.expand msg cp with
    | none => .failed
    | some (text, n) =>
        if text.length < maxbuf then .name text n { hs with hostbuf := put hs.hostbuf hs.bp (text ++ [0]) } else .failed

/-- `GETSHORT(type, cp)`, `GETSHORT(class, cp)`, `GETLONG(ttl, cp)` and `GETSHORT(dlen, cp)`. -/
def getFields (buf : List Byte) (cp : Nat) : Option (Nat × Nat × Nat × Nat) :=
  match getShort buf cp, getShort buf (cp + 2), getLong buf (cp + 4), getShort buf (cp + 8) with
  | some type, some cls, some ttl, some dlen => some (type, cls, ttl, dlen)
  | _, _, _, _ => none

/-- An answer: the hosts, and where the next answer is unless the loop is left. -/
def readAnswer (r : Resolver) (msg buf : List Byte) (cp : Nat) (hs : Hosts) : Except Fault (Hosts × Option Nat) :=
  match dnExpand r msg cp hs with
  | .overrun => .error .overrun
  | .failed => .ok (hs, none)
  | .name _ n hs =>
      let cp := cp + n
      match getFields buf cp with
      | none => .error .outside
      | some (type, cls, _, dlen) =>
          if type ≠ tMx ∨ cls ≠ cIn then .ok (hs, some (cp + 10 + dlen))
          else
            match getShort buf (cp + 10) with
            | none => .error .outside
            | some pref =>
                match dnExpand r msg (cp + 12) hs with
                | .overrun => .error .overrun
                | .failed => .ok (hs, none)
                | .name _ n hs =>
                    .ok ({ hs with
                      bp := hs.bp + (cstr (hs.hostbuf.drop hs.bp)).length + 1
                      mx := hs.mx ++ [(pref, hs.bp)] }, some (cp + 12 + n))

/-- The loop over the answers. -/
def readAnswers (r : Resolver) (msg buf : List Byte) : Nat → Nat → Hosts → Except Fault Hosts
  | 0, _, hs => .ok hs
  | ancount + 1, cp, hs =>
      if cp < msg.length ∧ hs.mx.length < maxmxhosts then
        match readAnswer r msg buf cp hs with
        | .error fault => .error fault
        | .ok (hs, none) => .ok hs
        | .ok (hs, some cp) => readAnswers r msg buf ancount cp hs
      else .ok hs

/-- What is written to `dest`: the host of the first place after the sort, cut to the room there is. -/
def firstHost (destlen : Nat) (hs : Hosts) : Option (List Byte) :=
  match Exchange.exchanges Prod.fst hs.mx.length hs.mx with
  | [] => none
  | (_, host) :: _ => some ((cstr (hs.hostbuf.drop host)).take (destlen - 1))

/-- `dns_getmxbyname` where `res_search` has returned `n` and has left `buf`. -/
def getmx (r : Resolver) (n : Int) (buf hostbuf : List Byte) (destlen : Nat) : Except Fault (Option (List Byte)) :=
  if n < 12 then .ok none
  else
    let n := min n.toNat maxpacket
    let msg := buf.take n
    match getShort buf 4, getShort buf 6 with
    | some qdcount, some ancount =>
        match skipQuestions r msg qdcount 12 with
        | none => .ok none
        | some cp => (readAnswers r msg buf ancount cp ⟨hostbuf, 0, []⟩).map (firstHost destlen)
    | _, _ => .error .outside

/-! ### Responses -/

/-- An answer: a host for mail of the Internet class, or something else. -/
inductive Answer where
  | mx (owner : List Byte) (pref : Nat) (host : List Byte)
  | other (owner : List Byte) (type cls : Nat)

/-- The preference and the host of an answer for mail. -/
def Answer.exchange? : Answer → Option (Nat × List Byte)
  | .mx _ pref host => some (pref, host)
  | .other .. => none

/-- An answer as RFC 1035 lays it out: name, type, class, time to live, length and data. -/
def AnswerAt (r : Resolver) (msg : List Byte) (p next : Nat) : Answer → Prop
  | .mx owner pref host =>
      ∃ n ttl m, HasName r msg p owner n ∧ getShort msg (p + n) = some tMx ∧ getShort msg (p + n + 2) = some cIn ∧
        getLong msg (p + n + 4) = some ttl ∧ getShort msg (p + n + 8) = some (2 + m) ∧
        getShort msg (p + n + 10) = some pref ∧ HasName r msg (p + n + 12) host m ∧ next = p + n + 12 + m
  | .other owner type cls =>
      ∃ n ttl dlen, HasName r msg p owner n ∧ getShort msg (p + n) = some type ∧
        getShort msg (p + n + 2) = some cls ∧ ¬ (type = tMx ∧ cls = cIn) ∧ getLong msg (p + n + 4) = some ttl ∧
        getShort msg (p + n + 8) = some dlen ∧ next = p + n + 10 + dlen

def AnswersAt (r : Resolver) (msg : List Byte) : List Answer → Nat → Nat → Prop
  | [], p, stop => p = stop
  | answer :: answers, p, stop => ∃ next, AnswerAt r msg p next answer ∧ AnswersAt r msg answers next stop

/-- A response with these answers between `start` and `stop`. -/
structure WellFormed (r : Resolver) (msg : List Byte) (answers : List Answer) (start stop : Nat) : Prop where
  long : 12 ≤ msg.length
  questions : ∃ qdcount, getShort msg 4 = some qdcount ∧ QuestionsAt msg qdcount 12 start
  ancount : getShort msg 6 = some answers.length
  answers : AnswersAt r msg answers start stop
  within : stop ≤ msg.length

/-- The names of an answer. -/
def Answer.names : Answer → List (List Byte)
  | .mx owner _ host => [owner, host]
  | .other owner _ _ => [owner]

/-- The names of an answer have room in `MAXBUF` bytes, with a NUL. -/
def Answer.Fits (answer : Answer) : Prop := ∀ name ∈ answer.names, name.length < maxbuf

instance (answer : Answer) : Decidable answer.Fits :=
  inferInstanceAs (Decidable (∀ name ∈ answer.names, name.length < maxbuf))

/-- The host of a least preference among these, cut to the room in `dest`, or NULL when there is none. -/
def Chosen (hosts : List (Nat × List Byte)) (destlen : Nat) (result : Option (List Byte)) : Prop :=
  (hosts = [] ∧ result = none) ∨
    ∃ mx ∈ hosts, (∀ other ∈ hosts, mx.1 ≤ other.1) ∧ result = some (mx.2.take (destlen - 1))

/-- Whatever is behind the response, in `hostbuf` and in `dest`: the host is chosen among these. -/
def Chooses (r : Resolver) (msg : List Byte) (hosts : List (Nat × List Byte)) : Prop :=
  ∀ stale hostbuf destlen, hostbuf.length = maxmxbufsiz → ∃ result,
    getmx r msg.length (msg.take maxpacket ++ stale) hostbuf destlen = .ok result ∧ Chosen hosts destlen result

/-- The MX answers of the Internet class. -/
def exchanges (answers : List Answer) : List (Nat × List Byte) := answers.filterMap Answer.exchange?

/-- Those that are seen: the first 20 in front of a name that has no room. -/
def seen (answers : List Answer) : List (Nat × List Byte) :=
  (exchanges (answers.takeWhile fun answer => decide answer.Fits)).take maxmxhosts

/-! ### The buffer of the hosts -/

section Buffer

variable {mem bs host : List Byte} {p bp at_ pref : Nat} {hs : Hosts} {hosts : List (Nat × List Byte)}

theorem take_put (h : at_ ≤ mem.length) (bs : List Byte) : (put mem at_ bs).take at_ = mem.take at_ := by
  rw [put, List.append_assoc, List.take_left' (List.length_take_of_le h)]

theorem drop_put (h : at_ ≤ mem.length) (bs : List Byte) :
    (put mem at_ bs).drop at_ = bs ++ mem.drop (at_ + bs.length) := by
  rw [put, List.append_assoc, List.drop_left' (List.length_take_of_le h)]

theorem length_put (h : at_ + bs.length ≤ mem.length) : (put mem at_ bs).length = mem.length := by
  rw [put, List.length_append, List.length_append, List.length_take_of_le (by omega), List.length_drop]
  omega

/-- The string at `p` is this one, and its NUL is in front of `bp`. -/
def HoldsAt (mem : List Byte) (bp p : Nat) (host : List Byte) : Prop :=
  0 ∉ host ∧ host ++ [0] <+: (mem.take bp).drop p

theorem cstr_append (h : 0 ∉ host) (rest : List Byte) : cstr (host ++ 0 :: rest) = host := by
  rw [cstr, List.takeWhile_append_of_pos, List.takeWhile_cons_of_neg (by simp), List.append_nil]
  intro c hc
  simpa using fun hzero : c = 0 => h (hzero ▸ hc)

theorem HoldsAt.cstr_eq (h : HoldsAt mem bp p host) : cstr (mem.drop p) = host := by
  obtain ⟨hnul, hbegin⟩ := h
  obtain ⟨rest, hrest⟩ := hbegin.trans ((List.take_prefix bp mem).drop p)
  rw [← hrest, List.append_assoc]
  exact cstr_append hnul rest

theorem HoldsAt.mono (h : HoldsAt mem bp p host) {bp' : Nat} (hle : bp ≤ bp') : HoldsAt mem bp' p host :=
  ⟨h.1, h.2.trans ((List.take_prefix_take_left hle).drop p)⟩

/-- There is room for one more name as long as there are fewer than 20 hosts. -/
structure Room (hs : Hosts) : Prop where
  length : hs.hostbuf.length = maxmxbufsiz
  room : hs.bp ≤ maxbuf * hs.mx.length

/-- The hosts that the preferences and places stand for. -/
structure Packed (hs : Hosts) (hosts : List (Nat × List Byte)) : Prop extends Room hs where
  holds : ∀ e ∈ hs.mx, ∃ host, HoldsAt hs.hostbuf hs.bp e.2 host
  hosts : hs.mx.map (fun e => (e.1, cstr (hs.hostbuf.drop e.2))) = hosts

theorem Packed.length_eq (h : Packed hs hosts) : hosts.length = hs.mx.length := by
  rw [← h.hosts, List.length_map]

theorem Room.fits (h : Room hs) (hlt : hs.mx.length < maxmxhosts) (hlen : bs.length ≤ maxbuf) :
    hs.bp + bs.length ≤ maxmxbufsiz := by
  have hroom := h.room
  unfold maxmxbufsiz maxmxhosts at *
  unfold maxbuf at *
  omega

theorem Room.put (h : Room hs) (hfits : hs.bp + bs.length ≤ maxmxbufsiz) :
    Room { hs with hostbuf := put hs.hostbuf hs.bp bs } :=
  ⟨(length_put (by rw [h.length]; exact hfits)).trans h.length, h.room⟩

/-- A string that is written at `bp` leaves the hosts. -/
theorem Packed.put (h : Packed hs hosts) (hfits : hs.bp + bs.length ≤ maxmxbufsiz) :
    Packed { hs with hostbuf := put hs.hostbuf hs.bp bs } hosts := by
  have hbp : hs.bp ≤ hs.hostbuf.length := by rw [h.length]; omega
  have hkept : ∀ e ∈ hs.mx, ∃ host, HoldsAt hs.hostbuf hs.bp e.2 host ∧
      HoldsAt (MxHosts.put hs.hostbuf hs.bp bs) hs.bp e.2 host := by
    intro e he
    obtain ⟨host, hhost⟩ := h.holds e he
    exact ⟨host, hhost, hhost.1, by rw [take_put hbp]; exact hhost.2⟩
  refine ⟨h.toRoom.put hfits, fun e he => ?_, ?_⟩
  · obtain ⟨host, -, hhost⟩ := hkept e he
    exact ⟨host, hhost⟩
  · refine Eq.trans (List.map_congr_left fun e he => ?_) h.hosts
    obtain ⟨host, hhost, hhost'⟩ := hkept e he
    rw [hhost.cstr_eq, hhost'.cstr_eq]

/-- The string that was written. -/
theorem holdsAt_put (hnul : 0 ∉ host) (h : bp ≤ mem.length) :
    HoldsAt (put mem bp (host ++ [0])) (bp + host.length + 1) bp host := by
  refine ⟨hnul, ?_⟩
  rw [List.drop_take, drop_put h]
  refine List.prefix_take_iff.mpr ⟨List.prefix_append _ _, ?_⟩
  rw [List.length_append, List.length_singleton]
  omega

/-- A host that was written at `bp` is one more. -/
theorem Packed.add (h : Packed hs hosts) (hnul : 0 ∉ host) (hlen : host.length < maxbuf)
    (hfits : hs.bp + (host ++ [0]).length ≤ maxmxbufsiz) (pref : Nat) :
    Packed { hostbuf := MxHosts.put hs.hostbuf hs.bp (host ++ [0])
             bp := hs.bp + host.length + 1
             mx := hs.mx ++ [(pref, hs.bp)] } (hosts ++ [(pref, host)]) := by
  have hput := h.put hfits
  have hnew := holdsAt_put hnul (show hs.bp ≤ hs.hostbuf.length by rw [h.length]; omega)
  refine ⟨⟨hput.length, ?_⟩, fun e he => ?_, ?_⟩
  · have hroom := h.room
    rw [List.length_append, List.length_singleton, Nat.mul_add]
    dsimp only
    omega
  · rcases List.mem_append.mp he with he | he
    · obtain ⟨host', hhost'⟩ := hput.holds e he
      exact ⟨host', hhost'.mono (by dsimp only; omega)⟩
    · rw [List.mem_singleton.mp he]
      exact ⟨host, hnew⟩
  · rw [List.map_append, hput.hosts, List.map_singleton, hnew.cstr_eq]

end Buffer

/-! ### The loop over the answers -/

section Loop

variable {r : Resolver} {msg buf host : List Byte} {cp n : Nat} {hs : Hosts} {hosts : List (Nat × List Byte)}

theorem Room.not_full (h : Room hs) (hlt : hs.mx.length < maxmxhosts) : ¬ hs.hostbuf.length < hs.bp + maxbuf := by
  have hfits : hs.bp + (List.replicate maxbuf (0 : Byte)).length ≤ maxmxbufsiz := h.fits hlt List.length_replicate.le
  rw [List.length_replicate] at hfits
  rw [h.length]
  exact not_lt.mpr hfits

theorem Room.bp_le (h : Room hs) (hlt : hs.mx.length < maxmxhosts) : hs.bp ≤ hs.hostbuf.length := by
  have hfits : hs.bp + ([] : List Byte).length ≤ maxmxbufsiz := h.fits hlt (Nat.zero_le _)
  rw [h.length]
  exact hfits

theorem Room.fits_name (h : Room hs) (hlt : hs.mx.length < maxmxhosts) (hlen : host.length < maxbuf) :
    hs.bp + (host ++ [0]).length ≤ maxmxbufsiz := by
  refine h.fits hlt ?_
  rw [List.length_append, List.length_singleton]
  exact hlen

/-- A name of the message is written at `bp` if it fits. -/
theorem dnExpand_name (h : Room hs) (hlt : hs.mx.length < maxmxhosts) (hname : HasName r msg cp host n) :
    dnExpand r msg cp hs =
      if host.length < maxbuf then .name host n { hs with hostbuf := put hs.hostbuf hs.bp (host ++ [0]) }
      else .failed := by
  obtain ⟨labels, hlabels, rfl⟩ := hname
  rw [dnExpand, if_neg (h.not_full hlt), r.expand_name hlabels]

/-- Whatever is in the message: a string with its NUL is written, and it has room, or nothing is. -/
theorem dnExpand_cases (r : Resolver) (msg : List Byte) (cp : Nat) (h : Room hs) (hlt : hs.mx.length < maxmxhosts) :
    dnExpand r msg cp hs = .failed ∨ ∃ text n, text.length < maxbuf ∧
      dnExpand r msg cp hs = .name text n { hs with hostbuf := put hs.hostbuf hs.bp (text ++ [0]) } := by
  rw [dnExpand, if_neg (h.not_full hlt)]
  split
  · exact .inl rfl
  · rename_i text n _
    split
    · rename_i hlen
      exact .inr ⟨text, n, hlen, rfl⟩
    · exact .inl rfl

theorem length_cstr_put_le {mem : List Byte} {at_ : Nat} (h : at_ ≤ mem.length) (text : List Byte) :
    (cstr ((put mem at_ (text ++ [0])).drop at_)).length ≤ text.length := by
  rw [drop_put h, List.append_assoc, List.singleton_append, cstr]
  generalize mem.drop (at_ + (text ++ [0]).length) = rest
  induction text with
  | nil => rfl
  | cons c text ih =>
      rw [List.cons_append, List.takeWhile_cons]
      split
      · exact Nat.succ_le_succ ih
      · exact Nat.zero_le _

/-- An answer writes nothing behind `hostbuf`, and leaves room for another name unless there are 20 hosts. -/
theorem readAnswer_room (h : Room hs) (hlt : hs.mx.length < maxmxhosts) {result : Except Fault (Hosts × Option Nat)}
    (hrun : readAnswer r msg buf cp hs = result) :
    result ≠ .error .overrun ∧ ∀ hs' next, result = .ok (hs', next) → Room hs' := by
  have hok : ∀ {hs next}, Room hs → (.ok (hs, next) : Except Fault _) = result →
      result ≠ .error .overrun ∧ ∀ hs' next, result = .ok (hs', next) → Room hs' := by
    rintro hs next h rfl
    refine ⟨nofun, fun hs' next' heq => ?_⟩
    obtain ⟨rfl, -⟩ := Prod.mk.inj (Except.ok.inj heq)
    exact h
  rw [readAnswer] at hrun
  rcases dnExpand_cases r msg cp h hlt with hname | ⟨owner, n, hlen, hname⟩
  · rw [hname] at hrun
    exact hok h hrun
  rw [hname] at hrun
  dsimp only at hrun
  have hroom := h.put (h.fits_name hlt hlen)
  split at hrun
  · subst hrun
    exact ⟨nofun, nofun⟩
  split at hrun
  · exact hok hroom hrun
  split at hrun
  · subst hrun
    exact ⟨nofun, nofun⟩
  rename_i pref _
  generalize cp + n + 12 = q at hrun
  rcases dnExpand_cases r msg q hroom hlt with hname | ⟨host, m, hlen, hname⟩
  · rw [hname] at hrun
    exact hok hroom hrun
  rw [hname] at hrun
  dsimp only at hrun
  refine hok ?_ hrun
  refine ⟨(hroom.put (hroom.fits_name hlt hlen)).length, ?_⟩
  have hle := length_cstr_put_le (hroom.bp_le hlt) host
  have hbp := h.room
  rw [List.length_append, List.length_singleton, Nat.mul_add]
  dsimp only at hle ⊢
  omega

/-- Nothing is written behind `hostbuf`, whatever the response is. -/
theorem readAnswers_ne_overrun {ancount : Nat} (h : Room hs) :
    readAnswers r msg buf ancount cp hs ≠ .error .overrun := by
  induction ancount generalizing cp hs with
  | zero => exact nofun
  | succ ancount ih =>
      rw [readAnswers]
      split
      · rename_i hgo
        obtain ⟨hne, hroom⟩ := readAnswer_room h hgo.2 (Eq.refl (readAnswer r msg buf cp hs))
        split
        · rename_i fault heq
          rw [heq] at hne
          exact fun h => hne (congrArg _ (Except.error.inj h))
        · exact nofun
        · rename_i hs' next heq
          exact ih (hroom hs' _ heq)
      · exact nofun

theorem getFields_mono {p type cls ttl dlen : Nat} (htype : getShort msg p = some type)
    (hcls : getShort msg (p + 2) = some cls) (httl : getLong msg (p + 4) = some ttl)
    (hdlen : getShort msg (p + 8) = some dlen) (stale : List Byte) :
    getFields (msg ++ stale) p = some (type, cls, ttl, dlen) := by
  rw [getFields, getShort_mono htype, getShort_mono hcls, getLong_mono httl, getShort_mono hdlen]

section Answer

variable {p next stop : Nat} {answer : Answer} (htext : ∀ labels, 0 ∉ r.text labels)

include htext

/-- An answer whose names have room: its host is one more if it is for mail. -/
theorem readAnswer_fits (hat : AnswerAt r msg p next answer) (hfits : answer.Fits) (h : Packed hs hosts)
    (hlt : hs.mx.length < maxmxhosts) (stale : List Byte) :
    ∃ hs', readAnswer r msg (msg ++ stale) p hs = .ok (hs', some next) ∧ Packed hs' (hosts ++ exchanges [answer]) := by
  cases answer with
  | mx owner pref host =>
      obtain ⟨n, ttl, m, howner, htype, hcls, httl, hdlen, hpref, hhost, rfl⟩ := hat
      have hlen : owner.length < maxbuf := hfits owner (by simp [Answer.names])
      have hlen' : host.length < maxbuf := hfits host (by simp [Answer.names])
      have hput := h.put (h.fits_name hlt hlen)
      have hroom := hput.fits_name hlt hlen'
      have hnul : 0 ∉ host := by
        obtain ⟨labels, -, rfl⟩ := hhost
        exact htext labels
      rw [readAnswer, dnExpand_name h.toRoom hlt howner, if_pos hlen]
      dsimp only
      rw [getFields_mono htype hcls httl hdlen]
      dsimp only
      rw [if_neg (by simp), getShort_mono hpref]
      dsimp only
      rw [dnExpand_name hput.toRoom hlt hhost, if_pos hlen']
      dsimp only
      rw [(holdsAt_put hnul (hput.bp_le hlt)).cstr_eq]
      exact ⟨_, rfl, hput.add hnul hlen' hroom pref⟩
  | other owner type cls =>
      obtain ⟨n, ttl, dlen, howner, htype, hcls, hmx, httl, hdlen, rfl⟩ := hat
      have hlen : owner.length < maxbuf := hfits owner (by simp [Answer.names])
      rw [readAnswer, dnExpand_name h.toRoom hlt howner, if_pos hlen]
      dsimp only
      rw [getFields_mono htype hcls httl hdlen]
      dsimp only
      rw [if_pos (not_and_or.mp hmx)]
      refine ⟨_, rfl, ?_⟩
      rw [show exchanges [.other owner type cls] = [] from rfl, List.append_nil]
      exact h.put (h.fits_name hlt hlen)

omit htext

/-- The loop is left at a name that has no room. -/
theorem readAnswer_not_fits (hat : AnswerAt r msg p next answer) (hfits : ¬ answer.Fits) (h : Packed hs hosts)
    (hlt : hs.mx.length < maxmxhosts) (stale : List Byte) :
    ∃ hs', readAnswer r msg (msg ++ stale) p hs = .ok (hs', none) ∧ Packed hs' hosts := by
  cases answer with
  | mx owner pref host =>
      obtain ⟨n, ttl, m, howner, htype, hcls, httl, hdlen, hpref, hhost, rfl⟩ := hat
      rw [readAnswer, dnExpand_name h.toRoom hlt howner]
      by_cases hlen : owner.length < maxbuf
      · have hlen' : ¬ host.length < maxbuf := by
          intro hlen'
          refine hfits fun name hname => ?_
          rcases List.mem_cons.mp hname with rfl | hname
          · exact hlen
          · exact List.mem_singleton.mp hname ▸ hlen'
        have hput := h.put (h.fits_name hlt hlen)
        rw [if_pos hlen]
        dsimp only
        rw [getFields_mono htype hcls httl hdlen]
        dsimp only
        rw [if_neg (by simp), getShort_mono hpref]
        dsimp only
        rw [dnExpand_name hput.toRoom hlt hhost, if_neg hlen']
        exact ⟨_, rfl, hput⟩
      · rw [if_neg hlen]
        exact ⟨_, rfl, h⟩
  | other owner type cls =>
      obtain ⟨n, ttl, dlen, howner, htype, hcls, hmx, httl, hdlen, rfl⟩ := hat
      have hlen : ¬ owner.length < maxbuf :=
        fun hlen => hfits fun name hname => List.mem_singleton.mp hname ▸ hlen
      rw [readAnswer, dnExpand_name h.toRoom hlt howner, if_neg hlen]
      exact ⟨_, rfl, h⟩

end Answer

theorem AnswerAt.lt_length {p next : Nat} {answer : Answer} (h : AnswerAt r msg p next answer) : p < msg.length := by
  cases answer with
  | mx owner pref host =>
      obtain ⟨n, ttl, m, ⟨labels, hname, -⟩, -⟩ := h
      exact hname.lt_length
  | other owner type cls =>
      obtain ⟨n, ttl, dlen, ⟨labels, hname, -⟩, -⟩ := h
      exact hname.lt_length

theorem exchanges_cons (answer : Answer) (answers : List Answer) :
    exchanges (answer :: answers) = exchanges [answer] ++ exchanges answers := by
  rw [exchanges, exchanges, exchanges, ← List.filterMap_append, List.singleton_append]

theorem length_exchanges_singleton (answer : Answer) : (exchanges [answer]).length ≤ 1 :=
  List.length_filterMap_le _ _

/-- The loop collects the answers for mail until there are 20 hosts or a name has no room. -/
theorem readAnswers_run (htext : ∀ labels, 0 ∉ r.text labels) {answers : List Answer} {p stop : Nat}
    (hat : AnswersAt r msg answers p stop) (h : Packed hs hosts) (stale : List Byte) :
    ∃ hs', readAnswers r msg (msg ++ stale) answers.length p hs = .ok hs' ∧
      Packed hs' (hosts ++ (exchanges (answers.takeWhile fun answer => decide answer.Fits)).take
        (maxmxhosts - hosts.length)) := by
  induction answers generalizing p hs hosts with
  | nil =>
      refine ⟨hs, rfl, ?_⟩
      rw [List.takeWhile_nil, show exchanges [] = [] from rfl, List.take_nil, List.append_nil]
      exact h
  | cons answer answers ih =>
      obtain ⟨next, hanswer, hrest⟩ := hat
      rw [List.length_cons, readAnswers]
      by_cases hlt : hs.mx.length < maxmxhosts
      · rw [if_pos ⟨hanswer.lt_length, hlt⟩]
        by_cases hfits : answer.Fits
        · obtain ⟨hs', hrun, hs''⟩ := readAnswer_fits htext hanswer hfits h hlt stale
          rw [hrun]
          obtain ⟨hlast, hrun', hlast'⟩ := ih hrest hs''
          refine ⟨hlast, hrun', ?_⟩
          rw [List.takeWhile_cons_of_pos (by simpa using hfits), exchanges_cons, List.take_append]
          rw [List.length_append, List.append_assoc, ← Nat.sub_sub] at hlast'
          have hone := length_exchanges_singleton answer
          rw [List.take_of_length_le (by rw [h.length_eq]; omega)]
          exact hlast'
        · obtain ⟨hs', hrun, hs''⟩ := readAnswer_not_fits hanswer hfits h hlt stale
          rw [hrun]
          refine ⟨hs', rfl, ?_⟩
          rw [List.takeWhile_cons_of_neg (by simpa using hfits), show exchanges [] = [] from rfl, List.take_nil,
            List.append_nil]
          exact hs''
      · rw [if_neg fun hgo => hlt hgo.2]
        refine ⟨hs, rfl, ?_⟩
        rw [Nat.sub_eq_zero_of_le (by rw [h.length_eq]; exact not_lt.mp hlt), List.take_zero, List.append_nil]
        exact h

end Loop

/-! ### The host that is chosen -/

section Choice

variable {r : Resolver} {msg : List Byte} {answers : List Answer} {start stop : Nat} {hs : Hosts}
  {hosts : List (Nat × List Byte)}

/-- The first place after the sort is that of a least preference. -/
theorem firstHost_chosen (h : Packed hs hosts) (destlen : Nat) : Chosen hosts destlen (firstHost destlen hs) := by
  have hperm : (Exchange.exchanges Prod.fst hs.mx.length hs.mx).Perm hs.mx := Exchange.exchanges_perm _ _
  have hsorted : (Exchange.exchanges Prod.fst hs.mx.length hs.mx).Pairwise fun a b => a.1 ≤ b.1 :=
    Exchange.exchanges_sorted (Nat.le_refl hs.mx.length)
  unfold firstHost
  split
  · rename_i hnil
    rw [hnil] at hperm
    refine .inl ⟨?_, rfl⟩
    rw [← h.hosts, List.nil_perm.mp hperm, List.map_nil]
  · rename_i pref host rest hcons
    rw [hcons] at hperm hsorted
    refine .inr ⟨(pref, cstr (hs.hostbuf.drop host)), ?_, fun other hother => ?_, rfl⟩
    · rw [← h.hosts]
      exact List.mem_map.mpr ⟨(pref, host), hperm.mem_iff.mp List.mem_cons_self, rfl⟩
    · rw [← h.hosts] at hother
      obtain ⟨e, he, rfl⟩ := List.mem_map.mp hother
      rcases List.mem_cons.mp (hperm.mem_iff.mpr he) with rfl | he
      · exact Nat.le_refl _
      · exact (List.pairwise_cons.mp hsorted).1 e he

/-- Before the first answer there are no hosts. -/
theorem packed_nil {hostbuf : List Byte} (h : hostbuf.length = maxmxbufsiz) : Packed ⟨hostbuf, 0, []⟩ [] :=
  ⟨⟨h, Nat.zero_le _⟩, nofun, rfl⟩

/-- Whatever the response is, nothing is written behind `hostbuf`. -/
theorem getmx_ne_overrun (r : Resolver) (n : Int) (buf : List Byte) {hostbuf : List Byte} (destlen : Nat)
    (h : hostbuf.length = maxmxbufsiz) : getmx r n buf hostbuf destlen ≠ .error .overrun := by
  rw [getmx]
  split
  · exact nofun
  dsimp only
  split
  · rename_i qdcount ancount _ _
    split
    · exact nofun
    · rename_i cp _
      have hne : readAnswers r (buf.take (min n.toNat maxpacket)) buf ancount cp ⟨hostbuf, 0, []⟩ ≠ .error .overrun :=
        readAnswers_ne_overrun (packed_nil h).toRoom
      intro hrun
      cases hloop : readAnswers r (buf.take (min n.toNat maxpacket)) buf ancount cp ⟨hostbuf, 0, []⟩ with
      | error fault =>
          rw [hloop] at hrun hne
          exact hne (congrArg _ (Except.error.inj hrun))
      | ok hs =>
          rw [hloop] at hrun
          exact nomatch hrun
  · exact nofun

/-- The host is chosen among those that are seen. -/
theorem getmx_chooses (htext : ∀ labels, 0 ∉ r.text labels) (h : WellFormed r msg answers start stop)
    (hlen : msg.length ≤ maxpacket) : Chooses r msg (seen answers) := by
  intro stale hostbuf destlen hhostbuf
  obtain ⟨qdcount, hqdcount, hquestions⟩ := h.questions
  have hlong := h.long
  obtain ⟨hs, hrun, hs'⟩ := readAnswers_run htext h.answers (packed_nil hhostbuf) stale
  refine ⟨firstHost destlen hs, ?_, firstHost_chosen hs' destlen⟩
  rw [getmx, if_neg (by omega), Int.toNat_natCast, List.take_of_length_le hlen]
  dsimp only
  rw [getShort_mono hqdcount, getShort_mono h.ancount, min_eq_left hlen, List.take_left]
  dsimp only
  rw [skipQuestions_run hquestions]
  dsimp only
  rw [hrun]
  rfl

end Choice

/-! ### Names as they are written -/

/-- A byte of a label: `"`, `$`, `(`, `)`, `.`, `;`, `@` and the backslash are behind a backslash, and what cannot be
printed is a backslash and three digits. -/
def escaped (c : Byte) : List Byte :=
  if c ∈ [0x22, 0x24, 0x28, 0x29, 0x2e, 0x3b, 0x40, 0x5c] then [0x5c, c]
  else if 0x20 < c ∧ c < 0x7f then [c]
  else [0x5c, 0x30 + c / 100, 0x30 + c / 10 % 10, 0x30 + c % 10]

/-- The labels with dots between them. -/
def labelsText (labels : List (List Byte)) : List Byte :=
  ((labels.map fun label => label.flatMap escaped).intersperse [ch '.']).flatten

theorem expand_nameAt {msg : List Byte} {p : Nat} {labels : List (List Byte)} {n : Nat} (h : NameAt msg p p labels n) :
    ((nameFrom msg (nameFuel msg p p) p p).map fun name => (labelsText name.1, name.2)) =
      some (labelsText labels, n) := by
  rw [h.read _ (Nat.le_refl _)]
  rfl

theorem skipname_nameAt {msg : List Byte} {p : Nat} {labels : List (List Byte)} {n : Nat}
    (h : NameAt msg p p labels n) : (nameFrom msg (nameFuel msg p p) p p).map Prod.snd = some n := by
  rw [h.read _ (Nat.le_refl _)]
  rfl

/-- `dn_expand` and `dn_skipname`. -/
def presentation : Resolver where
  expand msg p := (nameFrom msg (nameFuel msg p p) p p).map fun name => (labelsText name.1, name.2)
  skipname msg p := (nameFrom msg (nameFuel msg p p) p p).map Prod.snd
  text := labelsText
  expand_name := @expand_nameAt
  skipname_name := @skipname_nameAt

theorem zero_notMem_escaped (c : Byte) : 0 ∉ escaped c := by
  have hc := c.toNat_lt
  rw [escaped]
  split
  · rename_i hspecial
    rintro (_ | ⟨_, h⟩)
    rw [← List.mem_singleton.mp h] at hspecial
    exact absurd hspecial (by decide)
  split
  · rename_i hprinted
    intro h
    rw [← List.mem_singleton.mp h] at hprinted
    exact absurd hprinted.1 (by decide)
  · intro h
    simp [UInt8.ext_iff] at h
    omega

theorem zero_notMem_labelsText (labels : List (List Byte)) : 0 ∉ labelsText labels := by
  rw [labelsText]
  induction labels with
  | nil => exact List.not_mem_nil
  | cons label labels ih =>
      have hlabel : 0 ∉ label.flatMap escaped := by
        intro h
        obtain ⟨c, -, hc⟩ := List.mem_flatMap.mp h
        exact zero_notMem_escaped c hc
      cases labels with
      | nil =>
          rw [List.map_singleton, List.intersperse_singleton, List.flatten_singleton]
          exact hlabel
      | cons label' labels =>
          rw [List.map_cons] at ih
          rw [List.map_cons, List.map_cons, List.intersperse_cons_cons, List.flatten_cons, List.flatten_cons]
          simp only [List.mem_append, not_or]
          exact ⟨hlabel, by decide, ih⟩

/-! ### Responses at the limits -/

/-- An answer for mail of the root. -/
def mxRecord (mx : Byte × List (List Byte)) : List Byte :=
  [0, 0, 15, 0, 1, 0, 0, 0, 0, 0, (2 + (wire mx.2).length).toUInt8, 0, mx.1] ++ wire mx.2

def mxAnswer (mx : Byte × List (List Byte)) : Answer := .mx [] mx.1.toNat (labelsText mx.2)

/-- The header of a response with so many answers and no questions. -/
def header (ancount : Byte) : List Byte := [0, 0, 0x81, 0x80, 0, 0, 0, ancount, 0, 0, 0, 0]

section Limits

variable {mx : Byte × List (List Byte)} {l : List (Byte × List (List Byte))}

theorem getShort_at (before : List Byte) (a : List Byte) (k : Nat) :
    getShort (before ++ a) (before.length + k) = getShort a k := by
  rw [getShort, getShort, Nat.add_assoc, List.getElem?_append_right (Nat.le_add_right _ _),
    List.getElem?_append_right (Nat.le_add_right _ _), Nat.add_sub_cancel_left, Nat.add_sub_cancel_left]

theorem getLong_at (before : List Byte) (a : List Byte) (k : Nat) :
    getLong (before ++ a) (before.length + k) = getLong a k := by
  rw [getLong, getLong, Nat.add_assoc, getShort_at, getShort_at]

/-- The labels of a name that is written without pointers, in an answer of less than 256 bytes. -/
def Writable (labels : List (List Byte)) : Prop :=
  (∀ l ∈ labels, 0 < l.length ∧ l.length < 64) ∧ (wire labels).length < 254

/-- The answer is there. -/
theorem mxRecord_at (before after : List Byte) (h : Writable mx.2) :
    AnswerAt presentation (before ++ (mxRecord mx ++ after)) before.length (before.length + (mxRecord mx).length)
      (mxAnswer mx) := by
  have hdlen : (2 + (wire mx.2).length).toUInt8.toNat = 2 + (wire mx.2).length := by
    have hlen := h.2
    rw [Nat.toUInt8, UInt8.toNat_ofNat']
    exact Nat.mod_eq_of_lt (by omega)
  have hname : HasName presentation (before ++ (mxRecord mx ++ after)) (before.length + 1 + 12) (labelsText mx.2)
      (wire mx.2).length := by
    refine ⟨mx.2, ?_, rfl⟩
    have hwire := nameAt_wire h.1 (before ++ (mxRecord mx).take 13) after (before.length + 1 + 12)
    rw [List.append_assoc, ← List.append_assoc ((mxRecord mx).take 13), List.length_append] at hwire
    exact hwire
  have hlength : before.length + (mxRecord mx).length = before.length + 1 + 12 + (wire mx.2).length := by
    rw [mxRecord, List.length_append, ← Nat.add_assoc]
    rfl
  refine ⟨1, 0, (wire mx.2).length, ⟨[], .root ?_, rfl⟩, ?_, ?_, ?_, ?_, ?_, hname, hlength⟩
  · rw [List.getElem?_append_right (Nat.le_refl _), Nat.sub_self]
    rfl
  · exact getShort_at before _ 1
  · exact getShort_at before _ 3
  · exact getLong_at before _ 5
  · rw [← hdlen]
    exact (getShort_at before _ 9).trans (congrArg some (Nat.zero_add _))
  · exact (getShort_at before _ 11).trans (congrArg some (Nat.zero_add _))

theorem mxRecords_at (h : ∀ mx ∈ l, Writable mx.2) (before : List Byte) :
    AnswersAt presentation (before ++ l.flatMap mxRecord) (l.map mxAnswer) before.length
      (before ++ l.flatMap mxRecord).length := by
  induction l generalizing before with
  | nil =>
      rw [List.flatMap_nil, List.append_nil]
      rfl
  | cons mx l ih =>
      refine ⟨before.length + (mxRecord mx).length, ?_, ?_⟩
      · rw [List.flatMap_cons]
        exact mxRecord_at before _ (h mx List.mem_cons_self)
      · rw [List.flatMap_cons, ← List.append_assoc, ← List.length_append]
        exact ih (fun mx hmx => h mx (List.mem_cons_of_mem _ hmx)) _

/-- A response with these answers. -/
theorem wellFormed_mxRecords (h : ∀ mx ∈ l, Writable mx.2) (hlen : l.length < 256) :
    WellFormed presentation (header l.length.toUInt8 ++ l.flatMap mxRecord) (l.map mxAnswer) 12
      (header l.length.toUInt8 ++ l.flatMap mxRecord).length := by
  refine ⟨?_, ⟨0, rfl, rfl⟩, ?_, mxRecords_at h _, Nat.le_refl _⟩
  · rw [List.length_append]
    exact Nat.le_add_right 12 _
  · rw [List.length_map]
    refine congrArg some ?_
    rw [Nat.toUInt8, UInt8.toNat_ofNat', Nat.mod_eq_of_lt hlen]
    exact Nat.zero_add _

theorem length_mxRecords_le (h : ∀ mx ∈ l, Writable mx.2) (ancount : Byte) :
    (header ancount ++ l.flatMap mxRecord).length ≤ 12 + 267 * l.length := by
  rw [List.length_append]
  refine Nat.add_le_add_left ?_ 12
  induction l with
  | nil => exact Nat.zero_le _
  | cons mx l ih =>
      have hlen := (h mx List.mem_cons_self).2
      have hrest := ih fun mx hmx => h mx (List.mem_cons_of_mem _ hmx)
      have hrecord : (mxRecord mx).length = 13 + (wire mx.2).length := List.length_append
      rw [List.flatMap_cons, List.length_append, List.length_cons, hrecord]
      omega

/-- What is chosen among the hosts that are seen need not be chosen among all. -/
theorem not_chooses_of_seen {msg : List Byte} {answers : List Answer} {start stop : Nat}
    (h : WellFormed presentation msg answers start stop) (hlen : msg.length ≤ maxpacket)
    (hboth : ∀ result, Chosen (seen answers) 100 result → ¬ Chosen (exchanges answers) 100 result) :
    ¬ Chooses presentation msg (exchanges answers) := by
  intro hall
  have hsize : (List.replicate maxmxbufsiz (0 : Byte)).length = maxmxbufsiz := List.length_replicate
  obtain ⟨result, hrun, hseen⟩ := getmx_chooses zero_notMem_labelsText h hlen [] _ 100 hsize
  obtain ⟨result', hrun', hchosen⟩ := hall [] _ 100 hsize
  rw [hrun] at hrun'
  exact hboth result hseen (Except.ok.inj hrun' ▸ hchosen)

end Limits

/-- Twenty hosts, and behind them one that is preferred. -/
def twentyOne : List (Byte × List (List Byte)) := List.replicate 20 (10, [bytes "a"]) ++ [(5, [bytes "b"])]

/-- A host whose name is longer than 512 bytes as it is written. -/
def unprintable : List (Byte × List (List Byte)) := [(10, List.replicate 3 (List.replicate 63 1))]

/-- A record with a text that leaves no room in 8192 bytes. -/
def longText : List Byte := [0, 0, 16, 0, 1, 0, 0, 0, 0, 0x1f, 0xe9] ++ List.replicate 8169 0

theorem longText_at (before after : List Byte) :
    AnswerAt presentation (before ++ (longText ++ after)) before.length (before.length + longText.length)
      (.other [] 16 1) := by
  have hlength : before.length + longText.length = before.length + 1 + 10 + 8169 := by
    rw [longText, List.length_append, List.length_replicate]
    exact (Nat.add_assoc before.length 11 8169).symm
  refine ⟨1, 0, 8169, ⟨[], .root ?_, rfl⟩, ?_, ?_, by decide, ?_, ?_, hlength⟩
  · rw [List.getElem?_append_right (Nat.le_refl _), Nat.sub_self]
    rfl
  · exact getShort_at before _ 1
  · exact getShort_at before _ 3
  · exact getLong_at before _ 5
  · exact getShort_at before _ 9

theorem writable_letter (c : Byte) : Writable [[c]] :=
  ⟨fun _ hl => List.mem_singleton.mp hl ▸ ⟨Nat.one_pos, show 1 < 64 by decide⟩, show 3 < 254 by decide⟩

theorem not_chooses_twentyOne : WellFormed presentation (header 21 ++ twentyOne.flatMap mxRecord)
      (twentyOne.map mxAnswer) 12 (header 21 ++ twentyOne.flatMap mxRecord).length ∧
    ¬ Chooses presentation (header 21 ++ twentyOne.flatMap mxRecord) (exchanges (twentyOne.map mxAnswer)) := by
  have hwritable : ∀ mx ∈ twentyOne, Writable mx.2 := by
    intro mx hmx
    rcases List.mem_append.mp hmx with hmx | hmx
    · rw [List.eq_of_mem_replicate hmx]
      exact writable_letter _
    · rw [List.mem_singleton.mp hmx]
      exact writable_letter _
  have hwell := wellFormed_mxRecords hwritable (by decide)
  refine ⟨hwell, not_chooses_of_seen hwell ?_ fun result hseen hall => ?_⟩
  · exact (length_mxRecords_le hwritable _).trans (by decide)
  have hseen10 : seen (twentyOne.map mxAnswer) = List.replicate 20 (10, bytes "a") := by decide
  have hall21 : exchanges (twentyOne.map mxAnswer) = List.replicate 20 (10, bytes "a") ++ [(5, bytes "b")] := by decide
  rw [hseen10] at hseen
  rw [hall21] at hall
  obtain ⟨hnil, -⟩ | ⟨mx, hmx, -, hfirst⟩ := hseen
  · exact absurd hnil (by decide)
  obtain ⟨hnil, -⟩ | ⟨least, hmem, hle, hresult⟩ := hall
  · exact absurd hnil (by decide)
  rw [List.eq_of_mem_replicate hmx] at hfirst
  have hpref : least.1 ≤ 5 := hle (5, bytes "b") (List.mem_append_right _ List.mem_cons_self)
  rcases List.mem_append.mp hmem with hmem | hmem
  · rw [List.eq_of_mem_replicate hmem] at hpref
    exact absurd hpref (by decide)
  · rw [List.mem_singleton.mp hmem, hfirst] at hresult
    exact absurd hresult (by decide)

theorem not_chooses_unprintable : WellFormed presentation (header 1 ++ unprintable.flatMap mxRecord)
      (unprintable.map mxAnswer) 12 (header 1 ++ unprintable.flatMap mxRecord).length ∧
    ¬ Chooses presentation (header 1 ++ unprintable.flatMap mxRecord) (exchanges (unprintable.map mxAnswer)) := by
  have hwritable : ∀ mx ∈ unprintable, Writable mx.2 := by
    intro mx hmx
    rw [List.mem_singleton.mp hmx]
    refine ⟨fun l hl => ?_, by decide +kernel⟩
    rw [List.eq_of_mem_replicate hl, List.length_replicate]
    decide
  have hwell := wellFormed_mxRecords hwritable (by decide)
  refine ⟨hwell, not_chooses_of_seen hwell ?_ fun result hseen hall => ?_⟩
  · exact (length_mxRecords_le hwritable _).trans (by decide)
  have hnone : seen (unprintable.map mxAnswer) = [] := by decide +kernel
  rw [hnone] at hseen
  obtain ⟨-, rfl⟩ | ⟨mx, hmx, -⟩ := hseen
  · obtain ⟨hnil, -⟩ | ⟨mx, -, -, hresult⟩ := hall
    · exact absurd hnil (List.cons_ne_nil _ _)
    · exact nomatch hresult
  · exact nomatch hmx

/-- The first 8192 bytes of the response are the text. -/
theorem length_header_longText : (header 2 ++ longText).length = maxpacket := by
  rw [List.length_append, longText, List.length_append, List.length_replicate]
  rfl

/-- A response with this text, and a host behind it. -/
def behindText : List Byte := header 2 ++ longText ++ mxRecord (10, [bytes "a"])

theorem take_behindText : behindText.take maxpacket = header 2 ++ longText := by
  rw [behindText, ← length_header_longText, List.take_left]

theorem length_behindText : behindText.length = maxpacket + 16 := by
  rw [behindText, List.length_append, length_header_longText]
  rfl

theorem wellFormed_behindText :
    WellFormed presentation behindText [.other [] 16 1, mxAnswer (10, [bytes "a"])] 12 behindText.length := by
  have htext := longText_at (header 2) (mxRecord (10, [bytes "a"]))
  rw [← List.append_assoc, ← List.length_append, length_header_longText] at htext
  have hmx := mxRecords_at (l := [(10, [bytes "a"])]) (fun mx hmx => List.mem_singleton.mp hmx ▸ writable_letter _)
    (header 2 ++ longText)
  rw [List.flatMap_singleton, length_header_longText] at hmx
  refine ⟨?_, ⟨0, rfl, rfl⟩, rfl, ⟨maxpacket, htext, hmx⟩, Nat.le_refl _⟩
  rw [length_behindText]
  exact le_trans (by decide) (Nat.le_add_left 16 maxpacket)

/-- The host behind the text is not seen. -/
theorem getmx_behindText {hostbuf : List Byte} (h : hostbuf.length = maxmxbufsiz) (destlen : Nat) :
    getmx presentation behindText.length (behindText.take maxpacket ++ []) hostbuf destlen = .ok none := by
  have hlength := length_header_longText
  have hat := longText_at (header 2) []
  rw [List.append_nil, ← List.length_append, hlength] at hat
  obtain ⟨hs, hrun, hs'⟩ := readAnswer_fits zero_notMem_labelsText hat
    (fun name hname => List.mem_singleton.mp hname ▸ by decide) (packed_nil h) (Nat.zero_lt_succ 19) []
  have hloop : readAnswers presentation (header 2 ++ longText) (header 2 ++ longText ++ []) 2 12 ⟨hostbuf, 0, []⟩ =
      .ok hs := by
    rw [readAnswers, if_pos ⟨hat.lt_length, Nat.zero_lt_succ 19⟩, show 12 = (header 2).length from rfl, hrun]
    dsimp only
    rw [readAnswers, if_neg fun hgo => absurd hgo.1 (by rw [hlength]; exact Nat.lt_irrefl _)]
  have hcount : getShort (header 2 ++ longText ++ []) 4 = some 0 := rfl
  have hcount' : getShort (header 2 ++ longText ++ []) 6 = some 2 := rfl
  rw [getmx, if_neg (by rw [length_behindText]; omega), Int.toNat_natCast, length_behindText, take_behindText,
    min_eq_right (Nat.le_add_right _ _)]
  dsimp only
  rw [hcount, hcount', ← hlength, List.take_left]
  dsimp only
  rw [skipQuestions]
  dsimp only
  rw [hloop]
  obtain ⟨-, hfirst⟩ | ⟨mx, hmx, -⟩ := firstHost_chosen hs' destlen
  · exact congrArg Except.ok hfirst
  · exact absurd hmx List.not_mem_nil

/-- Behind a text that leaves no room in 8192 bytes there is a host. -/
theorem not_chooses_behindText :
    ¬ Chooses presentation behindText (exchanges [.other [] 16 1, mxAnswer (10, [bytes "a"])]) := by
  intro hall
  have hsize : (List.replicate maxmxbufsiz (0 : Byte)).length = maxmxbufsiz := List.length_replicate
  obtain ⟨result, hrun, hchosen⟩ := hall [] _ 100 hsize
  rw [getmx_behindText hsize] at hrun
  obtain rfl : none = result := Except.ok.inj hrun
  obtain ⟨hnil, -⟩ | ⟨mx, -, -, hresult⟩ := hchosen
  · exact absurd hnil (List.cons_ne_nil _ _)
  · exact nomatch hresult

/-- Of a response of at most 8192 bytes the host is that of a least preference among the first 20 answers for mail in
front of a name that has no room, and NULL when there is none. Nothing is written behind `hostbuf`, whatever the
response is. -/
theorem getmx_chosen {r : Resolver} (htext : ∀ labels, 0 ∉ r.text labels) :
    (∀ n buf hostbuf destlen, hostbuf.length = maxmxbufsiz → getmx r n buf hostbuf destlen ≠ .error .overrun) ∧
      ∀ msg answers start stop, WellFormed r msg answers start stop → msg.length ≤ maxpacket →
        Chooses r msg (seen answers) :=
  ⟨fun n buf _ destlen h => getmx_ne_overrun r n buf destlen h, fun _ _ _ _ h hlen => getmx_chooses htext h hlen⟩

/-- Two hosts, of which the second one is preferred. -/
theorem getmx_chosen_two :
    Chooses presentation (header 2 ++ [(10, [bytes "a"]), (5, [bytes "b"])].flatMap mxRecord)
      [(10, bytes "a"), (5, bytes "b")] := by
  have hwritable : ∀ mx ∈ [((10 : Byte), [bytes "a"]), (5, [bytes "b"])], Writable mx.2 := by
    intro mx hmx
    rcases List.mem_cons.mp hmx with rfl | hmx
    · exact writable_letter _
    · rw [List.mem_singleton.mp hmx]
      exact writable_letter _
  have hseen := (getmx_chosen zero_notMem_labelsText).2 _ _ _ _ (wellFormed_mxRecords hwritable (by decide))
    ((length_mxRecords_le hwritable _).trans (by decide))
  rw [show seen _ = [(10, bytes "a"), (5, bytes "b")] by decide] at hseen
  exact hseen

/-- A host is missed behind 20 others, behind 8192 bytes, and where its name has no room. -/
theorem not_chooses :
    (WellFormed presentation (header 21 ++ twentyOne.flatMap mxRecord) (twentyOne.map mxAnswer) 12
        (header 21 ++ twentyOne.flatMap mxRecord).length ∧
      ¬ Chooses presentation (header 21 ++ twentyOne.flatMap mxRecord) (exchanges (twentyOne.map mxAnswer))) ∧
    (WellFormed presentation behindText [.other [] 16 1, mxAnswer (10, [bytes "a"])] 12 behindText.length ∧
      ¬ Chooses presentation behindText (exchanges [.other [] 16 1, mxAnswer (10, [bytes "a"])])) ∧
    WellFormed presentation (header 1 ++ unprintable.flatMap mxRecord) (unprintable.map mxAnswer) 12
        (header 1 ++ unprintable.flatMap mxRecord).length ∧
      ¬ Chooses presentation (header 1 ++ unprintable.flatMap mxRecord) (exchanges (unprintable.map mxAnswer)) :=
  ⟨not_chooses_twentyOne, ⟨wellFormed_behindText, not_chooses_behindText⟩, not_chooses_unprintable⟩

end NullG.Smtpq.MxHosts
