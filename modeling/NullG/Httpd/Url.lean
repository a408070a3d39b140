/-
URLs (`encodeurl` and `decodeurl` of `httpd_format.c`, `URLDecode` of `cgi.c`).

The decoders work in place, and what they leave is the same (`decoders_agree`). `encodeurl` writes into a buffer of
4096 bytes: it leaves no room for the NUL behind a character that fills the buffer, and it looks the digits of a byte up
by a `char`, which is negative from 128 on. Elsewhere it is right (`encodeurl_iff`).
-/

import NullG.Httpd.Format
import NullG.Lib.InPlace
import NullG.Lib.Memory
import NullG.Mail.Lines

namespace NullG.Httpd

open NullG.Nsp NullG.Lib NullG.Mail

/-! ### The decoders -/

/-- The loop over a buffer up to its NUL, or `none` where a byte behind the buffer is read or one is written that was
not read: `plain` is what is written of a byte that is no `%`. -/
def decodeLoop (hex : Byte → Byte → Byte) (plain : Byte → Byte) (out gap : List Byte) :
    List Byte → Option (InPlace Byte)
  | [] => none
  | c :: src =>
      if c = 0 then InPlace.put 0 ⟨out, gap ++ [c], src⟩
      else if c = ch '%' then
        match src with
        | [] => none
        | [hi] => if isxdigit hi then none else decodeLoop hex plain out (gap ++ [c]) [hi]
        | hi :: lo :: rest =>
            if isxdigit hi && isxdigit lo then do
              let t ← InPlace.put (hex hi lo) ⟨out, gap ++ [c, hi] ++ [lo], rest⟩
              decodeLoop hex plain t.out t.gap rest
            else decodeLoop hex plain out (gap ++ [c]) (hi :: lo :: rest)
      else do
        let t ← InPlace.put (plain c) ⟨out, gap ++ [c], src⟩
        decodeLoop hex plain t.out t.gap src

section

variable {s : List Byte}

variable {hex : Byte → Byte → Byte} {plain : Byte → Byte}

end

/-! ### The encoder -/

/-- `sizeof(conn->dat->smallbuf[0])`. -/
def smallbuf : Nat := 4096

/-- `hex[i]`, or `none` where that is no digit of the table. -/
def hexTable (i : Int) : Option Byte := if 0 ≤ i ∧ i < 16 then some (hexChar (UInt8.ofNat i.toNat)) else none

/-- The escape of a `char`. -/
def escapeChar (c : Byte) : Option (List Byte) := do
  return [ch '%', ← hexTable (c.toInt8.toInt.tdiv 16), ← hexTable (c.toInt8.toInt % 16)]

/-- The loop of `encodeurl`, which ends with the NUL, or `none` where it leaves the buffer or the table. -/
def encodeurlLoop (dstlen : Nat) (buffer : List Byte) : List Byte → Option (List Byte)
  | [] => Memory.write buffer dstlen [0]
  | c :: src =>
      if dstlen + 1 > smallbuf then Memory.write buffer dstlen [0]
      else if unreserved c then do encodeurlLoop (dstlen + 1) (← Memory.write buffer dstlen [c]) src
      else if dstlen + 4 > smallbuf then Memory.write buffer dstlen [0]
      else do encodeurlLoop (dstlen + 3) (← Memory.write buffer dstlen (← escapeChar c)) src

/-- `encodeurl`: the buffer that it returns. -/
def encodeurl (src : List Byte) : Option (List Byte) := encodeurlLoop 0 (List.replicate smallbuf 0) src

/-- A text of unreserved characters and whole escapes. -/
inductive UrlText : List Byte → Prop where
  | nil : UrlText []
  | plain {c : Byte} {text : List Byte} : unreserved c = true → UrlText text → UrlText (c :: text)
  | escape {hi lo : Byte} {text : List Byte} : isxdigit hi = true → isxdigit lo = true → UrlText text →
      UrlText (ch '%' :: hi :: lo :: text)

/-- The encoder stays in its buffer, what it leaves there is a text of a URL, and that is decoded to the string if its
encoding fits in the buffer, and else to a part of it. -/
structure EncodesUrl (s : List Byte) : Prop where
  run : ∃ buffer, encodeurl s = some buffer ∧ UrlText (cstr buffer) ∧
    ((percentEncode s).length < smallbuf → decodeurl (cstr buffer) = s) ∧ decodeurl (cstr buffer) <+: s

/-- No part of the string that fits has a byte from 128 on, and none fills the buffer with its last character. -/
structure UrlFits (s : List Byte) : Prop where
  ascii : ∀ q, q <+: s → (percentEncode q).length < smallbuf → ∀ c ∈ q, c < 128
  room : ∀ q c, q ++ [c] <+: s → unreserved c = true → (percentEncode (q ++ [c])).length ≠ smallbuf

section

variable {s q src : List Byte} {c : Byte} {m n : Nat}

/-- The part of a string that is written behind `n` bytes. -/
def taken (n : Nat) : List Byte → List Byte
  | [] => []
  | c :: src =>
      if n + 1 > smallbuf then []
      else if unreserved c then c :: taken (n + 1) src
      else if n + 4 > smallbuf then []
      else c :: taken (n + 3) src

/-- What is written for a byte. -/
def charText (c : Byte) : Option (List Byte) := if unreserved c then some [c] else escapeChar c

/-- What is written for a string. -/
def charTexts : List Byte → Option (List Byte)
  | [] => some []
  | c :: s => do return (← charText c) ++ (← charTexts s)

theorem escapeChar_length {e : List Byte} (h : escapeChar c = some e) : e.length = 3 := by
  unfold escapeChar at h
  obtain ⟨hi, -, h⟩ := Option.bind_eq_some_iff.mp h
  obtain ⟨lo, -, h⟩ := Option.bind_eq_some_iff.mp h
  rw [← Option.some.inj h]
  rfl

/-- One text is written, and then those of the other bytes. -/
theorem write_texts {e : List Byte} (buffer : List Byte) (he : charText c = some e) (hn : n + e.length = m) :
    ((Memory.write buffer n e).bind fun buffer => (charTexts s).bind fun e => Memory.write buffer m (e ++ [0])) =
      (charTexts (c :: s)).bind fun e => Memory.write buffer n (e ++ [0]) := by
  rw [charTexts, he, Option.bind_comm, Option.bind_eq_bind, Option.bind_some, Option.bind_assoc]
  congr 1
  funext e'
  rw [Option.pure_def, Option.bind_some, List.append_assoc, Memory.write_append, hn]

/-- The loop writes the texts of the part that is taken, and a NUL. -/
theorem encodeurlLoop_eq (n : Nat) (buffer src : List Byte) :
    encodeurlLoop n buffer src = (charTexts (taken n src)).bind fun e => Memory.write buffer n (e ++ [0]) := by
  induction src generalizing n buffer with
  | nil => rfl
  | cons c src ih =>
      rw [encodeurlLoop, taken]
      by_cases hfull : n + 1 > smallbuf
      · rw [if_pos hfull, if_pos hfull]
        rfl
      · rw [if_neg hfull, if_neg hfull]
        by_cases hplain : unreserved c = true
        · rw [if_pos hplain, if_pos hplain, ← write_texts (e := [c]) (m := n + 1) buffer (if_pos hplain) rfl]
          simp only [ih]
          rfl
        · rw [if_neg hplain, if_neg hplain]
          by_cases hroom : n + 4 > smallbuf
          · rw [if_pos hroom, if_pos hroom]
            rfl
          · rw [if_neg hroom, if_neg hroom]
            have htext : charText c = escapeChar c := if_neg hplain
            cases hescape : escapeChar c with
            | none =>
                rw [charTexts, htext, hescape]
                rfl
            | some e =>
                rw [← write_texts (m := n + 3) buffer (htext.trans hescape) (by rw [escapeChar_length hescape])]
                simp only [ih]
                rfl

theorem percentEncode_cons (c : Byte) (s : List Byte) : percentEncode (c :: s) = encodeByte c ++ percentEncode s :=
  List.flatMap_cons

theorem percentEncode_append (q s : List Byte) : percentEncode (q ++ s) = percentEncode q ++ percentEncode s :=
  List.flatMap_append

theorem percentEncode_singleton (c : Byte) : percentEncode [c] = encodeByte c := List.flatMap_singleton encodeByte c

theorem encodeByte_length (c : Byte) : (encodeByte c).length = if unreserved c = true then 1 else 3 := by
  unfold encodeByte
  split <;> rfl

/-- A byte below 128 is written as it is encoded. -/
theorem charText_ascii (h : c < 128) : charText c = some (encodeByte c) := by
  have hall := byte_all (p := fun c => !(c < 128) || charText c == some (encodeByte c)) (by decide +kernel) c
  simpa [h] using hall

/-- Another byte leaves the table or is written with a digit 0, and so as another byte. -/
theorem charText_high (h : ¬ c < 128) {e : List Byte} (he : charText c = some e) :
    ∃ lo d, e = [ch '%', ch '0', lo] ∧ (isxdigit (ch '0') && isxdigit lo) = true ∧ hex2int (ch '0') lo = d ∧ d ≠ c := by
  have hall := byte_all (p := fun c => c < 128 || charText c == none ||
    (charText c == some [ch '%', ch '0', hexChar (c % 16)] && isxdigit (hexChar (c % 16)) &&
      hex2int (ch '0') (hexChar (c % 16)) != c)) (by decide +kernel) c
  rw [he] at hall
  simp only [h, decide_false, Bool.false_or, Bool.and_eq_true, bne_iff_ne, beq_iff_eq, Bool.or_eq_true,
    reduceCtorEq, false_or, Option.some.injEq] at hall
  exact ⟨_, _, hall.1.1, hall.1.2, rfl, hall.2⟩

/-- No NUL is written for a byte. -/
theorem charText_not_nul {e : List Byte} (he : charText c = some e) : 0 ∉ e := by
  have hall := byte_all (p := fun c => (charText c).all fun e => !e.contains 0) (by decide +kernel) c
  rw [he] at hall
  simpa using hall

theorem charTexts_not_nul {e : List Byte} (he : charTexts s = some e) : 0 ∉ e := by
  induction s generalizing e with
  | nil =>
      cases he
      exact List.not_mem_nil
  | cons c s ih =>
      obtain ⟨e₁, he₁, he⟩ := Option.bind_eq_some_iff.mp he
      obtain ⟨e₂, he₂, he⟩ := Option.bind_eq_some_iff.mp he
      rw [← Option.some.inj he, List.mem_append, not_or]
      exact ⟨charText_not_nul he₁, ih he₂⟩

theorem charTexts_ascii (h : ∀ c ∈ s, c < 128) : charTexts s = some (percentEncode s) := by
  induction s with
  | nil => rfl
  | cons c s ih =>
      rw [charTexts, charText_ascii (h c List.mem_cons_self), ih fun d hd => h d (List.mem_cons_of_mem c hd),
        percentEncode_cons]
      rfl

/-- What is decoded to a part of the string that it was written for has bytes below 128 only. -/
theorem ascii_of_decoded {e : List Byte} (he : charTexts q = some e) (hq : q <+: s) (hdecoded : decodeurl e <+: s) :
    ∀ c ∈ q, c < 128 := by
  induction q generalizing s e with
  | nil => exact fun c hc => absurd hc List.not_mem_nil
  | cons c q ih =>
      obtain ⟨e₁, he₁, he⟩ := Option.bind_eq_some_iff.mp he
      obtain ⟨e₂, he₂, he⟩ := Option.bind_eq_some_iff.mp he
      obtain rfl := Option.some.inj he
      obtain ⟨r, rfl⟩ := hq
      by_cases hc : c < 128
      · rw [charText_ascii hc] at he₁
        obtain rfl := Option.some.inj he₁
        rw [decodeurl_encodeByte, List.cons_append, List.cons_prefix_cons] at hdecoded
        intro d hd
        rcases List.mem_cons.mp hd with rfl | hd
        · exact hc
        · exact ih he₂ (List.prefix_append q r) hdecoded.2 d hd
      · obtain ⟨lo, d, rfl, hdigits, hd, hne⟩ := charText_high hc he₁
        rw [List.cons_append, List.cons_append, List.cons_append, List.nil_append, decodeurl_escape hdigits, hd,
          List.cons_append, List.cons_prefix_cons] at hdecoded
        exact absurd hdecoded.1 hne

theorem urlText_percentEncode (s : List Byte) : UrlText (percentEncode s) := by
  induction s with
  | nil => exact .nil
  | cons c s ih =>
      rw [percentEncode_cons, encodeByte]
      by_cases hplain : unreserved c = true
      · rw [if_pos hplain]
        exact .plain hplain ih
      · rw [if_neg hplain]
        have hdigits := byte_all (p := fun c => isxdigit (hexChar (c / 16)) && isxdigit (hexChar (c % 16)))
          (by decide +kernel) c
        exact .escape (Bool.and_eq_true_iff.mp hdigits).1 (Bool.and_eq_true_iff.mp hdigits).2 ih

/-! #### The part that is taken -/

theorem taken_full (src : List Byte) : taken smallbuf src = [] := by
  cases src with
  | nil => rfl
  | cons c src => exact if_pos (Nat.lt_succ_self smallbuf)

theorem taken_prefix (n : Nat) (src : List Byte) : taken n src <+: src := by
  induction src generalizing n with
  | nil => exact List.prefix_rfl
  | cons c src ih =>
      rw [taken]
      split_ifs
      · exact List.nil_prefix
      · exact List.cons_prefix_cons.mpr ⟨rfl, ih (n + 1)⟩
      · exact List.nil_prefix
      · exact List.cons_prefix_cons.mpr ⟨rfl, ih (n + 3)⟩

/-- A part that leaves room is taken. -/
theorem taken_append (hroom : n + (percentEncode q).length < smallbuf) (r : List Byte) :
    taken n (q ++ r) = q ++ taken (n + (percentEncode q).length) r := by
  induction q generalizing n with
  | nil => rfl
  | cons c q ih =>
      rw [percentEncode_cons, List.length_append, encodeByte_length] at hroom ⊢
      rw [List.cons_append, taken]
      by_cases hplain : unreserved c = true
      · rw [if_pos hplain] at hroom ⊢
        rw [if_neg (by omega), if_pos hplain, ih (by omega), Nat.add_assoc]
        rfl
      · rw [if_neg hplain] at hroom ⊢
        rw [if_neg (by omega), if_neg hplain, if_neg (by omega), ih (by omega), Nat.add_assoc]
        rfl

/-- The part that is taken leaves room, or it fills the buffer with a character that needs no escape. -/
theorem taken_room (hn : n < smallbuf) (src : List Byte) : n + (percentEncode (taken n src)).length < smallbuf ∨
    n + (percentEncode (taken n src)).length = smallbuf ∧ ∃ q c, taken n src = q ++ [c] ∧ unreserved c = true := by
  induction src generalizing n with
  | nil => exact .inl hn
  | cons c src ih =>
      -- one more character in front of the part that is taken behind it
      have hcons : ∀ {k : Nat}, (encodeByte c).length = k → n + k < smallbuf →
          taken n (c :: src) = c :: taken (n + k) src → n + (percentEncode (taken n (c :: src))).length < smallbuf ∨
            n + (percentEncode (taken n (c :: src))).length = smallbuf ∧
              ∃ q d, taken n (c :: src) = q ++ [d] ∧ unreserved d = true := by
        intro k hk hlt heq
        rw [heq, percentEncode_cons, List.length_append, hk, ← Nat.add_assoc]
        rcases ih hlt with hroom | ⟨hfull, q, d, hq, hd⟩
        · exact .inl hroom
        · exact .inr ⟨hfull, c :: q, d, by rw [hq]; rfl, hd⟩
      have hlen := encodeByte_length c
      by_cases hplain : unreserved c = true
      · rw [if_pos hplain] at hlen
        have heq : taken n (c :: src) = c :: taken (n + 1) src := by
          rw [taken, if_neg (by omega), if_pos hplain]
        rcases Nat.lt_or_eq_of_le (Nat.succ_le_of_lt hn) with hlt | hfull
        · exact hcons hlen hlt heq
        · rw [show n + 1 = smallbuf from hfull, taken_full] at heq
          refine .inr ⟨?_, [], c, heq, hplain⟩
          rw [heq, percentEncode_cons, List.length_append, hlen]
          exact hfull
      · rw [if_neg hplain] at hlen
        by_cases hroom : n + 4 > smallbuf
        · have heq : taken n (c :: src) = [] := by rw [taken, if_neg (by omega), if_neg hplain, if_pos hroom]
          rw [heq]
          exact .inl hn
        · have heq : taken n (c :: src) = c :: taken (n + 3) src := by
            rw [taken, if_neg (by omega), if_neg hplain, if_neg hroom]
          exact hcons hlen (by omega) heq

/-! #### The buffer -/

/-- What is left in the buffer. -/
theorem encodeurl_some {buffer : List Byte} : encodeurl s = some buffer ↔ ∃ e, charTexts (taken 0 s) = some e ∧
    e.length < smallbuf ∧ buffer = e ++ 0 :: List.replicate (smallbuf - (e.length + 1)) 0 := by
  rw [encodeurl, encodeurlLoop_eq, Option.bind_eq_some_iff]
  refine exists_congr fun e => and_congr_right fun _ => ?_
  rw [Memory.write_zero, List.length_append, List.length_singleton, List.append_assoc]
  constructor
  · intro h
    split at h
    · rename_i hlt
      exact ⟨hlt, (Option.some.inj h).symm⟩
    · cases h
  · rintro ⟨hlt, rfl⟩
    exact if_pos hlt

/-- The string in the buffer is what was written. -/
theorem cstr_texts {e : List Byte} (he : charTexts q = some e) (pad : List Byte) : cstr (e ++ 0 :: pad) = e :=
  (cstr_append_zero e pad).trans (cstr_eq (charTexts_not_nul he))

/-- The encoder is right where the string fits, and only there. -/
theorem encodeurl_iff (s : List Byte) : EncodesUrl s ↔ UrlFits s := by
  have htaken := taken_prefix 0 s
  constructor
  · rintro ⟨buffer, hrun, -, -, hdecoded⟩
    obtain ⟨e, he, hlt, rfl⟩ := encodeurl_some.mp hrun
    rw [cstr_texts he] at hdecoded
    have hascii := ascii_of_decoded he htaken hdecoded
    obtain rfl : percentEncode (taken 0 s) = e := Option.some.inj ((charTexts_ascii hascii).symm.trans he)
    -- a part that leaves room is in the part that is taken
    have hpart : ∀ q, q <+: s → (percentEncode q).length < smallbuf → q <+: taken 0 s := by
      rintro q ⟨r, rfl⟩ hq
      rw [taken_append (by rwa [Nat.zero_add])]
      exact List.prefix_append q _
    refine ⟨fun q hq hroom c hc => hascii c ((hpart q hq hroom).subset hc), ?_⟩
    rintro q c ⟨r, rfl⟩ hplain hfull
    have hlen : (percentEncode q).length + 1 = smallbuf := by
      rw [← hfull, percentEncode_append, percentEncode_singleton, List.length_append, encodeByte_length, if_pos hplain]
    have htake : taken 0 (q ++ [c] ++ r) = q ++ [c] := by
      rw [List.append_assoc, taken_append (by omega), List.singleton_append, taken, if_neg (by omega), if_pos hplain,
        Nat.zero_add, hlen, taken_full]
    rw [htake] at hlt
    omega
  · rintro ⟨hascii, hroom⟩
    have hlt : (percentEncode (taken 0 s)).length < smallbuf := by
      rcases taken_room (by decide : 0 < smallbuf) s with hlt | ⟨hfull, q, c, hq, hplain⟩
      · rwa [Nat.zero_add] at hlt
      · rw [Nat.zero_add, hq] at hfull
        exact absurd hfull (hroom q c (hq ▸ htaken) hplain)
    have he := charTexts_ascii (hascii (taken 0 s) htaken hlt)
    refine ⟨_, encodeurl_some.mpr ⟨_, he, hlt, rfl⟩, ?_⟩
    have hdecode : decodeurl (percentEncode (taken 0 s)) = taken 0 s := by
      have h := decodeurl_percentEncode (taken 0 s) []
      rwa [List.append_nil, decodeurl, List.append_nil] at h
    rw [cstr_texts he, hdecode]
    refine ⟨urlText_percentEncode _, ?_, htaken⟩
    intro hfits
    have hall := taken_append (n := 0) (q := s) (by rwa [Nat.zero_add]) []
    rw [List.append_nil] at hall
    rw [hall]
    exact List.append_nil s

/-- A byte from 128 on leaves the table. -/
theorem not_encodesUrl_high : ¬ EncodesUrl [0x80] := by
  rintro ⟨buffer, hrun, -⟩
  obtain ⟨e, he, -⟩ := encodeurl_some.mp hrun
  have hnone : charTexts (taken 0 [0x80]) = none := by decide
  cases hnone.symm.trans he

end

end NullG.Httpd
