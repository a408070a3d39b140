/-
Text of the HTTP server (`httpd_format.c`).

`decodeurl` reads what an encoder writes; it drops every `%` that has no two digits behind it, so that it never
makes a text longer, and what it has made with no escape has no `%` and no `+`.
-/

import NullG.Mail.Text

namespace NullG.Httpd

open NullG.Nsp NullG.Mail

/-- `isxdigit`. -/
def isxdigit (c : Byte) : Bool := ncIsdigit c || (ch 'a' ≤ c && c ≤ ch 'f') || (ch 'A' ≤ c && c ≤ ch 'F')

/-- The value of a digit, as `hex2int` has it. -/
def hexDigit (c : Byte) : Byte :=
  if ch '0' ≤ c && c ≤ ch '9' then c - ch '0'
  else if ch 'a' ≤ c && c ≤ ch 'f' then c - (ch 'a' - 10)
  else if ch 'A' ≤ c && c ≤ ch 'F' then c - (ch 'A' - 10)
  else c

/-- `hex2int`, as a `char`. -/
def hex2int (hi lo : Byte) : Byte := hexDigit lo + 16 * hexDigit hi

/-- `decodeurl` of a string. -/
def decodeurl : List Byte → List Byte
  | [] => []
  | c :: src =>
      if c = ch '+' then ch ' ' :: decodeurl src
      else if c = ch '%' then
        match src with
        | hi :: lo :: rest =>
            if isxdigit hi && isxdigit lo then hex2int hi lo :: decodeurl rest else decodeurl (hi :: lo :: rest)
        | [lo] => decodeurl [lo]
        | [] => []
      else c :: decodeurl src

/-- A character that stands for itself in a URL. -/
def unreserved (c : Byte) : Bool :=
  ncIsdigit c || ncIsalpha c || c == ch '-' || c == ch '.' || c == ch '_' || c == ch '~'

/-- The digit of a number below 16. -/
def hexChar (n : Byte) : Byte := if n < 10 then n + ch '0' else n + (ch 'A' - 10)

/-- A byte as it is percent-encoded. -/
def encodeByte (c : Byte) : List Byte := if unreserved c then [c] else [ch '%', hexChar (c / 16), hexChar (c % 16)]

/-- A text that is percent-encoded. -/
def percentEncode (text : List Byte) : List Byte := text.flatMap encodeByte

section

variable {c hi lo : Byte} {src rest : List Byte}

theorem decodeurl_plain (hplus : c ≠ ch '+') (hpercent : c ≠ ch '%') (src : List Byte) :
    decodeurl (c :: src) = c :: decodeurl src := by
  rw [decodeurl.eq_def]
  dsimp only
  rw [if_neg hplus, if_neg hpercent]

theorem decodeurl_escape (hdigits : (isxdigit hi && isxdigit lo) = true) (rest : List Byte) :
    decodeurl (ch '%' :: hi :: lo :: rest) = hex2int hi lo :: decodeurl rest := by
  rw [decodeurl.eq_def]
  dsimp only
  rw [if_neg (by decide), if_pos rfl]
  exact if_pos hdigits

theorem byte_all {p : Byte → Bool} (h : (List.range 256).all (fun n => p n.toUInt8) = true) (c : Byte) : p c = true := by
  have hc := List.all_eq_true.mp h c.toNat (List.mem_range.mpr c.toNat_lt)
  rwa [Nat.toUInt8, UInt8.ofNat_toNat] at hc

/-- What is encoded of a byte is read as that byte. -/
theorem decodeurl_encodeByte (c : Byte) (rest : List Byte) : decodeurl (encodeByte c ++ rest) = c :: decodeurl rest := by
  unfold encodeByte
  cases hplain : unreserved c with
  | true =>
      have hself := byte_all (p := fun c => !unreserved c || (c != ch '+' && c != ch '%')) (by decide +kernel) c
      rw [hplain] at hself
      simp only [Bool.not_true, Bool.false_or, Bool.and_eq_true, bne_iff_ne, ne_eq] at hself
      exact decodeurl_plain hself.1 hself.2 rest
  | false =>
      have hdigits := byte_all (p := fun c => isxdigit (hexChar (c / 16)) && isxdigit (hexChar (c % 16)))
        (by decide +kernel) c
      have hvalue := byte_all (p := fun c => hex2int (hexChar (c / 16)) (hexChar (c % 16)) == c) (by decide +kernel) c
      rw [if_neg Bool.false_ne_true]
      exact (decodeurl_escape hdigits rest).trans (congrArg (· :: decodeurl rest) (eq_of_beq hvalue))

theorem decodeurl_percentEncode (text rest : List Byte) :
    decodeurl (percentEncode text ++ rest) = text ++ decodeurl rest := by
  induction text with
  | nil => rfl
  | cons c text ih =>
      unfold percentEncode at ih ⊢
      rw [List.flatMap_cons, List.append_assoc, decodeurl_encodeByte, ih, List.cons_append]

end

end NullG.Httpd
