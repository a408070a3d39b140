/-
Quoted-printable (`qp_encode` and `qp_decode` of `libs/net/mime.c`).

The encoder takes the same turns when it counts and when it writes (`sizeLoop_eq`, `writeLoop_run`): both fill lines
with characters and escapes. The decoder works in place and reads back what is written (`qpDecode_joined`). So the
round trip holds where the length that is counted is an `int` (`qp_iff`).
-/

import NullG.Httpd.Format
import NullG.Lib.Filling
import NullG.Lib.InPlace
import NullG.Lib.Memory

namespace NullG.Libs.Mime

open NullG.Nsp NullG.Lib NullG.Mail
open NullG.Httpd (isxdigit byte_all)

/-! ### The decoder -/

/-- A digit, as `hex2int` has it. -/
def hexValue (p : Byte) : Byte :=
  let h := lower p
  if ch '0' ≤ h && h ≤ ch '9' then h - ch '0' else if ch 'a' ≤ h && h ≤ ch 'f' then h - (ch 'a' - 10) else h

/-- `hex2int`, as a `char`. -/
def hex2int (h l : Byte) : Byte := 16 * hexValue h + hexValue l

/-- The loop of `libnsp_net_mime_qp_decode` on a buffer: the string that it leaves, or `none` where a byte behind the
buffer is read or one is written that was not read. -/
def qpDecodeLoop (out gap : List Byte) : List Byte → Option (List Byte)
  | [] => none
  | c :: s =>
      if c = 0 then do
        let _ ← InPlace.put 0 ⟨out, gap ++ [c], s⟩
        return out
      else if c ≠ ch '=' then do
        let t ← InPlace.put c ⟨out, gap ++ [c], s⟩
        qpDecodeLoop t.out t.gap s
      else
        match s with
        | [] => none
        | [s0] =>
            if isxdigit s0 then none
            else if s0 = ch '\n' then qpDecodeLoop out (gap ++ [c, s0]) []
            else if s0 = ch '\r' then none
            else qpDecodeLoop out (gap ++ [c]) [s0]
        | s0 :: s1 :: rest =>
            if isxdigit s0 && isxdigit s1 then do
              let t ← InPlace.put (hex2int s0 s1) ⟨out, gap ++ [c, s0] ++ [s1], rest⟩
              qpDecodeLoop t.out t.gap rest
            else if s0 = ch '\n' then qpDecodeLoop out (gap ++ [c, s0]) (s1 :: rest)
            else if s0 = ch '\r' && s1 = ch '\n' then qpDecodeLoop out (gap ++ [c, s0, s1]) rest
            else qpDecodeLoop out (gap ++ [c]) (s0 :: s1 :: rest)

/-- `libnsp_net_mime_qp_decode` of a string. -/
def qpDecode (str : List Byte) : Option (List Byte) := if str = [] then some [] else qpDecodeLoop [] [] (str ++ [0])

/-! ### The encoder -/

/-- The test for an escape. -/
def escaped (c : Byte) : Bool := c != ch ' ' && (c < 33 || c == 61 || c > 127)

/-- What is added to `linelen` for a byte. -/
def width (c : Byte) : Nat := if escaped c then 3 else 1

def maxlinelen : Nat := 76

/-- The soft line break. -/
def soft : List Byte := [ch '=', ch '\r', ch '\n']

/-- The body of the first loop from `breakline1` on, which is reached at most `n` times. -/
def sizeByte (c : Byte) : Nat → Nat → Nat → Option (Nat × Nat)
  | 0, _, _ => none
  | n + 1, outlen, linelen => do
      let outlen ← if linelen ≥ maxlinelen then Memory.int (outlen + 3) else some outlen
      let linelen := (if linelen ≥ maxlinelen then 0 else linelen) + width c
      if linelen ≥ maxlinelen then sizeByte c n outlen linelen
      else return (← Memory.int (outlen + width c), linelen)

/-- The first loop: the size of the output, or `none` where it leaves an `int`. -/
def sizeLoop (outlen linelen : Nat) : List Byte → Option Nat
  | [] => some outlen
  | c :: cp => do
      let r ← sizeByte c 2 outlen linelen
      sizeLoop r.1 r.2 cp

/-- `hex`. -/
def hex (n : Byte) : Byte := (bytes "0123456789ABCDEF").getD n.toNat 0

/-- What is written for a byte. -/
def qpByte (c : Byte) : List Byte := if escaped c then [ch '=', hex (c / 16), hex (c &&& (15 : Byte))] else [c]

/-- The variables of the second loop. -/
structure Writer where
  dest : List Byte
  di : Nat
  linelen : Nat

/-- The first lines of `breakline2`. -/
def breakLine (t : Writer) : Option Writer :=
  if t.linelen ≥ maxlinelen then
    (Memory.write t.dest t.di soft).bind fun dest => some ⟨dest, t.di + soft.length, 0⟩
  else some t

/-- The body of the second loop from `breakline2` on, which is reached at most `n` times. -/
def writeByte (c : Byte) : Nat → Writer → Option Writer
  | 0, _ => none
  | n + 1, t => do
      let t ← breakLine t
      let linelen := t.linelen + width c
      if linelen ≥ maxlinelen then writeByte c n ⟨t.dest, t.di, linelen⟩
      else return ⟨← Memory.write t.dest t.di (qpByte c), t.di + (qpByte c).length, linelen⟩

/-- The second loop, or `none` where it leaves the block. -/
def writeLoop (t : Writer) : List Byte → Option Writer
  | [] => some t
  | c :: cp => do writeLoop (← writeByte c 2 t) cp

/-- The block that is allocated for the output, with its NUL. -/
def outBlock (outlen : Nat) : Option (List Byte) := do
  Memory.write (List.replicate (← Memory.int (outlen + 1)) 0) outlen [0]

/-- `libnsp_net_mime_qp_encode` of a string. -/
def qpEncode (str : List Byte) : Option (List Byte) :=
  if str = [] then some []
  else do
    let outlen ← sizeLoop 0 0 str
    let t ← writeLoop ⟨← outBlock outlen, 0, 0⟩ str
    return t.dest.take outlen

/-! ### What the encoder promises -/

/-- The text is cut into lines by its soft breaks: of whole characters and escapes, and of at most 76 characters with
the `=` of the break. -/
def QpLines (s text : List Byte) : Prop := ∃ lines : List (List Byte), lines.flatten = s ∧
  text = Filling.joined soft qpByte lines ∧ ∀ line ∈ lines, (line.flatMap qpByte).length + 1 ≤ maxlinelen ∧
    ∀ c ∈ line.flatMap qpByte, c ≠ ch '\r' ∧ c ≠ ch '\n'

/-- The block that is counted is filled up to its NUL, what is written there is lines, and they are decoded to the
string. -/
def EncodesQp (s : List Byte) : Prop := ∃ text block t, qpEncode s = some text ∧
  sizeLoop 0 0 s = some text.length ∧ outBlock text.length = some block ∧ writeLoop ⟨block, 0, 0⟩ s = some t ∧
  t.di = text.length ∧ QpLines s text ∧ qpDecode text = some s

/-- The length of the encoded string, its soft breaks and its NUL is an `int`. -/
def QpFits (s : List Byte) : Prop :=
  (s.map width).sum + 3 * ((Filling.fill width maxlinelen 0 s).length - 1) + 1 < 2 ^ 31

section

variable {c : Byte} {s out gap rest : List Byte} {lines : List (List Byte)} {outlen linelen : Nat}

theorem width_lt (c : Byte) : width c < maxlinelen := by
  unfold width
  split <;> decide

theorem qpByte_length (c : Byte) : (qpByte c).length = width c := by
  unfold qpByte width
  split <;> rfl

/-- The text that is written behind `linelen` characters of a line. -/
def qpText (linelen : Nat) (s : List Byte) : List Byte :=
  Filling.joined soft qpByte (Filling.fill width maxlinelen linelen s)

theorem qpText_cons (linelen : Nat) (c : Byte) (s : List Byte) : qpText linelen (c :: s) =
    if linelen + width c < maxlinelen then qpByte c ++ qpText (linelen + width c) s
    else soft ++ (qpByte c ++ qpText (width c) s) := by
  unfold qpText
  rw [Filling.fill]
  split
  · rw [Filling.joined_place (Filling.fill_ne_nil _ _ _ _)]
  · rw [Filling.joined_cons (Filling.place_ne_nil _ _), Filling.joined_place (Filling.fill_ne_nil _ _ _ _)]
    rfl

/-! ### The turns of the loops -/

/-- What one byte adds to the size. -/
theorem sizeByte_eq (hlen : linelen < maxlinelen) (c : Byte) (outlen : Nat) : sizeByte c 2 outlen linelen =
    if linelen + width c < maxlinelen then (Memory.int (outlen + width c)).bind fun k => some (k, linelen + width c)
    else (Memory.int (outlen + soft.length + width c)).bind fun k => some (k, width c) := by
  have hlow : ¬ linelen ≥ maxlinelen := Nat.not_le.mpr hlen
  rw [sizeByte, if_neg hlow, if_neg hlow]
  by_cases hfits : linelen + width c < maxlinelen
  · rw [if_pos hfits]
    simp only [Option.bind_eq_bind, Option.bind_some, if_neg (Nat.not_le.mpr hfits)]
    rfl
  · have hfull : linelen + width c ≥ maxlinelen := Nat.not_lt.mp hfits
    have hw : ¬ width c ≥ maxlinelen := Nat.not_le.mpr (width_lt c)
    rw [if_neg hfits, ← Memory.int_add, Option.bind_assoc]
    simp only [Option.bind_eq_bind, Option.bind_some, if_pos hfull, sizeByte, Nat.zero_add, if_neg hw]
    rfl

/-- The first loop counts the text. -/
theorem sizeLoop_eq (hlen : linelen < maxlinelen) (hout : outlen < 2 ^ 31) (s : List Byte) :
    sizeLoop outlen linelen s = Memory.int (outlen + (qpText linelen s).length) := by
  induction s generalizing outlen linelen with
  | nil => exact (Memory.int_eq_some.mpr ⟨hout, rfl⟩).symm
  | cons c s ih =>
      rw [sizeLoop, sizeByte_eq hlen, qpText_cons]
      by_cases hfits : linelen + width c < maxlinelen
      · rw [if_pos hfits, if_pos hfits, List.length_append, qpByte_length, ← Nat.add_assoc,
          ← Memory.int_add (outlen + width c), Option.bind_eq_bind, Option.bind_assoc]
        exact Memory.int_congr (fun k hk => ih hfits hk) _
      · rw [if_neg hfits, if_neg hfits, List.length_append, List.length_append, qpByte_length, ← Nat.add_assoc,
          ← Nat.add_assoc, ← Memory.int_add (outlen + soft.length + width c), Option.bind_eq_bind, Option.bind_assoc]
        exact Memory.int_congr (fun k hk => ih (width_lt c) hk) _

/-- What one byte adds to the output. -/
theorem writeByte_eq {t : Writer} (hlen : t.linelen < maxlinelen) (c : Byte) : writeByte c 2 t =
    if t.linelen + width c < maxlinelen then
      (Memory.write t.dest t.di (qpByte c)).bind fun dest => some ⟨dest, t.di + (qpByte c).length, t.linelen + width c⟩
    else (Memory.write t.dest t.di soft).bind fun dest => (Memory.write dest (t.di + soft.length) (qpByte c)).bind
      fun dest => some ⟨dest, t.di + soft.length + (qpByte c).length, width c⟩ := by
  have hlow : ¬ t.linelen ≥ maxlinelen := Nat.not_le.mpr hlen
  rw [writeByte, breakLine, if_neg hlow]
  by_cases hfits : t.linelen + width c < maxlinelen
  · rw [if_pos hfits]
    simp only [Option.bind_eq_bind, Option.bind_some, if_neg (Nat.not_le.mpr hfits)]
    rfl
  · have hfull : t.linelen + width c ≥ maxlinelen := Nat.not_lt.mp hfits
    have hw : ¬ width c ≥ maxlinelen := Nat.not_le.mpr (width_lt c)
    rw [if_neg hfits]
    simp only [Option.bind_eq_bind, Option.bind_some, if_pos hfull, writeByte, breakLine, Option.bind_assoc,
      Nat.zero_add, if_neg hw]
    rfl

/-- The second loop writes the text. -/
theorem writeLoop_run {t : Writer} (hlen : t.linelen < maxlinelen) (s : List Byte) {dest : List Byte}
    (hwrite : Memory.write t.dest t.di (qpText t.linelen s) = some dest) :
    ∃ linelen, writeLoop t s = some ⟨dest, t.di + (qpText t.linelen s).length, linelen⟩ := by
  induction s generalizing t with
  | nil => exact ⟨t.linelen, by rw [Memory.write_nil hwrite]; rfl⟩
  | cons c s ih =>
      rw [writeLoop, writeByte_eq hlen]
      rw [qpText_cons] at hwrite ⊢
      by_cases hfits : t.linelen + width c < maxlinelen
      · rw [if_pos hfits] at hwrite ⊢
        rw [if_pos hfits]
        rw [Memory.write_append] at hwrite
        obtain ⟨dest₁, hbyte, hwrite⟩ := Option.bind_eq_some_iff.mp hwrite
        obtain ⟨n, hrun⟩ := ih (t := ⟨dest₁, t.di + (qpByte c).length, t.linelen + width c⟩) hfits hwrite
        refine ⟨n, ?_⟩
        rw [hbyte, List.length_append, ← Nat.add_assoc]
        exact hrun
      · rw [if_neg hfits] at hwrite ⊢
        rw [if_neg hfits]
        rw [Memory.write_append] at hwrite
        obtain ⟨dest₁, hsoft, hwrite⟩ := Option.bind_eq_some_iff.mp hwrite
        rw [Memory.write_append] at hwrite
        obtain ⟨dest₂, hbyte, hwrite⟩ := Option.bind_eq_some_iff.mp hwrite
        obtain ⟨n, hrun⟩ := ih (t := ⟨dest₂, t.di + soft.length + (qpByte c).length, width c⟩) (width_lt c) hwrite
        refine ⟨n, ?_⟩
        rw [hsoft, Option.bind_some, hbyte, List.length_append, List.length_append, ← Nat.add_assoc, ← Nat.add_assoc]
        exact hrun

/-! ### What is decoded -/

theorem hex_digits (c : Byte) : (isxdigit (hex (c / 16)) && isxdigit (hex (c &&& (15 : Byte)))) = true :=
  byte_all (p := fun c => isxdigit (hex (c / 16)) && isxdigit (hex (c &&& (15 : Byte)))) (by decide +kernel) c

/-- The digits of an escape have the value of the byte. -/
theorem hex2int_hex (c : Byte) : hex2int (hex (c / 16)) (hex (c &&& (15 : Byte))) = c :=
  eq_of_beq (byte_all (p := fun c => hex2int (hex (c / 16)) (hex (c &&& (15 : Byte))) == c) (by decide +kernel) c)

/-- A byte that needs no escape is none of those that end a text or start an escape. -/
theorem plain_of_not_escaped (h : ¬ escaped c = true) : c ≠ 0 ∧ c ≠ ch '=' := by
  refine ⟨?_, ?_⟩
  all_goals
    rintro rfl
    exact h rfl

/-- A character or an escape is read as its byte. -/
theorem qpDecodeLoop_byte (c : Byte) (out gap rest : List Byte) :
    ∃ gap', qpDecodeLoop out gap (qpByte c ++ rest) = qpDecodeLoop (out ++ [c]) gap' rest := by
  unfold qpByte
  by_cases hescaped : escaped c = true
  · rw [if_pos hescaped]
    refine ⟨(gap ++ [ch '=', hex (c / 16)] ++ [hex (c &&& (15 : Byte))]).tail, ?_⟩
    rw [List.cons_append, List.cons_append, List.cons_append, List.nil_append, qpDecodeLoop.eq_def]
    dsimp only
    rw [if_neg (by decide), if_neg (by decide), if_pos (hex_digits c), InPlace.put_read, hex2int_hex]
    rfl
  · have hplain := plain_of_not_escaped hescaped
    rw [if_neg hescaped]
    refine ⟨(gap ++ [c]).tail, ?_⟩
    rw [List.singleton_append, qpDecodeLoop.eq_def]
    dsimp only
    rw [if_neg hplain.1, if_pos hplain.2, InPlace.put_read]
    rfl

theorem qpDecodeLoop_soft (out gap rest : List Byte) :
    qpDecodeLoop out gap (soft ++ rest) = qpDecodeLoop out (gap ++ soft) rest := by
  rw [soft, List.cons_append, List.cons_append, List.cons_append, List.nil_append, qpDecodeLoop.eq_def]
  dsimp only
  rw [if_neg (by decide), if_neg (by decide), if_neg (by decide), if_neg (by decide), if_pos (by decide)]

theorem qpDecodeLoop_line (line out gap rest : List Byte) :
    ∃ gap', qpDecodeLoop out gap (line.flatMap qpByte ++ rest) = qpDecodeLoop (out ++ line) gap' rest := by
  induction line generalizing out gap with
  | nil => exact ⟨gap, by rw [List.append_nil]; rfl⟩
  | cons c line ih =>
      obtain ⟨gap₁, hbyte⟩ := qpDecodeLoop_byte c out gap (line.flatMap qpByte ++ rest)
      obtain ⟨gap₂, hline⟩ := ih (out ++ [c]) gap₁
      refine ⟨gap₂, ?_⟩
      rw [List.flatMap_cons, List.append_assoc, hbyte, hline, List.append_assoc, List.singleton_append]

/-- Lines are read as their bytes. -/
theorem qpDecodeLoop_joined (lines : List (List Byte)) (out gap rest : List Byte) :
    ∃ gap', qpDecodeLoop out gap (Filling.joined soft qpByte lines ++ rest) =
      qpDecodeLoop (out ++ lines.flatten) gap' rest := by
  induction lines generalizing out gap with
  | nil => exact ⟨gap, by rw [List.flatten_nil, List.append_nil]; rfl⟩
  | cons line lines ih =>
      by_cases hlines : lines = []
      · subst hlines
        rw [Filling.joined_single, List.flatten_singleton]
        exact qpDecodeLoop_line line out gap rest
      · obtain ⟨gap₁, hline⟩ := qpDecodeLoop_line line out gap (soft ++ (Filling.joined soft qpByte lines ++ rest))
        obtain ⟨gap₂, hrest⟩ := ih (out ++ line) (gap₁ ++ soft)
        refine ⟨gap₂, ?_⟩
        rw [Filling.joined_cons hlines, List.append_assoc, List.append_assoc, hline, qpDecodeLoop_soft, hrest,
          List.flatten_cons, List.append_assoc]

theorem qpDecode_eq (str : List Byte) : qpDecode str = qpDecodeLoop [] [] (str ++ [0]) := by
  unfold qpDecode
  split
  · rename_i hnil
    rw [hnil]
    rfl
  · rfl

/-- The decoder reads back the lines of a string. -/
theorem qpDecode_joined (lines : List (List Byte)) :
    qpDecode (Filling.joined soft qpByte lines) = some lines.flatten := by
  obtain ⟨gap, hrun⟩ := qpDecodeLoop_joined lines [] [] [0]
  rw [qpDecode_eq, hrun, List.nil_append, qpDecodeLoop, if_pos rfl, InPlace.put_read]
  rfl

/-! ### The round trip -/

/-- The first pass counts the text. -/
theorem sizeLoop_start (s : List Byte) : sizeLoop 0 0 s = Memory.int (qpText 0 s).length := by
  rw [sizeLoop_eq (by decide) (by decide), Nat.zero_add]

/-- The second pass writes the text into the block. -/
theorem writeLoop_block (hfits : (qpText 0 s).length + 1 < 2 ^ 31) : ∃ block t,
    outBlock (qpText 0 s).length = some block ∧ writeLoop ⟨block, 0, 0⟩ s = some t ∧ t.di = (qpText 0 s).length ∧
      t.dest.take (qpText 0 s).length = qpText 0 s := by
  have hsize : Memory.int ((qpText 0 s).length + 1) = some ((qpText 0 s).length + 1) :=
    Memory.int_eq_some.mpr ⟨hfits, rfl⟩
  obtain ⟨block, hzero⟩ : ∃ block, Memory.write (List.replicate ((qpText 0 s).length + 1) (0 : Byte))
      (qpText 0 s).length [0] = some block := ⟨_, Memory.write_of_le (by simp)⟩
  have hlen := Memory.write_length hzero
  rw [List.length_replicate] at hlen
  obtain ⟨dest, hwrite⟩ : ∃ dest, Memory.write block 0 (qpText 0 s) = some dest := ⟨_, Memory.write_of_le (by omega)⟩
  obtain ⟨n, hrun⟩ := writeLoop_run (t := ⟨block, 0, 0⟩) (show 0 < maxlinelen by decide) s hwrite
  have htake := @Memory.take_write _ block dest (qpText 0 s) [] 0 ((List.append_nil (qpText 0 s)).symm ▸ hwrite)
  rw [List.take_zero, List.nil_append, Nat.zero_add] at htake
  refine ⟨block, _, ?_, hrun, Nat.zero_add _, htake⟩
  rw [outBlock, hsize]
  exact hzero

/-- The encoder makes the text of a string, if that fits. -/
theorem qpEncode_eq (s : List Byte) :
    qpEncode s = if (qpText 0 s).length + 1 < 2 ^ 31 then some (qpText 0 s) else none := by
  unfold qpEncode
  by_cases hs : s = []
  · subst hs
    rfl
  · rw [if_neg hs, sizeLoop_start]
    by_cases hfits : (qpText 0 s).length + 1 < 2 ^ 31
    · obtain ⟨block, t, hblock, hrun, -, htake⟩ := writeLoop_block hfits
      rw [if_pos hfits, Memory.int_eq_some.mpr ⟨by omega, rfl⟩]
      simp only [Option.bind_eq_bind, Option.bind_some, hblock, hrun, htake]
      rfl
    · rw [if_neg hfits]
      unfold Memory.int
      split
      · simp only [outBlock, Option.bind_eq_bind, Option.bind_some, Memory.int, if_neg hfits]
        rfl
      · rfl

/-- What a text has for a byte has no line end. -/
theorem qpByte_plain (c : Byte) : ∀ d ∈ qpByte c, d ≠ ch '\r' ∧ d ≠ ch '\n' := by
  have hall := byte_all (p := fun c => (qpByte c).all fun d => d != ch '\r' && d != ch '\n') (by decide +kernel) c
  simpa using hall

theorem qpLines_qpText (s : List Byte) : QpLines s (qpText 0 s) := by
  refine ⟨Filling.fill width maxlinelen 0 s, Filling.fill_flatten _ _ _ _, rfl, fun line hline => ⟨?_, ?_⟩⟩
  · obtain ⟨first, lines, hfill, hfirst, hlines⟩ := @Filling.fill_short _ width maxlinelen 0 s
      (fun c _ => width_lt c) (by decide)
    have hshort : Filling.width width line < maxlinelen := by
      rw [hfill] at hline
      rcases List.mem_cons.mp hline with rfl | hline
      · rwa [Nat.zero_add] at hfirst
      · exact hlines line hline
    have hlength : (line.flatMap qpByte).length = Filling.width width line := by
      rw [List.length_flatMap, Filling.width]
      simp only [qpByte_length]
    omega
  · intro d hd
    obtain ⟨c, -, hd⟩ := List.mem_flatMap.mp hd
    exact qpByte_plain c d hd

theorem qpText_length (s : List Byte) : (qpText 0 s).length =
    (s.map width).sum + 3 * ((Filling.fill width maxlinelen 0 s).length - 1) := by
  rw [qpText, Filling.joined_length (Filling.fill_ne_nil _ _ _ _), Filling.fill_flatten, Filling.width]
  simp only [qpByte_length]
  rfl

/-- Round trip and layout hold where the length is an `int`. -/
theorem qp_iff (s : List Byte) : EncodesQp s ↔ QpFits s := by
  rw [QpFits, ← qpText_length]
  constructor
  · rintro ⟨text, block, t, htext, -⟩
    rw [qpEncode_eq] at htext
    split at htext
    · assumption
    · cases htext
  · intro hfits
    obtain ⟨block, t, hblock, hrun, hdi, -⟩ := writeLoop_block hfits
    refine ⟨qpText 0 s, block, t, ?_, ?_, hblock, hrun, hdi, qpLines_qpText s, ?_⟩
    · rw [qpEncode_eq, if_pos hfits]
    · rw [sizeLoop_start]
      exact Memory.int_eq_some.mpr ⟨by omega, rfl⟩
    · rw [qpText, qpDecode_joined, Filling.fill_flatten]

/-- A gigabyte of escapes does not fit. -/
theorem not_encodesQp_gigabyte : ¬ EncodesQp (List.replicate (2 ^ 30) 0) := by
  rintro ⟨text, block, t, htext, -⟩
  have hsum : ((List.replicate (2 ^ 30) (0 : Byte)).map width).sum = 2 ^ 30 * 3 := by
    rw [List.map_replicate, List.sum_replicate_nat]
    rfl
  have hlen := qpText_length (List.replicate (2 ^ 30) 0)
  rw [hsum] at hlen
  rw [qpEncode_eq, if_neg (by omega)] at htext
  cases htext

end

end NullG.Libs.Mime
