/-
Base64 (`libs/base/base64.c`, the same in `libs/net/mime.c`, and `_base64_encode_send` of `libs/net/smtp.c`).

The decoder drops white space, so it reads back what is written of a string in whatever lines (`base64Decode_spaces`).
The block of the encoder has room for its text (`wrapped_fits`), but the sum that is its size may leave an `int`
(`base64_iff`). The encoder of attachments stays in `dest` (`encodeSend_run`).
-/

import NullG.Lib.Memory
import NullG.Lib.Sextets
import NullG.Libs.Smtp

namespace NullG.Libs.Base64

open NullG.Nsp NullG.Lib NullG.Mail NullG.Libs.Smtp

/-! ### The decoder -/

/-- The number of a character of the alphabet. -/
def sextet (ch : Byte) : Option Byte :=
  if Nsp.ch 'A' ≤ ch && ch ≤ Nsp.ch 'Z' then some (ch - Nsp.ch 'A')
  else if Nsp.ch 'a' ≤ ch && ch ≤ Nsp.ch 'z' then some (ch - Nsp.ch 'a' + 26)
  else if ncIsdigit ch then some (ch - Nsp.ch '0' + 52)
  else if ch = Nsp.ch '+' then some 62
  else if ch = Nsp.ch '/' then some 63
  else none

/-- The variables of the decoder. -/
structure Decoder where
  dest : List Byte
  destidx : Nat
  state : Nat

/-- The `switch` of the decoder, or `none` where it leaves the block. -/
def putSextet (t : Decoder) (x : Byte) : Option Decoder :=
  match t.state with
  | 0 => do return ⟨← Memory.write t.dest t.destidx [x <<< 2], t.destidx, 1⟩
  | 1 => do
      let c ← t.dest[t.destidx]?
      return ⟨← Memory.write t.dest t.destidx [c ||| (x >>> 4), (x &&& (0x0f : Byte)) <<< 4], t.destidx + 1, 2⟩
  | 2 => do
      let c ← t.dest[t.destidx]?
      return ⟨← Memory.write t.dest t.destidx [c ||| (x >>> 2), (x &&& (0x03 : Byte)) <<< 6], t.destidx + 1, 3⟩
  | _ => do
      let c ← t.dest[t.destidx]?
      return ⟨← Memory.write t.dest t.destidx [c ||| x], t.destidx + 1, 0⟩

/-- The end of the loop. -/
def decodeEnd (t : Decoder) : Option (List Byte) := do
  return (← Memory.write t.dest t.destidx [0]).take t.destidx

/-- The loop of `libnsp_base_base64_decode`. The string that it returns is empty if there is another character. -/
def decodeLoop (t : Decoder) : List Byte → Option (List Byte)
  | [] => decodeEnd t
  | ch :: src =>
      if ch = 0 then decodeEnd t
      else if ncIsspace ch then decodeLoop t src
      else if ch = Nsp.ch '=' then decodeEnd t
      else
        match sextet ch with
        | none => some []
        | some x => do decodeLoop (← putSextet t x) src

/-- `libnsp_base_base64_decode` of a string. -/
def base64Decode (str : List Byte) : Option (List Byte) :=
  if str = [] then some [] else decodeLoop ⟨List.replicate (str.length + 1) 0, 0, 0⟩ str

/-! ### The encoder -/

/-- An `int` that becomes an `unsigned long`. -/
def unsigned (n : Int32) : Nat := (n.toInt % 2 ^ 64).toNat

/-- The number of line ends that is expected. -/
def lineEnds (size : Nat) (maxline : Int32) : Nat :=
  if maxline ≠ 0 then (size + 3) / 3 * 4 / unsigned maxline else 5

/-- The size of the block for a string of `size` bytes. -/
def blockSize (size : Nat) (maxline : Int32) : Option Nat := do
  let i ← Memory.int (lineEnds size maxline)
  let i ← Memory.int (i * 2 + 5)
  Memory.int (size / 3 * 4 + i)

/-- The end of the encoder. -/
def encodeEnd (dest : List Byte) (dst : Nat) : Option (List Byte) := do
  return (← Memory.write dest dst [0]).take dst

/-- The loop of `libnsp_base_base64_encode`, and what follows it. -/
def encodeLoop (maxline : Int32) (dest : List Byte) (dst linelen : Nat) : List Byte → Option (List Byte)
  | c0 :: c1 :: c2 :: cp => do
      let a : Byte := c0 >>> 2
      let b : Byte := ((c0 <<< 4) &&& (0x30 : Byte)) ||| (c1 >>> 4)
      let c : Byte := ((c1 <<< 2) &&& (0x3c : Byte)) ||| (c2 >>> 6)
      let d : Byte := c2 &&& (0x3f : Byte)
      let dest ← Memory.write dest dst [b64char a, b64char b, b64char c, b64char d]
      if 0 < maxline.toInt ∧ maxline.toInt ≤ linelen + 4 then
        encodeLoop maxline (← Memory.write dest (dst + 4) [ch '\r', ch '\n']) (dst + 6) 0 cp
      else encodeLoop maxline dest (dst + 4) (linelen + 4) cp
  | [c0] => do
      let a : Byte := c0 >>> 2
      let b : Byte := (c0 <<< 4) &&& (0x30 : Byte)
      encodeEnd (← Memory.write dest dst [b64char a, b64char b, ch '=', ch '=']) (dst + 4)
  | [c0, c1] => do
      let a : Byte := c0 >>> 2
      let b : Byte := ((c0 <<< 4) &&& (0x30 : Byte)) ||| (c1 >>> 4)
      let c : Byte := (c1 <<< 2) &&& (0x3c : Byte)
      encodeEnd (← Memory.write dest dst [b64char a, b64char b, b64char c, ch '=']) (dst + 4)
  | [] => encodeEnd dest dst

/-- `libnsp_base_base64_encode` of a string, or `none` where it leaves its block or an `int`. -/
def base64Encode (str : List Byte) (maxline : Int32) : Option (List Byte) :=
  if str = [] then some []
  else do encodeLoop maxline (List.replicate (← blockSize str.length maxline) 0) 0 0 str

/-! ### The encoder of attachments -/

/-- The line that is in `dest`, and the end of `_base64_encode_send`. -/
def sendEnd (dest : List Byte) (dst : Nat) : Option (List (List Byte)) := do
  return [cstr (← Memory.write dest dst [0])]

/-- The loop of `_base64_encode_send`, and what follows it: the lines that it prints, or `none` where it leaves
`dest`. -/
def sendLoop (dest : List Byte) (dst linelen : Nat) : List Byte → Option (List (List Byte))
  | c0 :: c1 :: c2 :: cp => do
      let a : Byte := c0 >>> 2
      let b : Byte := ((c0 <<< 4) &&& (0x30 : Byte)) ||| (c1 >>> 4)
      let c : Byte := ((c1 <<< 2) &&& (0x3c : Byte)) ||| (c2 >>> 6)
      let d : Byte := c2 &&& (0x3f : Byte)
      let dest ← Memory.write dest dst [b64char a, b64char b, b64char c, b64char d]
      if 76 ≤ linelen + 4 then
        let dest ← Memory.write dest (dst + 4) [0]
        return cstr dest :: (← sendLoop dest 0 0 cp)
      else sendLoop dest (dst + 4) (linelen + 4) cp
  | [c0] => do
      let a : Byte := c0 >>> 2
      let b : Byte := (c0 <<< 4) &&& (0x30 : Byte)
      sendEnd (← Memory.write dest dst [b64char a, b64char b, ch '=', ch '=']) (dst + 4)
  | [c0, c1] => do
      let a : Byte := c0 >>> 2
      let b : Byte := ((c0 <<< 4) &&& (0x30 : Byte)) ||| (c1 >>> 4)
      let c : Byte := (c1 <<< 2) &&& (0x3c : Byte)
      sendEnd (← Memory.write dest dst [b64char a, b64char b, b64char c, ch '=']) (dst + 4)
  | [] => sendEnd dest dst

/-- `_base64_encode_send` of a file: the lines that it prints, each with a CRLF behind it. -/
def encodeSend (file : List Byte) : Option (List (List Byte)) :=
  if file = [] then some [] else sendLoop (List.replicate 80 0) 0 0 file

/-! ### What the encoders promise -/

/-- The text is cut into lines of at most `width` characters by its line ends. -/
def CutInto (width : Int) (text : List Byte) : Prop :=
  ∃ lines last, text = asLines lines ++ last ∧ (∀ line ∈ lines, line.length ≤ width ∧ ∀ c ∈ line, ncIsspace c = false) ∧
    ∀ c ∈ last, ncIsspace c = false

/-- The encoder stays in its block, what it makes of a string is decoded to it, and a line is no longer than `maxline`
is when it is rounded up. -/
def EncodesBase64 (s : List Byte) (maxline : Int32) : Prop :=
  ∃ text, base64Encode s maxline = some text ∧ base64Decode text = some s ∧
    (0 < maxline.toInt → CutInto ((maxline.toInt + 3) / 4 * 4) text)

/-- The size of the block is an `int`. -/
def SizeFits (n : Nat) (maxline : Int) : Prop :=
  4 * (n / 3) + 2 * (if maxline = 0 then 5 else if maxline < 0 then 0 else 4 * ((n + 3) / 3) / maxline.toNat) + 5 <
    2 ^ 31

instance (n : Nat) (maxline : Int) : Decidable (SizeFits n maxline) := inferInstanceAs (Decidable (_ < _))

/-! ### The text of a string -/

/-- The four characters of three bytes. -/
def quad (c0 c1 c2 : Byte) : List Byte :=
  [b64char (Sextets.first c0), b64char (Sextets.second c0 c1), b64char (Sextets.third c1 c2),
    b64char (Sextets.fourth c2)]

/-- The characters of a string. -/
def codeText : List Byte → List Byte
  | c0 :: c1 :: c2 :: cp => quad c0 c1 c2 ++ codeText cp
  | [c0] => [b64char (Sextets.first c0), b64char (Sextets.second c0 0), ch '=', ch '=']
  | [c0, c1] => [b64char (Sextets.first c0), b64char (Sextets.second c0 c1), b64char (Sextets.third c1 0), ch '=']
  | [] => []

section

variable {x m : Byte} {s out gap text : List Byte}

theorem b64char_plain (hx : x < 64) : b64char x ≠ 0 ∧ ncIsspace (b64char x) = false ∧ b64char x ≠ ch '=' ∧
    sextet (b64char x) = some x := by
  have hall := Sextets.sextet_all (p := fun x => b64char x != 0 && !ncIsspace (b64char x) && b64char x != ch '=' &&
    sextet (b64char x) == some x) (by decide +kernel) hx
  simpa [and_assoc] using hall

/-- What holds of the characters of the alphabet and of a pad holds of the characters of a string. -/
theorem codeText_all {p : Byte → Prop} (hchar : ∀ x, x < 64 → p (b64char x)) (hpad : p (ch '=')) (s : List Byte) :
    ∀ c ∈ codeText s, p c := by
  fun_induction codeText s with
  | case1 c0 c1 c2 cp ih =>
      intro c hc
      rcases List.mem_append.mp hc with hc | hc
      · simp only [quad, List.mem_cons, List.not_mem_nil, or_false] at hc
        rcases hc with rfl | rfl | rfl | rfl
        · exact hchar _ (Sextets.first_lt c0)
        · exact hchar _ (Sextets.second_lt c0 c1)
        · exact hchar _ (Sextets.third_lt c1 c2)
        · exact hchar _ (Sextets.fourth_lt c2)
      · exact ih c hc
  | case2 c0 =>
      intro c hc
      simp only [List.mem_cons, List.not_mem_nil, or_false] at hc
      rcases hc with rfl | rfl | rfl | rfl
      · exact hchar _ (Sextets.first_lt c0)
      · exact hchar _ (Sextets.second_lt c0 0)
      · exact hpad
      · exact hpad
  | case3 c0 c1 =>
      intro c hc
      simp only [List.mem_cons, List.not_mem_nil, or_false] at hc
      rcases hc with rfl | rfl | rfl | rfl
      · exact hchar _ (Sextets.first_lt c0)
      · exact hchar _ (Sextets.second_lt c0 c1)
      · exact hchar _ (Sextets.third_lt c1 0)
      · exact hpad
  | case4 => exact fun c hc => absurd hc List.not_mem_nil

theorem codeText_space : ∀ c ∈ codeText s, ncIsspace c = false :=
  codeText_all (p := (ncIsspace · = false)) (fun _ hx => (b64char_plain hx).2.1) rfl s

theorem filter_codeText (s : List Byte) : (codeText s).filter (!ncIsspace ·) = codeText s :=
  List.filter_eq_self.mpr fun c hc => Bool.not_eq_true' (ncIsspace c) ▸ codeText_space c hc

theorem codeText_not_nul (s : List Byte) : 0 ∉ codeText s := fun h =>
  codeText_all (p := (· ≠ 0)) (fun _ hx => (b64char_plain hx).1) (by decide) s 0 h rfl

/-! ### What is decoded -/

/-- The decoder drops white space. -/
theorem decodeLoop_spaces (t : Decoder) (text : List Byte) :
    decodeLoop t text = decodeLoop t (text.filter (!ncIsspace ·)) := by
  induction text generalizing t with
  | nil => rfl
  | cons c text ih =>
      by_cases hspace : ncIsspace c = true
      · have hnul : c ≠ 0 := by
          rintro rfl
          cases hspace
        rw [List.filter_cons_of_neg (by rw [hspace]; decide), decodeLoop, if_neg hnul, if_pos hspace]
        exact ih t
      · rw [List.filter_cons_of_pos (by rw [Bool.not_eq_true] at hspace; rw [hspace]; rfl), decodeLoop, decodeLoop]
        simp only [ih]

theorem decodeLoop_char (hx : x < 64) (t : Decoder) (text : List Byte) :
    decodeLoop t (b64char x :: text) = (putSextet t x).bind fun t => decodeLoop t text := by
  obtain ⟨hnul, hspace, hpad, hsextet⟩ := b64char_plain hx
  rw [decodeLoop, if_neg hnul, if_neg (by rw [hspace]; decide), if_neg hpad, hsextet]
  rfl

theorem decodeEnd_run (m : Byte) (out gap : List Byte) (state : Nat) :
    decodeEnd ⟨out ++ m :: gap, out.length, state⟩ = some out := by
  have hwrite := Memory.write_over [0] [m] rfl out gap
  rw [List.singleton_append, List.singleton_append] at hwrite
  simp only [decodeEnd, hwrite, Option.bind_eq_bind, Option.bind_some, List.take_left]
  rfl

/-- The first sextet of a byte. -/
theorem putSextet_first (x m : Byte) (out gap : List Byte) :
    putSextet ⟨out ++ m :: gap, out.length, 0⟩ x = some ⟨out ++ (x <<< 2) :: gap, out.length, 1⟩ := by
  have hwrite := Memory.write_over [x <<< 2] [m] rfl out gap
  rw [List.singleton_append, List.singleton_append] at hwrite
  simp only [putSextet, hwrite]
  rfl

/-- The other sextets end a byte, and all but the last start the next one. -/
theorem putSextet_second (x c m : Byte) (out gap : List Byte) :
    putSextet ⟨out ++ c :: m :: gap, out.length, 1⟩ x =
      some ⟨(out ++ [c ||| (x >>> 4)]) ++ ((x &&& (0x0f : Byte)) <<< 4) :: gap,
        (out ++ [c ||| (x >>> 4)]).length, 2⟩ := by
  have hwrite := Memory.write_over [c ||| (x >>> 4), (x &&& (0x0f : Byte)) <<< 4] [c, m] rfl out gap
  simp only [List.cons_append, List.nil_append] at hwrite
  simp [putSextet, hwrite]

theorem putSextet_third (x c m : Byte) (out gap : List Byte) :
    putSextet ⟨out ++ c :: m :: gap, out.length, 2⟩ x =
      some ⟨(out ++ [c ||| (x >>> 2)]) ++ ((x &&& (0x03 : Byte)) <<< 6) :: gap,
        (out ++ [c ||| (x >>> 2)]).length, 3⟩ := by
  have hwrite := Memory.write_over [c ||| (x >>> 2), (x &&& (0x03 : Byte)) <<< 6] [c, m] rfl out gap
  simp only [List.cons_append, List.nil_append] at hwrite
  simp [putSextet, hwrite]

theorem putSextet_fourth (x c : Byte) (out gap : List Byte) :
    putSextet ⟨out ++ c :: gap, out.length, 3⟩ x = some ⟨(out ++ [c ||| x]) ++ gap, (out ++ [c ||| x]).length, 0⟩ := by
  have hwrite := Memory.write_over [c ||| x] [c] rfl out gap
  simp only [List.cons_append, List.nil_append] at hwrite
  simp [putSextet, hwrite]

/-- The first two characters of a byte and what follows it. -/
theorem decodeLoop_pair (a b m0 m1 : Byte) (out gap text : List Byte) :
    decodeLoop ⟨out ++ m0 :: m1 :: gap, out.length, 0⟩
        (b64char (Sextets.first a) :: b64char (Sextets.second a b) :: text) =
      decodeLoop ⟨(out ++ [a]) ++ ((Sextets.second a b &&& (0x0f : Byte)) <<< 4) :: gap,
        (out ++ [a]).length, 2⟩ text := by
  rw [decodeLoop_char (Sextets.first_lt a), putSextet_first, Option.bind_some,
    decodeLoop_char (Sextets.second_lt a b), putSextet_second, Option.bind_some, Sextets.join_first]

theorem decodeLoop_triple (a b c m0 m1 m2 : Byte) (out gap text : List Byte) :
    decodeLoop ⟨out ++ m0 :: m1 :: m2 :: gap, out.length, 0⟩
        (b64char (Sextets.first a) :: b64char (Sextets.second a b) :: b64char (Sextets.third b c) :: text) =
      decodeLoop ⟨(out ++ [a] ++ [b]) ++ ((Sextets.third b c &&& (0x03 : Byte)) <<< 6) :: gap,
        (out ++ [a] ++ [b]).length, 3⟩ text := by
  rw [decodeLoop_pair, decodeLoop_char (Sextets.third_lt b c), putSextet_third, Option.bind_some, Sextets.join_second]

theorem decodeLoop_quad (a b c m0 m1 m2 : Byte) (out gap text : List Byte) :
    decodeLoop ⟨out ++ m0 :: m1 :: m2 :: gap, out.length, 0⟩ (quad a b c ++ text) =
      decodeLoop ⟨(out ++ [a] ++ [b] ++ [c]) ++ gap, (out ++ [a] ++ [b] ++ [c]).length, 0⟩ text := by
  rw [quad, List.cons_append, List.cons_append, List.cons_append, List.cons_append, List.nil_append,
    decodeLoop_triple, decodeLoop_char (Sextets.fourth_lt c), putSextet_fourth, Option.bind_some, Sextets.join_third]

/-- A pad ends the text. -/
theorem decodeLoop_pad (m : Byte) (out gap text : List Byte) (state : Nat) :
    decodeLoop ⟨out ++ m :: gap, out.length, state⟩ (ch '=' :: text) = some out := by
  rw [decodeLoop, if_neg (by decide), if_neg (by decide), if_pos rfl, decodeEnd_run]

/-- A block with room for the string and a NUL is enough. -/
theorem decodeLoop_codeText (hroom : s.length + 1 ≤ gap.length) (out : List Byte) :
    decodeLoop ⟨out ++ gap, out.length, 0⟩ (codeText s) = some (out ++ s) := by
  fun_induction codeText s generalizing out gap with
  | case1 a b c s ih =>
      obtain _ | ⟨m0, _ | ⟨m1, _ | ⟨m2, gap⟩⟩⟩ := gap
      · simp at hroom
      · simp at hroom
      · simp at hroom
      · rw [decodeLoop_quad, ih (by simpa using hroom)]
        simp
  | case2 a =>
      obtain _ | ⟨m0, _ | ⟨m1, gap⟩⟩ := gap
      · simp at hroom
      · simp at hroom
      · rw [decodeLoop_pair, decodeLoop_pad]
  | case3 a b =>
      obtain _ | ⟨m0, _ | ⟨m1, _ | ⟨m2, gap⟩⟩⟩ := gap
      · simp at hroom
      · simp at hroom
      · simp at hroom
      · rw [decodeLoop_triple, decodeLoop_pad, List.append_assoc]
        rfl
  | case4 =>
      obtain _ | ⟨m0, gap⟩ := gap
      · simp at hroom
      · rw [decodeLoop, decodeEnd_run, List.append_nil]

theorem codeText_length (s : List Byte) : (codeText s).length = 4 * ((s.length + 2) / 3) := by
  fun_induction codeText s with
  | case1 a b c s ih =>
      rw [List.length_append, ih]
      simp only [quad, List.length_cons, List.length_nil]
      omega
  | case2 a => simp
  | case3 a b => simp
  | case4 => rfl

/-- A text that is the one of a string up to white space is decoded to it. -/
theorem base64Decode_spaces (h : text.filter (!ncIsspace ·) = codeText s) : base64Decode text = some s := by
  have hlen := codeText_length s
  have hle := List.length_filter_le (fun c => !ncIsspace c) text
  rw [h, hlen] at hle
  unfold base64Decode
  split
  · rename_i hnil
    rw [hnil, List.length_nil] at hle
    rw [List.eq_nil_of_length_eq_zero (by omega : s.length = 0)]
  · have hroom : s.length + 1 ≤ (List.replicate (text.length + 1) (0 : Byte)).length := by
      rw [List.length_replicate]
      omega
    rw [decodeLoop_spaces, h]
    exact decodeLoop_codeText hroom []

/-! ### What is encoded -/

/-- The characters of a string behind `linelen` characters of a line. -/
def wrapped (maxline : Int32) (linelen : Nat) : List Byte → List Byte
  | c0 :: c1 :: c2 :: cp =>
      if 0 < maxline.toInt ∧ maxline.toInt ≤ linelen + 4 then
        quad c0 c1 c2 ++ ([ch '\r', ch '\n'] ++ wrapped maxline 0 cp)
      else quad c0 c1 c2 ++ wrapped maxline (linelen + 4) cp
  | [c0] => codeText [c0]
  | [c0, c1] => codeText [c0, c1]
  | [] => []

/-- The string of a text that is written with a NUL behind it. -/
def stored (dest : List Byte) (dst : Nat) (text : List Byte) : Option (List Byte) :=
  (Memory.write dest dst (text ++ [0])).bind fun dest => some (dest.take (dst + text.length))

/-- A text is stored when its parts are. -/
theorem stored_append {n : Nat} {e : List Byte} (dest : List Byte) (dst : Nat) (hn : dst + e.length = n)
    (text : List Byte) :
    ((Memory.write dest dst e).bind fun dest => stored dest n text) = stored dest dst (e ++ text) := by
  unfold stored
  rw [List.append_assoc, Memory.write_append, Option.bind_assoc, hn, List.length_append, ← Nat.add_assoc, hn]

/-- The loop stores the text of what is left. -/
theorem encodeLoop_eq (maxline : Int32) (dest : List Byte) (dst linelen : Nat) (s : List Byte) :
    encodeLoop maxline dest dst linelen s = stored dest dst (wrapped maxline linelen s) := by
  fun_induction wrapped maxline linelen s generalizing dest dst with
  | case1 linelen c0 c1 c2 cp hend ih =>
      rw [encodeLoop, ← stored_append dest dst (e := quad c0 c1 c2) (n := dst + 4) rfl]
      simp only [if_pos hend, ih, ← stored_append _ (dst + 4) (e := [ch '\r', ch '\n']) (n := dst + 6) rfl]
      rfl
  | case2 linelen c0 c1 c2 cp hend ih =>
      rw [encodeLoop, ← stored_append dest dst (e := quad c0 c1 c2) rfl]
      simp only [if_neg hend, ih]
      rfl
  | case3 linelen c0 =>
      rw [← List.append_nil (codeText [c0]), ← stored_append dest dst rfl, codeText, Sextets.second_zero]
      rfl
  | case4 linelen c0 c1 =>
      rw [← List.append_nil (codeText [c0, c1]), ← stored_append dest dst rfl, codeText, Sextets.third_zero]
      rfl
  | case5 linelen => rfl

/-- Without the line ends it is the text of the string. -/
theorem wrapped_spaces (maxline : Int32) (linelen : Nat) (s : List Byte) :
    (wrapped maxline linelen s).filter (!ncIsspace ·) = codeText s := by
  have hquad : ∀ a b c, (quad a b c).filter (!ncIsspace ·) = quad a b c := fun a b c => filter_codeText [a, b, c]
  have hcrlf : [ch '\r', ch '\n'].filter (!ncIsspace ·) = [] := rfl
  fun_induction wrapped maxline linelen s with
  | case1 linelen c0 c1 c2 cp hend ih => rw [List.filter_append, List.filter_append, hquad, hcrlf, ih, codeText]; rfl
  | case2 linelen c0 c1 c2 cp hend ih => rw [List.filter_append, hquad, ih, codeText]
  | case3 linelen c0 => exact filter_codeText [c0]
  | case4 linelen c0 c1 => exact filter_codeText [c0, c1]
  | case5 linelen => rfl

/-- One line end for each line. -/
theorem wrapped_length (maxline : Int32) (linelen : Nat) (s : List Byte) : ∃ n,
    (wrapped maxline linelen s).length = 4 * ((s.length + 2) / 3) + 2 * n ∧
      (0 < maxline.toInt → maxline.toInt * n ≤ linelen + 4 * (s.length / 3)) ∧ (maxline.toInt ≤ 0 → n = 0) := by
  fun_induction wrapped maxline linelen s with
  | case1 linelen c0 c1 c2 cp hend ih =>
      obtain ⟨n, hlen, hpos, hneg⟩ := ih
      refine ⟨n + 1, ?_, ?_, ?_⟩
      · simp only [quad, List.length_append, List.length_cons, List.length_nil, hlen]
        omega
      · intro h
        have hn := hpos h
        have hmul : maxline.toInt * ((n + 1 : Nat) : Int) = maxline.toInt * n + maxline.toInt := by
          rw [Int.natCast_add, Int.mul_add]
          simp
        simp only [List.length_cons]
        omega
      · omega
  | case2 linelen c0 c1 c2 cp hend ih =>
      obtain ⟨n, hlen, hpos, hneg⟩ := ih
      refine ⟨n, ?_, ?_, hneg⟩
      · simp only [quad, List.length_append, List.length_cons, List.length_nil, hlen]
        omega
      · intro h
        have hn := hpos h
        simp only [List.length_cons]
        omega
  | case3 linelen c0 => exact ⟨0, by simp [codeText], by simp, fun _ => rfl⟩
  | case4 linelen c0 c1 => exact ⟨0, by simp [codeText], by simp, fun _ => rfl⟩
  | case5 linelen => exact ⟨0, rfl, by simp, fun _ => rfl⟩

/-- The characters of a string are cut into lines, behind the ones that start the first line. -/
theorem wrapped_lines {maxline : Int32} (hpos : 0 < maxline.toInt) {linelen : Nat} (s cur : List Byte)
    (hcur : cur.length = linelen) (hquads : linelen % 4 = 0) (hlt : linelen < maxline.toInt)
    (hplain : ∀ c ∈ cur, ncIsspace c = false) :
    CutInto ((maxline.toInt + 3) / 4 * 4) (cur ++ wrapped maxline linelen s) := by
  have hmore : ∀ {cur text : List Byte} {s}, text = codeText s → (∀ c ∈ cur, ncIsspace c = false) →
      ∀ c ∈ cur ++ text, ncIsspace c = false := by
    rintro cur text s rfl hplain c hc
    rcases List.mem_append.mp hc with hc | hc
    · exact hplain c hc
    · exact codeText_space c hc
  fun_induction wrapped maxline linelen s generalizing cur with
  | case1 linelen c0 c1 c2 cp hend ih =>
      obtain ⟨lines, last, htext, hlines, hlast⟩ := ih [] rfl rfl hpos (by simp)
      refine ⟨(cur ++ quad c0 c1 c2) :: lines, last, ?_, ?_, hlast⟩
      · rw [List.nil_append] at htext
        rw [htext, asLines, asLines, List.flatMap_cons]
        simp only [List.append_assoc]
        rfl
      · intro line hline
        rcases List.mem_cons.mp hline with rfl | hline
        · refine ⟨?_, hmore (s := [c0, c1, c2]) rfl hplain⟩
          rw [List.length_append, hcur]
          simp only [quad, List.length_cons, List.length_nil]
          omega
        · exact hlines line hline
  | case2 linelen c0 c1 c2 cp hend ih =>
      rw [← List.append_assoc]
      refine ih _ ?_ (by omega) (by omega) (hmore (s := [c0, c1, c2]) rfl hplain)
      rw [List.length_append, hcur]
      rfl
  | case3 linelen c0 => exact ⟨[], _, rfl, by simp, hmore rfl hplain⟩
  | case4 linelen c0 c1 => exact ⟨[], _, rfl, by simp, hmore rfl hplain⟩
  | case5 linelen => exact ⟨[], cur, List.append_nil cur, by simp, hplain⟩

/-! ### The size of the block -/

theorem blockSize_eq (n : Nat) (maxline : Int32) :
    blockSize n maxline = Memory.int (n / 3 * 4 + (lineEnds n maxline * 2 + 5)) := by
  unfold blockSize Memory.int
  by_cases h : n / 3 * 4 + (lineEnds n maxline * 2 + 5) < 2 ^ 31
  · have hends : lineEnds n maxline < 2 ^ 31 := by omega
    have hslack : lineEnds n maxline * 2 + 5 < 2 ^ 31 := by omega
    simp only [if_pos h, if_pos hends, if_pos hslack, Option.bind_eq_bind, Option.bind_some]
  · rw [if_neg h]
    split
    · simp only [Option.bind_eq_bind, Option.bind_some]
      split
      · simp only [Option.bind_some, if_neg h]
      · rfl
    · rfl

/-- A number that is not negative is not changed by the conversion, and another one is more than any size. -/
theorem unsigned_eq (maxline : Int32) : unsigned maxline =
    if maxline.toInt < 0 then (2 ^ 64 + maxline.toInt).toNat else maxline.toInt.toNat := by
  have hlo := Int32.le_toInt maxline
  have hhi := Int32.toInt_lt maxline
  unfold unsigned
  split <;> omega

theorem size_iff (n : Nat) (maxline : Int32) :
    n / 3 * 4 + (lineEnds n maxline * 2 + 5) < 2 ^ 31 ↔ SizeFits n maxline.toInt := by
  have hzero : maxline = 0 ↔ maxline.toInt = 0 := by
    rw [← Int32.toInt_inj]
    rfl
  unfold SizeFits lineEnds
  rw [unsigned_eq]
  by_cases hz : maxline = 0
  · rw [if_neg (not_not.mpr hz), if_pos (hzero.mp hz)]
    omega
  · rw [if_pos hz, if_neg (mt hzero.mpr hz)]
    by_cases hneg : maxline.toInt < 0
    · rw [if_pos hneg, if_pos hneg]
      have hlo := Int32.le_toInt maxline
      constructor
      · intro h
        omega
      · intro h
        have hlt : (n + 3) / 3 * 4 < (2 ^ 64 + maxline.toInt).toNat := by omega
        rw [Nat.div_eq_of_lt hlt]
        omega
    · rw [if_neg hneg, if_neg hneg, Nat.mul_comm ((n + 3) / 3) 4]
      omega

/-- The text and its NUL fit in the block. -/
theorem wrapped_fits (maxline : Int32) (s : List Byte) :
    (wrapped maxline 0 s ++ [0]).length ≤ s.length / 3 * 4 + (lineEnds s.length maxline * 2 + 5) := by
  obtain ⟨n, hlen, hpos, hneg⟩ := wrapped_length maxline 0 s
  rw [List.length_append, List.length_singleton, hlen]
  have hends : n ≤ lineEnds s.length maxline := by
    by_cases hm : maxline.toInt ≤ 0
    · rw [hneg hm]
      exact Nat.zero_le _
    · have hunsigned : unsigned maxline = maxline.toInt.toNat := by
        rw [unsigned_eq, if_neg (by omega)]
      have hne : maxline ≠ 0 := by
        rintro rfl
        exact hm (by decide)
      rw [lineEnds, if_pos hne, hunsigned, Nat.le_div_iff_mul_le (by omega)]
      have hn := hpos (by omega)
      have hcast : ((n * maxline.toInt.toNat : Nat) : Int) = maxline.toInt * n := by
        rw [Int.natCast_mul, Int.toNat_of_nonneg (by omega), Int.mul_comm]
      omega
  omega

theorem stored_zero (n : Nat) (text : List Byte) : stored (List.replicate n 0) 0 text =
    if text.length + 1 ≤ n then some text else none := by
  rw [stored, Memory.write_zero, List.length_append, List.length_singleton]
  split
  · rw [Option.bind_some, Nat.zero_add, List.append_assoc, List.take_left]
  · rfl

/-- The encoder is right where the size of its block does not overflow. -/
theorem base64_iff (s : List Byte) (maxline : Int32) : EncodesBase64 s maxline ↔ SizeFits s.length maxline.toInt := by
  rw [← size_iff]
  by_cases hs : s = []
  · subst hs
    have hends : lineEnds 0 maxline ≤ 5 := by
      unfold lineEnds
      split
      · exact Nat.le_trans (Nat.div_le_self _ _) (by decide)
      · exact Nat.le_refl 5
    have hempty : EncodesBase64 [] maxline :=
      ⟨[], rfl, rfl, fun _ => ⟨[], [], rfl, by simp, by simp⟩⟩
    refine iff_of_true hempty ?_
    rw [List.length_nil]
    omega
  · constructor
    · rintro ⟨text, htext, -⟩
      rw [base64Encode, if_neg hs, blockSize_eq] at htext
      obtain ⟨n, hn, -⟩ := Option.bind_eq_some_iff.mp htext
      exact (Memory.int_eq_some.mp hn).1
    · intro hfits
      refine ⟨wrapped maxline 0 s, ?_, base64Decode_spaces (wrapped_spaces maxline 0 s), fun hpos => ?_⟩
      · have hroom := wrapped_fits maxline s
        rw [List.length_append, List.length_singleton] at hroom
        rw [base64Encode, if_neg hs, blockSize_eq, Memory.int_eq_some.mpr ⟨hfits, rfl⟩, Option.bind_eq_bind, Option.bind_some,
          encodeLoop_eq, stored_zero, if_pos hroom]
      · exact wrapped_lines hpos s [] rfl rfl hpos (by simp)

/-- A gigabyte in lines of one character does not fit. -/
theorem not_encodesBase64_gigabyte : ¬ EncodesBase64 (List.replicate (2 ^ 30) 0) 1 := by
  rintro ⟨text, htext, -⟩
  have hne : List.replicate (2 ^ 30) (0 : Byte) ≠ [] := mt (List.replicate_eq_nil_iff 0).mp (by decide)
  have hsize : blockSize (2 ^ 30) 1 = none := by decide +kernel
  rw [base64Encode, if_neg hne, List.length_replicate, hsize] at htext
  cases htext

/-! ### The lines of an attachment -/

/-- The string in `dest` behind a NUL that was put there. -/
theorem cstr_quads {line : List Byte} (hline : 0 ∉ line) (gap : List Byte) : cstr (line ++ 0 :: gap) = line :=
  (cstr_append_zero line gap).trans (cstr_eq hline)

theorem sendEnd_run {line : List Byte} (hline : 0 ∉ line) (m : Byte) (gap : List Byte) :
    sendEnd (line ++ m :: gap) line.length = some [line] := by
  have hwrite := Memory.write_over [0] [m] rfl line gap
  rw [List.singleton_append, List.singleton_append] at hwrite
  rw [sendEnd, hwrite, Option.bind_eq_bind, Option.bind_some, cstr_quads hline]
  rfl

theorem quad_not_nul {line : List Byte} (hline : 0 ∉ line) (a b c : Byte) : 0 ∉ line ++ quad a b c :=
  fun h => (List.mem_append.mp h).elim hline (codeText_not_nul [a, b, c])

theorem base64From_quad (line : List Byte) (c0 c1 c2 : Byte) (cp : List Byte) :
    base64From line (c0 :: c1 :: c2 :: cp) =
      if 76 ≤ line.length + 4 then (line ++ quad c0 c1 c2) :: base64From [] cp
      else base64From (line ++ quad c0 c1 c2) cp := by
  have hlen : line.length + 4 = (line ++ quad c0 c1 c2).length := by
    rw [List.length_append]
    rfl
  rw [hlen]
  rfl

/-- The characters behind the last whole quad. -/
theorem base64From_rest {line : List Byte} (hs : s.length < 3) : base64From line s = [line ++ codeText s] := by
  obtain _ | ⟨c0, _ | ⟨c1, _ | ⟨c2, cp⟩⟩⟩ := s
  · rw [codeText, List.append_nil]
    rfl
  · rw [codeText, Sextets.second_zero]
    rfl
  · rw [codeText, Sextets.third_zero]
    rfl
  · simp only [List.length_cons] at hs
    omega

theorem sendLoop_quad (dest : List Byte) (dst linelen : Nat) (c0 c1 c2 : Byte) (cp : List Byte) :
    sendLoop dest dst linelen (c0 :: c1 :: c2 :: cp) = (Memory.write dest dst (quad c0 c1 c2)).bind fun dest =>
      if 76 ≤ linelen + 4 then (Memory.write dest (dst + 4) [0]).bind fun dest =>
        (sendLoop dest 0 0 cp).bind fun lines => some (cstr dest :: lines)
      else sendLoop dest (dst + 4) (linelen + 4) cp := rfl

theorem sendLoop_rest (dest : List Byte) (dst linelen : Nat) (hne : s ≠ []) (hs : s.length < 3) :
    sendLoop dest dst linelen s =
      (Memory.write dest dst (codeText s)).bind fun dest => sendEnd dest (dst + (codeText s).length) := by
  obtain _ | ⟨c0, _ | ⟨c1, _ | ⟨c2, cp⟩⟩⟩ := s
  · exact absurd rfl hne
  · rw [codeText, Sextets.second_zero]
    rfl
  · rw [codeText, Sextets.third_zero]
    rfl
  · simp only [List.length_cons] at hs
    omega

/-- A text and a NUL are written behind a line where there is room. -/
theorem write_line {e : List Byte} (line gap : List Byte) (hroom : e.length < gap.length) : ∃ m gap',
    gap.length = e.length + 1 + gap'.length ∧
      Memory.write (line ++ gap) line.length e = some ((line ++ e) ++ m :: gap') ∧
      Memory.write ((line ++ e) ++ m :: gap') (line ++ e).length [0] = some ((line ++ e) ++ 0 :: gap') := by
  obtain ⟨m, gap', hgap⟩ : ∃ m gap', gap.drop e.length = m :: gap' := by
    cases hdrop : gap.drop e.length with
    | nil => exact absurd (List.drop_eq_nil_iff.mp hdrop) (Nat.not_le.mpr hroom)
    | cons m gap' => exact ⟨m, gap', rfl⟩
  have htake : (gap.take e.length).length = e.length := List.length_take_of_le (Nat.le_of_lt hroom)
  have hsplit : gap.take e.length ++ m :: gap' = gap := by rw [← hgap, List.take_append_drop]
  have hfirst := Memory.write_over e (gap.take e.length) htake.symm line (m :: gap')
  rw [hsplit, ← List.append_assoc] at hfirst
  have hsecond := Memory.write_over [0] [m] rfl (line ++ e) gap'
  rw [List.singleton_append, List.singleton_append] at hsecond
  refine ⟨m, gap', ?_, hfirst, hsecond⟩
  rw [← hsplit, List.length_append, htake, List.length_cons]
  omega

/-- The last line. -/
theorem sendLoop_last {line : List Byte} (hline : 0 ∉ line) (hs : s.length < 3) (hgap : 4 < gap.length) :
    sendLoop (line ++ gap) line.length line.length s = some (base64From line s) := by
  rw [base64From_rest hs]
  by_cases hne : s = []
  · obtain ⟨m, gap', -, hwrite, -⟩ := write_line (e := []) line gap (by simp; omega)
    have hgap' : gap = m :: gap' := by
      rw [Memory.write_eq_some, List.append_nil] at hwrite
      simpa using hwrite.2.symm
    rw [hne, codeText, List.append_nil, hgap']
    exact sendEnd_run hline m gap'
  · have hroom : (codeText s).length < gap.length := by
      rw [codeText_length]
      omega
    obtain ⟨m, gap', -, hwrite, -⟩ := write_line line gap hroom
    have hnul : 0 ∉ line ++ codeText s := fun h => (List.mem_append.mp h).elim hline (codeText_not_nul s)
    rw [sendLoop_rest _ _ _ hne hs, hwrite, Option.bind_some, ← List.length_append, sendEnd_run hnul]

/-- The loop stays in `dest` and prints the lines of the text. -/
theorem sendLoop_run (line gap s : List Byte) (hline : 0 ∉ line) (hquads : line.length % 4 = 0)
    (hlen : line.length ≤ 72) (hgap : line.length + gap.length = 80) :
    sendLoop (line ++ gap) line.length line.length s = some (base64From line s) := by
  induction s using codeText.induct generalizing line gap with
  | case1 c0 c1 c2 cp ih =>
      have hquad : (quad c0 c1 c2).length = 4 := rfl
      obtain ⟨m, gap', hroom, hwrite, hend⟩ := write_line (e := quad c0 c1 c2) line gap (by omega)
      have hnul := quad_not_nul hline c0 c1 c2
      have hfour : (line ++ quad c0 c1 c2).length = line.length + 4 := List.length_append
      rw [sendLoop_quad, base64From_quad, hwrite, Option.bind_some]
      by_cases hfull : 76 ≤ line.length + 4
      · have hnext := ih [] ((line ++ quad c0 c1 c2) ++ 0 :: gap') List.not_mem_nil rfl (by decide) (by
          rw [List.length_append, List.length_cons, hfour, List.length_nil]
          omega)
        rw [List.nil_append, List.length_nil] at hnext
        rw [if_pos hfull, if_pos hfull, ← hfour, hend, Option.bind_some, hnext, Option.bind_some, cstr_quads hnul]
      · have hnext := ih (line ++ quad c0 c1 c2) (m :: gap') hnul (by omega) (by omega) (by
          rw [List.length_cons]
          omega)
        rw [if_neg hfull, if_neg hfull, ← hfour, hnext]
  | case2 c0 => exact sendLoop_last hline (by simp) (by omega)
  | case3 c0 c1 => exact sendLoop_last hline (by simp) (by omega)
  | case4 => exact sendLoop_last hline (by decide) (by omega)

/-- The lines of an attachment are short, and joined they are its characters. -/
theorem base64From_lines (line s : List Byte) (hquads : line.length % 4 = 0) (hlen : line.length ≤ 72) :
    (base64From line s).flatten = line ++ codeText s ∧ ∀ l ∈ base64From line s, l.length ≤ 76 := by
  have hlast : ∀ {line s : List Byte}, s.length < 3 → line.length ≤ 72 →
      (base64From line s).flatten = line ++ codeText s ∧ ∀ l ∈ base64From line s, l.length ≤ 76 := by
    intro line s hs hlen
    rw [base64From_rest hs, List.flatten_singleton]
    refine ⟨rfl, fun l hl => ?_⟩
    rw [List.mem_singleton.mp hl, List.length_append, codeText_length]
    omega
  induction s using codeText.induct generalizing line with
  | case1 c0 c1 c2 cp ih =>
      have hfour : (line ++ quad c0 c1 c2).length = line.length + 4 := List.length_append
      rw [base64From_quad, codeText, ← List.append_assoc]
      by_cases hfull : 76 ≤ line.length + 4
      · obtain ⟨hflat, hshort⟩ := ih [] rfl (by decide)
        rw [if_pos hfull, List.flatten_cons, hflat]
        refine ⟨rfl, fun l hl => ?_⟩
        rcases List.mem_cons.mp hl with rfl | hl
        · omega
        · exact hshort l hl
      · rw [if_neg hfull]
        exact ih _ (by omega) (by omega)
  | case2 c0 => exact hlast (by simp) hlen
  | case3 c0 c1 => exact hlast (by simp) hlen
  | case4 => exact hlast (by decide) hlen

/-- Line ends are white space. -/
theorem filter_asLines (lines : List (List Byte)) :
    (asLines lines).filter (!ncIsspace ·) = lines.flatten.filter (!ncIsspace ·) := by
  induction lines with
  | nil => rfl
  | cons line lines ih =>
      have hcrlf : (bytes "\r\n").filter (!ncIsspace ·) = [] := by decide
      rw [asLines] at ih ⊢
      rw [List.flatMap_cons, List.flatten_cons, List.filter_append, List.filter_append, List.filter_append, hcrlf,
        List.append_nil, ih]

/-- The encoder of attachments stays in `dest`, prints lines of at most 76 characters, and these are decoded to the
attachment, with their line ends and without. -/
theorem encodeSend_run (file : List Byte) : ∃ lines, encodeSend file = some lines ∧ (∀ l ∈ lines, l.length ≤ 76) ∧
    base64Decode lines.flatten = some file ∧ base64Decode (asLines lines) = some file := by
  by_cases hfile : file = []
  · subst hfile
    exact ⟨[], rfl, by simp, rfl, rfl⟩
  · obtain ⟨hflat, hshort⟩ := base64From_lines [] file rfl (by decide)
    have hrun := sendLoop_run [] (List.replicate 80 0) file List.not_mem_nil rfl (by decide) rfl
    have hspaces : (base64From [] file).flatten.filter (!ncIsspace ·) = codeText file := by
      rw [hflat, List.nil_append, filter_codeText]
    refine ⟨base64From [] file, ?_, hshort, base64Decode_spaces hspaces, base64Decode_spaces ?_⟩
    · rw [encodeSend, if_neg hfile]
      exact hrun
    · rw [filter_asLines, hspaces]

end

end NullG.Libs.Base64
