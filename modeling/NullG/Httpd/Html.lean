/-
HTML text (`str2html` and `printline2` of `httpd_format.c`).

`str2html` writes into a buffer of 4096 bytes and leaves the escapes of as many characters as fit, none of them cut.
`printline2` prints blocks of a buffer of 1024 bytes; the character in front of a block is remembered, and so the blocks
are the text of the whole string, wherever they end (`escapes_html`).
-/

import NullG.Httpd.Url

namespace NullG.Httpd

open NullG.Nsp NullG.Lib NullG.Mail

/-- The code of a symbol in a table. -/
def tagCode (tags : List (Byte × List Byte)) (c : Byte) : Option (List Byte) := (tags.find? (·.1 == c)).map (·.2)

/-- `htmltags`. -/
def htmltags : List (Byte × List Byte) :=
  [(ch '"', bytes "&quot;"), (ch '&', bytes "&amp;"), (ch '<', bytes "&lt;"), (ch '>', bytes "&gt;")]

/-! ### `str2html` -/

/-- The loop of `str2html`: the buffer, and where `outptr` is in it, or `none` where the loop leaves the buffer. -/
def str2htmlLoop (buffer : List Byte) (outptr destleft : Nat) : List Byte → Option (List Byte × Nat)
  | [] => some (buffer, outptr)
  | c :: inptr =>
      if destleft > 0 then
        match tagCode htmltags c with
        | some code =>
            if destleft < code.length then some (buffer, outptr)
            else do
              let buffer ← Memory.write buffer outptr (code ++ [0])
              str2htmlLoop buffer (outptr + code.length) (destleft - code.length) inptr
        | none =>
            if destleft < 1 then some (buffer, outptr)
            else do str2htmlLoop (← Memory.write buffer outptr [c]) (outptr + 1) (destleft - 1) inptr
      else some (buffer, outptr)

/-- `str2html`: the buffer that it returns. -/
def str2html (instring : List Byte) : Option (List Byte) := do
  let (buffer, outptr) ← str2htmlLoop (List.replicate smallbuf 0) 0 (smallbuf - 1) instring
  Memory.write (← Memory.write buffer outptr [0]) (smallbuf - 1) [0]

/-- A character as it stands in HTML. -/
def htmlChar (c : Byte) : List Byte := (tagCode htmltags c).getD [c]

/-- A text as it stands in HTML. -/
def htmlEscape (text : List Byte) : List Byte := text.flatMap htmlChar

/-! ### `printline2` -/

/-- `isalnum`. -/
def isalnum (c : Byte) : Bool := ncIsalpha c || ncIsdigit c

/-- What `strcat` writes for a character between two others, or `none` where the character is written. -/
def lineCode (dowrap : Bool) (lastchar c next : Byte) : Option (List Byte) :=
  if c = ch '\n' then some (if dowrap then bytes "\n<BR />" else bytes "\n")
  else if c = ch '<' then some (bytes "&lt;")
  else if c = ch '>' then some (bytes "&gt;")
  else if c = ch '&' then some (bytes "&amp;")
  else if c = ch '"' then some (bytes "&quot;")
  else if c = ch ' ' then
    if dowrap then
      if !isalnum next || !isalnum lastchar then some (bytes "&nbsp;") else none
    else some (bytes " ")
  else none

/-- The inner loop of `printline2`: the buffer, `lastchar`, and what is left of the text. -/
def fillLoop (dowrap : Bool) (buffer : List Byte) (ptemp2 : Nat) (destleft : Int) (lastchar : Byte) :
    List Byte → Option (List Byte × Byte × List Byte)
  | [] => some (buffer, lastchar, [])
  | c :: ptemp1 =>
      if destleft > 64 then
        match lineCode dowrap lastchar c (ptemp1.headD 0) with
        | some code => do
            let buffer ← Memory.strcat 0 buffer ptemp2 code
            fillLoop dowrap buffer (ptemp2 + code.length) (destleft - code.length) c ptemp1
        | none => do
            let buffer ← Memory.write buffer ptemp2 [c]
            fillLoop dowrap buffer (ptemp2 + 1) (destleft - 1) c ptemp1
      else some (buffer, lastchar, c :: ptemp1)

/-- `sizeof(buffer)` in `printline2`. -/
def linebuf : Nat := 1024

/-- The outer loop of `printline2`: what the calls of `prints` get. There is no result if the rounds are not enough. -/
def printLoop (dowrap : Bool) : Nat → Byte → List Byte → Option (List (List Byte))
  | _, _, [] => some []
  | 0, _, _ :: _ => none
  | rounds + 1, lastchar, c :: ptemp1 => do
      let (buffer, lastchar, ptemp1) ←
        fillLoop dowrap (List.replicate linebuf 0) 0 (linebuf - 6) lastchar (c :: ptemp1)
      let block ← Memory.str 0 buffer 0
      return block :: (← printLoop dowrap rounds lastchar ptemp1)

/-- `printline2`, with a round for each character. -/
def printline2 (dowrap : Bool) (msgtext : List Byte) : Option (List (List Byte)) :=
  printLoop dowrap msgtext.length 0 msgtext

/-- A line of a text as it stands in HTML, behind a character: a newline is a break if lines are wrapped, and a space
that is not between two words is then one that is kept. -/
def lineEscape (dowrap : Bool) (lastchar : Byte) : List Byte → List Byte
  | [] => []
  | c :: text => (lineCode dowrap lastchar c (text.headD 0)).getD [c] ++ lineEscape dowrap c text

/-! ### What is written -/

/-- `str2html` stays in its buffer and leaves there the escapes of a part of the text, which is all of it if they fit,
and no raw character that has an escape of its own. -/
def Str2htmlEscapes (s : List Byte) : Prop :=
  ∃ buffer text q, str2html s = some buffer ∧ Memory.str 0 buffer 0 = some text ∧ text = htmlEscape q ∧ q <+: s ∧
    ((htmlEscape s).length ≤ smallbuf - 1 → q = s) ∧ ∀ c ∈ text, c ≠ ch '<' ∧ c ≠ ch '>' ∧ c ≠ ch '"'

/-- `printline2` stays in its buffer, and its blocks are the escapes of the whole text. -/
def Printline2Escapes (s : List Byte) : Prop :=
  ∀ dowrap, ∃ blocks, printline2 dowrap s = some blocks ∧ blocks.flatten = lineEscape dowrap 0 s

section

variable {s src out buffer : List Byte} {c : Byte} {n destleft : Nat}

theorem htmlEscape_cons (c : Byte) (s : List Byte) : htmlEscape (c :: s) = htmlChar c ++ htmlEscape s :=
  List.flatMap_cons

theorem htmlChar_code {code : List Byte} (h : tagCode htmltags c = some code) : htmlChar c = code := by
  rw [htmlChar, h]
  rfl

theorem htmlChar_plain (h : tagCode htmltags c = none) : htmlChar c = [c] := by
  rw [htmlChar, h]
  rfl

theorem htmlChar_pos (c : Byte) : 0 < (htmlChar c).length := by
  have hall := byte_all (p := fun c => 0 < (htmlChar c).length) (by decide +kernel) c
  simpa using hall

/-- The loop writes the escapes of what fits, and ends in front of the last cell. -/
theorem str2htmlLoop_run (hlen : buffer.length = smallbuf) (hleft : n + destleft = smallbuf - 1) :
    ∃ buffer' q, str2htmlLoop buffer n destleft src = some (buffer', n + (htmlEscape q).length) ∧
      buffer'.length = smallbuf ∧ buffer'.take (n + (htmlEscape q).length) = buffer.take n ++ htmlEscape q ∧ q <+: src ∧
      (htmlEscape q).length ≤ destleft ∧ ((htmlEscape src).length ≤ destleft → q = src) := by
  induction src generalizing buffer n destleft with
  | nil => exact ⟨buffer, [], rfl, hlen, (List.append_nil _).symm, List.nil_prefix, Nat.zero_le _, fun _ => rfl⟩
  | cons c src ih =>
      -- the loop ends here: the escape of the character is too long
      have hstop : destleft < (htmlChar c).length → ∃ buffer' q,
          (some (buffer, n) : Option (List Byte × Nat)) = some (buffer', n + (htmlEscape q).length) ∧
            buffer'.length = smallbuf ∧ buffer'.take (n + (htmlEscape q).length) = buffer.take n ++ htmlEscape q ∧
            q <+: c :: src ∧ (htmlEscape q).length ≤ destleft ∧
            ((htmlEscape (c :: src)).length ≤ destleft → q = c :: src) := by
        intro hlong
        refine ⟨buffer, [], rfl, hlen, (List.append_nil _).symm, List.nil_prefix, Nat.zero_le _, fun hfits => ?_⟩
        rw [htmlEscape_cons, List.length_append] at hfits
        omega
      -- the escape is written, perhaps with a NUL that the next one covers
      have hstep : ∀ gap : List Byte, gap.length ≤ 1 → (htmlChar c).length ≤ destleft → ∃ buffer' q,
          (do let buffer ← Memory.write buffer n (htmlChar c ++ gap)
              str2htmlLoop buffer (n + (htmlChar c).length) (destleft - (htmlChar c).length) src) =
              some (buffer', n + (htmlEscape q).length) ∧
            buffer'.length = smallbuf ∧ buffer'.take (n + (htmlEscape q).length) = buffer.take n ++ htmlEscape q ∧
            q <+: c :: src ∧ (htmlEscape q).length ≤ destleft ∧
            ((htmlEscape (c :: src)).length ≤ destleft → q = c :: src) := by
        intro gap hgap hfits
        have hinside : n + (htmlChar c ++ gap).length ≤ buffer.length := by
          have hbuf : smallbuf = 4096 := rfl
          rw [List.length_append]
          omega
        have hwrite := Memory.write_of_le hinside
        generalize buffer.take n ++ (htmlChar c ++ gap) ++ buffer.drop (n + (htmlChar c ++ gap).length) = buffer₁
          at hwrite
        obtain ⟨buffer', q, hrun, hlen', htake, hq, hle, hall⟩ := @ih buffer₁ (n + (htmlChar c).length)
          (destleft - (htmlChar c).length) ((Memory.write_length hwrite).trans hlen) (by omega)
        have hcount : n + (htmlChar c).length + (htmlEscape q).length = n + (htmlEscape (c :: q)).length := by
          rw [htmlEscape_cons, List.length_append, Nat.add_assoc]
        refine ⟨buffer', c :: q, ?_, hlen', ?_, List.cons_prefix_cons.mpr ⟨rfl, hq⟩, ?_, fun hfits' => ?_⟩
        · rw [hwrite, Option.bind_eq_bind, Option.bind_some, hrun, hcount]
        · rw [← hcount, htake, Memory.take_write hwrite, htmlEscape_cons, List.append_assoc]
        · rw [htmlEscape_cons, List.length_append]
          omega
        · rw [htmlEscape_cons, List.length_append] at hfits'
          rw [hall (by omega)]
      have hpos := htmlChar_pos c
      rw [str2htmlLoop]
      by_cases hzero : destleft > 0
      · rw [if_pos hzero]
        cases hcode : tagCode htmltags c with
        | some code =>
            rw [← htmlChar_code hcode]
            dsimp only
            by_cases hlong : destleft < (htmlChar c).length
            · rw [if_pos hlong]
              exact hstop hlong
            · rw [if_neg hlong]
              exact hstep [0] (Nat.le_refl 1) (Nat.not_lt.mp hlong)
        | none =>
            have hone := htmlChar_plain hcode
            have hfits := hstep [] (Nat.zero_le 1) (by rw [hone]; exact hzero)
            rw [hone, List.append_nil] at hfits
            dsimp only
            rw [if_neg (by omega)]
            exact hfits
      · rw [if_neg hzero]
        exact hstop (by omega)

theorem htmlChar_clean (c : Byte) : ∀ d ∈ htmlChar c, d ≠ ch '<' ∧ d ≠ ch '>' ∧ d ≠ ch '"' ∧ (c ≠ 0 → d ≠ 0) := by
  have hall := byte_all (p := fun c => (htmlChar c).all fun d => d != ch '<' && d != ch '>' && d != ch '"' &&
    (c == 0 || d != 0)) (by decide +kernel) c
  intro d hd
  simpa [or_iff_not_imp_left, and_assoc] using List.all_eq_true.mp hall d hd

theorem str2html_escapes (h0 : 0 ∉ s) : Str2htmlEscapes s := by
  obtain ⟨buffer, q, hrun, hlen, htake, hq, hle, hall⟩ := @str2htmlLoop_run s (List.replicate smallbuf 0) 0
    (smallbuf - 1) List.length_replicate (Nat.zero_add _)
  rw [Nat.zero_add] at hrun htake
  have hbuf : smallbuf = 4096 := rfl
  have hclean : ∀ d ∈ htmlEscape q, d ≠ ch '<' ∧ d ≠ ch '>' ∧ d ≠ ch '"' ∧ d ≠ 0 := by
    intro d hd
    obtain ⟨c, hc, hd⟩ := List.mem_flatMap.mp hd
    obtain ⟨hlt, hgt, hquot, hnul⟩ := htmlChar_clean c d hd
    exact ⟨hlt, hgt, hquot, hnul fun hzero => h0 (hzero ▸ hq.subset hc)⟩
  -- the NUL behind the text, and the one in the last cell
  obtain ⟨buffer₁, hwrite⟩ : ∃ buffer₁, Memory.write buffer (htmlEscape q).length [0] = some buffer₁ :=
    ⟨_, Memory.write_of_le (by rw [List.length_singleton]; omega)⟩
  have hlen₁ := Memory.write_length hwrite
  obtain ⟨buffer₂, hwrite₁⟩ : ∃ buffer₂, Memory.write buffer₁ (smallbuf - 1) [0] = some buffer₂ :=
    ⟨_, Memory.write_of_le (by rw [List.length_singleton]; omega)⟩
  have htext : buffer₁.take ((htmlEscape q).length + 1) = htmlEscape q ++ [0] := by
    rw [← List.length_singleton (a := (0 : Byte)), Memory.take_written hwrite, htake]
    rfl
  have hend : buffer₂.take ((htmlEscape q).length + 1) = htmlEscape q ++ [0] := by
    rcases Nat.lt_or_eq_of_le hle with hlt | heq
    · rw [Memory.take_of_write hwrite₁ hlt, htext]
    · have hlast := Memory.take_written hwrite₁
      rw [← heq, Memory.take_of_write hwrite (Nat.le_refl _), htake] at hlast
      exact hlast
  refine ⟨buffer₂, htmlEscape q, q, ?_, Memory.str_of_take hend fun hzero => (hclean 0 hzero).2.2.2 rfl, rfl, hq, hall,
    fun d hd => ⟨(hclean d hd).1, (hclean d hd).2.1, (hclean d hd).2.2.1⟩⟩
  rw [str2html, hrun, Option.bind_eq_bind, Option.bind_some]
  dsimp only
  rw [hwrite, Option.bind_eq_bind, Option.bind_some, hwrite₁]

/-- A code has 7 bytes at most, and is a text. -/
theorem lineCode_length {dowrap : Bool} {last next : Byte} {code : List Byte}
    (h : lineCode dowrap last c next = some code) : 0 < code.length ∧ code.length ≤ 7 ∧ 0 ∉ code := by
  have hcodes : ∀ code ∈ [bytes "\n<BR />", bytes "\n", bytes "&lt;", bytes "&gt;", bytes "&amp;", bytes "&quot;",
      bytes "&nbsp;", bytes " "], 0 < code.length ∧ code.length ≤ 7 ∧ 0 ∉ code := by decide
  refine hcodes code ?_
  unfold lineCode at h
  split_ifs at h <;> cases h <;> decide

/-- The inner loop writes the lines of a part of the text, and takes something of a text. -/
theorem fillLoop_run {dowrap : Bool} {last : Byte} {k : Nat} {destleft : Int} (h0 : 0 ∉ src)
    (hlen : out.length + k = linebuf) (hleft : out.length + destleft = linebuf - 6) (hroom : 0 ≤ destleft) :
    ∃ block k' last' rest, fillLoop dowrap (out ++ List.replicate k 0) out.length destleft last src =
        some (out ++ block ++ List.replicate (k' + 1) 0, last', rest) ∧ 0 ∉ block ∧
      lineEscape dowrap last src = block ++ lineEscape dowrap last' rest ∧ rest <:+ src ∧
      (destleft > 64 → src ≠ [] → rest.length < src.length) := by
  have hbuf : linebuf = 1024 := rfl
  induction src generalizing out k destleft last with
  | nil =>
      obtain ⟨k', rfl⟩ : ∃ k', k = k' + 1 := ⟨k - 1, by omega⟩
      refine ⟨[], k', last, [], ?_, List.not_mem_nil, rfl, List.suffix_rfl, fun _ hne => absurd rfl hne⟩
      rw [List.append_nil, fillLoop]
  | cons c src ih =>
      obtain ⟨hc, h0⟩ := not_or.mp (mt List.mem_cons.mpr h0)
      rw [fillLoop]
      by_cases hfits : destleft > 64
      · rw [if_pos hfits]
        -- the character is written, by `strcat` or as it is
        obtain ⟨piece, hpiece, hpos, hmax, hnul⟩ : ∃ piece,
            (lineCode dowrap last c (src.headD 0)).getD [c] = piece ∧ 0 < piece.length ∧ piece.length ≤ 7 ∧
              0 ∉ piece := by
          cases hcode : lineCode dowrap last c (src.headD 0) with
          | none => exact ⟨[c], rfl, Nat.one_pos, by simp, by simpa using hc⟩
          | some code => exact ⟨code, rfl, lineCode_length hcode⟩
        obtain ⟨block, k', last', rest, hrun, hblock, htext, hsuffix, -⟩ := @ih (out ++ piece) c (k - piece.length)
          (destleft - piece.length) h0 (by rw [List.length_append]; omega) (by rw [List.length_append]; omega)
          (by omega)
        refine ⟨piece ++ block, k', last', rest, ?_, ?_, ?_, hsuffix.trans (List.suffix_cons c src), fun _ _ => ?_⟩
        · cases hcode : lineCode dowrap last c (src.headD 0) with
          | none =>
              rw [hcode, Option.getD_none] at hpiece
              subst hpiece
              dsimp only
              rw [Memory.write_replicate (0 : Byte) out (by omega), Option.bind_eq_bind, Option.bind_some]
              simpa using hrun
          | some code =>
              rw [hcode, Option.getD_some] at hpiece
              subst hpiece
              dsimp only
              rw [Memory.strcat_replicate out (by omega), Option.bind_eq_bind, Option.bind_some]
              simpa using hrun
        · rw [List.mem_append]
          exact not_or.mpr ⟨hnul, hblock⟩
        · rw [lineEscape, hpiece, htext, List.append_assoc]
        · exact Nat.lt_succ_of_le hsuffix.length_le
      · rw [if_neg hfits]
        obtain ⟨k', rfl⟩ : ∃ k', k = k' + 1 := ⟨k - 1, by omega⟩
        refine ⟨[], k', last, c :: src, ?_, List.not_mem_nil, rfl, List.suffix_rfl, fun hlt => absurd hlt hfits⟩
        rw [List.append_nil]

/-- The blocks are the lines of the text, if there are rounds enough. -/
theorem printLoop_run {dowrap : Bool} {last : Byte} (h0 : 0 ∉ src) (hn : src.length ≤ n) :
    ∃ blocks, printLoop dowrap n last src = some blocks ∧ blocks.flatten = lineEscape dowrap last src := by
  induction n generalizing src last with
  | zero =>
      obtain rfl := List.eq_nil_of_length_eq_zero (Nat.le_zero.mp hn)
      exact ⟨[], by rw [printLoop], rfl⟩
  | succ n ih =>
      cases src with
      | nil => exact ⟨[], by rw [printLoop], rfl⟩
      | cons c src =>
          obtain ⟨block, k, last', rest, hrun, hblock, htext, hsuffix, hless⟩ := @fillLoop_run (c :: src) [] dowrap last
            linebuf (linebuf - 6) h0 (Nat.zero_add _) (Int.zero_add _) (by decide)
          have hrest : rest.length ≤ n := by
            have hlt := hless (by decide) (List.cons_ne_nil c src)
            rw [List.length_cons] at hlt hn
            omega
          obtain ⟨blocks, hblocks, hflat⟩ := @ih rest last' (fun hmem => h0 (hsuffix.subset hmem)) hrest
          have hstr : Memory.str 0 (block ++ List.replicate (k + 1) 0) 0 = some block :=
            Memory.str_run (List.drop_zero) hblock
          rw [List.nil_append, List.nil_append, List.length_nil] at hrun
          refine ⟨block :: blocks, ?_, by rw [List.flatten_cons, hflat, htext]⟩
          rw [printLoop, hrun, Option.bind_eq_bind, Option.bind_some]
          dsimp only
          rw [hstr, Option.bind_eq_bind, Option.bind_some, hblocks]
          rfl

end

/-- Both functions stay in their buffers and write escapes of the text: as much as fits, and all of it. -/
theorem escapes_html (s : List Byte) (h0 : 0 ∉ s) : Str2htmlEscapes s ∧ Printline2Escapes s :=
  ⟨str2html_escapes h0, fun _ => printLoop_run h0 (Nat.le_refl _)⟩

theorem escapes_html_tag : Str2htmlEscapes (bytes "<a href=\"x\"> b & c</a>\n") ∧
    Printline2Escapes (bytes "<a href=\"x\"> b & c</a>\n") :=
  escapes_html _ (by decide)

end NullG.Httpd
