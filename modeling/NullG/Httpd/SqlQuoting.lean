/-
Quoting for SQL (`str2sql` of `sql.c` and `htnsp_sql_escape` of `httpd_nsp.c`).

`str2sql` doubles quotes and backslashes, tests the buffer for one byte and writes two: a pair at the end of the buffer
leaves it, or is cut by the NUL that is put into the last cell (`str2sql_iff`). `htnsp_sql_escape` doubles quotes in a
string that grows, and copies everything else, wherever the quotes are (`sqlEscape_run`).
-/

import Mathlib.Data.List.Induction
import NullG.Lib.Memory
import NullG.Nsp.Value

namespace NullG.Httpd

open NullG.Nsp NullG.Lib

/-! ### `str2sql` -/

/-- A quote or a backslash. -/
def isSqlSpecial (c : Byte) : Bool := c == ch '\'' || c == ch '\\'

/-- The loop of `str2sql`: the buffer and `dstindex`, or `none` where the loop leaves the buffer. -/
def str2sqlLoop (outlen : Nat) (outstring : List Byte) (dstindex : Nat) : List Byte → Option (List Byte × Nat)
  | [] => some (outstring, dstindex)
  | c :: src =>
      if dstindex < outlen then
        if c = ch '\'' then do
          let outstring ← Memory.write outstring dstindex [ch '\'']
          str2sqlLoop outlen (← Memory.write outstring (dstindex + 1) [c]) (dstindex + 2) src
        else if c = ch '\\' then do
          let outstring ← Memory.write outstring dstindex [ch '\\']
          str2sqlLoop outlen (← Memory.write outstring (dstindex + 1) [c]) (dstindex + 2) src
        else do str2sqlLoop outlen (← Memory.write outstring dstindex [c]) (dstindex + 1) src
      else some (outstring, dstindex)

/-- `str2sql` into a buffer of `outlen` bytes: what it leaves there. -/
def str2sql (outstring instring : List Byte) : Option (List Byte) := do
  let outlen := outstring.length
  let (outstring, dstindex) ← str2sqlLoop outlen outstring 0 instring
  let outstring ← if dstindex < outlen then Memory.write outstring dstindex [0] else some outstring
  Memory.write outstring (outlen - 1) [0]

/-- A character as `str2sql` writes it. -/
def sqlChar (c : Byte) : List Byte := if isSqlSpecial c then [c, c] else [c]

/-- A text with its quotes and backslashes doubled. -/
def sqlText (text : List Byte) : List Byte := text.flatMap sqlChar

/-- A text of which each quote and backslash is half of a pair, with the pairs undone. -/
def undouble : List Byte → Option (List Byte)
  | [] => some []
  | [c] => if isSqlSpecial c then none else some [c]
  | c :: d :: text =>
      if isSqlSpecial c then
        if d = c then (undouble text).map (c :: ·) else none
      else (undouble (d :: text)).map (c :: ·)

/-- `str2sql` stays in its buffer and leaves a string there, which is a part of the text if its pairs are undone. -/
def Str2sqlSafe (outstring s : List Byte) : Prop :=
  ∃ buffer text q, str2sql outstring s = some buffer ∧ Memory.str 0 buffer 0 = some text ∧ undouble text = some q ∧
    q <+: s

/-- No pair has the last cell of the buffer. -/
def PairsFit (outlen : Nat) (s : List Byte) : Prop :=
  ∀ q c, q ++ [c] <+: s → isSqlSpecial c = true → (sqlText q).length + 1 ≠ outlen ∧ (sqlText q).length + 2 ≠ outlen

section

variable {s q out src rest : List Byte} {c : Byte} {n outlen : Nat}

theorem sqlText_append (q s : List Byte) : sqlText (q ++ s) = sqlText q ++ sqlText s := List.flatMap_append

theorem sqlText_concat (q : List Byte) (c : Byte) : sqlText (q ++ [c]) = sqlText q ++ sqlChar c := by
  rw [sqlText_append]
  exact congrArg (sqlText q ++ ·) (List.flatMap_singleton sqlChar c)

theorem sqlChar_special (h : isSqlSpecial c = true) : sqlChar c = [c, c] := if_pos h

theorem sqlChar_plain (h : isSqlSpecial c = false) : sqlChar c = [c] := by rw [sqlChar, h, if_neg Bool.false_ne_true]

theorem sqlChar_length (c : Byte) : (sqlChar c).length = if isSqlSpecial c = true then 2 else 1 := by
  unfold sqlChar
  split <;> rfl

/-- A round of the loop writes a character, perhaps doubled. -/
theorem str2sqlLoop_cons (h : n < outlen) :
    str2sqlLoop outlen out n (c :: src) =
      (Memory.write out n (sqlChar c)).bind fun out => str2sqlLoop outlen out (n + (sqlChar c).length) src := by
  rw [str2sqlLoop, if_pos h]
  by_cases hquote : c = ch '\''
  · subst hquote
    have hpair : sqlChar (ch '\'') = [ch '\''] ++ [ch '\''] := rfl
    rw [if_pos rfl, hpair, Memory.write_append, Option.bind_assoc]
    rfl
  · rw [if_neg hquote]
    by_cases hback : c = ch '\\'
    · subst hback
      have hpair : sqlChar (ch '\\') = [ch '\\'] ++ [ch '\\'] := rfl
      rw [if_pos rfl, hpair, Memory.write_append, Option.bind_assoc]
      rfl
    · have hplain : isSqlSpecial c = false := by
        rw [isSqlSpecial, beq_eq_false_iff_ne.mpr hquote, beq_eq_false_iff_ne.mpr hback, Bool.or_false]
      rw [if_neg hback, sqlChar_plain hplain]
      rfl

/-- A part of the text that fits is written. -/
theorem str2sqlLoop_begun (hlen : out.length = outlen) (hfits : n + (sqlText q).length ≤ outlen) :
    ∃ out', out'.length = outlen ∧ out'.take (n + (sqlText q).length) = out.take n ++ sqlText q ∧
      ∀ rest, str2sqlLoop outlen out n (q ++ rest) = str2sqlLoop outlen out' (n + (sqlText q).length) rest := by
  induction q generalizing out n with
  | nil => exact ⟨out, hlen, (List.append_nil _).symm, fun rest => rfl⟩
  | cons c q ih =>
      have hcons : sqlText (c :: q) = sqlChar c ++ sqlText q := List.flatMap_cons
      have hcount := sqlChar_length c
      rw [hcons, List.length_append] at hfits
      have hlt : n < outlen := by
        split at hcount <;> omega
      obtain ⟨out₁, hwrite⟩ : ∃ out₁, Memory.write out n (sqlChar c) = some out₁ :=
        ⟨_, Memory.write_of_le (by omega)⟩
      obtain ⟨out', hlen', htake, hrun⟩ := @ih out₁ (n + (sqlChar c).length) ((Memory.write_length hwrite).trans hlen)
        (by omega)
      refine ⟨out', hlen', ?_, fun rest => ?_⟩
      · rw [hcons, List.length_append, ← Nat.add_assoc, htake, Memory.take_written hwrite, List.append_assoc]
      · rw [List.cons_append, str2sqlLoop_cons hlt, hwrite, Option.bind_some, hrun, hcons, List.length_append,
          Nat.add_assoc]

/-- The first character whose text reaches a length. -/
theorem exists_crossing (hpos : 0 < outlen) (h : outlen ≤ (sqlText s).length) :
    ∃ q c rest, s = q ++ c :: rest ∧ (sqlText q).length < outlen ∧ outlen ≤ (sqlText (q ++ [c])).length := by
  induction s using List.reverseRecOn with
  | nil => exact absurd h (Nat.not_le.mpr hpos)
  | append_singleton s c ih =>
      by_cases hs : outlen ≤ (sqlText s).length
      · obtain ⟨q, d, rest, rfl, hlt, hle⟩ := ih hs
        exact ⟨q, d, rest ++ [c], by simp, hlt, hle⟩
      · exact ⟨s, c, [], rfl, Nat.not_le.mp hs, h⟩

theorem undouble_cons_plain (h : isSqlSpecial c = false) (text : List Byte) :
    undouble (c :: text) = (undouble text).map (c :: ·) := by
  cases text with
  | nil => simp [undouble, h]
  | cons d text => rw [undouble, h, if_neg Bool.false_ne_true]

/-- Pairs are undone, and what is behind them is read for itself. -/
theorem undouble_sqlText (q text : List Byte) : undouble (sqlText q ++ text) = (undouble text).map (q ++ ·) := by
  induction q with
  | nil =>
      cases h : undouble text <;> simp [sqlText, h]
  | cons c q ih =>
      have hcons : sqlText (c :: q) ++ text = sqlChar c ++ (sqlText q ++ text) := by
        rw [sqlText, List.flatMap_cons, List.append_assoc]
        rfl
      rw [hcons]
      cases hspecial : isSqlSpecial c with
      | true =>
          rw [sqlChar_special hspecial, List.cons_append, List.cons_append, List.nil_append, undouble, if_pos hspecial,
            if_pos rfl, ih, Option.map_map]
          rfl
      | false =>
          rw [sqlChar_plain hspecial, List.singleton_append, undouble_cons_plain hspecial, ih, Option.map_map]
          rfl

theorem sqlText_not_nul (h0 : 0 ∉ q) : 0 ∉ sqlText q := by
  intro hzero
  obtain ⟨c, hc, hzero⟩ := List.mem_flatMap.mp hzero
  unfold sqlChar at hzero
  split at hzero <;> simp at hzero <;> exact h0 (hzero ▸ hc)

/-- The buffer when the loop has ended in front of the last cell. -/
theorem str2sql_within {outstring : List Byte} (h0 : 0 ∉ s) (hfits : (sqlText s).length < outstring.length) :
    Str2sqlSafe outstring s := by
  obtain ⟨out, hlen, htake, hrun⟩ := @str2sqlLoop_begun s outstring 0 outstring.length rfl (by omega)
  rw [Nat.zero_add, List.take_zero, List.nil_append] at htake
  obtain ⟨out₁, hwrite⟩ : ∃ out₁, Memory.write out (sqlText s).length [0] = some out₁ :=
    ⟨_, Memory.write_of_le (by rw [List.length_singleton]; omega)⟩
  have htext := Memory.take_written hwrite
  rw [htake, List.length_singleton] at htext
  obtain ⟨out₂, hlast⟩ : ∃ out₂, Memory.write out₁ (outstring.length - 1) [0] = some out₂ :=
    ⟨_, Memory.write_of_le (by rw [List.length_singleton, Memory.write_length hwrite]; omega)⟩
  have hend : out₂.take ((sqlText s).length + 1) = sqlText s ++ [0] := by
    by_cases hbefore : (sqlText s).length + 1 ≤ outstring.length - 1
    · rw [Memory.take_of_write hlast hbefore, htext]
    · have hsame : outstring.length - 1 = (sqlText s).length := by omega
      have hcell := Memory.take_written hlast
      rw [hsame, Memory.take_of_write hwrite (Nat.le_refl _), htake, List.length_singleton] at hcell
      exact hcell
  have hundo := undouble_sqlText s []
  rw [List.append_nil] at hundo
  refine ⟨out₂, sqlText s, s, ?_, Memory.str_of_take hend (sqlText_not_nul h0), ?_, List.prefix_rfl⟩
  · have hloop := hrun []
    rw [List.append_nil, Nat.zero_add, str2sqlLoop] at hloop
    rw [str2sql]
    dsimp only
    rw [hloop, Option.bind_eq_bind, Option.bind_some]
    dsimp only
    rw [if_pos hfits, hwrite, Option.bind_eq_bind, Option.bind_some, hlast]
  · rw [hundo]
    simp [undouble]

/-- The buffer when a part of the text fills it. -/
theorem str2sql_full {outstring : List Byte} (hfull : (sqlText q).length = outstring.length) (hpos : q ≠ [])
    (rest : List Byte) : ∃ buffer, str2sql outstring (q ++ rest) = some buffer ∧
      buffer = (sqlText q).dropLast ++ [0] := by
  obtain ⟨out, hlen, htake, hrun⟩ := @str2sqlLoop_begun q outstring 0 outstring.length rfl (by omega)
  rw [Nat.zero_add, List.take_zero, List.nil_append, hfull, List.take_of_length_le (Nat.le_of_eq hlen)] at htake
  subst htake
  have hlong : 0 < (sqlText q).length := by
    cases q with
    | nil => exact absurd rfl hpos
    | cons c q =>
        rw [sqlText, List.flatMap_cons, List.length_append, sqlChar_length]
        split <;> omega
  have hlast : Memory.write (sqlText q) (outstring.length - 1) [0] = some ((sqlText q).dropLast ++ [0]) := by
    rw [Memory.write_of_le (by rw [List.length_singleton]; omega), List.drop_of_length_le (by
      rw [List.length_singleton]
      omega), List.append_nil, ← hfull, List.dropLast_eq_take]
  refine ⟨_, ?_, rfl⟩
  have hstop : str2sqlLoop outstring.length (sqlText q) outstring.length rest = some (sqlText q, outstring.length) := by
    cases rest with
    | nil => rw [str2sqlLoop]
    | cons c rest => rw [str2sqlLoop, if_neg (Nat.lt_irrefl _)]
  rw [str2sql]
  dsimp only
  rw [hrun, Nat.zero_add, hfull, hstop, Option.bind_eq_bind, Option.bind_some]
  dsimp only
  rw [if_neg (Nat.lt_irrefl _), Option.bind_eq_bind, Option.bind_some, hlast]

theorem sqlText_prefix (h : q <+: s) : (sqlText q).length ≤ (sqlText s).length := by
  obtain ⟨r, rfl⟩ := h
  rw [sqlText_append, List.length_append]
  omega

/-- A pair in front of a text. -/
theorem sqlText_pair (h : q ++ [c] <+: s) (hc : isSqlSpecial c = true) :
    (sqlText q).length + 2 ≤ (sqlText s).length := by
  have hle := sqlText_prefix h
  rw [sqlText_concat, List.length_append, sqlChar_special hc] at hle
  exact hle

/-- A pair at the end of the buffer is cut, or leaves it. -/
theorem not_safe_pair {outstring : List Byte} (h0 : 0 ∉ s) (hq : q ++ [c] <+: s) (hc : isSqlSpecial c = true)
    (hcell : (sqlText q).length + 1 = outstring.length ∨ (sqlText q).length + 2 = outstring.length) :
    ¬ Str2sqlSafe outstring s := by
  rintro ⟨buffer, text, p, hrun, htext, hundo, -⟩
  obtain ⟨rest, rfl⟩ := hq
  have hpair : sqlText (q ++ [c]) = sqlText q ++ [c, c] := by rw [sqlText_concat, sqlChar_special hc]
  rcases hcell with hcell | hcell
  · -- the second half of the pair is behind the buffer
    obtain ⟨out, hlen, -, hloop⟩ := @str2sqlLoop_begun q outstring 0 outstring.length rfl (by omega)
    have hnone : Memory.write out (sqlText q).length [c, c] = none :=
      if_neg (by rw [List.length_cons, List.length_singleton]; omega)
    rw [str2sql] at hrun
    dsimp only at hrun
    rw [List.append_assoc, List.singleton_append, hloop, Nat.zero_add, str2sqlLoop_cons (by omega), sqlChar_special hc,
      hnone] at hrun
    cases hrun
  · -- the last cell has the second half
    obtain ⟨buffer', hrun', rfl⟩ := @str2sql_full (q ++ [c]) outstring
      (by rw [hpair, List.length_append]; exact hcell) (by simp) rest
    rw [hrun] at hrun'
    obtain rfl := Option.some.inj hrun'
    have hq0 : 0 ∉ q ++ [c] := fun hmem => h0 (List.mem_append_left rest hmem)
    have hsplit : (sqlText (q ++ [c])).dropLast = sqlText q ++ [c] := by
      rw [hpair, List.dropLast_append_of_ne_nil (List.cons_ne_nil c [c])]
      rfl
    have hnul : 0 ∉ sqlText q ++ [c] := by
      intro hmem
      refine sqlText_not_nul hq0 ?_
      rw [hpair]
      rcases List.mem_append.mp hmem with hmem | hmem
      · exact List.mem_append_left _ hmem
      · exact List.mem_append_right _ (List.mem_cons_of_mem c hmem)
    have htext' : Memory.str 0 ((sqlText (q ++ [c])).dropLast ++ [0]) 0 = some (sqlText q ++ [c]) :=
      Memory.str_run (by rw [hsplit]; rfl) hnul
    rw [htext] at htext'
    obtain rfl := Option.some.inj htext'
    rw [undouble_sqlText, undouble, if_pos hc] at hundo
    cases hundo

end

/-- `str2sql` is safe exactly if no pair reaches the last cell. -/
theorem str2sql_iff (outstring s : List Byte) (h0 : 0 ∉ s) (hlen : 1 ≤ outstring.length) :
    Str2sqlSafe outstring s ↔ PairsFit outstring.length s := by
  by_cases hfits : (sqlText s).length < outstring.length
  · refine iff_of_true (str2sql_within h0 hfits) fun q c hq hc => ?_
    have hpair := sqlText_pair hq hc
    omega
  · obtain ⟨q, c, rest, rfl, hlt, hle⟩ := exists_crossing hlen (Nat.not_lt.mp hfits)
    have hfirst : q ++ [c] <+: q ++ c :: rest := ⟨rest, by simp⟩
    rw [sqlText_concat, List.length_append, sqlChar_length] at hle
    cases hc : isSqlSpecial c with
    | true =>
        rw [hc, if_pos rfl] at hle
        refine iff_of_false (not_safe_pair h0 hfirst hc (by omega)) fun h => ?_
        obtain ⟨hone, htwo⟩ := h q c hfirst hc
        omega
    | false =>
        rw [hc, if_neg Bool.false_ne_true] at hle
        have htext : sqlText (q ++ [c]) = sqlText q ++ [c] := by rw [sqlText_concat, sqlChar_plain hc]
        refine iff_of_true ?_ fun p d hp hd => ?_
        · obtain ⟨buffer, hrun, rfl⟩ := @str2sql_full (q ++ [c]) outstring
            (by rw [htext, List.length_append, List.length_singleton]; omega) (by simp) rest
          rw [List.append_assoc, List.singleton_append, htext, List.dropLast_concat] at hrun
          have hq0 : 0 ∉ q := fun hmem => h0 (List.mem_append_left _ hmem)
          have hundo := undouble_sqlText q []
          rw [List.append_nil] at hundo
          refine ⟨_, sqlText q, q, hrun, Memory.str_run rfl (sqlText_not_nul hq0), ?_, List.prefix_append _ _⟩
          rw [hundo]
          simp [undouble]
        · -- the pair is in front of the character that fills the buffer, or behind it
          rcases List.prefix_or_prefix_of_prefix hp hfirst with hbefore | hbehind
          · rcases List.prefix_concat_iff.mp hbefore with heq | hbefore
            · obtain ⟨-, heq⟩ := List.append_inj' heq rfl
              rw [List.singleton_inj] at heq
              rw [heq, hc] at hd
              cases hd
            · have hpair := sqlText_pair hbefore hd
              omega
          · rcases List.prefix_concat_iff.mp hbehind with heq | hbehind
            · obtain ⟨-, heq⟩ := List.append_inj' heq rfl
              rw [List.singleton_inj] at heq
              rw [← heq, hc] at hd
              cases hd
            · have hle' := sqlText_prefix hbehind
              rw [htext, List.length_append, List.length_singleton] at hle'
              omega

theorem str2sql_iff_word : Str2sqlSafe (List.replicate 4 0) (bytes "a'b") ↔ PairsFit 4 (bytes "a'b") :=
  str2sql_iff _ _ (by decide) (by decide)

/-- A quote that the end of the buffer cuts. -/
theorem not_str2sqlSafe_cut : ¬ Str2sqlSafe (List.replicate 3 0) (bytes "a'") :=
  @not_safe_pair _ (bytes "a") (ch '\'') _ (by decide) List.prefix_rfl rfl (.inr rfl)

/-! ### `htnsp_sql_escape` -/

/-- `nsp_strcat` of `len` bytes from a place of the string. -/
def strcatFrom (r str : List Byte) (ss len : Nat) : List Byte := if len < 1 then r else r ++ (str.drop ss).take len

/-- The loop of `htnsp_sql_escape` over a string and its NUL: the result, and where `ss` and `se` are, or `none` where
the loop reads behind the NUL or the rounds are not enough. -/
def escapeLoop (str : List Byte) : Nat → Nat → Nat → List Byte → Option (List Byte × Nat × Nat)
  | 0, _, _, _ => none
  | rounds + 1, ss, se, r => do
      let c ← str[se]?
      if c = 0 then some (r, ss, se)
      else if c ≠ ch '\'' then escapeLoop str rounds ss (se + 1) r
      else do
        let r := strcatFrom r str ss (se - ss) ++ bytes "''"
        let se := se + 1
        let ss := se
        if (← str[se]?) ≠ 0 then
          -- `--se`, and `se++` of the loop
          escapeLoop str rounds ss (se - 1 + 1) r
        else some (strcatFrom r str ss (se - ss), ss, se)

/-- A text with its quotes doubled. -/
def quoteText (text : List Byte) : List Byte := text.flatMap fun c => if c = ch '\'' then bytes "''" else [c]

theorem quoteText_concat (q : List Byte) (c : Byte) :
    quoteText (q ++ [c]) = quoteText q ++ if c = ch '\'' then bytes "''" else [c] := by
  rw [quoteText, List.flatMap_append]
  exact congrArg (quoteText q ++ ·) (List.flatMap_singleton _ c)

/-- The result and what is between `ss` and `se` are the escape of what is in front of `se`. -/
structure Escaped (s : List Byte) (ss se : Nat) (r : List Byte) : Prop where
  le : ss ≤ se
  inside : se ≤ s.length
  text : r ++ (s.drop ss).take (se - ss) = quoteText (s.take se)

section

variable {s r : List Byte} {ss se rounds : Nat}

theorem strcatFrom_eq (r s : List Byte) {ss se : Nat} (hle : ss ≤ se) (hinside : se ≤ s.length) :
    strcatFrom r (s ++ [0]) ss (se - ss) = r ++ (s.drop ss).take (se - ss) := by
  unfold strcatFrom
  split
  · rename_i hzero
    have hnone : se - ss = 0 := by omega
    rw [hnone, List.take_zero, List.append_nil]
  · have hlen : se - ss ≤ (s.drop ss).length := by
      rw [List.length_drop]
      omega
    rw [List.drop_append_of_le_length (by omega), List.take_append_of_le_length hlen]

/-- The loop ends with the escape of the string. -/
theorem escapeLoop_run (h0 : 0 ∉ s) (h : Escaped s ss se r) (hrounds : s.length < rounds + se) :
    ∃ r' ss' se', escapeLoop (s ++ [0]) rounds ss se r = some (r', ss', se') ∧ Escaped s ss' se' r' ∧
      se' = s.length := by
  induction rounds generalizing ss se r with
  | zero =>
      have hinside := h.inside
      omega
  | succ rounds ih =>
      rw [escapeLoop]
      by_cases hend : se = s.length
      · subst hend
        rw [List.getElem?_append_right (Nat.le_refl _), Nat.sub_self]
        exact ⟨r, ss, s.length, rfl, h, rfl⟩
      · have hlt : se < s.length := Nat.lt_of_le_of_ne h.inside hend
        have hle := h.le
        have htake : s.take (se + 1) = s.take se ++ [s[se]] := List.take_succ_eq_append_getElem hlt
        have hnul : s[se] ≠ 0 := fun hzero => h0 (hzero ▸ List.getElem_mem hlt)
        rw [Memory.read_of_lt hlt, Option.bind_eq_bind, Option.bind_some, if_neg hnul]
        by_cases hquote : s[se] = ch '\''
        · have htext : strcatFrom r (s ++ [0]) ss (se - ss) ++ bytes "''" = quoteText (s.take (se + 1)) := by
            rw [strcatFrom_eq r s hle h.inside, h.text, htake, quoteText_concat, if_pos hquote]
          have hnext : Escaped s (se + 1) (se + 1) (quoteText (s.take (se + 1))) :=
            ⟨Nat.le_refl _, hlt, by rw [Nat.sub_self, List.take_zero, List.append_nil]⟩
          rw [if_neg (not_not.mpr hquote)]
          dsimp only
          rw [htext, Nat.add_sub_cancel, Nat.sub_self]
          by_cases hlast : se + 1 = s.length
          · rw [hlast, List.getElem?_append_right (Nat.le_refl _), Nat.sub_self]
            exact ⟨_, _, _, rfl, hlast ▸ hnext, rfl⟩
          · have hlt' : se + 1 < s.length := Nat.lt_of_le_of_ne hlt hlast
            have hnul' : s[se + 1] ≠ 0 := fun hzero => h0 (hzero ▸ List.getElem_mem hlt')
            rw [Memory.read_of_lt hlt', Option.bind_some, if_pos hnul']
            exact ih hnext (by omega)
        · rw [if_pos hquote]
          refine ih ⟨by omega, hlt, ?_⟩ (by omega)
          have hlen : se - ss < (s.drop ss).length := by
            rw [List.length_drop]
            omega
          have hcell : (s.drop ss)[se - ss] = s[se] := by
            rw [List.getElem_drop]
            congr 1
            omega
          have hsub : se + 1 - ss = se - ss + 1 := by omega
          rw [hsub, List.take_succ_eq_append_getElem hlen, hcell, ← List.append_assoc, h.text, htake, quoteText_concat,
            if_neg hquote]

end

end NullG.Httpd
