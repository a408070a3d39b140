/-
Lines of mail.

A line of a message ends with CRLF or with LF, and `lineText` is what comes before that. `striprn` takes
every CR and LF off the end of a line, so it is not the same where a text ends with CR.
-/

import Mathlib.Data.List.Induction
import NullG.Mail.Text

namespace NullG.Mail

open NullG.Nsp NullG.Lib

/-- The text of a line, without the CRLF or the LF that ends it. -/
def lineText (line : List Byte) : List Byte :=
  if ended isNl line then
    if line.dropLast.getLast? = some (ch '\r') then line.dropLast.dropLast else line.dropLast
  else line

/-- A line that holds a single dot. -/
def isDotLine (line : List Byte) : Bool := lineText line == bytes "."

/-- Texts, each ended by one CRLF. -/
def asLines (texts : List (List Byte)) : List Byte := texts.flatMap (· ++ bytes "\r\n")

section

variable {p l : List Byte} {c : Byte}

theorem lineText_lf (p : List Byte) :
    lineText (p ++ [ch '\n']) = if p.getLast? = some (ch '\r') then p.dropLast else p := by
  unfold lineText
  rw [ended_concat, if_pos (by decide), List.dropLast_concat]

theorem lineText_crlf (p : List Byte) : lineText (p ++ bytes "\r\n") = p := by
  have hsplit : p ++ bytes "\r\n" = (p ++ [ch '\r']) ++ [ch '\n'] := List.append_cons p (ch '\r') [ch '\n']
  rw [hsplit, lineText_lf, List.getLast?_concat, if_pos rfl, List.dropLast_concat]

theorem eq_lf_of_isNl (hc : isNl c = true) : c = ch '\n' := beq_iff_eq.mp hc

/-- A line that is ended is its text and CRLF, or its text and LF. -/
theorem lineText_cases (h : ended isNl l = true) : l = lineText l ++ bytes "\r\n" ∨ l = lineText l ++ [ch '\n'] := by
  obtain ⟨p, c, rfl, hc⟩ := exists_concat_of_ended h
  obtain rfl := eq_lf_of_isNl hc
  rw [lineText_lf]
  by_cases hcr : p.getLast? = some (ch '\r')
  · obtain ⟨q, rfl⟩ := List.getLast?_eq_some_iff.mp hcr
    rw [if_pos hcr, List.dropLast_concat]
    exact .inl (List.append_cons q (ch '\r') [ch '\n']).symm
  · rw [if_neg hcr]
    exact .inr rfl

/-! ### `striprn` -/

theorem striprn_concat (hc : isEol c = true) (p : List Byte) : striprn (p ++ [c]) = striprn p := by
  unfold striprn
  rw [List.reverse_concat, List.dropWhile_cons_of_pos hc]

theorem striprn_of_concat (hc : isEol c = false) (p : List Byte) : striprn (p ++ [c]) = p ++ [c] := by
  unfold striprn
  rw [List.reverse_concat, List.dropWhile_cons_of_neg (by rw [hc]; exact Bool.false_ne_true), List.reverse_cons,
    List.reverse_reverse]

theorem striprn_begins (l : List Byte) : striprn l <+: l := by
  unfold striprn
  have h := List.dropWhile_suffix isEol (l := l.reverse)
  rw [← List.reverse_prefix, List.reverse_reverse] at h
  exact h

theorem striprn_lineText (h : ended isNl l = true) : striprn l = striprn (lineText l) := by
  rcases lineText_cases h with hl | hl
  · have hsplit : lineText l ++ bytes "\r\n" = (lineText l ++ [ch '\r']) ++ [ch '\n'] :=
      List.append_cons (lineText l) (ch '\r') [ch '\n']
    conv_lhs => rw [hl, hsplit, striprn_concat (by decide), striprn_concat (by decide)]
  · conv_lhs => rw [hl, striprn_concat (by decide)]

/-- `striprn` leaves a text without LF as it is, if it does not end with CR. -/
theorem striprn_eq_self_iff (hfree : Free isNl l) : striprn l = l ↔ l.getLast? ≠ some (ch '\r') := by
  constructor
  · intro h hcr
    obtain ⟨p, rfl⟩ := List.getLast?_eq_some_iff.mp hcr
    have hlen := (striprn_begins p).length_le
    rw [← striprn_concat (c := ch '\r') (by decide), h, List.length_append] at hlen
    exact absurd hlen (Nat.not_succ_le_self _)
  · intro hcr
    rcases List.eq_nil_or_concat' l with rfl | ⟨p, c, rfl⟩
    · rfl
    · rw [List.getLast?_concat] at hcr
      refine striprn_of_concat ?_ p
      have hlf := hfree c (List.mem_append_right p List.mem_cons_self)
      unfold isEol
      rw [Bool.or_eq_false_iff, beq_eq_false_iff_ne]
      exact ⟨fun heq => hcr (congrArg some heq), hlf⟩

/-! ### `fgets` -/

theorem zero_notMem_cstr (l : List Byte) : 0 ∉ cstr l := by
  intro h
  have hne := List.all_eq_true.mp List.all_takeWhile 0 h
  exact bne_iff_ne.mp hne rfl

/-- What stands behind a NUL is not read. -/
theorem cstr_append_zero (line q : List Byte) : cstr (line ++ 0 :: q) = cstr line := by
  unfold cstr
  induction line with
  | nil => rfl
  | cons c line ih =>
      by_cases hc : (c != 0) = true
      · rw [List.cons_append, List.takeWhile_cons, List.takeWhile_cons, if_pos hc, if_pos hc, ih]
      · rw [List.cons_append, List.takeWhile_cons, List.takeWhile_cons, if_neg hc, if_neg hc]

theorem cstr_eq {l : List Byte} (h : 0 ∉ l) : cstr l = l := by
  unfold cstr
  induction l with
  | nil => rfl
  | cons c l ih =>
      obtain ⟨hc, hl⟩ : 0 ≠ c ∧ 0 ∉ l := by
        rw [List.mem_cons, not_or] at h
        exact h
      have hkeep : (c != 0) = true := bne_iff_ne.mpr (Ne.symm hc)
      rw [List.takeWhile_cons, if_pos hkeep, ih hl]

/-- Of a file without zeros all bytes are read. -/
theorem fgetsAll_eq {content : List Byte} (h : 0 ∉ content) {size : Nat} (hsize : 1 < size) :
    fgetsAll size content = pieces isNl (size - 1) content := by
  unfold fgetsAll
  refine (List.map_congr_left fun p hp => ?_).trans (List.map_id _)
  refine cstr_eq fun hzero => h ?_
  have hflat := pieces_flatten (S := isNl) (M := size - 1) (Nat.sub_pos_of_lt hsize) content
  rw [← hflat]
  exact List.mem_flatten_of_mem hp hzero

theorem fgetsAll_length_le {content line : List Byte} (h : line ∈ fgetsAll 1023 content) : line.length ≤ 1022 := by
  obtain ⟨p, hp, rfl⟩ := List.mem_map.mp h
  obtain ⟨r, -, rfl⟩ := exists_of_mem_pieces (by decide) hp
  exact Nat.le_trans (List.takeWhile_prefix _).length_le (piece_length_le 1022 r)

/-! ### Texts as lines -/

theorem asLines_cons (t : List Byte) (texts : List (List Byte)) :
    asLines (t :: texts) = t ++ bytes "\r\n" ++ asLines texts := List.flatMap_cons ..

/-- The lines that texts without LF are written as. -/
theorem lines_asLines {texts : List (List Byte)} (hfree : ∀ t ∈ texts, Free isNl t) :
    lines isNl (asLines texts) = texts.map (· ++ bytes "\r\n") := by
  induction texts with
  | nil => rfl
  | cons t texts ih =>
      have hcr : Free isNl (t ++ [ch '\r']) := (hfree t List.mem_cons_self).append (by decide)
      have hsplit : asLines (t :: texts) = (t ++ [ch '\r']) ++ ch '\n' :: asLines texts := by
        rw [asLines_cons]
        simp only [List.append_assoc]
        rfl
      rw [hsplit, lines_append hcr (by decide), ih fun u hu => hfree u (List.mem_cons_of_mem t hu), List.map_cons,
        List.append_assoc]
      rfl

theorem asLines_inj {texts texts' : List (List Byte)} (hfree : ∀ t ∈ texts, Free isNl t)
    (hfree' : ∀ t ∈ texts', Free isNl t) (h : asLines texts = asLines texts') : texts = texts' := by
  have hlines := congrArg (lines isNl) h
  rw [lines_asLines hfree, lines_asLines hfree'] at hlines
  exact List.map_injective_iff.mpr (fun _ _ h => List.append_cancel_right h) hlines

end

end NullG.Mail
