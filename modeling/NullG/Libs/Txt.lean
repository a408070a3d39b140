/-
Text files (`libs/data/txt.c`).

Every call of `getnext` reads up to 512 bytes of the file anew, from the offset on, and looks for the end of the line in
them; a NUL ends the look too. So a line comes back in one piece if it fits in such a window with its CRLF or its LF,
and behind a NUL no call gets any further (`lines_iff`).
-/

import NullG.Lib.Successive
import NullG.Mail.Lines

namespace NullG.Libs.Txt

open NullG.Nsp NullG.Lib NullG.Mail

/-! ### The code -/

/-- `MAXBUF`. -/
def maxbuf : Nat := 512

/-- `lseek(fd, offset, SEEK_SET)` and `read(fd, buf, MAXBUF)`. -/
def window (file : List Byte) (offset : Nat) : List Byte := (file.drop offset).take maxbuf

/-- The loop over the buffer, from `se` on: the bytes up to where it stops, and by how much the offset is moved. Behind
the last byte is a NUL. -/
def scan : List Byte → List Byte × Nat
  | [] => ([], 0)
  | c :: se =>
      if c = 0 then ([], 0)
      else if c = ch '\r' ∧ se.head? = some (ch '\n') then ([], 2)
      else if c = ch '\n' then ([], 1)
      else (c :: (scan se).1, (scan se).2 + 1)

/-- `libnsp_data_txt_getnext`: the string, and the new offset. -/
def getnext (file : List Byte) (offset : Nat) : Option (List Byte × Nat) :=
  let buf := window file offset
  if buf = [] then none else some ((scan buf).1, offset + (scan buf).2)

/-- The calls of `getnext` from an offset on return these strings and then null, and each one that returns a string
moves the offset. -/
def Reads (file : List Byte) : Nat → List (List Byte) → Prop :=
  Yields (fun offset s offset' => getnext file offset = some (s, offset') ∧ offset < offset') fun offset =>
    getnext file offset = none

/-- The lines of a file, without their ends. -/
def texts (file : List Byte) : List (List Byte) := (lines isNl file).map lineText

/-! ### The loop over the buffer -/

section Scan

variable {buf p r : List Byte} {n : Nat}

theorem scan_nulFree (buf : List Byte) : 0 ∉ (scan buf).1 := by
  induction buf with
  | nil => exact List.not_mem_nil
  | cons c se ih =>
      rw [scan]
      split
      · exact List.not_mem_nil
      · split
        · exact List.not_mem_nil
        · split
          · exact List.not_mem_nil
          · rename_i h0 _ _
            rw [List.mem_cons, not_or]
            exact ⟨Ne.symm h0, ih⟩

theorem scan_le (buf : List Byte) : (scan buf).2 ≤ buf.length := by
  induction buf with
  | nil => exact Nat.le_refl 0
  | cons c se ih =>
      rw [scan, List.length_cons]
      split
      · exact Nat.zero_le _
      · split
        · rename_i _ hcrlf
          have hpos : se ≠ [] := by
            rintro rfl
            cases hcrlf.2
          have hlen := List.length_pos_of_ne_nil hpos
          show 2 ≤ se.length + 1
          omega
        · split
          · exact Nat.succ_pos _
          · exact Nat.succ_le_succ ih

theorem scan_text_le (buf : List Byte) : (scan buf).1.length ≤ (scan buf).2 := by
  induction buf with
  | nil => exact Nat.le_refl 0
  | cons c se ih =>
      rw [scan]
      split
      · exact Nat.zero_le _
      · split
        · exact Nat.zero_le _
        · split
          · exact Nat.zero_le _
          · exact Nat.succ_le_succ ih

/-- A byte of a line that the loop goes on behind. -/
theorem scan_cons {c : Byte} (h0 : c ≠ 0) (hnl : isNl c = false)
    (hcrlf : ¬ (c = ch '\r' ∧ buf.head? = some (ch '\n'))) :
    scan (c :: buf) = (c :: (scan buf).1, (scan buf).2 + 1) := by
  have hne : c ≠ ch '\n' := by
    rintro rfl
    exact absurd hnl (by decide)
  rw [scan, if_neg h0, if_neg hcrlf, if_neg hne]

theorem head?_ne_lf (hp : Free isNl p) : p.head? ≠ some (ch '\n') := by
  intro h
  exact absurd (hp _ (List.mem_of_mem_head? h)) (by decide)

/-- A line without an end that has no NUL. -/
theorem scan_last (hp : Free isNl p) (h0 : 0 ∉ p) : scan p = (p, p.length) := by
  induction p with
  | nil => rfl
  | cons c p ih =>
      rw [List.mem_cons, not_or] at h0
      have hrest : Free isNl p := fun d hd => hp d (List.mem_cons_of_mem c hd)
      rw [scan_cons (Ne.symm h0.1) (hp c List.mem_cons_self) fun h => head?_ne_lf hrest h.2, ih hrest h0.2]
      rfl

theorem scan_lf (r : List Byte) : scan (ch '\n' :: r) = ([], 1) := by
  rw [scan, if_neg (by decide), if_neg fun h => absurd h.1 (by decide), if_pos rfl]

/-- A line with its end. -/
theorem scan_line (hp : Free isNl p) (h0 : 0 ∉ p) (r : List Byte) :
    scan (p ++ ch '\n' :: r) = (lineText (p ++ [ch '\n']), p.length + 1) := by
  rw [lineText_lf]
  induction p with
  | nil => exact scan_lf r
  | cons c p ih =>
      rw [List.mem_cons, not_or] at h0
      have hrest : Free isNl p := fun d hd => hp d (List.mem_cons_of_mem c hd)
      have hc := hp c List.mem_cons_self
      cases p with
      | nil =>
          by_cases hcr : c = ch '\r'
          · subst hcr
            rw [List.cons_append, scan, if_neg (by decide), if_pos ⟨rfl, rfl⟩]
            rfl
          · rw [List.cons_append, scan_cons (Ne.symm h0.1) hc fun h => hcr h.1, List.nil_append, scan_lf,
              if_neg (by simpa using hcr)]
            rfl
      | cons d p =>
          have hhead : ¬ (c = ch '\r' ∧ (d :: p ++ ch '\n' :: r).head? = some (ch '\n')) :=
            fun h => head?_ne_lf hrest h.2
          rw [List.cons_append, scan_cons (Ne.symm h0.1) hc hhead, ih hrest h0.2, List.getLast?_cons_cons]
          split
          · rfl
          · rfl

/-- The loop does not go on behind a line. -/
theorem scan_le_line (hp : Free isNl p) (r : List Byte) (n : Nat) :
    (scan ((p ++ ch '\n' :: r).take n)).2 ≤ p.length + 1 := by
  induction p generalizing n with
  | nil =>
      cases n with
      | zero => exact Nat.zero_le _
      | succ n => rw [List.nil_append, List.take_succ_cons, scan_lf]; exact Nat.le_refl 1
  | cons c p ih =>
      have hrest : Free isNl p := fun d hd => hp d (List.mem_cons_of_mem c hd)
      cases n with
      | zero => exact Nat.zero_le _
      | succ n =>
          have hnext := ih hrest n
          rw [List.cons_append, List.take_succ_cons, scan, List.length_cons]
          split
          · exact Nat.zero_le _
          · split
            · exact Nat.le_add_left 2 _
            · split
              · exact Nat.succ_pos _
              · exact Nat.succ_le_succ hnext

end Scan

/-! ### The calls -/

section Calls

variable {file p r : List Byte} {offset : Nat} {vs : List (List Byte)}

theorem getnext_none_iff : getnext file offset = none ↔ file.drop offset = [] := by
  unfold getnext window
  dsimp only
  split
  · rename_i h
    exact iff_of_true rfl ((List.take_eq_nil_iff.mp h).resolve_left (by decide))
  · rename_i h
    exact iff_of_false nofun fun hnil => h (by rw [hnil, List.take_nil])

theorem getnext_some (h : file.drop offset ≠ []) :
    getnext file offset = some ((scan (window file offset)).1, offset + (scan (window file offset)).2) := by
  have hwindow : window file offset ≠ [] := fun hnil => h ((List.take_eq_nil_iff.mp hnil).resolve_left (by decide))
  rw [getnext, if_neg hwindow]

/-- What begins inside a line has all the lines behind it. -/
theorem length_lines_drop (hp : Free isNl p) (r : List Byte) {n : Nat} (hn : n ≤ p.length + 1) :
    (lines isNl r).length ≤ (lines isNl ((p ++ ch '\n' :: r).drop n)).length ∧
      (n ≤ p.length → (lines isNl r).length < (lines isNl ((p ++ ch '\n' :: r).drop n)).length) := by
  by_cases hle : n ≤ p.length
  · have hdrop : Free isNl (p.drop n) := fun c hc => hp c (List.mem_of_mem_drop hc)
    rw [List.drop_append_of_le_length hle, lines_append hdrop (by decide), List.length_cons]
    exact ⟨Nat.le_succ _, fun _ => Nat.lt_succ_self _⟩
  · obtain rfl : n = p.length + 1 := by omega
    rw [List.append_cons, List.drop_left' (by simp)]
    exact ⟨Nat.le_refl _, fun h => absurd h hle⟩

/-- There are at least as many calls as lines. -/
theorem Reads.length_le (h : Reads file offset vs) : (lines isNl (file.drop offset)).length ≤ vs.length := by
  induction h with
  | stop hnone =>
      rw [getnext_none_iff.mp hnone]
      exact Nat.le_refl 0
  | @next offset offset' v vs hcall _ ih =>
      obtain ⟨hget, -⟩ := hcall
      rw [List.length_cons]
      rcases lines_cases isNl (file.drop offset) with hnil | ⟨hfree, hne⟩ | ⟨p, c, r, hsplit, hfree, hc⟩
      · rw [hnil]
        exact Nat.zero_le _
      · rw [lines_of_free hfree hne]
        exact Nat.succ_le_succ (Nat.zero_le _)
      · obtain rfl := eq_lf_of_isNl hc
        have hne : file.drop offset ≠ [] := by
          rw [hsplit]
          exact List.append_ne_nil_of_right_ne_nil p (List.cons_ne_nil _ r)
        rw [getnext_some hne] at hget
        obtain ⟨-, rfl⟩ := Prod.mk.inj (Option.some.inj hget)
        have hscan : (scan (window file offset)).2 ≤ p.length + 1 := by
          rw [window, hsplit]
          exact scan_le_line hfree r maxbuf
        have hdrop := (length_lines_drop hfree r hscan).1
        rw [← List.drop_drop, hsplit] at ih
        rw [hsplit, lines_append hfree (by decide), List.length_cons]
        exact Nat.succ_le_succ (hdrop.trans ih)

/-- The lines of what is left are read just where it has no NUL, and each of them fits in a window. -/
theorem reads_iff (file : List Byte) (offset : Nat) : Reads file offset ((lines isNl (file.drop offset)).map lineText) ↔
    0 ∉ file.drop offset ∧ ∀ line ∈ lines isNl (file.drop offset), line.length ≤ maxbuf := by
  generalize hrest : file.drop offset = rest
  induction rest using lines_induction (S := isNl) generalizing offset with
  | hnil =>
      exact iff_of_true (.stop (getnext_none_iff.mpr hrest)) ⟨List.not_mem_nil, fun _ h => absurd h List.not_mem_nil⟩
  | hlast l hfree hne =>
      have hget := getnext_some (hrest ▸ hne)
      have hwindow : window file offset = l.take maxbuf := by rw [window, hrest]
      have htext : lineText l = l := by rw [lineText, if_neg (by rw [hfree.not_ended]; decide)]
      have hend : ∀ n, l.length ≤ n → getnext file (offset + n) = none := fun n hn => by
        rw [getnext_none_iff, ← List.drop_drop, hrest, List.drop_eq_nil_of_le hn]
      rw [lines_of_free hfree hne, List.map_singleton, htext, Reads, yields_cons_iff]
      constructor
      · rintro ⟨offset', ⟨hcall, -⟩, -⟩
        rw [hget, hwindow] at hcall
        obtain ⟨hvalue, -⟩ := Prod.mk.inj (Option.some.inj hcall)
        have hlen := (scan_text_le (l.take maxbuf)).trans (scan_le _)
        rw [hvalue] at hlen
        refine ⟨hvalue ▸ scan_nulFree _, fun line hline => ?_⟩
        rw [List.mem_singleton.mp hline]
        exact hlen.trans (List.length_take_le _ _)
      · rintro ⟨h0, hlen⟩
        have htake : l.take maxbuf = l := List.take_of_length_le (hlen l List.mem_cons_self)
        rw [hwindow, htake, scan_last hfree h0] at hget
        have hpos := List.length_pos_of_ne_nil hne
        exact ⟨_, ⟨hget, by omega⟩, .stop (hend _ (Nat.le_refl _))⟩
  | hstep p c r hfree hc ih =>
      obtain rfl := eq_lf_of_isNl hc
      have hne : file.drop offset ≠ [] := by
        rw [hrest]
        exact List.append_ne_nil_of_right_ne_nil p (List.cons_ne_nil _ r)
      have hget := getnext_some hne
      have hwindow : window file offset = (p ++ ch '\n' :: r).take maxbuf := by rw [window, hrest]
      have hline : (p ++ [ch '\n']).length = p.length + 1 := by rw [List.length_append, List.length_singleton]
      have hbehind : file.drop (offset + (p.length + 1)) = r := by
        rw [← List.drop_drop, hrest, List.append_cons, ← hline, List.drop_left]
      have hnext := ih (offset + (p.length + 1)) hbehind
      rw [lines_append hfree hc, List.map_cons, Reads, yields_cons_iff]
      constructor
      · rintro ⟨offset', ⟨hcall, -⟩, hreads⟩
        rw [hget, hwindow] at hcall
        obtain ⟨hvalue, rfl⟩ := Prod.mk.inj (Option.some.inj hcall)
        -- the calls behind this one are not enough for what is left of a line that was cut
        have hcount := Reads.length_le hreads
        rw [List.length_map, ← List.drop_drop, hrest] at hcount
        have hscan := scan_le_line hfree r maxbuf
        have hwhole : (scan ((p ++ ch '\n' :: r).take maxbuf)).2 = p.length + 1 := by
          by_contra hcut
          exact absurd ((length_lines_drop hfree r hscan).2 (by omega)) (by omega)
        have hfits : p.length + 1 ≤ maxbuf := by
          rw [← hwhole]
          exact (scan_le _).trans (List.length_take_le _ _)
        rw [hwhole] at hreads
        obtain ⟨hr0, hrlen⟩ := hnext.mp hreads
        have hp0 : 0 ∉ p := by
          have h0 : 0 ∉ lineText (p ++ [ch '\n']) := hvalue ▸ scan_nulFree _
          rw [lineText_lf] at h0
          by_cases hcr : p.getLast? = some (ch '\r')
          · obtain ⟨q, rfl⟩ := List.getLast?_eq_some_iff.mp hcr
            rw [if_pos hcr, List.dropLast_concat] at h0
            rw [List.mem_append, not_or]
            exact ⟨h0, by decide⟩
          · rwa [if_neg hcr] at h0
        refine ⟨?_, fun line hl => ?_⟩
        · rw [List.mem_append, not_or, List.mem_cons, not_or]
          exact ⟨hp0, by decide, hr0⟩
        · rcases List.mem_cons.mp hl with rfl | hl
          · exact hline ▸ hfits
          · exact hrlen line hl
      · rintro ⟨h0, hlen⟩
        rw [List.mem_append, not_or, List.mem_cons, not_or] at h0
        have hfits : p.length + 1 ≤ maxbuf := hline ▸ hlen _ List.mem_cons_self
        obtain ⟨k, hk⟩ : ∃ k, maxbuf = p.length + (k + 1) := ⟨maxbuf - p.length - 1, by omega⟩
        have htake : (p ++ ch '\n' :: r).take maxbuf = p ++ ch '\n' :: r.take k := by
          rw [hk, List.take_length_add_append, List.take_succ_cons]
        rw [hwindow, htake, scan_line hfree h0.1] at hget
        exact ⟨_, ⟨hget, by omega⟩, hnext.mpr ⟨h0.2.2, fun line hl => hlen line (List.mem_cons_of_mem _ hl)⟩⟩

end Calls

/-- The lines of a file come back just where it has no NUL and every line fits in a window with its end. -/
theorem lines_iff (file : List Byte) :
    Reads file 0 (texts file) ↔ 0 ∉ file ∧ ∀ line ∈ lines isNl file, line.length ≤ maxbuf := by
  have h := reads_iff file 0
  rwa [List.drop_zero] at h

/-- The CR of a line that ends behind the window is read as a byte of the line, and its LF as another line. -/
theorem not_lines_split : ¬ Reads (List.replicate 511 (ch 'a') ++ bytes "\r\n") 0
    (texts (List.replicate 511 (ch 'a') ++ bytes "\r\n")) := by
  intro h
  have hfree : Free isNl (List.replicate 511 (ch 'a') ++ [ch '\r']) := by
    intro c hc
    rcases List.mem_append.mp hc with hc | hc
    · rw [List.eq_of_mem_replicate hc]
      decide
    · rw [List.mem_singleton.mp hc]
      decide
  have hsplit :
      List.replicate 511 (ch 'a') ++ bytes "\r\n" = List.replicate 511 (ch 'a') ++ [ch '\r'] ++ [ch '\n'] := by
    rw [List.append_assoc]
    rfl
  have hlen := ((reads_iff _ 0).mp h).2 (List.replicate 511 (ch 'a') ++ bytes "\r\n") (by
    rw [List.drop_zero, hsplit, lines_append hfree (by decide)]
    exact List.mem_cons_self)
  rw [List.length_append, List.length_replicate] at hlen
  exact absurd hlen (by decide)

end NullG.Libs.Txt
