/-
Files of rows with commas (`libs/data/csv.c`).

Every call of `getnext` reads up to 512 bytes of the file anew, from the offset on, and moves the offset by hand for
every byte it takes. A last field without bytes moves it by two, whether its row ends with CRLF or with LF, so that the
next row loses a byte; and a row has to fit in the window with its end, or another row without fields comes behind it,
or its last field three times (`rows_iff`).
-/

import NullG.Lib.Successive
import NullG.Mail.Numbers
import NullG.Nsp.Append

namespace NullG.Libs.Csv

open NullG.Lib NullG.Mail
open NullG.Nsp hiding decimal

/-! ### The code -/

/-- `MAXBUF`. -/
def maxbuf : Nat := 512

/-- `lseek(fd, offset, SEEK_SET)` and `read(fd, buf, MAXBUF)`. -/
def window (file : List Byte) (offset : Nat) : List Byte := (file.drop offset).take maxbuf

/-- `if (se > ss) nsp_setstr(...)` behind the loop. -/
def last (cur : List Byte) : List (List Byte) := if cur = [] then [] else [cur]

/-- Where the loop is: in the loop that looks for the closing quote, right behind that one, or elsewhere. -/
inductive Place where
  | plain
  | quoted
  | closed
deriving DecidableEq

/-- The loop over the buffer, from `se` on, where `cur` are the bytes from `ss` to `se`: the strings that are set, each
under the next number, and by how much the offset is moved. Behind the last byte is a NUL. -/
def scan : Place → List Byte → List Byte → List (List Byte) × Nat
  | _, cur, [] => (last cur, 0)
  | .quoted, cur, c :: se =>
      if c = 0 then (last cur, 0)
      else if c = ch '"' then (cur :: (scan .closed [] se).1, (scan .closed [] se).2 + 1)
      else ((scan .quoted (cur ++ [c]) se).1, (scan .quoted (cur ++ [c]) se).2 + 1)
  | place, cur, c :: se =>
      let next := scan .plain [] se
      if place = .closed ∧ c = ch ',' then (next.1, next.2 + 1)
      else if c = 0 then (last cur, 0)
      else if c = ch '"' then ((scan .quoted [] se).1, (scan .quoted [] se).2 + 1)
      else if c ≠ ch ',' ∧ c ≠ ch '\r' ∧ c ≠ ch '\n' then
        ((scan .plain (cur ++ [c]) se).1, (scan .plain (cur ++ [c]) se).2 + 1)
      else if c = ch '\r' ∧ se.head? = some (ch '\n') then (last cur, 2)
      else if c = ch '\n' then (last cur, 1)
      -- `se` stays at a CR that no LF follows
      else if c = ch '\r' then (cur :: cur :: last cur, 2)
      else if se.head?.getD 0 = 0 then ([cur, []], 1)
      else if se.head? = some (ch '\r') ∨ se.head? = some (ch '\n') then ([cur, []], 3)
      else (cur :: next.1, next.2 + 1)

/-- The strings are set under the numbers that `n_ntoa` writes into `namebuf`. -/
def rowCalls (fields : List (List Byte)) : List TableCall :=
  fields.zipIdx.map fun p => .set (natDigits p.2) (.string p.1)

/-- `libnsp_data_csv_getnext`: the calls on the new table, and the new offset. -/
def getnext (file : List Byte) (offset : Nat) : Option (List TableCall × Nat) :=
  let buf := window file offset
  if buf = [] then none else some (rowCalls (scan .plain [] buf).1, offset + (scan .plain [] buf).2)

/-! ### Rows -/

/-- A byte of a field. -/
def Plain (c : Byte) : Prop := c ≠ 0 ∧ c ≠ ch '"' ∧ c ≠ ch ',' ∧ c ≠ ch '\r' ∧ c ≠ ch '\n'

instance (c : Byte) : Decidable (Plain c) := inferInstanceAs (Decidable (_ ∧ _ ∧ _ ∧ _ ∧ _))

theorem plain_of_all {fs : List (List Byte)} (h : (fs.all fun f => f.all fun c => decide (Plain c)) = true) :
    ∀ f ∈ fs, ∀ c ∈ f, Plain c := by
  intro f hf c hc
  exact of_decide_eq_true (List.all_eq_true.mp (List.all_eq_true.mp h f hf) c hc)

/-- A row of two fields or more, and how it is ended. -/
structure Row where
  fields : List (List Byte)
  crlf : Bool
  two : 2 ≤ fields.length
  plain : ∀ f ∈ fields, ∀ c ∈ f, Plain c

/-- The fields with commas between them. -/
def Row.text (r : Row) : List Byte := [ch ','].intercalate r.fields

def Row.eol (r : Row) : List Byte := if r.crlf then bytes "\r\n" else bytes "\n"

/-- The table that a row is: its fields under their numbers. -/
def Row.table (r : Row) : List Byte → Option Setting := mapOf (rowCalls r.fields)

/-- The file of the rows. -/
def written (rows : List Row) : List Byte := rows.flatMap fun r => r.text ++ r.eol

/-- The calls of `getnext` from an offset on return these tables, and then null. -/
def Reads (file : List Byte) : Nat → List (List Byte → Option Setting) → Prop :=
  Yields (fun offset table offset' => ∃ calls, getnext file offset = some (calls, offset') ∧ mapOf calls = table)
    fun offset => getnext file offset = none

/-- The last field has no bytes. -/
def Row.open (r : Row) : Bool := r.fields.getLast? == some []

/-- The row fits in a window with its end; only the LF of a CRLF may be missing, behind a last field without bytes. -/
def Row.Fits (r : Row) : Prop :=
  r.text.length + r.eol.length ≤ maxbuf ∨ r.crlf = true ∧ r.open = true ∧ r.text.length + 1 = maxbuf

/-- All rows fit, and only the last one may end with LF behind a last field without bytes. -/
def Readable : List Row → Prop
  | [] => True
  | r :: rows => r.Fits ∧ (r.crlf = false → r.open = true → rows = []) ∧ Readable rows

/-! ### The loop over a row -/

section Scan

variable {w tail cur : List Byte} {c : Byte}

/-- The fields of a text behind `cur`. -/
def segs (cur w : List Byte) : List (List Byte) := (w.splitOn (ch ',')).modifyHead (cur ++ ·)

/-- The bytes of a row, without its end. -/
def Text (w : List Byte) : Prop := ∀ c ∈ w, c = ch ',' ∨ Plain c

/-- What the loop has in front of it behind a row: nothing, or a CR or a LF. -/
def Ends (tail : List Byte) : Prop := ∀ d ∈ tail.head?, d = ch '\r' ∨ d = ch '\n'

theorem segs_nil (cur : List Byte) : segs cur [] = [cur] := by
  rw [segs, List.splitOn_nil, List.modifyHead_cons, List.append_nil]

theorem segs_plain (cur w : List Byte) (hc : c ≠ ch ',') : segs cur (c :: w) = segs (cur ++ [c]) w := by
  rw [segs, segs, List.splitOn_cons_eq_if_modifyHead, if_neg (by simpa using hc), List.modifyHead_modifyHead]
  congr 1
  funext f
  simp

theorem segs_empty (w : List Byte) : segs [] w = w.splitOn (ch ',') :=
  congrFun List.modifyHead_id (w.splitOn (ch ','))

theorem segs_comma (cur w : List Byte) : segs cur (ch ',' :: w) = cur :: segs [] w := by
  rw [segs, List.splitOn_cons_eq_if_modifyHead, if_pos (by simp), List.modifyHead_cons, List.append_nil, segs_empty]

theorem segs_ne_nil (cur w : List Byte) : segs cur w ≠ [] := by
  intro h
  have hlen := congrArg List.length h
  rw [segs, List.length_modifyHead] at hlen
  exact List.splitOn_ne_nil _ _ (List.length_eq_zero_iff.mp hlen)

theorem scan_plain (hc : Plain c) (cur se : List Byte) :
    scan .plain cur (c :: se) = ((scan .plain (cur ++ [c]) se).1, (scan .plain (cur ++ [c]) se).2 + 1) := by
  obtain ⟨h0, hquote, hcomma, hcr, hlf⟩ := hc
  rw [scan, if_neg fun h => Place.noConfusion h.1, if_neg h0, if_neg hquote, if_pos ⟨hcomma, hcr, hlf⟩]
  exact nofun

/-- A comma, and what follows it. -/
theorem scan_comma (cur se : List Byte) : scan .plain cur (ch ',' :: se) =
    if se.head?.getD 0 = 0 then ([cur, []], 1)
    else if se.head? = some (ch '\r') ∨ se.head? = some (ch '\n') then ([cur, []], 3)
    else (cur :: (scan .plain [] se).1, (scan .plain [] se).2 + 1) := by
  rw [scan, if_neg fun h => Place.noConfusion h.1, if_neg (by decide), if_neg (by decide), if_neg (by decide),
    if_neg fun h => absurd h.1 (by decide), if_neg (by decide), if_neg (by decide)]
  exact nofun

/-- A comma that another byte of the row follows. -/
theorem scan_comma_cons {d : Byte} (hd : d = ch ',' ∨ Plain d) (cur se : List Byte) :
    scan .plain cur (ch ',' :: d :: se) = (cur :: (scan .plain [] (d :: se)).1, (scan .plain [] (d :: se)).2 + 1) := by
  have h0 : d ≠ 0 := by
    rcases hd with rfl | hd
    · decide
    · exact hd.1
  have hend : ¬ (d = ch '\r' ∨ d = ch '\n') := by
    rcases hd with rfl | hd
    · decide
    · exact fun h => h.elim hd.2.2.2.1 hd.2.2.2.2
  rw [scan_comma, List.head?_cons, Option.getD_some, if_neg h0,
    if_neg fun h => hend (h.imp Option.some.inj Option.some.inj)]

/-- A comma that ends a row. -/
theorem scan_comma_end (htail : Ends tail) (cur : List Byte) :
    scan .plain cur (ch ',' :: tail) = ([cur, []], if tail = [] then 1 else 3) := by
  rw [scan_comma]
  cases tail with
  | nil => rfl
  | cons d tail =>
      have hd := htail d rfl
      have h0 : d ≠ 0 := by
        rcases hd with rfl | rfl
        · decide
        · decide
      rw [List.head?_cons, Option.getD_some, if_neg h0, if_pos (hd.imp (congrArg some) (congrArg some)),
        if_neg (List.cons_ne_nil d tail)]

/-- The last field is empty just behind a comma. -/
theorem getLast?_segs (hw : w ≠ [] ∨ cur ≠ []) : (segs cur w).getLast? = some [] ↔ w.getLast? = some (ch ',') := by
  induction w generalizing cur with
  | nil =>
      rw [segs_nil]
      exact iff_of_false (fun h => hw.elim (absurd rfl) fun hcur => hcur (Option.some.inj h)) nofun
  | cons c w ih =>
      by_cases hc : c = ch ','
      · subst hc
        rw [segs_comma]
        cases w with
        | nil =>
            rw [segs_nil]
            exact iff_of_true rfl rfl
        | cons d w =>
            rw [List.getLast?_cons_of_ne_nil (segs_ne_nil [] (d :: w)), List.getLast?_cons_cons]
            exact ih (.inl (List.cons_ne_nil d w))
      · have hcur : cur ++ [c] ≠ [] := List.append_ne_nil_of_right_ne_nil cur (List.cons_ne_nil c [])
        rw [segs_plain cur w hc, ih (.inr hcur)]
        cases w with
        | nil => exact iff_of_false nofun fun h => hc (Option.some.inj h)
        | cons d w => rw [List.getLast?_cons_cons]

/-- The loop goes through the fields; what it does behind them depends on the last one. -/
theorem scan_fields (hw : Text w) (htail : Ends tail) (cur : List Byte) :
    scan .plain cur (w ++ tail) =
      if w.getLast? = some (ch ',') then (segs cur w, w.length + if tail = [] then 0 else 2)
      else ((segs cur w).dropLast ++ (scan .plain ((segs cur w).getLastD []) tail).1,
        w.length + (scan .plain ((segs cur w).getLastD []) tail).2) := by
  induction w generalizing cur with
  | nil =>
      rw [segs_nil, if_neg nofun, List.nil_append, List.length_nil, Nat.zero_add]
      rfl
  | cons c w ih =>
      have hrest := ih fun d hd => hw d (List.mem_cons_of_mem c hd)
      rcases hw c List.mem_cons_self with rfl | hc
      · cases w with
        | nil =>
            rw [segs_comma, segs_nil, List.singleton_append, scan_comma_end htail, List.getLast?_singleton, if_pos rfl]
            split
            · rfl
            · rfl
        | cons d w =>
            have hne := segs_ne_nil [] (d :: w)
            have hlength : (ch ',' :: d :: w).length = (d :: w).length + 1 := List.length_cons
            rw [List.cons_append, List.cons_append, scan_comma_cons (hw d (by simp)), ← List.cons_append, hrest [],
              segs_comma, List.getLast?_cons_cons, hlength]
            split
            · rw [Nat.add_right_comm]
            · rw [List.dropLast_cons_of_ne_nil hne, List.getLastD_eq_getLast?, List.getLastD_eq_getLast?,
                List.getLast?_cons_of_ne_nil hne, Nat.add_right_comm]
              rfl
      · rw [List.cons_append, scan_plain hc, hrest, segs_plain _ _ hc.2.2.1, List.length_cons]
        cases w with
        | nil =>
            have hlast : ¬ [c].getLast? = some (ch ',') := fun h => hc.2.2.1 (Option.some.inj h)
            rw [if_neg nofun, if_neg hlast, Nat.add_right_comm]
        | cons d w =>
            rw [List.getLast?_cons_cons]
            split
            · rw [Nat.add_right_comm]
            · rw [Nat.add_right_comm]

/-- What the loop returns for a row, when its last field is set once. -/
theorem scan_row (hw : Text w) (hne : w ≠ []) (htail : Ends tail) {n : Nat}
    (hlast : ∀ l, scan .plain l tail = (last l, n)) :
    scan .plain [] (w ++ tail) = (segs [] w, w.length +
      if w.getLast? = some (ch ',') then (if tail = [] then 0 else 2) else n) := by
  have hempty : (segs [] w).getLast? = some [] ↔ w.getLast? = some (ch ',') := getLast?_segs (.inl hne)
  rw [scan_fields hw htail, hlast]
  split
  · rfl
  · rename_i hcomma
    have hsplit := List.dropLast_append_getLast (segs_ne_nil [] w)
    rw [List.getLastD_eq_getLast?, List.getLast?_eq_some_getLast (segs_ne_nil [] w), Option.getD_some]
    rw [List.getLast?_eq_some_getLast (segs_ne_nil [] w), Option.some.injEq] at hempty
    rw [last, if_neg (mt hempty.mp hcomma), hsplit]

theorem scan_lf (l r : List Byte) : scan .plain l (ch '\n' :: r) = (last l, 1) := by
  rw [scan, if_neg fun h => Place.noConfusion h.1, if_neg (by decide), if_neg (by decide), if_neg (by decide),
    if_neg fun h => absurd h.1 (by decide), if_pos rfl]
  exact nofun

theorem scan_crlf (l r : List Byte) : scan .plain l (ch '\r' :: ch '\n' :: r) = (last l, 2) := by
  rw [scan, if_neg fun h => Place.noConfusion h.1, if_neg (by decide), if_neg (by decide), if_neg (by decide),
    if_pos ⟨rfl, rfl⟩]
  exact nofun

/-- A CR at the end of the window. -/
theorem scan_cr (l : List Byte) : scan .plain l [ch '\r'] = (l :: l :: last l, 2) := rfl

/-- How many bytes the fields take, each with a byte behind it. -/
def weight (fields : List (List Byte)) : Nat := (fields.map fun f => f.length + 1).sum

theorem weight_append (fs gs : List (List Byte)) : weight (fs ++ gs) = weight fs + weight gs := by
  rw [weight, List.map_append, List.sum_append]
  rfl

theorem weight_segs (cur w : List Byte) : weight (segs cur w) = cur.length + w.length + 1 := by
  induction w generalizing cur with
  | nil =>
      rw [segs_nil]
      rfl
  | cons c w ih =>
      by_cases hc : c = ch ','
      · subst hc
        have hsum : weight (cur :: segs [] w) = cur.length + 1 + weight (segs [] w) := rfl
        rw [segs_comma, hsum, ih, List.length_nil, List.length_cons]
        omega
      · rw [segs_plain cur w hc, ih, List.length_append, List.length_cons, List.length_cons, List.length_nil]
        omega

end Scan

/-! ### The tables -/

section Tables

variable {fs gs : List (List Byte)}

theorem natDigits_injective : Function.Injective natDigits := by
  intro i j h
  rw [← decimal_natDigits i, h, decimal_natDigits]

theorem set_mem_rowCalls {k : List Byte} {v : Setting} :
    TableCall.set k v ∈ rowCalls fs ↔ ∃ i f, fs[i]? = some f ∧ natDigits i = k ∧ .string f = v := by
  rw [rowCalls, List.mem_map]
  constructor
  · rintro ⟨p, hp, hcall⟩
    obtain ⟨hk, hv⟩ := TableCall.set.inj hcall
    exact ⟨p.2, p.1, List.mem_zipIdx_iff_getElem?.mp hp, hk, hv⟩
  · rintro ⟨i, f, hf, rfl, rfl⟩
    exact ⟨(f, i), List.mem_zipIdx_iff_getElem?.mpr hf, rfl⟩

/-- The table has each field under its number, and nothing else. -/
theorem mapOf_rowCalls (fs : List (List Byte)) (i : Nat) :
    mapOf (rowCalls fs) (natDigits i) = fs[i]?.map .string := by
  cases hf : fs[i]? with
  | none =>
      refine Option.eq_none_iff_forall_ne_some.mpr fun v hv => ?_
      obtain ⟨j, f, hj, hname, -⟩ := set_mem_rowCalls.mp (mem_of_mapOf hv)
      rw [natDigits_injective hname, hf] at hj
      cases hj
  | some f =>
      obtain ⟨v, hv⟩ := exists_mapOf (set_mem_rowCalls.mpr ⟨i, f, hf, rfl, rfl⟩)
      obtain ⟨j, g, hj, hname, rfl⟩ := set_mem_rowCalls.mp (mem_of_mapOf hv)
      rw [natDigits_injective hname, hf] at hj
      rw [hv, Option.map_some, Option.some.inj hj]

/-- The fields of a table are its own. -/
theorem rowCalls_injective (h : mapOf (rowCalls fs) = mapOf (rowCalls gs)) : fs = gs := by
  refine List.ext_getElem? fun i => ?_
  have hi := congrFun h (natDigits i)
  rw [mapOf_rowCalls, mapOf_rowCalls] at hi
  exact Option.map_injective (fun _ _ => Setting.string.inj) hi

end Tables

/-! ### The calls -/

section Calls

variable {file u rest : List Byte} {offset : Nat} {r : Row}

theorem getnext_none_iff : getnext file offset = none ↔ file.drop offset = [] := by
  unfold getnext window
  dsimp only
  split
  · rename_i h
    exact iff_of_true rfl ((List.take_eq_nil_iff.mp h).resolve_left (by decide))
  · rename_i h
    exact iff_of_false nofun fun hnil => h (by rw [hnil, List.take_nil])

theorem getnext_some {buf : List Byte} (hwindow : (file.drop offset).take maxbuf = buf) (hne : buf ≠ []) :
    getnext file offset = some (rowCalls (scan .plain [] buf).1, offset + (scan .plain [] buf).2) := by
  have hbuf : window file offset = buf := hwindow
  rw [getnext, hbuf, if_neg hne]

theorem eol_crlf (h : r.crlf = true) : r.eol = [ch '\r', ch '\n'] := if_pos h

theorem eol_lf (h : r.crlf ≠ true) : r.eol = [ch '\n'] := if_neg h

theorem ends_cr (tail : List Byte) : Ends (ch '\r' :: tail) := fun _ hd => .inl (Option.some.inj hd).symm

theorem ends_lf (tail : List Byte) : Ends (ch '\n' :: tail) := fun _ hd => .inr (Option.some.inj hd).symm

/-- What is in front of the end of a row fits in a window with it. -/
def Row.Behind (r : Row) (u : List Byte) : Prop :=
  u.length + r.eol.length ≤ maxbuf ∨ r.crlf = true ∧ u.getLast? = some (ch ',') ∧ u.length + 1 = maxbuf

/-- A call in front of the end of a row. -/
theorem getnext_eol (hdrop : file.drop offset = r.eol ++ rest) :
    getnext file offset = some (rowCalls [], offset + r.eol.length) := by
  by_cases hcrlf : r.crlf = true
  · rw [eol_crlf hcrlf] at hdrop ⊢
    have hwindow : (file.drop offset).take maxbuf = ch '\r' :: ch '\n' :: rest.take 510 := by
      rw [hdrop]
      rfl
    rw [getnext_some hwindow (List.cons_ne_nil _ _), scan_crlf]
    rfl
  · rw [eol_lf hcrlf] at hdrop ⊢
    have hwindow : (file.drop offset).take maxbuf = ch '\n' :: rest.take 511 := by
      rw [hdrop]
      rfl
    rw [getnext_some hwindow (List.cons_ne_nil _ _), scan_lf]
    rfl

/-- A window that reaches behind a text. -/
theorem window_text (hdrop : file.drop offset = u ++ rest) (hlen : u.length ≤ maxbuf) :
    (file.drop offset).take maxbuf = u ++ rest.take (maxbuf - u.length) := by
  rw [hdrop, List.take_append, List.take_of_length_le hlen]

/-- A row that fits in the window. -/
theorem getnext_whole (hu : Text u) (hne : u ≠ []) (hdrop : file.drop offset = u ++ (r.eol ++ rest))
    (hfits : r.Behind u) : getnext file offset =
      some (rowCalls (segs [] u), offset + (u.length + if u.getLast? = some (ch ',') then 2 else r.eol.length)) := by
  have happ : ∀ tail, u ++ tail ≠ [] := fun tail => List.append_ne_nil_of_left_ne_nil hne tail
  have hlen : u.length ≤ maxbuf := by
    rcases hfits with h | ⟨-, -, h⟩
    · exact (Nat.le_add_right _ _).trans h
    · exact h ▸ Nat.le_succ _
  have hwindow := window_text hdrop hlen
  by_cases hcrlf : r.crlf = true
  · rw [eol_crlf hcrlf] at hwindow ⊢
    rcases hfits with hfits | ⟨-, hcomma, hfull⟩
    · rw [eol_crlf hcrlf] at hfits
      obtain ⟨k, hk⟩ : ∃ k, maxbuf - u.length = k + 2 := ⟨maxbuf - u.length - 2, by
        rw [List.length_cons, List.length_singleton] at hfits
        omega⟩
      rw [hk] at hwindow
      rw [getnext_some hwindow (happ _), List.cons_append, List.cons_append, List.take_succ_cons, List.take_succ_cons,
        scan_row hu hne (ends_cr _) fun l => scan_crlf l _, if_neg (List.cons_ne_nil _ _)]
      rfl
    · rw [show maxbuf - u.length = 1 by omega] at hwindow
      have hone : ([ch '\r', ch '\n'] ++ rest).take 1 = [ch '\r'] := rfl
      rw [hone] at hwindow
      rw [getnext_some hwindow (happ _), scan_fields hu (ends_cr _), if_pos hcomma, if_pos hcomma]
      rfl
  · rw [eol_lf hcrlf] at hwindow ⊢
    have hfull : u.length + 1 ≤ maxbuf := by
      rcases hfits with h | ⟨h, -, -⟩
      · rwa [eol_lf hcrlf] at h
      · exact absurd h hcrlf
    obtain ⟨k, hk⟩ : ∃ k, maxbuf - u.length = k + 1 := ⟨maxbuf - u.length - 1, by omega⟩
    rw [hk] at hwindow
    rw [getnext_some hwindow (happ _), List.cons_append, List.take_succ_cons,
      scan_row hu hne (ends_lf _) fun l => scan_lf l _, if_neg (List.cons_ne_nil _ _)]
    rfl

theorem length_eol (r : Row) : r.eol.length = if r.crlf = true then 2 else 1 := by
  unfold Row.eol
  split
  · rfl
  · rfl

/-- What ends in the window does not fit in it only if the LF of a CRLF is missing. -/
theorem not_behind (hlen : u.length < maxbuf) (h : ¬ r.Behind u) :
    r.crlf = true ∧ u.length + 1 = maxbuf ∧ u.getLast? ≠ some (ch ',') := by
  rw [Row.Behind, not_or, length_eol, not_and, not_and'] at h
  obtain ⟨hend, hopen⟩ := h
  split at hend
  · rename_i hcrlf
    have hfull : u.length + 1 = maxbuf := by omega
    exact ⟨hcrlf, hfull, fun hcomma => hopen hcrlf hfull hcomma⟩
  · omega

/-- A row that fits in the window but for the LF of its CRLF. -/
theorem getnext_cr (hu : Text u) (hdrop : file.drop offset = u ++ (r.eol ++ rest)) (hcrlf : r.crlf = true)
    (hlen : u.length + 1 = maxbuf) (hcomma : u.getLast? ≠ some (ch ',')) :
    ∃ l n, getnext file offset = some (rowCalls (segs [] u ++ [l, l]), n) := by
  have hne : u ≠ [] := by
    rintro rfl
    cases hlen
  have hwindow := window_text hdrop (by omega)
  rw [show maxbuf - u.length = 1 by omega, eol_crlf hcrlf] at hwindow
  have hone : ([ch '\r', ch '\n'] ++ rest).take 1 = [ch '\r'] := rfl
  rw [hone] at hwindow
  have hcall := getnext_some hwindow (List.append_ne_nil_of_left_ne_nil hne _)
  have hempty : (segs [] u).getLast? = some [] ↔ u.getLast? = some (ch ',') := getLast?_segs (.inl hne)
  rw [scan_fields hu (ends_cr _), if_neg hcomma, scan_cr, List.getLastD_eq_getLast?,
    List.getLast?_eq_some_getLast (segs_ne_nil [] u), Option.getD_some] at hcall
  rw [List.getLast?_eq_some_getLast (segs_ne_nil [] u), Option.some.injEq] at hempty
  generalize hl : (segs [] u).getLast (segs_ne_nil [] u) = l at hcall hempty
  have hsplit := List.dropLast_append_getLast (segs_ne_nil [] u)
  rw [hl] at hsplit
  have hfields : (segs [] u).dropLast ++ [l, l, l] = segs [] u ++ [l, l] := by
    rw [← hsplit, List.dropLast_concat, List.append_assoc]
    rfl
  rw [last, if_neg (mt hempty.mp hcomma)] at hcall
  exact ⟨l, _, hcall.trans (by rw [hfields])⟩

/-- A row that does not fit in the window. -/
theorem getnext_cut (hu : Text u) (hdrop : file.drop offset = u ++ rest) (hlen : maxbuf ≤ u.length) :
    getnext file offset = some (rowCalls (segs [] (u.take maxbuf)), offset + maxbuf) := by
  have hwindow : (file.drop offset).take maxbuf = u.take maxbuf := by
    rw [hdrop, List.take_append_of_le_length hlen]
  have htake : (u.take maxbuf).length = maxbuf := List.length_take_of_le hlen
  have hne : u.take maxbuf ≠ [] := List.ne_nil_of_length_pos (htake.symm ▸ (by decide : 0 < maxbuf))
  have hends : Ends [] := nofun
  have hscan := scan_row (fun c hc => hu c (List.mem_of_mem_take hc)) hne hends fun l => by rw [scan]
  rw [List.append_nil, if_pos rfl, ite_self, Nat.add_zero, htake] at hscan
  rw [getnext_some hwindow hne, hscan]

end Calls

/-! ### The rows -/

section Rows

variable {file : List Byte} {offset : Nat} {r : Row} {rows : List Row}

theorem fields_ne_nil (r : Row) : r.fields ≠ [] := by
  intro h
  have htwo := r.two
  rw [h] at htwo
  cases htwo

theorem segs_text (r : Row) : segs [] r.text = r.fields := by
  rw [segs_empty, Row.text]
  refine List.splitOn_intercalate _ (fun f hf hmem => ?_) (fields_ne_nil r)
  exact (r.plain f hf _ hmem).2.2.1 rfl

theorem weight_fields (r : Row) : weight r.fields = r.text.length + 1 := by
  rw [← segs_text, weight_segs, List.length_nil, Nat.zero_add]

theorem text_ne_nil (r : Row) : r.text ≠ [] := by
  intro h
  have hone : r.fields = [[]] := by rw [← segs_text, h, segs_nil]
  have htwo := r.two
  rw [hone] at htwo
  exact absurd htwo (by decide)

theorem text_text (r : Row) : Text r.text := by
  have hall : ∀ fs : List (List Byte), (∀ f ∈ fs, ∀ c ∈ f, Plain c) → Text ([ch ','].intercalate fs) := by
    intro fs hfs
    induction fs with
    | nil => exact fun c hc => absurd hc List.not_mem_nil
    | cons f fs ih =>
        have hf := hfs f List.mem_cons_self
        have hrest := ih fun g hg => hfs g (List.mem_cons_of_mem f hg)
        cases fs with
        | nil =>
            rw [List.intercalate_singleton]
            exact fun c hc => .inr (hf c hc)
        | cons g fs =>
            rw [List.intercalate_cons_cons]
            intro c hc
            rcases List.mem_append.mp hc with hc | hc
            · rcases List.mem_append.mp hc with hc | hc
              · exact .inr (hf c hc)
              · exact .inl (List.mem_singleton.mp hc)
            · exact hrest c hc
  exact hall r.fields r.plain

theorem open_iff (r : Row) : r.open = true ↔ r.text.getLast? = some (ch ',') := by
  rw [Row.open, beq_iff_eq, ← segs_text, getLast?_segs (.inl (text_ne_nil r))]

theorem fits_iff (r : Row) : r.Fits ↔ r.Behind r.text := by
  rw [Row.Fits, Row.Behind, open_iff]

theorem written_cons (r : Row) (rows : List Row) : written (r :: rows) = r.text ++ (r.eol ++ written rows) := by
  rw [written, List.flatMap_cons, List.append_assoc]
  rfl

/-- A call that returns the table of a row returns its fields. -/
theorem fields_of_table {fs : List (List Byte)} {calls : List TableCall} {n m : Nat}
    (hcall : getnext file offset = some (rowCalls fs, n)) (hget : getnext file offset = some (calls, m))
    (htable : mapOf calls = r.table) : fs = r.fields ∧ n = m := by
  rw [hcall, Option.some.injEq, Prod.mk.injEq] at hget
  obtain ⟨rfl, rfl⟩ := hget
  exact ⟨rowCalls_injective htable, rfl⟩

/-- A call that begins behind the first byte of a row does not return the row. -/
theorem not_table_behind (hdrop : file.drop offset = r.text.tail ++ (r.eol ++ written rows)) {calls : List TableCall}
    {n : Nat} (hget : getnext file offset = some (calls, n)) : mapOf calls ≠ r.table := by
  intro htable
  have hu : Text r.text.tail := fun c hc => text_text r c (List.mem_of_mem_tail hc)
  have hlen : r.text.tail.length + 1 = r.text.length := by
    have hpos := List.length_pos_of_ne_nil (text_ne_nil r)
    rw [List.length_tail]
    omega
  have hweight := weight_fields r
  by_cases hnil : r.text.tail = []
  · rw [hnil] at hdrop
    obtain ⟨hfields, -⟩ := fields_of_table (getnext_eol hdrop) hget htable
    exact fields_ne_nil r hfields.symm
  · by_cases hcut : maxbuf ≤ r.text.tail.length
    · obtain ⟨hfields, -⟩ := fields_of_table (getnext_cut hu hdrop hcut) hget htable
      rw [← hfields, weight_segs, List.length_take, List.length_nil] at hweight
      omega
    · by_cases hfits : r.Behind r.text.tail
      · obtain ⟨hfields, -⟩ := fields_of_table (getnext_whole hu hnil hdrop hfits) hget htable
        rw [← hfields, weight_segs, List.length_nil] at hweight
        omega
      · obtain ⟨hcrlf, hfull, hcomma⟩ := not_behind (Nat.lt_of_not_le hcut) hfits
        obtain ⟨l, m, hcall⟩ := getnext_cr hu hdrop hcrlf hfull hcomma
        obtain ⟨hfields, -⟩ := fields_of_table hcall hget htable
        have hdup : weight [l, l] = l.length + 1 + (l.length + 1) := rfl
        rw [← hfields, weight_append, weight_segs, List.length_nil, hdup] at hweight
        omega

/-- The offset behind a row. -/
theorem drop_row (hdrop : file.drop offset = written (r :: rows)) :
    file.drop (offset + (r.text.length + r.eol.length)) = written rows := by
  rw [← List.drop_drop, hdrop, written_cons, ← List.append_assoc, ← List.length_append, List.drop_left]

/-- The offset behind a row that ends with LF behind a last field without bytes. -/
theorem drop_open (hdrop : file.drop offset = written (r :: rows)) (hcrlf : r.crlf ≠ true) :
    file.drop (offset + (r.text.length + 2)) = (written rows).tail := by
  have hone : r.eol.length + 1 = 2 := by rw [eol_lf hcrlf]; rfl
  rw [← hone, ← Nat.add_assoc, ← Nat.add_assoc, ← List.drop_drop, Nat.add_assoc, drop_row hdrop, List.drop_one]

/-- A row that fits is returned just when the rest is read from the right place. -/
theorem reads_cons_iff (hdrop : file.drop offset = written (r :: rows)) (hfits : r.Fits) :
    Reads file offset ((r :: rows).map Row.table) ↔
      Reads file (offset + (r.text.length + if r.open = true then 2 else r.eol.length)) (rows.map Row.table) := by
  have hcall := getnext_whole (text_text r) (text_ne_nil r) (hdrop.trans (written_cons r rows)) ((fits_iff r).mp hfits)
  rw [segs_text] at hcall
  simp only [← open_iff] at hcall
  rw [List.map_cons, Reads, yields_cons_iff]
  constructor
  · rintro ⟨offset', ⟨calls, hget, htable⟩, hrest⟩
    rwa [(fields_of_table hcall hget htable).2]
  · exact fun hrest => ⟨_, ⟨_, hcall, rfl⟩, hrest⟩

/-- A row that is returned fits. -/
theorem fits_of_reads (hdrop : file.drop offset = written (r :: rows))
    (h : Reads file offset ((r :: rows).map Row.table)) : r.Fits := by
  rw [List.map_cons, Reads, yields_cons_iff] at h
  obtain ⟨offset', ⟨calls, hget, htable⟩, hrest⟩ := h
  have hweight := weight_fields r
  rw [written_cons] at hdrop
  by_cases hcut : maxbuf ≤ r.text.length
  · -- the next call returns a table without fields
    exfalso
    obtain ⟨hfields, rfl⟩ := fields_of_table (getnext_cut (text_text r) hdrop hcut) hget htable
    rw [← hfields, weight_segs, List.length_take, List.length_nil] at hweight
    have hlen : r.text.length = maxbuf := by omega
    have hnext : file.drop (offset + maxbuf) = r.eol ++ written rows := by
      rw [← List.drop_drop, hdrop, ← hlen, List.drop_left]
    have hcall := getnext_eol hnext
    cases rows with
    | nil =>
        rw [List.map_nil, yields_nil_iff, hcall] at hrest
        cases hrest
    | cons r' rows =>
        rw [List.map_cons, yields_cons_iff] at hrest
        obtain ⟨_, ⟨calls', hget', htable'⟩, -⟩ := hrest
        exact fields_ne_nil r' (fields_of_table hcall hget' htable').1.symm
  · by_contra hfits
    obtain ⟨hcrlf, hfull, hcomma⟩ := not_behind (Nat.lt_of_not_le hcut) (mt (fits_iff r).mpr hfits)
    obtain ⟨l, m, hcall⟩ := getnext_cr (text_text r) hdrop hcrlf hfull hcomma
    obtain ⟨hfields, -⟩ := fields_of_table hcall hget htable
    rw [segs_text] at hfields
    exact absurd (List.append_right_eq_self.mp hfields) (List.cons_ne_nil _ _)

/-- What is left of the rows comes back just where they can be read. -/
theorem reads_iff (hdrop : file.drop offset = written rows) :
    Reads file offset (rows.map Row.table) ↔ Readable rows := by
  induction rows generalizing offset with
  | nil => exact iff_of_true (.stop (getnext_none_iff.mpr hdrop)) trivial
  | cons r rows ih =>
      suffices hstep : r.Fits → (Reads file offset ((r :: rows).map Row.table) ↔
          (r.crlf = false → r.open = true → rows = []) ∧ Readable rows) from
        ⟨fun h => ⟨fits_of_reads hdrop h, (hstep (fits_of_reads hdrop h)).mp h⟩, fun h => (hstep h.1).mpr h.2⟩
      intro hfits
      rw [reads_cons_iff hdrop hfits]
      by_cases hlf : r.crlf ≠ true ∧ r.open = true
      · obtain ⟨hcrlf, hopen⟩ := hlf
        have hnext := drop_open hdrop hcrlf
        rw [if_pos hopen]
        cases rows with
        | nil => exact iff_of_true (.stop (getnext_none_iff.mpr hnext)) ⟨fun _ _ => rfl, trivial⟩
        | cons r' rows =>
            refine iff_of_false (fun h => ?_) fun h => absurd (h.1 (by simpa using hcrlf) hopen) (List.cons_ne_nil _ _)
            rw [List.map_cons, Reads, yields_cons_iff] at h
            obtain ⟨_, ⟨calls, hget, htable⟩, -⟩ := h
            rw [written_cons, List.tail_append_of_ne_nil (text_ne_nil r')] at hnext
            exact not_table_behind hnext hget htable
      · have hbehind : (if r.open = true then 2 else r.eol.length) = r.eol.length := by
          split
          · rename_i hopen
            rw [length_eol, if_pos (not_not.mp fun hcrlf => hlf ⟨hcrlf, hopen⟩)]
          · rfl
        rw [hbehind, ih (drop_row hdrop)]
        exact ⟨fun h => ⟨fun hcrlf hopen => absurd ⟨by simp [hcrlf], hopen⟩ hlf, h⟩, fun h => h.2⟩

end Rows

/-- The rows of a file come back just where each fits in a window with its end and only the last one ends with LF behind
a last field without bytes. -/
theorem rows_iff (rows : List Row) : Reads (written rows) 0 (rows.map Row.table) ↔ Readable rows := reads_iff rfl

/-- `a,` and LF, and then `b,c` and LF. -/
def openRows : List Row :=
  [⟨[bytes "a", []], false, by decide, plain_of_all rfl⟩, ⟨[bytes "b", bytes "c"], false, by decide, plain_of_all rfl⟩]

/-- The second row loses its first byte. -/
theorem not_rows_open : ¬ Reads (written openRows) 0 (openRows.map Row.table) := by
  intro h
  have hiff : Reads (written openRows) 0 (openRows.map Row.table) ↔ Readable openRows := reads_iff rfl
  exact absurd (hiff.mp h).2.1 (by decide)

end NullG.Libs.Csv
