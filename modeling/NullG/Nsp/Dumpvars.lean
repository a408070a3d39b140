/-
The buffer of the serializer (`n_dumpvars` of `libn.c`, `nc_vsnprintf` of `libc.c`).

`n_dumpvars` prints into a buffer of 512 bytes, which it appends to the result before a string, before a nested table
and at the end. `nc_vsnprintf` bounds what it copies for a conversion, but not the bytes of its format and not the NUL
at its end, and it counts what it did not copy. The test for a long text runs once for each entry, when it is too late.
-/

import NullG.Libs.Printf
import NullG.Nsp.Value

namespace NullG.Nsp.Dumpvars

open NullG.Libs

/-! ### Printing -/

/-- What a run does to its buffer: a byte is written at an index, or the first bytes are appended to the result. -/
inductive Event where
  | write (i : Nat) (c : Byte)
  | append (n : Nat)
  deriving DecidableEq

/-- Bytes that are written one behind another. -/
def writes (d : Nat) : List Byte → List Event
  | [] => []
  | c :: s => .write d c :: writes (d + 1) s

/-- `nc_strncpy(d, src, n)`. -/
def strncpy (d : Nat) (src : List Byte) (n : Int) : List Event :=
  if 0 < n then writes d (src.take (n - 1).toNat ++ [0]) else []

/-- `nc_vsnprintf(N, dest, max, format, ap)`, with `len` counted: what it writes, and the length it returns. -/
def vsnprintf (dest : Nat) (max : Int) (len : Nat) : List Conv → List Event × Nat
  | [] => ([.write (dest + len) 0], len)
  | .text s :: format =>
      let (es, n) := vsnprintf dest max (len + s.length) format
      (writes (dest + len) s ++ es, n)
  | .arg s :: format =>
      let (es, n) := vsnprintf dest max (len + s.length) format
      (strncpy (dest + len) s (max - len) ++ es, n)

/-- A run of `n_dumpvars`: `buflen`, what it did to its buffer, and what the runs for nested tables did to theirs. -/
structure Dump where
  buflen : UInt16 := 0
  events : List Event := []
  inner : List (List Event) := []

/-- `buflen += nc_snprintf(N, buf + buflen, sizeof(buf) - buflen, ...)`. -/
def Dump.snprintf (d : Dump) (format : List Conv) : Dump :=
  let (es, len) := vsnprintf d.buflen.toNat (512 - d.buflen.toNat) 0 format
  { d with buflen := d.buflen + .ofNat len, events := d.events ++ es }

/-- `nsp_strcat(N, robj, buf, buflen); buflen = 0`. -/
def Dump.strcat (d : Dump) : Dump :=
  { d with buflen := 0, events := d.events ++ [.append d.buflen.toNat] }

/-- A run for a nested table, which has a buffer of its own. -/
def Dump.nest (d nested : Dump) : Dump := { d with inner := d.inner ++ nested.events :: nested.inner }

/-! ### The function -/

/-- The value of an entry that is no table. -/
inductive Leaf where
  | null
  | boolean (b : Bool)
  | number (q : Num)
  | string (b : List Byte)
  | other

/-- The entries from an object on; `hidden` tells that `NST_HIDDEN` or `NST_SYSTEM` is set. -/
inductive Entries where
  | nil
  | leaf (name : List Byte) (hidden : Bool) (v : Leaf) (next : Entries)
  | table (name : List Byte) (hidden : Bool) (f next : Entries)

/-- `d.table.f`. -/
def Entries.isNil : Entries → Bool
  | nil => true
  | _ => false

/-- `b`: the name is printed between brackets. -/
def bracketed (name : List Byte) : Bool :=
  ncIsdigit (name.headD 0) || name.any (fun c => !(ncIsalpha c || ncIsdigit c) && c != ch '_') || nIskeyword name != 0

/-- The calls of `nc_snprintf` in front of a value, `ent` of which are printed. -/
def leads (depth ent : Nat) (name : List Byte) : List (List Conv) :=
  (if ent ≠ 0 then [[.arg (bytes (if depth ≠ 0 then "," else "")), .text (bytes "\n")]] else []) ++
    if depth ≠ 0 then
      List.replicate depth [.text (bytes "\t")] ++
        [[.arg (bytes (if depth < 1 then "global " else "")), .arg (bytes (if bracketed name then "[\"" else "")),
          .arg name, .arg (bytes (if bracketed name then "\"]" else "")), .text (bytes " = ")]]
    else []

/-- Calls of `nc_snprintf` one after another. -/
def Dump.prints (d : Dump) (formats : List (List Conv)) : Dump := formats.foldl Dump.snprintf d

/-- `n_dumpvars`, from an object on. -/
def dumpvars (depth : Nat) : Entries → Nat → Dump → Dump
  | .nil, ent, d =>
      (if ent ≠ 0 then d.snprintf [.arg (bytes (if depth ≠ 0 then "\n" else ""))] else d).strcat
  | .leaf name hidden v next, ent, d =>
      let d := if 512 < d.buflen then d.strcat else d
      if hidden then dumpvars depth next ent d
      else
        match v with
        | .null | .other => dumpvars depth next ent d
        | .boolean b =>
            dumpvars depth next (ent + 1)
              ((d.prints (leads depth ent name)).snprintf [.arg (if b then bytes "true" else bytes "false")])
        | .number q =>
            dumpvars depth next (ent + 1) ((d.prints (leads depth ent name)).snprintf [.arg (nNtoa q true 6)])
        | .string _ =>
            let d := ((d.prints (leads depth ent name)).snprintf [.text (bytes "\"")]).strcat
            -- `n_escape` has a buffer of its own
            dumpvars depth next (ent + 1) (d.snprintf [.text (bytes "\"")])
  | .table name hidden f next, ent, d =>
      let d := if 512 < d.buflen then d.strcat else d
      if hidden ∨ name = bytes "_GLOBALS" then dumpvars depth next ent d
      else
        let d := (d.prints (leads depth ent name)).snprintf [.text (bytes "\x7b")]
        if f.isNil then dumpvars depth next (ent + 1) (d.snprintf [.text (bytes " \x7d")])
        else
          let d := (d.snprintf [.text (bytes "\n")]).strcat.nest (dumpvars (depth + 1) f 0 { })
          dumpvars depth next (ent + 1)
            ((d.prints (List.replicate depth [.text (bytes "\t")])).snprintf [.text (bytes "\x7d")])

/-! ### What the buffer is for -/

/-- The indices that were written since the last append. There are none if a byte was written behind the buffer, or one
was appended that was not written. -/
def track : List Event → List Nat → Option (List Nat)
  | [], w => some w
  | .write i _ :: es, w => if i < 512 then track es (i :: w) else none
  | .append n :: es, w => if ∀ j < n, j ∈ w then track es [] else none

/-- All writes are to the buffer, and all that is appended was written since the last append. -/
def Sound (es : List Event) : Prop := (track es []).isSome

instance (es : List Event) : Decidable (Sound es) := inferInstanceAs (Decidable ((track es []).isSome = true))

/-- The runs for a table and the ones nested in it use their buffers as they should. -/
structure Dump.Bounded (d : Dump) : Prop where
  own : Sound d.events
  inner : ∀ es ∈ d.inner, Sound es

/-- The length of the text in front of a value. -/
def leadLength (depth ent : Nat) (name : List Byte) : Nat :=
  (if ent = 0 then 0 else if depth = 0 then 1 else 2) +
    if depth = 0 then 0 else depth + (if bracketed name then 4 else 0) + name.length + 3

/-- The texts between two appends have at most 511 bytes; `n` are in the buffer. -/
def Fits (depth : Nat) : Entries → Nat → Nat → Prop
  | .nil, ent, n => n + (if ent = 0 ∨ depth = 0 then 0 else 1) ≤ 511
  | .leaf name hidden v next, ent, n =>
      if hidden then Fits depth next ent n
      else
        match v with
        | .null | .other => Fits depth next ent n
        | .boolean b => Fits depth next (ent + 1) (n + leadLength depth ent name + if b then 4 else 5)
        | .number q => Fits depth next (ent + 1) (n + leadLength depth ent name + (nNtoa q true 6).length)
        | .string _ => n + leadLength depth ent name + 1 ≤ 511 ∧ Fits depth next (ent + 1) 1
  | .table name hidden f next, ent, n =>
      if hidden ∨ name = bytes "_GLOBALS" then Fits depth next ent n
      else if f.isNil then Fits depth next (ent + 1) (n + leadLength depth ent name + 3)
      else n + leadLength depth ent name + 2 ≤ 511 ∧ Fits (depth + 1) f 0 0 ∧ Fits depth next (ent + 1) (depth + 1)

/-! ### Printing in bounds -/

section

variable {es fs : List Event} {w w' : List Nat} {i j n dest max len : Nat} {s : List Byte} {format : List Conv}

theorem track_append (es fs : List Event) (w : List Nat) : track (es ++ fs) w = (track es w).bind (track fs) := by
  induction es generalizing w with
  | nil => rfl
  | cons e es ih =>
      cases e with
      | write i c =>
          rw [List.cons_append, track, track]
          split_ifs
          · exact ih (i :: w)
          · rfl
      | append n =>
          rw [List.cons_append, track, track]
          split_ifs
          · exact ih []
          · rfl

/-- Writes in bounds are added to what was written. -/
def Writes (es : List Event) (i n : Nat) : Prop :=
  ∀ w, ∃ w', track es w = some w' ∧ (∀ j ∈ w, j ∈ w') ∧ ∀ j, i ≤ j → j < i + n → j ∈ w'

theorem Writes.append {m : Nat} (h : Writes es i m) (h' : Writes fs (i + m) n) : Writes (es ++ fs) i (m + n) := by
  intro w
  obtain ⟨w₁, h₁, hkeep₁, hnew₁⟩ := h w
  obtain ⟨w₂, h₂, hkeep₂, hnew₂⟩ := h' w₁
  refine ⟨w₂, by rw [track_append, h₁]; exact h₂, fun j hj => hkeep₂ j (hkeep₁ j hj), ?_⟩
  intro j hlo hhi
  by_cases hj : j < i + m
  · exact hkeep₂ j (hnew₁ j hlo hj)
  · exact hnew₂ j (by omega) (by omega)

theorem writes_in (h : i + s.length ≤ 512) : Writes (writes i s) i s.length := by
  induction s generalizing i with
  | nil => exact fun w => ⟨w, rfl, fun _ h => h, fun j hlo hhi => absurd hhi (by simpa using hlo)⟩
  | cons c s ih =>
      rw [List.length_cons] at h
      have hone : Writes [.write i c] i 1 := by
        refine fun w => ⟨i :: w, if_pos (by omega), fun j hj => List.mem_cons_of_mem i hj, ?_⟩
        intro j hlo hhi
        rw [show j = i by omega]
        exact List.mem_cons_self
      have hall := hone.append (ih (i := i + 1) (by omega))
      rwa [Nat.add_comm 1] at hall

/-- Fewer bytes are asked for than were written. -/
theorem Writes.mono {m : Nat} (h : Writes es i m) (hle : n ≤ m) : Writes es i n := by
  intro w
  obtain ⟨w', hw, hkeep, hnew⟩ := h w
  exact ⟨w', hw, hkeep, fun j hlo hhi => hnew j hlo (by omega)⟩

theorem strncpy_in {d : Nat} {room : Int} (hroom : (d : Int) + room = 512) (h : d + s.length < 512) :
    Writes (strncpy d s room) d s.length := by
  have hpos : 0 < room := by omega
  have htake : s.take (room - 1).toNat = s := List.take_of_length_le (by omega)
  unfold strncpy
  rw [if_pos hpos, htake]
  refine (writes_in (s := s ++ [0]) ?_).mono ?_
  · rw [List.length_append, List.length_singleton]
    omega
  · rw [List.length_append]
    exact Nat.le_add_right _ _

theorem vsnprintf_length {room : Int} : (vsnprintf dest room len format).2 = len + (printed format).length := by
  induction format generalizing len with
  | nil => rfl
  | cons c format ih =>
      rw [printed_cons, List.length_append, ← Nat.add_assoc]
      cases c with
      | text s => exact ih
      | arg s => exact ih

/-- A text that has room is written as it is. -/
theorem vsnprintf_in (len : Nat) (format : List Conv) {room : Int} (hroom : (dest : Int) + room = 512)
    (h : dest + len + (printed format).length < 512) :
    Writes (vsnprintf dest room len format).1 (dest + len) (printed format).length := by
  induction format generalizing len with
  | nil =>
      have hnul : dest + len + [(0 : Byte)].length ≤ 512 := h
      exact (writes_in hnul).mono (Nat.zero_le _)
  | cons c format ih =>
      rw [printed_cons, List.length_append] at h ⊢
      cases c with
      | text s =>
          have hrest := ih (len + s.length) (by rw [Conv.printed] at h; omega)
          rw [← Nat.add_assoc] at hrest
          exact (writes_in (by rw [Conv.printed] at h; omega)).append hrest
      | arg s =>
          have hrest := ih (len + s.length) (by rw [Conv.printed] at h; omega)
          rw [← Nat.add_assoc] at hrest
          refine Writes.append (strncpy_in ?_ ?_) hrest
          · push_cast
            omega
          · rw [Conv.printed] at h
            omega

/-- The NUL behind a text that has no room is written behind the buffer. -/
theorem vsnprintf_out {room : Int} (h : 512 ≤ dest + len + (printed format).length) (w : List Nat) :
    track (vsnprintf dest room len format).1 w = none := by
  induction format generalizing len w with
  | nil => exact if_neg (by simpa using h)
  | cons c format ih =>
      rw [printed_cons, List.length_append] at h
      have hrest : ∀ w, track (vsnprintf dest room (len + c.printed.length) format).1 w = none := ih (by omega)
      cases c with
      | text s =>
          show track (writes (dest + len) s ++ _) w = none
          rw [track_append]
          exact Option.bind_eq_none_iff.mpr fun w' _ => hrest w'
      | arg s =>
          show track (strncpy (dest + len) s (room - len) ++ _) w = none
          rw [track_append]
          exact Option.bind_eq_none_iff.mpr fun w' _ => hrest w'

end

/-! ### Runs -/

section

variable {d d' : Dump} {format : List Conv} {formats : List (List Conv)} {depth ent n : Nat} {name : List Byte}

/-- A run that was within its bounds so far, with at most 511 bytes in the buffer. -/
structure Dump.Good (d : Dump) : Prop where
  tracked : ∃ w, track d.events [] = some w ∧ ∀ j < d.buflen.toNat, j ∈ w
  short : d.buflen.toNat ≤ 511
  inner : ∀ es ∈ d.inner, Sound es

/-- A run that goes on from another. -/
structure Dump.Extends (d d' : Dump) : Prop where
  events : d.events <+: d'.events
  inner : d.inner <+: d'.inner

theorem Dump.Extends.refl (d : Dump) : d.Extends d := ⟨List.prefix_rfl, List.prefix_rfl⟩

theorem Dump.Extends.trans {d'' : Dump} (h : d.Extends d') (h' : d'.Extends d'') : d.Extends d'' :=
  ⟨h.events.trans h'.events, h.inner.trans h'.inner⟩

/-- What has left its bounds does not come back. -/
theorem Dump.Bounded.of_extends (h : d'.Bounded) (he : d.Extends d') : d.Bounded := by
  refine ⟨?_, fun es hes => h.inner es (he.inner.subset hes)⟩
  obtain ⟨es, hes⟩ := he.events
  have hown := h.own
  unfold Sound at hown ⊢
  rw [← hes, track_append] at hown
  cases htrack : track d.events [] with
  | none =>
      rw [htrack] at hown
      cases hown
  | some w => rfl

theorem Dump.Good.bounded (h : d.Good) : d.Bounded := by
  obtain ⟨w, hw, -⟩ := h.tracked
  exact ⟨by rw [Sound, hw]; rfl, h.inner⟩

theorem Dump.snprintf_extends (d : Dump) (format : List Conv) : d.Extends (d.snprintf format) :=
  ⟨List.prefix_append _ _, List.prefix_rfl⟩

theorem Dump.strcat_extends (d : Dump) : d.Extends d.strcat := ⟨List.prefix_append _ _, List.prefix_rfl⟩

theorem Dump.nest_extends (d nested : Dump) : d.Extends (d.nest nested) := ⟨List.prefix_rfl, List.prefix_append _ _⟩

theorem Dump.prints_extends (d : Dump) (formats : List (List Conv)) : d.Extends (d.prints formats) := by
  induction formats generalizing d with
  | nil => exact .refl d
  | cons format formats ih => exact (d.snprintf_extends format).trans (ih _)

/-- The part of a round with a nested table from its append on. -/
theorem Dump.nested_extends (d nested : Dump) (formats : List (List Conv)) :
    d.Extends ((d.strcat.nest nested).prints formats) :=
  (d.strcat_extends.trans (d.strcat.nest_extends nested)).trans (Dump.prints_extends _ formats)

/-- A call of `nc_snprintf`: its text has room, or the run leaves its bounds. -/
theorem Dump.Good.snprintf (h : d.Good) (format : List Conv) :
    (d.buflen.toNat + (printed format).length ≤ 511 ∧ (d.snprintf format).Good ∧
      (d.snprintf format).buflen.toNat = d.buflen.toNat + (printed format).length) ∨
    511 < d.buflen.toNat + (printed format).length ∧ ¬ (d.snprintf format).Bounded := by
  obtain ⟨⟨w, hw, hmem⟩, hshort, hinner⟩ := h
  by_cases hfits : d.buflen.toNat + (printed format).length ≤ 511
  · refine .inl ⟨hfits, ?_⟩
    have hlen : (d.snprintf format).buflen.toNat = d.buflen.toNat + (printed format).length := by
      show (d.buflen + UInt16.ofNat (vsnprintf _ _ 0 format).2).toNat = _
      rw [vsnprintf_length, Nat.zero_add, UInt16.toNat_add, UInt16.toNat_ofNat']
      omega
    refine ⟨⟨?_, ?_, hinner⟩, hlen⟩
    · have hroom : (d.buflen.toNat : Int) + (512 - d.buflen.toNat) = 512 := by omega
      obtain ⟨w', hw', hkeep, hnew⟩ := vsnprintf_in 0 format hroom (by omega) w
      refine ⟨w', ?_, ?_⟩
      · show track (d.events ++ _) [] = _
        rw [track_append, hw]
        exact hw'
      · rw [hlen]
        intro j hj
        by_cases hold : j < d.buflen.toNat
        · exact hkeep j (hmem j hold)
        · exact hnew j (by omega) (by omega)
    · rw [hlen]
      exact hfits
  · refine .inr ⟨not_le.mp hfits, ?_⟩
    rintro ⟨hown, -⟩
    have hout : track (d.snprintf format).events [] = none := by
      show track (d.events ++ _) [] = _
      rw [track_append, hw]
      exact vsnprintf_out (by omega) w
    rw [Sound, hout] at hown
    cases hown

theorem Dump.Good.strcat (h : d.Good) : d.strcat.Good := by
  obtain ⟨⟨w, hw, hmem⟩, -, hinner⟩ := h
  refine ⟨⟨[], ?_, fun j hj => absurd hj (Nat.not_lt_zero j)⟩, Nat.zero_le _, hinner⟩
  show track (d.events ++ _) [] = _
  rw [track_append, hw]
  exact if_pos hmem

theorem Dump.Good.nest {nested : Dump} (h : d.Good) (hnested : nested.Bounded) : (d.nest nested).Good := by
  refine ⟨h.tracked, h.short, ?_⟩
  intro es hes
  rcases List.mem_append.mp hes with hes | hes
  · exact h.inner es hes
  · rcases List.mem_cons.mp hes with rfl | hes
    · exact hnested.own
    · exact hnested.inner es hes

theorem Dump.Bounded.nested {nested : Dump} (h : (d.nest nested).Bounded) : nested.Bounded :=
  ⟨h.inner _ (List.mem_append_right _ List.mem_cons_self),
    fun es hes => h.inner es (List.mem_append_right _ (List.mem_cons_of_mem _ hes))⟩

/-- The length of what the calls print. -/
def lengths (formats : List (List Conv)) : Nat := (formats.map fun format => (printed format).length).sum

/-- Calls of `nc_snprintf`: their texts have room, or the run leaves its bounds. -/
theorem Dump.Good.prints (h : d.Good) (formats : List (List Conv)) :
    (d.buflen.toNat + lengths formats ≤ 511 ∧ (d.prints formats).Good ∧
      (d.prints formats).buflen.toNat = d.buflen.toNat + lengths formats) ∨
    511 < d.buflen.toNat + lengths formats ∧ ¬ (d.prints formats).Bounded := by
  induction formats generalizing d with
  | nil => exact .inl ⟨h.short, h, rfl⟩
  | cons format formats ih =>
      have hsum : lengths (format :: formats) = (printed format).length + lengths formats := List.sum_cons
      rw [hsum, ← Nat.add_assoc]
      rcases h.snprintf format with ⟨hfits, hgood, hlen⟩ | ⟨hlong, hout⟩
      · rw [← hlen]
        exact ih hgood
      · refine .inr ⟨by omega, fun hb => hout (hb.of_extends ?_)⟩
        exact (d.snprintf format).prints_extends formats

theorem lengths_append (fs gs : List (List Conv)) : lengths (fs ++ gs) = lengths fs + lengths gs := by
  rw [lengths, List.map_append, List.sum_append]
  rfl

theorem lengths_tabs (depth : Nat) : lengths (List.replicate depth [.text (bytes "\t")]) = depth := by
  induction depth with
  | zero => rfl
  | succ depth ih =>
      rw [List.replicate_succ']
      rw [lengths_append, ih]
      rfl

theorem lengths_leads : lengths (leads depth ent name) = leadLength depth ent name := by
  unfold leads leadLength
  rw [lengths_append]
  congr 1
  · by_cases hent : ent = 0
    · rw [if_neg (not_not.mpr hent), if_pos hent]
      rfl
    · rw [if_pos hent, if_neg hent]
      by_cases hdepth : depth = 0
      · rw [if_neg (not_not.mpr hdepth), if_pos hdepth]
        rfl
      · rw [if_pos hdepth, if_neg hdepth]
        rfl
  · by_cases hdepth : depth = 0
    · rw [if_neg (not_not.mpr hdepth), if_pos hdepth]
      rfl
    · rw [if_pos hdepth, if_neg hdepth, lengths_append, lengths_tabs, if_neg (by omega)]
      have hbrackets : (bytes "[\"").length = 2 ∧ (bytes "\"]").length = 2 ∧ (bytes "").length = 0 ∧
          (bytes " = ").length = 3 := by decide
      obtain ⟨hopen, hclose, hempty, hequals⟩ := hbrackets
      cases bracketed name
      all_goals
        simp [lengths, Conv.printed, hopen, hclose, hempty, hequals]
        omega

/-! ### Whole tables -/

theorem Dump.snprintf_prints (d : Dump) (formats : List (List Conv)) (format : List Conv) :
    (d.prints formats).snprintf format = d.prints (formats ++ [format]) := by
  unfold Dump.prints
  rw [List.foldl_append]
  rfl

/-- The length test at the head of the loop. -/
theorem flush_extends (d : Dump) : d.Extends (if 512 < d.buflen then d.strcat else d) := by
  split_ifs
  · exact d.strcat_extends
  · exact .refl d

theorem dumpvars_extends (es : Entries) : ∀ depth ent (d : Dump), d.Extends (dumpvars depth es ent d) := by
  induction es with
  | nil =>
      intro depth ent d
      unfold dumpvars
      by_cases hent : ent ≠ 0
      · rw [if_pos hent]
        exact (d.snprintf_extends _).trans (Dump.strcat_extends _)
      · rw [if_neg hent]
        exact d.strcat_extends
  | leaf name hidden v next ih =>
      intro depth ent d
      unfold dumpvars
      refine (flush_extends d).trans ?_
      generalize (if 512 < d.buflen then d.strcat else d) = d
      dsimp only
      split_ifs
      · exact ih depth ent d
      · cases v with
        | null => exact ih depth ent d
        | other => exact ih depth ent d
        | boolean b =>
            dsimp only
            rw [Dump.snprintf_prints]
            exact (d.prints_extends _).trans (ih ..)
        | number q =>
            dsimp only
            rw [Dump.snprintf_prints]
            exact (d.prints_extends _).trans (ih ..)
        | string b =>
            dsimp only
            rw [Dump.snprintf_prints]
            have hstrcat := (d.prints (leads depth ent name ++ [[.text (bytes "\"")]])).strcat_extends
            exact (((d.prints_extends _).trans hstrcat).trans (Dump.snprintf_extends _ _)).trans (ih ..)
  | table name hidden f next ihf ih =>
      intro depth ent d
      unfold dumpvars
      refine (flush_extends d).trans ?_
      generalize (if 512 < d.buflen then d.strcat else d) = d
      dsimp only
      rw [Dump.snprintf_prints, Dump.snprintf_prints, Dump.snprintf_prints, Dump.snprintf_prints]
      split_ifs
      · exact ih depth ent d
      · exact (d.prints_extends _).trans (ih ..)
      · exact ((d.prints_extends _).trans (Dump.nested_extends _ _ _)).trans (ih ..)

/-- A text that is too long in the buffer does not fit any more. -/
theorem Fits.le {es : Entries} (h : Fits depth es ent n) : n ≤ 511 := by
  induction es generalizing ent n with
  | nil => exact le_trans (Nat.le_add_right _ _) h
  | leaf name hidden v next ih =>
      unfold Fits at h
      split_ifs at h
      · exact ih h
      · cases v with
        | null => exact ih h
        | other => exact ih h
        | boolean b => exact le_trans (Nat.le_add_right _ _) ((Nat.add_assoc ..).symm.le.trans (ih h))
        | number q => exact le_trans (Nat.le_add_right _ _) ((Nat.add_assoc ..).symm.le.trans (ih h))
        | string b =>
            have hle := h.1
            omega
  | table name hidden f next ihf ih =>
      unfold Fits at h
      split_ifs at h
      · exact ih h
      · have hle := ih h
        omega
      · have hle := h.1
        omega

/-- What was printed for an entry and what follows it. -/
theorem Dump.Good.next {next : Entries} (h : d.Good) (formats : List (List Conv))
    (ih : ∀ d : Dump, d.Good → ((dumpvars depth next ent d).Bounded ↔ Fits depth next ent d.buflen.toNat)) :
    (dumpvars depth next ent (d.prints formats)).Bounded ↔ Fits depth next ent (d.buflen.toNat + lengths formats) := by
  rcases h.prints formats with ⟨-, hgood, hlen⟩ | ⟨hlong, hout⟩
  · rw [ih _ hgood, hlen]
  · refine iff_of_false (fun hb => hout (hb.of_extends (dumpvars_extends next depth ent _))) ?_
    exact fun hfits => absurd hfits.le (not_le.mpr hlong)

/-- A run that begins. -/
theorem good_new : ({ } : Dump).Good := ⟨⟨[], rfl, fun j hj => absurd hj (Nat.not_lt_zero j)⟩, by decide, by simp⟩

/-- From a run within its bounds, `n_dumpvars` keeps to them exactly where the texts fit. -/
theorem dumpvars_bounded_iff (es : Entries) (h : d.Good) :
    (dumpvars depth es ent d).Bounded ↔ Fits depth es ent d.buflen.toNat := by
  have hflush : ∀ {d : Dump}, d.Good → (if 512 < d.buflen then d.strcat else d) = d := by
    intro d h
    refine if_neg ?_
    have hshort := h.short
    rw [UInt16.lt_iff_toNat_lt]
    show ¬ 512 < d.buflen.toNat
    omega
  induction es generalizing depth ent d with
  | nil =>
      unfold dumpvars Fits
      by_cases hent : ent = 0
      · rw [if_neg (not_not.mpr hent), if_pos (.inl hent)]
        exact iff_of_true h.strcat.bounded h.short
      · rw [if_pos hent]
        have hlength : (printed [.arg (bytes (if depth ≠ 0 then "\n" else ""))]).length =
            if ent = 0 ∨ depth = 0 then 0 else 1 := by
          by_cases hdepth : depth = 0
          · rw [if_neg (not_not.mpr hdepth), if_pos (.inr hdepth)]
            rfl
          · rw [if_pos hdepth, if_neg (not_or.mpr ⟨hent, hdepth⟩)]
            rfl
        rw [← hlength]
        rcases h.snprintf [.arg (bytes (if depth ≠ 0 then "\n" else ""))] with ⟨hfits, hgood, -⟩ | ⟨hlong, hout⟩
        · exact iff_of_true hgood.strcat.bounded hfits
        · exact iff_of_false (fun hb => hout (hb.of_extends (Dump.strcat_extends _))) (not_le.mpr hlong)
  | leaf name hidden v next ih =>
      unfold dumpvars Fits
      rw [hflush h]
      dsimp only
      split_ifs
      · exact ih h
      · cases v with
        | null => exact ih h
        | other => exact ih h
        | boolean b =>
            dsimp only
            rw [Dump.snprintf_prints, h.next _ fun d hd => ih hd, lengths_append, lengths_leads, ← Nat.add_assoc]
            cases b <;> rfl
        | number q =>
            dsimp only
            rw [Dump.snprintf_prints, h.next _ fun d hd => ih hd, lengths_append, lengths_leads, ← Nat.add_assoc]
            simp [lengths, Conv.printed]
        | string b =>
            dsimp only
            rw [Dump.snprintf_prints]
            have hlength : lengths (leads depth ent name ++ [[.text (bytes "\"")]]) =
                leadLength depth ent name + 1 := by
              rw [lengths_append, lengths_leads]
              rfl
            rcases h.prints (leads depth ent name ++ [[.text (bytes "\"")]]) with ⟨hfits, hgood, -⟩ | ⟨hlong, hout⟩
            · rw [hlength, ← Nat.add_assoc] at hfits
              have hentry : ∀ d : Dump, d.Good → ((dumpvars depth next (ent + 1) d).Bounded ↔
                  Fits depth next (ent + 1) d.buflen.toNat) := fun d hd => ih hd
              have hnext := hgood.strcat.next [[.text (bytes "\"")]] hentry
              exact hnext.trans ⟨fun h => ⟨hfits, h⟩, fun h => h.2⟩
            · rw [hlength, ← Nat.add_assoc] at hlong
              refine iff_of_false (fun hb => hout (hb.of_extends ?_)) fun hfits => absurd hfits.1 (not_le.mpr hlong)
              exact ((Dump.strcat_extends _).trans (Dump.snprintf_extends _ _)).trans (dumpvars_extends ..)
  | table name hidden f next ihf ih =>
      unfold dumpvars Fits
      rw [hflush h]
      dsimp only
      rw [Dump.snprintf_prints, Dump.snprintf_prints, Dump.snprintf_prints, Dump.snprintf_prints]
      split_ifs with hskip hnil
      · exact ih h
      · rw [h.next _ fun d hd => ih hd, lengths_append, lengths_append, lengths_leads]
        rfl
      · have hlength : lengths (leads depth ent name ++ [[.text (bytes "\x7b")]] ++ [[.text (bytes "\n")]]) =
            leadLength depth ent name + 2 := by
          rw [lengths_append, lengths_append, lengths_leads]
          rfl
        rcases h.prints (leads depth ent name ++ [[.text (bytes "\x7b")]] ++ [[.text (bytes "\n")]]) with
          ⟨hfits, hgood, -⟩ | ⟨hlong, hout⟩
        · rw [hlength, ← Nat.add_assoc] at hfits
          have hnested : (dumpvars (depth + 1) f 0 {}).Bounded ↔ Fits (depth + 1) f 0 0 := ihf good_new
          by_cases hf : Fits (depth + 1) f 0 0
          · have hentry : ∀ d : Dump, d.Good → ((dumpvars depth next (ent + 1) d).Bounded ↔
                Fits depth next (ent + 1) d.buflen.toNat) := fun d hd => ih hd
            have hnext := (hgood.strcat.nest (hnested.mpr hf)).next
              (List.replicate depth [.text (bytes "\t")] ++ [[.text (bytes "\x7d")]]) hentry
            rw [lengths_append, lengths_tabs] at hnext
            have hlen : UInt16.toNat 0 + (depth + 1) = depth + 1 := Nat.zero_add _
            refine hnext.trans ?_
            show Fits depth next (ent + 1) (UInt16.toNat 0 + (depth + 1)) ↔ _
            rw [hlen]
            exact ⟨fun h => ⟨hfits, hf, h⟩, fun h => h.2.2⟩
          · refine iff_of_false (fun hb => hf (hnested.mp ?_)) fun h => hf h.2.1
            exact (hb.of_extends ((Dump.prints_extends _ _).trans (dumpvars_extends ..))).nested
        · rw [hlength, ← Nat.add_assoc] at hlong
          refine iff_of_false (fun hb => hout (hb.of_extends ?_)) fun hfits => absurd hfits.1 (not_le.mpr hlong)
          exact (Dump.nested_extends _ _ _).trans (dumpvars_extends ..)

end

/-- `n_dumpvars` keeps to its buffers, and to what it wrote into them, exactly where the texts between two appends
have at most 511 bytes. -/
theorem serialize_bounded_iff (depth : Nat) (es : Entries) : (dumpvars depth es 0 { }).Bounded ↔ Fits depth es 0 0 :=
  dumpvars_bounded_iff es good_new

/-- A table of truth values. -/
def flags : Nat → Entries
  | 0 => .nil
  | n + 1 => .leaf (natDigits n) false (.boolean true) (flags n)

theorem flags_le {k depth ent n : Nat} (h : Fits (depth + 1) (flags k) ent n) : n + 8 * k ≤ 511 := by
  induction k generalizing ent n with
  | zero => exact h.le
  | succ k ih =>
      have hle := ih h
      have hlead : 4 ≤ leadLength (depth + 1) ent (natDigits k) := by
        unfold leadLength
        rw [if_neg (Nat.succ_ne_zero depth), if_neg (Nat.succ_ne_zero depth)]
        omega
      rw [if_pos rfl] at hle
      omega

/-- A table of 64 truth values has a longer text than the buffer takes. -/
theorem not_serialize_bounded : ¬ ∀ depth es, (dumpvars depth es 0 { }).Bounded := by
  intro h
  have hfits := (dumpvars_bounded_iff _ good_new).mp (h 0 (.table (bytes "1") false (flags 64) .nil))
  unfold Fits at hfits
  rw [if_neg (by decide), if_neg (show ¬ (flags 64).isNil = true from Bool.noConfusion)] at hfits
  have hle : 0 + 8 * 64 ≤ 511 := flags_le hfits.2.1
  exact absurd hle (by decide)

end NullG.Nsp.Dumpvars
