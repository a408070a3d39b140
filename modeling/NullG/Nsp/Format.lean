/-
Formats (`nl_printf` of `libn.c`, `nc_vsnprintf` of `libc.c`).

Both go through a format in the same way: behind a `%` they skip a flag, a width and a precision, look at the byte
that is there, and go on behind it. A pointer is the memory from it on, which ends with the NUL of the format, so a
pointer behind the NUL has nothing to read.

A format is read to its NUL and no further exactly when it does not end in the middle of a conversion
(`scans_iff`).
-/

import NullG.Lib.Except
import NullG.Lib.Munch
import NullG.Libs.Printf
import NullG.Nsp.Value

namespace NullG.Nsp

open NullG.Lib NullG.Libs

/-! ### The scan -/

/-- `if (*s == '-') s++;` -/
def skipFlag (s : List Byte) : Except Fault (List Byte) := do
  if (← deref s) = ch '-' then return s.tail else return s

/-- `if (nc_isdigit(*s)) { while (nc_isdigit(*s)) s++; }` -/
def skipDigits : List Byte → Except Fault (List Byte)
  | [] => .error .outOfBounds
  | c :: s => if ncIsdigit c then skipDigits s else .ok (c :: s)

/-- The flags, the width and the precision of a conversion. -/
def skipSpec (s : List Byte) : Except Fault (List Byte) := do
  let s ← skipFlag s
  let s ← skipDigits s
  if (← deref s) = ch '.' then skipDigits s.tail else return s

/-- What a loop over a format does with a byte, at a `%`, and with the byte that ends a conversion. -/
structure Printer (σ : Type) where
  text : Byte → σ → σ
  percent : σ → σ
  conv : Byte → σ → σ

/-- The loop over a format. -/
def scanFormat {σ : Type} (P : Printer σ) : Nat → Bool → List Byte → σ → Except Fault σ
  | 0, _, _, _ => .error .stuck
  | n + 1, esc, s, x => do
      let c ← deref s
      if c = 0 then return x
      else if !esc then
        if c = ch '%' then scanFormat P n true s.tail (P.percent x)
        else scanFormat P n false s.tail (P.text c x)
      else
        let s ← skipSpec s
        let c ← deref s
        scanFormat P n false s.tail (P.conv c x)

/-- The digits that `n_ntoa` writes to a base. -/
def nchars (base n : Nat) : List Byte := (Nat.toDigits base n).map fun c => ch c.toUpper

/-- `n_ntoa(N, tmp, num, base, 0)`, to a base that is not ten. -/
def nNtoaBase (num : Num) (base : Nat) : List Byte :=
  let n := Num.trunc num
  if n.tmod base < 0 then bytes "nan" else if n < 0 then [ch '0'] else nchars base n.toNat

/-! ### `nc_vsnprintf` -/

/-- An argument, as each type that `va_arg` may take it for. -/
structure VaArg where
  int : Int := 0
  uint : Nat := 0
  double : Num := 0
  str : Option (List Byte) := none

/-- What a conversion writes; `%c` writes nothing. -/
def vaConv (c : Byte) (ap : VaArg) : List Conv :=
  if c = ch 'c' then []
  else if c = ch 'd' ∨ c = ch 'i' then [.arg (nNtoa ap.int true 0)]
  else if c = ch 'o' then [.arg (nNtoaBase ap.int 8)]
  else if c = ch 'u' then [.arg (nNtoa ap.uint false 0)]
  else if c = ch 'x' then [.arg (nNtoaBase ap.uint 16)]
  else if c = ch 'f' then [.arg (nNtoa ap.double true 6)]
  else if c = ch 's' then [.arg ((ap.str.map cstr).getD (bytes "(null)"))]
  else if c = ch '%' then [.arg (bytes "%")]
  else [.arg (bytes "orphan %")]

/-- A conversion that takes an argument. -/
def takesArg (c : Byte) : Bool := (bytes "cdiouxfs").contains c

/-- The writes of `nc_vsnprintf`, and how many arguments were taken. -/
def vaPrinter (ap : Nat → VaArg) : Printer (List Conv × Nat) where
  text c x := (x.1 ++ [.text [c]], x.2)
  percent x := x
  conv c x := (x.1 ++ vaConv c (ap x.2), if takesArg c then x.2 + 1 else x.2)

/-- The writes of `nc_vsnprintf` for a format and its arguments. -/
def vaFormat (format : List Byte) (ap : Nat → VaArg) : Except Fault (List Conv) := do
  let x ← scanFormat (vaPrinter ap) (format.length + 1) false (format ++ [0]) ([], 0)
  return x.1

/-! ### `nl_printf` -/

/-- An argument: its `nsp_tonum` and its `nsp_tostr`. -/
structure FmtArg where
  num : Num
  str : List Byte

/-- `cobj` behind the last argument is NULL. -/
def nullArg : FmtArg := ⟨0, bytes "null"⟩

/-- What a conversion appends. -/
def nlConv (c : Byte) (cobj : FmtArg) : List Byte :=
  if c = ch 'd' ∨ c = ch 'i' then nNtoa cobj.num true 0
  else if c = ch 'o' then nNtoaBase cobj.num 8
  else if c = ch 'u' then nNtoa cobj.num false 0
  else if c = ch 'x' then nNtoaBase cobj.num 16
  else if c = ch 'f' then nNtoa cobj.num true 6
  else if c = ch 's' then cstr cobj.str
  else if c = ch '%' then bytes "%"
  else bytes "orphan %"

/-- `N->r`, the bytes from `ss` to `s`, and the arguments from `cobj` on. -/
structure NlPrint where
  r : List Byte := []
  ss : List Byte := []
  cobj : List FmtArg

/-- The loop of `nl_printf`. -/
def nlPrinter : Printer NlPrint where
  text c x := { x with ss := x.ss ++ [c] }
  percent x := { x with r := x.r ++ x.ss, ss := [ch '%'] }
  conv c x := {
    r := x.r ++ nlConv c (x.cobj.headD nullArg)
    ss := []
    cobj := if c ≠ ch '%' then x.cobj.tail else x.cobj }

/-- The text that `nl_printf` makes of a format and its arguments. -/
def nlPrintf (format : List Byte) (args : List FmtArg) : Except Fault (List Byte) := do
  let x ← scanFormat nlPrinter (format.length + 1) false (format ++ [0]) { cobj := args }
  return x.r ++ x.ss

/-! ### Conversions -/

/-- How far the part of a conversion in front of its last byte was read. -/
inductive Spec where
  | flag
  | width
  | precision

/-- What may stand there: a minus, digits, a dot, digits. -/
def Spec.next : Spec → Byte → Option Spec
  | .flag, c =>
      if c = ch '-' then some .width
      else if ncIsdigit c then some .width
      else if c = ch '.' then some .precision
      else none
  | .width, c => if ncIsdigit c then some .width else if c = ch '.' then some .precision else none
  | .precision, c => if ncIsdigit c then some .precision else none

/-- A flag, a width and a precision, or the beginning of one. -/
def IsSpec (w : List Byte) : Prop := (Munch.read Spec.next .flag w).isSome

instance (w : List Byte) : Decidable (IsSpec w) :=
  inferInstanceAs (Decidable ((Munch.read Spec.next .flag w).isSome = true))

/-- Bytes and whole conversions. -/
inductive Whole : List Byte → Prop where
  | nil : Whole []
  | byte {c : Byte} {f : List Byte} : c ≠ ch '%' → Whole f → Whole (c :: f)
  | conv {w : List Byte} {c : Byte} {f : List Byte} : IsSpec w → ¬ IsSpec (w ++ [c]) → Whole f →
      Whole (ch '%' :: (w ++ c :: f))

/-- A format that ends in a conversion, behind its flag, width or precision. -/
def EndsInside (f : List Byte) : Prop := ∃ g w, Whole g ∧ IsSpec w ∧ w ≠ [] ∧ f = g ++ ch '%' :: w

section

variable {f g s w : List Byte} {c : Byte}

theorem isSpec_iff : IsSpec w ↔ ∃ q, Munch.read Spec.next .flag w = some q := Option.isSome_iff_exists

theorem isSpec_snoc {q : Spec} (h : Munch.read Spec.next .flag w = some q) :
    ¬ IsSpec (w ++ [c]) ↔ Spec.next q c = none := by
  rw [isSpec_iff, Munch.read_append, h]
  show (¬ ∃ q', (Spec.next q c).bind some = some q') ↔ _
  cases Spec.next q c <;> simp

/-- Behind a `%` stands a part of a conversion, and nothing or its last byte. -/
theorem spec_cases (s : List Byte) : IsSpec s ∨ ∃ w c f, s = w ++ c :: f ∧ IsSpec w ∧ ¬ IsSpec (w ++ [c]) := by
  obtain ⟨w, q, hs, hread, hstop⟩ := Munch.munch_spec Spec.next .flag s
  cases hrest : Munch.munch Spec.next .flag s with
  | nil =>
      rw [hrest, List.append_nil] at hs
      rw [hs]
      exact .inl (isSpec_iff.mpr ⟨q, hread⟩)
  | cons c f =>
      rw [hrest] at hs hstop
      exact .inr ⟨w, c, f, hs, isSpec_iff.mpr ⟨q, hread⟩, (isSpec_snoc hread).mpr (hstop c rfl)⟩

/-- The last byte of a conversion is at one place only. -/
theorem spec_unique {w' f' : List Byte} {c' : Byte} (heq : w ++ c :: f = w' ++ c' :: f') (hw : IsSpec w)
    (hc : ¬ IsSpec (w ++ [c])) (hw' : IsSpec w') (hc' : ¬ IsSpec (w' ++ [c'])) : w = w' ∧ c = c' ∧ f = f' := by
  obtain ⟨q, hread⟩ := isSpec_iff.mp hw
  obtain ⟨q', hread'⟩ := isSpec_iff.mp hw'
  have hnext := (isSpec_snoc hread).mp hc
  have hnext' := (isSpec_snoc hread').mp hc'
  obtain ⟨hword, hrest⟩ := Munch.munch_unique heq hread hread' (by simpa using hnext) (by simpa using hnext')
  exact ⟨hword, (List.cons.inj hrest).1, (List.cons.inj hrest).2⟩

theorem spec_whole_ne (hw : IsSpec w) {w' : List Byte} (hw' : IsSpec w') (hc : ¬ IsSpec (w' ++ [c])) :
    w ≠ w' ++ c :: f := by
  rintro rfl
  obtain ⟨q, hread⟩ := isSpec_iff.mp hw
  obtain ⟨q', hread'⟩ := isSpec_iff.mp hw'
  rw [Munch.read_append, hread'] at hread
  have hnext := (isSpec_snoc hread').mp hc
  rw [Option.bind_some, Munch.read_cons, hnext] at hread
  cases hread

theorem not_endsInside_nil : ¬ EndsInside [] := by
  rintro ⟨g, w, -, -, -, h⟩
  cases g <;> cases h

theorem endsInside_byte (hc : c ≠ ch '%') : EndsInside (c :: f) ↔ EndsInside f := by
  constructor
  · rintro ⟨g, w, hg, hw, hne, h⟩
    cases hg with
    | nil => exact absurd (List.cons.inj h).1 hc
    | byte _ hg => exact ⟨_, w, hg, hw, hne, (List.cons.inj h).2⟩
    | conv _ _ _ => exact absurd (List.cons.inj h).1 hc
  · rintro ⟨g, w, hg, hw, hne, rfl⟩
    exact ⟨c :: g, w, .byte hc hg, hw, hne, rfl⟩

theorem endsInside_spec (hw : IsSpec w) : EndsInside (ch '%' :: w) ↔ w ≠ [] := by
  constructor
  · rintro ⟨g, w', hg, hw', hne, h⟩
    cases hg with
    | nil => exact (List.cons.inj h).2 ▸ hne
    | byte hc _ => exact absurd (List.cons.inj h).1.symm hc
    | @conv w₁ c₁ g₁ hspec hend _ =>
        have htail : w = w₁ ++ c₁ :: (g₁ ++ ch '%' :: w') := by simpa using h
        exact absurd htail (spec_whole_ne hw hspec hend)
  · intro hne
    exact ⟨[], w, .nil, hw, hne, rfl⟩

theorem endsInside_conv (hw : IsSpec w) (hc : ¬ IsSpec (w ++ [c])) :
    EndsInside (ch '%' :: (w ++ c :: f)) ↔ EndsInside f := by
  constructor
  · rintro ⟨g, w', hg, hw', hne, h⟩
    cases hg with
    | nil => exact absurd (List.cons.inj h).2.symm (spec_whole_ne hw' hw hc)
    | byte hne' _ => exact absurd (List.cons.inj h).1.symm hne'
    | @conv w₁ c₁ g₁ hspec hend hg =>
        have htail : w ++ c :: f = w₁ ++ c₁ :: (g₁ ++ ch '%' :: w') := by simpa using h
        obtain ⟨-, -, hrest⟩ := spec_unique htail hw hc hspec hend
        exact ⟨_, w', hg, hw', hne, hrest⟩
  · rintro ⟨g, w', hg, hw', hne, rfl⟩
    refine ⟨ch '%' :: (w ++ c :: g), w', .conv hw hc hg, hw', hne, ?_⟩
    rw [List.cons_append, List.append_assoc, List.cons_append]

/-! ### What the scan reads -/

theorem skipDigits_run (s : List Byte) :
    skipDigits (s ++ [0]) = .ok (s.dropWhile ncIsdigit ++ [0]) := by
  induction s with
  | nil => rfl
  | cons c s ih =>
      rw [List.cons_append, skipDigits, List.dropWhile_cons]
      split
      · exact ih
      · rfl

theorem munch_precision (s : List Byte) : Munch.munch Spec.next .precision s = s.dropWhile ncIsdigit := by
  induction s with
  | nil => rfl
  | cons c s ih =>
      rw [List.dropWhile_cons]
      split
      · rename_i hc
        rw [Munch.munch_cons_some (if_pos hc), ih]
      · rename_i hc
        exact Munch.munch_cons_none (if_neg hc)

/-- Behind the width. -/
theorem skipPrecision_run (s : List Byte) :
    (skipDigits (s ++ [0]) >>= fun s => do
      if (← deref s) = ch '.' then skipDigits s.tail else return s) =
      .ok (Munch.munch Spec.next .width s ++ [0]) := by
  induction s with
  | nil => rfl
  | cons c s ih =>
      rw [List.cons_append, skipDigits]
      by_cases hc : ncIsdigit c = true
      · rw [if_pos hc, ih, Munch.munch_cons_some (if_pos hc)]
      · rw [if_neg hc, ok_bind, deref, ok_bind, List.tail_cons]
        by_cases hdot : c = ch '.'
        · rw [if_pos hdot, skipDigits_run,
            Munch.munch_cons_some (show Spec.next .width c = some .precision by rw [Spec.next, if_neg hc, if_pos hdot]),
            munch_precision]
        · rw [if_neg hdot, Munch.munch_cons_none (by rw [Spec.next, if_neg hc, if_neg hdot])]
          rfl

/-- The scan of a conversion stops behind the longest part that may stand there. -/
theorem skipSpec_run (s : List Byte) : skipSpec (s ++ [0]) = .ok (Munch.munch Spec.next .flag s ++ [0]) := by
  have hwidth : ∀ s, (do
      let s ← skipDigits (s ++ [0])
      if (← deref s) = ch '.' then skipDigits s.tail else return s : Except Fault (List Byte)) =
      .ok (Munch.munch Spec.next .width s ++ [0]) := skipPrecision_run
  unfold skipSpec skipFlag
  cases s with
  | nil => rfl
  | cons c s =>
      rw [List.cons_append, deref, ok_bind, List.tail_cons]
      by_cases hminus : c = ch '-'
      · rw [if_pos hminus, Munch.munch_cons_some (if_pos hminus)]
        exact hwidth s
      · rw [if_neg hminus]
        refine (hwidth (c :: s)).trans ?_
        have hnext : Spec.next .flag c = Spec.next .width c := by
          rw [Spec.next, if_neg hminus, Spec.next]
        unfold Munch.munch
        rw [hnext]

theorem skipSpec_conv (hw : IsSpec w) (hc : ¬ IsSpec (w ++ [c])) :
    skipSpec (w ++ c :: f ++ [0]) = .ok (c :: f ++ [0]) := by
  obtain ⟨q, hread⟩ := isSpec_iff.mp hw
  rw [skipSpec_run, Munch.munch_append hread (by simpa using (isSpec_snoc hread).mp hc)]

theorem skipSpec_spec (hw : IsSpec w) : skipSpec (w ++ [0]) = .ok [0] := by
  obtain ⟨q, hread⟩ := isSpec_iff.mp hw
  have hend := Munch.munch_append (r := []) hread (by simp)
  rw [List.append_nil] at hend
  rw [skipSpec_run, hend, List.nil_append]

/-! ### The loop -/

section

variable {σ : Type} (P : Printer σ) {n : Nat} {x : σ}

theorem scanFormat_byte (h0 : c ≠ 0) (hc : c ≠ ch '%') :
    scanFormat P (n + 1) false (c :: f ++ [0]) x = scanFormat P n false (f ++ [0]) (P.text c x) := by
  rw [List.cons_append, scanFormat, deref, ok_bind, if_neg h0, Bool.not_false, if_pos rfl, if_neg hc, List.tail_cons]

theorem scanFormat_percent :
    scanFormat P (n + 1) false (ch '%' :: f ++ [0]) x = scanFormat P n true (f ++ [0]) (P.percent x) := by
  rw [List.cons_append, scanFormat, deref, ok_bind, if_neg (by decide), Bool.not_false, if_pos rfl, if_pos rfl,
    List.tail_cons]

theorem scanFormat_end (esc : Bool) : scanFormat P (n + 1) esc [0] x = .ok x := by
  rw [scanFormat, deref, ok_bind, if_pos rfl]
  rfl

theorem scanFormat_inside (hs : s ≠ []) (h0 : 0 ∉ s) : scanFormat P (n + 1) true (s ++ [0]) x = (do
    let s ← skipSpec (s ++ [0])
    let c ← deref s
    scanFormat P n false s.tail (P.conv c x)) := by
  cases s with
  | nil => exact absurd rfl hs
  | cons c s =>
      have hc : c ≠ 0 := fun h => h0 (h ▸ List.mem_cons_self)
      rw [List.cons_append, scanFormat, deref, ok_bind, if_neg hc, Bool.not_true, if_neg Bool.false_ne_true]

theorem scanFormat_conv (h0 : 0 ∉ w ++ c :: f) (hw : IsSpec w) (hc : ¬ IsSpec (w ++ [c])) :
    scanFormat P (n + 1) true (w ++ c :: f ++ [0]) x = scanFormat P n false (f ++ [0]) (P.conv c x) := by
  rw [scanFormat_inside P (by simp) h0, skipSpec_conv hw hc]
  rfl

/-- Where the format ends inside a conversion, the loop goes on behind its NUL. -/
theorem scanFormat_spec (h0 : 0 ∉ w) (hw : IsSpec w) (hne : w ≠ []) :
    scanFormat P (n + 2) true (w ++ [0]) x = .error .outOfBounds := by
  rw [scanFormat_inside P hne h0, skipSpec_spec hw]
  rfl

/-- The loop ends at the NUL of a format, if it does not end inside a conversion. -/
theorem scanFormat_run (h0 : 0 ∉ f) (hn : f.length < n) :
    (EndsInside f ∧ scanFormat P n false (f ++ [0]) x = .error .outOfBounds) ∨
      (¬ EndsInside f ∧ ∃ y, scanFormat P n false (f ++ [0]) x = .ok y) := by
  induction n using Nat.strong_induction_on generalizing f x with
  | _ n ih =>
      obtain ⟨n, rfl⟩ : ∃ k, n = k + 1 := ⟨n - 1, by omega⟩
      cases f with
      | nil => exact .inr ⟨not_endsInside_nil, x, scanFormat_end P false⟩
      | cons c f =>
          rw [List.mem_cons, not_or] at h0
          rw [List.length_cons] at hn
          by_cases hc : c = ch '%'
          · subst hc
            rw [scanFormat_percent]
            rcases spec_cases f with hw | ⟨w, c, g, rfl, hw, hend⟩
            · by_cases hne : f = []
              · subst hne
                obtain ⟨n, rfl⟩ : ∃ k, n = k + 1 := ⟨n - 1, by omega⟩
                refine .inr ⟨fun hinside => (endsInside_spec hw).mp hinside rfl, _, scanFormat_end P true⟩
              · have hpos := List.length_pos_of_ne_nil hne
                obtain ⟨n, rfl⟩ : ∃ k, n = k + 2 := ⟨n - 2, by omega⟩
                exact .inl ⟨(endsInside_spec hw).mpr hne, scanFormat_spec P h0.2 hw hne⟩
            · obtain ⟨n, rfl⟩ : ∃ k, n = k + 1 := ⟨n - 1, by omega⟩
              rw [scanFormat_conv P h0.2 hw hend, endsInside_conv hw hend]
              refine ih n (by omega) (fun hg => h0.2 (List.mem_append_right _ (List.mem_cons_of_mem _ hg))) ?_
              rw [List.length_append, List.length_cons] at hn
              omega
          · rw [scanFormat_byte P (Ne.symm h0.1) hc, endsInside_byte hc]
            exact ih n (by omega) h0.2 (by omega)

end

end

theorem nlPrintf_ok {format : List Byte} (h0 : 0 ∉ format) (args : List FmtArg) (h : ¬ EndsInside format) :
    ∃ str, nlPrintf format args = .ok str := by
  unfold nlPrintf
  rcases scanFormat_run nlPrinter (x := { cobj := args }) h0 (Nat.lt_succ_self _) with ⟨hinside, -⟩ | ⟨-, y, hrun⟩
  · exact absurd hinside h
  · rw [hrun]
    exact ⟨_, rfl⟩

theorem vaFormat_ok {format : List Byte} (h0 : 0 ∉ format) (ap : Nat → VaArg) (h : ¬ EndsInside format) :
    ∃ writes, vaFormat format ap = .ok writes := by
  unfold vaFormat
  rcases scanFormat_run (vaPrinter ap) (x := ([], 0)) h0 (Nat.lt_succ_self _) with ⟨hinside, -⟩ | ⟨-, y, hrun⟩
  · exact absurd hinside h
  · rw [hrun]
    exact ⟨_, rfl⟩

/-- Both loops read a format to its NUL and no further. -/
def Scans (format : List Byte) (args : List FmtArg) (ap : Nat → VaArg) : Prop :=
  (∃ str, nlPrintf format args = .ok str) ∧ ∃ writes, vaFormat format ap = .ok writes

/-- They do exactly when the format does not end inside a conversion. -/
theorem scans_iff {format : List Byte} (h0 : 0 ∉ format) (args : List FmtArg) (ap : Nat → VaArg) :
    Scans format args ap ↔ ¬ EndsInside format := by
  constructor
  · rintro ⟨⟨str, hstr⟩, -⟩ hinside
    unfold nlPrintf at hstr
    rcases scanFormat_run nlPrinter (x := { cobj := args }) h0 (Nat.lt_succ_self _) with ⟨-, hrun⟩ | ⟨hnot, -⟩
    · rw [hrun] at hstr
      cases hstr
    · exact hnot hinside
  · intro hnot
    exact ⟨nlPrintf_ok h0 args hnot, vaFormat_ok h0 ap hnot⟩

theorem scans_percent : Scans (bytes "%5d%") [⟨7, bytes "7"⟩] fun _ => { int := 7 } := by
  refine (scans_iff (by decide) _ _).mpr fun hinside => ?_
  have hrest : EndsInside (ch '%' :: []) := (endsInside_conv (w := bytes "5") (c := ch 'd') (by decide) (by decide)).mp hinside
  exact (endsInside_spec (w := []) (by decide)).mp hrest rfl

/-- Both loops step over the NUL behind the flag. -/
theorem not_scans_flag : ¬ Scans (bytes "%-") [] fun _ => {} := by
  rintro ⟨⟨str, hstr⟩, -⟩
  have hrun : nlPrintf (bytes "%-") [] = .error .outOfBounds := rfl
  rw [hrun] at hstr
  cases hstr

end NullG.Nsp
