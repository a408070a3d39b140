/-
What `nc_vsnprintf` promises of its buffer (`libc.c`), and `tcp_fprintf` of `libs/net/tcp.c`, which formats with it.

The bytes of a format are written without a look at `max`, a conversion that is cut is counted as a whole, and the
character of a `%c` is fetched and not written. So the buffer is right where the text without these characters is
shorter than `max`, and only there, but for characters that would have been cut (`formatting_iff`).
-/

import NullG.Mail.Numbers
import NullG.Nsp.OutBuffer

namespace NullG.Nsp.Vsnprintf

open NullG.Lib NullG.Libs NullG.Nsp.OutBuffer

/-! ### The code -/

/-- `nc_vsnprintf(N, dest, max, format, ap)` where `mem` is at `dest`: the length that is counted, and what is there
then. A length that is no `int` is behind every buffer. -/
def ncVsnprintf (mem : List Byte) (max : Nat) (format : List Byte) (ap : Nat → VaArg) :
    Except Fault (Nat × List Byte) := do
  let writes ← vaFormat format ap
  putConvs max 0 writes 0 mem

/-- `tcp_fprintf`: what it sends. -/
def tcpFprintf (format : List Byte) (ap : Nat → VaArg) : Except Fault (List Byte) := do
  let (_, buffer) ← ncVsnprintf (List.replicate 2048 0) 2047 format ap
  match Memory.str 0 buffer 0 with
  | some data => .ok data
  | none => .error .outOfBounds

/-! ### What is promised -/

/-- What a conversion stands for: of `%c` it is the character. -/
def fullConv (c : Byte) (ap : VaArg) : List Byte :=
  if c = ch 'c' then cstr [(ap.int % 256).toNat.toUInt8] else Libs.printed (vaConv c ap)

/-- The text of a format, and how many arguments were taken. -/
def fullPrinter (ap : Nat → VaArg) : Printer (List Byte × Nat) where
  text c x := (x.1 ++ [c], x.2)
  percent x := x
  conv c x := (x.1 ++ fullConv c (ap x.2), if takesArg c then x.2 + 1 else x.2)

/-- The full expansion of a format. -/
def expansion (format : List Byte) (ap : Nat → VaArg) : List Byte :=
  match scanFormat (fullPrinter ap) (format.length + 1) false (format ++ [0]) ([], 0) with
  | .ok x => x.1
  | .error _ => []

/-- In a block of `max` bytes, the longest beginning of the expansion that has room is left there as a string. -/
def Bounded (max : Nat) (format : List Byte) (ap : Nat → VaArg) : Prop :=
  ∀ mem : List Byte, mem.length = max → ∃ len mem', ncVsnprintf mem max format ap = .ok (len, mem') ∧
    Memory.str 0 mem' 0 = some ((expansion format ap).take (max - 1))

/-- Nothing is written behind the buffer. -/
def Sends (format : List Byte) (ap : Nat → VaArg) : Prop := ∃ data, tcpFprintf format ap = .ok data

/-! ### The writes -/

section Writes

variable {mem : List Byte} {max len : Nat} {writes : List Conv}

theorem put_ok {i : Nat} {xs : List Byte} (h : i + xs.length ≤ mem.length) :
    ∃ mem', put mem i xs = .ok mem' ∧ mem'.length = mem.length ∧ mem'.take (i + xs.length) = mem.take i ++ xs := by
  have hwrite := Memory.write_of_le h
  refine ⟨_, ?_, Memory.write_length hwrite, Memory.take_written hwrite⟩
  rw [put, hwrite]

/-- `nc_strncpy(d, p, max - len)`. -/
def putArg (max : Nat) (p : List Byte) (len : Nat) (mem : List Byte) : Except Fault (List Byte) :=
  if 0 < (max : Int) - len then put mem (0 + len) (p.take ((max : Int) - len - 1).toNat ++ [0]) else pure mem

theorem putConvs_arg (p : List Byte) : putConvs max 0 (.arg p :: writes) len mem =
    (putArg max p len mem).bind fun mem => putConvs max 0 writes (len + p.length) mem := by
  rw [putConvs, putArg]
  dsimp only
  split
  · rfl
  · rfl

/-- A conversion that may be cut. -/
theorem putArg_run (max : Nat) (p : List Byte) (h : len + p.length < mem.length) :
    ∃ mem', putArg max p len mem = .ok mem' ∧ mem'.length = mem.length ∧
      (len + p.length < max → mem'.take (len + p.length) = mem.take len ++ p) := by
  by_cases hpos : 0 < (max : Int) - len
  · have hroom : len + (p.take ((max : Int) - len - 1).toNat ++ [0]).length ≤ mem.length := by
      rw [List.length_append, List.length_take, List.length_singleton]
      omega
    obtain ⟨mem', hput, hsize, htake⟩ := put_ok hroom
    rw [putArg, if_pos hpos, Nat.zero_add]
    refine ⟨mem', hput, hsize, fun hfits => ?_⟩
    have hwhole : p.take ((max : Int) - len - 1).toNat = p := List.take_of_length_le (by omega)
    rw [hwhole, List.length_append, ← Nat.add_assoc] at htake
    have hcut := congrArg (List.take (len + p.length)) htake
    have hlen : (mem.take len ++ p).length = len + p.length := by
      rw [List.length_append, List.length_take]
      omega
    rw [List.take_take, Nat.min_eq_left (Nat.le_add_right _ _), ← List.append_assoc, ← hlen, List.take_left,
      hlen] at hcut
    exact hcut
  · rw [putArg, if_neg hpos]
    exact ⟨mem, rfl, rfl, fun hfits => by omega⟩

/-- A text that is shorter than the block: a NUL is behind it, and where it is shorter than `max`, it is there. -/
theorem putConvs_short (max : Nat) (h : len + (Libs.printed writes).length < mem.length) :
    ∃ mem', putConvs max 0 writes len mem = .ok (len + (Libs.printed writes).length, mem') ∧
      mem'[len + (Libs.printed writes).length]? = some 0 ∧
      (len + (Libs.printed writes).length < max →
        mem'.take (len + (Libs.printed writes).length) = mem.take len ++ Libs.printed writes) := by
  induction writes generalizing len mem with
  | nil =>
      obtain ⟨mem', hwrite⟩ : ∃ mem', Memory.write mem len [0] = some mem' := ⟨_, Memory.write_of_le h⟩
      have hnul : mem'[len]? = some 0 := by
        obtain ⟨hle, rfl⟩ := Memory.write_eq_some.mp hwrite
        have hlen : (mem.take len).length = len := List.length_take_of_le (Nat.le_of_succ_le hle)
        rw [List.append_assoc, List.getElem?_append_right hlen.le, hlen, Nat.sub_self]
        rfl
      refine ⟨mem', ?_, hnul, fun _ => ?_⟩
      · rw [putConvs, put, Nat.zero_add, hwrite]
        rfl
      · rw [printed_nil, List.length_nil, Nat.add_zero, List.append_nil, Memory.take_of_write hwrite (Nat.le_refl _)]
  | cons c writes ih =>
      have hcount :
          len + (Libs.printed (c :: writes)).length = len + c.printed.length + (Libs.printed writes).length := by
        rw [printed_cons, List.length_append, Nat.add_assoc]
      rw [hcount] at h ⊢
      -- what `c` writes, and then the rest
      have hstep : ∀ mem₁ : List Byte, mem₁.length = mem.length →
          (len + c.printed.length < max → mem₁.take (len + c.printed.length) = mem.take len ++ c.printed) →
          ∃ mem', putConvs max 0 writes (len + c.printed.length) mem₁ =
              .ok (len + c.printed.length + (Libs.printed writes).length, mem') ∧
            mem'[len + c.printed.length + (Libs.printed writes).length]? = some 0 ∧
            (len + c.printed.length + (Libs.printed writes).length < max →
              mem'.take (len + c.printed.length + (Libs.printed writes).length) =
                mem.take len ++ Libs.printed (c :: writes)) := by
        intro mem₁ hsize htake
        have hroom : len + c.printed.length + (Libs.printed writes).length < mem₁.length := by
          rw [hsize]
          exact h
        obtain ⟨mem', hrun, hnul, htext⟩ := ih hroom
        refine ⟨mem', hrun, hnul, fun hfits => ?_⟩
        rw [htext hfits, htake (by omega), printed_cons, List.append_assoc]
      cases c with
      | text s =>
          have hroom : len + s.length ≤ mem.length := by
            rw [Conv.printed] at h
            omega
          obtain ⟨mem₁, hput, hsize, htake⟩ := put_ok hroom
          obtain ⟨mem', hrun, hrest⟩ := hstep mem₁ hsize fun _ => htake
          refine ⟨mem', ?_, hrest⟩
          rw [putConvs, Nat.zero_add, hput, ok_bind]
          exact hrun
      | arg p =>
          have hroom : len + p.length < mem.length := by
            rw [Conv.printed] at h
            omega
          obtain ⟨mem₁, hput, hsize, htake⟩ := putArg_run max p hroom
          obtain ⟨mem', hrun, hrest⟩ := hstep mem₁ hsize htake
          refine ⟨mem', ?_, hrest⟩
          rw [putConvs_arg, hput]
          exact hrun

theorem put_length {i : Nat} {xs mem' : List Byte} (h : put mem i xs = .ok mem') : mem'.length = mem.length := by
  unfold put at h
  cases hwrite : Memory.write mem i xs with
  | none =>
      rw [hwrite] at h
      cases h
  | some mem₁ =>
      rw [hwrite] at h
      rw [← Except.ok.inj h]
      exact Memory.write_length hwrite

theorem put_error {i : Nat} {xs : List Byte} {e : Fault} (h : put mem i xs = .error e) : e = .outOfBounds := by
  unfold put at h
  cases hwrite : Memory.write mem i xs with
  | none =>
      rw [hwrite] at h
      exact (Except.error.inj h).symm
  | some mem₁ =>
      rw [hwrite] at h
      cases h

/-- What is written of a part: it stays in the block, or it is a fault. -/
theorem putConvs_cons (max len : Nat) (mem : List Byte) (c : Conv) (writes : List Conv) :
    putConvs max 0 (c :: writes) len mem = .error .outOfBounds ∨ ∃ mem', mem'.length = mem.length ∧
      putConvs max 0 (c :: writes) len mem = putConvs max 0 writes (len + c.printed.length) mem' := by
  cases c with
  | text s =>
      rw [putConvs]
      cases hput : put mem (0 + len) s with
      | error e => exact .inl (congrArg _ (put_error hput))
      | ok mem' => exact .inr ⟨mem', put_length hput, rfl⟩
  | arg p =>
      rw [putConvs_arg, putArg]
      split
      · cases hput : put mem (0 + len) (p.take ((max : Int) - len - 1).toNat ++ [0]) with
        | error e => exact .inl (congrArg _ (put_error hput))
        | ok mem' => exact .inr ⟨mem', put_length hput, rfl⟩
      · exact .inr ⟨mem, rfl, rfl⟩

/-- A text that is no shorter than the block: its end is behind it. -/
theorem putConvs_long (h : mem.length ≤ len + (Libs.printed writes).length) :
    putConvs max 0 writes len mem = .error .outOfBounds := by
  induction writes generalizing len mem with
  | nil =>
      have hbehind : mem.length < 0 + len + [(0 : Byte)].length := by
        rw [printed_nil, List.length_nil] at h
        simp
        omega
      rw [putConvs, put_behind hbehind]
      rfl
  | cons c writes ih =>
      rcases putConvs_cons max len mem c writes with hfault | ⟨mem', hsize, hrun⟩
      · exact hfault
      · rw [hrun]
        refine ih ?_
        rw [printed_cons, List.length_append] at h
        omega

end Writes

/-! ### No NUL is in a text -/

section NulFree

/-- What holds of the state behind each step of the loop over a format holds at its end. -/
theorem scanFormat_keeps {σ : Type} {P : Printer σ} {I : σ → Prop} (htext : ∀ c x, c ≠ 0 → I x → I (P.text c x))
    (hpercent : ∀ x, I x → I (P.percent x)) (hconv : ∀ c x, I x → I (P.conv c x)) {n : Nat} {esc : Bool}
    {s : List Byte} {x y : σ} (hx : I x) (h : scanFormat P n esc s x = .ok y) : I y := by
  induction n generalizing esc s x with
  | zero => cases h
  | succ n ih =>
      rw [scanFormat] at h
      cases s with
      | nil => cases h
      | cons c s =>
          rw [deref, ok_bind] at h
          by_cases h0 : c = 0
          · rw [if_pos h0] at h
            exact Except.ok.inj h ▸ hx
          rw [if_neg h0] at h
          cases esc with
          | false =>
              rw [Bool.not_false, if_pos rfl] at h
              by_cases hc : c = ch '%'
              · rw [if_pos hc] at h
                exact ih (hpercent x hx) h
              · rw [if_neg hc] at h
                exact ih (htext c x h0 hx) h
          | true =>
              rw [Bool.not_true, if_neg Bool.false_ne_true] at h
              cases hspec : skipSpec (c :: s) with
              | error e =>
                  rw [hspec] at h
                  cases h
              | ok s' =>
                  rw [hspec, ok_bind] at h
                  cases s' with
                  | nil => cases h
                  | cons c' s' => exact ih (hconv c' x hx) h

theorem fraction_nulFree (f : Num) (dec : Nat) : 0 ∉ fraction f dec := by
  induction dec generalizing f with
  | zero => exact List.not_mem_nil
  | succ dec ih =>
      rw [fraction, List.mem_cons, not_or]
      refine ⟨?_, ih _⟩
      have hdigit : ∀ d < 10, 0 ≠ ch '0' + d.toUInt8 := by decide
      exact hdigit _ (by omega)

theorem mem_trimZeros {str : List Byte} {c : Byte} (h : c ∈ trimZeros str) : c ∈ str := by
  have hsub : ∀ d ∈ str.reverse.dropWhile (· == ch '0'), d ∈ str :=
    fun d hd => List.mem_reverse.mp ((List.dropWhile_sublist _).mem hd)
  unfold trimZeros at h
  cases hrest : str.reverse.dropWhile (· == ch '0') with
  | nil =>
      rw [hrest] at h
      cases h
  | cons d s =>
      rw [hrest] at h hsub
      dsimp only at h
      split at h
      · exact hsub c (List.mem_cons_of_mem d (List.mem_reverse.mp h))
      · exact hsub c (List.mem_reverse.mp h)

theorem nNtoa_nulFree (q : Num) (neg : Bool) (dec : Nat) : 0 ∉ nNtoa q neg dec := by
  have hstr : ∀ (sign : Bool) (n : Int),
      0 ∉ (if sign then [ch '-'] else []) ++ (if n < 0 then [ch '0'] else natDigits n.toNat) := by
    intro sign n
    rw [List.mem_append, not_or]
    constructor
    · cases sign <;> decide
    · split
      · decide
      · exact Mail.notMem_natDigits _ (.inl (by decide))
  unfold nNtoa
  dsimp only
  generalize (neg && decide (q < 0)) = sign
  generalize (if sign = true then -q.trunc else q.trunc) = n
  by_cases hn : n.tmod 10 < 0
  · rw [if_pos hn]
    decide
  rw [if_neg hn]
  by_cases hdec : dec = 0
  · rw [if_pos hdec]
    exact hstr sign n
  · rw [if_neg hdec]
    intro h
    rcases List.mem_append.mp (mem_trimZeros h) with h | h
    · exact hstr sign n h
    · rcases List.mem_cons.mp h with h | h
      · exact absurd h (by decide)
      · exact fraction_nulFree _ _ h

theorem nchars_nulFree {base : Nat} (hbase : 1 < base) (hbase' : base ≤ 16) (n : Nat) : 0 ∉ nchars base n := by
  have hdigits : ∀ d < 16, (0 : Byte) ≠ ch (Nat.digitChar d).toUpper := by decide
  have hdigit : ∀ k, k < base → (0 : Byte) ≠ ch (Nat.digitChar k).toUpper := fun k hk => hdigits k (hk.trans_le hbase')
  induction n using Nat.strongRecOn with
  | ind n ih =>
      by_cases hn : n < base
      · rw [nchars, Nat.toDigits_of_lt_base hn, List.map_singleton, List.mem_singleton]
        exact hdigit n hn
      · have hlt : n / base < n := Nat.div_lt_self (by omega) hbase
        rw [nchars, Nat.toDigits_of_base_le hbase (by omega), List.map_append, List.map_singleton, List.mem_append,
          List.mem_singleton, not_or]
        exact ⟨ih _ hlt, hdigit _ (Nat.mod_lt _ (by omega))⟩

theorem nNtoaBase_nulFree (q : Num) {base : Nat} (hbase : 1 < base) (hbase' : base ≤ 16) :
    0 ∉ nNtoaBase q base := by
  unfold nNtoaBase
  dsimp only
  split
  · decide
  · split
    · decide
    · exact nchars_nulFree hbase hbase' _

theorem cstr_nulFree (b : List Byte) : 0 ∉ cstr b := fun h => by simpa using List.mem_takeWhile_imp h

theorem vaConv_nulFree (c : Byte) (ap : VaArg) : 0 ∉ Libs.printed (vaConv c ap) := by
  have hone : ∀ {p : List Byte}, 0 ∉ p → 0 ∉ Libs.printed [.arg p] := by
    intro p hp
    rw [printed_cons, printed_nil, List.append_nil]
    exact hp
  unfold vaConv
  split_ifs
  · exact List.not_mem_nil
  · exact hone (nNtoa_nulFree _ _ _)
  · exact hone (nNtoaBase_nulFree _ (by decide) (by decide))
  · exact hone (nNtoa_nulFree _ _ _)
  · exact hone (nNtoaBase_nulFree _ (by decide) (by decide))
  · exact hone (nNtoa_nulFree _ _ _)
  · refine hone ?_
    cases ap.str with
    | none => decide
    | some str => exact cstr_nulFree str
  · exact hone (by decide)
  · exact hone (by decide)

end NulFree

/-! ### What is promised -/

section Promise

variable {format : List Byte} {ap : Nat → VaArg} {writes : List Conv} {mem : List Byte} {max : Nat}

theorem writes_nulFree (h : vaFormat format ap = .ok writes) : 0 ∉ Libs.printed writes := by
  unfold vaFormat at h
  cases hscan : scanFormat (vaPrinter ap) (format.length + 1) false (format ++ [0]) ([], 0) with
  | error e =>
      rw [hscan] at h
      cases h
  | ok x =>
      rw [hscan] at h
      obtain rfl : x.1 = writes := Except.ok.inj h
      refine scanFormat_keeps (I := fun x => 0 ∉ Libs.printed x.1) ?_ (fun _ hx => hx) ?_ List.not_mem_nil hscan
      · intro c x hc hx
        have hprinted : Libs.printed [.text [c]] = [c] := rfl
        rw [vaPrinter, printed_append, hprinted, List.mem_append, not_or, List.mem_singleton]
        exact ⟨hx, hc.symm⟩
      · intro c x hx
        rw [vaPrinter, printed_append, List.mem_append, not_or]
        exact ⟨hx, vaConv_nulFree _ _⟩

theorem vaFormat_inside (h0 : 0 ∉ format) (h : EndsInside format) : vaFormat format ap = .error .outOfBounds := by
  unfold vaFormat
  rcases scanFormat_run (vaPrinter ap) (x := ([], 0)) h0 (Nat.lt_succ_self _) with ⟨-, hrun⟩ | ⟨hnot, -⟩
  · rw [hrun]
    rfl
  · exact absurd h hnot

/-- The string that is left where the text has room. -/
theorem ncVsnprintf_short (hwrites : vaFormat format ap = .ok writes) (hmax : (Libs.printed writes).length < max)
    (hmem : max ≤ mem.length) :
    ∃ mem', ncVsnprintf mem max format ap = .ok ((Libs.printed writes).length, mem') ∧
      Memory.str 0 mem' 0 = some (Libs.printed writes) := by
  have hroom : 0 + (Libs.printed writes).length < mem.length := by
    rw [Nat.zero_add]
    exact hmax.trans_le hmem
  obtain ⟨mem', hrun, hnul, htext⟩ := putConvs_short max hroom
  rw [Nat.zero_add] at hrun hnul htext
  refine ⟨mem', ?_, ?_⟩
  · rw [ncVsnprintf, hwrites, ok_bind]
    exact hrun
  · have htake := htext hmax
    rw [List.take_zero, List.nil_append] at htake
    refine Memory.str_of_take ?_ (writes_nulFree hwrites)
    rw [List.take_add_one, htake, hnul]
    rfl

/-- The longest beginning that has room is a text without its characters only where they make no difference. -/
theorem take_eq_iff {text full : List Byte} (hlen : text.length < max) :
    full.take (max - 1) = text ↔ full = text ∨ text.length + 1 = max ∧ text <+: full := by
  constructor
  · intro h
    by_cases hfull : full.length ≤ max - 1
    · rw [List.take_of_length_le hfull] at h
      exact .inl h
    · refine .inr ⟨?_, h ▸ List.take_prefix _ _⟩
      rw [← h, List.length_take]
      omega
  · rintro (rfl | ⟨hmax, hprefix⟩)
    · exact List.take_of_length_le (by omega)
    · rw [List.prefix_iff_eq_take] at hprefix
      rw [← hmax, Nat.add_sub_cancel]
      exact hprefix.symm

theorem bounded_iff (h0 : 0 ∉ format) (ap : Nat → VaArg) (max : Nat) : Bounded max format ap ↔
    ¬ EndsInside format ∧ (formatted format ap).length < max ∧
      (expansion format ap = formatted format ap ∨
        (formatted format ap).length + 1 = max ∧ formatted format ap <+: expansion format ap) := by
  by_cases hinside : EndsInside format
  · refine iff_of_false (fun h => ?_) fun h => h.1 hinside
    obtain ⟨len, mem', hrun, -⟩ := h (List.replicate max 0) List.length_replicate
    rw [ncVsnprintf, vaFormat_inside h0 hinside] at hrun
    cases hrun
  obtain ⟨writes, hwrites⟩ := vaFormat_ok h0 ap hinside
  have htext : formatted format ap = Libs.printed writes := by rw [formatted, hwrites]
  rw [htext]
  by_cases hlen : (Libs.printed writes).length < max
  · have hiff : (expansion format ap).take (max - 1) = Libs.printed writes ↔
        expansion format ap = Libs.printed writes ∨
          (Libs.printed writes).length + 1 = max ∧ Libs.printed writes <+: expansion format ap := take_eq_iff hlen
    constructor
    · intro h
      obtain ⟨len, mem', hrun, hstr⟩ := h (List.replicate max 0) List.length_replicate
      have hroom : max ≤ (List.replicate max (0 : Byte)).length := List.length_replicate.ge
      obtain ⟨mem'', hrun', hstr'⟩ := ncVsnprintf_short hwrites hlen hroom
      obtain ⟨-, rfl⟩ := Prod.mk.inj (Except.ok.inj (hrun'.symm.trans hrun))
      exact ⟨hinside, hlen, hiff.mp (Option.some.inj (hstr.symm.trans hstr'))⟩
    · rintro ⟨-, -, h⟩ mem hmem
      obtain ⟨mem', hrun, hstr⟩ := ncVsnprintf_short hwrites hlen hmem.ge
      exact ⟨_, mem', hrun, by rw [hstr, hiff.mpr h]⟩
  · refine iff_of_false (fun h => ?_) fun h => hlen h.2.1
    obtain ⟨len, mem', hrun, -⟩ := h (List.replicate max 0) List.length_replicate
    rw [ncVsnprintf, hwrites, ok_bind, putConvs_long (by simp; omega)] at hrun
    cases hrun

theorem sends_iff (h0 : 0 ∉ format) (ap : Nat → VaArg) :
    Sends format ap ↔ ¬ EndsInside format ∧ (formatted format ap).length < 2048 := by
  by_cases hinside : EndsInside format
  · refine iff_of_false (fun h => ?_) fun h => h.1 hinside
    obtain ⟨data, hrun⟩ := h
    rw [tcpFprintf, ncVsnprintf, vaFormat_inside h0 hinside] at hrun
    cases hrun
  obtain ⟨writes, hwrites⟩ := vaFormat_ok h0 ap hinside
  have htext : formatted format ap = Libs.printed writes := by rw [formatted, hwrites]
  rw [htext, and_iff_right hinside]
  by_cases hlen : (Libs.printed writes).length < 2048
  · refine iff_of_true ?_ hlen
    have hroom : 0 + (Libs.printed writes).length < (List.replicate 2048 (0 : Byte)).length := by
      rw [Nat.zero_add, List.length_replicate]
      exact hlen
    obtain ⟨mem', hrun, hnul, -⟩ := putConvs_short 2047 hroom
    have hmem : (0 : Byte) ∈ mem'.drop 0 := List.mem_of_getElem? hnul
    refine ⟨(mem'.drop 0).takeWhile (· != 0), ?_⟩
    rw [tcpFprintf, ncVsnprintf, hwrites, ok_bind, hrun, ok_bind]
    dsimp only
    rw [Memory.str, if_pos hmem]
  · refine iff_of_false (fun h => ?_) hlen
    obtain ⟨data, hrun⟩ := h
    have hlong : (List.replicate 2048 (0 : Byte)).length ≤ 0 + (Libs.printed writes).length := by
      rw [List.length_replicate]
      omega
    rw [tcpFprintf, ncVsnprintf, hwrites, ok_bind, putConvs_long hlong] at hrun
    cases hrun

/-- `nc_vsnprintf` keeps to its buffer just where the text without the characters of `%c` does, and these make no
difference; `tcp_fprintf` just where that text is shorter than its buffer. -/
theorem formatting_iff (h0 : 0 ∉ format) (ap : Nat → VaArg) :
    (∀ max, 1 ≤ max → (Bounded max format ap ↔
      ¬ EndsInside format ∧ (formatted format ap).length < max ∧
        (expansion format ap = formatted format ap ∨
          (formatted format ap).length + 1 = max ∧ formatted format ap <+: expansion format ap))) ∧
    (Sends format ap ↔ ¬ EndsInside format ∧ (formatted format ap).length < 2048) :=
  ⟨fun max _ => bounded_iff h0 ap max, sends_iff h0 ap⟩

theorem formatting_percent : (∀ max, 1 ≤ max → (Bounded max (bytes "%c%d") (fun _ => { int := 65 }) ↔
      ¬ EndsInside (bytes "%c%d") ∧ (formatted (bytes "%c%d") fun _ => { int := 65 }).length < max ∧
        (expansion (bytes "%c%d") (fun _ => { int := 65 }) = (formatted (bytes "%c%d") fun _ => { int := 65 }) ∨
          (formatted (bytes "%c%d") fun _ => { int := 65 }).length + 1 = max ∧
            (formatted (bytes "%c%d") fun _ => { int := 65 }) <+: expansion (bytes "%c%d") fun _ => { int := 65 }))) ∧
    (Sends (bytes "%c%d") (fun _ => { int := 65 }) ↔
      ¬ EndsInside (bytes "%c%d") ∧ (formatted (bytes "%c%d") fun _ => { int := 65 }).length < 2048) :=
  formatting_iff (by decide) _

/-- A format of its own bytes is written behind a block of four. -/
theorem not_bounded_literal : ¬ Bounded 4 (bytes "literal") fun _ => {} := by
  intro h
  obtain ⟨len, mem', hrun, -⟩ := h [0, 0, 0, 0] rfl
  cases hrun

end Promise

end NullG.Nsp.Vsnprintf
