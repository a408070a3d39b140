/-
A block of memory with a text in front of a cursor.

A write puts its cells over the ones that were there, and there is none past the end of the block. A loop that reads
cell by cell ends at a cell that stops it: with such a cell behind the text, it reads the text only (`skip_run`,
`agrees_run`).
-/

import Mathlib.Algebra.Ring.Nat
import Mathlib.Data.List.Basic

namespace NullG.Lib.Memory

variable {α : Type}

/-- The block with `xs` written from the place `i` on, where it fits. -/
def write (mem : List α) (i : Nat) (xs : List α) : Option (List α) :=
  if i + xs.length ≤ mem.length then some (mem.take i ++ xs ++ mem.drop (i + xs.length)) else none

variable {mem mem' xs ys : List α} {i : Nat}

theorem write_of_le (h : i + xs.length ≤ mem.length) :
    write mem i xs = some (mem.take i ++ xs ++ mem.drop (i + xs.length)) := if_pos h

theorem write_eq_some : write mem i xs = some mem' ↔
    i + xs.length ≤ mem.length ∧ mem' = mem.take i ++ xs ++ mem.drop (i + xs.length) := by
  unfold write
  split
  · rename_i h
    simp [h, eq_comm]
  · rename_i h
    simp [h]

theorem write_length (h : write mem i xs = some mem') : mem'.length = mem.length := by
  obtain ⟨hle, rfl⟩ := write_eq_some.mp h
  simp
  omega

/-- Two writes, one behind the other. -/
theorem write_append (mem : List α) (i : Nat) (xs ys : List α) :
    write mem i (xs ++ ys) = (write mem i xs).bind fun mem' => write mem' (i + xs.length) ys := by
  by_cases h : i + (xs ++ ys).length ≤ mem.length
  · have hsum : i + xs.length + ys.length ≤ mem.length := by
      rw [List.length_append] at h
      omega
    have hfirst : i + xs.length ≤ mem.length := by omega
    have hcells : (mem.take i ++ xs).length = i + xs.length := by
      rw [List.length_append, List.length_take, Nat.min_eq_left (by omega)]
    have hsecond : i + xs.length + ys.length ≤ (mem.take i ++ xs ++ mem.drop (i + xs.length)).length := by
      rw [List.length_append, hcells, List.length_drop]
      omega
    have hrest : (mem.take i ++ xs ++ mem.drop (i + xs.length)).drop (i + xs.length + ys.length) =
        mem.drop (i + (xs ++ ys).length) := by
      rw [List.drop_append, hcells, List.drop_eq_nil_of_le (by omega), List.nil_append, List.drop_drop,
        List.length_append]
      congr 1
      omega
    rw [write_of_le h, write_of_le hfirst, Option.bind_some, write_of_le hsecond, List.take_left' hcells, hrest,
      ← List.append_assoc]
  · rw [write, if_neg h]
    cases hwrite : write mem i xs with
    | none => rfl
    | some mem' =>
        rw [Option.bind_some, write, if_neg]
        rw [write_length hwrite]
        rwa [List.length_append, ← Nat.add_assoc] at h

/-- A write at the start of a block. -/
theorem write_zero {n : Nat} {z : α} : write (List.replicate n z) 0 xs =
    if xs.length ≤ n then some (xs ++ List.replicate (n - xs.length) z) else none := by
  rw [write, List.length_replicate, Nat.zero_add, List.take_zero, List.nil_append, List.drop_replicate]

/-- A write over the cells behind a part of the block. -/
theorem write_over (xs old : List α) (h : xs.length = old.length) (out gap : List α) :
    write (out ++ (old ++ gap)) out.length xs = some (out ++ (xs ++ gap)) := by
  have hle : out.length + xs.length ≤ (out ++ (old ++ gap)).length := by
    rw [List.length_append, List.length_append]
    omega
  have hrest : (out ++ (old ++ gap)).drop (out.length + xs.length) = gap := by
    rw [← List.append_assoc, h, ← List.length_append, List.drop_left]
  rw [write_of_le hle, hrest, List.take_left, List.append_assoc]

/-- A write of nothing. -/
theorem write_nil (h : write mem i [] = some mem') : mem' = mem := by
  obtain ⟨-, rfl⟩ := write_eq_some.mp h
  rw [List.append_nil, List.length_nil, Nat.add_zero, List.take_append_drop]

/-- The cells in front of a write, and the ones that it puts behind them. -/
theorem take_write (h : write mem i (xs ++ ys) = some mem') :
    mem'.take (i + xs.length) = mem.take i ++ xs := by
  obtain ⟨hle, rfl⟩ := write_eq_some.mp h
  have hi : (mem.take i).length = i := by
    rw [List.length_append] at hle
    rw [List.length_take]
    omega
  have hfront : (mem.take i ++ xs).length = i + xs.length := by rw [List.length_append, hi]
  rw [← List.append_assoc, List.append_assoc, ← hfront]
  exact List.take_left

theorem take_written (h : write mem i xs = some mem') : mem'.take (i + xs.length) = mem.take i ++ xs := by
  rw [← List.append_nil xs] at h
  exact take_write h

/-- The cells in front of a write stay. -/
theorem take_of_write (h : write mem i xs = some mem') {j : Nat} (hj : j ≤ i) : mem'.take j = mem.take j := by
  obtain ⟨hle, rfl⟩ := write_eq_some.mp h
  have hi : j ≤ (mem.take i).length := by
    rw [List.length_take]
    omega
  rw [List.append_assoc, List.take_append_of_le_length hi, List.take_take, Nat.min_eq_left hj]

/-- A write over cells that are all the same. -/
theorem write_replicate {k : Nat} (z : α) (out : List α) (h : xs.length ≤ k) :
    write (out ++ List.replicate k z) out.length xs = some (out ++ (xs ++ List.replicate (k - xs.length) z)) := by
  have hsplit : List.replicate k z = List.replicate xs.length z ++ List.replicate (k - xs.length) z := by
    rw [List.replicate_append_replicate, Nat.add_sub_cancel' h]
  rw [hsplit]
  exact write_over xs _ List.length_replicate.symm out _

/-! ### Strings -/

section Strings

variable [DecidableEq α] {z : α} {text rest : List α}

/-- The string at a place: the cells in front of the first `z`. There is none where the block ends before. -/
def str (z : α) (mem : List α) (i : Nat) : Option (List α) :=
  if z ∈ mem.drop i then some ((mem.drop i).takeWhile (· != z)) else none

/-- A text is put behind the string at a place, with a `z`. -/
def strcat (z : α) (mem : List α) (i : Nat) (xs : List α) : Option (List α) := do
  write mem (i + (← str z mem i).length) (xs ++ [z])

theorem takeWhile_text (hz : z ∉ text) (rest : List α) : (text ++ z :: rest).takeWhile (· != z) = text := by
  have hall : ∀ c ∈ text, (c != z) = true := fun c hc => bne_iff_ne.mpr fun heq => hz (heq ▸ hc)
  rw [List.takeWhile_append_of_pos hall, List.takeWhile_cons_of_neg (by simp), List.append_nil]

theorem str_run (h : mem.drop i = text ++ z :: rest) (hz : z ∉ text) : str z mem i = some text := by
  rw [str, h, if_pos (by simp), takeWhile_text hz]

theorem str_of_take (h : mem.take (text.length + 1) = text ++ [z]) (hz : z ∉ text) : str z mem 0 = some text := by
  have hsplit : mem = text ++ z :: mem.drop (text.length + 1) := by
    calc mem = mem.take (text.length + 1) ++ mem.drop (text.length + 1) := (List.take_append_drop _ _).symm
      _ = text ++ z :: mem.drop (text.length + 1) := by rw [h, List.append_assoc, List.singleton_append]
  exact str_run hsplit hz

/-- A text behind the cells in front of a `z`, where it fits. -/
theorem strcat_text (out : List α) (h : xs.length ≤ rest.length) :
    strcat z (out ++ z :: rest) out.length xs = some (out ++ xs ++ z :: rest.drop xs.length) := by
  have hdrop : (out ++ z :: rest).drop out.length = [] ++ z :: rest := List.drop_left
  have hstr := str_run hdrop List.not_mem_nil
  have hcells : z :: rest = (z :: rest).take (xs.length + 1) ++ rest.drop xs.length := (List.take_append_drop _ _).symm
  have hlen : (xs ++ [z]).length = ((z :: rest).take (xs.length + 1)).length := by
    rw [List.length_append, List.length_singleton, List.length_take, List.length_cons]
    omega
  rw [strcat, hstr, Option.bind_eq_bind, Option.bind_some, List.length_nil, Nat.add_zero out.length, hcells,
    write_over _ _ hlen]
  simp

/-- A text behind the cells that were written, where the others are all `z`. -/
theorem strcat_replicate {k : Nat} (out : List α) (h : xs.length < k) :
    strcat z (out ++ List.replicate k z) out.length xs = some (out ++ xs ++ List.replicate (k - xs.length) z) := by
  obtain ⟨n, rfl⟩ : ∃ n, k = n + 1 := ⟨k - 1, by omega⟩
  have hdrop : (out ++ List.replicate (n + 1) z).drop out.length = [] ++ z :: List.replicate n z := List.drop_left
  have hstr := str_run hdrop List.not_mem_nil
  have hlen : (xs ++ [z]).length ≤ n + 1 := by
    rw [List.length_append, List.length_singleton]
    omega
  have hrest : n + 1 - xs.length = n + 1 - (xs ++ [z]).length + 1 := by
    rw [List.length_append, List.length_singleton] at hlen ⊢
    omega
  rw [strcat, hstr, Option.bind_eq_bind, Option.bind_some, List.length_nil, Nat.add_zero out.length,
    write_replicate z out hlen, hrest, List.replicate_succ]
  simp

end Strings

/-! ### Sizes -/

/-- A size that is computed as an `int`, or `none` where that overflows. -/
def int (n : Nat) : Option Nat := if n < 2 ^ 31 then some n else none

theorem int_eq_some {n m : Nat} : int n = some m ↔ n < 2 ^ 31 ∧ m = n := by
  unfold int
  by_cases h : n < 2 ^ 31
  · rw [if_pos h, Option.some.injEq, eq_comm, and_iff_right h]
  · rw [if_neg h]
    exact ⟨nofun, fun hn => absurd hn.1 h⟩

/-- What follows a sum may rely on its bound. -/
theorem int_congr {β : Type} {f g : Nat → Option β} (h : ∀ k, k < 2 ^ 31 → f k = g k) (n : Nat) :
    (int n).bind f = (int n).bind g := by
  unfold int
  split
  · rename_i hlt
    exact h n hlt
  · rfl

/-- Two sums in a row. -/
theorem int_add (n m : Nat) : (int n).bind (fun k => int (k + m)) = int (n + m) := by
  unfold int
  by_cases h : n < 2 ^ 31
  · rw [if_pos h, Option.bind_some]
  · rw [if_neg h, if_neg (by omega)]
    rfl

/-! ### Loops that read -/

/-- A loop goes on behind each cell that passes the test: the first place that does not. There is none where a cell is
read past the end of the block, or the rounds are not enough. -/
def skip (mem : List α) (test : α → Bool) : Nat → Nat → Option Nat
  | 0, _ => none
  | n + 1, i => do
      let c ← mem[i]?
      if test c then skip mem test n (i + 1) else some i

/-- A pattern is compared with the cells from a place on, up to the first that does not agree. -/
def agrees {β : Type} (mem : List α) (same : β → α → Bool) : List β → Nat → Option Bool
  | [], _ => some true
  | b :: pat, i => do
      let c ← mem[i]?
      if same b c then agrees mem same pat (i + 1) else some false

/-- The pattern agrees with the text, cell by cell. -/
def isPrefixBy {β : Type} (same : β → α → Bool) : List β → List α → Bool
  | [], _ => true
  | _ :: _, [] => false
  | b :: pat, c :: text => same b c && isPrefixBy same pat text

section Reads

variable {text pad : List α} {z : α}

theorem read_of_lt {i : Nat} (h : i < text.length) : (text ++ pad)[i]? = some text[i] := by
  rw [List.getElem?_append_left h, List.getElem?_eq_getElem h]

/-- The cell behind the text. -/
theorem read_end : (text ++ z :: pad)[text.length]? = some z := by
  rw [List.getElem?_append_right (Nat.le_refl _), Nat.sub_self, List.getElem?_cons_zero]

/-- A loop that the cell behind the text stops ends in the text or there. -/
theorem skip_run {test : α → Bool} (hz : test z = false) {n i : Nat} (hi : i ≤ text.length) (hn : text.length < n + i) :
    skip (text ++ z :: pad) test n i = some (i + ((text.drop i).takeWhile test).length) := by
  induction n generalizing i with
  | zero => omega
  | succ n ih =>
      rw [skip]
      rcases Nat.lt_or_eq_of_le hi with hlt | rfl
      · rw [read_of_lt hlt, List.drop_eq_getElem_cons hlt]
        by_cases htest : test text[i] = true
        · rw [List.takeWhile_cons_of_pos htest, List.length_cons]
          simp only [Option.bind_eq_bind, Option.bind_some, if_pos htest]
          rw [ih (i := i + 1) hlt (by omega), Option.some.injEq]
          omega
        · rw [List.takeWhile_cons_of_neg htest]
          simp [htest]
      · rw [read_end, List.drop_length]
        simp [hz]

/-- A pattern that the cell behind the text does not agree with is compared with the text. -/
theorem agrees_run {β : Type} {same : β → α → Bool} {pat : List β} (hz : ∀ b ∈ pat, same b z = false) {i : Nat}
    (hi : i ≤ text.length) : agrees (text ++ z :: pad) same pat i = some (isPrefixBy same pat (text.drop i)) := by
  induction pat generalizing i with
  | nil => rfl
  | cons b pat ih =>
      rw [agrees]
      rcases Nat.lt_or_eq_of_le hi with hlt | rfl
      · rw [read_of_lt hlt, List.drop_eq_getElem_cons hlt, isPrefixBy]
        by_cases hsame : same b text[i] = true
        · simp only [Option.bind_eq_bind, Option.bind_some, hsame, if_true, Bool.true_and]
          exact ih (fun d hd => hz d (List.mem_cons_of_mem b hd)) hlt
        · simp [hsame]
      · rw [read_end, List.drop_length]
        simp [hz b List.mem_cons_self, isPrefixBy]

theorem isPrefixBy_beq [BEq α] (pat text : List α) : isPrefixBy (· == ·) pat text = pat.isPrefixOf text := by
  induction pat generalizing text with
  | nil => rfl
  | cons b pat ih =>
      cases text with
      | nil => rfl
      | cons c text => rw [isPrefixBy, List.isPrefixOf, ih]

/-- A pattern that agrees is no longer than the text. -/
theorem length_le_of_isPrefixBy {β : Type} {same : β → α → Bool} {pat : List β} (h : isPrefixBy same pat text = true) :
    pat.length ≤ text.length := by
  induction pat generalizing text with
  | nil => exact Nat.zero_le _
  | cons b pat ih =>
      cases text with
      | nil => cases h
      | cons c text =>
          rw [isPrefixBy, Bool.and_eq_true] at h
          exact Nat.succ_le_succ (ih h.2)

end Reads

end NullG.Lib.Memory
