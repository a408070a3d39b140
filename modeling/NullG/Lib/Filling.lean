/-
Lines that are filled with items of some width.

An item is put on the line that is begun if that stays shorter than `max`, and else it begins the next one. Nothing is
lost or moved (`fill_flatten`), every line is shorter than `max` (`fill_short`), and what fits on the first line is one
line (`fill_single`). `joined` is the text of such lines, with a separator between them.
-/

import Mathlib.Algebra.Ring.Nat
import Mathlib.Data.List.Basic

namespace NullG.Lib.Filling

variable {α β : Type}

/-! ### Filling -/

/-- One more item in front of the first line. -/
def place (x : α) : List (List α) → List (List α)
  | [] => [[x]]
  | line :: lines => (x :: line) :: lines

/-- The lines of the items, where `n` is used on the first one. -/
def fill (w : α → Nat) (max n : Nat) : List α → List (List α)
  | [] => [[]]
  | x :: xs =>
      if n + w x < max then place x (fill w max (n + w x) xs)
      else [] :: place x (fill w max (w x) xs)

/-- The width of a line. -/
def width (w : α → Nat) (line : List α) : Nat := (line.map w).sum

section

variable {w : α → Nat} {max n : Nat} {x : α} {xs : List α} {lines : List (List α)}

theorem place_flatten : (place x lines).flatten = x :: lines.flatten := by
  cases lines <;> rfl

theorem place_ne_nil (x : α) (lines : List (List α)) : place x lines ≠ [] := by
  cases lines <;> exact List.cons_ne_nil _ _

theorem fill_ne_nil (w : α → Nat) (max n : Nat) (xs : List α) : fill w max n xs ≠ [] := by
  cases xs with
  | nil => exact List.cons_ne_nil _ _
  | cons x xs =>
      rw [fill]
      split
      · exact place_ne_nil _ _
      · exact List.cons_ne_nil _ _

theorem fill_flatten (w : α → Nat) (max n : Nat) (xs : List α) : (fill w max n xs).flatten = xs := by
  induction xs generalizing n with
  | nil => rfl
  | cons x xs ih =>
      rw [fill]
      split
      · rw [place_flatten, ih]
      · rw [List.flatten_cons, place_flatten, ih, List.nil_append]

theorem width_cons (x : α) (line : List α) : width w (x :: line) = w x + width w line := rfl

theorem width_append (line line' : List α) : width w (line ++ line') = width w line + width w line' := by
  rw [width, List.map_append, List.sum_append]
  rfl

/-- Every line is shorter than `max`, the first one with what is used on it. -/
theorem fill_short (hw : ∀ x ∈ xs, w x < max) (hn : n < max) : ∃ line lines, fill w max n xs = line :: lines ∧
    n + width w line < max ∧ ∀ line ∈ lines, width w line < max := by
  induction xs generalizing n with
  | nil => exact ⟨[], [], rfl, hn, by simp⟩
  | cons x xs ih =>
      obtain ⟨hx, hxs⟩ := List.forall_mem_cons.mp hw
      rw [fill]
      by_cases hfits : n + w x < max
      · obtain ⟨line, lines, hfill, hline, hlines⟩ := ih hxs hfits
        rw [if_pos hfits, hfill]
        refine ⟨x :: line, lines, rfl, ?_, hlines⟩
        rw [width_cons]
        omega
      · obtain ⟨line, lines, hfill, hline, hlines⟩ := ih hxs hx
        rw [if_neg hfits, hfill]
        refine ⟨[], (x :: line) :: lines, rfl, hn, List.forall_mem_cons.mpr ⟨?_, hlines⟩⟩
        rw [width_cons]
        exact hline

theorem place_length (h : lines ≠ []) : (place x lines).length = lines.length := by
  cases lines with
  | nil => exact absurd rfl h
  | cons line lines => rfl

/-- What fits is one line, and what does not is more than one. -/
theorem fill_single (hn : n < max) : (fill w max n xs).length = 1 ↔ n + width w xs < max := by
  induction xs generalizing n with
  | nil => exact iff_of_true rfl hn
  | cons x xs ih =>
      rw [fill, width_cons, ← Nat.add_assoc]
      by_cases hfits : n + w x < max
      · rw [if_pos hfits, place_length (fill_ne_nil _ _ _ _)]
        exact ih hfits
      · rw [if_neg hfits, List.length_cons]
        have hne := List.length_pos_iff.mpr (place_ne_nil x (fill w max (w x) xs))
        omega

end

/-! ### Joining -/

/-- The text of lines, with `sep` between them. -/
def joined (sep : List β) (f : α → List β) (lines : List (List α)) : List β := sep.intercalate (lines.map (·.flatMap f))

section

variable {sep : List β} {f : α → List β} {x : α} {line : List α} {lines : List (List α)}

theorem joined_single (line : List α) : joined sep f [line] = line.flatMap f := by
  simp [joined]

theorem joined_cons (h : lines ≠ []) : joined sep f (line :: lines) = line.flatMap f ++ sep ++ joined sep f lines := by
  cases lines with
  | nil => exact absurd rfl h
  | cons line' lines => simp [joined, List.intercalate]

theorem joined_place (h : lines ≠ []) : joined sep f (place x lines) = f x ++ joined sep f lines := by
  cases lines with
  | nil => exact absurd rfl h
  | cons line lines =>
      by_cases hlines : lines = []
      · subst hlines
        rw [place, joined_single, joined_single, List.flatMap_cons]
      · rw [place, joined_cons hlines, joined_cons hlines, List.flatMap_cons]
        simp only [List.append_assoc]

/-- A separator for each line but the last. -/
theorem joined_length (h : lines ≠ []) : (joined sep f lines).length =
    width (fun x => (f x).length) lines.flatten + sep.length * (lines.length - 1) := by
  have hline : ∀ line : List α, (line.flatMap f).length = width (fun x => (f x).length) line :=
    fun line => List.length_flatMap
  induction lines with
  | nil => exact absurd rfl h
  | cons line lines ih =>
      by_cases hlines : lines = []
      · subst hlines
        rw [joined_single, hline, List.flatten_singleton]
        simp
      · obtain ⟨k, hk⟩ := Nat.exists_eq_succ_of_ne_zero (mt List.eq_nil_of_length_eq_zero hlines)
        rw [joined_cons hlines, List.flatten_cons, width_append, List.length_append, List.length_append, ih hlines,
          hline, List.length_cons, hk, Nat.add_sub_cancel, Nat.succ_sub_one, Nat.succ_eq_add_one, Nat.mul_succ]
        omega

end

end NullG.Lib.Filling
