/-
Exchange sort.

Each place is compared with those behind it, and the two change places when the key of the place is the larger one. So a
round leaves the least key in its place (`round_le`), and the rounds sort (`exchanges_sorted`).
-/

import Mathlib.Data.List.Perm.Basic
import Mathlib.Order.Lattice

namespace NullG.Lib.Exchange

variable {α κ : Type} [LinearOrder κ] {key : α → κ} {x y : α} {l : List α}

/-- A round: what is in its place at the end, and what is behind it. -/
def round (key : α → κ) : α → List α → α × List α
  | x, [] => (x, [])
  | x, y :: l =>
      if key y < key x then ((round key y l).1, x :: (round key y l).2)
      else ((round key x l).1, y :: (round key x l).2)

/-- So many rounds, from the first place on. -/
def exchanges (key : α → κ) : Nat → List α → List α
  | n + 1, x :: l => (round key x l).1 :: exchanges key n (round key x l).2
  | _, l => l

theorem round_perm (x : α) (l : List α) : ((round key x l).1 :: (round key x l).2).Perm (x :: l) := by
  induction l generalizing x with
  | nil => exact .refl _
  | cons y l ih =>
      rw [round]
      split
      · exact (List.Perm.swap x _ _).trans ((ih y).cons x)
      · exact (List.Perm.swap y _ _).trans (((ih x).cons y).trans (List.Perm.swap x y l))

/-- A round leaves the least key in its place. -/
theorem round_le (x : α) (l : List α) : ∀ y ∈ x :: l, key (round key x l).1 ≤ key y := by
  induction l generalizing x with
  | nil =>
      intro y hy
      rw [List.mem_singleton.mp hy]
      exact le_refl _
  | cons z l ih =>
      intro y hy
      rw [round]
      split
      · rename_i hlt
        rcases List.mem_cons.mp hy with rfl | hy
        · exact (ih z z List.mem_cons_self).trans hlt.le
        · exact ih z y hy
      · rename_i hle
        rcases List.mem_cons.mp hy with rfl | hy
        · exact ih y y List.mem_cons_self
        · rcases List.mem_cons.mp hy with rfl | hy
          · exact (ih x x List.mem_cons_self).trans (not_lt.mp hle)
          · exact ih x y (List.mem_cons_of_mem x hy)

theorem exchanges_perm (n : Nat) (l : List α) : (exchanges key n l).Perm l := by
  induction n generalizing l with
  | zero => exact .refl _
  | succ n ih =>
      cases l with
      | nil => exact .refl _
      | cons x l => exact ((ih _).cons _).trans (round_perm x l)

/-- As many rounds as there are places sort. -/
theorem exchanges_sorted {n : Nat} (h : l.length ≤ n) : (exchanges key n l).Pairwise fun a b => key a ≤ key b := by
  induction n generalizing l with
  | zero =>
      obtain rfl := List.length_eq_zero_iff.mp (Nat.le_zero.mp h)
      exact .nil
  | succ n ih =>
      cases l with
      | nil => exact .nil
      | cons x l =>
          have hperm : ((round key x l).1 :: (round key x l).2).Perm (x :: l) := round_perm x l
          have hlength : (round key x l).2.length = l.length := Nat.succ.inj hperm.length_eq
          refine List.pairwise_cons.mpr ⟨fun y hy => ?_, ih (by rw [hlength]; exact Nat.le_of_succ_le_succ h)⟩
          have hy' : y ∈ (round key x l).2 := (exchanges_perm n _).mem_iff.mp hy
          exact round_le x l y (hperm.mem_iff.mp (List.mem_cons_of_mem _ hy'))

end NullG.Lib.Exchange
