/-
Lists that are cut where one element follows another.
-/

import Mathlib.Logic.Basic

namespace NullG.Lib

variable {α : Type} [DecidableEq α] {a b : α}

/-- What stands between the places where `b` follows `a`. -/
def separated (a b : α) : List α → List (List α)
  | [] => [[]]
  | [c] => [[c]]
  | c :: d :: l =>
      if c = a ∧ d = b then [] :: separated a b l
      else
        match separated a b (d :: l) with
        | [] => [[c]]
        | p :: ps => (c :: p) :: ps

theorem separated_ne_nil (l : List α) : separated a b l ≠ [] := by
  unfold separated
  split
  · exact List.cons_ne_nil _ _
  · exact List.cons_ne_nil _ _
  · split
    · exact List.cons_ne_nil _ _
    · split <;> exact List.cons_ne_nil _ _

theorem separated_cut (l : List α) : separated a b (a :: b :: l) = [] :: separated a b l := if_pos ⟨rfl, rfl⟩

theorem separated_cons {c : α} {l : List α} (h : ¬ (c = a ∧ l.head? = some b)) :
    ∃ p ps, separated a b l = p :: ps ∧ separated a b (c :: l) = (c :: p) :: ps := by
  cases l with
  | nil => exact ⟨[], [], rfl, rfl⟩
  | cons d l =>
      have hcut : ¬ (c = a ∧ d = b) := fun heq => h ⟨heq.1, congrArg some heq.2⟩
      obtain ⟨p, ps, hps⟩ := List.exists_cons_of_ne_nil (separated_ne_nil (a := a) (b := b) (d :: l))
      exact ⟨p, ps, hps, by rw [separated, if_neg hcut, hps]⟩

/-- A list that is cut in one place is cut before it and behind it as if each part stood alone. -/
theorem separated_append (hab : a ≠ b) (x y : List α) :
    separated a b (x ++ a :: b :: y) = separated a b x ++ separated a b y := by
  induction x using separated.induct a b with
  | case1 => exact separated_cut y
  | case2 c =>
      have hcut : ¬ (c = a ∧ (a :: b :: y).head? = some b) := fun h => hab (Option.some.inj h.2)
      obtain ⟨p, ps, hps, hcons⟩ := separated_cons hcut
      rw [separated_cut] at hps
      obtain ⟨rfl, rfl⟩ := List.cons.inj hps
      rw [List.singleton_append, hcons]
      rfl
  | case3 c d l hcut ih =>
      rw [List.cons_append, List.cons_append, separated, if_pos hcut, ih, separated, if_pos hcut, List.cons_append]
  | case4 c d l hcut hnil ih => exact absurd hnil (separated_ne_nil _)
  | case5 c d l hcut p ps hps ih =>
      rw [List.cons_append] at ih
      rw [List.cons_append, List.cons_append, separated, if_neg hcut, ih, hps, separated, if_neg hcut, hps]
      rfl

/-- Nothing is lost. -/
theorem separated_flatMap (l : List α) : (separated a b l).flatMap (· ++ [a, b]) = l ++ [a, b] := by
  induction l using separated.induct a b with
  | case1 => rfl
  | case2 c => rfl
  | case3 c d l hcut ih =>
      obtain ⟨rfl, rfl⟩ := hcut
      rw [separated_cut, List.flatMap_cons, ih]
      rfl
  | case4 c d l hcut hnil ih => exact absurd hnil (separated_ne_nil _)
  | case5 c d l hcut p ps hps ih =>
      rw [hps, List.flatMap_cons] at ih
      rw [separated, if_neg hcut, hps]
      dsimp only
      rw [List.flatMap_cons, List.cons_append, List.cons_append, ih]
      rfl

end NullG.Lib
