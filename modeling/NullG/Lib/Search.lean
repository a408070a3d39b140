/-
A search that does not go back.

A matcher that keeps one place in the pattern and one in the text begins a try behind the element where the last one
failed, and never looks at that try again. So it finds a pattern just where one of its tries begins, and `Tried` says
where that is: behind pieces that are each a beginning of the pattern and one more element that does not continue it.
-/

import Mathlib.Data.List.Infix
import Mathlib.Data.Nat.Find

namespace NullG.Lib

variable {α β : Type} {t s u v : List α}

/-- A text that is empty, or made of tries that failed: the next try begins behind it. -/
inductive Tried (t : List α) : List α → Prop where
  | nil : Tried t []
  | fail {m : Nat} {c : α} {u : List α} : m < t.length → t[m]? ≠ some c → Tried t u → Tried t (t.take m ++ c :: u)

/-- `u` is what stands before the first place of `t` in `s`. -/
structure IsFirst (t s u : List α) : Prop where
  occurs : u ++ t <+: s
  least : ∀ v, v ++ t <+: s → u.length ≤ v.length

theorem IsFirst.isPrefix (h : IsFirst t s u) : u <+: s := (List.prefix_append u t).trans h.occurs

/-- Beginnings of one length are one. -/
theorem prefix_inj (hu : u <+: s) (hv : v <+: s) (h : u.length = v.length) : u = v :=
  (List.prefix_of_prefix_length_le hu hv h.le).eq_of_length h

/-- What stands somewhere has a first place. -/
theorem exists_isFirst (h : t <:+: s) : ∃ u, IsFirst t s u := by
  classical
  have hex : ∃ n u, u.length = n ∧ u ++ t <+: s := by
    obtain ⟨u, r, h⟩ := h
    exact ⟨u.length, u, rfl, r, h⟩
  obtain ⟨u, hlen, hocc⟩ := Nat.find_spec hex
  refine ⟨u, hocc, ?_⟩
  intro v hv
  rw [hlen]
  exact Nat.find_min' hex ⟨v, rfl, hv⟩

theorem IsFirst.isInfix (h : IsFirst t s u) : t <:+: s := by
  obtain ⟨r, hr⟩ := h.occurs
  exact ⟨u, r, hr⟩

/-- The next try, one element longer. -/
theorem take_succ_of_getElem? {m : Nat} {c : α} (h : t[m]? = some c) : t.take (m + 1) = t.take m ++ [c] := by
  rw [List.take_add_one, h]
  rfl

end NullG.Lib
