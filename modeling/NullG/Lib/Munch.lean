/-
The longest word that an automaton reads in front of a text.

Every state accepts, so the words that are read are closed under prefixes, and a text has one longest.
-/

import Mathlib.Data.List.Basic

namespace NullG.Lib.Munch

variable {σ α : Type}

/-- The state behind a word, if it is read. -/
def read (next : σ → α → Option σ) (q : σ) (w : List α) : Option σ := w.foldlM next q

/-- The text behind the longest word. -/
def munch (next : σ → α → Option σ) (q : σ) : List α → List α
  | [] => []
  | c :: s =>
      match next q c with
      | some q' => munch next q' s
      | none => c :: s

variable {next : σ → α → Option σ} {q q' q₁ q₂ : σ} {c : α} {w w' s r r' : List α}

@[simp] theorem read_nil : read next q [] = some q := rfl

theorem read_cons : read next q (c :: w) = (next q c).bind fun q' => read next q' w := rfl

theorem read_append : read next q (w ++ w') = (read next q w).bind fun q' => read next q' w' := by
  unfold read
  rw [List.foldlM_append]
  rfl

theorem munch_cons_some (h : next q c = some q') : munch next q (c :: s) = munch next q' s := by
  rw [munch, h]

theorem munch_cons_none (h : next q c = none) : munch next q (c :: s) = c :: s := by
  rw [munch, h]

/-- The longest word, and why it is. -/
theorem munch_spec (next : σ → α → Option σ) (q : σ) (s : List α) :
    ∃ w q', s = w ++ munch next q s ∧ read next q w = some q' ∧ ∀ c ∈ (munch next q s).head?, next q' c = none := by
  induction s generalizing q with
  | nil => exact ⟨[], q, rfl, rfl, by simp [munch]⟩
  | cons c s ih =>
      cases h : next q c with
      | none =>
          rw [munch_cons_none h]
          refine ⟨[], q, rfl, rfl, ?_⟩
          rintro d hd
          obtain rfl : c = d := by simpa using hd
          exact h
      | some q₁ =>
          rw [munch_cons_some h]
          obtain ⟨w, q', hs, hread, hstop⟩ := ih q₁
          refine ⟨c :: w, q', ?_, ?_, hstop⟩
          · rw [List.cons_append, ← hs]
          · rw [read_cons, h]
            exact hread

/-- A word that cannot be prolonged is the longest. -/
theorem munch_append (hread : read next q w = some q') (hstop : ∀ c ∈ r.head?, next q' c = none) :
    munch next q (w ++ r) = r := by
  induction w generalizing q with
  | nil =>
      obtain rfl : q = q' := Option.some.inj hread
      cases r with
      | nil => rfl
      | cons c r => exact munch_cons_none (hstop c rfl)
  | cons c w ih =>
      rw [read_cons] at hread
      obtain ⟨q₁, hnext, hrest⟩ := Option.bind_eq_some_iff.mp hread
      rw [List.cons_append, munch_cons_some hnext]
      exact ih hrest

/-- The longest word is one only. -/
theorem munch_unique (heq : w ++ r = w' ++ r') (hread : read next q w = some q₁) (hread' : read next q w' = some q₂)
    (hstop : ∀ c ∈ r.head?, next q₁ c = none) (hstop' : ∀ c ∈ r'.head?, next q₂ c = none) : w = w' ∧ r = r' := by
  have hr : r = r' := by
    rw [← munch_append hread hstop, heq, munch_append hread' hstop']
  subst hr
  exact ⟨List.append_cancel_right heq, rfl⟩

end NullG.Lib.Munch
