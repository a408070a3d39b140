/-
Loops that may run forever.

The body of a loop ends it with a result, or goes on with a new state. `rounds` runs as many rounds as it is given; the
loop halts if some number of them is enough.
-/

import Mathlib.Logic.Basic

namespace NullG.Lib

variable {σ ρ : Type} {body : σ → ρ ⊕ σ} {s s' : σ} {r r' : ρ}

/-- The rounds of a loop: there is no result if they are not enough. -/
def rounds (body : σ → ρ ⊕ σ) : Nat → σ → Option ρ
  | 0, _ => none
  | fuel + 1, s =>
      match body s with
      | .inl r => some r
      | .inr s => rounds body fuel s

/-- The loop ends with a result. -/
def HaltsWith (body : σ → ρ ⊕ σ) (s : σ) (r : ρ) : Prop := ∃ fuel, rounds body fuel s = some r

theorem haltsWith_of_end (h : body s = .inl r) : HaltsWith body s r' ↔ r' = r := by
  constructor
  · rintro ⟨fuel, hrun⟩
    cases fuel with
    | zero => exact nomatch hrun
    | succ fuel =>
        rw [rounds, h] at hrun
        exact (Option.some.inj hrun).symm
  · rintro rfl
    exact ⟨1, by rw [rounds, h]⟩

theorem haltsWith_of_next (h : body s = .inr s') : HaltsWith body s r ↔ HaltsWith body s' r := by
  constructor
  · rintro ⟨fuel, hrun⟩
    cases fuel with
    | zero => exact nomatch hrun
    | succ fuel =>
        rw [rounds, h] at hrun
        exact ⟨fuel, hrun⟩
  · rintro ⟨fuel, hrun⟩
    exact ⟨fuel + 1, by rw [rounds, h]; exact hrun⟩

/-- A loop that goes on from every state of a kind with a state of this kind runs forever. -/
theorem not_haltsWith (I : σ → Prop) (hstep : ∀ s, I s → ∃ s', body s = .inr s' ∧ I s') (hs : I s) :
    ¬ HaltsWith body s r := by
  rintro ⟨fuel, hrun⟩
  induction fuel generalizing s with
  | zero => exact nomatch hrun
  | succ fuel ih =>
      obtain ⟨s', hbody, hs'⟩ := hstep s hs
      rw [rounds, hbody] at hrun
      exact ih hs' hrun

end NullG.Lib
