/-
Readers that are called again and again.

A call returns a value and changes the state, or there is none left. `Yields` says which values the calls return, one
after the other, until there is none.
-/

import Mathlib.Logic.Basic

namespace NullG.Lib

variable {σ α : Type} {call : σ → α → σ → Prop} {done : σ → Prop} {s s' : σ} {v : α} {vs : List α}

/-- The calls from the state `s` on return the values and then nothing. -/
inductive Yields (call : σ → α → σ → Prop) (done : σ → Prop) : σ → List α → Prop where
  | stop {s : σ} : done s → Yields call done s []
  | next {s s' : σ} {v : α} {vs : List α} : call s v s' → Yields call done s' vs → Yields call done s (v :: vs)

theorem yields_nil_iff : Yields call done s [] ↔ done s := by
  constructor
  · intro h
    cases h
    assumption
  · exact .stop

theorem yields_cons_iff : Yields call done s (v :: vs) ↔ ∃ s', call s v s' ∧ Yields call done s' vs := by
  constructor
  · intro h
    cases h with
    | next hcall hrest => exact ⟨_, hcall, hrest⟩
  · rintro ⟨s', hcall, hrest⟩
    exact .next hcall hrest

end NullG.Lib
