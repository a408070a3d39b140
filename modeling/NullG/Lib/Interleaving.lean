/-
Programs that take turns.

Every program has a state of its own, and all of them share one. A run is a list of steps, each of
one program, in any order. A `Discipline` says which resources of the shared state a program holds
and what it knows of them: a step that keeps what its own program knows, and changes nothing but what
this program holds, keeps what all programs know.
-/

import Mathlib.Logic.Function.Basic

namespace NullG.Lib

variable {ι σ φ ε ν : Type} [DecidableEq ι]

/-! ### Runs -/

/-- A step of a program; `step` is what it does. -/
def stepAt (step : ι → ε → σ → φ → Option (σ × φ)) (s : σ × (ι → φ)) (x : ι × ε) : Option (σ × (ι → φ)) :=
  (step x.1 x.2 s.1 (s.2 x.1)).map fun r => (r.1, Function.update s.2 x.1 r.2)

/-- The steps one behind the other, if all of them can be taken. -/
def interleave (step : ι → ε → σ → φ → Option (σ × φ)) : σ × (ι → φ) → List (ι × ε) → Option (σ × (ι → φ))
  | s, [] => some s
  | s, x :: xs => (stepAt step s x).bind fun t => interleave step t xs

/-- All steps that are taken are taken in states where `P` allows it. -/
def Always (step : ι → ε → σ → φ → Option (σ × φ)) (P : σ × (ι → φ) → ι × ε → Prop) :
    σ × (ι → φ) → List (ι × ε) → Prop
  | _, [] => True
  | s, x :: xs => P s x ∧
      match stepAt step s x with
      | none => True
      | some t => Always step P t xs

instance decidableAlways (step : ι → ε → σ → φ → Option (σ × φ)) (P : σ × (ι → φ) → ι × ε → Prop)
    [∀ s x, Decidable (P s x)] : ∀ s xs, Decidable (Always step P s xs)
  | _, [] => isTrue trivial
  | s, x :: xs =>
      have : Decidable (match stepAt step s x with
          | none => True
          | some t => Always step P t xs) :=
        match stepAt step s x with
        | none => isTrue trivial
        | some t => decidableAlways step P t xs
      inferInstanceAs (Decidable (P s x ∧ _))

/-- What every allowed step keeps is kept by a run of them. -/
theorem interleave_keeps {step : ι → ε → σ → φ → Option (σ × φ)} {P : σ × (ι → φ) → ι × ε → Prop}
    {A : σ × (ι → φ) → Prop} (hstep : ∀ s x t, A s → P s x → stepAt step s x = some t → A t) {s t : σ × (ι → φ)}
    {xs : List (ι × ε)} (hs : A s) (halways : Always step P s xs) (hrun : interleave step s xs = some t) : A t := by
  induction xs generalizing s with
  | nil =>
      cases hrun
      exact hs
  | cons x xs ih =>
      obtain ⟨u, hu, hrest⟩ := Option.bind_eq_some_iff.mp hrun
      obtain ⟨hallowed, hnext⟩ := halways
      rw [hu] at hnext
      exact ih (hstep s x u hs hallowed hu) hnext hrest

/-! ### Resources -/

/-- How programs use the resources of the state that they share. -/
structure Discipline (ι σ φ ν : Type) where
  /-- a program in this state holds the resource -/
  Holds : φ → ν → Prop
  /-- what a program knows of the shared state -/
  Knows : ι → φ → σ → Prop
  /-- two shared states agree at a resource -/
  Agrees : σ → σ → ν → Prop
  /-- a program only knows of what it holds -/
  frame : ∀ i a s t, (∀ p, Holds a p → Agrees s t p) → Knows i a s → Knows i a t

/-- All programs know what they should, and nothing is held by two of them. -/
structure Discipline.Inv (D : Discipline ι σ φ ν) (s : σ × (ι → φ)) : Prop where
  knows : ∀ i, D.Knows i (s.2 i) s.1
  apart : ∀ i j p, i ≠ j → D.Holds (s.2 i) p → ¬ D.Holds (s.2 j) p

/-- A step keeps the invariant if its program knows what it should then, and if only what this program
held or has taken has changed. What it takes must be held by nobody. -/
theorem Discipline.Inv.step {D : Discipline ι σ φ ν} {s : σ × (ι → φ)} (h : D.Inv s) {i : ι} {t : σ} {a : φ}
    (hknows : D.Knows i a t) (hagrees : ∀ p, ¬ D.Holds (s.2 i) p → ¬ D.Holds a p → D.Agrees s.1 t p)
    (htaken : ∀ p, D.Holds a p → D.Holds (s.2 i) p ∨ ∀ j, j ≠ i → ¬ D.Holds (s.2 j) p) :
    D.Inv (t, Function.update s.2 i a) := by
  -- what another program holds is not held by this one, neither before nor behind the step
  have hothers : ∀ j, j ≠ i → ∀ p, D.Holds (s.2 j) p → ¬ D.Holds (s.2 i) p ∧ ¬ D.Holds a p := by
    intro j hj p hp
    refine ⟨fun hold => h.apart i j p (Ne.symm hj) hold hp, fun hnow => ?_⟩
    rcases htaken p hnow with hold | hfree
    · exact h.apart i j p (Ne.symm hj) hold hp
    · exact hfree j hj hp
  refine ⟨fun j => ?_, fun j k p hjk hj hk => ?_⟩
  · dsimp only
    by_cases hj : j = i
    · rw [hj, Function.update_self]
      exact hknows
    · rw [Function.update_of_ne hj]
      refine D.frame j _ s.1 t (fun p hp => ?_) (h.knows j)
      obtain ⟨hold, hnow⟩ := hothers j hj p hp
      exact hagrees p hold hnow
  · dsimp only at hj hk
    by_cases hji : j = i
    · rw [hji, Function.update_self] at hj
      have hki : k ≠ i := fun hki => hjk (hji.trans hki.symm)
      rw [Function.update_of_ne hki] at hk
      exact (hothers k hki p hk).2 hj
    · rw [Function.update_of_ne hji] at hj
      by_cases hki : k = i
      · rw [hki, Function.update_self] at hk
        exact (hothers j hji p hj).2 hk
      · rw [Function.update_of_ne hki] at hk
        exact h.apart j k p hjk hj hk

end NullG.Lib
