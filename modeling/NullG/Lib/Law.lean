/-
Laws of stateful programs.

A `Law` relates the state before a run to the state after it: `ok` where the run ends with a
value and `err` where it ends with an error. Programs that obey a law can be put together, so
that a law has to be checked of the primitive programs only.
-/

import Mathlib.Logic.Basic

namespace NullG.Lib

/-- A relation of the states before and after a run, which adds up along runs. -/
structure Law (ε σ : Type) where
  ok : σ → σ → Prop
  err : ε → σ → σ → Prop
  ok_refl : ∀ s, ok s s
  err_refl : ∀ e s, err e s s
  ok_trans : ∀ {s t u}, ok s t → ok t u → ok s u
  err_trans : ∀ {e s t u}, ok s t → err e t u → err e s u

namespace Law

variable {ε σ α β : Type} {L : Law ε σ}

/-- What a law says of one result. -/
def Holds (L : Law ε σ) (s : σ) : EStateM.Result ε σ α → Prop
  | .ok _ s' => L.ok s s'
  | .error e s' => L.err e s s'

/-- A program whose runs obey the law. -/
def Obeys (L : Law ε σ) (x : EStateM ε σ α) : Prop := ∀ s, L.Holds s (x s)

theorem Holds.of_ok {s s' : σ} {a : α} {r : EStateM.Result ε σ α} (h : L.Holds s r)
    (hr : r = .ok a s') : L.ok s s' := by
  subst hr
  exact h

theorem Holds.of_error {s s' : σ} {e : ε} {r : EStateM.Result ε σ α} (h : L.Holds s r)
    (hr : r = .error e s') : L.err e s s' := by
  subst hr
  exact h

namespace Obeys

theorem pure (a : α) : L.Obeys (pure a : EStateM ε σ α) := L.ok_refl

theorem throw (e : ε) : L.Obeys (throw e : EStateM ε σ α) := L.err_refl e

theorem bind {x : EStateM ε σ α} {f : α → EStateM ε σ β} (hx : L.Obeys x) (hf : ∀ a, L.Obeys (f a)) :
    L.Obeys (x >>= f) := by
  intro s
  have h : (x >>= f) s = match x s with
      | .ok a s => f a s
      | .error e s => .error e s := rfl
  rw [h]
  cases hrun : x s with
  | ok a s' =>
      have hok := (hx s).of_ok hrun
      show L.Holds s (f a s')
      cases hrun' : f a s' with
      | ok b s'' => exact L.ok_trans hok ((hf a s').of_ok hrun')
      | error e s'' => exact L.err_trans hok ((hf a s').of_error hrun')
  | error e s' => exact (hx s).of_error hrun

theorem read {f : σ → EStateM ε σ β} (hf : ∀ s, L.Obeys (f s)) : L.Obeys (get >>= f) :=
  bind L.ok_refl hf

theorem ite {p : Prop} [Decidable p] {x y : EStateM ε σ α} (hx : L.Obeys x) (hy : L.Obeys y) :
    L.Obeys (if p then x else y) := by
  split
  · exact hx
  · exact hy

/-- A law that is implied by another one. -/
theorem weaken {L' : Law ε σ} {x : EStateM ε σ α} (hok : ∀ s s', L.ok s s' → L'.ok s s')
    (herr : ∀ e s s', L.err e s s' → L'.err e s s') (hx : L.Obeys x) : L'.Obeys x := by
  intro s
  have h := hx s
  cases hrun : x s with
  | ok a s' => exact hok _ _ (h.of_ok hrun)
  | error e s' => exact herr _ _ _ (h.of_error hrun)

end Obeys

/-! ### Traces -/

variable {τ : Type} {trace : σ → List τ} {P : τ → Prop}

/-- What was added to a trace, which grows at its head. -/
def added (trace : σ → List τ) (s s' : σ) : List τ :=
  (trace s').take ((trace s').length - (trace s).length)

theorem added_eq {s s' : σ} {steps : List τ} (h : trace s' = steps ++ trace s) :
    added trace s s' = steps := by
  rw [added, h, List.length_append, Nat.add_sub_cancel]
  exact List.take_left

/-- The law for the runs that add only steps with `P` to a trace. -/
def traced (L : Law ε σ) (trace : σ → List τ) (P : τ → Prop) : Law ε σ where
  ok s s' := ∃ steps, trace s' = steps ++ trace s ∧ ((∀ x ∈ steps, P x) → L.ok s s')
  err e s s' := ∃ steps, trace s' = steps ++ trace s ∧ ((∀ x ∈ steps, P x) → L.err e s s')
  ok_refl s := ⟨[], rfl, fun _ => L.ok_refl s⟩
  err_refl e s := ⟨[], rfl, fun _ => L.err_refl e s⟩
  ok_trans := by
    rintro s t u ⟨l, hl, hst⟩ ⟨l', hl', htu⟩
    refine ⟨l' ++ l, by rw [hl', hl, List.append_assoc], fun h => ?_⟩
    exact L.ok_trans (hst fun x hx => h x (List.mem_append_right _ hx))
      (htu fun x hx => h x (List.mem_append_left _ hx))
  err_trans := by
    rintro e s t u ⟨l, hl, hst⟩ ⟨l', hl', htu⟩
    refine ⟨l' ++ l, by rw [hl', hl, List.append_assoc], fun h => ?_⟩
    exact L.err_trans (hst fun x hx => h x (List.mem_append_right _ hx))
      (htu fun x hx => h x (List.mem_append_left _ hx))

theorem traced_ok {s s' : σ} (h : (L.traced trace P).ok s s') (hP : ∀ x ∈ added trace s s', P x) :
    L.ok s s' := by
  obtain ⟨steps, hsteps, hL⟩ := h
  rw [added_eq hsteps] at hP
  exact hL hP

theorem traced_err {e : ε} {s s' : σ} (h : (L.traced trace P).err e s s')
    (hP : ∀ x ∈ added trace s s', P x) : L.err e s s' := by
  obtain ⟨steps, hsteps, hL⟩ := h
  rw [added_eq hsteps] at hP
  exact hL hP

end Law

end NullG.Lib
