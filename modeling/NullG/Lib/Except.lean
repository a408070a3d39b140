/-
Computations that can stop: how a bind of `Except` returns a value.
-/

import Mathlib.Data.List.Basic

namespace NullG.Lib

variable {ε α β : Type}

@[simp] theorem ok_bind (a : α) (f : α → Except ε β) : (Except.ok a >>= f) = f a := rfl

@[simp] theorem error_bind (e : ε) (f : α → Except ε β) :
    ((Except.error e : Except ε α) >>= f) = .error e := rfl

@[simp] theorem pure_eq_ok (a : α) : (pure a : Except ε α) = .ok a := rfl

/-- A bind returns exactly when both of its parts do. -/
theorem bind_eq_ok {x : Except ε α} {f : α → Except ε β} {b : β} :
    (x >>= f) = .ok b ↔ ∃ a, x = .ok a ∧ f a = .ok b := by
  cases x with
  | error e =>
      constructor
      · intro h
        cases h
      · rintro ⟨a, ha, -⟩
        cases ha
  | ok a =>
      constructor
      · intro h
        exact ⟨a, rfl, h⟩
      · rintro ⟨a', ha, h⟩
        cases ha
        exact h

/-- The value that is returned has `B`, or the error has `E`. -/
def Returns (B : α → Prop) (E : ε → Prop) : Except ε α → Prop
  | .ok a => B a
  | .error e => E e

namespace Returns

variable {B B' : α → Prop} {C : β → Prop} {E E' : ε → Prop}

theorem conseq {x : Except ε α} (hx : Returns B' E' x) (hB : ∀ a, B' a → B a) (hE : ∀ e, E' e → E e) :
    Returns B E x := by
  cases x with
  | error e => exact hE e hx
  | ok a => exact hB a hx

theorem bind {x : Except ε α} {f : α → Except ε β} (hx : Returns B E x) (hf : ∀ a, B a → Returns C E (f a)) :
    Returns C E (x >>= f) := by
  cases x with
  | error e => exact hx
  | ok a => exact hf a hx

end Returns

end NullG.Lib
