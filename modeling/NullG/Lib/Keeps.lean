/-
Programs that keep an invariant.

`Keeps Inv x` says that the program `x` ends in a state with `Inv` whenever it starts in one,
with a value or with an error.
-/

import NullG.Lib.Action

namespace NullG.Lib

variable {ε σ α β : Type} {Inv : σ → Prop}

/-- The program keeps the invariant. -/
def Keeps (Inv : σ → Prop) (x : EStateM ε σ α) : Prop := ∀ s, Inv s → Inv (final (x s))

namespace Keeps

theorem pure (a : α) : Keeps Inv (Pure.pure a : EStateM ε σ α) := fun _ h => h

theorem throw (e : ε) : Keeps Inv (MonadExcept.throw e : EStateM ε σ α) := fun _ h => h

theorem modify {f : σ → σ} (hf : ∀ s, Inv s → Inv (f s)) : Keeps Inv (modify f : EStateM ε σ Unit) :=
  fun s h => hf s h

theorem bind {x : EStateM ε σ α} {f : α → EStateM ε σ β} (hx : Keeps Inv x) (hf : ∀ a, Keeps Inv (f a)) :
    Keeps Inv (x >>= f) := by
  intro s hs
  have hx' := hx s hs
  show Inv (final (EStateM.bind x f s))
  unfold EStateM.bind
  cases h : x s with
  | ok a s' =>
      rw [h] at hx'
      exact hf a s' hx'
  | error e s' =>
      rw [h] at hx'
      exact hx'

/-- The same, when more is known of the value of the first part. -/
theorem bind_val {P : α → Prop} {x : EStateM ε σ α} {f : α → EStateM ε σ β} (hx : Keeps Inv x)
    (hP : ∀ s a t, Inv s → x s = .ok a t → P a) (hf : ∀ a, P a → Keeps Inv (f a)) : Keeps Inv (x >>= f) := by
  intro s hs
  have hx' := hx s hs
  show Inv (final (EStateM.bind x f s))
  unfold EStateM.bind
  cases h : x s with
  | ok a s' =>
      rw [h] at hx'
      exact hf a (hP s a s' hs h) s' hx'
  | error e s' =>
      rw [h] at hx'
      exact hx'

/-- A part that reads the state first. -/
theorem get_bind {f : σ → EStateM ε σ β} (hf : ∀ s, Inv s → Inv (final (f s s))) :
    Keeps Inv (get >>= f) := fun s hs => hf s hs

/-- The same, when the rest keeps the invariant whatever was read. -/
theorem read {f : σ → EStateM ε σ β} (hf : ∀ a, Keeps Inv (f a)) : Keeps Inv (get >>= f) :=
  fun s hs => hf s s hs

theorem ite {p : Prop} [Decidable p] {x y : EStateM ε σ α} (hx : p → Keeps Inv x) (hy : ¬ p → Keeps Inv y) :
    Keeps Inv (if p then x else y) := by
  split
  · exact hx ‹p›
  · exact hy ‹¬ p›

end Keeps

end NullG.Lib
