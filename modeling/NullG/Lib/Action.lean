/-
Actions: stateful programs that keep an invariant.

An `Action ε σ Inv α` reads and writes a state of type `σ` and ends with a value or with an
error of type `ε`, in either case with a state; it carries the proof that it keeps the
invariant `Inv`. A program that is put together from actions keeps it by construction.
-/

import Mathlib.Logic.Basic

namespace NullG.Lib

/-- The state that a run ends in. -/
def final {ε σ α : Type} : EStateM.Result ε σ α → σ
  | .ok _ s => s
  | .error _ s => s

/-- The two parts of a run that ends with a value. -/
theorem bind_run_ok {ε σ α β : Type} {x : EStateM ε σ α} {f : α → EStateM ε σ β} {s s' : σ} {b : β}
    (h : (x >>= f) s = .ok b s') : ∃ a t, x s = .ok a t ∧ f a t = .ok b s' := by
  have hbind : (x >>= f) s = match x s with
      | .ok a s => f a s
      | .error e s => .error e s := rfl
  rw [hbind] at h
  cases hx : x s with
  | ok a t =>
      rw [hx] at h
      exact ⟨a, t, rfl, h⟩
  | error e t =>
      rw [hx] at h
      cases h

/-- A run behind a part that ended with a value. -/
theorem run_bind_of_ok {ε σ α β : Type} {x : EStateM ε σ α} {f : α → EStateM ε σ β} {s t : σ} {a : α}
    (h : x s = .ok a t) : (x >>= f) s = f a t := by
  show EStateM.bind x f s = f a t
  unfold EStateM.bind
  rw [h]

/-- The parts of a run that ends with an error. -/
theorem bind_run_error {ε σ α β : Type} {x : EStateM ε σ α} {f : α → EStateM ε σ β} {s s' : σ} {e : ε}
    (h : (x >>= f) s = .error e s') : x s = .error e s' ∨ ∃ a t, x s = .ok a t ∧ f a t = .error e s' := by
  have hbind : (x >>= f) s = match x s with
      | .ok a s => f a s
      | .error e s => .error e s := rfl
  rw [hbind] at h
  cases hx : x s with
  | ok a t =>
      rw [hx] at h
      exact .inr ⟨a, t, rfl, h⟩
  | error e t =>
      rw [hx] at h
      cases h
      exact .inl rfl

theorem run_bind_of_error {ε σ α β : Type} {x : EStateM ε σ α} {f : α → EStateM ε σ β} {s t : σ} {e : ε}
    (h : x s = .error e t) : (x >>= f) s = .error e t := by
  show EStateM.bind x f s = .error e t
  unfold EStateM.bind
  rw [h]

/-- A stateful program with errors that keeps `Inv`. -/
structure Action (ε σ : Type) (Inv : σ → Prop) (α : Type) where
  run : σ → EStateM.Result ε σ α
  keeps : ∀ s, Inv s → Inv (final (run s))

namespace Action

variable {ε σ τ : Type} {Inv : σ → Prop} {α β : Type}

instance : Monad (Action ε σ Inv) where
  pure a := ⟨fun s => .ok a s, fun _ h => h⟩
  bind x f :=
    { run := fun s =>
        match x.run s with
        | .ok a s => (f a).run s
        | .error e s => .error e s
      keeps := by
        intro s hs
        have hx := x.keeps s hs
        cases h : x.run s with
        | ok a s' =>
            rw [h] at hx
            exact (f a).keeps s' hx
        | error e s' =>
            rw [h] at hx
            exact hx }

/-- End with an error. -/
def fail (e : ε) : Action ε σ Inv α := ⟨fun s => .error e s, fun _ h => h⟩

/-- Read the state. -/
def read (f : σ → α) : Action ε σ Inv α := ⟨fun s => .ok (f s) s, fun _ h => h⟩

/-- Change the state by a function that keeps the invariant. -/
def change (f : σ → σ) (h : ∀ s, Inv s → Inv (f s)) : Action ε σ Inv Unit :=
  ⟨fun s => .ok () (f s), h⟩

/-- The value of a partial function of the state. -/
def require (f : σ → Except ε α) : Action ε σ Inv α where
  run s :=
    match f s with
    | .ok a => .ok a s
    | .error e => .error e s
  keeps := by
    intro s hs
    cases h : f s <;> exact hs

section

variable {x : Action ε σ Inv α} {f : α → Action ε σ Inv β} {s s' : σ} {a : α} {b : β} {e : ε}

@[simp] theorem run_pure (a : α) (s : σ) : (pure a : Action ε σ Inv α).run s = .ok a s := rfl

@[simp] theorem run_fail (e : ε) (s : σ) : (fail e : Action ε σ Inv α).run s = .error e s := rfl

@[simp] theorem run_read (g : σ → α) (s : σ) : (read g : Action ε σ Inv α).run s = .ok (g s) s := rfl

@[simp] theorem run_change (g : σ → σ) (h) (s : σ) :
    (change g h : Action ε σ Inv Unit).run s = .ok () (g s) := rfl

theorem run_bind : (x >>= f).run s = match x.run s with
    | .ok a s => (f a).run s
    | .error e s => .error e s := rfl

/-- The second part runs where the first one ended. -/
theorem run_bind_ok (h : x.run s = .ok a s') : (x >>= f).run s = (f a).run s' := by
  rw [run_bind, h]

theorem run_bind_error (h : x.run s = .error e s') : (x >>= f).run s = .error e s' := by
  rw [run_bind, h]

theorem run_require_ok {g : σ → Except ε α} (h : g s = .ok a) :
    (require g : Action ε σ Inv α).run s = .ok a s := by
  simp only [require, h]

/-- A run of two parts that ends with a value. -/
theorem bind_run_eq_ok : (x >>= f).run s = .ok b s' ↔
    ∃ a s₁, x.run s = .ok a s₁ ∧ (f a).run s₁ = .ok b s' := by
  rw [run_bind]
  constructor
  · intro h
    cases hx : x.run s with
    | ok a s₁ =>
        rw [hx] at h
        exact ⟨a, s₁, rfl, h⟩
    | error e s₁ =>
        rw [hx] at h
        cases h
  · rintro ⟨a, s₁, hx, h⟩
    rw [hx]
    exact h

/-- A read and then a part that ends with a value. -/
theorem require_bind_run_eq_ok {g : σ → Except ε α} :
    ((require g : Action ε σ Inv α) >>= f).run s = .ok b s' ↔ ∃ a, g s = .ok a ∧ (f a).run s = .ok b s' := by
  rw [run_bind]
  simp only [require]
  cases g s with
  | ok a => simp
  | error e => simp

end

/-! ### Runs that more fuel does not change -/

/-- Every run of `x` that ends with a value is one of `x'`. -/
def Extends (x x' : Action ε σ Inv α) : Prop := ∀ s a s', x.run s = .ok a s' → x'.run s = .ok a s'

namespace Extends

theorem refl (x : Action ε σ Inv α) : Extends x x := fun _ _ _ h => h

theorem fail (e : ε) (x : Action ε σ Inv α) : Extends (Action.fail e) x := by
  intro s a s' h
  cases h

theorem bind {x x' : Action ε σ Inv α} {f f' : α → Action ε σ Inv β} (hx : Extends x x')
    (hf : ∀ a, Extends (f a) (f' a)) : Extends (x >>= f) (x' >>= f') := by
  intro s b s' h
  obtain ⟨a, s₁, hrun, h⟩ := bind_run_eq_ok.mp h
  rw [run_bind_ok (hx s a s₁ hrun)]
  exact hf a s₁ b s' h

theorem ite {p : Prop} [Decidable p] {x x' y y' : Action ε σ Inv α} (hx : Extends x x') (hy : Extends y y') :
    Extends (if p then x else y) (if p then x' else y') := by
  split
  · exact hx
  · exact hy

end Extends

end Action

end NullG.Lib
