/-
Hoare triples for stateful programs.

`Runs A x B E` says that a run of `x` which starts in a state with `A` ends with `B`, or with `E`
where it ends with an error.
-/

import NullG.Lib.Action

namespace NullG.Lib

variable {ε σ α β : Type}

/-- The result has `B`, or `E` where it is an error. -/
def Ends (B : α → σ → Prop) (E : ε → σ → Prop) : EStateM.Result ε σ α → Prop
  | .ok a s => B a s
  | .error e s => E e s

/-- What the runs from states with `A` end with. -/
def Runs (A : σ → Prop) (x : EStateM ε σ α) (B : α → σ → Prop) (E : ε → σ → Prop) : Prop :=
  ∀ s, A s → Ends B E (x s)

namespace Runs

variable {A A' : σ → Prop} {B B' : α → σ → Prop} {C : β → σ → Prop} {E E' : ε → σ → Prop}

theorem conseq {x : EStateM ε σ α} (hx : Runs A' x B' E') (hA : ∀ s, A s → A' s)
    (hB : ∀ a s, B' a s → B a s) (hE : ∀ e s, E' e s → E e s) : Runs A x B E := by
  intro s hs
  have h := hx s (hA s hs)
  cases hrun : x s with
  | ok a s' =>
      rw [hrun] at h
      exact hB a s' h
  | error e s' =>
      rw [hrun] at h
      exact hE e s' h

theorem pre {x : EStateM ε σ α} (hx : Runs A' x B E) (hA : ∀ s, A s → A' s) : Runs A x B E :=
  hx.conseq hA (fun _ _ h => h) fun _ _ h => h

theorem post {x : EStateM ε σ α} (hx : Runs A x B' E) (hB : ∀ a s, B' a s → B a s) : Runs A x B E :=
  hx.conseq (fun _ h => h) hB fun _ _ h => h

theorem pure {a : α} (h : ∀ s, A s → B a s) : Runs A (pure a : EStateM ε σ α) B E := h

theorem throw {e : ε} (h : ∀ s, A s → E e s) : Runs A (throw e : EStateM ε σ α) B E := h

theorem modify {f : σ → σ} {B : Unit → σ → Prop} (h : ∀ s, A s → B () (f s)) :
    Runs A (modify f : EStateM ε σ Unit) B E := h

theorem bind {x : EStateM ε σ α} {f : α → EStateM ε σ β} (hx : Runs A x B E) (hf : ∀ a, Runs (B a) (f a) C E) :
    Runs A (x >>= f) C E := by
  intro s hs
  have h := hx s hs
  cases hrun : x s with
  | ok a s' =>
      rw [hrun] at h
      rw [run_bind_of_ok hrun]
      exact hf a s' h
  | error e s' =>
      rw [hrun] at h
      rw [run_bind_of_error hrun]
      exact h

/-- A part that reads the state first. -/
theorem read {f : σ → EStateM ε σ β} (hf : ∀ t, Runs (fun s => A s ∧ s = t) (f t) C E) : Runs A (get >>= f) C E :=
  fun s hs => hf s s ⟨hs, rfl⟩

theorem ite {p : Prop} [Decidable p] {x y : EStateM ε σ α} (hx : p → Runs A x B E) (hy : ¬ p → Runs A y B E) :
    Runs A (if p then x else y) B E := by
  split
  · exact hx ‹p›
  · exact hy ‹¬ p›

/-- What a run that ends with a value ends with. -/
theorem of_ok {x : EStateM ε σ α} (hx : Runs A x B E) {s s' : σ} {a : α} (hs : A s) (h : x s = .ok a s') : B a s' := by
  have hends := hx s hs
  rw [h] at hends
  exact hends

theorem of_error {x : EStateM ε σ α} (hx : Runs A x B E) {s s' : σ} {e : ε} (hs : A s) (h : x s = .error e s') :
    E e s' := by
  have hends := hx s hs
  rw [h] at hends
  exact hends

end Runs

/-! ### Actions -/

namespace Ends

variable {Inv : σ → Prop} {B B' : α → σ → Prop} {C : β → σ → Prop} {E E' : ε → σ → Prop} {s : σ}

theorem mono {r : EStateM.Result ε σ α} (h : Ends B' E' r) (hB : ∀ a s, B' a s → B a s) (hE : ∀ e s, E' e s → E e s) :
    Ends B E r := by
  cases r with
  | ok a s => exact hB a s h
  | error e s => exact hE e s h

/-- The second action runs where the first one ends. -/
theorem bind {x : Action ε σ Inv α} {f : α → Action ε σ Inv β} (hx : Ends B E (x.run s))
    (hf : ∀ a s', B a s' → Ends C E ((f a).run s')) : Ends C E ((x >>= f).run s) := by
  rw [Action.run_bind]
  cases hrun : x.run s with
  | ok a s' =>
      rw [hrun] at hx
      exact hf a s' hx
  | error e s' =>
      rw [hrun] at hx
      exact hx

/-- An action behind a value that is read. -/
theorem require {g : σ → Except ε α} {f : α → Action ε σ Inv β} (hE : ∀ e, E e s)
    (hf : ∀ a, g s = .ok a → Ends C E ((f a).run s)) : Ends C E ((Action.require g >>= f).run s) := by
  rw [Action.run_bind]
  simp only [Action.require]
  cases hg : g s with
  | ok a => exact hf a hg
  | error e => exact hE e

/-- An action that ends with a value. -/
theorem of_ok {x : Action ε σ Inv α} {s' : σ} {a : α} (h : Ends B E (x.run s)) (hrun : x.run s = .ok a s') : B a s' := by
  rw [hrun] at h
  exact h

end Ends

end NullG.Lib
