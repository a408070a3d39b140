/-
Hoare triples for programs that add to a trace.

`Triple trace P A x B E` says that a run of `x` only adds to the trace, and that a run which
starts in a state with `A` and adds steps with `P` only ends with `B`, or with `E` where it ends
with an error. A step without `P` frees a run from its promise, so the conditions on the steps of
a whole run need not be carried from one part to the next.
-/

import NullG.Lib.Law
import NullG.Lib.Runs

namespace NullG.Lib

variable {ε σ τ α β : Type} {trace : σ → List τ} {P : τ → Prop}

/-- What a run promises that adds steps with `P` only. -/
def Triple (trace : σ → List τ) (P : τ → Prop) (A : σ → Prop) (x : EStateM ε σ α)
    (B : α → σ → Prop) (E : ε → σ → Prop) : Prop :=
  ∀ s, ∃ steps, trace (final (x s)) = steps ++ trace s ∧
    ((∀ e ∈ steps, P e) → A s → Ends B E (x s))

namespace Triple

variable {A A' : σ → Prop} {B B' : α → σ → Prop} {C : β → σ → Prop} {E E' : ε → σ → Prop}

theorem conseq {x : EStateM ε σ α} (hx : Triple trace P A' x B' E') (hA : ∀ s, A s → A' s)
    (hB : ∀ a s, B' a s → B a s) (hE : ∀ e s, E' e s → E e s) : Triple trace P A x B E := by
  intro s
  obtain ⟨steps, hsteps, h⟩ := hx s
  refine ⟨steps, hsteps, fun hP hs => ?_⟩
  have h' := h hP (hA s hs)
  cases hrun : x s with
  | ok a s' =>
      rw [hrun] at h'
      exact hB a s' h'
  | error e s' =>
      rw [hrun] at h'
      exact hE e s' h'

theorem pre {x : EStateM ε σ α} (hx : Triple trace P A' x B E) (hA : ∀ s, A s → A' s) :
    Triple trace P A x B E := hx.conseq hA (fun _ _ h => h) fun _ _ h => h

theorem post {x : EStateM ε σ α} (hx : Triple trace P A x B' E) (hB : ∀ a s, B' a s → B a s) :
    Triple trace P A x B E := hx.conseq (fun _ h => h) hB fun _ _ h => h

theorem pure {a : α} (h : ∀ s, A s → B a s) :
    Triple trace P A (pure a : EStateM ε σ α) B E := fun s => ⟨[], rfl, fun _ => h s⟩

theorem throw {e : ε} (h : ∀ s, A s → E e s) :
    Triple trace P A (throw e : EStateM ε σ α) B E := fun s => ⟨[], rfl, fun _ => h s⟩

theorem bind {x : EStateM ε σ α} {f : α → EStateM ε σ β} (hx : Triple trace P A x B E)
    (hf : ∀ a, Triple trace P (B a) (f a) C E) : Triple trace P A (x >>= f) C E := by
  intro s
  obtain ⟨steps, hsteps, h⟩ := hx s
  cases hrun : x s with
  | error e s' =>
      rw [hrun] at hsteps h
      rw [run_bind_of_error hrun]
      exact ⟨steps, hsteps, h⟩
  | ok a s' =>
      rw [hrun] at hsteps h
      rw [run_bind_of_ok hrun]
      obtain ⟨steps', hsteps', h'⟩ := hf a s'
      have htrace : trace s' = steps ++ trace s := hsteps
      refine ⟨steps' ++ steps, by rw [hsteps', htrace, List.append_assoc], fun hP hs => ?_⟩
      apply h' fun e he => hP e (List.mem_append_left _ he)
      exact h (fun e he => hP e (List.mem_append_right _ he)) hs

/-- A part that reads the state first. -/
theorem read {f : σ → EStateM ε σ β} (hf : ∀ t, Triple trace P (fun s => A s ∧ s = t) (f t) C E) :
    Triple trace P A (get >>= f) C E := by
  intro s
  obtain ⟨steps, hsteps, h⟩ := hf s s
  exact ⟨steps, hsteps, fun hP hs => h hP ⟨hs, rfl⟩⟩

theorem ite {p : Prop} [Decidable p] {x y : EStateM ε σ α} (hx : p → Triple trace P A x B E)
    (hy : ¬ p → Triple trace P A y B E) : Triple trace P A (if p then x else y) B E := by
  split
  · exact hx ‹p›
  · exact hy ‹¬ p›

/-- A precondition that does not hold promises nothing, once the run only adds to the trace. -/
theorem exfalso {x : EStateM ε σ α} (hx : Triple trace P A' x B' E') (hA : ∀ s, ¬ A s) :
    Triple trace P A x B E := by
  intro s
  obtain ⟨steps, hsteps, -⟩ := hx s
  exact ⟨steps, hsteps, fun _ hs => absurd hs (hA s)⟩

/-- A fact that does not depend on the state is kept. -/
theorem keep {x : EStateM ε σ α} (hx : Triple trace P A x B E) (p : Prop) :
    Triple trace P (fun s => A s ∧ p) x (fun a s => B a s ∧ p) E := by
  intro s
  obtain ⟨steps, hsteps, h⟩ := hx s
  refine ⟨steps, hsteps, fun hP hs => ?_⟩
  have hends := h hP hs.1
  cases hrun : x s with
  | ok a s' =>
      rw [hrun] at hends
      exact ⟨hends, hs.2⟩
  | error e s' =>
      rw [hrun] at hends
      exact hends

/-- What is known besides of the runs that end with a value. -/
theorem also {Q : α → σ → Prop} {x : EStateM ε σ α} (hx : Triple trace P A x B E)
    (h : ∀ s a s', A s → x s = .ok a s' → Q a s') :
    Triple trace P A x (fun a s => B a s ∧ Q a s) E := by
  intro s
  obtain ⟨steps, hsteps, hends⟩ := hx s
  refine ⟨steps, hsteps, fun hP hs => ?_⟩
  have hends' := hends hP hs
  cases hrun : x s with
  | ok a s' =>
      rw [hrun] at hends'
      exact ⟨hends', h s a s' hs hrun⟩
  | error e s' =>
      rw [hrun] at hends'
      exact hends'

/-- What the triples for each state say of the states with `A`. -/
theorem each {x : EStateM ε σ α} {B : σ → α → σ → Prop} {E : σ → ε → σ → Prop}
    (hx : ∀ t, Triple trace P (fun s => s = t) x (B t) (E t)) :
    Triple trace P A x (fun a s => ∃ t, A t ∧ B t a s) fun e s => ∃ t, A t ∧ E t e s := by
  intro s
  obtain ⟨steps, hsteps, h⟩ := hx s s
  refine ⟨steps, hsteps, fun hP hs => ?_⟩
  have hends := h hP rfl
  cases hrun : x s with
  | ok a s' =>
      rw [hrun] at hends
      exact ⟨s, hs, hends⟩
  | error e s' =>
      rw [hrun] at hends
      exact ⟨s, hs, hends⟩

/-- A program that obeys a law for its steps. -/
theorem of_obeys {L : Law ε σ} {x : EStateM ε σ α} (hx : (L.traced trace P).Obeys x)
    (hB : ∀ a s s', A s → L.ok s s' → B a s') (hE : ∀ e s s', A s → L.err e s s' → E e s') :
    Triple trace P A x B E := by
  intro s
  have h := hx s
  cases hrun : x s with
  | ok a s' =>
      obtain ⟨steps, hsteps, hL⟩ := h.of_ok hrun
      exact ⟨steps, hsteps, fun hP hs => hB a s s' hs (hL hP)⟩
  | error e s' =>
      obtain ⟨steps, hsteps, hL⟩ := h.of_error hrun
      exact ⟨steps, hsteps, fun hP hs => hE e s s' hs (hL hP)⟩

/-- The law of a program with a triple for each state that it starts in. -/
theorem obeys {L : Law ε σ} {x : EStateM ε σ α}
    (hx : ∀ t, Triple trace P (fun s => s = t) x (fun _ => L.ok t) fun e => L.err e t) :
    (L.traced trace P).Obeys x := by
  intro s
  obtain ⟨steps, hsteps, h⟩ := hx s s
  cases hrun : x s with
  | ok a s' =>
      rw [hrun] at hsteps h
      exact ⟨steps, hsteps, fun hP => h hP rfl⟩
  | error e s' =>
      rw [hrun] at hsteps h
      exact ⟨steps, hsteps, fun hP => h hP rfl⟩

end Triple

end NullG.Lib
