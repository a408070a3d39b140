/-
Memories made of cells.

A `Cells α` gives each address a value or nothing: an address that was never given out, or
whose cell is free, reads as `none`. Addresses are given out once, in order, so that a fresh
cell is none of those in use.
-/

import Mathlib.Logic.Function.Basic

namespace NullG.Lib

/-- A memory of cells of type `α`: no cell is in use from the address `next` on. -/
structure Cells (α : Type) where
  cells : Nat → Option α
  next : Nat
  fresh : ∀ a, next ≤ a → cells a = none

namespace Cells

variable {α : Type}

/-- The cell at an address. -/
def get (m : Cells α) (a : Nat) : Option α := m.cells a

/-- The memory without cells. -/
def empty : Cells α := ⟨fun _ => none, 0, fun _ _ => rfl⟩

/-- A new cell, at the address `m.next`. -/
def alloc (m : Cells α) (x : α) : Cells α where
  cells := Function.update m.cells m.next (some x)
  next := m.next + 1
  fresh := by
    intro a ha
    rw [Function.update_of_ne (by omega)]
    exact m.fresh a (by omega)

/-- Write a cell that is in use. -/
def modify (m : Cells α) (a : Nat) (f : α → α) : Cells α where
  cells := Function.update m.cells a ((m.cells a).map f)
  next := m.next
  fresh := by
    intro b hb
    by_cases h : b = a
    · subst h
      rw [Function.update_self, m.fresh b hb]
      rfl
    · rw [Function.update_of_ne h]
      exact m.fresh b hb

/-- Free a cell. -/
def free (m : Cells α) (a : Nat) : Cells α where
  cells := Function.update m.cells a none
  next := m.next
  fresh := by
    intro b hb
    by_cases h : b = a
    · subst h
      exact Function.update_self b none m.cells
    · rw [Function.update_of_ne h]
      exact m.fresh b hb

section

variable (m : Cells α) {a b : Nat} {x : α} {f : α → α}

@[simp] theorem alloc_next : (m.alloc x).next = m.next + 1 := rfl

@[simp] theorem modify_next : (m.modify a f).next = m.next := rfl

@[simp] theorem free_next : (m.free a).next = m.next := rfl

@[simp] theorem get_alloc_self : (m.alloc x).get m.next = some x := Function.update_self _ _ _

theorem get_alloc_of_ne (h : a ≠ m.next) : (m.alloc x).get a = m.get a := Function.update_of_ne h _ _

@[simp] theorem get_modify_self : (m.modify a f).get a = (m.get a).map f := Function.update_self _ _ _

theorem get_modify_of_ne (h : b ≠ a) : (m.modify a f).get b = m.get b := Function.update_of_ne h _ _

@[simp] theorem get_free_self : (m.free a).get a = none := Function.update_self _ _ _

theorem get_free_of_ne (h : b ≠ a) : (m.free a).get b = m.get b := Function.update_of_ne h _ _

@[simp] theorem get_next : m.get m.next = none := m.fresh _ (Nat.le_refl _)

end

/-- A cell in use is older than the next one. -/
theorem lt_next {m : Cells α} {a : Nat} {x : α} (h : m.get a = some x) : a < m.next := by
  by_contra hle
  have hnone : m.get a = none := m.fresh a (by omega)
  rw [hnone] at h
  cases h

theorem ne_next {m : Cells α} {a : Nat} {x : α} (h : m.get a = some x) : a ≠ m.next :=
  Nat.ne_of_lt (lt_next h)

/-- A fresh cell changes no cell in use. -/
theorem get_alloc_of_some {m : Cells α} {a : Nat} {x y : α} (h : m.get a = some x) :
    (m.alloc y).get a = some x := by
  rw [get_alloc_of_ne m (ne_next h), h]

end Cells

end NullG.Lib
