/-
A text that is rewritten in place.

One cursor reads the cells of a block and another one writes them. As long as every cell is read before it is written,
the cells that are still to be read are the ones of the text, and those that were read and not written yet are free.
-/

import Mathlib.Data.List.Basic

namespace NullG.Lib

/-- A block in which the cells of `out` were written, those of `gap` were read and not written, and those of `rest` are
to be read. -/
structure InPlace (α : Type) where
  out : List α
  gap : List α
  rest : List α
  deriving DecidableEq

namespace InPlace

variable {α : Type} {out gap rest : List α} {c x : α} {t t' : InPlace α}

/-- The cells of the block. -/
def cells (t : InPlace α) : List α := t.out ++ t.gap ++ t.rest

/-- The next cell is written, if it was read. -/
def put (c : α) (t : InPlace α) : Option (InPlace α) :=
  match t.gap with
  | [] => none
  | _ :: gap => some ⟨t.out ++ [c], gap, t.rest⟩

/-- The next cell is written, and stays the next one. -/
def poke (c : α) (t : InPlace α) : Option (InPlace α) :=
  match t.gap with
  | [] => none
  | _ :: gap => some ⟨t.out, c :: gap, t.rest⟩

/-- A write where a cell was read last. -/
theorem put_read (c x : α) (out gap rest : List α) :
    put c ⟨out, gap ++ [x], rest⟩ = some ⟨out ++ [c], (gap ++ [x]).tail, rest⟩ := by
  cases gap <;> rfl

end InPlace

end NullG.Lib
