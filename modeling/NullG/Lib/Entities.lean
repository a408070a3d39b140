/-
Texts with entities.

An entity is a name between an `amp` and the next `semi`, and stands for a text. What a text with entities denotes is
found from the left; there is nothing for one in which an entity is not complete, or has no meaning. The text of a
sequence denotes what its parts stand for (`decode_flatMap`).
-/

import Mathlib.Data.List.Basic

namespace NullG.Lib.Entities

variable {α ι : Type} [DecidableEq α] (amp semi : α) (denote : List α → Option (List α))

/-- What a text denotes, in or outside an entity whose name has begun. -/
def decode : Option (List α) → List α → Option (List α)
  | none, [] => some []
  | some _, [] => none
  | none, c :: text => if c = amp then decode (some []) text else (decode none text).map (c :: ·)
  | some name, c :: text =>
      if c = semi then do return (← denote name) ++ (← decode none text) else decode (some (name ++ [c])) text

/-- A part of a text that stands for `s`, whatever is behind it. -/
def Stands (part s : List α) : Prop :=
  ∀ rest, decode amp semi denote none (part ++ rest) = (decode amp semi denote none rest).map (s ++ ·)

variable {amp semi denote} {c : α} {name s : List α}

theorem stands_plain (h : c ≠ amp) : Stands amp semi denote [c] [c] := fun rest => by
  rw [List.singleton_append, decode, if_neg h]
  rfl

/-- The name of an entity is read up to its end. -/
theorem decode_name (hsemi : semi ∉ name) (before rest : List α) :
    decode amp semi denote (some before) (name ++ semi :: rest) =
      (denote (before ++ name)).bind fun s => (decode amp semi denote none rest).map (s ++ ·) := by
  induction name generalizing before with
  | nil =>
      rw [List.nil_append, decode, if_pos rfl, List.append_nil]
      cases decode amp semi denote none rest <;> rfl
  | cons d name ih =>
      obtain ⟨hd, hsemi⟩ := not_or.mp (mt List.mem_cons.mpr hsemi)
      rw [List.cons_append, decode, if_neg (Ne.symm hd), ih hsemi, List.append_assoc, List.singleton_append]

theorem stands_entity (hsemi : semi ∉ name) (h : denote name = some s) :
    Stands amp semi denote (amp :: name ++ [semi]) s := fun rest => by
  rw [List.append_assoc, List.singleton_append, List.cons_append, decode, if_pos rfl, decode_name hsemi,
    List.nil_append, h, Option.bind_some]

/-- The parts of a sequence stand for their values. -/
theorem decode_flatMap {f g : ι → List α} {l : List ι} (h : ∀ i ∈ l, Stands amp semi denote (f i) (g i)) :
    decode amp semi denote none (l.flatMap f) = some (l.flatMap g) := by
  induction l with
  | nil => rfl
  | cons i l ih =>
      obtain ⟨hi, hl⟩ := List.forall_mem_cons.mp h
      rw [List.flatMap_cons, hi, ih hl, List.flatMap_cons]
      rfl

end NullG.Lib.Entities
