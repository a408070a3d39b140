/-
Bubble sort by a comparison that need not be transitive.

`verdict a b` says of two neighbours whether they change places, or that the pass ends. A pass carries one element along
the list. The pairs that stand the wrong way round, near or far, grow fewer with each exchange, as long as no two
elements are both to come behind the other (`inversions_lt`); so the passes end, and then no neighbours change places.
Whatever the comparison, the list is reached by exchanges of neighbours (`Exchanged`): pairs that are never told to
change places stand as they stood.
-/

import Mathlib.Data.List.Count
import Mathlib.Data.List.Perm.Basic

namespace NullG.Lib.Bubble

variable {α : Type} {verdict : α → α → Option Bool} {a b c : α} {l l' : List α}

/-- A pass with the element `c` in front of what is left of the list. -/
def pass (verdict : α → α → Option Bool) : α → List α → List α
  | c, [] => [c]
  | c, n :: l =>
      match verdict c n with
      | none => c :: n :: l
      | some true => n :: pass verdict c l
      | some false => c :: pass verdict n l

/-- Two elements change places in the pass. -/
def moves (verdict : α → α → Option Bool) : α → List α → Bool
  | _, [] => false
  | c, n :: l =>
      match verdict c n with
      | none => false
      | some true => true
      | some false => moves verdict n l

/-- The number of pairs that stand the wrong way round. -/
def inversions (verdict : α → α → Option Bool) : List α → Nat
  | [] => 0
  | a :: l => l.countP (fun b => verdict a b = some true) + inversions verdict l

/-- No neighbours change places. -/
def Settled (verdict : α → α → Option Bool) : List α → Prop := List.IsChain fun a b => verdict a b = some false

/-- No two elements are both to come behind the other. -/
def Asymmetric (verdict : α → α → Option Bool) : Prop := ∀ a b, verdict a b = some true → verdict b a ≠ some true

section Pass

variable {n : α}

theorem pass_stop (h : verdict c n = none) : pass verdict c (n :: l) = c :: n :: l := by
  simp only [pass, h]

theorem pass_exchange (h : verdict c n = some true) : pass verdict c (n :: l) = n :: pass verdict c l := by
  simp only [pass, h]

theorem pass_keep (h : verdict c n = some false) : pass verdict c (n :: l) = c :: pass verdict n l := by
  simp only [pass, h]

theorem moves_stop (h : verdict c n = none) : moves verdict c (n :: l) = false := by
  simp only [moves, h]

theorem moves_exchange (h : verdict c n = some true) : moves verdict c (n :: l) = true := by
  simp only [moves, h]

theorem moves_keep (h : verdict c n = some false) : moves verdict c (n :: l) = moves verdict n l := by
  simp only [moves, h]

end Pass

/-- A pass keeps the elements. -/
theorem pass_perm (verdict : α → α → Option Bool) (c : α) (l : List α) : (pass verdict c l).Perm (c :: l) := by
  induction l generalizing c with
  | nil => exact List.Perm.refl _
  | cons n l ih =>
      rcases h : verdict c n with _ | _ | _
      · rw [pass_stop h]
      · rw [pass_keep h]
        exact (ih n).cons c
      · rw [pass_exchange h]
        exact ((ih c).cons n).trans (List.Perm.swap c n l)

/-- A pass in which nothing moves leaves the list as it is. -/
theorem pass_of_not_moves (h : moves verdict c l = false) : pass verdict c l = c :: l := by
  induction l generalizing c with
  | nil => rfl
  | cons n l ih =>
      rcases hv : verdict c n with _ | _ | _
      · exact pass_stop hv
      · rw [moves_keep hv] at h
        rw [pass_keep hv, ih h]
      · rw [moves_exchange hv] at h
        cases h

/-- A pass in which nothing moves, and that no two elements end, finds the list settled. -/
theorem settled_of_not_moves (h : moves verdict c l = false)
    (hgo : ∀ a ∈ c :: l, ∀ b ∈ c :: l, verdict a b ≠ none) : Settled verdict (c :: l) := by
  induction l generalizing c with
  | nil => exact List.IsChain.singleton c
  | cons n l ih =>
      rcases hv : verdict c n with _ | _ | _
      · exact absurd hv (hgo c (by simp) n (by simp))
      · rw [moves_keep hv] at h
        refine List.IsChain.cons_cons hv (ih h ?_)
        intro a ha b hb
        exact hgo a (List.mem_cons_of_mem c ha) b (List.mem_cons_of_mem c hb)
      · rw [moves_exchange hv] at h
        cases h

theorem inversions_cons (verdict : α → α → Option Bool) (a : α) (l : List α) :
    inversions verdict (a :: l) = l.countP (fun b => verdict a b = some true) + inversions verdict l := rfl

/-- A list has no more such pairs than pairs of places. -/
theorem inversions_le (verdict : α → α → Option Bool) (l : List α) : inversions verdict l ≤ l.length * l.length := by
  induction l with
  | nil => exact Nat.le_refl _
  | cons a l ih =>
      have hcount := List.countP_le_length (p := fun b => verdict a b = some true) (l := l)
      rw [inversions_cons, List.length_cons, Nat.succ_mul_succ]
      omega

/-- Each exchange takes one pair away from those that stand the wrong way round. -/
theorem inversions_pass (hasym : Asymmetric verdict) (c : α) (l : List α) :
    inversions verdict (pass verdict c l) + (moves verdict c l).toNat ≤ inversions verdict (c :: l) := by
  induction l generalizing c with
  | nil => exact Nat.le_refl _
  | cons n l ih =>
      rcases hv : verdict c n with _ | _ | _
      · rw [pass_stop hv, moves_stop hv]
        exact Nat.le_refl _
      · have hle := ih n
        rw [pass_keep hv, moves_keep hv, inversions_cons, inversions_cons verdict c,
          (pass_perm verdict n l).countP_eq]
        omega
      · have hle := ih c
        have hback : ¬ verdict n c = some true := hasym c n hv
        rw [pass_exchange hv, moves_exchange hv, inversions_cons, (pass_perm verdict c l).countP_eq,
          List.countP_cons_of_neg (by simpa using hback)]
        rw [inversions_cons] at hle
        rw [inversions_cons, inversions_cons, List.countP_cons_of_pos (by simpa using hv)]
        simp only [Bool.toNat_true]
        omega

/-- A pass in which something moves. -/
theorem inversions_lt (hasym : Asymmetric verdict) (h : moves verdict c l = true) :
    inversions verdict (pass verdict c l) < inversions verdict (c :: l) := by
  have hle := inversions_pass hasym c l
  rw [h, Bool.toNat_true] at hle
  omega

/-! ### Exchanges -/

/-- The list is reached by exchanges of neighbours that are told to change places. -/
inductive Exchanged (verdict : α → α → Option Bool) (l : List α) : List α → Prop where
  | refl : Exchanged verdict l l
  | step {A B a b} : Exchanged verdict l (A ++ a :: b :: B) → verdict a b = some true →
      Exchanged verdict l (A ++ b :: a :: B)

theorem Exchanged.trans {l'' : List α} (h : Exchanged verdict l l') (h' : Exchanged verdict l' l'') :
    Exchanged verdict l l'' := by
  induction h' with
  | refl => exact h
  | step _ hv ih => exact ih.step hv

theorem Exchanged.perm (h : Exchanged verdict l l') : l'.Perm l := by
  induction h with
  | refl => exact List.Perm.refl l
  | step _ _ ih => exact ((List.Perm.swap _ _ _).append_left _).trans ih

/-- A pass makes exchanges only. -/
theorem pass_exchanged (verdict : α → α → Option Bool) (A : List α) (c : α) (l : List α) :
    Exchanged verdict (A ++ c :: l) (A ++ pass verdict c l) := by
  induction l generalizing A c with
  | nil => exact .refl
  | cons n l ih =>
      rcases hv : verdict c n with _ | _ | _
      · rw [pass_stop hv]
        exact .refl
      · have hrest := ih (A ++ [c]) n
        rw [← List.append_cons, ← List.append_cons] at hrest
        rw [pass_keep hv]
        exact hrest
      · have hstep : Exchanged verdict (A ++ c :: n :: l) (A ++ n :: c :: l) := Exchanged.refl.step hv
        rw [pass_exchange hv, List.append_cons A n (pass verdict c l)]
        rw [List.append_cons A n (c :: l)] at hstep
        exact hstep.trans (ih (A ++ [n]) c)

/-- An element that nothing is to come behind stays at the end. -/
theorem Exchanged.getLast? (h : Exchanged verdict l l')
    (hlast : ∀ x ∈ l, ∀ z ∈ l.getLast?, verdict x z ≠ some true) : l'.getLast? = l.getLast? := by
  induction h with
  | refl => rfl
  | @step A B a b h hv ih =>
      rw [← ih]
      cases B with
      | nil =>
          refine absurd hv (hlast a (h.perm.subset (by simp)) b ?_)
          rw [← ih]
          simp
      | cons c B => simp [List.getLast?_append]

/-- Where no element is to come behind a later one, there is nothing to exchange. -/
theorem Exchanged.eq (h : Exchanged verdict l l') (hpairs : l.Pairwise fun x y => verdict x y ≠ some true) :
    l' = l := by
  induction h with
  | refl => rfl
  | @step A B a b _ hv ih =>
      rw [← ih] at hpairs
      obtain ⟨-, hpairs, -⟩ := List.pairwise_append.mp hpairs
      exact absurd hv ((List.pairwise_cons.mp hpairs).1 b List.mem_cons_self)

/-- If two elements stand in the order `P`, or are told to change places and stand in it then, they are so wherever the
exchanges lead, unless they are told to change places where they stand in it. -/
theorem Exchanged.pairwise {P : α → α → Prop} (h : Exchanged verdict l l')
    (hkeep : ∀ x ∈ l, ∀ y ∈ l, P x y → verdict x y ≠ some true)
    (hpairs : l.Pairwise fun x y => P x y ∨ P y x ∧ verdict x y = some true) :
    l'.Pairwise fun x y => P x y ∨ P y x ∧ verdict x y = some true := by
  induction h with
  | refl => exact hpairs
  | @step A B a b h hv ih =>
      have hmem : ∀ x ∈ [a, b], x ∈ l := fun x hx => h.perm.subset (by simp at hx ⊢; tauto)
      obtain ⟨hA, hB, hAB⟩ := List.pairwise_append.mp ih
      obtain ⟨ha, hB⟩ := List.pairwise_cons.mp hB
      obtain ⟨hb, hB⟩ := List.pairwise_cons.mp hB
      have hba : P b a := by
        rcases ha b List.mem_cons_self with hab | hab
        · exact absurd hv (hkeep a (hmem a (by simp)) b (hmem b (by simp)) hab)
        · exact hab.1
      refine List.pairwise_append.mpr ⟨hA, List.pairwise_cons.mpr ⟨?_, List.pairwise_cons.mpr ⟨?_, hB⟩⟩, ?_⟩
      · intro x hx
        rcases List.mem_cons.mp hx with rfl | hx
        · exact .inl hba
        · exact hb x hx
      · exact fun x hx => ha x (List.mem_cons_of_mem b hx)
      · intro x hx y hy
        refine hAB x hx y ?_
        simp only [List.mem_cons] at hy ⊢
        tauto

/-- A settled list whose pairs stand in the order `P`, or are told to change places and stand in it then, is in this
order, if it agrees with one that is strict. -/
theorem Settled.pairwise {P R : α → α → Prop} (h : Settled verdict l)
    (hpairs : l.Pairwise fun x y => P x y ∨ P y x ∧ verdict x y = some true)
    (hR : ∀ x ∈ l, ∀ y ∈ l, P x y → R x y) (htrans : ∀ x y z, R x y → R y z → R x z) (hirrefl : ∀ x, ¬ R x x) :
    l.Pairwise P := by
  have hchain : List.IsChain R l := by
    induction l with
    | nil => exact .nil
    | cons a l ih =>
        cases l with
        | nil => exact .singleton a
        | cons b l =>
            obtain ⟨hv, hsettled⟩ := List.isChain_cons_cons.mp h
            obtain ⟨ha, hrest⟩ := List.pairwise_cons.mp hpairs
            refine .cons_cons ?_ (ih hsettled hrest fun x hx y hy =>
              hR x (List.mem_cons_of_mem a hx) y (List.mem_cons_of_mem a hy))
            rcases ha b List.mem_cons_self with hab | ⟨-, hturn⟩
            · exact hR a (by simp) b (by simp) hab
            · rw [hv] at hturn
              cases hturn
  have : Trans R R R := ⟨fun h h' => htrans _ _ _ h h'⟩
  refine List.Pairwise.imp_of_mem ?_ (hpairs.and hchain.pairwise)
  rintro x y hx hy ⟨hxy | ⟨hyx, -⟩, hbelow⟩
  · exact hxy
  · exact absurd (htrans _ _ _ hbelow (hR y hy x hx hyx)) (hirrefl x)

end NullG.Lib.Bubble
