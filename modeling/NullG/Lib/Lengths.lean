/-
Lists of lists that are compared by their lengths, or cut where the lengths say.
-/

namespace NullG.Lib

variable {α β : Type} {f g : α → List β} {l : List α}

theorem length_flatMap_le (h : ∀ a ∈ l, (f a).length ≤ (g a).length) :
    (l.flatMap f).length ≤ (l.flatMap g).length := by
  induction l with
  | nil => exact Nat.le_refl _
  | cons a l ih =>
      have ha := h a List.mem_cons_self
      have hl := ih fun b hb => h b (List.mem_cons_of_mem a hb)
      simp only [List.flatMap_cons, List.length_append]
      omega

/-- Where nothing is longer, and all together is as long, everything is as long. -/
theorem length_flatMap_eq (h : ∀ a ∈ l, (f a).length ≤ (g a).length)
    (heq : (l.flatMap f).length = (l.flatMap g).length) : ∀ a ∈ l, (f a).length = (g a).length := by
  induction l with
  | nil => exact fun a ha => absurd ha List.not_mem_nil
  | cons a l ih =>
      have ha := h a List.mem_cons_self
      have hl := length_flatMap_le fun b hb => h b (List.mem_cons_of_mem a hb)
      simp only [List.flatMap_cons, List.length_append] at heq
      intro b hb
      rcases List.mem_cons.mp hb with rfl | hb
      · omega
      · exact ih (fun b hb => h b (List.mem_cons_of_mem a hb)) (by omega) b hb

/-! ### Lists of one length -/

variable {n : Nat} (h : ∀ a, (f a).length = n)

include h

theorem length_flatMap_const : (l.flatMap f).length = n * l.length := by
  induction l with
  | nil => rfl
  | cons a l ih => rw [List.flatMap_cons, List.length_append, h, ih, List.length_cons, Nat.mul_succ, Nat.add_comm]

theorem drop_flatMap_const (k : Nat) : (l.flatMap f).drop (n * k) = (l.drop k).flatMap f := by
  induction k generalizing l with
  | zero => rfl
  | succ k ih =>
      cases l with
      | nil => simp
      | cons a l =>
          rw [List.flatMap_cons, Nat.mul_succ, Nat.add_comm, ← List.drop_drop, List.drop_left' (h a), ih,
            List.drop_succ_cons]

theorem take_flatMap_const (k : Nat) : (l.flatMap f).take (n * k) = (l.take k).flatMap f := by
  induction k generalizing l with
  | zero => simp
  | succ k ih =>
      cases l with
      | nil => simp
      | cons a l =>
          rw [List.flatMap_cons, Nat.mul_succ, Nat.add_comm, List.take_add, List.take_left' (h a),
            List.drop_left' (h a), ih, List.take_succ_cons, List.flatMap_cons]

end NullG.Lib
