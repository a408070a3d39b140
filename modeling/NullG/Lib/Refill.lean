/-
Buffers that are filled again when they are empty.

Records of one length are taken from a buffer that has room for a number of them, and the buffer is filled from what is
behind it when it is empty. So no record is cut: the buffer has whole records as long as there is more behind it.
-/

import Mathlib.Data.List.Basic

namespace NullG.Lib

variable {α : Type} {m n : Nat} {avail rest r more : List α}

/-- What a buffer has left, and what is behind it: there are whole records in the buffer, or it is the last one. -/
def Aligned (m : Nat) (avail rest : List α) : Prop := rest = [] ∨ m ∣ avail.length

/-- A buffer for whole records is filled. -/
theorem aligned_refill (h : m ∣ n) (data : List α) : Aligned m (data.take n) (data.drop n) := by
  by_cases hlen : data.length ≤ n
  · exact .inl (List.drop_eq_nil_of_le hlen)
  · exact .inr (by rwa [List.length_take_of_le (by omega)])

/-- A buffer that has not run empty has the next record. -/
theorem Aligned.serves (h : Aligned m avail rest) (hne : avail ≠ []) (hsplit : avail ++ rest = r ++ more)
    (hr : r.length = m) : ∃ avail', avail = r ++ avail' ∧ avail' ++ rest = more ∧ Aligned m avail' rest := by
  have hlen : r.length ≤ avail.length := by
    rcases h with rfl | hdvd
    · rw [List.append_nil] at hsplit
      rw [hsplit, List.length_append]
      exact Nat.le_add_right _ _
    · exact hr ▸ Nat.le_of_dvd (List.length_pos_of_ne_nil hne) hdvd
  have hbegin : avail <+: r ++ more := hsplit ▸ List.prefix_append avail rest
  obtain ⟨avail', rfl⟩ := List.prefix_of_prefix_length_le (List.prefix_append r more) hbegin hlen
  rw [List.append_assoc] at hsplit
  refine ⟨avail', rfl, List.append_cancel_left hsplit, ?_⟩
  rcases h with hrest | hdvd
  · exact .inl hrest
  · rw [List.length_append, hr] at hdvd
    exact .inr ((Nat.dvd_add_right (Nat.dvd_refl m)).mp hdvd)

end NullG.Lib
