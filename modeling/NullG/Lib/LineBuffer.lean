/-
A buffer that lines are read from.

The buffer is an array of cells. What was put into it and not taken yet are the `size` cells from `offset` on. A reader
copies cells from there until it is stopped, until a blank follows, or until it has copied enough; then what is left may
be moved to the start.
-/

import NullG.Lib.Pieces

namespace NullG.Lib

/-- The cells of an array, and which of them are held. -/
structure LineBuffer (α : Type) where
  cells : List α
  offset : Nat
  size : Nat

namespace LineBuffer

variable {α : Type}

/-- A buffer of blanks. -/
def clear (blank : α) (cap : Nat) : LineBuffer α := ⟨List.replicate cap blank, 0, 0⟩

/-- What the buffer holds. -/
def held (b : LineBuffer α) : List α := (b.cells.drop b.offset).take b.size

/-- How much can be put behind what the buffer holds: the last two cells stay blank. -/
def room (b : LineBuffer α) : Nat := b.cells.length - b.offset - b.size - 2

/-- Put `data` behind what the buffer holds. -/
def put (data : List α) (b : LineBuffer α) : LineBuffer α :=
  { b with
    cells := b.cells.take (b.offset + b.size) ++ data ++ b.cells.drop (b.offset + b.size + data.length)
    size := b.size + data.length }

/-- `n` cells were taken. -/
def advance (n : Nat) (b : LineBuffer α) : LineBuffer α := { b with offset := b.offset + n, size := b.size - n }

/-- Move what the buffer holds to the start. -/
def compact (blank : α) (b : LineBuffer α) : LineBuffer α :=
  if 0 < b.size then ⟨b.held ++ List.replicate (b.cells.length - b.size) blank, 0, b.size⟩
  else clear blank b.cells.length

/-- Copy from cells of which `size` are held: what is copied, and whether the reader was stopped. `n` cells were copied
before, and no more than `max` are copied in all. -/
def copy (stop isBlank : α → Bool) (max : Nat) : List α → Nat → Nat → List α × Bool
  | _, 0, _ => ([], false)
  | [], _ + 1, _ => ([], false)
  | c :: cells, size + 1, n =>
      if n < max then
        if stop c || cells.head?.any isBlank then ([c], stop c)
        else
          let (copied, stopped) := copy stop isBlank max cells size (n + 1)
          (c :: copied, stopped)
      else ([], false)

/-- The buffer has `cap` cells, and what it holds is before the last two of them. -/
structure Sound (cap : Nat) (b : LineBuffer α) : Prop where
  length : b.cells.length = cap
  bound : b.offset + b.size + 2 ≤ cap

variable {cap : Nat} {b : LineBuffer α} {blank : α}

theorem clear_sound (h : 2 ≤ cap) : (clear blank cap).Sound cap where
  length := List.length_replicate
  bound := by simpa [clear] using h

@[simp] theorem clear_size : (clear blank cap).size = 0 := rfl

@[simp] theorem clear_held : (clear blank cap).held = [] := rfl

theorem clear_room : (clear blank cap).room = cap - 2 := by simp [clear, room]

theorem held_of_empty (h : b.size = 0) : b.held = [] := by simp [held, h]

theorem Sound.held_length (h : b.Sound cap) : b.held.length = b.size := by
  have hlength := h.length
  have hbound := h.bound
  simp [held]
  omega

/-- What was put into the buffer is held behind what was held before. -/
theorem Sound.put {data : List α} (h : b.Sound cap) (hdata : data.length ≤ b.room) :
    (b.put data).Sound cap ∧ (b.put data).held = b.held ++ data := by
  have hlength := h.length
  have hbound := h.bound
  have hroom : b.offset + b.size + data.length + 2 ≤ cap := by
    rw [room] at hdata
    omega
  refine ⟨⟨?_, ?_⟩, ?_⟩
  · simp [LineBuffer.put]
    omega
  · simp [LineBuffer.put]
    omega
  · have htake : (b.cells.take (b.offset + b.size)).drop b.offset = b.held := by
      rw [held, List.drop_take, Nat.add_sub_cancel_left]
    have hlong : b.offset ≤ (b.cells.take (b.offset + b.size)).length := by
      rw [List.length_take]
      omega
    have hsplit : (b.cells.take (b.offset + b.size) ++ data ++
        b.cells.drop (b.offset + b.size + data.length)).drop b.offset =
          b.held ++ data ++ b.cells.drop (b.offset + b.size + data.length) := by
      rw [List.append_assoc, List.drop_append_of_le_length hlong, htake, List.append_assoc]
    have hcount : b.size + data.length = (b.held ++ data).length := by rw [List.length_append, h.held_length]
    rw [held, LineBuffer.put]
    dsimp only
    rw [hsplit, hcount, List.take_left]

theorem Sound.advance {p q : List α} (h : b.Sound cap) (hsplit : b.held = p ++ q) :
    (b.advance p.length).Sound cap ∧ (b.advance p.length).held = q := by
  have hlength := h.held_length
  have hbound := h.bound
  rw [hsplit, List.length_append] at hlength
  refine ⟨⟨h.length, ?_⟩, ?_⟩
  · simp [LineBuffer.advance]
    omega
  · have hdrop : (b.advance p.length).held = b.held.drop p.length := by
      rw [held, held, List.drop_take, List.drop_drop]
      rfl
    rw [hdrop, hsplit, List.drop_left]

theorem Sound.compact (blank : α) (h : b.Sound cap) :
    (b.compact blank).Sound cap ∧ (b.compact blank).held = b.held := by
  have hlength := h.length
  have hheld := h.held_length
  have hbound := h.bound
  unfold LineBuffer.compact
  by_cases hsize : 0 < b.size
  · rw [if_pos hsize]
    refine ⟨⟨?_, ?_⟩, ?_⟩
    · simp [hheld]
      omega
    · simp only [Nat.zero_add]
      omega
    · rw [held, List.drop_zero, ← hheld, List.take_left]
  · rw [if_neg hsize]
    refine ⟨?_, ?_⟩
    · rw [hlength]
      exact clear_sound (by omega)
    · rw [clear_held, held_of_empty (Nat.eq_zero_of_not_pos hsize)]

/-- What is copied is a first part of what is held, in which the reader is stopped at the end only. Something is copied
if there is something. -/
theorem copy_run {stop isBlank : α → Bool} {max : Nat} {l : List α} {size n : Nat} (hsize : size ≤ l.length) :
    ∃ copied stopped rest, copy stop isBlank max l size n = (copied, stopped) ∧ l.take size = copied ++ rest ∧
      copied.length ≤ max - n ∧ (0 < size → n < max → copied ≠ []) ∧
      (stopped = true → ∃ p c, copied = p ++ [c] ∧ Free stop p ∧ stop c = true) ∧
      (stopped = false → Free stop copied) := by
  induction l generalizing size n with
  | nil =>
      obtain rfl : size = 0 := Nat.le_zero.mp hsize
      exact ⟨[], false, [], rfl, rfl, Nat.zero_le _, fun h => absurd h (Nat.lt_irrefl 0),
        fun h => Bool.noConfusion h, fun _ => free_nil⟩
  | cons c l ih =>
      cases size with
      | zero =>
          exact ⟨[], false, [], rfl, rfl, Nat.zero_le _, fun h => absurd h (Nat.lt_irrefl 0),
            fun h => Bool.noConfusion h, fun _ => free_nil⟩
      | succ size =>
          by_cases hn : n < max
          · cases hstop : stop c || l.head?.any isBlank with
            | true =>
                refine ⟨[c], stop c, l.take size, ?_, rfl, Nat.succ_le_of_lt (Nat.sub_pos_of_lt hn),
                  fun _ _ => List.cons_ne_nil c [], fun h => ⟨[], c, rfl, free_nil, h⟩,
                  fun h => free_cons h free_nil⟩
                simp [copy, hn, hstop]
            | false =>
                obtain ⟨copied, stopped, rest, hrun, hsplit, hlen, -, hend, hfree⟩ :=
                  ih (n := n + 1) (Nat.le_of_succ_le_succ hsize)
                have hc : stop c = false := (Bool.or_eq_false_iff.mp hstop).1
                refine ⟨c :: copied, stopped, rest, ?_, congrArg (c :: ·) hsplit, ?_, fun _ _ => List.cons_ne_nil _ _,
                  ?_, fun h => free_cons hc (hfree h)⟩
                · simp [copy, hn, hstop, hrun]
                · rw [List.length_cons]
                  omega
                · intro h
                  obtain ⟨p, d, rfl, hp, hd⟩ := hend h
                  exact ⟨c :: p, d, rfl, free_cons hc hp, hd⟩
          · refine ⟨[], false, (c :: l).take (size + 1), ?_, rfl, Nat.zero_le _, fun _ h => absurd h hn,
              fun h => Bool.noConfusion h, fun _ => free_nil⟩
            simp [copy, hn]

end LineBuffer

end NullG.Lib
