/-
`nc_vsnprintf` (`libnsp/libc.c`).

The bytes of the format are written to the buffer without a look at its size. A conversion is copied by `nc_strncpy`,
which stops where the given size ends, but the length that is counted is the one of the whole text. So a text that is
too long is written behind its buffer, unless it is the last conversion that is cut.
-/

import NullG.Nsp.Opcodes

namespace NullG.Libs

open NullG.Nsp

/-- A part of a format: bytes of its own, or a conversion and what it prints. -/
inductive Conv where
  | text (s : List Byte)
  | arg (s : List Byte)

/-- What a part prints. -/
def Conv.printed : Conv → List Byte
  | .text s => s
  | .arg s => s

/-- What a format prints. -/
def printed (format : List Conv) : List Byte := format.flatMap Conv.printed

/-- `nc_vsnprintf(N, dest, max, format, ap)` with `size` bytes at `dest`: the string that is left there, behind `dest`
that was written. There is none if a byte is written behind the buffer. -/
def vsnprintfFrom (size max : Nat) (dest : List Byte) : List Conv → Option (List Byte)
  | [] => if dest.length < size then some dest else none
  | .text s :: format => vsnprintfFrom size max (dest ++ s) format
  | .arg s :: format =>
      if dest.length + s.length < max then vsnprintfFrom size max (dest ++ s) format
      -- `nc_strncpy` ends the string, and what follows is written behind its end
      else if dest.length + s.length + (printed format).length < size then
        some (dest ++ s.take (max - dest.length - 1))
      else none

/-- `nc_vsnprintf`. -/
def ncVsnprintf (size max : Nat) (format : List Conv) : Option (List Byte) := vsnprintfFrom size max [] format

variable {size max : Nat} {dest s : List Byte} {format : List Conv}

@[simp] theorem printed_nil : printed [] = [] := rfl

@[simp] theorem printed_cons (c : Conv) (format : List Conv) :
    printed (c :: format) = c.printed ++ printed format := rfl

@[simp] theorem printed_append (p q : List Conv) : printed (p ++ q) = printed p ++ printed q :=
  List.flatMap_append

/-- A text that has room is printed. -/
theorem vsnprintfFrom_fits (hmax : max ≤ size) (h : dest.length + (printed format).length < max) :
    vsnprintfFrom size max dest format = some (dest ++ printed format) := by
  induction format generalizing dest with
  | nil =>
      have hlt : dest.length < size := by
        simp only [printed_nil, List.length_nil] at h
        omega
      simp [vsnprintfFrom, hlt]
  | cons c format ih =>
      simp only [printed_cons, List.length_append] at h
      have hrest : vsnprintfFrom size max (dest ++ c.printed) format = some (dest ++ printed (c :: format)) := by
        rw [ih (by rw [List.length_append]; omega), List.append_assoc, printed_cons]
      cases c with
      | text s => exact hrest
      | arg s =>
          have hlt : dest.length + s.length < max := by
            simp only [Conv.printed] at h
            omega
          simp only [vsnprintfFrom, if_pos hlt]
          exact hrest

/-- A text that is longer than the buffer is written behind it. -/
theorem vsnprintfFrom_long (h : size ≤ dest.length + (printed format).length) :
    vsnprintfFrom size max dest format = none := by
  induction format generalizing dest with
  | nil =>
      have hle : ¬ dest.length < size := by
        simp only [printed_nil, List.length_nil] at h
        omega
      simp [vsnprintfFrom, hle]
  | cons c format ih =>
      simp only [printed_cons, List.length_append] at h
      have hrest : vsnprintfFrom size max (dest ++ c.printed) format = none :=
        ih (by rw [List.length_append]; omega)
      cases c with
      | text s => exact hrest
      | arg s =>
          simp only [Conv.printed] at h hrest
          simp only [vsnprintfFrom, hrest]
          split
          · rfl
          · rw [if_neg (by omega)]

/-- `nc_snprintf(N, buf, sizeof(buf), ...)`. -/
theorem ncVsnprintf_self : ncVsnprintf size size format =
    if (printed format).length < size then some (printed format) else none := by
  by_cases h : (printed format).length < size
  · rw [if_pos h]
    exact vsnprintfFrom_fits (Nat.le_refl _) (by simpa using h)
  · rw [if_neg h]
    exact vsnprintfFrom_long (by simpa using h)

/-- A line in a buffer with a byte more than is said: it is printed, or it is written behind the buffer. -/
theorem vsnprintfFrom_line (hs : 2 ≤ s.length) : vsnprintfFrom (max + 1) max dest (format ++ [.text s]) =
    if dest.length + (printed format).length + s.length ≤ max then some (dest ++ printed format ++ s) else none := by
  induction format generalizing dest with
  | nil =>
      have hlt : (dest ++ s).length < max + 1 ↔ dest.length + (printed []).length + s.length ≤ max := by
        rw [Nat.lt_succ_iff, List.length_append]
        rfl
      have happend : dest ++ printed [] ++ s = dest ++ s := congrArg (· ++ s) (List.append_nil dest)
      simp only [List.nil_append, vsnprintfFrom, hlt, happend]
  | cons c format ih =>
      have hrest := @ih (dest ++ c.printed)
      have hcount : (dest ++ c.printed).length + (printed format).length + s.length =
          dest.length + (printed (c :: format)).length + s.length := by
        simp only [printed_cons, List.length_append]
        omega
      rw [hcount, List.append_assoc dest, ← printed_cons] at hrest
      cases c with
      | text t => exact hrest
      | arg t =>
          by_cases h : dest.length + t.length < max
          · simp only [List.cons_append, vsnprintfFrom, if_pos h]
            exact hrest
          · have hlong : ¬ dest.length + (printed (.arg t :: format)).length + s.length ≤ max := by
              simp only [printed_cons, Conv.printed, List.length_append]
              omega
            have hlong' : ¬ dest.length + t.length + (printed (format ++ [.text s])).length < max + 1 := by
              simp only [printed_append, printed_cons, printed_nil, Conv.printed, List.length_append]
              omega
            simp only [List.cons_append, vsnprintfFrom, if_neg h, if_neg hlong']
            rw [if_neg hlong]

theorem ncVsnprintf_line (hs : 2 ≤ s.length) : ncVsnprintf (max + 1) max (format ++ [.text s]) =
    if (printed format).length + s.length ≤ max then some (printed format ++ s) else none := by
  have h := @vsnprintfFrom_line max [] s format hs
  simpa [ncVsnprintf] using h

end NullG.Libs
