/-
Cutting a string and putting it together (`nl_strsplit`, `nl_strjoin` and `nl_strrep` of `libn.c`).

`nl_strsplit` and `nl_strrep` go through the string with one loop: where the separator stands it ends a piece and goes
on behind it, and where the string ends there it ends one more piece, which is empty. `nl_strjoin` counts what it is
going to write before it writes.
-/

import NullG.Nsp.Value
import Mathlib.Data.List.Infix

namespace NullG.Nsp.StrSplit

open NullG.Nsp

/-! ### The functions -/

/-- `nc_strncmp` of two strings, which end where their bytes end. The first bytes are compared whatever `n` is. -/
def ncStrncmp (n : Nat) : List Byte → List Byte → Int
  | [], b => -((b.headD 0).toNat : Int)
  | c :: a, b =>
      if c ≠ b.headD 0 then (c.toNat : Int) - (b.headD 0).toNat
      else if c = 0 then 0
      else if n ≤ 1 then 0
      else ncStrncmp (n - 1) a b.tail

/-- A separator that stands at a byte is not empty. -/
theorem pos_of_ncStrncmp {c : Byte} {s s2 : List Byte} (hc : c ≠ 0) (h : ncStrncmp s2.length (c :: s) s2 = 0) :
    0 < s2.length := by
  cases s2 with
  | nil =>
      rw [ncStrncmp, if_pos (by simpa using hc)] at h
      have hzero : c.toNat = 0 := by simpa using h
      exact absurd (UInt8.toNat.inj hzero) hc
  | cons d s2 => exact Nat.succ_pos _

/-- The loop of `nl_strsplit`, with what stands between `ss` and `se`. -/
def splitLoop (s2 piece : List Byte) : List Byte → List (List Byte)
  | [] => if piece = [] then [] else [piece]
  | c :: s =>
      if _hc : c = 0 then if piece = [] then [] else [piece]
      else if _h : ncStrncmp s2.length (c :: s) s2 = 0 then
        let se := (c :: s).drop s2.length
        if se.headD 0 ≠ 0 then piece :: splitLoop s2 [] se else [piece, []]
      else splitLoop s2 (piece ++ [c]) s
termination_by s => s.length
decreasing_by
  · have hpos := pos_of_ncStrncmp _hc _h
    simp only [List.length_drop, List.length_cons]
    omega
  · exact Nat.lt_succ_self _

/-- `nl_strsplit`: the strings of the table, which has the names 0, 1 and so on. -/
def strsplit (s a : List Byte) : List (List Byte) :=
  if s = [] then []
  else if a = [] then s.map fun c => [c]
  else splitLoop a [] s

/-- The loop of `nl_strrep`. -/
def repLoop (s2 s3 piece : List Byte) : List Byte → List Byte
  | [] => piece
  | c :: s =>
      if _hc : c = 0 then piece
      else if _h : ncStrncmp s2.length (c :: s) s2 = 0 then
        let se := (c :: s).drop s2.length
        if se.headD 0 ≠ 0 then piece ++ s3 ++ repLoop s2 s3 [] se else piece ++ s3
      else repLoop s2 s3 (piece ++ [c]) s
termination_by s => s.length
decreasing_by
  · have hpos := pos_of_ncStrncmp _hc _h
    simp only [List.length_drop, List.length_cons]
    omega
  · exact Nat.lt_succ_self _

/-- `nl_strrep`. -/
def strrep (s a b : List Byte) : List Byte :=
  if s = [] then []
  else if a = [] then s
  else repLoop a b [] s

/-- An entry of the table of `nl_strjoin`. -/
inductive Item where
  | string (b : List Byte)
  | number (q : Num)
  | other
  deriving DecidableEq

/-- What `nl_strjoin` writes of an entry: the bytes of a string, or a number as one byte. -/
def Item.bytes : Item → Option (List Byte)
  | .string b => some b
  | .number q => some [UInt8.ofInt q.trunc]
  | .other => none

/-- The loop of `nl_strjoin` over the entries, with `cnt` of them still to write. -/
def joinLoop (p : List Byte) : Nat → List Item → List Byte
  | _, [] => []
  | cnt, item :: items =>
      match item.bytes with
      | none => joinLoop p cnt items
      | some b => b ++ (if cnt - 1 ≠ 0 then p else []) ++ joinLoop p (cnt - 1) items

/-- The first string of the entries. -/
def firstString : List Item → List Byte
  | [] => []
  | .string b :: _ => b
  | _ :: items => firstString items

/-- `nl_strjoin`: the `size` of the result, and the bytes that are written. -/
def strjoin (items : List Item) (p : List Byte) : Nat × List Byte :=
  let cnt := (items.filterMap Item.bytes).length
  let len1 := (items.filterMap Item.bytes).flatten.length
  if cnt = 0 then (0, [])
  else if 1 < cnt then (len1 + (cnt - 1) * p.length, joinLoop p cnt items)
  else (len1, firstString items)

/-- The table of `nl_strsplit` as one that `nl_strjoin` reads. -/
def strings (pieces : List (List Byte)) : List Item := pieces.map Item.string

/-- The three functions agree on a string. -/
structure Agrees (s a b : List Byte) : Prop where
  join_split : strjoin (strings (strsplit s a)) a = (s.length, s)
  apart : ∀ p ∈ strsplit s a, ¬ a <:+: p
  rep : strjoin (strings (strsplit s a)) b = ((strrep s a b).length, strrep s a b)

/-! ### Where the separator stands -/

section

variable {s a b piece : List Byte}

end

end NullG.Nsp.StrSplit
