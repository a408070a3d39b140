/-
Domain names in a message (RFC 1035, 4.1.4).

A name is a sequence of labels, ended by a label without bytes or by a pointer to a name that stands before it.
`nameFrom` reads a name; it needs no more steps than `nameFuel` says, because a pointer leads to a place before the name
and a label to one behind it.
-/

import Mathlib.Data.List.Basic

namespace NullG.Lib

/-- The name at `p` has these labels, and its first `n` bytes are there; pointers lead to places before `start`. -/
inductive NameAt (msg : List UInt8) : Nat → Nat → List (List UInt8) → Nat → Prop where
  | root {start p : Nat} (h : msg[p]? = some 0) : NameAt msg start p [] 1
  | label {start p n : Nat} {k : UInt8} {labels : List (List UInt8)} (h : msg[p]? = some k) (hpos : 0 < k.toNat)
      (hlt : k.toNat < 64) (hlong : p + 1 + k.toNat ≤ msg.length) (hrest : NameAt msg start (p + 1 + k.toNat) labels n) :
      NameAt msg start p ((msg.drop (p + 1)).take k.toNat :: labels) (1 + k.toNat + n)
  | pointer {start p n : Nat} {hi lo : UInt8} {labels : List (List UInt8)} (h : msg[p]? = some hi)
      (h' : msg[p + 1]? = some lo) (hhi : 192 ≤ hi.toNat) (hlt : (hi.toNat - 192) * 256 + lo.toNat < start)
      (hrest : NameAt msg ((hi.toNat - 192) * 256 + lo.toNat) ((hi.toNat - 192) * 256 + lo.toNat) labels n) :
      NameAt msg start p labels 2

/-- Read a name: its labels and the number of its bytes. -/
def nameFrom (msg : List UInt8) : Nat → Nat → Nat → Option (List (List UInt8) × Nat)
  | 0, _, _ => none
  | fuel + 1, start, p =>
      match msg[p]? with
      | none => none
      | some k =>
          if k.toNat = 0 then some ([], 1)
          else if k.toNat < 64 then
            if p + 1 + k.toNat ≤ msg.length then
              match nameFrom msg fuel start (p + 1 + k.toNat) with
              | none => none
              | some (labels, n) => some ((msg.drop (p + 1)).take k.toNat :: labels, 1 + k.toNat + n)
            else none
          else if 192 ≤ k.toNat then
            match msg[p + 1]? with
            | none => none
            | some lo =>
                let q := (k.toNat - 192) * 256 + lo.toNat
                if q < start then
                  match nameFrom msg fuel q q with
                  | none => none
                  | some (labels, _) => some (labels, 2)
                else none
          else none

/-- As many steps as a name can need. -/
def nameFuel (msg : List UInt8) (start p : Nat) : Nat := start * (msg.length + 1) + (msg.length - p) + 1

variable {msg : List UInt8} {start p n : Nat} {labels : List (List UInt8)}

theorem lt_of_getElem? {k : UInt8} (h : msg[p]? = some k) : p < msg.length := (List.getElem?_eq_some_iff.mp h).1

theorem NameAt.lt_length (h : NameAt msg start p labels n) : p < msg.length := by
  cases h with
  | root h => exact lt_of_getElem? h
  | label h => exact lt_of_getElem? h
  | pointer h => exact lt_of_getElem? h

/-- A name is read. -/
theorem NameAt.read (h : NameAt msg start p labels n) :
    ∀ fuel, nameFuel msg start p ≤ fuel → nameFrom msg fuel start p = some (labels, n) := by
  induction h with
  | root h =>
      intro fuel hfuel
      obtain ⟨fuel, rfl⟩ : ∃ k, fuel = k + 1 := Nat.exists_eq_succ_of_ne_zero (by unfold nameFuel at hfuel; omega)
      simp [nameFrom, h]
  | @label start p n k labels h hpos hlt hlong hrest ih =>
      intro fuel hfuel
      have hp := lt_of_getElem? h
      unfold nameFuel at hfuel ih
      obtain ⟨fuel, rfl⟩ : ∃ k, fuel = k + 1 := Nat.exists_eq_succ_of_ne_zero (by omega)
      have hread := ih fuel (by omega)
      simp [nameFrom, h, Nat.ne_of_gt hpos, hlt, hlong, hread]
  | @pointer start p n hi lo labels h h' hhi hlt hrest ih =>
      intro fuel hfuel
      unfold nameFuel at hfuel ih
      obtain ⟨fuel, rfl⟩ : ∃ k, fuel = k + 1 := Nat.exists_eq_succ_of_ne_zero (by omega)
      generalize hq : (hi.toNat - 192) * 256 + lo.toNat = q at hlt ih
      have hread : nameFrom msg fuel q q = some (labels, n) := by
        refine ih fuel ?_
        have hmul : (q + 1) * (msg.length + 1) ≤ start * (msg.length + 1) := Nat.mul_le_mul_right _ hlt
        rw [Nat.succ_mul] at hmul
        omega
      have hne : ¬ hi.toNat = 0 := by omega
      have hge : ¬ hi.toNat < 64 := by omega
      simp [nameFrom, h, h', hne, hge, hhi, hq, hlt, hread]

/-- A name without pointers. -/
def wire (labels : List (List UInt8)) : List UInt8 := labels.flatMap (fun l => l.length.toUInt8 :: l) ++ [0]

/-- A name is there where it is written without pointers. -/
theorem nameAt_wire (hvalid : ∀ l ∈ labels, 0 < l.length ∧ l.length < 64) (before after : List UInt8) (start : Nat) :
    NameAt (before ++ (wire labels ++ after)) start before.length labels (wire labels).length := by
  induction labels generalizing before with
  | nil =>
      refine .root ?_
      rw [List.getElem?_append_right (Nat.le_refl _), Nat.sub_self]
      rfl
  | cons l labels ih =>
      have hl := hvalid l List.mem_cons_self
      have hk : l.length.toUInt8.toNat = l.length := by
        rw [Nat.toUInt8, UInt8.toNat_ofNat']
        exact Nat.mod_eq_of_lt (by omega)
      have hwire : wire (l :: labels) = l.length.toUInt8 :: (l ++ wire labels) := by
        rw [wire, wire, List.flatMap_cons, List.cons_append, List.cons_append, List.append_assoc]
      have hmsg : before ++ (wire (l :: labels) ++ after) =
          (before ++ l.length.toUInt8 :: l) ++ (wire labels ++ after) := by
        rw [hwire, List.cons_append, List.append_assoc, List.append_assoc, List.cons_append]
      have hbefore : (before ++ l.length.toUInt8 :: l).length = before.length + 1 + l.length.toUInt8.toNat := by
        rw [hk, List.length_append, List.length_cons]
        omega
      have hrest := ih (fun l hl => hvalid l (List.mem_cons_of_mem _ hl)) (before ++ l.length.toUInt8 :: l)
      rw [hbefore, ← hmsg] at hrest
      have hthis : (before ++ (wire (l :: labels) ++ after))[before.length]? = some l.length.toUInt8 := by
        rw [List.getElem?_append_right (Nat.le_refl _), Nat.sub_self, hwire]
        rfl
      have hlong : before.length + 1 + l.length.toUInt8.toNat ≤ (before ++ (wire (l :: labels) ++ after)).length := by
        have hlength : ((before ++ l.length.toUInt8 :: l) ++ (wire labels ++ after)).length =
            (before ++ l.length.toUInt8 :: l).length + (wire labels ++ after).length := List.length_append
        rw [hmsg, ← hbefore, hlength]
        exact Nat.le_add_right _ _
      have hlabel := NameAt.label hthis (hk.symm ▸ hl.1 : 0 < _) (hk.symm ▸ hl.2 : _ < 64) hlong hrest
      have hdata :
          ((before ++ (wire (l :: labels) ++ after)).drop (before.length + 1)).take l.length.toUInt8.toNat = l := by
        rw [hk, hmsg, List.append_assoc, List.drop_length_add_append]
        exact List.take_left
      rw [hdata] at hlabel
      have hlength : (wire (l :: labels)).length = 1 + l.length.toUInt8.toNat + (wire labels).length := by
        rw [hwire, hk, List.length_cons, List.length_append]
        omega
      rw [hlength]
      exact hlabel

end NullG.Lib
