/-
The search for a text in a string (`nl_strcontains` and `nl_strstr` of `libn.c`).

The loop has a place in each string. Where two bytes differ it sets the place in the pattern back to its start, but goes
on in the string behind the byte that differed. What stands in the bytes that it has passed is not found any more.
-/

import NullG.Lib.Search
import NullG.Mail.Text

namespace NullG.Nsp.StrSearch

open NullG.Lib NullG.Mail

/-! ### The functions -/

/-- The loop from `i` and `j` over the rest of the string: the two places where it ends. The place -1 is 0 after the
`j++` that follows it. -/
def searchLoop (same : Byte → Byte → Bool) (t : List Byte) : Nat → Nat → List Byte → Nat × Nat
  | i, j, [] => (i, j)
  | i, j, c :: s =>
      if j = t.length then (i, j)
      else
        match t[j]? with
        | none => (i, j)
        | some d =>
            if d = 0 then (i, 0)
            else if same d c then searchLoop same t (i + 1) (j + 1) s
            else searchLoop same t (i + 1) 0 s

/-- The names under which `nl_strcontains` is called. -/
inductive ContainsName where
  | contains
  | endswith
  | startswith
  deriving DecidableEq

/-- `nl_strcontains`. -/
def strcontains (fname : ContainsName) (s t : List Byte) : Bool :=
  if s.length < t.length then false
  else if s.length = 0 ∧ t.length = 0 then true
  else
    let (i, j) :=
      match fname with
      | .contains => searchLoop (· == ·) t 0 0 s
      | .endswith => searchLoop (· == ·) t (s.length - t.length) 0 (s.drop (s.length - t.length))
      | .startswith => searchLoop (· == ·) t 0 0 (s.take t.length)
    i ≤ s.length && j == t.length

/-- The names under which `nl_strstr` is called. -/
inductive StrName where
  | str
  | istr
  deriving DecidableEq

/-- The bytes that a search takes for one. -/
def StrName.same : StrName → Byte → Byte → Bool
  | .str, d, c => d == c
  | .istr, d, c => lower d == lower c

/-- `nl_strstr` of a pattern that is not empty: what it stores in `N->r`, where it stores something. -/
def strstr (fname : StrName) (s t : List Byte) : Option (List Byte) :=
  let (i, j) := searchLoop fname.same t 0 0 s
  if i ≤ s.length ∧ j = t.length then some (s.drop (i - j)) else none

/-! ### What the functions are for -/

/-- `str` finds the first place of the pattern, with `f` of the bytes compared. -/
def FindsFirst (f : Byte → Byte) (found : Option (List Byte)) (s t : List Byte) : Prop :=
  ∀ r, found = some r ↔ ∃ u, IsFirst (t.map f) (s.map f) u ∧ r = s.drop u.length

/-- The three functions find the pattern. -/
structure Searches (s t : List Byte) : Prop where
  contains : strcontains .contains s t = true ↔ t <:+: s
  str : FindsFirst id (strstr .str s t) s t
  istr : FindsFirst lower (strstr .istr s t) s t

/-- A try begins at the first place of the pattern. -/
def Meets (t s : List Byte) : Prop := ∀ u, IsFirst t s u → Tried t u

/-! ### Where the loop ends -/

section

variable {same : Byte → Byte → Bool} {f : Byte → Byte} {s t u r : List Byte} {i j : Nat}

/-- The loop depends on what the bytes are taken for. -/
theorem searchLoop_map (hsame : ∀ d c, same d c = (f d == f c)) (hzero : ∀ c, f c = 0 ↔ c = 0) :
    searchLoop same t i j s = searchLoop (· == ·) (t.map f) i j (s.map f) := by
  induction s generalizing i j with
  | nil => rfl
  | cons c s ih =>
      rw [List.map_cons, searchLoop, searchLoop, List.length_map, List.getElem?_map]
      by_cases hj : j = t.length
      · rw [if_pos hj, if_pos hj]
      · rw [if_neg hj, if_neg hj]
        cases t[j]? with
        | none => rfl
        | some d =>
            dsimp only [Option.map_some]
            rw [hsame, ih, ih]
            simp only [hzero]

/-- The loop at its end. -/
theorem searchLoop_full (h : j = t.length) : searchLoop same t i j s = (i, j) := by
  cases s with
  | nil => rfl
  | cons c s => rw [searchLoop, if_pos h]

theorem searchLoop_hit {c : Byte} (h : t[j]? = some c) (hc : c ≠ 0) :
    searchLoop (· == ·) t i j (c :: s) = searchLoop (· == ·) t (i + 1) (j + 1) s := by
  have hj : j < t.length := (List.getElem?_eq_some_iff.mp h).1
  rw [searchLoop, if_neg hj.ne, h]
  dsimp only
  rw [if_neg hc, if_pos (beq_self_eq_true c)]

theorem searchLoop_miss {c d : Byte} (h : t[j]? = some d) (hd : d ≠ 0) (hne : d ≠ c) :
    searchLoop (· == ·) t i j (c :: s) = searchLoop (· == ·) t (i + 1) 0 s := by
  have hj : j < t.length := (List.getElem?_eq_some_iff.mp h).1
  rw [searchLoop, if_neg hj.ne, h]
  dsimp only
  rw [if_neg hd, if_neg (by simpa using hne)]

/-- The loop passes over what stands of the pattern. -/
theorem searchLoop_pass (ht : 0 ∉ t) {m : Nat} (hm : j + m ≤ t.length) :
    searchLoop (· == ·) t i j ((t.drop j).take m ++ s) = searchLoop (· == ·) t (i + m) (j + m) s := by
  induction m generalizing i j with
  | zero => rfl
  | succ m ih =>
      have hj : j < t.length := by omega
      have hget : t[j]? = some t[j] := List.getElem?_eq_getElem hj
      have hc : t[j] ≠ 0 := fun h => ht (h ▸ List.getElem_mem hj)
      rw [List.drop_eq_getElem_cons hj, List.take_succ_cons, List.cons_append, searchLoop_hit hget hc,
        ih (by omega)]
      congr 1 <;> omega

/-- The loop finds the pattern where a try begins. -/
theorem searchLoop_of_tried (ht : 0 ∉ t) (h : Tried t u) :
    searchLoop (· == ·) t i 0 (u ++ t ++ r) = (i + u.length + t.length, t.length) := by
  induction h generalizing i with
  | nil =>
      have hpass := searchLoop_pass (i := i) (s := r) ht (j := 0) (m := t.length) (by omega)
      rw [List.drop_zero, List.take_length, Nat.zero_add] at hpass
      rw [List.nil_append, hpass, searchLoop_full rfl]
      rfl
  | @fail m c u hm hc _ ih =>
      have hget : t[m]? = some t[m] := List.getElem?_eq_getElem hm
      have hd : t[m] ≠ 0 := fun h => ht (h ▸ List.getElem_mem hm)
      have hne : t[m] ≠ c := fun h => hc (h ▸ hget)
      have hpass := searchLoop_pass (i := i) (s := c :: (u ++ t ++ r)) ht (j := 0) (m := m) (by omega)
      rw [List.drop_zero, Nat.zero_add] at hpass
      rw [List.append_assoc, List.append_assoc, List.cons_append, ← List.append_assoc u t r, hpass,
        searchLoop_miss hget hd hne, ih]
      simp only [List.length_append, List.length_take, List.length_cons, Prod.mk.injEq, and_true]
      omega

theorem tried_self (hi : j ≤ i) (h : j = t.length) :
    ∃ u r, t.take j ++ s = u ++ t ++ r ∧ Tried t u ∧ i = i - j + u.length + t.length := by
  refine ⟨[], s, ?_, .nil, ?_⟩
  · rw [h, List.take_length]
    rfl
  · rw [List.length_nil]
    omega

/-- Where the loop has found the pattern, a try had begun. -/
theorem tried_of_searchLoop (ht : 0 ∉ t) (hj : j ≤ t.length) (hi : j ≤ i)
    (h : (searchLoop (· == ·) t i j s).2 = t.length) :
    ∃ u r, t.take j ++ s = u ++ t ++ r ∧ Tried t u ∧
      (searchLoop (· == ·) t i j s).1 = i - j + u.length + t.length := by
  induction s generalizing i j with
  | nil => exact tried_self hi h
  | cons c s ih =>
      by_cases hfull : j = t.length
      · rw [searchLoop_full hfull]
        exact tried_self hi hfull
      · have hlt : j < t.length := by omega
        have hget : t[j]? = some t[j] := List.getElem?_eq_getElem hlt
        have hd : t[j] ≠ 0 := fun hz => ht (hz ▸ List.getElem_mem hlt)
        by_cases hc : t[j] = c
        · rw [hc] at hget hd
          rw [searchLoop_hit hget hd] at h ⊢
          obtain ⟨u, r, hs, hu, hend⟩ := ih (by omega) (by omega) h
          refine ⟨u, r, ?_, hu, by omega⟩
          rw [← hs, take_succ_of_getElem? hget, List.append_assoc]
          rfl
        · rw [searchLoop_miss hget hd hc] at h ⊢
          obtain ⟨u, r, hs, hu, hend⟩ := ih (by omega) (by omega) h
          rw [List.take_zero, List.nil_append] at hs
          refine ⟨t.take j ++ c :: u, r, ?_, .fail hlt (fun heq => ?_) hu, ?_⟩
          · rw [hs]
            simp only [List.append_assoc, List.cons_append]
          · rw [hget] at heq
            exact hc (Option.some.inj heq)
          · rw [hend, List.length_append, List.length_take, List.length_cons]
            omega

/-! ### The pattern that is found -/

/-- The loop over a whole string. -/
theorem searchLoop_iff (ht : 0 ∉ t) (n : Nat) : searchLoop (· == ·) t 0 0 s = (n, t.length) ↔
    ∃ u r, s = u ++ t ++ r ∧ Tried t u ∧ n = u.length + t.length := by
  constructor
  · intro h
    have hend := tried_of_searchLoop (i := 0) (j := 0) (s := s) ht (Nat.zero_le _) (Nat.le_refl _) (by rw [h])
    rw [h, List.take_zero, List.nil_append] at hend
    obtain ⟨u, r, hs, hu, hn⟩ := hend
    exact ⟨u, r, hs, hu, by simpa using hn⟩
  · rintro ⟨u, r, rfl, hu, rfl⟩
    rw [searchLoop_of_tried ht hu, Nat.zero_add]

/-- The pattern stands behind one text of failed tries only. -/
theorem length_eq_of_tried (ht : 0 ∉ t) {v : List Byte} (hu : Tried t u) (hv : Tried t v) (hus : u ++ t <+: s)
    (hvs : v ++ t <+: s) : u.length = v.length := by
  obtain ⟨r, hr⟩ := hus
  obtain ⟨r', hr'⟩ := hvs
  have h := (searchLoop_iff (s := s) ht _).mpr ⟨u, r, hr.symm, hu, rfl⟩
  rw [(searchLoop_iff (s := s) ht _).mpr ⟨v, r', hr'.symm, hv, rfl⟩] at h
  have hlen := congrArg Prod.fst h
  dsimp only at hlen
  omega

theorem lower_eq_zero (c : Byte) : lower c = 0 ↔ c = 0 := by
  unfold lower
  split
  · rename_i hc
    simp only [Bool.and_eq_true, decide_eq_true_eq, UInt8.le_iff_toNat_le] at hc
    have hA : (ch 'A').toNat = 65 := by decide
    have hZ : (ch 'Z').toNat = 90 := by decide
    constructor
    · intro h
      have hnat := congrArg UInt8.toNat h
      rw [UInt8.toNat_add] at hnat
      simp only [UInt8.toNat_ofNat] at hnat
      omega
    · intro h
      rw [h] at hc
      have hz : (0 : Byte).toNat = 0 := rfl
      omega
  · exact Iff.rfl

/-- What `nl_strstr` does with a string and a pattern, whatever the bytes are taken for. -/
theorem findsFirst_iff (fname : StrName) (hsame : ∀ d c, fname.same d c = (f d == f c))
    (hzero : ∀ c, f c = 0 ↔ c = 0)
    (ht : 0 ∉ t) : FindsFirst f (strstr fname s t) s t ↔ Meets (t.map f) (s.map f) := by
  have ht' : 0 ∉ t.map f := by
    intro h
    obtain ⟨c, hc, hfc⟩ := List.mem_map.mp h
    exact ht ((hzero c).mp hfc ▸ hc)
  -- what is found stands behind failed tries
  have hfound : ∀ r, strstr fname s t = some r ↔
      ∃ u, Tried (t.map f) u ∧ u ++ t.map f <+: s.map f ∧ r = s.drop u.length := by
    intro r
    rw [strstr, searchLoop_map hsame hzero]
    constructor
    · intro h
      cases hloop : searchLoop (· == ·) (t.map f) 0 0 (s.map f) with
      | mk i j =>
          rw [hloop] at h
          simp only [Option.ite_none_right_eq_some, Option.some.injEq] at h
          obtain ⟨⟨-, rfl⟩, rfl⟩ := h
          rw [← List.length_map f, searchLoop_iff ht'] at hloop
          obtain ⟨u, r, hs, hu, hi⟩ := hloop
          refine ⟨u, hu, ⟨r, hs.symm⟩, ?_⟩
          rw [hi, List.length_map, Nat.add_sub_cancel]
    · rintro ⟨u, hu, ⟨r, hr⟩, rfl⟩
      have hlen := congrArg List.length hr
      simp only [List.length_append, List.length_map] at hlen
      rw [(searchLoop_iff ht' (u.length + (t.map f).length)).mpr ⟨u, r, hr.symm, hu, rfl⟩]
      simp only [List.length_map, and_true, Nat.add_sub_cancel]
      rw [if_pos (by omega)]
  constructor
  · intro h u hfirst
    obtain ⟨v, hv, hvs, hdrop⟩ := (hfound _).mp ((h _).mpr ⟨u, hfirst, rfl⟩)
    have hu := hfirst.isPrefix.length_le
    have hv' := ((List.prefix_append v _).trans hvs).length_le
    rw [List.length_map] at hu hv'
    have hlen := congrArg List.length hdrop
    rw [List.length_drop, List.length_drop] at hlen
    rw [prefix_inj hfirst.isPrefix ((List.prefix_append v _).trans hvs) (by omega)]
    exact hv
  · intro h r
    rw [hfound]
    constructor
    · rintro ⟨u, hu, hus, rfl⟩
      obtain ⟨v, hv⟩ := exists_isFirst ((List.suffix_append u _).isInfix.trans hus.isInfix)
      exact ⟨v, hv, by rw [length_eq_of_tried ht' hu (h v hv) hus hv.occurs]⟩
    · rintro ⟨u, hfirst, rfl⟩
      exact ⟨u, h u hfirst, hfirst.occurs, rfl⟩

/-- `contains` finds a pattern where a try begins at its first place. -/
theorem strcontains_iff (hne : t ≠ []) (ht : 0 ∉ t) (h : Meets t s) :
    strcontains .contains s t = true ↔ t <:+: s := by
  have hpos : 0 < t.length := List.length_pos_iff.mpr hne
  rw [strcontains]
  by_cases hshort : s.length < t.length
  · rw [if_pos hshort]
    constructor
    · intro h
      exact nomatch h
    · intro hin
      exact absurd hin.length_le (by omega)
  · rw [if_neg hshort, if_neg (by omega)]
    dsimp only
    rw [Bool.and_eq_true, decide_eq_true_eq, beq_iff_eq]
    constructor
    · rintro ⟨-, hj⟩
      obtain ⟨u, r, hs, -⟩ := (searchLoop_iff (s := s) ht _).mp (Prod.ext rfl hj)
      exact ⟨u, r, hs.symm⟩
    · intro hin
      obtain ⟨u, hfirst⟩ := exists_isFirst hin
      obtain ⟨r, hr⟩ := hfirst.occurs
      have hlen := congrArg List.length hr
      simp only [List.length_append] at hlen
      rw [(searchLoop_iff (s := s) ht (u.length + t.length)).mpr ⟨u, r, hr.symm, h u hfirst, rfl⟩]
      exact ⟨by dsimp only; omega, rfl⟩

end

/-- The functions find a pattern just if a try begins at its first place, as it is and up to case. -/
theorem searches_iff {s t : List Byte} (hne : t ≠ []) (ht : 0 ∉ t) :
    Searches s t ↔ Meets t s ∧ Meets (t.map lower) (s.map lower) := by
  have hstr : FindsFirst id (strstr .str s t) s t ↔ Meets t s := by
    have h := findsFirst_iff (f := id) (s := s) .str (fun _ _ => rfl) (fun _ => Iff.rfl) ht
    rwa [List.map_id, List.map_id] at h
  have histr := findsFirst_iff (f := lower) (s := s) .istr (fun _ _ => rfl) lower_eq_zero ht
  constructor
  · intro h
    exact ⟨hstr.mp h.str, histr.mp h.istr⟩
  · rintro ⟨h, hlower⟩
    exact ⟨strcontains_iff hne ht h, hstr.mpr h, histr.mpr hlower⟩

theorem searches_behind : Searches (bytes "xyz") (bytes "yz") := by
  -- the first place is the second byte, with and without its case
  have hmeets : Meets (bytes "yz") (bytes "xyz") := by
    intro u hfirst
    have hle := hfirst.least (bytes "x") ⟨[], rfl⟩
    have hne : u ≠ [] := by
      rintro rfl
      exact absurd hfirst.occurs (by decide)
    have hpos := List.length_pos_iff.mpr hne
    have hone : (bytes "x").length = 1 := rfl
    rw [prefix_inj hfirst.isPrefix (v := bytes "x") ⟨bytes "yz", rfl⟩ (by omega)]
    exact .fail (m := 0) (by decide) (by decide) .nil
  exact (searches_iff (by decide) (by decide)).mpr ⟨hmeets, hmeets⟩

/-- `ab` is not found behind an `a`. -/
theorem not_searches_overlap : ¬ Searches (bytes "aab") (bytes "ab") := by
  intro h
  have hin : bytes "ab" <:+: bytes "aab" := ⟨bytes "a", [], rfl⟩
  exact absurd (h.contains.mpr hin) (by decide)

end NullG.Nsp.StrSearch
