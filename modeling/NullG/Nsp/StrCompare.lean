/-
Comparing strings (`nl_strcmp` of `libn.c`, and the operators of `n_evalop`).

An empty string is NULL, unless it was made by a function that allocates a byte for it. `nl_strcmp` has branches of its
own for NULL, and its loop for `icmp` ends where the first string does.
-/

import NullG.Nsp.OperatorLaws
import NullG.Nsp.StrSearch
import NullG.Nsp.StrSplit

namespace NullG.Nsp.StrCompare

open NullG.Mail StrSearch StrSplit

/-! ### The function -/

/-- The names under which `nl_strcmp` is called. -/
inductive CmpName where
  | cmp
  | ncmp
  | icmp
  | nicmp
  deriving DecidableEq

/-- A `char` as an `int`. -/
def schar (c : Byte) : Int := if c.toNat < 128 then c.toNat else c.toNat - 256

/-- The loop of `icmp` over what is left of the two strings, with the NUL at their ends. There is no result where it
reads behind that. -/
def icmpLoop : List Byte → List Byte → Option Int
  | c :: s1, d :: s2 =>
      if lower c ≠ lower d then some ((lower c).toNat - (lower d).toNat)
      else
        match s1.head? with
        | none => none
        | some e => if e ≠ 0 then icmpLoop s1 s2 else some 0
  | _, _ => none

/-- The loop of `nicmp`. -/
def nicmpLoop (i : Int) : List Byte → List Byte → Option Int
  | c :: s1, d :: s2 =>
      if lower c ≠ lower d then some ((lower c).toNat - (lower d).toNat)
      else if i - 1 < 1 then some 0
      else
        match s1.head? with
        | none => none
        | some e => if e ≠ 0 then nicmpLoop (i - 1) s1 s2 else some 0
  | _, _ => none

/-- `nl_strcmp` of two strings by their `d.str`, with the number `n` at the third place. -/
def strcmp (fname : CmpName) (n : Int) : Option (List Byte) → Option (List Byte) → Option Int
  | none, none => some 0
  | none, some b => some (schar (b.headD 0))
  | some a, none => some (-schar (a.headD 0))
  | some a, some b =>
      match fname with
      | .cmp => some (nameCmp (cstr a) (cstr b))
      | .ncmp => some (ncStrncmp n.toNat (cstr a) (cstr b))
      | .icmp => icmpLoop (a ++ [0]) (b ++ [0])
      | .nicmp => nicmpLoop n (a ++ [0]) (b ++ [0])

/-! ### What the function is for -/

/-- The operator finds `r` of two strings, in every memory. -/
def Finds (op : Byte) (a b : List Byte) (r : Bool) : Prop :=
  ∀ s o p v w, Has s o v (.string a) → Has s p w (.string b) → o ≠ p → v ≠ w →
    ∃ t, (nEvalop o op p).run s = .ok () t ∧ Has t o v (.boolean r)

/-- The two strings are the same up to ASCII case. -/
def SameText (a b : List Byte) : Prop := a.map lower = b.map lower

instance (a b : List Byte) : Decidable (SameText a b) := inferInstanceAs (Decidable (a.map lower = b.map lower))

/-- `cmp` and `icmp` are the order of two strings. -/
structure Orders (str1 str2 : Option (List Byte)) : Prop where
  cmp : ∃ i j, strcmp .cmp 0 str1 str2 = some i ∧ strcmp .cmp 0 str2 str1 = some j ∧ j.sign = -i.sign ∧
    Finds opMclt (str1.getD []) (str2.getD []) (i < 0) ∧ Finds opMceq (str1.getD []) (str2.getD []) (i = 0) ∧
    Finds opMcgt (str1.getD []) (str2.getD []) (0 < i)
  icmp : ∃ i j, strcmp .icmp 0 str1 str2 = some i ∧ strcmp .icmp 0 str2 str1 = some j ∧ j.sign = -i.sign ∧
    (i = 0 ↔ SameText (str1.getD []) (str2.getD []))

/-- The strings are compared as they are: the sign of a NULL is lost on a byte below 128, and the end of a string that
is not NULL on one that goes on. -/
def Comparable : Option (List Byte) → Option (List Byte) → Prop
  | none, none => True
  | none, some b | some b, none => b = [] ∨ 128 ≤ (b.headD 0).toNat
  | some a, some b =>
      (a ≠ [] ∨ b ≠ []) ∧ (a ≠ [] → a.map lower <+: b.map lower → SameText a b) ∧
        (b ≠ [] → b.map lower <+: a.map lower → SameText a b)

/-! ### Operators on strings -/

section

variable {a b : List Byte} {op : Byte} {r : Bool} {i : Int}

theorem evalop_strings (hop : op ≠ opMadd) :
    (Scalar.string a).evalop op (.string b) = .truth (cmpOp op (nameCmp (cstr a) (cstr b))) := by
  unfold Scalar.evalop
  rw [if_neg (fun h => h.2 rfl), if_neg Scalar.noConfusion]
  exact if_neg hop

/-- An operator finds what it says of the result of `nc_strcmp`. -/
theorem finds_iff (hop : op ≠ opMadd) (r' : Bool) (hcmp : cmpOp op (nameCmp (cstr a) (cstr b)) = some r') :
    Finds op a b r ↔ r' = r := by
  have hrun : ∀ {s o p v w}, Has s o v (.string a) → Has s p w (.string b) → o ≠ p → v ≠ w →
      ∃ t, (nEvalop o op p).run s = .ok () t ∧ Has t o v (.boolean r') := by
    intro s o p v w ho hp hne hvw
    have hends := nEvalop_run op ho hp hne hvw
    rw [evalop_strings hop, hcmp] at hends
    obtain ⟨t, hrun, hhas, -⟩ := hends
    exact ⟨t, hrun, hhas⟩
  constructor
  · intro h
    have ho := pairOf_left (z := strVal b) rfl (strVal_is a)
    have hp := pairOf_right (y := strVal a) rfl (strVal_is b)
    obtain ⟨t, ht, hr'⟩ := hrun ho hp (by decide) (by decide)
    obtain ⟨u, hu, hr⟩ := h _ 3 4 3 4 ho hp (by decide) (by decide)
    cases ht.symm.trans hu
    exact hr'.boolean_inj hr
  · rintro rfl s o p v w ho hp hne hvw
    exact hrun ho hp hne hvw

/-- The three operators agree with a result of the sign that `nc_strcmp` has. -/
theorem finds_sign_iff : (Finds opMclt a b (i < 0) ∧ Finds opMceq a b (i = 0) ∧ Finds opMcgt a b (0 < i)) ↔
    i.sign = (nameCmp (cstr a) (cstr b)).sign := by
  rw [finds_iff (by decide) (nameCmp (cstr a) (cstr b) < 0) rfl,
    finds_iff (by decide) (nameCmp (cstr a) (cstr b) = 0) rfl,
    finds_iff (by decide) (0 < nameCmp (cstr a) (cstr b)) rfl]
  simp only [decide_eq_decide]
  generalize nameCmp (cstr a) (cstr b) = c
  rcases lt_trichotomy i 0 with hi | rfl | hi
  · rw [Int.sign_eq_neg_one_of_neg hi, @eq_comm Int (-1), Int.sign_eq_neg_one_iff_neg]
    omega
  · rw [Int.sign_zero, @eq_comm Int 0 c.sign, Int.sign_eq_zero_iff_zero]
    omega
  · rw [Int.sign_eq_one_of_pos hi, @eq_comm Int 1, Int.sign_eq_one_iff_pos]
    omega

end

/-! ### The order of `cmp` -/

section

variable {a b : List Byte} {str1 str2 : Option (List Byte)}

/-- The byte at the beginning of a string that is compared with NULL. -/
theorem schar_sign_iff (hb : 0 ∉ b) :
    (schar (b.headD 0)).sign = (nameCmp [] b).sign ↔ b = [] ∨ 128 ≤ (b.headD 0).toNat := by
  cases b with
  | nil => exact iff_of_true rfl (.inl rfl)
  | cons c b =>
      have hc : 0 < c.toNat := by
        refine Nat.pos_of_ne_zero fun h => hb ?_
        rw [UInt8.toNat.inj (a := c) (b := 0) h]
        exact List.mem_cons_self
      have hlt := c.toNat_lt
      have hone : (c.toNat : Int).sign = 1 := Int.sign_eq_one_of_pos (by exact_mod_cast hc)
      rw [List.headD_cons, nameCmp, Int.sign_neg, hone]
      unfold schar
      split_ifs with hsmall
      · rw [hone]
        exact iff_of_false (by decide) (not_or.mpr ⟨by simp, not_le.mpr hsmall⟩)
      · rw [Int.sign_eq_neg_one_of_neg (by omega)]
        exact iff_of_true rfl (.inr (not_lt.mp hsmall))

/-- The part of `Orders` about `cmp`, with the sign in place of the operators. -/
theorem cmp_iff_sign (str1 str2 : Option (List Byte)) :
    (∃ i j, strcmp .cmp 0 str1 str2 = some i ∧ strcmp .cmp 0 str2 str1 = some j ∧ j.sign = -i.sign ∧
      Finds opMclt (str1.getD []) (str2.getD []) (i < 0) ∧ Finds opMceq (str1.getD []) (str2.getD []) (i = 0) ∧
      Finds opMcgt (str1.getD []) (str2.getD []) (0 < i)) ↔
    ∃ i j, strcmp .cmp 0 str1 str2 = some i ∧ strcmp .cmp 0 str2 str1 = some j ∧ j.sign = -i.sign ∧
      i.sign = (nameCmp (cstr (str1.getD [])) (cstr (str2.getD []))).sign := by
  simp only [finds_sign_iff]

/-- `cmp` of a string and NULL has the sign of the operators on some strings only. -/
theorem cmp_iff (h1 : 0 ∉ str1.getD []) (h2 : 0 ∉ str2.getD []) :
    (∃ i j, strcmp .cmp 0 str1 str2 = some i ∧ strcmp .cmp 0 str2 str1 = some j ∧ j.sign = -i.sign ∧
      i.sign = (nameCmp (cstr (str1.getD [])) (cstr (str2.getD []))).sign) ↔
    ∀ b, (str1 = none ∧ str2 = some b ∨ str1 = some b ∧ str2 = none) → b = [] ∨ 128 ≤ (b.headD 0).toNat := by
  rw [cstr_eq h1, cstr_eq h2]
  cases str1 with
  | none =>
      cases str2 with
      | none => exact iff_of_true ⟨0, 0, rfl, rfl, rfl, rfl⟩ (by simp)
      | some b =>
          have hb : 0 ∉ b := h2
          have hsign := schar_sign_iff hb
          rw [Option.getD_none, Option.getD_some]
          constructor
          · rintro ⟨i, j, hi, -, -, hs⟩ b' (⟨-, hb⟩ | ⟨hb, -⟩)
            · cases hb
              cases hi
              exact hsign.mp hs
            · cases hb
          · intro h
            exact ⟨_, _, rfl, rfl, Int.sign_neg _, hsign.mpr (h b (.inl ⟨rfl, rfl⟩))⟩
  | some a =>
      cases str2 with
      | none =>
          have ha : 0 ∉ a := h1
          have hsign := schar_sign_iff ha
          rw [Option.getD_none, Option.getD_some, nameCmp_swap]
          constructor
          · rintro ⟨i, j, hi, -, -, hs⟩ b' (⟨hb, -⟩ | ⟨hb, -⟩)
            · cases hb
            · cases hb
              cases hi
              rw [Int.sign_neg, Int.sign_neg] at hs
              exact hsign.mp (neg_inj.mp hs)
          · intro h
            have hs := hsign.mpr (h a (.inr ⟨rfl, rfl⟩))
            refine ⟨_, _, rfl, rfl, ?_, ?_⟩
            · rw [Int.sign_neg, neg_neg]
            · rw [Int.sign_neg, Int.sign_neg, hs]
      | some b =>
          have ha : 0 ∉ a := h1
          have hb : 0 ∉ b := h2
          refine iff_of_true ⟨_, _, rfl, rfl, ?_, ?_⟩ (by simp)
          · rw [cstr_eq ha, cstr_eq hb, nameCmp_swap a b, Int.sign_neg]
          · rw [cstr_eq ha, cstr_eq hb]
            rfl

end

/-! ### The order of `icmp` -/

section

variable {a b : List Byte} {str1 str2 : Option (List Byte)}

theorem zero_notMem_map_lower (ha : 0 ∉ a) : 0 ∉ a.map lower := by
  intro h
  obtain ⟨c, hc, hzero⟩ := List.mem_map.mp h
  exact ha ((lower_eq_zero c).mp hzero ▸ hc)

/-- `icmp` ends with the first string: it finds a difference where that is no beginning of the second. -/
theorem icmpLoop_eq (ha : 0 ∉ a) (hb : 0 ∉ b) (hne : a ≠ []) : icmpLoop (a ++ [0]) (b ++ [0]) =
    some (if a.map lower <+: b.map lower then 0 else nameCmp (a.map lower) (b.map lower)) := by
  induction a generalizing b with
  | nil => exact absurd rfl hne
  | cons c a ih =>
      have hc : lower c ≠ 0 := fun h => ha ((lower_eq_zero c).mp h ▸ List.mem_cons_self)
      have ha' : 0 ∉ a := fun h => ha (List.mem_cons_of_mem c h)
      cases b with
      | nil =>
          have hnot : ¬ (c :: a).map lower <+: ([] : List Byte).map lower := by simp
          have hzero : lower 0 = 0 := by decide
          rw [if_neg hnot, List.cons_append, List.nil_append, icmpLoop, hzero, if_pos hc, List.map_cons, List.map_nil,
            nameCmp, UInt8.toNat_zero, Int.ofNat_zero, sub_zero]
      | cons d b =>
          have hb' : 0 ∉ b := fun h => hb (List.mem_cons_of_mem d h)
          rw [List.cons_append, List.cons_append, icmpLoop]
          simp only [List.map_cons, List.cons_prefix_cons, nameCmp]
          by_cases hcd : lower c = lower d
          · rw [if_neg (not_not.mpr hcd), if_pos hcd]
            cases a with
            | nil => simp [hcd]
            | cons e a =>
                have he : e ≠ 0 := fun h => ha' (h ▸ List.mem_cons_self)
                rw [List.cons_append, List.head?_cons]
                dsimp only
                rw [if_pos he, ← List.cons_append, ih ha' hb' (List.cons_ne_nil e a)]
                simp only [hcd, true_and]
          · rw [if_pos hcd, if_neg hcd, if_neg fun h => hcd h.1]

theorem icmpLoop_nil (hb : 0 ∉ b) (hne : b ≠ []) : icmpLoop [0] (b ++ [0]) = some (nameCmp [] (b.map lower)) := by
  cases b with
  | nil => exact absurd rfl hne
  | cons d b =>
      have hd : lower 0 ≠ lower d := fun h => hb ((lower_eq_zero d).mp h.symm ▸ List.mem_cons_self)
      have hzero : lower 0 = 0 := by decide
      rw [List.cons_append, icmpLoop, if_pos hd, hzero, List.map_cons, nameCmp, UInt8.toNat_zero, Int.ofNat_zero,
        zero_sub]

/-- `icmp` of two strings that are not NULL. -/
theorem icmp_iff (ha : 0 ∉ a) (hb : 0 ∉ b) : (∃ i j, icmpLoop (a ++ [0]) (b ++ [0]) = some i ∧
      icmpLoop (b ++ [0]) (a ++ [0]) = some j ∧ j.sign = -i.sign ∧ (i = 0 ↔ SameText a b)) ↔
    (a ≠ [] ∨ b ≠ []) ∧ (a ≠ [] → a.map lower <+: b.map lower → SameText a b) ∧
      (b ≠ [] → b.map lower <+: a.map lower → SameText a b) := by
  have hzero := nameCmp_eq_zero (zero_notMem_map_lower ha) (zero_notMem_map_lower hb)
  have hswap := nameCmp_swap (a.map lower) (b.map lower)
  by_cases hane : a = []
  · subst hane
    by_cases hbne : b = []
    · subst hbne
      exact iff_of_false (fun ⟨i, j, hi, _⟩ => by cases hi) fun h => h.1.elim (absurd rfl) (absurd rfl)
    · have hnot : ¬ b.map lower <+: ([] : List Byte).map lower := by simpa using hbne
      rw [icmpLoop_eq hb ha hbne, if_neg hnot, List.nil_append, icmpLoop_nil hb hbne]
      refine iff_of_true ⟨_, _, rfl, rfl, ?_, hzero⟩ ⟨.inr hbne, fun h => absurd rfl h, fun _ h => absurd h hnot⟩
      rw [hswap, Int.sign_neg]
      rfl
  · by_cases hbne : b = []
    · subst hbne
      have hnot : ¬ a.map lower <+: ([] : List Byte).map lower := by simpa using hane
      rw [icmpLoop_eq ha hb hane, if_neg hnot, List.nil_append, icmpLoop_nil ha hane]
      refine iff_of_true ⟨_, _, rfl, rfl, ?_, hzero⟩ ⟨.inl hane, fun _ h => absurd h hnot, fun h => absurd rfl h⟩
      exact (congrArg Int.sign hswap).trans (Int.sign_neg _)
    · rw [icmpLoop_eq ha hb hane, icmpLoop_eq hb ha hbne]
      constructor
      · rintro ⟨i, j, hi, hj, hsign, hsame⟩
        cases hi
        cases hj
        refine ⟨.inl hane, ?_, ?_⟩
        · intro _ hprefix
          rw [if_pos hprefix] at hsame
          exact hsame.mp rfl
        · intro _ hprefix
          rw [if_pos hprefix, Int.sign_zero] at hsign
          exact hsame.mp (Int.sign_eq_zero_iff_zero.mp (neg_eq_zero.mp hsign.symm))
      · rintro ⟨-, hab, hba⟩
        by_cases hsame : SameText a b
        · have hpab : a.map lower <+: b.map lower := hsame ▸ List.prefix_rfl
          have hpba : b.map lower <+: a.map lower := hsame ▸ List.prefix_rfl
          rw [if_pos hpab, if_pos hpba]
          exact ⟨0, 0, rfl, rfl, rfl, iff_of_true rfl hsame⟩
        · rw [if_neg fun h => hsame (hab hane h), if_neg fun h => hsame (hba hbne h)]
          refine ⟨_, _, rfl, rfl, ?_, hzero⟩
          rw [hswap, Int.sign_neg]

/-- `icmp` of a string and NULL has the right sign. -/
theorem icmp_null (hb : 0 ∉ b) : -(schar (b.headD 0)) = 0 ↔ SameText [] b := by
  cases b with
  | nil => exact iff_of_true rfl rfl
  | cons c b =>
      have hc : c.toNat ≠ 0 := fun h => hb (UInt8.toNat.inj (a := c) (b := 0) h ▸ List.mem_cons_self)
      have hlt := c.toNat_lt
      refine iff_of_false ?_ (by simp [SameText])
      rw [List.headD_cons]
      unfold schar
      split_ifs <;> omega

/-- `cmp` and `icmp` are the order of two strings exactly where those are compared as they are. -/
theorem orders_iff (h1 : 0 ∉ str1.getD []) (h2 : 0 ∉ str2.getD []) : Orders str1 str2 ↔ Comparable str1 str2 := by
  have hcmp := (cmp_iff_sign str1 str2).trans (cmp_iff h1 h2)
  cases str1 with
  | none =>
      cases str2 with
      | none => exact iff_of_true ⟨hcmp.mpr (by simp), 0, 0, rfl, rfl, rfl, iff_of_true rfl rfl⟩ trivial
      | some b =>
          have hb : 0 ∉ b := h2
          have hnull := icmp_null hb
          constructor
          · exact fun h => hcmp.mp h.cmp b (.inl ⟨rfl, rfl⟩)
          · intro h
            refine ⟨hcmp.mpr ?_, _, _, rfl, rfl, Int.sign_neg _, neg_eq_zero.symm.trans hnull⟩
            rintro b' (⟨-, hb'⟩ | ⟨hb', -⟩)
            · cases hb'
              exact h
            · cases hb'
  | some a =>
      cases str2 with
      | none =>
          have ha : 0 ∉ a := h1
          have hnull := icmp_null ha
          constructor
          · exact fun h => hcmp.mp h.cmp a (.inr ⟨rfl, rfl⟩)
          · intro h
            refine ⟨hcmp.mpr ?_, _, _, rfl, rfl, ?_, hnull.trans eq_comm⟩
            · rintro b' (⟨hb', -⟩ | ⟨hb', -⟩)
              · cases hb'
              · cases hb'
                exact h
            · rw [Int.sign_neg, neg_neg]
      | some b =>
          have hicmp := icmp_iff (a := a) (b := b) h1 h2
          exact ⟨fun h => hicmp.mp h.icmp, fun h => ⟨hcmp.mpr (by simp), hicmp.mpr h⟩⟩

end

theorem orders_words : Orders (some (bytes "Ab")) (some (bytes "aC")) ↔
    Comparable (some (bytes "Ab")) (some (bytes "aC")) :=
  orders_iff (show 0 ∉ bytes "Ab" by decide) (show 0 ∉ bytes "aC" by decide)

/-- `icmp("ab", "abc")` is 0: the loop ends with the first string. -/
theorem not_orders_prefix : ¬ ∀ str1 str2 : Option (List Byte), 0 ∉ str1.getD [] → 0 ∉ str2.getD [] →
    Orders str1 str2 := by
  intro h
  have horder := h (some (bytes "ab")) (some (bytes "abc")) (show 0 ∉ bytes "ab" by decide)
    (show 0 ∉ bytes "abc" by decide)
  obtain ⟨i, j, hi, -, -, hsame⟩ := horder.icmp
  have hzero : strcmp .icmp 0 (some (bytes "ab")) (some (bytes "abc")) = some 0 := by decide
  cases hzero.symm.trans hi
  exact absurd (hsame.mp rfl) (by decide)

end NullG.Nsp.StrCompare
