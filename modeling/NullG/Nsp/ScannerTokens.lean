/-
The tokens of the scanner: whatever the text, `n_decompose_sub` makes valid tokens only.

Each scanning function either leaves the token table as it is (the `_code` lemmas) or
adds line markers; `decomposeIter_sound` is the step and `nDecomposeSub_sound` the run.
-/

import NullG.Nsp.Stream

namespace NullG.Nsp

open NullG.Lib

/-! ### Text and numbers -/

section Scanner

variable {N : Scanner} {s s' : Lex}

theorem nWarn_code (h : nWarn N s = .ok s') : s'.code = s.code := by
  unfold nWarn at h
  split at h
  · split at h
    · cases h
    · cases h
      rfl
  · cases h
    rfl

theorem quoteFoot_code (h : quoteFoot N s = .ok s') : s'.code = s.code := by
  obtain ⟨b, -, h⟩ := bind_eq_ok.mp h
  split at h
  · unfold nError at h
    split at h
    · cases h
    · have code := nWarn_code h
      exact code
  · cases h
    rfl

theorem nSkipquote_code {c : Byte} {verbatim : Bool} {fuel : Nat}
    (h : nSkipquote N c verbatim fuel s = .ok s') : s'.code = s.code := by
  induction fuel generalizing s with
  | zero => cases h
  | succ fuel ih =>
      obtain ⟨b, -, h⟩ := bind_eq_ok.mp h
      split at h
      · cases h
        rfl
      · split at h
        · obtain ⟨s₁, h₁, h⟩ := bind_eq_ok.mp h
          have code := quoteFoot_code h₁
          exact (ih h).trans code
        · split at h
          · cases h
            rfl
          · split at h
            · obtain ⟨s₁, h₁, h⟩ := bind_eq_ok.mp h
              have code := quoteFoot_code h₁
              exact (ih h).trans code
            · obtain ⟨s₁, h₁, h⟩ := bind_eq_ok.mp h
              have code := quoteFoot_code h₁
              exact (ih h).trans code

theorem nUnescape_code {src dst : List Byte} {len : Nat} {e : Bool}
    (h : nUnescape N src len e s = .ok (dst, s')) : s'.code = s.code := by
  induction src generalizing len e s dst with
  | nil =>
      cases len with
      | zero =>
          simp only [nUnescape] at h
          cases h
          rfl
      | succ len =>
          simp only [nUnescape] at h
          cases h
  | cons c src ih =>
      cases len with
      | zero =>
          simp only [nUnescape] at h
          cases h
          rfl
      | succ len =>
          cases e with
          | false =>
              simp only [nUnescape] at h
              split at h
              · exact ih h
              · obtain ⟨⟨dst', s₁⟩, h₁, h⟩ := bind_eq_ok.mp h
                cases h
                exact ih h₁
          | true =>
              simp only [nUnescape] at h
              split at h
              · obtain ⟨⟨dst', s₁⟩, h₁, h⟩ := bind_eq_ok.mp h
                cases h
                exact ih h₁
              · obtain ⟨s₁, h₁, h⟩ := bind_eq_ok.mp h
                exact (ih h).trans (nWarn_code h₁)

theorem nExtractquote_code {verbatim : Bool} {text : List Byte}
    (h : nExtractquote N verbatim s = .ok (text, s')) : s'.code = s.code := by
  obtain ⟨q, -, h⟩ := bind_eq_ok.mp h
  obtain ⟨s₁, h₁, h⟩ := bind_eq_ok.mp h
  have code := nSkipquote_code h₁
  split at h
  · cases h
    exact code
  · exact (nUnescape_code h).trans code

/-- Every token of the table is valid. -/
def Lex.Sound (s : Lex) : Prop := ∀ t ∈ s.code, t.Valid

theorem Lex.Sound.newobj (h : s.Sound) {t : Tok} (ht : t.Valid) : (s.newobj t).Sound := by
  intro t' ht'
  rcases List.mem_append.mp ht' with ht' | ht'
  · exact h t' ht'
  · rw [List.mem_singleton.mp ht']
    exact ht

theorem Lex.Sound.of_code (h : s.Sound) (heq : s'.code = s.code) : s'.Sound := by
  intro t ht
  rw [heq] at ht
  exact h t ht

theorem Lex.Sound.newline (h : s.Sound) : s.newline.Sound := by
  unfold Lex.newline
  split
  · exact Lex.Sound.newobj h (.line _)
  · exact h

theorem skipOpen_code (h : skipOpen s = .ok s') : s'.code = s.code := by
  unfold skipOpen at h
  split at h
  · cases h
  · split at h
    · obtain ⟨p, -, h⟩ := bind_eq_ok.mp h
      cases h
      rfl
    · split at h
      · obtain ⟨c, -, h⟩ := bind_eq_ok.mp h
        split at h
        · obtain ⟨p, -, h⟩ := bind_eq_ok.mp h
          cases h
          rfl
        · split at h
          · obtain ⟨⟨p, n⟩, -, h⟩ := bind_eq_ok.mp h
            cases h
            rfl
          · cases h
            rfl
      · cases h
        rfl

theorem nSkipblank_sound (hs : s.Sound) (h : nSkipblank s = .ok s') : s'.Sound := by
  have go : ∀ {fuel : Nat} {s : Lex}, s.Sound → skipblankLoop fuel s = .ok s' → s'.Sound := by
    intro fuel
    induction fuel with
    | zero => intro s _ h; cases h
    | succ fuel ih =>
        intro s hs h
        obtain ⟨b, -, h⟩ := bind_eq_ok.mp h
        split at h
        · cases h
          exact hs
        · obtain ⟨s₁, h₁, h⟩ := bind_eq_ok.mp h
          have hs₁ : s₁.newline.Sound := (hs.of_code (skipOpen_code h₁)).newline
          obtain ⟨b', -, h⟩ := bind_eq_ok.mp h
          split at h
          · exact ih (s := { s₁.newline with rest := s₁.newline.rest.tail }) hs₁ h
          · cases h
            exact hs₁
  exact go hs h

theorem labelTail_length {room : Nat} {p name p' : List Byte}
    (h : labelTail room p = .ok (name, p')) : name.length ≤ room := by
  induction room generalizing p name with
  | zero =>
      cases h
      exact Nat.zero_le _
  | succ room ih =>
      cases p with
      | nil => cases h
      | cons c p =>
          simp only [labelTail] at h
          split at h
          · obtain ⟨⟨name', p''⟩, h₁, h⟩ := bind_eq_ok.mp h
            cases h
            exact Nat.succ_le_succ (ih h₁)
          · cases h
            exact Nat.zero_le _

theorem mathName_length {p name p' : List Byte} (h : mathName p = .ok (name, p')) :
    name.length ≤ 3 := by
  cases p with
  | nil => cases h
  | cons c p =>
      obtain ⟨d, -, h⟩ := bind_eq_ok.mp h
      split at h
      · split at h
        · split at h
          · obtain ⟨e, -, h⟩ := bind_eq_ok.mp h
            split at h <;> cases h <;> simp only [List.length_cons, List.length_nil] <;> omega
          · cases h
            exact (by decide : 1 ≤ 3)
        · cases h
          exact (by decide : 2 ≤ 3)
      · cases h
        exact (by decide : 1 ≤ 3)

theorem nGetop_length {p name p' : List Byte} {op : Byte} (h : nGetop p = .ok (op, name, p')) :
    name.length ≤ maxObjnamelen := by
  unfold nGetop at h
  split at h
  · cases h
  · split at h
    · cases h
      exact Nat.zero_le _
    · split at h
      · -- data leaves no name
        have none : name = [] := by
          split at h
          · cases h
            rfl
          · split at h
            · cases h
              rfl
            · split at h
              · obtain ⟨d, -, h⟩ := bind_eq_ok.mp h
                split at h
                · cases h
                  rfl
                · split at h <;> cases h <;> rfl
              · cases h
                rfl
        rw [none]
        exact Nat.zero_le _
      · split at h
        · obtain ⟨⟨tail, p''⟩, h₁, h⟩ := bind_eq_ok.mp h
          cases h
          exact Nat.succ_le_succ (labelTail_length h₁)
        · split at h
          · cases h
            exact (by decide : 1 ≤ 64)
          · split at h
            · obtain ⟨⟨name', p''⟩, h₁, h⟩ := bind_eq_ok.mp h
              cases h
              exact Nat.le_trans (mathName_length h₁) (by decide)
            · cases h
              exact Nat.zero_le _

theorem numberText_bytes {p text p' : List Byte} (h : numberText p = .ok (text, p')) :
    ∀ c ∈ text, NumByte c := by
  induction p generalizing text with
  | nil => cases h
  | cons c p ih =>
      simp only [numberText] at h
      split at h
      · rename_i hc
        obtain ⟨⟨text', p''⟩, h₁, h⟩ := bind_eq_ok.mp h
        cases h
        intro d hd
        rcases List.mem_cons.mp hd with rfl | hd
        · simpa [NumByte, Bool.or_eq_true] using hc
        · exact ih h₁ d hd
      · cases h
        intro d hd
        cases hd

/-- One pass of the loop adds valid tokens only. -/
theorem decomposeIter_sound {prevop : Byte} (hs : s.Sound) {i : Iter}
    (h : decomposeIter N prevop s = .ok i) :
    match i with
    | .stop s' => s'.Sound
    | .next _ s' => s'.Sound := by
  obtain ⟨⟨op, name, s₁⟩, hhead, h⟩ := bind_eq_ok.mp h
  obtain ⟨s₂, h₂, hhead⟩ := bind_eq_ok.mp hhead
  obtain ⟨⟨op', name', rest⟩, hgetop, hhead⟩ := bind_eq_ok.mp hhead
  obtain ⟨s₃, h₃, hhead⟩ := bind_eq_ok.mp hhead
  cases hhead
  have hname : name.length ≤ 255 := Nat.le_trans (nGetop_length hgetop) (by decide)
  have hs₂ : s₂.Sound := nSkipblank_sound hs h₂
  have hs₁ : s₁.Sound := nSkipblank_sound (s := { s₂ with rest := rest }) hs₂ h₃
  simp only [decomposeBody] at h
  split at h
  · obtain ⟨s₄, h₄, h⟩ := bind_eq_ok.mp h
    cases h
    exact hs₁.of_code (nWarn_code h₄)
  · split at h
    · cases h
      exact hs₁.newobj (.label hname)
    · split at h
      · rename_i hop
        split at h
        · split at h
          · cases h
            exact hs₁.newobj (.label hname)
          · cases h
            exact hs₁
        · cases h
          exact hs₁.newobj (.sym _ hop)
      · split at h
        · rename_i verbatim _
          obtain ⟨q, -, h⟩ := bind_eq_ok.mp h
          obtain ⟨⟨text, s₄⟩, h₄, h⟩ := bind_eq_ok.mp h
          cases h
          have hcode := nExtractquote_code h₄
          have hq : quoteOp q = opStrdata ∨ quoteOp q = opEstrdata := by
            unfold quoteOp
            split
            · exact .inr rfl
            · exact .inl rfl
          refine (hs₁.of_code (hcode.trans ?_)).newobj (.str text hq)
          split <;> rfl
        · obtain ⟨b, -, h⟩ := bind_eq_ok.mp h
          split at h
          · obtain ⟨⟨text, rest'⟩, h₄, h⟩ := bind_eq_ok.mp h
            cases h
            exact Lex.Sound.newobj (s := { s₁ with rest := rest' }) hs₁ (.num (numberText_bytes h₄))
          · cases h
            exact hs₁

/-- The scanner makes valid tokens only. -/
theorem nDecomposeSub_sound (hs : s.Sound) (h : nDecomposeSub N s = .ok s') : s'.Sound := by
  have go : ∀ {fuel : Nat} {prevop : Byte} {s : Lex}, s.Sound →
      decomposeLoop N fuel prevop s = .ok s' → s'.Sound := by
    intro fuel
    induction fuel with
    | zero => intro prevop s _ h; cases h
    | succ fuel ih =>
        intro prevop s hs h
        obtain ⟨b, -, h⟩ := bind_eq_ok.mp h
        split at h
        · cases h
          exact hs
        · obtain ⟨i, hi, h⟩ := bind_eq_ok.mp h
          have hi' := decomposeIter_sound hs hi
          cases i with
          | stop s₁ =>
              cases h
              exact hi'
          | next p s₁ => exact ih hi' h
  exact go hs h

end Scanner

end NullG.Nsp
