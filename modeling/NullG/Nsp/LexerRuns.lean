/-
Whole runs of the scanner (`n_decompose_sub`) on a NUL-terminated text.

* `decomposeIter_spec`: what one pass of the loop can do. It leaves the text only in a
  literal with a `Defect`: one that opens at the end of the text, or one in which the
  text ends between a backslash and the byte it escapes.
* `decomposeLoop_fuel`, `decomposeLoop_pass`: the loop ends, whatever the text.
* `staysInside_iff`: the scanner stays in its text and reports every literal that is
  not closed exactly when it comes to no literal with a defect.
-/

import NullG.Nsp.LexerBounds
import Mathlib.Logic.Relation

namespace NullG.Nsp

/-! ### Literals -/

/-- The two ends of the text that `n_skipquote` does not see: right after the opening
quote, and between a backslash and the byte it escapes. -/
def Defect (q : Byte) (verbatim : Bool) (qs : List Byte) : Prop :=
  qs = [0] ∨ Dangling q verbatim qs

theorem isQuote_ne {q : Byte} (h : isQuote q = true) : q ≠ 0 ∧ q ≠ ch '\\' := by
  constructor <;> (rintro rfl; exact absurd h (by decide))

section Extract

variable {N : Scanner} {q : Byte} {verbatim : Bool} {s : Lex} {qs : List Byte}

/-- The last steps of `n_extractquote`, once `n_skipquote` has left `readptr` at `r`. -/
theorem nExtractquote_after {s' : Lex} {r : List Byte} (hs : s.rest = q :: qs)
    (eq : nSkipquote N q verbatim (qs.length + 1) { s with rest := qs } = .ok s')
    (hr : s'.rest = r) (hlen : r.length < qs.length) :
    nExtractquote N verbatim s = .error (.raised .tooManyWarnings) ∨
      ∃ text s'', nExtractquote N verbatim s = .ok (text, s'') ∧ s''.rest = r := by
  simp only [nExtractquote, hs, deref, bind, Except.bind, List.tail_cons, eq]
  cases verbatim with
  | true => exact .inr ⟨_, s', rfl, hr⟩
  | false =>
      have hle : (quoteLen qs s'.rest % 2 ^ 64).toNat ≤ qs.length := by
        have h0 : 0 ≤ quoteLen qs s'.rest := by rw [quoteLen, hr]; omega
        have h1 : quoteLen qs s'.rest ≤ qs.length := by rw [quoteLen]; omega
        omega
      rcases nUnescape_spec N hle false s' with eq' | ⟨dst, s'', eq', hrest⟩
      · exact .inl (by simpa using eq')
      · exact .inr ⟨dst, s'', by simpa using eq', hrest.trans hr⟩

/-- A literal without a defect is read, or the scan ends in an error. -/
theorem nExtractquote_spec (hq : isQuote q = true) (hs : s.rest = q :: qs) (h : Terminated qs)
    (hdef : ¬ Defect q verbatim qs) :
    (∃ e, nExtractquote N verbatim s = .error (.raised e)) ∨
      ∃ text s', nExtractquote N verbatim s = .ok (text, s') ∧ Terminated s'.rest ∧
        s'.rest.length < s.rest.length := by
  obtain ⟨hq0, hqb⟩ := isQuote_ne hq
  simp only [Defect, not_or] at hdef
  have shorter : ∀ {r : List Byte}, r.length < qs.length → r.length < s.rest.length := by
    intro r hr
    rw [hs, List.length_cons]
    omega
  rcases literal_trichotomy verbatim hqb h with ⟨r, hr, term⟩ | hm | hd
  · obtain ⟨n, eq⟩ := nSkipquote_closes (N := N) hr hq0 hqb
      (s := { s with rest := qs }) rfl (Nat.lt_add_one _)
    rcases nExtractquote_after hs eq rfl hr.length_lt with eq' | ⟨text, s', eq', hrest⟩
    · exact .inl ⟨_, eq'⟩
    · exact .inr ⟨text, s', eq', hrest ▸ term, shorter (hrest ▸ hr.length_lt)⟩
  · have hrep := nSkipquote_missing (N := N) hm hdef.1 (s := { s with rest := qs })
      rfl (Nat.lt_add_one _)
    have hlen : [(0 : Byte)].length < qs.length := hm.length_gt hdef.1
    cases eq : nSkipquote N q verbatim (qs.length + 1) { s with rest := qs } with
    | error f =>
        rw [eq] at hrep
        obtain ⟨-, rfl⟩ := hrep
        refine .inl ⟨.unterminatedString, ?_⟩
        simp only [nExtractquote, hs, deref, bind, Except.bind, List.tail_cons, eq]
    | ok s' =>
        rw [eq] at hrep
        rcases nExtractquote_after hs eq hrep.2.2 hlen with eq' | ⟨text, s'', eq', hrest⟩
        · exact .inl ⟨_, eq'⟩
        · exact .inr ⟨text, s'', eq', by rw [hrest]; simp [Terminated], shorter (by rw [hrest]; exact hlen)⟩
  · exact absurd hd hdef.2

/-- A literal in which the text ends after a backslash is read past the end. -/
theorem nExtractquote_dangling (hs : s.rest = q :: qs) (h : Dangling q verbatim qs) :
    nExtractquote N verbatim s = .error .outOfBounds := by
  have eq := nSkipquote_dangling (N := N) h (s := { s with rest := qs }) rfl (Nat.lt_add_one _)
  simp only [nExtractquote, hs, deref, bind, Except.bind, List.tail_cons, eq]

/-- A literal that opens at the end of the text: its length is `-1`, which a verbatim
literal takes for zero, while the other kind is read past the end. -/
theorem nExtractquote_open (hs : s.rest = [q, 0]) :
    nExtractquote N verbatim s =
      if verbatim then .ok ([], { s with rest := [0] }) else .error .outOfBounds := by
  have eq : nSkipquote N q verbatim ([(0 : Byte)].length + 1) { s with rest := [0] } =
      .ok { s with rest := [0] } := by
    simp only [nSkipquote, deref, bind, Except.bind, if_true]
    rfl
  simp only [nExtractquote, hs, deref, bind, Except.bind, List.tail_cons, eq]
  cases verbatim with
  | true => rfl
  | false =>
      have hlen : (quoteLen [(0 : Byte)] [0] % 2 ^ 64).toNat = 18446744073709551614 + 1 := by decide
      have h0 : (0 : Byte) ≠ ch '\\' := by decide
      simp only [hlen, nUnescape, if_neg h0, bind, Except.bind, Bool.false_eq_true, if_false]

end Extract

/-! ### One pass of the loop -/

/-- Pass `s` comes to the literal with the quote `q` and the text `qs`, in state `s₁`. -/
def ComesTo (s : Lex) (q : Byte) (verbatim : Bool) (qs : List Byte) (s₁ : Lex) : Prop :=
  ∃ op name, decomposeHead s = .ok (op, name, s₁) ∧ op ≠ opUndefined ∧ op ≠ opLabel ∧
    (opIsmath op || opIskey op || opIspunc op) = false ∧ literalAt s₁.rest = some verbatim ∧
    (if verbatim then s₁.rest.tail else s₁.rest) = q :: qs

/-- What stands before the branches: `readptr` has moved on, unless it stands on a literal
or the op is undefined. -/
theorem decomposeHead_spec {s : Lex} (h : Terminated s.rest) :
    ∃ op name s₁, decomposeHead s = .ok (op, name, s₁) ∧ Terminated s₁.rest ∧
      s₁.rest.length ≤ s.rest.length ∧
      (s₁.rest.length < s.rest.length ∨ op = opUndefined ∨
        (IsLiteralOp op ∧ (literalAt s₁.rest = none → ∃ c t, s₁.rest = c :: t ∧ ncIsdigit c = true))) := by
  obtain ⟨sa, eqa, terma, suffa, -, -⟩ := nSkipblank_spec h
  obtain ⟨op, name, p, eqg, termg, suffg, progress⟩ := nGetop_spec terma
  obtain ⟨sb, eqb, termb, suffb, -, -⟩ := @nSkipblank_spec { sa with rest := p } termg
  have head_eq : decomposeHead s = .ok (op, name, sb) := by
    simp only [decomposeHead, eqa, eqg, eqb, bind, Except.bind]
    rfl
  have lena := suffa.length_le
  have leng := suffg.length_le
  have lenb : sb.rest.length ≤ p.length := suffb.length_le
  refine ⟨op, name, sb, head_eq, termb, by omega, ?_⟩
  rcases progress with hlt | hund | ⟨hp, hop, hdata, hlit⟩
  · exact .inl (by omega)
  · exact .inr (.inl hund)
  · -- on a literal the second `n_skipblank` does not move
    subst hp
    obtain ⟨c, t, hct⟩ := List.exists_cons_of_ne_nil terma.ne_nil
    have solid : Solid ({ sa with rest := sa.rest } : Lex).rest := by
      show Solid sa.rest
      simp only [hct, List.head_cons] at hdata
      rw [hct]
      exact Solid.of_data hdata
    rw [nSkipblank_solid solid, Except.ok.injEq] at eqb
    subst eqb
    refine .inr (.inr ⟨hop, fun hnone => ⟨c, t, hct, ?_⟩⟩)
    have := hlit hnone
    simpa only [hct, List.head_cons] using this

theorem IsLiteralOp.no_branch {op : Byte} (h : IsLiteralOp op) :
    op ≠ opUndefined ∧ op ≠ opLabel ∧ (opIsmath op || opIskey op || opIspunc op) = false := by
  rcases h with rfl | rfl | rfl <;> decide

/-- Where a literal is found there is a quote. -/
theorem literalAt_some {p : List Byte} {verbatim : Bool} (h : literalAt p = some verbatim) :
    ∃ q qs, (if verbatim then p.tail else p) = q :: qs ∧ isQuote q = true ∧
      (verbatim = true → p = ch '@' :: q :: qs) := by
  cases p with
  | nil => simp [literalAt] at h
  | cons c t =>
      by_cases hc : isQuote c = true
      · obtain rfl : verbatim = false := by simpa [literalAt, hc] using h.symm
        exact ⟨c, t, rfl, hc, by simp⟩
      · by_cases hat : c = ch '@' ∧ (t.head?.any isQuote) = true
        · obtain ⟨rfl, hq⟩ := hat
          obtain rfl : verbatim = true := by simpa [literalAt, hc, hq] using h.symm
          cases t with
          | nil => simp at hq
          | cons q qs => exact ⟨q, qs, rfl, by simpa using hq, fun _ => rfl⟩
        · simp [literalAt, hc, hat] at h

theorem literalAt_tail_terminated {p : List Byte} {q : Byte} {verbatim : Bool} {qs : List Byte}
    (hlit : literalAt p = some verbatim) (hqs : (if verbatim then p.tail else p) = q :: qs)
    (h : Terminated p) : isQuote q = true ∧ Terminated qs ∧ qs.length < p.length := by
  obtain ⟨q', qs', heq, hquote, hat⟩ := literalAt_some hlit
  obtain ⟨rfl, rfl⟩ : q = q' ∧ qs = qs' := by simpa using hqs.symm.trans heq
  have hq0 := (isQuote_ne hquote).1
  cases verbatim with
  | false =>
      simp only [Bool.false_eq_true, if_false] at hqs
      rw [hqs] at h ⊢
      exact ⟨hquote, (terminated_cons hq0).mp h, by simp⟩
  | true =>
      have hp := hat rfl
      rw [hp] at h ⊢
      have h1 := (terminated_cons (show ch '@' ≠ 0 by decide)).mp h
      exact ⟨hquote, (terminated_cons hq0).mp h1, by simp only [List.length_cons]; omega⟩

/-- One pass of the loop: it raises an error, ends the scan, moves on in the text, or leaves
the text in a literal with a defect. -/
theorem decomposeIter_spec (N : Scanner) (prevop : Byte) {s : Lex} (h : Terminated s.rest) :
    (∃ e, decomposeIter N prevop s = .error (.raised e)) ∨
    (∃ s', decomposeIter N prevop s = .ok (.stop s')) ∨
    (∃ p s', decomposeIter N prevop s = .ok (.next p s') ∧ Terminated s'.rest ∧
      s'.rest.length < s.rest.length) ∨
    (decomposeIter N prevop s = .error .outOfBounds ∧
      ∃ q v qs s₁, ComesTo s q v qs s₁ ∧ Defect q v qs) := by
  obtain ⟨op, name, s₁, hhead, term, hle, progress⟩ := decomposeHead_spec h
  have iter_eq : decomposeIter N prevop s = decomposeBody N prevop op name s₁ := by
    simp only [decomposeIter, hhead, bind, Except.bind]
  rw [iter_eq]
  unfold decomposeBody
  by_cases hund : op = opUndefined
  · simp only [if_pos hund]
    rcases nWarn_spec N s₁ with eq | ⟨s', eq, -⟩
    · exact .inl ⟨_, by simp only [eq, bind, Except.bind]; rfl⟩
    · exact .inr (.inl ⟨s', by simp only [eq, bind, Except.bind]; rfl⟩)
  simp only [if_neg hund]
  -- an op that is no literal has been consumed by `n_getop`
  have moved : ¬ IsLiteralOp op → s₁.rest.length < s.rest.length := fun hop => by
    rcases progress with hlt | hund' | ⟨hop', -⟩
    · exact hlt
    · exact absurd hund' hund
    · exact absurd hop' hop
  by_cases hlab : op = opLabel
  · simp only [if_pos hlab]
    have hop : ¬ IsLiteralOp op := fun hop => hop.no_branch.2.1 hlab
    exact .inr (.inr (.inl ⟨_, _, rfl, term, moved hop⟩))
  simp only [if_neg hlab]
  by_cases hop : (opIsmath op || opIskey op || opIspunc op) = true
  · simp only [if_pos hop]
    have hlt := moved fun hop' => by simp [hop'.no_branch.2.2] at hop
    by_cases hdot : (opIskey op && prevop == opPdot) = true
    · simp only [if_pos hdot]
      cases findop keywords name with
      | some _ => exact .inr (.inr (.inl ⟨_, _, rfl, term, hlt⟩))
      | none => exact .inr (.inr (.inl ⟨_, _, rfl, term, hlt⟩))
    · simp only [if_neg hdot]
      exact .inr (.inr (.inl ⟨_, _, rfl, term, hlt⟩))
  simp only [if_neg hop]
  cases hlit : literalAt s₁.rest with
  | some verbatim =>
      obtain ⟨q, qs, hqs, -, -⟩ := literalAt_some hlit
      obtain ⟨hq, hterm, hlen⟩ := literalAt_tail_terminated hlit hqs term
      have comes : ComesTo s q verbatim qs s₁ :=
        ⟨op, name, hhead, hund, hlab, by simpa using hop, hlit, hqs⟩
      -- `s₂` is the state in which `n_extractquote` is called
      obtain ⟨s₂, hs₂, hrest₂⟩ : ∃ s₂ : Lex,
          (if verbatim then { s₁ with rest := s₁.rest.tail } else s₁) = s₂ ∧ s₂.rest = q :: qs := by
        refine ⟨_, rfl, ?_⟩
        cases verbatim <;> exact hqs
      simp only [hs₂, hrest₂, deref, bind, Except.bind]
      by_cases hdef : Defect q verbatim qs
      · rcases hdef with rfl | hd
        · rw [nExtractquote_open hrest₂]
          cases verbatim with
          | false => exact .inr (.inr (.inr ⟨rfl, q, false, [0], s₁, comes, .inl rfl⟩))
          | true =>
              refine .inr (.inr (.inl ⟨q, _, rfl, by simp [Lex.newobj, Terminated], ?_⟩))
              simp only [Lex.newobj, List.length_singleton]
              simp only [List.length_singleton] at hlen
              omega
        · rw [nExtractquote_dangling hrest₂ hd]
          exact .inr (.inr (.inr ⟨rfl, q, verbatim, qs, s₁, comes, .inr hd⟩))
      · rcases nExtractquote_spec (N := N) hq hrest₂ hterm hdef with ⟨e, eq⟩ | ⟨text, s', eq, term', hlt⟩
        · exact .inl ⟨e, by simp only [eq]⟩
        · refine .inr (.inr (.inl ⟨q, s'.newobj (.op (quoteOp q) text), by simp only [eq]; rfl,
            term', ?_⟩))
          rw [hrest₂, List.length_cons] at hlt
          simp only [Lex.newobj]
          omega
  | none =>
      obtain ⟨c, t, hct⟩ := List.exists_cons_of_ne_nil term.ne_nil
      simp only [hct, deref, bind, Except.bind]
      by_cases hdigit : ncIsdigit c = true
      · simp only [if_pos hdigit]
        obtain ⟨text, p', eq, term', -, hshort⟩ := numberText_spec term
        simp only [hct] at eq hshort
        have hlt := hshort hdigit
        simp only [eq]
        refine .inr (.inr (.inl ⟨_, _, rfl, term', ?_⟩))
        simp only [Lex.newobj]
        rw [hct] at hle
        omega
      · simp only [if_neg hdigit]
        refine .inr (.inr (.inl ⟨_, _, rfl, term, ?_⟩))
        rcases progress with hlt | hund' | ⟨-, hnum⟩
        · exact hlt
        · exact absurd hund' hund
        · obtain ⟨c', t', hct', hd⟩ := hnum hlit
          rw [hct, List.cons.injEq] at hct'
          exact absurd (hct'.1 ▸ hd) hdigit

/-! ### Runs -/

/-- One pass of the loop that goes on. -/
def Pass (N : Scanner) (a b : Byte × Lex) : Prop :=
  (∃ c t, a.2.rest = c :: t ∧ c ≠ 0) ∧ decomposeIter N a.1 a.2 = .ok (.next b.1 b.2)

/-- The states at the head of the loop that a scan from `s` reaches, with their `prevop`. -/
def Reaches (N : Scanner) (s : Lex) (b : Byte × Lex) : Prop :=
  Relation.ReflTransGen (Pass N) (0, s) b

theorem Pass.terminated {N : Scanner} {a b : Byte × Lex} (hp : Pass N a b)
    (h : Terminated a.2.rest) : Terminated b.2.rest ∧ b.2.rest.length < a.2.rest.length := by
  rcases decomposeIter_spec N a.1 h with ⟨e, eq⟩ | ⟨s', eq⟩ | ⟨p, s', eq, term, hlt⟩ | ⟨eq, -⟩
  · simp [hp.2] at eq
  · simp [hp.2] at eq
  · simp only [hp.2, Except.ok.injEq, Iter.next.injEq] at eq
    obtain ⟨-, rfl⟩ := eq
    exact ⟨term, hlt⟩
  · simp [hp.2] at eq

/-- The loop needs no more rounds than the text has bytes. -/
theorem decomposeLoop_fuel (N : Scanner) {fuel fuel' : Nat} {prevop : Byte} {s : Lex}
    (h : Terminated s.rest) (hf : s.rest.length < fuel) (hf' : s.rest.length < fuel') :
    decomposeLoop N fuel prevop s = decomposeLoop N fuel' prevop s := by
  induction fuel generalizing fuel' prevop s with
  | zero => omega
  | succ fuel ih =>
      obtain ⟨fuel', rfl⟩ : ∃ k, fuel' = k + 1 := ⟨fuel' - 1, by omega⟩
      simp only [decomposeLoop]
      obtain ⟨c, t, hct⟩ := List.exists_cons_of_ne_nil h.ne_nil
      by_cases hc : c = 0
      · simp only [hct, hc, deref, bind, Except.bind, if_true]
      · simp only [hct, deref, bind, Except.bind, if_neg hc]
        rcases decomposeIter_spec N prevop h with ⟨e, eq⟩ | ⟨s', eq⟩ | ⟨p, s', eq, term, hlt⟩ | ⟨eq, -⟩
        · simp only [eq]
        · simp only [eq]
        · simp only [eq]
          exact ih term (by omega) (by omega)
        · simp only [eq]

/-- A pass that goes on hands the rest of the run to the next one. -/
theorem decomposeLoop_pass {N : Scanner} {prevop p : Byte} {s s' : Lex}
    (hp : Pass N (prevop, s) (p, s')) (h : Terminated s.rest) :
    decomposeLoop N (s.rest.length + 1) prevop s = decomposeLoop N (s'.rest.length + 1) p s' := by
  obtain ⟨⟨c, t, hct, hc⟩, eq⟩ := hp
  obtain ⟨term, hlt⟩ := Pass.terminated ⟨⟨c, t, hct, hc⟩, eq⟩ h
  simp only at hct eq term hlt
  rw [decomposeLoop]
  simp only [hct, deref, bind, Except.bind, if_neg hc, eq]
  rw [hct] at hlt
  exact decomposeLoop_fuel N term hlt (Nat.lt_succ_self _)

/-- The scan from a state it reaches is the rest of the scan. -/
theorem Reaches.loop {N : Scanner} {s : Lex} {b : Byte × Lex} (hr : Reaches N s b)
    (h : Terminated s.rest) :
    Terminated b.2.rest ∧ nDecomposeSub N s = decomposeLoop N (b.2.rest.length + 1) b.1 b.2 := by
  induction hr with
  | refl => exact ⟨h, rfl⟩
  | tail _ hp ih => exact ⟨(hp.terminated ih.1).1, ih.2.trans (decomposeLoop_pass hp ih.1)⟩

/-- Some pass of the scan of `s` comes to the literal `q qs`. -/
def Meets (N : Scanner) (s : Lex) (q : Byte) (verbatim : Bool) (qs : List Byte) (s₁ : Lex) : Prop :=
  ∃ b, Reaches N s b ∧ (∃ c t, b.2.rest = c :: t ∧ c ≠ 0) ∧ ComesTo b.2 q verbatim qs s₁

/-- The scan of a literal calls `n_error`: it raises, or it returns with the error noted. -/
def CallsError (N : Scanner) (q : Byte) (verbatim : Bool) (qs : List Byte) (s₁ : Lex) : Prop :=
  match nSkipquote N q verbatim (qs.length + 1) { s₁ with rest := qs, err := false } with
  | .ok s => s.err = true
  | .error (.raised _) => True
  | .error _ => False

/-- The scanner stays inside its text: it ends, or leaves through `n_error`, without a read
beyond the NUL; every literal without a closing quote is reported; and no literal it comes to
has a negative length. -/
structure StaysInside (N : Scanner) (s : Lex) : Prop where
  returns : (∃ s', nDecomposeSub N s = .ok s') ∨ ∃ e, nDecomposeSub N s = .error (.raised e)
  reported : ∀ {q v qs s₁}, Meets N s q v qs s₁ → (¬ ∃ r, Closes q v qs r) → CallsError N q v qs s₁
  length_nonneg : ∀ {q v qs s₁ s'}, Meets N s q v qs s₁ →
    nSkipquote N q v (qs.length + 1) { s₁ with rest := qs } = .ok s' → 0 ≤ quoteLen qs s'.rest

/-- If no literal the scan comes to has a defect, the loop ends. -/
theorem decomposeLoop_returns {N : Scanner} {s : Lex} {prevop : Byte} (h : Terminated s.rest)
    (hgood : ∀ {b q v qs s₁}, Relation.ReflTransGen (Pass N) (prevop, s) b →
      (∃ c t, b.2.rest = c :: t ∧ c ≠ 0) → ComesTo b.2 q v qs s₁ → ¬ Defect q v qs) {fuel : Nat}
    (hf : s.rest.length < fuel) :
    (∃ s', decomposeLoop N fuel prevop s = .ok s') ∨
      ∃ e, decomposeLoop N fuel prevop s = .error (.raised e) := by
  induction fuel generalizing prevop s with
  | zero => omega
  | succ fuel ih =>
      rw [decomposeLoop]
      obtain ⟨c, t, hct⟩ := List.exists_cons_of_ne_nil h.ne_nil
      by_cases hc : c = 0
      · exact .inl ⟨s, by simp only [hct, hc, deref, bind, Except.bind, if_true]; rfl⟩
      · simp only [hct, deref, bind, Except.bind, if_neg hc]
        rcases decomposeIter_spec N prevop h with
          ⟨e, eq⟩ | ⟨s', eq⟩ | ⟨p, s', eq, term, hlt⟩ | ⟨-, q, v, qs, s₁, comes, hdef⟩
        · exact .inr ⟨e, by simp only [eq]⟩
        · exact .inl ⟨s', by simp only [eq]; rfl⟩
        · simp only [eq]
          refine ih term (fun hr => hgood (.head ⟨⟨c, t, hct, hc⟩, eq⟩ hr)) (by omega)
        · exact absurd hdef (hgood .refl ⟨c, t, hct, hc⟩ comes)

theorem ComesTo.literal {s s₁ : Lex} {q : Byte} {v : Bool} {qs : List Byte}
    (hc : ComesTo s q v qs s₁) (h : Terminated s.rest) :
    isQuote q = true ∧ Terminated qs := by
  obtain ⟨op, name, hhead, -, -, -, hlit, hqs⟩ := hc
  obtain ⟨op', name', s', hhead', term, -, -⟩ := decomposeHead_spec h
  rw [hhead, Except.ok.injEq, Prod.mk.injEq, Prod.mk.injEq] at hhead'
  obtain ⟨-, -, rfl⟩ := hhead'
  obtain ⟨hq, hterm, -⟩ := literalAt_tail_terminated hlit hqs term
  exact ⟨hq, hterm⟩

/-- A pass that comes to a literal in which the text ends after a backslash reads past the
end of the text. -/
theorem decomposeIter_dangling {N : Scanner} {prevop : Byte} {s s₁ : Lex} {q : Byte} {v : Bool}
    {qs : List Byte} (hc : ComesTo s q v qs s₁) (hd : Dangling q v qs) :
    decomposeIter N prevop s = .error .outOfBounds := by
  obtain ⟨op, name, hhead, hund, hlab, hop, hlit, hqs⟩ := hc
  simp only [decomposeIter, hhead, bind, Except.bind, decomposeBody, if_neg hund, if_neg hlab, hop,
    Bool.false_eq_true, if_false, hlit]
  have hrest : (if v = true then { s₁ with rest := s₁.rest.tail } else s₁).rest = q :: qs := by
    cases v <;> exact hqs
  rw [hrest]
  simp only [deref, nExtractquote_dangling hrest hd]

/-- The scanner stays inside its text exactly when no literal it comes to opens at the end of
the text or has a backslash there that escapes nothing. -/
theorem staysInside_iff (N : Scanner) {text : List Byte} (hnul : 0 ∉ text) (warnings : Int) :
    StaysInside N (Lex.start text warnings) ↔
      ∀ {q v qs s₁}, Meets N (Lex.start text warnings) q v qs s₁ → ¬ Defect q v qs := by
  have start : Terminated (Lex.start text warnings).rest := terminated_append hnul
  constructor
  · rintro ⟨returns, reported, -⟩ q v qs s₁ meets hdef
    obtain ⟨b, hr, hb, comes⟩ := meets
    obtain ⟨term, run⟩ := hr.loop start
    rcases hdef with rfl | hd
    · -- the literal is not closed, and nothing reports it
      have open_ : ¬ ∃ r, Closes q v [0] r := by
        rintro ⟨r, hr⟩
        obtain ⟨c, t, heq, hc⟩ := hr.head_ne (isQuote_ne (comes.literal term).1).1
        rw [List.cons.injEq] at heq
        exact hc heq.1.symm
      have := reported ⟨b, hr, hb, comes⟩ open_
      simp [CallsError, nSkipquote, deref, bind, Except.bind, pure, Except.pure] at this
    · obtain ⟨c, t, hct, hc⟩ := hb
      have out : nDecomposeSub N (Lex.start text warnings) = .error .outOfBounds := by
        rw [run, decomposeLoop]
        simp only [hct, deref, bind, Except.bind, if_neg hc, decomposeIter_dangling comes hd]
      rcases returns with ⟨s', eq⟩ | ⟨e, eq⟩ <;> simp [out] at eq
  · intro hgood
    refine ⟨?_, ?_, ?_⟩
    · exact decomposeLoop_returns start (fun hr hb comes => hgood ⟨_, hr, hb, comes⟩)
        (Nat.lt_succ_self _)
    · intro q v qs s₁ meets hopen
      have hdef := hgood meets
      obtain ⟨b, hr, hb, comes⟩ := meets
      obtain ⟨hq, hterm⟩ := comes.literal (hr.loop start).1
      simp only [Defect, not_or] at hdef
      rcases literal_trichotomy v (isQuote_ne hq).2 hterm with ⟨r, hclose, -⟩ | hm | hd
      · exact absurd ⟨r, hclose⟩ hopen
      · have hrep := nSkipquote_missing (N := N) hm hdef.1
          (s := { s₁ with rest := qs, err := false }) rfl (Nat.lt_add_one _)
        unfold CallsError
        cases eq : nSkipquote N q v (qs.length + 1) { s₁ with rest := qs, err := false } with
        | ok s' => rw [eq] at hrep; exact hrep.2.1
        | error f => rw [eq] at hrep; rw [hrep.2]; trivial
      · exact absurd hd hdef.2
    · intro q v qs s₁ s' meets eq
      have hdef := hgood meets
      obtain ⟨b, hr, hb, comes⟩ := meets
      obtain ⟨hq, hterm⟩ := comes.literal (hr.loop start).1
      simp only [Defect, not_or] at hdef
      rcases literal_trichotomy v (isQuote_ne hq).2 hterm with ⟨r, hclose, -⟩ | hm | hd
      · obtain ⟨n, eq'⟩ := nSkipquote_closes (N := N) hclose (isQuote_ne hq).1 (isQuote_ne hq).2
          (s := { s₁ with rest := qs }) rfl (Nat.lt_add_one _)
        rw [eq, Except.ok.injEq] at eq'
        have := hclose.length_lt
        rw [eq', quoteLen]
        simp only
        omega
      · have hrep := nSkipquote_missing (N := N) hm hdef.1 (s := { s₁ with rest := qs })
          rfl (Nat.lt_add_one _)
        rw [eq] at hrep
        have hlen : 1 < qs.length := hm.length_gt hdef.1
        rw [quoteLen, hrep.2.2, List.length_singleton]
        omega
      · exact absurd hd hdef.2

/-- The text `x = 'a';` has no such literal. -/
theorem staysInside_assignment :
    (0 : Byte) ∉ bytes "x = 'a';" ∧ (StaysInside ⟨true, 10⟩ (Lex.start (bytes "x = 'a';") 0) ↔
      ∀ {q v qs s₁}, Meets ⟨true, 10⟩ (Lex.start (bytes "x = 'a';") 0) q v qs s₁ → ¬ Defect q v qs) :=
  ⟨by decide, staysInside_iff ⟨true, 10⟩ (by decide) 0⟩

/-- A double quote and a backslash: the escape steps over the NUL. -/
theorem not_staysInside_backslash : ¬ StaysInside ⟨true, 10⟩ (Lex.start (bytes "\"\\") 0) := by
  rintro ⟨returns, -, -⟩
  have out : nDecomposeSub ⟨true, 10⟩ (Lex.start (bytes "\"\\") 0) = .error .outOfBounds := rfl
  rcases returns with ⟨s, eq⟩ | ⟨e, eq⟩ <;> rw [out] at eq <;> cases eq

end NullG.Nsp
