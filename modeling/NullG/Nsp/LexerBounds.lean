/-
The scanner and the end of its text (`compile.c`, `n_getop`).

A NUL-terminated text is a list that satisfies `Terminated`. Every scanning function
but the two for quoted text keeps `readptr` in such a list: `skipLine_spec`,
`skipComment_spec`, `nSkipblank_spec`, `nGetop_spec`, `numberText_spec`.
-/

import NullG.Nsp.Lexer

namespace NullG.Nsp

/-- `p` runs up to a NUL and ends with it. -/
def Terminated : List Byte → Prop
  | [] => False
  | b :: p => if b = 0 then p = [] else Terminated p

@[simp] theorem terminated_cons {b : Byte} {p : List Byte} (hb : b ≠ 0) :
    Terminated (b :: p) ↔ Terminated p := by
  simp [Terminated, hb]

theorem terminated_append {text : List Byte} (h : 0 ∉ text) : Terminated (text ++ [0]) := by
  induction text with
  | nil => simp [Terminated]
  | cons b p ih =>
      simp only [List.mem_cons, not_or] at h
      rw [List.cons_append, terminated_cons (Ne.symm h.1)]
      exact ih h.2

theorem Terminated.ne_nil {p : List Byte} (h : Terminated p) : p ≠ [] := by
  rintro rfl
  exact h

/-- A terminated list starts with a byte, and one that is not the NUL is followed by a
terminated list. -/
theorem Terminated.cases {p : List Byte} (h : Terminated p) :
    p = [0] ∨ ∃ b q, p = b :: q ∧ b ≠ 0 ∧ Terminated q := by
  cases p with
  | nil => exact absurd h (by simp [Terminated])
  | cons b q =>
      by_cases hb : b = 0
      · subst hb
        have hq : q = [] := by simpa [Terminated] using h
        exact .inl (by rw [hq])
      · exact .inr ⟨b, q, rfl, hb, (terminated_cons hb).mp h⟩

/-! ### Comments and blanks -/

theorem skipLine_spec {p : List Byte} (h : Terminated p) :
    ∃ p', skipLine p = .ok p' ∧ Terminated p' ∧ p' <:+ p := by
  induction p with
  | nil => exact absurd h (by simp [Terminated])
  | cons b p ih =>
      by_cases hstop : b = 0 ∨ b = ch '\n' ∨ b = ch '\r'
      · exact ⟨b :: p, by rw [skipLine, if_pos hstop], h, List.suffix_refl _⟩
      · have hb : b ≠ 0 := fun hb => hstop (.inl hb)
        obtain ⟨p', eq, term, suff⟩ := ih ((terminated_cons hb).mp h)
        exact ⟨p', by rw [skipLine, if_neg hstop, eq], term, suff.trans (List.suffix_cons b p)⟩

theorem skipComment_spec {p : List Byte} (h : Terminated p) (n : Nat) :
    ∃ p' n', skipComment p n = .ok (p', n') ∧ Terminated p' ∧ p' <:+ p := by
  induction p generalizing n with
  | nil => exact absurd h (by simp [Terminated])
  | cons b p ih =>
      by_cases hb : b = 0
      · exact ⟨b :: p, n, by simp [skipComment, hb], h, List.suffix_refl _⟩
      · have hp := (terminated_cons hb).mp h
        have lift : ∀ {q : List Byte}, q <:+ p → q <:+ b :: p := fun hq =>
          hq.trans (List.suffix_cons b p)
        by_cases hnl : b = ch '\n'
        · obtain ⟨p', n', eq, term, suff⟩ := ih hp (n + 1)
          exact ⟨p', n', by simp only [skipComment.eq_def (b :: p), if_neg hb, if_pos hnl, eq], term,
            lift suff⟩
        · obtain ⟨p', n', eq, term, suff⟩ := ih hp n
          by_cases hstar : b = ch '*'
          · -- the second byte is read here, at worst the NUL
            obtain ⟨c, q, rfl⟩ := List.exists_cons_of_ne_nil hp.ne_nil
            by_cases hc : c = ch '/'
            · have hc0 : c ≠ 0 := by rw [hc]; decide
              exact ⟨q, n, by simp only [skipComment, if_neg hb, if_neg hnl, if_pos hstar, if_pos hc],
                (terminated_cons hc0).mp hp, lift (List.suffix_cons c q)⟩
            · refine ⟨p', n', ?_, term, lift suff⟩
              rw [skipComment, if_neg hb, if_neg hnl, if_pos hstar]
              simp only [if_neg hc]
              exact eq
          · exact ⟨p', n', by simp only [skipComment.eq_def (b :: p), if_neg hb, if_neg hnl, if_neg hstar, eq], term,
              lift suff⟩

@[simp] theorem Lex.newline_rest (s : Lex) : s.newline.rest = s.rest := by
  unfold Lex.newline; split <;> rfl

theorem skipOpen_spec {s : Lex} (h : Terminated s.rest) :
    ∃ s', skipOpen s = .ok s' ∧ Terminated s'.rest ∧ s'.rest <:+ s.rest ∧
      s'.warnings = s.warnings ∧ s'.err = s.err := by
  obtain ⟨b, p, hrest⟩ := List.exists_cons_of_ne_nil h.ne_nil
  unfold skipOpen
  rw [hrest] at h ⊢
  have tail_term : b ≠ 0 → Terminated p := fun hb => (terminated_cons hb).mp h
  by_cases hhash : b = ch '#'
  · obtain ⟨p', eq, term, suff⟩ := skipLine_spec (tail_term (by rw [hhash]; decide))
    exact ⟨{ s with rest := p' }, by simp [hhash, eq, bind, Except.bind, pure, Except.pure], term,
      suff.trans (List.suffix_cons b p), rfl, rfl⟩
  · by_cases hslash : b = ch '/'
    · have hp := tail_term (by rw [hslash]; decide)
      obtain ⟨c, q, rfl⟩ := List.exists_cons_of_ne_nil hp.ne_nil
      have hq : c ≠ 0 → Terminated q := fun hc => (terminated_cons hc).mp hp
      have qsuff : q <:+ b :: c :: q := (List.suffix_cons c q).trans (List.suffix_cons b (c :: q))
      by_cases hc : c = ch '/'
      · obtain ⟨p', eq, term, suff⟩ := skipLine_spec (hq (by rw [hc]; decide))
        exact ⟨{ s with rest := p' },
          by simp +decide [hslash, hc, deref, eq, bind, Except.bind, pure, Except.pure], term,
          suff.trans qsuff, rfl, rfl⟩
      · by_cases hstar : c = ch '*'
        · obtain ⟨p', n', eq, term, suff⟩ := skipComment_spec (hq (by rw [hstar]; decide)) s.lineno
          exact ⟨{ s with rest := p', lineno := n' },
            by simp +decide [hslash, hstar, deref, eq, bind, Except.bind, pure, Except.pure], term,
            suff.trans qsuff, rfl, rfl⟩
        · exact ⟨s, by simp +decide [hslash, hc, hstar, deref, bind, Except.bind, pure, Except.pure],
            by rw [hrest]; exact h, by simp only [hrest, List.suffix_refl], rfl, rfl⟩
    · exact ⟨s, by simp [hhash, hslash, pure, Except.pure], by rw [hrest]; exact h,
        by simp only [hrest, List.suffix_refl], rfl, rfl⟩

theorem skipblankLoop_spec {fuel : Nat} {s : Lex} (h : Terminated s.rest)
    (hfuel : s.rest.length < fuel) :
    ∃ s', skipblankLoop fuel s = .ok s' ∧ Terminated s'.rest ∧ s'.rest <:+ s.rest ∧
      s'.warnings = s.warnings ∧ s'.err = s.err := by
  induction fuel generalizing s with
  | zero => omega
  | succ fuel ih =>
      obtain ⟨b, p, hrest⟩ := List.exists_cons_of_ne_nil h.ne_nil
      by_cases hb : b = 0
      · exact ⟨s, by simp [skipblankLoop, hrest, hb, deref, bind, Except.bind, pure, Except.pure],
          h, List.suffix_refl _, rfl, rfl⟩
      · obtain ⟨s₁, eq₁, term₁, suff₁, warn₁, err₁⟩ := skipOpen_spec h
        obtain ⟨c, q, hrest₁⟩ := List.exists_cons_of_ne_nil term₁.ne_nil
        have keep : s₁.newline.warnings = s₁.warnings ∧ s₁.newline.err = s₁.err := by
          unfold Lex.newline; split <;> exact ⟨rfl, rfl⟩
        by_cases hsp : ncIsspace c = true
        · have hc : c ≠ 0 := by rintro rfl; exact absurd hsp (by decide)
          have hq : Terminated q := by rw [hrest₁] at term₁; exact (terminated_cons hc).mp term₁
          have hlen := suff₁.length_le
          rw [hrest₁, List.length_cons] at hlen
          obtain ⟨s', eq', term', suff', warn', err'⟩ :=
            @ih { s₁.newline with rest := q } hq (by simp only; omega)
          refine ⟨s', ?_, term', ?_, ?_, ?_⟩
          · simp only [skipblankLoop, hrest, deref, bind, Except.bind, pure, Except.pure, if_neg hb,
              eq₁, Lex.newline_rest, hrest₁, hsp, if_true, List.tail_cons]
            exact eq'
          · exact (suff'.trans (List.suffix_cons c q)).trans (hrest₁ ▸ suff₁)
          · rw [warn', ← warn₁]; exact keep.1
          · rw [err', ← err₁]; exact keep.2
        · refine ⟨s₁.newline, ?_, by rw [Lex.newline_rest]; exact term₁,
            by rw [Lex.newline_rest]; exact suff₁, keep.1.trans warn₁, keep.2.trans err₁⟩
          simp only [skipblankLoop, hrest, deref, bind, Except.bind, pure, Except.pure, if_neg hb,
            eq₁, Lex.newline_rest, hrest₁, hsp]
          rfl

/-- `n_skipblank` stays in the text. -/
theorem nSkipblank_spec {s : Lex} (h : Terminated s.rest) :
    ∃ s', nSkipblank s = .ok s' ∧ Terminated s'.rest ∧ s'.rest <:+ s.rest ∧
      s'.warnings = s.warnings ∧ s'.err = s.err :=
  skipblankLoop_spec h (Nat.lt_succ_self _)

/-! ### Operators, labels and numbers -/

theorem labelTail_spec {room : Nat} {p : List Byte} (h : Terminated p) :
    ∃ name p', labelTail room p = .ok (name, p') ∧ Terminated p' ∧ p' <:+ p := by
  induction room generalizing p with
  | zero => exact ⟨[], p, rfl, h, List.suffix_refl _⟩
  | succ room ih =>
      obtain ⟨c, q, rfl⟩ := List.exists_cons_of_ne_nil h.ne_nil
      by_cases hc : (isLabel c || ncIsdigit c) = true
      · have hc0 : c ≠ 0 := by rintro rfl; exact absurd hc (by decide)
        obtain ⟨name, p', eq, term, suff⟩ := ih ((terminated_cons hc0).mp h)
        exact ⟨c :: name, p', by simp only [labelTail, hc, if_true, eq]; rfl, term,
          suff.trans (List.suffix_cons c q)⟩
      · exact ⟨[], c :: q, by simp only [labelTail, if_neg hc], h, List.suffix_refl _⟩

theorem numberText_spec {p : List Byte} (h : Terminated p) :
    ∃ text p', numberText p = .ok (text, p') ∧ Terminated p' ∧ p' <:+ p ∧
      (ncIsdigit (p.head h.ne_nil) = true → p'.length < p.length) := by
  induction p with
  | nil => exact absurd h (by simp [Terminated])
  | cons c p ih =>
      by_cases hc : (ncIsdigit c || c == ch '.') = true
      · have hc0 : c ≠ 0 := by rintro rfl; exact absurd hc (by decide)
        obtain ⟨text, p', eq, term, suff, -⟩ := ih ((terminated_cons hc0).mp h)
        exact ⟨c :: text, p', by simp only [numberText, hc, if_true, eq]; rfl, term,
          suff.trans (List.suffix_cons c p), fun _ => Nat.lt_succ_of_le suff.length_le⟩
      · refine ⟨[], c :: p, by simp only [numberText, if_neg hc], h, List.suffix_refl _, ?_⟩
        intro hdigit
        simp only [List.head_cons] at hdigit
        simp [hdigit] at hc

theorem mathName_spec {c : Byte} {p : List Byte} (h : Terminated p) :
    ∃ name p', mathName (c :: p) = .ok (name, p') ∧ Terminated p' ∧ p' <:+ p := by
  obtain ⟨d, q, rfl⟩ := List.exists_cons_of_ne_nil h.ne_nil
  by_cases hd : isMathop d = true
  · have hd0 : d ≠ 0 := by rintro rfl; exact absurd hd (by decide)
    have hq := (terminated_cons hd0).mp h
    obtain ⟨e, r, rfl⟩ := List.exists_cons_of_ne_nil hq.ne_nil
    by_cases hc : c = ch '='
    · by_cases hdeq : d = ch '='
      · by_cases he : e = ch '='
        · have he0 : e ≠ 0 := by rw [he]; decide
          exact ⟨_, r, by
            simp only [mathName, deref, bind, Except.bind, hd, if_true, if_pos hc, if_pos hdeq,
              List.tail_cons, if_pos he]; rfl, (terminated_cons he0).mp hq,
            (List.suffix_cons e r).trans (List.suffix_cons d (e :: r))⟩
        · exact ⟨_, e :: r, by
            simp only [mathName, deref, bind, Except.bind, hd, if_true, if_pos hc, if_pos hdeq,
              List.tail_cons, if_neg he]; rfl, hq, List.suffix_cons d (e :: r)⟩
      · exact ⟨_, d :: e :: r, by
          simp only [mathName, deref, bind, Except.bind, hd, if_true, if_pos hc, if_neg hdeq]; rfl,
          h, List.suffix_refl _⟩
    · exact ⟨_, e :: r, by
        simp only [mathName, deref, bind, Except.bind, hd, if_true, if_neg hc, List.tail_cons]; rfl,
        hq, List.suffix_cons d (e :: r)⟩
  · exact ⟨[c], d :: q, by
      simp only [mathName, deref, bind, Except.bind, hd]; rfl, h, List.suffix_refl _⟩

/-- The bytes at which `n_skipblank` does nothing: no blank, and no start of a comment. -/
def Solid (p : List Byte) : Prop :=
  ∃ b q, p = b :: q ∧ ncIsspace b = false ∧ b ≠ ch '#' ∧
    (b = ch '/' → ∃ c r, q = c :: r ∧ c ≠ ch '/' ∧ c ≠ ch '*')

theorem Solid.of_data {b : Byte} {q : List Byte} (h : isData b = true) : Solid (b :: q) := by
  refine ⟨b, q, rfl, ?_, ?_, ?_⟩
  · cases hsp : ncIsspace b with
    | false => rfl
    | true =>
        simp only [ncIsspace, Bool.or_eq_true, beq_iff_eq] at hsp
        rcases hsp with ((rfl | rfl) | rfl) | rfl <;> exact absurd h (by decide)
  · rintro rfl; exact absurd h (by decide)
  · rintro rfl; exact absurd h (by decide)

theorem skipblankLoop_solid {s : Lex} (h : Solid s.rest) (fuel : Nat) :
    skipblankLoop (fuel + 1) s = .ok s := by
  obtain ⟨b, q, hrest, hsp, hhash, hslash⟩ := h
  rw [skipblankLoop]
  have hopen : skipOpen s = .ok s := by
    unfold skipOpen
    rw [hrest]
    simp only [if_neg hhash]
    by_cases hs : b = ch '/'
    · obtain ⟨c, r, rfl, hc₁, hc₂⟩ := hslash hs
      simp only [if_pos hs, deref, bind, Except.bind, if_neg hc₁, if_neg hc₂]
      rfl
    · simp only [if_neg hs]
      rfl
  have hnl : s.newline = s := by
    unfold Lex.newline
    rw [hrest, if_neg]
    simp only [List.head?_cons, Option.some.injEq]
    rintro rfl
    exact absurd hsp (by decide)
  by_cases hb : b = 0
  · simp only [hrest, deref, bind, Except.bind, if_pos hb]
    rfl
  · simp only [hrest, deref, bind, Except.bind, if_neg hb, hopen, hnl, hsp]
    rfl

/-- `n_skipblank` does not move over a token. -/
theorem nSkipblank_solid {s : Lex} (h : Solid s.rest) : nSkipblank s = .ok s :=
  skipblankLoop_solid h _

/-- The op bytes `n_getop` gives to literals without moving `readptr`. -/
def IsLiteralOp (op : Byte) : Prop := op = opStrdata ∨ op = opEstrdata ∨ op = opNumdata

/-- `n_getop` stays in the text, and it moves on unless it meets an undefined op or stands
on a literal. -/
theorem nGetop_spec {p : List Byte} (h : Terminated p) :
    ∃ op name p', nGetop p = .ok (op, name, p') ∧ Terminated p' ∧ p' <:+ p ∧
      (p'.length < p.length ∨ op = opUndefined ∨
        (p' = p ∧ IsLiteralOp op ∧ isData (p.head h.ne_nil) = true ∧
          (literalAt p = none → ncIsdigit (p.head h.ne_nil) = true))) := by
  obtain ⟨c, q, rfl⟩ := List.exists_cons_of_ne_nil h.ne_nil
  simp only [List.head_cons]
  have tail_term : c ≠ 0 → Terminated q := fun hc => (terminated_cons hc).mp h
  have moved : ∀ {r : List Byte}, r <:+ q → r.length < (c :: q).length := fun hr =>
    Nat.lt_succ_of_le hr.length_le
  have lift : ∀ {r : List Byte}, r <:+ q → r <:+ c :: q := fun hr => hr.trans (List.suffix_cons c q)
  unfold nGetop
  by_cases hhigh : c > 127
  · have hc0 : c ≠ 0 := by rintro rfl; exact absurd hhigh (by decide)
    exact ⟨c, [], q, by simp only [if_pos hhigh]; rfl, tail_term hc0, List.suffix_cons c q,
      .inl (moved (List.suffix_refl _))⟩
  simp only [if_neg hhigh]
  by_cases hdata : isData c = true
  · simp only [if_pos hdata]
    by_cases hq1 : c = ch '\'' ∨ c = ch '"'
    · refine ⟨opStrdata, [], c :: q, by simp only [if_pos hq1]; rfl, h, List.suffix_refl _,
        .inr (.inr ⟨rfl, .inl rfl, hdata, ?_⟩)⟩
      intro hlit
      rcases hq1 with rfl | rfl <;> exact absurd hlit (by simp +decide [literalAt])
    simp only [if_neg hq1]
    by_cases hq2 : c = 0x60
    · refine ⟨opEstrdata, [], c :: q, by simp only [if_pos hq2]; rfl, h, List.suffix_refl _,
        .inr (.inr ⟨rfl, .inr (.inl rfl), hdata, ?_⟩)⟩
      intro hlit
      subst hq2
      exact absurd hlit (by simp +decide [literalAt])
    simp only [if_neg hq2]
    by_cases hat : c = ch '@'
    · have hc0 : c ≠ 0 := by rw [hat]; decide
      obtain ⟨d, r, rfl⟩ := List.exists_cons_of_ne_nil (tail_term hc0).ne_nil
      simp only [if_pos hat, deref, bind, Except.bind]
      by_cases hd1 : d = ch '\'' ∨ d = ch '"'
      · refine ⟨opStrdata, [], c :: d :: r, by simp only [if_pos hd1]; rfl, h, List.suffix_refl _,
          .inr (.inr ⟨rfl, .inl rfl, hdata, ?_⟩)⟩
        intro hlit
        subst hat
        rcases hd1 with rfl | rfl <;> exact absurd hlit (by simp +decide [literalAt])
      simp only [if_neg hd1]
      by_cases hd2 : d = 0x60
      · refine ⟨opEstrdata, [], c :: d :: r, by simp only [if_pos hd2]; rfl, h,
          List.suffix_refl _, .inr (.inr ⟨rfl, .inr (.inl rfl), hdata, ?_⟩)⟩
        intro hlit
        subst hat hd2
        exact absurd hlit (by simp +decide [literalAt])
      simp only [if_neg hd2]
      exact ⟨opUndefined, [], c :: d :: r, rfl, h, List.suffix_refl _, .inr (.inl rfl)⟩
    simp only [if_neg hat]
    refine ⟨opNumdata, [], c :: q, rfl, h, List.suffix_refl _,
      .inr (.inr ⟨rfl, .inr (.inr rfl), hdata, fun _ => ?_⟩)⟩
    rw [not_or] at hq1
    simpa [isData, isQuote, hat, hq1.1, hq1.2, hq2] using hdata
  simp only [if_neg hdata]
  by_cases hlabel : isLabel c = true
  · have hc0 : c ≠ 0 := by rintro rfl; exact absurd hlabel (by decide)
    obtain ⟨name, p', eq, term, suff⟩ := @labelTail_spec (maxObjnamelen - 1) _ (tail_term hc0)
    exact ⟨_, _, p', by simp only [if_pos hlabel, eq, bind, Except.bind]; rfl, term, lift suff,
      .inl (moved suff)⟩
  simp only [if_neg hlabel]
  by_cases hpunc : isPuncop c = true
  · have hc0 : c ≠ 0 := by rintro rfl; exact absurd hpunc (by decide)
    exact ⟨_, _, q, by simp only [if_pos hpunc]; rfl, tail_term hc0, List.suffix_cons c q,
      .inl (moved (List.suffix_refl _))⟩
  simp only [if_neg hpunc]
  by_cases hmath : isMathop c = true
  · have hc0 : c ≠ 0 := by rintro rfl; exact absurd hmath (by decide)
    obtain ⟨name, p', eq, term, suff⟩ := mathName_spec (c := c) (tail_term hc0)
    exact ⟨_, _, p', by simp only [if_pos hmath, eq, bind, Except.bind]; rfl, term, lift suff,
      .inl (moved suff)⟩
  simp only [if_neg hmath]
  exact ⟨opUndefined, [], c :: q, rfl, h, List.suffix_refl _, .inr (.inl rfl)⟩

/-! ### Warnings -/

/-- Without a `savjmp` a warning always returns. -/
theorem nWarn_returns {N : Scanner} (hj : N.jmp = false) (s : Lex) :
    ∃ s', nWarn N s = .ok s' ∧ s'.rest = s.rest ∧ (s.err = true → s'.err = true) := by
  by_cases hmax : s.warnings + 1 > N.maxwarnings
  · exact ⟨{ s with warnings := -32768, err := true }, by simp [nWarn, hmax, hj], rfl, fun _ => rfl⟩
  · exact ⟨{ s with warnings := s.warnings + 1 }, by simp [nWarn, hmax], rfl, id⟩

/-- A warning leaves `readptr` alone or ends the scan. -/
theorem nWarn_spec (N : Scanner) (s : Lex) :
    nWarn N s = .error (.raised .tooManyWarnings) ∨ ∃ s', nWarn N s = .ok s' ∧ s'.rest = s.rest := by
  by_cases hmax : s.warnings + 1 > N.maxwarnings
  · cases hj : N.jmp with
    | true => exact .inl (by simp [nWarn, hmax, hj])
    | false =>
        obtain ⟨s', eq, hrest, -⟩ := nWarn_returns hj s
        exact .inr ⟨s', eq, hrest⟩
  · exact .inr ⟨{ s with warnings := s.warnings + 1 }, by simp [nWarn, hmax], rfl⟩

/-! ### Quoted text -/

/-- A byte of a literal that neither closes it nor starts an escape. -/
def PlainIn (q : Byte) (verbatim : Bool) (c : Byte) : Prop :=
  c ≠ 0 ∧ c ≠ q ∧ (c = ch '\\' → verbatim = true)

/-- `Closes q verbatim p r`: the literal whose text starts at `p` has its closing quote
`q`, and `r` follows it. -/
inductive Closes (q : Byte) (verbatim : Bool) : List Byte → List Byte → Prop where
  | quote {r : List Byte} : Closes q verbatim (q :: r) r
  | escape {c : Byte} {p r : List Byte} : verbatim = false → c ≠ 0 → Closes q verbatim p r →
      Closes q verbatim (ch '\\' :: c :: p) r
  | plain {c : Byte} {p r : List Byte} : PlainIn q verbatim c → Closes q verbatim p r →
      Closes q verbatim (c :: p) r

/-- The text ends inside the literal, after a complete escape or a plain byte. -/
inductive Missing (q : Byte) (verbatim : Bool) : List Byte → Prop where
  | nul : Missing q verbatim [0]
  | escape {c : Byte} {p : List Byte} : verbatim = false → c ≠ 0 → Missing q verbatim p →
      Missing q verbatim (ch '\\' :: c :: p)
  | plain {c : Byte} {p : List Byte} : PlainIn q verbatim c → Missing q verbatim p →
      Missing q verbatim (c :: p)

/-- The text ends inside the literal, between a backslash and the byte it escapes. -/
inductive Dangling (q : Byte) (verbatim : Bool) : List Byte → Prop where
  | backslash : verbatim = false → Dangling q verbatim [ch '\\', 0]
  | escape {c : Byte} {p : List Byte} : verbatim = false → c ≠ 0 → Dangling q verbatim p →
      Dangling q verbatim (ch '\\' :: c :: p)
  | plain {c : Byte} {p : List Byte} : PlainIn q verbatim c → Dangling q verbatim p →
      Dangling q verbatim (c :: p)

/-- A literal is closed, or the text ends in it in one of the two ways. -/
theorem literal_trichotomy {q : Byte} (verbatim : Bool) (hq : q ≠ ch '\\') {p : List Byte}
    (h : Terminated p) :
    (∃ r, Closes q verbatim p r ∧ Terminated r) ∨ Missing q verbatim p ∨ Dangling q verbatim p := by
  obtain ⟨n, hn⟩ : ∃ n, p.length ≤ n := ⟨_, Nat.le_refl _⟩
  induction n generalizing p with
  | zero => exact absurd (List.length_eq_zero_iff.mp (Nat.le_zero.mp hn)) h.ne_nil
  | succ n ih =>
      rcases h.cases with rfl | ⟨b, t, rfl, hb, ht⟩
      · exact .inr (.inl .nul)
      · rw [List.length_cons] at hn
        by_cases hbq : b = q
        · subst hbq
          exact .inl ⟨t, .quote, ht⟩
        by_cases hesc : b = ch '\\' ∧ verbatim = false
        · obtain ⟨rfl, hv⟩ := hesc
          rcases ht.cases with rfl | ⟨c, u, rfl, hc, hu⟩
          · exact .inr (.inr (.backslash hv))
          · rw [List.length_cons] at hn
            rcases ih hu (by omega) with ⟨r, hr, term⟩ | hm | hd
            · exact .inl ⟨r, .escape hv hc hr, term⟩
            · exact .inr (.inl (.escape hv hc hm))
            · exact .inr (.inr (.escape hv hc hd))
        · have hplain : PlainIn q verbatim b := ⟨hb, hbq, fun h' => by simpa [h'] using hesc⟩
          rcases ih ht (by omega) with ⟨r, hr, term⟩ | hm | hd
          · exact .inl ⟨r, .plain hplain hr, term⟩
          · exact .inr (.inl (.plain hplain hm))
          · exact .inr (.inr (.plain hplain hd))

theorem Closes.length_lt {q : Byte} {verbatim : Bool} {p r : List Byte}
    (h : Closes q verbatim p r) : r.length < p.length := by
  induction h with
  | quote => simp
  | escape _ _ _ ih => simp only [List.length_cons]; omega
  | plain _ _ ih => simp only [List.length_cons]; omega

theorem Closes.head_ne {q : Byte} {verbatim : Bool} {p r : List Byte} (hq : q ≠ 0)
    (h : Closes q verbatim p r) : ∃ b t, p = b :: t ∧ b ≠ 0 := by
  cases h with
  | quote => exact ⟨q, _, rfl, hq⟩
  | escape => exact ⟨ch '\\', _, rfl, by decide⟩
  | plain hc _ => exact ⟨_, _, rfl, hc.1⟩

theorem Missing.length_gt {q : Byte} {verbatim : Bool} {p : List Byte} (h : Missing q verbatim p)
    (hne : p ≠ [0]) : 1 < p.length := by
  cases h with
  | nul => exact absurd rfl hne
  | escape => simp
  | plain _ hp => cases hp <;> simp

section Skipquote

variable {N : Scanner} {q : Byte} {verbatim : Bool}

/-- One round of the loop on an escape. -/
theorem nSkipquote_escape {fuel : Nat} {s : Lex} {c : Byte} {p : List Byte}
    (hv : verbatim = false) (hs : s.rest = ch '\\' :: c :: p) :
    nSkipquote N q verbatim (fuel + 1) s =
      (quoteFoot N { s with rest := p } >>= nSkipquote N q verbatim fuel) := by
  have h0 : ch '\\' ≠ 0 := by decide
  simp only [nSkipquote, hs, deref, bind, Except.bind, if_neg h0, hv, Bool.not_false, and_self,
    if_true, List.tail_cons]

/-- One round of the loop on a plain byte. -/
theorem nSkipquote_plain {fuel : Nat} {s : Lex} {c : Byte} {p : List Byte}
    (hc : PlainIn q verbatim c) (hs : s.rest = c :: p) :
    nSkipquote N q verbatim (fuel + 1) s =
      (quoteFoot N { s with rest := p, lineno := if c = ch '\n' then s.lineno + 1 else s.lineno } >>=
        nSkipquote N q verbatim fuel) := by
  obtain ⟨h0, hq, hesc⟩ := hc
  have hne : ¬ (c = ch '\\' ∧ (!verbatim) = true) := by
    rintro ⟨rfl, hv⟩
    simp [hesc rfl] at hv
  by_cases hnl : c = ch '\n'
  · simp only [nSkipquote, hs, deref, bind, Except.bind, if_neg h0, if_neg hne, if_neg hq, if_pos hnl,
      List.tail_cons]
  · simp only [nSkipquote, hs, deref, bind, Except.bind, if_neg h0, if_neg hne, if_neg hq, if_neg hnl,
      List.tail_cons]

theorem quoteFoot_ne {s : Lex} {b : Byte} {t : List Byte} (hs : s.rest = b :: t) (hb : b ≠ 0)
    (f : Lex → Except Fault Lex) : (quoteFoot N s >>= f) = f s := by
  simp only [quoteFoot, hs, deref, bind, Except.bind, if_neg hb, pure, Except.pure]

/-- On a closed literal `readptr` ends behind the quote. -/
theorem nSkipquote_closes {p r : List Byte} (h : Closes q verbatim p r) (hq0 : q ≠ 0)
    (hq : q ≠ ch '\\') {fuel : Nat} {s : Lex} (hs : s.rest = p) (hfuel : p.length < fuel) :
    ∃ n, nSkipquote N q verbatim fuel s = .ok { s with rest := r, lineno := n } := by
  induction h generalizing fuel s with
  | @quote r =>
      obtain ⟨fuel, rfl⟩ : ∃ k, fuel = k + 1 := ⟨fuel - 1, by omega⟩
      have hne : ¬ (q = ch '\\' ∧ (!verbatim) = true) := fun h' => hq h'.1
      exact ⟨s.lineno, by
        simp only [nSkipquote, hs, deref, bind, Except.bind, if_neg hq0, if_neg hne, if_true,
          List.tail_cons]; rfl⟩
  | @escape c p r hv hc hp ih =>
      simp only [List.length_cons] at hfuel
      obtain ⟨fuel, rfl⟩ : ∃ k, fuel = k + 1 := ⟨fuel - 1, by omega⟩
      obtain ⟨b, t, rfl, hb⟩ := hp.head_ne hq0
      obtain ⟨n, hn⟩ := @ih fuel { s with rest := b :: t } rfl (by omega)
      exact ⟨n, by rw [nSkipquote_escape hv hs, quoteFoot_ne rfl hb, hn]⟩
  | @plain c p r hc hp ih =>
      simp only [List.length_cons] at hfuel
      obtain ⟨fuel, rfl⟩ : ∃ k, fuel = k + 1 := ⟨fuel - 1, by omega⟩
      obtain ⟨b, t, rfl, hb⟩ := hp.head_ne hq0
      obtain ⟨n, hn⟩ := @ih fuel
        { s with rest := b :: t, lineno := if c = ch '\n' then s.lineno + 1 else s.lineno } rfl
        (by omega)
      exact ⟨n, by rw [nSkipquote_plain hc hs, quoteFoot_ne rfl hb, hn]⟩

/-- What the scanner does when the text ends in a literal that is not empty: the error is
raised, or recorded when there is no `savjmp`. -/
def Reports (N : Scanner) : Except Fault Lex → Prop
  | .ok s' => N.jmp = false ∧ s'.err = true ∧ s'.rest = [0]
  | .error f => N.jmp = true ∧ f = .raised .unterminatedString

/-- The test at the foot of the loop at the end of the text. -/
theorem quoteFoot_nul {fuel : Nat} {s : Lex} (hs : s.rest = [0]) (hfuel : 0 < fuel) :
    Reports N (quoteFoot N s >>= nSkipquote N q verbatim fuel) := by
  obtain ⟨fuel, rfl⟩ : ∃ k, fuel = k + 1 := ⟨fuel - 1, by omega⟩
  have stop : ∀ s' : Lex, s'.rest = [0] → nSkipquote N q verbatim (fuel + 1) s' = .ok s' := by
    intro s' hs'
    simp only [nSkipquote, hs', deref, bind, Except.bind, if_true]
    rfl
  simp only [quoteFoot, hs, deref, bind, Except.bind, if_true, nError]
  cases hj : N.jmp with
  | true => exact ⟨hj, rfl⟩
  | false =>
      obtain ⟨s', eq, hrest, herr⟩ := nWarn_returns hj { s with rest := [0], err := true }
      simp only [Bool.false_eq_true, if_false, eq]
      rw [stop s' hrest]
      exact ⟨hj, herr rfl, hrest⟩

theorem nSkipquote_missing {p : List Byte} (h : Missing q verbatim p) (hne : p ≠ [0]) {fuel : Nat}
    {s : Lex} (hs : s.rest = p) (hfuel : p.length < fuel) :
    Reports N (nSkipquote N q verbatim fuel s) := by
  -- the byte after an escape or a plain byte is the NUL, or the literal goes on
  have onward : ∀ {p : List Byte} {fuel : Nat} {s : Lex}, Missing q verbatim p → s.rest = p →
      p.length < fuel →
      (p ≠ [0] → Reports N (nSkipquote N q verbatim fuel s)) →
      Reports N (quoteFoot N s >>= nSkipquote N q verbatim fuel) := by
    intro p fuel s hp hs hfuel ih
    by_cases hp0 : p = [0]
    · exact quoteFoot_nul (hs.trans hp0) (by omega)
    · have hhead : ∃ b t, p = b :: t ∧ b ≠ 0 := by
        cases hp with
        | nul => exact absurd rfl hp0
        | escape => exact ⟨ch '\\', _, rfl, by decide⟩
        | plain hc _ => exact ⟨_, _, rfl, hc.1⟩
      obtain ⟨b, t, rfl, hb⟩ := hhead
      rw [quoteFoot_ne hs hb]
      exact ih hp0
  induction h generalizing fuel s with
  | nul => exact absurd rfl hne
  | @escape c p hv hc hp ih =>
      simp only [List.length_cons] at hfuel
      obtain ⟨fuel, rfl⟩ : ∃ k, fuel = k + 1 := ⟨fuel - 1, by omega⟩
      rw [nSkipquote_escape hv hs]
      exact onward hp rfl (by omega) fun hp0 => ih hp0 rfl (by omega)
  | @plain c p hc hp ih =>
      simp only [List.length_cons] at hfuel
      obtain ⟨fuel, rfl⟩ : ∃ k, fuel = k + 1 := ⟨fuel - 1, by omega⟩
      rw [nSkipquote_plain hc hs]
      exact onward hp rfl (by omega) fun hp0 => ih hp0 rfl (by omega)

/-- A backslash at the end of the text takes `readptr` past the NUL. -/
theorem nSkipquote_dangling {p : List Byte} (h : Dangling q verbatim p) {fuel : Nat} {s : Lex}
    (hs : s.rest = p) (hfuel : p.length < fuel) :
    nSkipquote N q verbatim fuel s = .error .outOfBounds := by
  have hhead : ∀ {p : List Byte}, Dangling q verbatim p → ∃ b t, p = b :: t ∧ b ≠ 0 := by
    intro p hp
    cases hp with
    | backslash => exact ⟨ch '\\', _, rfl, by decide⟩
    | escape => exact ⟨ch '\\', _, rfl, by decide⟩
    | plain hc _ => exact ⟨_, _, rfl, hc.1⟩
  induction h generalizing fuel s with
  | backslash hv =>
      obtain ⟨fuel, rfl⟩ : ∃ k, fuel = k + 1 := ⟨fuel - 1, by omega⟩
      rw [nSkipquote_escape hv hs]
      simp only [quoteFoot, deref, bind, Except.bind]
  | @escape c p hv hc hp ih =>
      simp only [List.length_cons] at hfuel
      obtain ⟨fuel, rfl⟩ : ∃ k, fuel = k + 1 := ⟨fuel - 1, by omega⟩
      obtain ⟨b, t, rfl, hb⟩ := hhead hp
      rw [nSkipquote_escape hv hs, quoteFoot_ne rfl hb]
      exact ih rfl (by omega)
  | @plain c p hc hp ih =>
      simp only [List.length_cons] at hfuel
      obtain ⟨fuel, rfl⟩ : ∃ k, fuel = k + 1 := ⟨fuel - 1, by omega⟩
      obtain ⟨b, t, rfl, hb⟩ := hhead hp
      rw [nSkipquote_plain hc hs, quoteFoot_ne rfl hb]
      exact ih rfl (by omega)

end Skipquote

/-- `n_unescape` reads its `len` bytes and no more. -/
theorem nUnescape_spec (N : Scanner) {src : List Byte} {len : Nat} (h : len ≤ src.length) (e : Bool)
    (s : Lex) :
    nUnescape N src len e s = .error (.raised .tooManyWarnings) ∨
      ∃ dst s', nUnescape N src len e s = .ok (dst, s') ∧ s'.rest = s.rest := by
  induction src generalizing len e s with
  | nil =>
      obtain rfl : len = 0 := by simpa using h
      exact .inr ⟨[], s, by simp [nUnescape], rfl⟩
  | cons c src ih =>
      cases len with
      | zero => exact .inr ⟨[], s, by simp [nUnescape], rfl⟩
      | succ len =>
          have hlen : len ≤ src.length := by simpa using h
          -- a byte `b` in front of what the rest of the source gives
          have put : ∀ (b : Byte) {x : Except Fault (List Byte × Lex)},
              (x = .error (.raised .tooManyWarnings) ∨ ∃ dst s', x = .ok (dst, s') ∧ s'.rest = s.rest) →
              ((do let r ← x; return (b :: r.1, r.2)) = .error (.raised .tooManyWarnings) ∨
                ∃ dst s', (do let r ← x; return (b :: r.1, r.2)) = .ok (dst, s') ∧ s'.rest = s.rest) := by
            rintro b x (rfl | ⟨dst, s', rfl, hrest⟩)
            · exact .inl rfl
            · exact .inr ⟨b :: dst, s', rfl, hrest⟩
          cases e with
          | false =>
              simp only [nUnescape]
              by_cases hc : c = ch '\\'
              · rw [if_pos hc]
                exact ih hlen true s
              · rw [if_neg hc]
                exact put c (ih hlen false s)
          | true =>
              simp only [nUnescape]
              cases unescape c with
              | some b => exact put b (ih hlen false s)
              | none =>
                  rcases nWarn_spec N s with eq | ⟨s₁, eq, hrest⟩
                  · exact .inl (by simp only [eq, bind, Except.bind])
                  · simp only [eq, bind, Except.bind]
                    rw [← hrest]
                    exact ih hlen false s₁

end NullG.Nsp
