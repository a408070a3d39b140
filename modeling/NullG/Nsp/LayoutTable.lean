/-
The token table of a layout.

* `decomposeIter_lexeme` — one pass of the loop of `n_decompose_sub` reads one lexeme;
* `decomposeIter_dead` — at the end, at a comment and at an operator that took the slash of
  one, the pass stops;
* `nDecomposeSub_layout` — the token table holds the lexemes that `Layout.read` says, with
  line markers where it says.
-/

import NullG.Nsp.LayoutLex

namespace NullG.Nsp

open NullG.Lib

/-! ### What stands at a lexeme and behind it -/

/-- The items and the NUL behind them. -/
def Items.rest (is : Items) : List Byte := Items.text is ++ [0]

theorem Items.rest_cons (t : Lexeme) (g : Gap) (is : Items) :
    Items.rest ((t, g) :: is) = t.spell ++ (Gap.text g ++ Items.rest is) := by
  simp [Items.rest, Items.text]

/-- The bytes that no lexeme takes: the NUL, a blank, the start of a `#` comment. -/
def Ends (c : Byte) : Prop := c = 0 ∨ c = ch '#' ∨ ncIsspace c = true

theorem Ends.class {c : Byte} (h : Ends c) :
    isLabel c = false ∧ ncIsdigit c = false ∧ isMathop c = false ∧ c ≠ ch '.' := by
  have h' : c = 0 ∨ c = ch '#' ∨ c = ch '\r' ∨ c = ch '\n' ∨ c = ch '\t' ∨ c = ch ' ' := by
    simpa only [Ends, ncIsspace, Bool.or_eq_true, beq_iff_eq, or_assoc] using h
  rcases h' with rfl | rfl | rfl | rfl | rfl | rfl <;> decide

theorem Ends.not_takes {c : Byte} (h : Ends c) (t : Lexeme) : t.takes c = false := by
  obtain ⟨hlabel, hdigit, hmath, hdot⟩ := h.class
  have heq : (c == ch '=') = false := by
    rw [beq_eq_false_iff_ne]
    rintro rfl
    exact absurd hmath (by decide)
  cases t with
  | word => simp only [Lexeme.takes, hlabel, hdigit, Bool.or_self]
  | num => simp only [Lexeme.takes, hdigit, beq_eq_false_iff_ne.mpr hdot, Bool.or_self]
  | str => rfl
  | math row _ =>
      simp only [Lexeme.takes]
      split
      · split
        · exact heq
        · exact hmath
      · rw [heq, Bool.and_false]
      · rfl
  | punc => rfl

theorem mathops_head : ∀ row ∈ mathops, ∃ c p, row.name = c :: p ∧ c ≠ 0 ∧ ncIsspace c = false ∧
    c ≠ ch '#' ∧ (c = ch '/' → p = [] ∨ ∃ d q, p = d :: q ∧ d ≠ ch '/' ∧ d ≠ ch '*') := by
  intro row h
  have hslash : row.name.head? = some (ch '/') → row.name = [ch '/'] ∨ row.name = [ch '/', ch '='] := by
    revert row
    decide
  obtain ⟨c, p, hname⟩ : ∃ c p, row.name = c :: p := by
    cases hname : row.name with
    | nil => exact absurd ((mathops_shape row h).2.2) (by rw [hname]; decide)
    | cons c p => exact ⟨c, p, rfl⟩
  have hclass : c ≠ 0 ∧ ncIsspace c = false ∧ c ≠ ch '#' := by
    have : (row.name.head?.all fun c => c != 0 && (!ncIsspace c && c != ch '#')) = true := by
      clear hslash hname
      revert row
      decide
    rw [hname] at this
    simpa using this
  refine ⟨c, p, hname, hclass.1, hclass.2.1, hclass.2.2, ?_⟩
  rintro rfl
  rw [hname] at hslash
  rcases hslash rfl with heq | heq
  · exact .inl (List.cons.inj heq).2
  · exact .inr ⟨ch '=', [], (List.cons.inj heq).2, by decide, by decide⟩

/-- The first byte of a lexeme is no blank and starts no `#` comment; where it is a slash, the
lexeme is the slash or goes on so that no comment opens. -/
theorem Lexeme.spell_cons (t : Lexeme) : ∃ c p, t.spell = c :: p ∧ c ≠ 0 ∧ ncIsspace c = false ∧
    c ≠ ch '#' ∧ (c = ch '/' → p = [] ∨ ∃ d q, p = d :: q ∧ d ≠ ch '/' ∧ d ≠ ch '*') := by
  have other : ∀ {c : Byte}, isMathop c = false → c ≠ ch '/' := by
    rintro c h rfl
    exact absurd h (by decide)
  have plain : ∀ {c : Byte}, isData c = true ∨ isLabel c = true ∨ isPuncop c = true →
      c ≠ 0 ∧ ncIsspace c = false ∧ c ≠ ch '#' ∧ c ≠ ch '/' := by
    intro c h
    refine ⟨?_, ?_, ?_, ?_⟩
    · rintro rfl
      exact absurd h (by decide)
    · cases hsp : ncIsspace c with
      | false => rfl
      | true =>
          simp only [ncIsspace, Bool.or_eq_true, beq_iff_eq] at hsp
          rcases hsp with ((rfl | rfl) | rfl) | rfl <;> exact absurd h (by decide)
    · rintro rfl
      exact absurd h (by decide)
    · rintro rfl
      exact absurd h (by decide)
  cases t with
  | word c name h h' hlen =>
      obtain ⟨h0, h1, h2, h3⟩ := plain (.inr (.inl h))
      exact ⟨c, name, rfl, h0, h1, h2, fun h => absurd h h3⟩
  | num c text h h' =>
      obtain ⟨h0, h1, h2, h3⟩ := plain (.inl (digit_class h).2.1)
      exact ⟨c, text, rfl, h0, h1, h2, fun h => absurd h h3⟩
  | str q verbatim body h h' hlen =>
      cases verbatim with
      | true => exact ⟨ch '@', _, rfl, by decide, by decide, by decide, fun h => absurd h (by decide)⟩
      | false =>
          have hdata : isData q = true := by simp only [isData, h, Bool.or_true, Bool.true_or]
          obtain ⟨h0, h1, h2, h3⟩ := plain (.inl hdata)
          exact ⟨q, _, rfl, h0, h1, h2, fun h => absurd h h3⟩
  | math row h => exact mathops_head row h
  | punc c h =>
      obtain ⟨h0, h1, h2, h3⟩ := plain (.inr (.inr h))
      exact ⟨c, [], rfl, h0, h1, h2, fun h => absurd h h3⟩

theorem Lexeme.takes_slash {t : Lexeme} (h : t.spell = [ch '/']) {c : Byte} (hc : t.takes c = false) :
    c ≠ ch '/' ∧ c ≠ ch '*' := by
  cases t with
  | word c name h' _ _ =>
      obtain ⟨rfl, -⟩ := List.cons.inj h
      exact absurd h' (by decide)
  | num c text h' _ =>
      obtain ⟨rfl, -⟩ := List.cons.inj h
      exact absurd h' (by decide)
  | str q verbatim body h' _ _ =>
      cases verbatim with
      | true => exact absurd (List.cons.inj h).1 (by decide)
      | false =>
          obtain ⟨rfl, -⟩ := List.cons.inj h
          exact absurd h' (by decide)
  | math row _ =>
      have hname : row.name = [ch '/'] := h
      rw [Lexeme.takes, hname] at hc
      constructor <;> rintro rfl <;> exact absurd hc (by decide)
  | punc c h' =>
      obtain ⟨rfl, -⟩ := List.cons.inj h
      exact absurd h' (by decide)

/-- What stands behind a lexeme that took no slash: a byte it does not take either. -/
theorem Items.Apart.next {t : Lexeme} {g : Gap} {is : Items} (h : Items.Apart ((t, g) :: is))
    (hglue : glued t g = false) :
    ∃ d tail, Gap.text g ++ Items.rest is = d :: tail ∧ t.takes d = false := by
  cases g with
  | nil =>
      cases is with
      | nil => exact ⟨0, [], rfl, Ends.not_takes (.inl rfl) t⟩
      | cons i is =>
          obtain ⟨c, p, hc, -⟩ := i.1.spell_cons
          refine ⟨c, p ++ (Gap.text i.2 ++ Items.rest is), ?_, h.1 rfl c ?_⟩
          · show Items.rest ((i.1, i.2) :: is) = _
            rw [Items.rest_cons, hc]
            rfl
          · simp [Items.text, hc]
  | cons b g =>
      have hends : ∀ {c : Byte} {p : List Byte}, b.text = c :: p → Ends c →
          ∃ d tail, Gap.text (b :: g) ++ Items.rest is = d :: tail ∧ t.takes d = false := by
        intro c p hb hc
        exact ⟨c, p ++ (Gap.text g ++ Items.rest is), by simp [Gap.text, hb], hc.not_takes t⟩
      have hslash : ∀ {p : List Byte}, b.text = ch '/' :: p → b.slash = true →
          ∃ d tail, Gap.text (b :: g) ++ Items.rest is = d :: tail ∧ t.takes d = false := by
        intro p hb hs
        refine ⟨ch '/', p ++ (Gap.text g ++ Items.rest is), by simp [Gap.text, hb], ?_⟩
        simpa [glued, hs] using hglue
      cases b with
      | space c hc => exact hends rfl (.inr (.inr hc))
      | line hash text ht feed =>
          cases hash with
          | true => exact hends rfl (.inr (.inl rfl))
          | false => exact hslash rfl rfl
      | block text ht => exact hslash rfl rfl

/-- A run of `n_skipblank` stays in front of a lexeme. -/
theorem Items.Apart.solid {is : Items} (h : Items.Apart is) : Solid (Items.rest is) := by
  cases is with
  | nil => exact ⟨0, [], rfl, by decide, by decide, fun h => absurd h (by decide)⟩
  | cons i is =>
      obtain ⟨t, g⟩ := i
      obtain ⟨c, p, hc, -, hsp, hhash, hopen⟩ := t.spell_cons
      refine ⟨c, p ++ (Gap.text g ++ Items.rest is), by rw [Items.rest_cons, hc]; rfl, hsp, hhash, ?_⟩
      intro hcs
      rcases hopen hcs with rfl | ⟨d, q, rfl, hd⟩
      · have hspell : t.spell = [ch '/'] := by rw [hc, hcs]
        have hglue : glued t g = false := by
          rw [glued, h.2.1 hspell, Bool.and_false]
        obtain ⟨d, tail, hnext, hd⟩ := h.next hglue
        exact ⟨d, tail, hnext, Lexeme.takes_slash hspell hd⟩
      · exact ⟨d, q ++ (Gap.text g ++ Items.rest is), rfl, hd⟩

/-! ### One pass of the loop -/

theorem opNumdata_class : (opIsmath opNumdata || opIskey opNumdata || opIspunc opNumdata) = false := by
  decide

theorem quoteOp_class {q : Byte} : quoteOp q ≠ opUndefined ∧ quoteOp q ≠ opLabel ∧
    (opIsmath (quoteOp q) || opIskey (quoteOp q) || opIspunc (quoteOp q)) = false := by
  unfold quoteOp
  split <;> decide

/-- The branch of the operators, keywords and punctuation marks. -/
theorem decomposeBody_op {N : Scanner} {prev o : Byte} {name : List Byte} {s : Lex}
    (hund : o ≠ opUndefined) (hlab : o ≠ opLabel)
    (hclass : (opIsmath o || opIskey o || opIspunc o) = true) :
    decomposeBody N prev o name s =
      if opIskey o && prev == opPdot then
        match findop keywords name with
        | some _ => .ok (.next o (s.newobj (.op opLabel name)))
        | none => .ok (.next o s)
      else .ok (.next o (s.newobj (.op o (nGetsym o)))) := by
  rw [decomposeBody, if_neg hund, if_neg hlab, if_pos hclass]
  rfl

/-- The branches of the loop make the token of a lexeme and stop behind it. -/
theorem decomposeBody_lexeme {N : Scanner} {prev : Byte} (t : Lexeme) {name : List Byte} {s : Lex}
    {p : List Byte} (hp : t.isLiteral = true → ∃ d tail, p = d :: tail ∧ t.takes d = false)
    (hname : ∀ {c n h h' hlen}, t = .word c n h h' hlen → name = c :: n)
    (hs : s.rest = if t.isLiteral then t.spell ++ p else p) {i : Iter}
    (h : decomposeBody N prev t.op name s = .ok i) :
    ∃ s', i = .next t.prevop s' ∧ s'.rest = p ∧ s'.code = s.code ++ [t.tok prev] := by
  cases t with
  | word c n h₁ h₂ hlen =>
      rw [hname rfl] at h
      simp only [Lexeme.op] at h
      cases hk : findop keywords (c :: n) with
      | none =>
          rw [hk, Option.getD_none] at h
          have h' : Except.ok (.next opLabel (s.newobj (.op opLabel (c :: n)))) = Except.ok i := h
          rw [Except.ok.injEq] at h'
          subst h'
          refine ⟨s.newobj (.op opLabel (c :: n)), ?_, hs, ?_⟩
          · simp only [Lexeme.prevop, Lexeme.op, hk, Option.getD_none]
          · simp only [Lex.newobj, Lexeme.tok, hk]
      | some k =>
          obtain ⟨hund, hlab, hkey⟩ := findop_keywords hk
          have hclass : (opIsmath k || opIskey k || opIspunc k) = true := by
            simp only [hkey, Bool.or_true, Bool.true_or]
          rw [hk, Option.getD_some, decomposeBody_op hund hlab hclass] at h
          simp only [hkey, Bool.true_and, hk, beq_iff_eq] at h
          have hprev : (Lexeme.word c n h₁ h₂ hlen).prevop = k := by
            simp only [Lexeme.prevop, Lexeme.op, hk, Option.getD_some]
          rw [hprev]
          by_cases hdot : prev = opPdot
          · rw [if_pos hdot, Except.ok.injEq] at h
            refine ⟨s.newobj (.op opLabel (c :: n)), h.symm, hs, ?_⟩
            simp only [Lex.newobj, Lexeme.tok, hk, if_pos hdot]
          · rw [if_neg hdot, Except.ok.injEq] at h
            refine ⟨s.newobj (.op k (nGetsym k)), h.symm, hs, ?_⟩
            simp only [Lex.newobj, Lexeme.tok, hk, if_neg hdot]
  | num c text h₁ h₂ =>
      obtain ⟨d, tail, rfl, hd⟩ := hp rfl
      have hrest : s.rest = (c :: text) ++ d :: tail := hs
      obtain ⟨-, -, hq, hb, hat⟩ := digit_class h₁
      have hquote : isQuote c = false := by
        simp only [isQuote, Bool.or_eq_false_iff, beq_eq_false_iff_ne]
        exact ⟨⟨fun h => hq (.inl h), fun h => hq (.inr h)⟩, hb⟩
      have hlit : literalAt ((c :: text) ++ d :: tail) = none := by
        simp only [literalAt, List.cons_append, hquote, Bool.false_eq_true, if_false, hat, false_and]
      have htext : numberText ((c :: text) ++ d :: tail) = .ok (c :: text, d :: tail) := by
        refine numberText_digits ?_ hd tail
        intro b hb
        rcases List.mem_cons.mp hb with rfl | hb
        · rw [h₁, Bool.true_or]
        · exact h₂ b hb
      have hne : ¬ opNumdata = opUndefined ∧ ¬ opNumdata = opLabel := by decide
      simp only [Lexeme.op, decomposeBody, if_neg hne.1, if_neg hne.2, opNumdata_class,
        Bool.false_eq_true, if_false, hrest, hlit, htext] at h
      rw [List.cons_append, deref, ok_bind, if_pos h₁, ok_bind] at h
      cases h
      exact ⟨_, rfl, rfl, rfl⟩
  | str q verbatim body h₁ h₂ hlen =>
      obtain ⟨hund, hlab, hclass⟩ := quoteOp_class (q := q)
      have hrest : s.rest = (if verbatim then [ch '@'] else []) ++ q :: (body ++ q :: p) := by
        rw [hs]
        simp [Lexeme.isLiteral, Lexeme.spell]
      have hlit : literalAt s.rest = some verbatim := by
        rw [hrest]
        cases verbatim with
        | false =>
            show literalAt (q :: _) = _
            rw [literalAt, if_pos h₁]
        | true =>
            show literalAt (ch '@' :: q :: _) = _
            rw [literalAt, if_neg (by decide), if_pos ⟨rfl, h₁⟩]
      have htail : ∀ {s₁ : Lex}, s₁.rest = q :: (body ++ q :: p) → s₁.code = s.code →
          (do let q ← deref s₁.rest
              let r ← nExtractquote N verbatim s₁
              return Iter.next q (r.2.newobj (.op (quoteOp q) r.1)) : Except Fault Iter) = .ok i →
          ∃ s', i = .next q s' ∧ s'.rest = p ∧
            s'.code = s.code ++ [(Lexeme.str q verbatim body h₁ h₂ hlen).tok prev] := by
        intro s₁ hs₁ hcode h
        rw [hs₁, deref, ok_bind] at h
        obtain ⟨⟨text, s₂⟩, hext, h⟩ := bind_eq_ok.mp h
        cases h
        obtain ⟨rfl, hr⟩ := nExtractquote_str h₁ h₂ hlen hs₁ hext
        refine ⟨_, rfl, hr, ?_⟩
        show s₂.code ++ _ = _
        rw [nExtractquote_code hext, hcode]
        rfl
      simp only [Lexeme.op, decomposeBody, if_neg hund, if_neg hlab, hclass, Bool.false_eq_true,
        if_false, hlit] at h
      cases verbatim with
      | false => exact htail hrest rfl h
      | true =>
          refine @htail { s with rest := s.rest.tail } ?_ rfl h
          show s.rest.tail = _
          rw [hrest]
          rfl
  | math row h₁ =>
      obtain ⟨-, ⟨hund, hlab, hmath, hkey⟩, -⟩ := mathops_shape row h₁
      have hclass : (opIsmath row.value || opIskey row.value || opIspunc row.value) = true := by
        simp only [hmath, Bool.true_or]
      rw [Lexeme.op, decomposeBody_op hund hlab hclass, hkey, Bool.false_and, if_neg Bool.false_ne_true,
        Except.ok.injEq] at h
      exact ⟨_, h.symm, hs, rfl⟩
  | punc c h₁ =>
      obtain ⟨-, -, -, o, ho, hund, hlab, hpunc, hkey⟩ := isPuncop_class h₁
      have hop : (Lexeme.punc c h₁).op = o := by
        simp only [Lexeme.op, ho, Option.getD_some]
      have hclass : (opIsmath o || opIskey o || opIspunc o) = true := by
        simp only [hpunc, Bool.or_true]
      rw [hop, decomposeBody_op hund hlab hclass, hkey, Bool.false_and, if_neg Bool.false_ne_true,
        Except.ok.injEq] at h
      refine ⟨s.newobj (.op o (nGetsym o)), ?_, hs, ?_⟩
      · rw [← h, Lexeme.prevop, hop]
        exact fun _ _ _ _ _ _ h => by cases h
      · rw [Lexeme.tok, hop]
        rfl

/-- One pass of the loop in front of a lexeme reads it, with what of the gaps around it the two
runs of `n_skipblank` skip. -/
theorem decomposeIter_lexeme {N : Scanner} {prev : Byte} {t : Lexeme} {g₀ g : Gap} {is : Items}
    (hap : Items.Apart ((t, g) :: is)) (hglue : glued t g = false) (hrun : g₀.run.2 = []) {s : Lex}
    (hs : s.rest = Gap.text g₀ ++ Items.rest ((t, g) :: is)) {i : Iter}
    (h : decomposeIter N prev s = .ok i) :
    ∃ s' ls, i = .next t.prevop s' ∧
      s'.rest = Gap.text (if t.isLiteral then g else g.run.2) ++ Items.rest is ∧
      s'.code = s.code ++ (markers ls ++ [t.tok prev]) ∧
      (ls ≠ [] ↔ (Gap.feeds g₀.run.1 || (!t.isLiteral && Gap.feeds g.run.1)) = true) := by
  obtain ⟨d, tail, hnext, hd⟩ := hap.next hglue
  obtain ⟨s₁, ls₁, hskip, hr₁, hc₁, hf₁⟩ := nSkipblank_gap g₀ hap.solid hs
  obtain ⟨name, hgetop, hname⟩ := nGetop_lexeme t hd tail
  have hr₁' : s₁.rest = t.spell ++ d :: tail := by
    rw [hr₁, hrun, Items.rest_cons, hnext]
    rfl
  obtain ⟨⟨o, name', s₂⟩, hhead, h⟩ := bind_eq_ok.mp h
  rw [decomposeHead, hskip, ok_bind, hr₁', hgetop, ok_bind] at hhead
  dsimp only at hhead h
  -- the second run moves only behind a lexeme that is no literal
  cases hlit : t.isLiteral with
  | true =>
      have hsolid : Solid (t.spell ++ d :: tail) := by
        have := hap.solid
        rwa [Items.rest_cons, hnext] at this
      have hstay : nSkipblank { s₁ with rest := t.spell ++ d :: tail } =
          .ok { s₁ with rest := t.spell ++ d :: tail } := nSkipblank_solid hsolid
      rw [hlit, if_pos rfl, hstay, ok_bind] at hhead
      cases hhead
      obtain ⟨s', hi, hr, hc⟩ := decomposeBody_lexeme t (fun _ => ⟨d, tail, rfl, hd⟩) hname (by rw [hlit]; rfl) h
      refine ⟨s', ls₁, hi, ?_, ?_, ?_⟩
      · rw [hr, ← hnext]
        rfl
      · rw [hc]
        show s₁.code ++ _ = _
        rw [hc₁, List.append_assoc]
      · rw [hf₁, Bool.not_true, Bool.false_and, Bool.or_false]
  | false =>
      have hnext' : ({ s₁ with rest := d :: tail } : Lex).rest = Gap.text g ++ Items.rest is := hnext.symm
      obtain ⟨s₃, ls₂, hskip₂, hr₂, hc₂, hf₂⟩ := nSkipblank_gap g hap.2.2.solid hnext'
      rw [hlit, if_neg Bool.false_ne_true, hskip₂, ok_bind] at hhead
      cases hhead
      obtain ⟨s', hi, hr, hc⟩ := decomposeBody_lexeme t (fun hl => by rw [hlit] at hl; cases hl) hname
        (p := s₂.rest) (by rw [hlit, if_neg Bool.false_ne_true]) h
      refine ⟨s', ls₁ ++ ls₂, hi, ?_, ?_, ?_⟩
      · exact hr.trans hr₂
      · rw [hc, hc₂]
        show s₁.code ++ _ ++ _ = _
        rw [hc₁, markers_append]
        simp only [List.append_assoc]
      · rw [Bool.not_false, Bool.true_and, Bool.or_eq_true, ← hf₁, ← hf₂, ne_eq, List.append_eq_nil_iff, not_and_or]

/-- The texts at which `n_getop` finds no op. -/
def Dead (p : List Byte) : Prop := ∃ name q, nGetop p = .ok (opUndefined, name, q)

theorem dead_end : Dead [0] := ⟨[], [0], rfl⟩

theorem dead_comment {b : Blank} (hb : ∀ c h, b ≠ .space c h) (p : List Byte) : Dead (b.text ++ p) := by
  cases b with
  | space c h => exact absurd rfl (hb c h)
  | line hash text h feed =>
      cases hash with
      | true => exact ⟨[], _, rfl⟩
      | false => exact ⟨[ch '/', ch '/'], _, rfl⟩
  | block text h => exact ⟨[ch '/', ch '*'], _, rfl⟩

/-- No operator ends in a slash that another operator byte stands before. -/
theorem mathops_slash : ∀ row ∈ mathops, row.name.length = 1 → row.name ≠ [ch '='] →
    findop mathops (row.name ++ [ch '/']) = none := by
  decide

theorem dead_glued {t : Lexeme} (h : t.takes (ch '/') = true) (p : List Byte) :
    Dead (t.spell ++ ch '/' :: p) := by
  cases t with
  | word c name h₁ h₂ hlen => exact absurd h (by rw [Lexeme.takes]; decide)
  | num c text h₁ h₂ => exact absurd h (by rw [Lexeme.takes]; decide)
  | str => cases h
  | punc => cases h
  | math row hrow =>
      obtain ⟨-, -, hshape⟩ := mathops_shape row hrow
      have hslash := mathops_slash row hrow
      simp only [Lexeme.takes] at h
      simp only [Lexeme.spell]
      generalize row.name = name at *
      split at h
      · rename_i a
        have ha : isMathop a = true := hshape
        by_cases heq : a = ch '='
        · rw [if_pos heq] at h
          exact absurd h (by decide)
        · obtain ⟨hhigh, hdata, hlabel, hpunc⟩ := isMathop_class ha
          have hfind := hslash rfl (by simpa using heq)
          have hname : mathName (a :: ch '/' :: p) = .ok ([a, ch '/'], p) := by
            rw [mathName, deref, ok_bind, if_pos (by decide), if_neg heq]
            rfl
          refine ⟨[a, ch '/'], p, ?_⟩
          have hfind' : findop mathops [a, ch '/'] = none := hfind
          simp only [List.cons_append, List.nil_append, nGetop, if_neg hhigh, hdata, hlabel, hpunc, ha,
            Bool.false_eq_true, if_false, if_true, hname, ok_bind, hfind', Option.getD_none, pure_eq_ok]
      · rename_i a b
        exact absurd h (by rw [Bool.and_eq_true]; rintro ⟨-, h⟩; exact absurd h (by decide))
      · cases h

/-- A pass of the loop that finds no op adds line markers at most. -/
theorem decomposeIter_dead {N : Scanner} {prev : Byte} {s s₁ : Lex} (hskip : nSkipblank s = .ok s₁)
    (hdead : Dead s₁.rest) {i : Iter} (h : decomposeIter N prev s = .ok i) :
    ∃ s' ls, i = .stop s' ∧ s'.code = s₁.code ++ markers ls := by
  obtain ⟨name, q, hgetop⟩ := hdead
  obtain ⟨⟨o, name', s₂⟩, hhead, h⟩ := bind_eq_ok.mp h
  rw [decomposeHead, hskip, ok_bind, hgetop, ok_bind] at hhead
  obtain ⟨s₃, hskip', hhead⟩ := bind_eq_ok.mp hhead
  cases hhead
  dsimp only at h
  rw [decomposeBody, if_pos rfl] at h
  obtain ⟨s', hwarn, h⟩ := bind_eq_ok.mp h
  cases h
  obtain ⟨ls, hls⟩ := nSkipblank_markers hskip'
  exact ⟨s', ls, rfl, (nWarn_code hwarn).trans hls⟩

/-! ### The whole loop -/

/-- The token table of the lexemes that are read behind `prev`: each with its line markers before
it, of which there are some where `m` or the lexeme says so; and markers at the end. -/
inductive Table : Byte → Bool → List Read → List Tok → Prop
  | nil {prev m} (ls : List Nat) : Table prev m [] (markers ls)
  | cons {prev m r rs ts} {ls : List Nat} (h : ls ≠ [] ↔ (m || r.before) = true)
      (hs : Table r.lexeme.prevop r.after rs ts) :
      Table prev m (r :: rs) (markers ls ++ r.lexeme.tok prev :: ts)

/-- What is read of the items behind a gap. -/
def Items.readFrom (g₀ : Gap) (is : Items) : List Read :=
  if g₀.run.2.isEmpty then Items.read is else []

/-- Nothing is read where a pass of the loop finds no op. -/
theorem decomposeLoop_dead {N : Scanner} {fuel : Nat} {prev : Byte} {g₀ : Gap} {is : Items}
    (hap : Items.Apart is) {s s' : Lex} (hs : s.rest = Gap.text g₀ ++ Items.rest is)
    (hdead : Dead (Gap.text g₀.run.2 ++ Items.rest is)) (m : Bool)
    (h : decomposeLoop N fuel prev s = .ok s') :
    ∃ ts, s'.code = s.code ++ ts ∧ Table prev m [] ts := by
  cases fuel with
  | zero => cases h
  | succ fuel =>
      obtain ⟨b, -, h⟩ := bind_eq_ok.mp h
      split at h
      · cases h
        exact ⟨[], (List.append_nil _).symm, .nil []⟩
      · obtain ⟨i, hi, h⟩ := bind_eq_ok.mp h
        obtain ⟨s₁, ls₁, hskip, hr₁, hc₁, -⟩ := nSkipblank_gap g₀ hap.solid hs
        rw [← hr₁] at hdead
        obtain ⟨s₂, ls₂, rfl, hc₂⟩ := decomposeIter_dead hskip hdead hi
        cases h
        exact ⟨markers (ls₁ ++ ls₂), by rw [hc₂, hc₁, List.append_assoc, markers_append], .nil _⟩

/-- A gap that is not skipped whole leaves a comment. -/
theorem dead_gap {g : Gap} (h : g.run.2 ≠ []) (p : List Byte) : Dead (Gap.text g.run.2 ++ p) := by
  rcases g.run_rest with hrun | ⟨b, g', hrun, hb⟩
  · exact absurd hrun h
  · have htext : Gap.text (b :: g') ++ p = b.text ++ (Gap.text g' ++ p) := by simp [Gap.text]
    rw [hrun, htext]
    exact dead_comment hb _

theorem Items.readFrom_of_ne {g : Gap} (h : g.run.2 ≠ []) (is : Items) : Items.readFrom g is = [] := by
  rw [Items.readFrom, if_neg (by simpa using h)]

theorem Items.rest_ne_zero (g₀ : Gap) (t : Lexeme) (g : Gap) (is : Items) :
    ∃ c p, Gap.text g₀ ++ Items.rest ((t, g) :: is) = c :: p ∧ c ≠ 0 := by
  cases g₀ with
  | nil =>
      obtain ⟨c, p, hc, h0, -⟩ := t.spell_cons
      exact ⟨c, p ++ (Gap.text g ++ Items.rest is), by rw [Items.rest_cons, hc]; rfl, h0⟩
  | cons b g₀ =>
      have hs : (Lex.start (b.text ++ (Gap.text g₀ ++ Items.text ((t, g) :: is))) 0).rest =
          b.text ++ (Gap.text g₀ ++ Items.rest ((t, g) :: is)) := by
        simp [Lex.start, Items.rest]
      obtain ⟨c, p, hc, h0⟩ := (skipOpen_blank b hs).1
      refine ⟨c, p, ?_, h0⟩
      rw [← hc, hs]
      simp [Gap.text]

/-- The loop reads the items behind a gap. -/
theorem decomposeLoop_items {N : Scanner} {fuel : Nat} {prev : Byte} {g₀ : Gap} {is : Items}
    (hap : Items.Apart is) {s s' : Lex} (hs : s.rest = Gap.text g₀ ++ Items.rest is)
    (h : decomposeLoop N fuel prev s = .ok s') :
    ∃ ts, s'.code = s.code ++ ts ∧ Table prev (Gap.feeds g₀.run.1) (Items.readFrom g₀ is) ts := by
  induction is generalizing fuel prev g₀ s with
  | nil =>
      have hread : Items.readFrom g₀ [] = [] := by
        unfold Items.readFrom
        split <;> rfl
      rw [hread]
      refine decomposeLoop_dead hap hs ?_ _ h
      by_cases hrun : g₀.run.2 = []
      · rw [hrun]
        exact dead_end
      · exact dead_gap hrun _
  | cons j is ih =>
      obtain ⟨t, g⟩ := j
      by_cases hrun : g₀.run.2 = []
      · have hfrom : Items.readFrom g₀ ((t, g) :: is) = Items.read ((t, g) :: is) := by
          rw [Items.readFrom, hrun]
          rfl
        rw [hfrom]
        cases hglue : glued t g with
        | true =>
            rw [Items.read, if_pos hglue]
            refine decomposeLoop_dead hap hs ?_ _ h
            obtain ⟨htakes, hslash⟩ := Bool.and_eq_true_iff.mp hglue
            obtain ⟨p, hp⟩ : ∃ p, Gap.text g = ch '/' :: p := by
              cases g with
              | nil => cases hslash
              | cons b g =>
                  cases b with
                  | space => cases hslash
                  | line hash text ht feed =>
                      cases hash with
                      | true => cases hslash
                      | false => exact ⟨_, rfl⟩
                  | block text ht => exact ⟨_, rfl⟩
            rw [hrun, Items.rest_cons, hp]
            exact dead_glued htakes _
        | false =>
            have hread : Items.read ((t, g) :: is) =
                ⟨t, !t.isLiteral && Gap.feeds g.run.1,
                  Gap.feeds (if t.isLiteral then g else g.run.2).run.1⟩ ::
                    Items.readFrom (if t.isLiteral then g else g.run.2) is := by
              rw [Items.read, if_neg (by rw [hglue]; decide)]
              cases t.isLiteral <;> rfl
            rw [hread]
            cases fuel with
            | zero => cases h
            | succ fuel =>
                obtain ⟨b, hb, h⟩ := bind_eq_ok.mp h
                split at h
                · -- the text does not end here
                  rename_i hb0
                  obtain ⟨c, p, hc, hc0⟩ := Items.rest_ne_zero g₀ t g is
                  rw [hs, hc] at hb
                  cases hb
                  exact absurd hb0 hc0
                · obtain ⟨i, hi, h⟩ := bind_eq_ok.mp h
                  obtain ⟨s₁, ls, rfl, hr₁, hc₁, hf₁⟩ := decomposeIter_lexeme hap hglue hrun hs hi
                  obtain ⟨ts, hc, htab⟩ := ih hap.2.2 hr₁ h
                  refine ⟨markers ls ++ t.tok prev :: ts, ?_, .cons hf₁ htab⟩
                  rw [hc, hc₁]
                  simp only [List.append_assoc, List.cons_append, List.nil_append]
      · rw [Items.readFrom_of_ne hrun]
        exact decomposeLoop_dead hap hs (dead_gap hrun _) _ h

/-- The token table of a layout. -/
theorem nDecomposeSub_layout {N : Scanner} (L : Layout) {warnings : Int} {s : Lex}
    (h : nDecomposeSub N (Lex.start L.text warnings) = .ok s) :
    Table 0 (Gap.feeds L.lead.run.1) L.read s.code := by
  have hs : (Lex.start L.text warnings).rest = Gap.text L.lead ++ Items.rest L.items := by
    show (Gap.text L.lead ++ Items.text L.items) ++ [0] = _
    rw [List.append_assoc]
    rfl
  obtain ⟨ts, hc, htab⟩ := decomposeLoop_items L.apart hs h
  rw [hc]
  exact htab

end NullG.Nsp
