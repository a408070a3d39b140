/-
The tokenizer on a layout (`n_skipblank`, `n_getop`, `n_decompose_sub`).

* `nSkipblank_gap` — one run of `n_skipblank` skips the first part of a gap;
* `nGetop_lexeme`, `decomposeIter_lexeme` — one pass of the loop reads one lexeme;
* `decomposeLoop_items` — the whole loop reads what `Items.read` says, and the token
  table is the one that `Table` describes.
-/

import NullG.Nsp.Layout
import NullG.Nsp.ScannerTokens

namespace NullG.Nsp

open NullG.Lib

/-! ### Gaps -/

theorem skipLine_text {p : List Byte} (h : LineText p) {e : Byte} (he : e = ch '\n' ∨ e = ch '\r')
    (q : List Byte) : skipLine (p ++ e :: q) = .ok (e :: q) := by
  induction p with
  | nil => exact if_pos (.inr he)
  | cons b p ih =>
      obtain ⟨h0, hnl, hcr⟩ := h b List.mem_cons_self
      have hstop : ¬ (b = 0 ∨ b = ch '\n' ∨ b = ch '\r') := by simp only [h0, hnl, hcr, or_self, not_false_eq_true]
      rw [List.cons_append, skipLine, if_neg hstop]
      exact ih fun b' hb' => h b' (List.mem_cons_of_mem _ hb')

theorem skipComment_text {p : List Byte} (h : BlockText p) (q : List Byte) (n : Nat) :
    ∃ n', skipComment (p ++ ch '*' :: ch '/' :: q) n = .ok (q, n') := by
  induction p generalizing n with
  | nil => exact ⟨n, by simp +decide [skipComment]⟩
  | cons b p ih =>
      obtain ⟨h0, hclose, hp⟩ := h
      rw [List.cons_append]
      by_cases hnl : b = ch '\n'
      · obtain ⟨n', eq⟩ := ih hp (n + 1)
        exact ⟨n', by simp only [skipComment.eq_def (b :: _), if_neg h0, if_pos hnl, eq]⟩
      · obtain ⟨n', eq⟩ := ih hp n
        refine ⟨n', ?_⟩
        by_cases hstar : b = ch '*'
        · -- the byte behind the star is not a slash
          have hne : ∀ c r, p ++ ch '*' :: ch '/' :: q = c :: r → c ≠ ch '/' := by
            intro c r heq
            cases p with
            | nil =>
                obtain ⟨rfl, -⟩ := List.cons.inj heq
                decide
            | cons d p =>
                obtain ⟨rfl, -⟩ := List.cons.inj heq
                exact fun hd => hclose ⟨hstar, congrArg some hd⟩
          cases hr : p ++ ch '*' :: ch '/' :: q with
          | nil => cases p <;> cases hr
          | cons c r =>
              rw [hr] at eq
              simp only [skipComment.eq_def (b :: _), if_neg h0, if_neg hnl, if_pos hstar,
                if_neg (hne c r hr), eq]
        · simp only [skipComment.eq_def (b :: _), if_neg h0, if_neg hnl, if_neg hstar, eq]

/-- Line markers. -/
def markers (ls : List Nat) : List Tok := ls.map .linenum

theorem Lex.newline_code {s : Lex} {b : Byte} {r : List Byte} (h : s.rest = b :: r) :
    ∃ ls, s.newline.code = s.code ++ markers ls ∧ (ls ≠ [] ↔ b = ch '\n') := by
  unfold Lex.newline
  by_cases hb : b = ch '\n'
  · rw [if_pos (by rw [h, hb]; rfl)]
    exact ⟨[s.lineno + 1], rfl, by simp [hb]⟩
  · rw [if_neg (by rw [h]; simpa using hb)]
    exact ⟨[], (List.append_nil _).symm, by simp [hb]⟩

/-- A round of `n_skipblank` behind which a byte `b` stands. -/
theorem skipblankLoop_round {fuel : Nat} {s s₁ : Lex} {c b : Byte} {p r : List Byte}
    (hs : s.rest = c :: p) (hc : c ≠ 0) (hopen : skipOpen s = .ok s₁) (hr : s₁.rest = b :: r) :
    skipblankLoop (fuel + 1) s =
      if ncIsspace b then skipblankLoop fuel { s₁.newline with rest := r } else .ok s₁.newline := by
  simp only [skipblankLoop, hs, deref, ok_bind, if_neg hc, hopen, Lex.newline_rest, hr, List.tail_cons]
  rfl

/-- What the first part of a round leaves of a blank: the blank itself, or the line end of a
line comment. -/
def Blank.left : Blank → List Byte
  | .space b _ => [b]
  | .line _ _ _ feed => [if feed then ch '\n' else ch '\r']
  | .block _ _ => []

/-- The first part of a round of `n_skipblank`. -/
theorem skipOpen_blank (i : Blank) {s : Lex} {r : List Byte} (hs : s.rest = i.text ++ r) :
    (∃ c p, s.rest = c :: p ∧ c ≠ 0) ∧
      ∃ s₁, skipOpen s = .ok s₁ ∧ s₁.code = s.code ∧ s₁.rest = i.left ++ r := by
  cases i with
  | space b h =>
      have hb : b ≠ 0 ∧ b ≠ ch '#' ∧ b ≠ ch '/' := by
        refine ⟨?_, ?_, ?_⟩ <;> rintro rfl <;> exact absurd h (by decide)
      have hs' : s.rest = b :: r := hs
      refine ⟨⟨b, r, hs', hb.1⟩, s, ?_, rfl, hs'⟩
      simp only [skipOpen, hs', if_neg hb.2.1, if_neg hb.2.2, pure_eq_ok]
  | line hash text h feed =>
      have he : (if feed then ch '\n' else ch '\r') = ch '\n' ∨
          (if feed then ch '\n' else ch '\r') = ch '\r' := by
        cases feed
        · exact .inr rfl
        · exact .inl rfl
      have hline := skipLine_text h he r
      cases hash with
      | true =>
          have hs' : s.rest = ch '#' :: (text ++ (if feed then ch '\n' else ch '\r') :: r) := by
            rw [hs]
            simp [Blank.text]
          refine ⟨⟨_, _, hs', by decide⟩, { s with rest := (if feed then ch '\n' else ch '\r') :: r }, ?_, rfl, rfl⟩
          simp only [skipOpen, hs', if_true, hline, ok_bind, pure_eq_ok]
      | false =>
          have hs' : s.rest = ch '/' :: ch '/' :: (text ++ (if feed then ch '\n' else ch '\r') :: r) := by
            rw [hs]
            simp [Blank.text]
          refine ⟨⟨_, _, hs', by decide⟩, { s with rest := (if feed then ch '\n' else ch '\r') :: r }, ?_, rfl, rfl⟩
          simp +decide only [skipOpen, hs', if_true, if_false, deref, List.tail_cons, hline, ok_bind, pure_eq_ok]
  | block text h =>
      have hs' : s.rest = ch '/' :: ch '*' :: (text ++ ch '*' :: ch '/' :: r) := by
        rw [hs]
        simp [Blank.text]
      obtain ⟨n, hn⟩ := skipComment_text h r s.lineno
      refine ⟨⟨_, _, hs', by decide⟩, { s with rest := r, lineno := n }, ?_, rfl, rfl⟩
      simp +decide only [skipOpen, hs', if_true, if_false, deref, List.tail_cons, hn, ok_bind, pure_eq_ok]

/-- The first byte of a comment is no blank. -/
theorem Blank.text_head (i : Blank) (hi : ∀ b h, i ≠ .space b h) :
    ∃ b t, i.text = b :: t ∧ ncIsspace b = false := by
  cases i with
  | space b h => exact absurd rfl (hi b h)
  | line hash text h feed =>
      cases hash with
      | true => exact ⟨_, _, rfl, by decide⟩
      | false => exact ⟨_, _, rfl, by decide⟩
  | block text h => exact ⟨_, _, rfl, by decide⟩

/-- Gaps that one run of `n_skipblank` does not skip go on with a comment. -/
theorem Gap.run_rest (g : Gap) : g.run.2 = [] ∨ ∃ i g', g.run.2 = i :: g' ∧ ∀ b h, i ≠ .space b h := by
  induction g using Gap.run.induct with
  | case1 => exact .inl rfl
  | case2 t h b h' g ih => simpa only [Gap.run] using ih
  | case3 t h g hne =>
      cases g with
      | nil => exact .inl rfl
      | cons i g =>
          refine .inr ⟨i, g, by cases i <;> first | rfl | exact absurd rfl (hne _ _ _), ?_⟩
          rintro b h rfl
          exact hne b h g rfl
  | case4 i g hpair hblock ih =>
      rw [Gap.run.eq_4 i g hpair hblock]
      exact ih

theorem markers_append (ls ls' : List Nat) : markers (ls ++ ls') = markers ls ++ markers ls' :=
  List.map_append

/-- One run of `n_skipblank` in front of a lexeme: it skips the first part of the gap, and makes
a line marker for each line feed in it. -/
theorem skipblankLoop_gap (g : Gap) {tail : List Byte} (ht : Solid tail) {s : Lex} {fuel : Nat}
    (hs : s.rest = g.text ++ tail) (hfuel : s.rest.length < fuel) :
    ∃ s' ls, skipblankLoop fuel s = .ok s' ∧ s'.rest = Gap.text g.run.2 ++ tail ∧
      s'.code = s.code ++ markers ls ∧ (ls ≠ [] ↔ Gap.feeds g.run.1 = true) := by
  obtain ⟨fuel, rfl⟩ : ∃ k, fuel = k + 1 := ⟨fuel - 1, by omega⟩
  induction g using Gap.run.induct generalizing s fuel with
  | case1 =>
      have hsolid : Solid s.rest := by
        rw [hs]
        exact ht
      exact ⟨s, [], skipblankLoop_solid hsolid fuel, hs, (List.append_nil _).symm, by simp [Gap.run, Gap.feeds]⟩
  | case2 t h b h' g ih =>
      have hs' : s.rest = (Blank.block t h).text ++ (b :: (Gap.text g ++ tail)) := by
        rw [hs]
        simp [Gap.text, Blank.text]
      obtain ⟨⟨c, p, hc, hc0⟩, s₁, hopen, hcode, hrest⟩ := skipOpen_blank (.block t h) hs'
      have hrest' : s₁.rest = b :: (Gap.text g ++ tail) := hrest
      obtain ⟨ls, hls, hfeed⟩ := Lex.newline_code hrest'
      have hlen : (Gap.text g ++ tail).length < fuel := by
        rw [hs', List.length_append, List.length_cons] at hfuel
        omega
      obtain ⟨fuel, rfl⟩ : ∃ k, fuel = k + 1 := ⟨fuel - 1, by omega⟩
      obtain ⟨s', ls', eq, hr, hcode', hfeed'⟩ :=
        @ih { s₁.newline with rest := Gap.text g ++ tail } rfl fuel hlen
      refine ⟨s', ls ++ ls', ?_, hr, ?_, ?_⟩
      · rw [skipblankLoop_round hc hc0 hopen hrest', if_pos h', eq]
      · rw [hcode']
        show s₁.newline.code ++ markers ls' = _
        rw [hls, hcode, markers_append, List.append_assoc]
      · simp only [ne_eq, List.append_eq_nil_iff, not_and_or, Gap.run, Gap.feeds, List.any_cons,
          Blank.feeds, Bool.false_or, Bool.or_eq_true, beq_iff_eq]
        exact or_congr hfeed hfeed'
  | case3 t h g hne =>
      have hs' : s.rest = (Blank.block t h).text ++ (Gap.text g ++ tail) := by
        rw [hs]
        simp [Gap.text]
      obtain ⟨⟨c, p, hc, hc0⟩, s₁, hopen, hcode, hrest⟩ := skipOpen_blank (.block t h) hs'
      -- what follows the comment is a lexeme, the end, or another comment
      obtain ⟨b, r, hbr, hb⟩ : ∃ b r, Gap.text g ++ tail = b :: r ∧ ncIsspace b = false := by
        cases g with
        | nil =>
            obtain ⟨b, r, hbr, hb, -⟩ := ht
            exact ⟨b, r, hbr, hb⟩
        | cons i g =>
            obtain ⟨b, r, hbr, hb⟩ := i.text_head (by rintro b h rfl; exact hne b h g rfl)
            exact ⟨b, r ++ (Gap.text g ++ tail), by simp [Gap.text, hbr], hb⟩
      have hrest' : s₁.rest = b :: r := by
        rw [hrest]
        exact hbr
      obtain ⟨ls, hls, hfeed⟩ := Lex.newline_code hrest'
      have hnl : ls = [] := by
        by_contra hls'
        rw [hfeed.mp hls'] at hb
        exact absurd hb (by decide)
      subst hnl
      refine ⟨s₁.newline, [], ?_, ?_, ?_, ?_⟩
      · rw [skipblankLoop_round hc hc0 hopen hrest', if_neg (by rw [hb]; decide)]
      · rw [Gap.run.eq_3 t h g hne, Lex.newline_rest, hrest]
        rfl
      · rw [hls, hcode]
      · rw [Gap.run.eq_3 t h g hne]
        simp [Gap.feeds, Blank.feeds]
  | case4 i g hpair hblock ih =>
      have hs' : s.rest = i.text ++ (Gap.text g ++ tail) := by
        rw [hs]
        simp [Gap.text]
      obtain ⟨⟨c, p, hc, hc0⟩, s₁, hopen, hcode, hrest⟩ := skipOpen_blank i hs'
      obtain ⟨b, hleft, hb, hbfeed⟩ : ∃ b, i.left = [b] ∧ ncIsspace b = true ∧
          (b = ch '\n' ↔ i.feeds = true) := by
        cases i with
        | space b h => exact ⟨b, rfl, h, by simp [Blank.feeds]⟩
        | line hash text h feed =>
            refine ⟨_, rfl, ?_, ?_⟩
            · cases feed <;> decide
            · cases feed <;> simp +decide [Blank.feeds]
        | block t h => exact absurd rfl (hblock t h)
      rw [hleft] at hrest
      obtain ⟨ls, hls, hfeed⟩ := Lex.newline_code hrest
      have hlen : (Gap.text g ++ tail).length < fuel := by
        have : 0 < i.text.length := by
          rw [hs'] at hc
          cases hi : i.text with
          | nil => cases i <;> simp [Blank.text] at hi
          | cons d t => exact Nat.succ_pos _
        rw [hs', List.length_append] at hfuel
        omega
      obtain ⟨fuel, rfl⟩ : ∃ k, fuel = k + 1 := ⟨fuel - 1, by omega⟩
      obtain ⟨s', ls', eq, hr, hcode', hfeed'⟩ :=
        @ih { s₁.newline with rest := Gap.text g ++ tail } rfl fuel hlen
      refine ⟨s', ls ++ ls', ?_, ?_, ?_, ?_⟩
      · rw [skipblankLoop_round hc hc0 hopen hrest, if_pos hb]
        exact eq
      · rw [Gap.run.eq_4 i g hpair hblock]
        exact hr
      · rw [hcode']
        show s₁.newline.code ++ markers ls' = _
        rw [hls, hcode, markers_append, List.append_assoc]
      · rw [Gap.run.eq_4 i g hpair hblock]
        simp only [ne_eq, List.append_eq_nil_iff, not_and_or, Gap.feeds, List.any_cons, Bool.or_eq_true]
        exact or_congr (hfeed.trans hbfeed) hfeed'

theorem nSkipblank_gap (g : Gap) {tail : List Byte} (ht : Solid tail) {s : Lex}
    (hs : s.rest = g.text ++ tail) :
    ∃ s' ls, nSkipblank s = .ok s' ∧ s'.rest = Gap.text g.run.2 ++ tail ∧
      s'.code = s.code ++ markers ls ∧ (ls ≠ [] ↔ Gap.feeds g.run.1 = true) :=
  skipblankLoop_gap g ht hs (Nat.lt_succ_self _)

/-- Whatever it skips, `n_skipblank` adds line markers only. -/
theorem nSkipblank_markers {s s' : Lex} (h : nSkipblank s = .ok s') :
    ∃ ls, s'.code = s.code ++ markers ls := by
  have go : ∀ {fuel : Nat} {s : Lex}, skipblankLoop fuel s = .ok s' →
      ∃ ls, s'.code = s.code ++ markers ls := by
    intro fuel
    induction fuel with
    | zero => intro s h; cases h
    | succ fuel ih =>
        intro s h
        obtain ⟨b, -, h⟩ := bind_eq_ok.mp h
        split at h
        · cases h
          exact ⟨[], (List.append_nil _).symm⟩
        · obtain ⟨s₁, h₁, h⟩ := bind_eq_ok.mp h
          have hcode := skipOpen_code h₁
          obtain ⟨b', hb', h⟩ := bind_eq_ok.mp h
          obtain ⟨c, r, hr⟩ : ∃ c r, s₁.rest = c :: r := by
            rw [Lex.newline_rest] at hb'
            cases hr : s₁.rest with
            | nil => rw [hr] at hb'; cases hb'
            | cons c r => exact ⟨c, r, rfl⟩
          obtain ⟨ls, hls, -⟩ := Lex.newline_code hr
          rw [hcode] at hls
          split at h
          · obtain ⟨ls', hls'⟩ := ih h
            refine ⟨ls ++ ls', ?_⟩
            rw [hls', markers_append, ← List.append_assoc, ← hls]
          · cases h
            exact ⟨ls, hls⟩
  exact go h

/-! ### Lexemes -/

theorem isLabel_class {c : Byte} (h : isLabel c = true) : ¬ c > 127 ∧ isData c = false := by
  simp only [isLabel, ncIsalpha, Bool.or_eq_true, Bool.and_eq_true, beq_iff_eq, decide_eq_true_eq] at h
  simp only [isData, isQuote, ncIsdigit]
  have h1 : ch 'A' = 65 := rfl
  have h2 : ch 'Z' = 90 := rfl
  have h3 : ch 'a' = 97 := rfl
  have h4 : ch 'z' = 122 := rfl
  have h5 : ch '_' = 95 := rfl
  have h6 : ch '$' = 36 := rfl
  have h7 : ch '@' = 64 := rfl
  have h8 : ch '\'' = 39 := rfl
  have h9 : ch '"' = 34 := rfl
  have h10 : ch '0' = 48 := rfl
  have h11 : ch '9' = 57 := rfl
  grind

theorem isMathop_class {c : Byte} (h : isMathop c = true) :
    ¬ c > 127 ∧ isData c = false ∧ isLabel c = false ∧ isPuncop c = false := by
  simp only [isMathop, Bool.or_eq_true, beq_iff_eq] at h
  rcases h with ((((((((((((rfl | rfl) | rfl) | rfl) | rfl) | rfl) | rfl) | rfl) | rfl) | rfl) | rfl) | rfl) | rfl) | rfl <;>
    decide

theorem isPuncop_class {c : Byte} (h : isPuncop c = true) :
    ¬ c > 127 ∧ isData c = false ∧ isLabel c = false ∧
      ∃ o, findop puncops [c] = some o ∧ o ≠ opUndefined ∧ o ≠ opLabel ∧ opIspunc o = true ∧
        opIskey o = false := by
  simp only [isPuncop, Bool.or_eq_true, beq_iff_eq] at h
  rcases h with (((((((rfl | rfl) | rfl) | rfl) | rfl) | rfl) | rfl) | rfl) | rfl <;>
    exact ⟨by decide, by decide, by decide, _, rfl, by decide, by decide, by decide, by decide⟩

theorem digit_class {c : Byte} (h : ncIsdigit c = true) :
    ¬ c > 127 ∧ isData c = true ∧ ¬ (c = ch '\'' ∨ c = ch '"') ∧ c ≠ 0x60 ∧ c ≠ ch '@' := by
  have hc : NumByte c := .inl h
  refine ⟨?_, ?_, ?_, hc.ne (by decide), hc.ne (by decide)⟩
  · have hhi := hc.bounds.2
    exact UInt8.not_lt.mpr (UInt8.le_trans hhi (by decide))
  · simp only [isData, h, Bool.or_true]
  · exact not_or.mpr ⟨hc.ne (by decide), hc.ne (by decide)⟩

/-- The shapes of operator names that `n_getop` reads. -/
def opShape : List Byte → Bool
  | [a] => isMathop a
  | [a, b] => isMathop a && isMathop b && (a != ch '=' || b == ch '=')
  | [a, b, c] => a == ch '=' && b == ch '=' && c == ch '='
  | _ => false

theorem mathops_shape : ∀ row ∈ mathops,
    findop mathops row.name = some row.value ∧
      (row.value ≠ opUndefined ∧ row.value ≠ opLabel ∧ opIsmath row.value = true ∧
        opIskey row.value = false) ∧ opShape row.name = true := by
  decide

theorem labelTail_name {name : List Byte} (h : ∀ c ∈ name, (isLabel c || ncIsdigit c) = true)
    {d : Byte} (hd : (isLabel d || ncIsdigit d) = false) (tail : List Byte) {room : Nat}
    (hroom : name.length ≤ room) : labelTail room (name ++ d :: tail) = .ok (name, d :: tail) := by
  induction name generalizing room with
  | nil =>
      cases room with
      | zero => rfl
      | succ room =>
          rw [List.nil_append, labelTail, hd]
          rfl
  | cons c name ih =>
      obtain ⟨room, rfl⟩ : ∃ k, room = k + 1 := ⟨room - 1, by simp only [List.length_cons] at hroom; omega⟩
      rw [List.cons_append, labelTail, if_pos (h c List.mem_cons_self),
        ih (fun c' hc' => h c' (List.mem_cons_of_mem _ hc')) (Nat.le_of_succ_le_succ hroom)]
      rfl

theorem numberText_digits {text : List Byte} (h : ∀ c ∈ text, (ncIsdigit c || c == ch '.') = true)
    {d : Byte} (hd : (ncIsdigit d || d == ch '.') = false) (tail : List Byte) :
    numberText (text ++ d :: tail) = .ok (text, d :: tail) := by
  induction text with
  | nil =>
      rw [List.nil_append, numberText, hd]
      rfl
  | cons c text ih =>
      rw [List.cons_append, numberText, if_pos (h c List.mem_cons_self),
        ih fun c' hc' => h c' (List.mem_cons_of_mem _ hc')]
      rfl

/-- `n_getop` on an operator that the next byte does not lengthen. -/
theorem mathName_row {row : Optab} (h : row ∈ mathops) {d : Byte}
    (hd : (Lexeme.math row h).takes d = false) (tail : List Byte) :
    ∃ a p, row.name = a :: p ∧ isMathop a = true ∧
      mathName (row.name ++ d :: tail) = .ok (row.name, d :: tail) := by
  obtain ⟨-, -, hshape⟩ := mathops_shape row h
  simp only [Lexeme.takes] at hd
  generalize row.name = name at hshape hd
  unfold opShape at hshape
  split at hshape
  · rename_i a
    refine ⟨a, [], rfl, hshape, ?_⟩
    simp only [List.cons_append, List.nil_append, mathName, deref, ok_bind]
    by_cases hm : isMathop d = true
    · by_cases ha : a = ch '='
      · simp only [ha, if_true, beq_eq_false_iff_ne, ne_eq] at hd
        simp only [hm, if_true, ha, hd, if_false]
        rfl
      · simp only [ha, if_false, hm] at hd
        exact absurd hd (by decide)
    · simp only [hm, Bool.false_eq_true, if_false]
      rfl
  · rename_i a b
    simp only [Bool.and_eq_true, Bool.or_eq_true, bne_iff_ne, beq_iff_eq] at hshape
    obtain ⟨⟨ha, hb⟩, hor⟩ := hshape
    have heq : a = ch '=' → b = ch '=' := fun hae => hor.resolve_left (fun hne => hne hae)
    refine ⟨a, [b], rfl, ha, ?_⟩
    simp only [List.cons_append, List.nil_append, mathName, deref, ok_bind, hb, if_true, List.tail_cons]
    by_cases hae : a = ch '='
    · simp only [hae, beq_self_eq_true, Bool.true_and, beq_eq_false_iff_ne, ne_eq] at hd
      simp only [hae, heq hae, if_true, if_neg hd, pure_eq_ok]
    · simp only [hae, if_false, pure_eq_ok]
  · rename_i a b c
    simp only [Bool.and_eq_true, beq_iff_eq] at hshape
    obtain ⟨⟨rfl, rfl⟩, rfl⟩ := hshape
    exact ⟨ch '=', [ch '=', ch '='], rfl, by decide, by
      simp +decide only [List.cons_append, List.nil_append, mathName, deref, ok_bind, if_true, List.tail_cons, pure_eq_ok]⟩
  · cases hshape

/-- `n_getop` finds the op of a lexeme that the next byte does not lengthen; it stays on a
literal and moves behind any other lexeme. -/
theorem nGetop_lexeme (t : Lexeme) {d : Byte} (hd : t.takes d = false) (tail : List Byte) :
    ∃ name, nGetop (t.spell ++ d :: tail) =
        .ok (t.op, name, if t.isLiteral then t.spell ++ d :: tail else d :: tail) ∧
      ∀ {c n h h' hlen}, t = .word c n h h' hlen → name = c :: n := by
  cases t with
  | word c name h h' hlen =>
      obtain ⟨hhigh, hdata⟩ := isLabel_class h
      have htail : labelTail (maxObjnamelen - 1) (name ++ d :: tail) = .ok (name, d :: tail) :=
        labelTail_name h' hd tail hlen
      refine ⟨c :: name, ?_, fun heq => by cases heq; rfl⟩
      simp only [Lexeme.spell, List.cons_append, nGetop, if_neg hhigh, hdata, Bool.false_eq_true,
        if_false, h, if_true, htail, ok_bind, Lexeme.isLiteral]
      rfl
  | num c text h h' =>
      obtain ⟨hhigh, hdata, hq, hb, hat⟩ := digit_class h
      refine ⟨[], ?_, fun heq => by cases heq⟩
      simp only [Lexeme.spell, List.cons_append, nGetop, if_neg hhigh, hdata, if_true, if_neg hq,
        if_neg hb, if_neg hat, Lexeme.isLiteral]
      rfl
  | str q verbatim body h h' hlen =>
      refine ⟨[], ?_, fun heq => by cases heq⟩
      have hquote : q = ch '\'' ∨ q = ch '"' ∨ q = 0x60 := by
        simpa [isQuote, or_assoc] using h
      cases verbatim with
      | false => rcases hquote with rfl | rfl | rfl <;> rfl
      | true => rcases hquote with rfl | rfl | rfl <;> rfl
  | math row h =>
      obtain ⟨hfind, -, -⟩ := mathops_shape row h
      obtain ⟨a, p, hname, ha, hmath⟩ := mathName_row h hd tail
      obtain ⟨hhigh, hdata, hlabel, hpunc⟩ := isMathop_class ha
      refine ⟨row.name, ?_, fun heq => by cases heq⟩
      have hcons : row.name ++ d :: tail = a :: (p ++ d :: tail) := by rw [hname]; rfl
      simp only [Lexeme.spell]
      rw [hcons] at hmath ⊢
      simp only [nGetop, if_neg hhigh, hdata, hlabel, hpunc, ha, Bool.false_eq_true, if_false, if_true,
        hmath, ok_bind, hfind, Option.getD_some, Lexeme.isLiteral, Lexeme.op, pure_eq_ok]
  | punc c h =>
      obtain ⟨hhigh, hdata, hlabel, -⟩ := isPuncop_class h
      refine ⟨[c], ?_, fun heq => by cases heq⟩
      simp only [Lexeme.spell, List.cons_append, List.nil_append, nGetop, if_neg hhigh, hdata, hlabel,
        Bool.false_eq_true, if_false, h, if_true, Lexeme.isLiteral]
      rfl

theorem keywords_value : ∀ row ∈ keywords, row.value ≠ opUndefined ∧ row.value ≠ opLabel ∧
    opIskey row.value = true := by
  decide

theorem findop_keywords {name : List Byte} {k : Byte} (h : findop keywords name = some k) :
    k ≠ opUndefined ∧ k ≠ opLabel ∧ opIskey k = true := by
  unfold findop at h
  cases hrow : keywords.find? (·.name == name) with
  | none => rw [hrow] at h; cases h
  | some row =>
      rw [hrow] at h
      cases h
      exact keywords_value row (List.mem_of_find?_eq_some hrow)

/-! ### Strings -/

theorem Closes.append {q : Byte} {verbatim : Bool} {p : List Byte} {r : List Byte}
    (h : Closes q verbatim p r) (x : List Byte) : Closes q verbatim (p ++ x) (r ++ x) := by
  induction h with
  | quote => exact .quote
  | escape hv hc _ ih => exact .escape hv hc ih
  | plain hc _ ih => exact .plain hc ih

/-- `n_unescape` resolves the escapes of its bytes. -/
theorem nUnescape_value {N : Scanner} (p x : List Byte) {s s' : Lex} {dst : List Byte}
    (h : nUnescape N (p ++ x) p.length false s = .ok (dst, s')) : dst = unescaped p := by
  induction p using unescaped.induct generalizing s dst with
  | case1 =>
      simp only [List.length_nil, nUnescape] at h
      cases h
      rfl
  | case2 =>
      simp only [List.cons_append, List.nil_append, List.length_singleton, nUnescape, if_true] at h
      cases h
      rfl
  | case3 c hc =>
      rw [unescaped, if_neg hc]
      simp only [List.cons_append, List.nil_append, List.length_singleton, nUnescape, if_neg hc] at h
      cases h
      rfl
  | case4 d p ih =>
      rw [unescaped, if_pos rfl]
      simp only [List.cons_append, List.length_cons, nUnescape, if_true] at h
      cases hd : unescape d with
      | some b =>
          simp only [hd] at h
          obtain ⟨⟨dst', s₁⟩, h₁, h⟩ := bind_eq_ok.mp h
          cases h
          rw [ih h₁]
          rfl
      | none =>
          simp only [hd] at h
          obtain ⟨s₁, -, h⟩ := bind_eq_ok.mp h
          rw [ih h]
          rfl
  | case5 c d p hc ih =>
      rw [unescaped, if_neg hc]
      rw [List.cons_append, List.length_cons, nUnescape, if_neg hc] at h
      obtain ⟨⟨dst', s₁⟩, h₁, h⟩ := bind_eq_ok.mp h
      cases h
      rw [ih h₁]

/-- `n_extractquote` reads a string up to its closing quote. -/
theorem nExtractquote_str {N : Scanner} {q : Byte} {verbatim : Bool} {body r : List Byte} {s s' : Lex}
    {text : List Byte} (hq : isQuote q = true) (hclose : Closes q verbatim (body ++ [q]) [])
    (hlen : body.length < 2 ^ 64) (hs : s.rest = q :: (body ++ q :: r))
    (h : nExtractquote N verbatim s = .ok (text, s')) :
    text = (if verbatim then body else unescaped body) ∧ s'.rest = r := by
  have hq0 : q ≠ 0 := by
    rintro rfl
    exact absurd hq (by decide)
  have hqb : q ≠ ch '\\' := by
    rintro rfl
    exact absurd hq (by decide)
  have hcl : Closes q verbatim (body ++ q :: r) r := by
    have := hclose.append r
    rwa [List.append_assoc, List.nil_append] at this
  obtain ⟨n, eq⟩ := nSkipquote_closes (N := N) hcl hq0 hqb (s := { s with rest := body ++ q :: r })
    rfl (Nat.lt_add_one _)
  have hqlen : quoteLen (body ++ q :: r) r = body.length := by
    rw [quoteLen, List.length_append, List.length_cons]
    omega
  simp only [nExtractquote, hs, deref, ok_bind, List.tail_cons, eq, hqlen] at h
  cases verbatim with
  | true =>
      cases h
      exact ⟨by rw [Int.toNat_natCast, List.take_left]; rfl, rfl⟩
  | false =>
      have hnat : ((body.length : Int) % 2 ^ 64).toNat = body.length := by omega
      simp only [hnat, Bool.false_eq_true, if_false] at h ⊢
      refine ⟨nUnescape_value body _ h, ?_⟩
      have hle : body.length ≤ (body ++ q :: r).length := by
        rw [List.length_append]
        omega
      rcases nUnescape_spec N hle false { s with rest := r, lineno := n } with herr | ⟨dst, s'', hok, hrest⟩
      · rw [herr] at h
        cases h
      · rw [hok] at h
        cases h
        exact hrest

end NullG.Nsp
