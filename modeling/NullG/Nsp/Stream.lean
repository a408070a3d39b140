/-
Tokens in the op stream: how a walk passes over a token, over a run of tokens and over
a bracketed block.

`Lays ts bs` says that `bs` holds the tokens `ts` in order, with any bytes in the length
fields of open brackets. Three kinds of tokens matter to a walk:

* a token that is `Short` is passed in one step (`Tok.leaf`, `Tok.opens`);
* a number of more than 255 bytes is left in the middle of its digits, from where the
  walk comes to the NUL behind them (`Tok.long`);
* a properly nested run is passed as a whole (`Nested.skip`, `Nested.finds`) unless
  such a number stands in it (`Nested.skip_long`, `Nested.finds_long`).
-/

import NullG.Nsp.Walk

namespace NullG.Nsp

open NullG.Lib

/-! ### Single tokens -/

/-- A byte of a number literal. -/
def NumByte (c : Byte) : Prop := ncIsdigit c = true ∨ c = ch '.'

theorem NumByte.bounds {c : Byte} (h : NumByte c) : 46 ≤ c ∧ c ≤ 57 := by
  rcases h with h | rfl
  · simp only [ncIsdigit, Bool.and_eq_true, decide_eq_true_eq] at h
    have h48 : ch '0' = 48 := rfl
    have h57 : ch '9' = 57 := rfl
    rw [h48, h57] at h
    exact ⟨UInt8.le_trans (by decide) h.1, h.2⟩
  · decide

theorem NumByte.ne {c : Byte} (h : NumByte c) {b : Byte} (hb : 57 < b ∨ b < 46) : c ≠ b := by
  rintro rfl
  obtain ⟨hlo, hhi⟩ := h.bounds
  rcases hb with hb | hb
  · exact absurd hb (UInt8.not_lt.mpr hhi)
  · exact absurd hb (UInt8.not_lt.mpr hlo)

theorem NumByte.plain {c : Byte} (h : NumByte c) : Plain c :=
  ⟨h.ne (by decide), h.ne (by decide), h.ne (by decide), h.ne (by decide), h.ne (by decide),
    h.ne (by decide), h.ne (by decide)⟩

/-- The tokens that `n_decompose_sub` makes, and the file name that `n_decompose` adds. -/
inductive Tok.Valid : Tok → Prop where
  | line (n : Nat) : Valid (.linenum n)
  | label {text : List Byte} : text.length ≤ 255 → Valid (.op opLabel text)
  | num {text : List Byte} : (∀ c ∈ text, NumByte c) → Valid (.op opNumdata text)
  | str {op : Byte} (text : List Byte) : op = opStrdata ∨ op = opEstrdata → Valid (.op op text)
  | sym {op : Byte} (text : List Byte) : (opIsmath op || opIskey op || opIspunc op) = true →
      Valid (.op op text)

/-- The length of a number fits its field of one byte. -/
def Tok.Short : Tok → Prop
  | .op o text => o = opNumdata → text.length ≤ 255
  | .linenum _ => True

instance (t : Tok) : Decidable t.Short := by
  cases t with
  | linenum => exact inferInstanceAs (Decidable True)
  | op o text => exact inferInstanceAs (Decidable (o = opNumdata → text.length ≤ 255))

/-- The length of a string fits an `int`. -/
def Tok.Fits : Tok → Prop
  | .op o text => o = opStrdata ∨ o = opEstrdata → text.length < 2 ^ 31
  | .linenum _ => True

/-- The op byte of a token. -/
def Tok.opByte : Tok → Byte
  | .op o _ => o
  | .linenum _ => opLinenum

/-- The width of the length field that is filled in after the token is written. -/
def Tok.width : Tok → Nat
  | .op o _ => if o = opPobrace then 4 else if o = opPoparen then 2 else 0
  | .linenum _ => 0

/-- The bytes of a token, with `f` in that field. -/
def Tok.lay : Tok → List Byte → List Byte
  | .op o text, f => if o = opPobrace ∨ o = opPoparen then o :: f else encTok (.op o text)
  | .linenum n, _ => encTok (.linenum n)

theorem Tok.lay_eq_cons (t : Tok) (f : List Byte) : ∃ tail, t.lay f = t.opByte :: tail := by
  cases t with
  | linenum n => exact ⟨_, rfl⟩
  | op o text =>
      simp only [Tok.lay, encTok, Tok.opByte]
      split_ifs <;> exact ⟨_, rfl⟩

theorem Tok.length_lay {t : Tok} {f : List Byte} (hf : f.length = t.width) :
    (t.lay f).length = (encTok t).length := by
  cases t with
  | linenum n => rfl
  | op o text =>
      simp only [Tok.width] at hf
      unfold Tok.lay encTok
      by_cases h1 : o = opPobrace
      · simp only [h1, true_or, if_true] at hf ⊢
        simp only [List.length_cons, hf, length_writei4]
      · by_cases h2 : o = opPoparen
        · subst h2
          rw [if_neg h1, if_pos rfl] at hf
          simp only [if_neg h1, or_true, if_true, List.length_cons, hf]
          rfl
        · simp only [h1, h2, or_self, if_false]

theorem Tok.encTok_eq_lay (t : Tok) : ∃ f, f.length = t.width ∧ encTok t = t.lay f := by
  cases t with
  | linenum n => exact ⟨[], rfl, rfl⟩
  | op o text =>
      by_cases h1 : o = opPobrace
      · subst h1
        exact ⟨writei4 0, rfl, rfl⟩
      · by_cases h2 : o = opPoparen
        · subst h2
          exact ⟨writei2 0, rfl, rfl⟩
        · exact ⟨[], by simp only [Tok.width, h1, h2, if_false, List.length_nil],
            by simp only [Tok.lay, h1, h2, or_self, if_false]⟩

/-- A token without a block that is short is passed in one step. -/
theorem Tok.leaf {t : Tok} (hv : t.Valid) (hs : t.Short) (hfit : t.Fits) {f : List Byte}
    (hw : t.width = 0) (p : List Byte) : Leaf (t.lay f ++ p) p := by
  cases hv with
  | line n =>
      show Leaf (opLinenum :: (writei4 n ++ p)) p
      exact .line (length_writei4 n)
  | @label text hlen =>
      show Leaf (opLabel :: text.length.toUInt8 :: ((text ++ [0]) ++ p)) p
      refine .text (.inr rfl) ?_
      simp only [List.length_append, List.length_singleton, Nat.toUInt8, UInt8.toNat_ofNat']
      omega
  | @num text _ =>
      have hlen : text.length ≤ 255 := hs rfl
      show Leaf (opNumdata :: text.length.toUInt8 :: ((text ++ [0]) ++ p)) p
      refine .text (.inl rfl) ?_
      simp only [List.length_append, List.length_singleton, Nat.toUInt8, UInt8.toNat_ofNat']
      omega
  | @str o text hop =>
      have hlay : (Tok.op o text).lay f ++ p =
          o :: (writei4 text.length ++ ((text ++ [0]) ++ p)) := by
        rcases hop with rfl | rfl <;> simp +decide [Tok.lay, encTok]
      rw [hlay]
      exact .str hop (hfit hop) (by simp only [List.length_append, List.length_singleton])
  | @sym o text hop =>
      have hp : Plain o := by
        simp only [Tok.width] at hw
        refine ⟨?_, ?_, ?_, ?_, ?_, ?_, ?_⟩ <;> rintro rfl <;> revert hop hw <;> decide
      obtain ⟨h1, h2, h3, h4, h5, h6, h7⟩ := hp
      have hlay : (Tok.op o text).lay f ++ p = o :: p := by
        simp only [Tok.lay, encTok, h1, h2, h3, h4, h6, h7, or_self, if_false, List.singleton_append]
      rw [hlay]
      exact .plain ⟨h1, h2, h3, h4, h5, h6, h7⟩

/-- A number of more than 255 bytes is left inside its digits. -/
theorem Tok.long {t : Tok} (hv : t.Valid) (hs : ¬ t.Short) (f : List Byte) :
    t.width = 0 ∧ ∃ hd ds, t.lay f = hd ++ (ds ++ [0]) ∧ (∀ c ∈ ds, NumByte c) ∧
      ∀ p, Leaf (t.lay f ++ p) (ds ++ 0 :: p) := by
  cases hv with
  | line => exact absurd trivial hs
  | label => exact absurd (fun h => absurd h (by decide)) hs
  | str text hop => exact absurd (fun h => by rcases hop with rfl | rfl <;> exact absurd h (by decide)) hs
  | sym text hop => exact absurd (fun h => by subst h; exact absurd hop (by decide)) hs
  | @num text hnum =>
      have hlong : 255 < text.length := by
        apply Nat.lt_of_not_le
        intro h
        exact hs fun _ => h
      have hsplit : (Tok.op opNumdata text).lay f =
          (opNumdata :: text.length.toUInt8 :: text.take (text.length % 256 + 1)) ++
            (text.drop (text.length % 256 + 1) ++ [0]) := by
        rw [List.cons_append, List.cons_append, ← List.append_assoc, List.take_append_drop]
        rfl
      refine ⟨rfl, _, _, hsplit, fun c hc => hnum c (List.mem_of_mem_drop hc), ?_⟩
      intro p
      rw [hsplit]
      simp only [List.append_assoc, List.cons_append, List.nil_append]
      refine .text (.inl rfl) ?_
      simp only [List.length_take, Nat.toUInt8, UInt8.toNat_ofNat']
      omega

/-! ### Brackets -/

/-- The open op of a block and its close op. -/
inductive Pair : Tok → Tok → Prop where
  | brace (a b : List Byte) : Pair (.op opPobrace a) (.op opPcbrace b)
  | paren (a b : List Byte) : Pair (.op opPoparen a) (.op opPcparen b)

/-- One of the four ops that open or close a block. -/
def Tok.IsBracket (t : Tok) : Prop :=
  t.opByte = opPobrace ∨ t.opByte = opPoparen ∨ t.opByte = opPcbrace ∨ t.opByte = opPcparen

instance (t : Tok) : Decidable t.IsBracket := inferInstanceAs (Decidable (_ ∨ _))

/-- Balanced and properly nested braces and parentheses. -/
inductive Nested : List Tok → Prop where
  | nil : Nested []
  | leaf {t : Tok} {ts : List Tok} : ¬ t.IsBracket → Nested ts → Nested (t :: ts)
  | block {o c : Tok} {inner ts : List Tok} : Pair o c → Nested inner → Nested ts →
      Nested (o :: (inner ++ c :: ts))

theorem Pair.opens {o c : Tok} (h : Pair o c) {f : List Byte} (hf : f.length = o.width)
    (p : List Byte) : Opens c.opByte (o.lay f ++ p) p := by
  cases h with
  | brace => exact .brace hf
  | paren => exact .paren hf

theorem Pair.close_lay {o c : Tok} (h : Pair o c) (f : List Byte) : c.lay f = [c.opByte] := by
  cases h with
  | brace => rfl
  | paren => rfl

theorem Pair.close_plain {o c : Tok} (h : Pair o c) : Plain c.opByte ∧ c.opByte ≠ 0 := by
  cases h with
  | brace => exact (by decide : Plain opPcbrace ∧ opPcbrace ≠ 0)
  | paren => exact (by decide : Plain opPcparen ∧ opPcparen ≠ 0)

theorem Pair.open_ne {o c o' c' : Tok} (h : Pair o c) (h' : Pair o' c') :
    o.opByte ≠ 0 ∧ o.opByte ≠ c'.opByte ∧ o.opByte ≠ opLinenum := by
  cases h <;> cases h' <;> simp only [Tok.opByte] <;> decide

theorem Tok.exists_pair {t : Tok} (h : t.width ≠ 0) : ∃ c, Pair t c := by
  cases t with
  | linenum => exact absurd rfl h
  | op o text =>
      by_cases h1 : o = opPobrace
      · subst h1
        exact ⟨_, .brace text []⟩
      · by_cases h2 : o = opPoparen
        · subst h2
          exact ⟨_, .paren text []⟩
        · exact absurd (by simp only [Tok.width, h1, h2, if_false]) h

theorem Tok.width_ne_zero {t : Tok} (h : t.opByte = opPobrace ∨ t.opByte = opPoparen) :
    t.width ≠ 0 := by
  cases t with
  | linenum => exact absurd h (by decide : ¬ (opLinenum = opPobrace ∨ opLinenum = opPoparen))
  | op o text =>
      rw [Tok.opByte] at h
      rcases h with rfl | rfl
      · exact (by decide : 4 ≠ 0)
      · exact (by decide : 2 ≠ 0)

theorem Pair.width_ne_zero {o c : Tok} (h : Pair o c) : o.width ≠ 0 := by
  cases h with
  | brace => exact Tok.width_ne_zero (.inl rfl)
  | paren => exact Tok.width_ne_zero (.inr rfl)

theorem NumByte.ne_close {d : Byte} (hd : NumByte d) {o c : Tok} (h : Pair o c) :
    d ≠ c.opByte := by
  cases h with
  | brace => exact hd.ne (by decide : 57 < opPcbrace ∨ opPcbrace < 46)
  | paren => exact hd.ne (by decide : 57 < opPcparen ∨ opPcparen < 46)

theorem Pair.short {o c : Tok} (h : Pair o c) : o.Short ∧ c.Short := by
  cases h with
  | brace => exact ⟨fun h => absurd h (by decide), fun h => absurd h (by decide)⟩
  | paren => exact ⟨fun h => absurd h (by decide), fun h => absurd h (by decide)⟩

theorem Tok.width_eq_zero {t : Tok} (h : ¬ t.IsBracket) : t.width = 0 := by
  cases t with
  | linenum => rfl
  | op o text =>
      simp only [Tok.IsBracket, Tok.opByte, not_or] at h
      simp only [Tok.width, h.1, h.2.1, if_false]

theorem Tok.opByte_ne {t : Tok} (hv : t.Valid) : t.opByte ≠ 0 := by
  cases hv with
  | line => exact (by decide : opLinenum ≠ 0)
  | label => exact (by decide : opLabel ≠ 0)
  | num => exact (by decide : opNumdata ≠ 0)
  | str text hop =>
      rcases hop with rfl | rfl
      · exact (by decide : opStrdata ≠ 0)
      · exact (by decide : opEstrdata ≠ 0)
  | sym text hop =>
      rintro h
      rw [Tok.opByte] at h
      subst h
      exact absurd hop (by decide)

theorem Tok.eq_linenum {t : Tok} (hv : t.Valid) (h : t.opByte = opLinenum) : ∃ n, t = .linenum n := by
  cases hv with
  | line n => exact ⟨n, rfl⟩
  | label => exact absurd h (by decide : opLabel ≠ opLinenum)
  | num => exact absurd h (by decide : opNumdata ≠ opLinenum)
  | str text hop =>
      rw [Tok.opByte] at h
      subst h
      exact absurd hop (by decide)
  | sym text hop =>
      rw [Tok.opByte] at h
      subst h
      exact absurd hop (by decide)

/-- A token that is no bracket is not the close op of a block. -/
theorem Tok.opByte_ne_close {t : Tok} (h : ¬ t.IsBracket) {o c : Tok} (hc : Pair o c) :
    t.opByte ≠ c.opByte := by
  simp only [Tok.IsBracket, not_or] at h
  cases hc with
  | brace => exact h.2.2.1
  | paren => exact h.2.2.2

/-! ### Runs of tokens -/

/-- The bytes hold the tokens in order, whatever stands in the fields of open brackets. -/
inductive Lays : List Tok → List Byte → Prop where
  | nil : Lays [] []
  | cons {t : Tok} {ts : List Tok} {f bs : List Byte} : f.length = t.width → Lays ts bs →
      Lays (t :: ts) (t.lay f ++ bs)

/-- The number of bytes a run of tokens takes. -/
def size (ts : List Tok) : Nat := (ts.flatMap encTok).length

@[simp] theorem size_nil : size [] = 0 := rfl

@[simp] theorem size_cons (t : Tok) (ts : List Tok) : size (t :: ts) = (encTok t).length + size ts := by
  simp only [size, List.flatMap_cons, List.length_append]

@[simp] theorem size_append (ts us : List Tok) : size (ts ++ us) = size ts + size us := by
  simp only [size, List.flatMap_append, List.length_append]

theorem Lays.length_eq {ts : List Tok} {bs : List Byte} (h : Lays ts bs) : bs.length = size ts := by
  induction h with
  | nil => rfl
  | cons hf _ ih => rw [List.length_append, Tok.length_lay hf, ih, size_cons]

theorem lays_flatMap (ts : List Tok) : Lays ts (ts.flatMap encTok) := by
  induction ts with
  | nil => exact .nil
  | cons t ts ih =>
      obtain ⟨f, hf, heq⟩ := t.encTok_eq_lay
      rw [List.flatMap_cons, heq]
      exact .cons hf ih

theorem Lays.split {ts us : List Tok} {bs : List Byte} (h : Lays (ts ++ us) bs) :
    ∃ a b, bs = a ++ b ∧ Lays ts a ∧ Lays us b := by
  induction ts generalizing bs with
  | nil => exact ⟨[], bs, rfl, .nil, h⟩
  | cons t ts ih =>
      cases h with
      | @cons _ _ f bs hf hl =>
          obtain ⟨a, b, rfl, ha, hb⟩ := ih hl
          exact ⟨t.lay f ++ a, b, (List.append_assoc _ _ _).symm, .cons hf ha, hb⟩

/-- A block laid out: its open op, its contents, its close op, and what follows. -/
theorem Lays.split_block {o c : Tok} {inner ts : List Tok} {bs : List Byte}
    (h : Lays (o :: (inner ++ c :: ts)) bs) :
    ∃ f a f' b, f.length = o.width ∧ Lays inner a ∧ Lays ts b ∧
      bs = o.lay f ++ (a ++ (c.lay f' ++ b)) := by
  cases h with
  | @cons _ _ f bs hf hl =>
      obtain ⟨a, b, rfl, ha, hb⟩ := hl.split
      cases hb with
      | @cons _ _ f' b hf' hb => exact ⟨f, a, f', b, hf, ha, hb, rfl⟩

theorem Tok.lay_append_head (t : Tok) (f p : List Byte) : (t.lay f ++ p).head? = some t.opByte := by
  obtain ⟨tail, heq⟩ := t.lay_eq_cons f
  rw [heq]
  rfl

/-- One round of `skipblock` on a token that is not the close op. -/
theorem Skip.over {t : Tok} {c : Byte} {f p q r : List Byte} (h0 : t.opByte ≠ 0)
    (hc : t.opByte ≠ c) (hs : Skip none (t.lay f ++ p) q) (hr : Skip (some c) q r) :
    Skip (some c) (t.lay f ++ p) r := by
  obtain ⟨tail, heq⟩ := t.lay_eq_cons f
  rw [heq] at hs ⊢
  exact .step h0 hc hs hr

/-- One round of `n_skipto` on a token that is neither the op it looks for nor a line
marker. -/
theorem Finds.over {t : Tok} {c : Byte} {f p q : List Byte} {r : Except Fault (List Byte)}
    (h0 : t.opByte ≠ 0) (hline : t.opByte ≠ opLinenum) (hc : t.opByte ≠ c)
    (hs : Skip none (t.lay f ++ p) q) (hr : Finds c q r) : Finds c (t.lay f ++ p) r := by
  obtain ⟨tail, heq⟩ := t.lay_eq_cons f
  rw [heq] at hs ⊢
  exact .step h0 (nSkipWs_ne hline) hc hs hr

section Nested

variable {o c : Tok} {ts : List Tok} {bs q : List Byte}

/-- From inside a number `skipblock` comes to the NUL behind it. -/
theorem skip_digits (hc : Pair o c) {ds : List Byte} (hds : ∀ d ∈ ds, NumByte d) (p : List Byte) :
    Skip (some c.opByte) (ds ++ 0 :: p) (0 :: p) := by
  induction ds with
  | nil => exact .nul
  | cons d ds ih =>
      have hd : NumByte d := hds d List.mem_cons_self
      exact .step (hd.ne (by decide)) (hd.ne_close hc) (.leaf (.plain hd.plain))
        (ih fun d' hd' => hds d' (List.mem_cons_of_mem _ hd'))

/-- And so does `n_skipto`, which reports it. -/
theorem finds_digits (hc : Pair o c) {ds : List Byte} (hds : ∀ d ∈ ds, NumByte d) (p : List Byte) :
    Finds c.opByte (ds ++ 0 :: p) (.error (.raised (.expected c.opByte))) := by
  induction ds with
  | nil => exact .nul
  | cons d ds ih =>
      have hd : NumByte d := hds d List.mem_cons_self
      exact .step (hd.ne (by decide)) (nSkipWs_ne (hd.ne (by decide))) (hd.ne_close hc)
        (.leaf (.plain hd.plain)) (ih fun d' hd' => hds d' (List.mem_cons_of_mem _ hd'))

/-- A properly nested run is passed as a whole. -/
theorem Nested.skip (hn : Nested ts) (hc : Pair o c)
    (hok : ∀ t ∈ ts, t.Valid ∧ t.Fits ∧ t.Short) (hl : Lays ts bs) {r : List Byte}
    (hq : Skip (some c.opByte) q r) : Skip (some c.opByte) (bs ++ q) r := by
  induction hn generalizing o c bs q r with
  | nil =>
      cases hl
      exact hq
  | @leaf t ts ht _ ih =>
      cases hl with
      | @cons _ _ f bs hf hl =>
          obtain ⟨hv, hfit, hs⟩ := hok t List.mem_cons_self
          rw [List.append_assoc]
          refine Skip.over (Tok.opByte_ne hv) (Tok.opByte_ne_close ht hc)
            (.leaf (Tok.leaf hv hs hfit (Tok.width_eq_zero ht) _)) ?_
          exact ih hc (fun t' ht' => hok t' (List.mem_cons_of_mem _ ht')) hl hq
  | @block o' c' inner ts hp _ _ ih₁ ih₂ =>
      obtain ⟨f, a, f', b, hf, ha, hb, rfl⟩ := hl.split_block
      have okIn : ∀ t ∈ inner, t.Valid ∧ t.Fits ∧ t.Short := fun t ht =>
        hok t (List.mem_cons_of_mem _ (List.mem_append_left _ ht))
      have okOut : ∀ t ∈ ts, t.Valid ∧ t.Fits ∧ t.Short := fun t ht =>
        hok t (List.mem_cons_of_mem _ (List.mem_append_right _ (List.mem_cons_of_mem _ ht)))
      have body : Skip (some c'.opByte) (a ++ (c'.lay f' ++ (b ++ q))) (b ++ q) := by
        rw [hp.close_lay]
        exact ih₁ hp okIn ha (.close hp.close_plain.2)
      simp only [List.append_assoc]
      obtain ⟨h0, hne, -⟩ := hp.open_ne hc
      exact Skip.over h0 hne (.block (hp.opens hf _) body) (ih₂ hc okOut hb hq)

/-- `n_seekop(p, 1)` on a block without such a number goes behind its close op. -/
theorem Nested.skip_block (hn : Nested ts) (hp : Pair o c)
    (hok : ∀ t ∈ ts, t.Valid ∧ t.Fits ∧ t.Short) (hl : Lays ts bs) {f : List Byte}
    (hf : f.length = o.width) (f' p : List Byte) :
    Skip none (o.lay f ++ (bs ++ (c.lay f' ++ p))) p := by
  refine .block (hp.opens hf _) ?_
  rw [hp.close_lay]
  exact hn.skip hp hok hl (.close hp.close_plain.2)

/-- A number too long that stands in a block's run stands inside the block or behind it. -/
theorem exists_long_block {inner : List Tok} (hp : Pair o c)
    (hlong : ∃ t ∈ o :: (inner ++ c :: ts), ¬ t.Short) :
    (∃ t ∈ inner, ¬ t.Short) ∨ ∃ t ∈ ts, ¬ t.Short := by
  obtain ⟨t, ht, hns⟩ := hlong
  rcases List.mem_cons.mp ht with rfl | ht
  · exact absurd hp.short.1 hns
  · rcases List.mem_append.mp ht with ht | ht
    · exact .inl ⟨t, ht, hns⟩
    · rcases List.mem_cons.mp ht with rfl | ht
      · exact absurd hp.short.2 hns
      · exact .inr ⟨t, ht, hns⟩

/-- With a number of more than 255 bytes in the run, `skipblock` stops behind its digits. -/
theorem Nested.skip_long (hn : Nested ts) (hc : Pair o c) (hok : ∀ t ∈ ts, t.Valid ∧ t.Fits)
    (hlong : ∃ t ∈ ts, ¬ t.Short) (hl : Lays ts bs) (q : List Byte) :
    ∃ r, Skip (some c.opByte) (bs ++ q) (0 :: r) ∧ q.length ≤ r.length := by
  induction hn generalizing o c bs q with
  | nil =>
      obtain ⟨t, ht, -⟩ := hlong
      cases ht
  | @leaf t ts ht _ ih =>
      cases hl with
      | @cons _ _ f bs hf hl =>
          obtain ⟨hv, hfit⟩ := hok t List.mem_cons_self
          simp only [List.append_assoc]
          by_cases hs : t.Short
          · have hlong' : ∃ t ∈ ts, ¬ t.Short := by
              obtain ⟨t', ht', hns⟩ := hlong
              rcases List.mem_cons.mp ht' with rfl | ht'
              · exact absurd hs hns
              · exact ⟨t', ht', hns⟩
            obtain ⟨r, hr, hle⟩ := ih hc (fun t' ht' => hok t' (List.mem_cons_of_mem _ ht')) hlong' hl q
            exact ⟨r, Skip.over (Tok.opByte_ne hv) (Tok.opByte_ne_close ht hc)
              (.leaf (Tok.leaf hv hs hfit (Tok.width_eq_zero ht) _)) hr, hle⟩
          · obtain ⟨-, -, ds, -, hds, hleaf⟩ := Tok.long hv hs f
            refine ⟨bs ++ q, Skip.over (Tok.opByte_ne hv) (Tok.opByte_ne_close ht hc) (.leaf (hleaf _))
              (skip_digits hc hds _), ?_⟩
            rw [List.length_append]
            omega
  | @block o' c' inner ts hp hin _ ih₁ ih₂ =>
      obtain ⟨f, a, f', b, hf, ha, hb, rfl⟩ := hl.split_block
      have okIn : ∀ t ∈ inner, t.Valid ∧ t.Fits := fun t ht =>
        hok t (List.mem_cons_of_mem _ (List.mem_append_left _ ht))
      have okOut : ∀ t ∈ ts, t.Valid ∧ t.Fits := fun t ht =>
        hok t (List.mem_cons_of_mem _ (List.mem_append_right _ (List.mem_cons_of_mem _ ht)))
      obtain ⟨h0, hne, -⟩ := hp.open_ne hc
      simp only [List.append_assoc]
      by_cases hlin : ∃ t ∈ inner, ¬ t.Short
      · obtain ⟨r, hr, hle⟩ := ih₁ hp okIn hlin ha (c'.lay f' ++ (b ++ q))
        refine ⟨r, Skip.over h0 hne (.block (hp.opens hf _) hr) .nul, ?_⟩
        simp only [List.length_append] at hle
        omega
      · have okIn' : ∀ t ∈ inner, t.Valid ∧ t.Fits ∧ t.Short := fun t ht =>
          ⟨(okIn t ht).1, (okIn t ht).2, not_not.mp fun hns => hlin ⟨t, ht, hns⟩⟩
        have hlong' := (exists_long_block hp hlong).resolve_left hlin
        obtain ⟨r, hr, hle⟩ := ih₂ hc okOut hlong' hb q
        exact ⟨r, Skip.over h0 hne (hin.skip_block hp okIn' ha hf f' _) hr, hle⟩

/-- `n_skipto` passes a properly nested run. -/
theorem Nested.finds (hn : Nested ts) (hc : Pair o c)
    (hok : ∀ t ∈ ts, t.Valid ∧ t.Fits ∧ t.Short) (hl : Lays ts bs) {r : Except Fault (List Byte)}
    (h0 : q.head? ≠ some 0) (hq : Finds c.opByte q r) :
    (bs ++ q).head? ≠ some 0 ∧ Finds c.opByte (bs ++ q) r := by
  induction hn generalizing bs q r with
  | nil =>
      cases hl
      exact ⟨h0, hq⟩
  | @leaf t ts ht _ ih =>
      cases hl with
      | @cons _ _ f bs hf hl =>
          obtain ⟨hv, hfit, hs⟩ := hok t List.mem_cons_self
          obtain ⟨h0', hrest⟩ := ih (fun t' ht' => hok t' (List.mem_cons_of_mem _ ht')) hl h0 hq
          rw [List.append_assoc]
          refine ⟨?_, ?_⟩
          · rw [Tok.lay_append_head]
            simpa using Tok.opByte_ne hv
          · by_cases hline : t.opByte = opLinenum
            · obtain ⟨n, rfl⟩ := Tok.eq_linenum hv hline
              exact Finds.line (length_writei4 n) h0' hrest
            · exact Finds.over (Tok.opByte_ne hv) hline (Tok.opByte_ne_close ht hc)
                (.leaf (Tok.leaf hv hs hfit (Tok.width_eq_zero ht) _)) hrest
  | @block o' c' inner ts hp hin _ _ ih₂ =>
      obtain ⟨f, a, f', b, hf, ha, hb, rfl⟩ := hl.split_block
      have okIn : ∀ t ∈ inner, t.Valid ∧ t.Fits ∧ t.Short := fun t ht =>
        hok t (List.mem_cons_of_mem _ (List.mem_append_left _ ht))
      have okOut : ∀ t ∈ ts, t.Valid ∧ t.Fits ∧ t.Short := fun t ht =>
        hok t (List.mem_cons_of_mem _ (List.mem_append_right _ (List.mem_cons_of_mem _ ht)))
      obtain ⟨hne0, hne, hline⟩ := hp.open_ne hc
      simp only [List.append_assoc]
      refine ⟨?_, ?_⟩
      · rw [Tok.lay_append_head]
        simpa using hne0
      · exact Finds.over hne0 hline hne (hin.skip_block hp okIn ha hf f' _) (ih₂ okOut hb h0 hq).2

/-- With a number of more than 255 bytes in the run, `n_skipto` reports that the close op is
missing. -/
theorem Nested.finds_long (hn : Nested ts) (hc : Pair o c) (hok : ∀ t ∈ ts, t.Valid ∧ t.Fits)
    (hlong : ∃ t ∈ ts, ¬ t.Short) (hl : Lays ts bs) (q : List Byte) :
    (bs ++ q).head? ≠ some 0 ∧
      Finds c.opByte (bs ++ q) (.error (.raised (.expected c.opByte))) := by
  induction hn generalizing bs with
  | nil =>
      obtain ⟨t, ht, -⟩ := hlong
      cases ht
  | @leaf t ts ht _ ih =>
      cases hl with
      | @cons _ _ f bs hf hl =>
          obtain ⟨hv, hfit⟩ := hok t List.mem_cons_self
          simp only [List.append_assoc]
          refine ⟨by rw [Tok.lay_append_head]; simpa using Tok.opByte_ne hv, ?_⟩
          by_cases hs : t.Short
          · have hlong' : ∃ t ∈ ts, ¬ t.Short := by
              obtain ⟨t', ht', hns⟩ := hlong
              rcases List.mem_cons.mp ht' with rfl | ht'
              · exact absurd hs hns
              · exact ⟨t', ht', hns⟩
            obtain ⟨h0', hrest⟩ := ih (fun t' ht' => hok t' (List.mem_cons_of_mem _ ht')) hlong' hl
            by_cases hline : t.opByte = opLinenum
            · obtain ⟨n, rfl⟩ := Tok.eq_linenum hv hline
              exact Finds.line (length_writei4 n) h0' hrest
            · exact Finds.over (Tok.opByte_ne hv) hline (Tok.opByte_ne_close ht hc)
                (.leaf (Tok.leaf hv hs hfit (Tok.width_eq_zero ht) _)) hrest
          · obtain ⟨-, -, ds, -, hds, hleaf⟩ := Tok.long hv hs f
            have hline : t.opByte ≠ opLinenum := by
              intro hline
              obtain ⟨n, rfl⟩ := Tok.eq_linenum hv hline
              exact hs trivial
            exact Finds.over (Tok.opByte_ne hv) hline (Tok.opByte_ne_close ht hc) (.leaf (hleaf _))
              (finds_digits hc hds _)
  | @block o' c' inner ts hp hin _ _ ih₂ =>
      obtain ⟨f, a, f', b, hf, ha, hb, rfl⟩ := hl.split_block
      have okIn : ∀ t ∈ inner, t.Valid ∧ t.Fits := fun t ht =>
        hok t (List.mem_cons_of_mem _ (List.mem_append_left _ ht))
      have okOut : ∀ t ∈ ts, t.Valid ∧ t.Fits := fun t ht =>
        hok t (List.mem_cons_of_mem _ (List.mem_append_right _ (List.mem_cons_of_mem _ ht)))
      obtain ⟨hne0, hne, hline⟩ := hp.open_ne hc
      simp only [List.append_assoc]
      refine ⟨by rw [Tok.lay_append_head]; simpa using hne0, ?_⟩
      by_cases hlin : ∃ t ∈ inner, ¬ t.Short
      · -- the skip over the block itself stops at the NUL
        obtain ⟨r, hr, -⟩ := hin.skip_long hp okIn hlin ha (c'.lay f' ++ (b ++ q))
        exact Finds.over hne0 hline hne (.block (hp.opens hf _) hr) .nul
      · have okIn' : ∀ t ∈ inner, t.Valid ∧ t.Fits ∧ t.Short := fun t ht =>
          ⟨(okIn t ht).1, (okIn t ht).2, not_not.mp fun hns => hlin ⟨t, ht, hns⟩⟩
        have hlong' := (exists_long_block hp hlong).resolve_left hlin
        exact Finds.over hne0 hline hne (hin.skip_block hp okIn' ha hf f' _) (ih₂ okOut hlong' hb).2

end Nested

end NullG.Nsp
