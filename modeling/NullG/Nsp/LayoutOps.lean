/-
Layout and program: when two layouts of the same lexemes give the same ops.

`streamOps` reads the ops of a stream without its line markers. `sameOps_iff` says that the
streams of two layouts hold the same ops exactly when the tokenizer reads equally many
lexemes of both, and line markers stand in the same places between `function` and a name: there a
marker moves the file's name in front of the function's.
-/

import NullG.Nsp.Framing
import NullG.Nsp.LayoutTable

namespace NullG.Nsp

open NullG.Lib

/-! ### The ops of a stream -/

/-- One op with its data and what follows it; the data of a number goes up to its NUL. -/
def readOp : List Byte → Option ((Byte × List Byte) × List Byte)
  | [] => none
  | o :: p =>
      if o = opStrdata ∨ o = opEstrdata then
        let n := LittleEndian.decode (p.take 4)
        some ((o, (p.drop 4).take n), p.drop (4 + n + 1))
      else if o = opLabel then
        let n := (p.headD 0).toNat
        some ((o, p.tail.take n), p.tail.drop (n + 1))
      else if o = opNumdata then
        let text := p.tail.takeWhile (· != 0)
        some ((o, text), p.tail.drop (text.length + 1))
      else if o = opLinenum then some ((o, p.take 4), p.drop 4)
      else if o = opPobrace then some ((o, []), p.drop 4)
      else if o = opPoparen then some ((o, []), p.drop 2)
      else some ((o, []), p)

/-- The ops that stand in `p`. -/
def readOps : Nat → List Byte → List (Byte × List Byte)
  | 0, _ => []
  | fuel + 1, p =>
      match readOp p with
      | none => []
      | some (v, p) => v :: readOps fuel p

/-- The ops of a stream without the line markers: those between the header and the four NULs. -/
def streamOps (buf : List Byte) : List (Byte × List Byte) :=
  (readOps buf.length ((buf.drop 20).take (buf.length - 24))).filter fun v => v.1 != opLinenum

theorem takeWhile_text {text : List Byte} (h : ∀ c ∈ text, NumByte c) (p : List Byte) :
    (text ++ 0 :: p).takeWhile (· != 0) = text := by
  induction text with
  | nil => rfl
  | cons c text ih =>
      have hc : (c != 0) = true := bne_iff_ne.mpr ((h c List.mem_cons_self).ne (by decide))
      rw [List.cons_append, List.takeWhile_cons_of_pos (p := (· != 0)) hc, ih fun d hd => h d (List.mem_cons_of_mem _ hd)]

/-- A token is read back from its bytes, whatever its length. -/
theorem Tok.readOp_lay {t : Tok} (hv : t.Valid) (hfit : t.Fits) {f : List Byte} (hf : f.length = t.width)
    (p : List Byte) : readOp (t.lay f ++ p) = some (t.view, p) := by
  cases hv with
  | line n =>
      show readOp (opLinenum :: (writei4 n ++ p)) = some ((opLinenum, writei4 n), p)
      simp +decide only [readOp, if_false, if_true, List.take_left' (length_writei4 n),
        List.drop_left' (length_writei4 n)]
  | @label text hlen =>
      show readOp (opLabel :: text.length.toUInt8 :: ((text ++ [0]) ++ p)) = some ((opLabel, text), p)
      have hn : text.length.toUInt8.toNat = text.length := by
        simp only [Nat.toUInt8, UInt8.toNat_ofNat']
        omega
      have hdrop : (text ++ [0]).length = text.length + 1 := by simp
      simp +decide only [readOp, if_false, if_true, List.headD_cons, List.tail_cons, hn,
        List.drop_left' hdrop]
      rw [List.append_assoc, List.take_left]
  | @num text hnum =>
      show readOp (opNumdata :: text.length.toUInt8 :: ((text ++ [0]) ++ p)) = some ((opNumdata, text), p)
      have hdrop : (text ++ [0]).length = text.length + 1 := by simp
      have htext : ((text ++ [0]) ++ p).takeWhile (· != 0) = text := by
        rw [List.append_assoc]
        exact takeWhile_text hnum p
      simp +decide only [readOp, if_false, if_true, List.tail_cons, htext, List.drop_left' hdrop]
  | @str o text hop =>
      have hlay : (Tok.op o text).lay f ++ p =
          o :: (writei4 text.length ++ ((text ++ [0]) ++ p)) := by
        rcases hop with rfl | rfl <;> simp +decide [Tok.lay, encTok]
      have hview : (Tok.op o text).view = (o, text) := by
        rcases hop with rfl | rfl <;> rfl
      have hdec : LittleEndian.decode (writei4 text.length) = text.length := by
        have hlt : text.length < 2 ^ 31 := hfit hop
        have hmod : ((text.length : Int) % 2 ^ 32).toNat = text.length := by omega
        rw [writei4, hmod, LittleEndian.decode_encode_of_lt (by omega)]
      have hdrop : (writei4 text.length ++ (text ++ [0])).length = 4 + text.length + 1 := by
        simp [length_writei4]
        omega
      rw [hlay, hview]
      simp only [readOp, if_pos hop, List.take_left' (length_writei4 _), hdec,
        List.drop_left' (length_writei4 _)]
      rw [← List.append_assoc (writei4 _), List.drop_left' hdrop, List.append_assoc, List.take_left]
  | @sym o text hop =>
      have hne : o ≠ opStrdata ∧ o ≠ opEstrdata ∧ o ≠ opNumdata ∧ o ≠ opLabel ∧ o ≠ opLinenum := by
        refine ⟨?_, ?_, ?_, ?_, ?_⟩ <;> rintro rfl <;> revert hop <;> decide
      obtain ⟨h1, h2, h3, h4, h5⟩ := hne
      have hview : (Tok.op o text).view = (o, []) := by
        simp only [Tok.view, h1, h2, h3, h4, or_self, if_false]
      rw [hview]
      by_cases h6 : o = opPobrace
      · subst h6
        have hlen : f.length = 4 := hf
        show readOp (opPobrace :: (f ++ p)) = _
        simp +decide only [readOp, if_false, if_true, List.drop_left' hlen]
      · by_cases h7 : o = opPoparen
        · subst h7
          have hlen : f.length = 2 := hf
          show readOp (opPoparen :: (f ++ p)) = _
          simp +decide only [readOp, if_false, if_true, List.drop_left' hlen]
        · have hlay : (Tok.op o text).lay f ++ p = o :: p := by
            simp only [Tok.lay, encTok, h1, h2, h3, h4, h6, h7, or_self, if_false, List.singleton_append]
          rw [hlay]
          simp only [readOp, h1, h2, h3, h4, h5, h6, h7, or_self, if_false]

theorem readOps_lays {ts : List Tok} {bs : List Byte} (hok : ∀ t ∈ ts, t.Valid ∧ t.Fits)
    (hl : Lays ts bs) {fuel : Nat} (hfuel : bs.length < fuel) : readOps fuel bs = ts.map Tok.view := by
  induction hl generalizing fuel with
  | nil =>
      obtain ⟨fuel, rfl⟩ : ∃ k, fuel = k + 1 := ⟨fuel - 1, by omega⟩
      rfl
  | @cons t ts f bs hf _ ih =>
      obtain ⟨hv, hfit⟩ := hok t List.mem_cons_self
      obtain ⟨fuel, rfl⟩ : ∃ k, fuel = k + 1 := ⟨fuel - 1, by omega⟩
      obtain ⟨tail, hcons⟩ := t.lay_eq_cons f
      have hlt : bs.length < fuel := by
        rw [hcons, List.length_append, List.length_cons] at hfuel
        omega
      simp only [readOps, Tok.readOp_lay hv hfit hf, List.map_cons,
        ih (fun u hu => hok u (List.mem_cons_of_mem _ hu)) hlt]

/-- What is seen of tokens that are no line markers. -/
def views (ts : List Tok) : List (Byte × List Byte) :=
  (ts.map Tok.view).filter fun v => v.1 != opLinenum

theorem IsStream.streamOps_eq {ts : List Tok} {buf : List Byte} (h : IsStream ts buf) :
    streamOps buf = views ts := by
  obtain ⟨⟨bs, hfix, rfl⟩, hsound, -⟩ := h
  have hbs : bs.length = size ts := hfix.lays.length_eq
  have hbuf : (headerOf (20 + size ts) ++ (bs ++ trailer)).length = bs.length + 24 := by
    rw [List.length_append, List.length_append, show (headerOf (20 + size ts)).length = 20 from rfl,
      show trailer.length = 4 from rfl]
    omega
  have hdrop : (headerOf (20 + size ts) ++ (bs ++ trailer)).drop 20 = bs ++ trailer := rfl
  rw [streamOps, views, hbuf, hdrop, Nat.add_sub_cancel, List.take_left,
    readOps_lays hsound hfix.lays (by omega)]

/-! ### The ops of a layout -/

/-- The ops written for the lexemes that are read behind `prev`: the name `file` goes behind each
`function`, and behind its name where no line marker stands between. `owed` tells that a
`function` stands before them, `m` that a line marker does. -/
def outline (file : Tok) : Bool → Bool → Byte → List Read → List (Byte × List Byte)
  | owed, _, _, [] => if owed then [file.view] else []
  | owed, m, prev, r :: rs =>
      let t := r.lexeme.tok prev
      (if owed then
        if t.opByte = opLabel ∧ (m || r.before) = false then [t.view, file.view] else [file.view, t.view]
      else [t.view]) ++ outline file (t.opByte == opKfunc) r.after r.lexeme.prevop rs

/-- For each `function` with a name other than `file`, whether a line marker stands between. -/
def nameMarks (file : Tok) : Bool → Bool → Byte → List Read → List Bool
  | _, _, _, [] => []
  | owed, m, prev, r :: rs =>
      let t := r.lexeme.tok prev
      (if owed ∧ t.opByte = opLabel ∧ t.view ≠ file.view then [m || r.before] else []) ++
        nameMarks file (t.opByte == opKfunc) r.after r.lexeme.prevop rs

/-- The line markers between `function` and the names that are read of a layout. -/
def Layout.nameMarks (L : Layout) (srcfile : Option (List Byte)) : List Bool :=
  NullG.Nsp.nameMarks (fileLabel srcfile) false false 0 L.read

theorem Lexeme.tok_ne_linenum (t : Lexeme) (prev : Byte) : (t.tok prev).opByte ≠ opLinenum := by
  cases t with
  | word c name h h' hlen =>
      simp only [Lexeme.tok]
      split
      · rename_i k hk
        split
        · exact (by decide : opLabel ≠ opLinenum)
        · rintro rfl
          exact absurd (findop_keywords hk).2.2 (by decide)
      · exact (by decide : opLabel ≠ opLinenum)
  | num c text h h' => exact (by decide : opNumdata ≠ opLinenum)
  | str q verbatim body h h' hlen =>
      show quoteOp q ≠ opLinenum
      unfold quoteOp
      split <;> decide
  | math row h =>
      intro heq
      have hmath := (mathops_shape row h).2.1.2.2.1
      rw [show row.value = opLinenum from heq] at hmath
      exact absurd hmath (by decide)
  | punc c h =>
      obtain ⟨-, -, -, o, ho, -, -, hpunc, -⟩ := isPuncop_class h
      intro heq
      have hop : (Lexeme.punc c h).op = o := by simp only [Lexeme.op, ho, Option.getD_some]
      rw [show (Lexeme.punc c h).op = opLinenum from heq] at hop
      rw [← hop] at hpunc
      exact absurd hpunc (by decide)

theorem views_cons {t : Tok} (h : t.opByte ≠ opLinenum) (ts : List Tok) :
    views (t :: ts) = t.view :: views ts := by
  have hview : t.view.1 = t.opByte := by cases t <;> rfl
  simp only [views, List.map_cons, List.filter_cons, hview, bne_iff_ne.mpr h, if_true]

theorem views_markers (ls : List Nat) (ts : List Tok) : views (markers ls ++ ts) = views ts := by
  induction ls with
  | nil => rfl
  | cons n ls ih =>
      rw [← ih]
      rfl

theorem withFiles_markers (srcfile : Option (List Byte)) (ls : List Nat) (ts : List Tok) :
    withFiles srcfile false (markers ls ++ ts) = markers ls ++ withFiles srcfile false ts := by
  induction ls with
  | nil => rfl
  | cons n ls ih =>
      show Tok.linenum n :: withFiles srcfile false (markers ls ++ ts) = _
      rw [ih]
      rfl

theorem endsInFunction_markers {ls : List Nat} {ts : List Tok} (hts : ts ≠ []) :
    EndsInFunction (markers ls ++ ts) ↔ EndsInFunction ts := by
  rw [EndsInFunction, List.getLast?_append_of_ne_nil _ hts]
  exact Iff.rfl

/-- The token table gives the ops of the outline. -/
theorem views_withFiles {srcfile : Option (List Byte)} {prev : Byte} {m : Bool} {rs : List Read}
    {ts : List Tok} (h : Table prev m rs ts) {owed : Bool} (howed : owed = true → ts ≠ [])
    (hend : ¬ EndsInFunction ts) :
    views (withFiles srcfile owed ts) = outline (fileLabel srcfile) owed m prev rs := by
  have hfile : (fileLabel srcfile).opByte ≠ opLinenum := (by decide : opLabel ≠ opLinenum)
  induction h generalizing owed with
  | @nil prev m ls =>
      have hnil : views (markers ls) = [] := by
        have := views_markers ls []
        rwa [List.append_nil] at this
      cases owed with
      | false =>
          have := withFiles_markers srcfile ls []
          rw [List.append_nil] at this
          rw [this, withFiles, List.append_nil, hnil]
          rfl
      | true =>
          cases ls with
          | nil => exact absurd rfl (howed rfl)
          | cons n ls =>
              have hmark := withFiles_markers srcfile (n :: ls) []
              rw [List.append_nil] at hmark
              show views (fileLabel srcfile :: withFiles srcfile false (markers (n :: ls))) = _
              rw [views_cons hfile, hmark, withFiles, List.append_nil, hnil]
              rfl
  | @cons prev m r rs ts ls hls htab ih =>
      have hne := r.lexeme.tok_ne_linenum prev
      generalize ht : r.lexeme.tok prev = t at *
      have hend' : ¬ EndsInFunction (t :: ts) := by
        rwa [endsInFunction_markers (List.cons_ne_nil _ _)] at hend
      have hrest : ¬ EndsInFunction ts ∧ (t.opByte = opKfunc → ts ≠ []) := by
        cases ts with
        | nil => exact ⟨by decide, fun hf _ => hend' (congrArg some hf)⟩
        | cons u ts => exact ⟨fun he => hend' (endsInFunction_cons.mpr he), fun _ => List.cons_ne_nil _ _⟩
      have htail : views (withFiles srcfile (t.opByte == opKfunc) ts) =
          outline (fileLabel srcfile) (t.opByte == opKfunc) r.after r.lexeme.prevop rs :=
        ih (fun hf => hrest.2 (beq_iff_eq.mp hf)) hrest.1
      -- a `function` without a marker behind it looks at the token itself
      have here : views (withFiles srcfile true (t :: ts)) =
          (if t.opByte = opLabel then [t.view, (fileLabel srcfile).view]
            else [(fileLabel srcfile).view, t.view]) ++
              outline (fileLabel srcfile) (t.opByte == opKfunc) r.after r.lexeme.prevop rs := by
        simp only [withFiles]
        split
        · rename_i hlab
          have hnf : (t.opByte == opKfunc) = false := by
            rw [hlab]
            decide
          rw [views_cons hne, views_cons hfile, ← htail, hnf]
          rfl
        · rw [views_cons hfile, views_cons hne, htail]
          rfl
      have plain : views (withFiles srcfile false (t :: ts)) =
          t.view :: outline (fileLabel srcfile) (t.opByte == opKfunc) r.after r.lexeme.prevop rs := by
        rw [withFiles, views_cons hne, htail]
      simp only [outline, ht]
      cases owed with
      | false =>
          rw [withFiles_markers, views_markers, plain, if_neg Bool.false_ne_true]
          rfl
      | true =>
          rw [if_pos rfl]
          cases ls with
          | nil =>
              have hm : (m || r.before) = false := by
                rw [← Bool.not_eq_true, ← hls]
                exact fun h => h rfl
              simp only [hm, and_true]
              exact here
          | cons n ls =>
              have hm : (m || r.before) = true := hls.mp (List.cons_ne_nil _ _)
              simp only [hm, Bool.true_eq_false, and_false, if_false]
              show views (fileLabel srcfile :: withFiles srcfile false (markers (n :: ls) ++ t :: ts)) = _
              rw [views_cons hfile, withFiles_markers, views_markers, plain]
              rfl

/-! ### Two layouts -/

section Two

variable {file : Tok} {owed m m₁ m₂ : Bool} {prev : Byte} {rs rs₁ rs₂ : List Read}

theorem outline_cons_length (r : Read) : (outline file owed m prev (r :: rs)).length =
    (if owed then 2 else 1) +
      (outline file ((r.lexeme.tok prev).opByte == opKfunc) r.after r.lexeme.prevop rs).length := by
  simp only [outline, List.length_append]
  cases owed with
  | false => rfl
  | true =>
      rw [if_pos rfl, if_pos rfl]
      split <;> rfl

/-- Each lexeme that is read gives an op. -/
theorem le_length_outline : (if owed then 1 else 0) + rs.length ≤ (outline file owed m prev rs).length := by
  induction rs generalizing owed m prev with
  | nil => cases owed <;> simp [outline]
  | cons r rs ih =>
      have hrest := @ih ((r.lexeme.tok prev).opByte == opKfunc) r.after r.lexeme.prevop
      rw [outline_cons_length, List.length_cons]
      cases owed
      · simp only [Bool.false_eq_true, if_false]
        omega
      · simp only [if_true]
        omega

/-- Of two texts with the same lexemes, more ops come from the one of which more is read. -/
theorem length_outline_lt (h : rs₁.map Read.lexeme <+: rs₂.map Read.lexeme) :
    (outline file owed m₁ prev rs₁).length + (rs₂.length - rs₁.length) ≤
      (outline file owed m₂ prev rs₂).length := by
  induction rs₁ generalizing owed m₁ m₂ prev rs₂ with
  | nil =>
      have := @le_length_outline file owed m₂ prev rs₂
      cases owed <;> simpa [outline] using this
  | cons r₁ rs₁ ih =>
      cases rs₂ with
      | nil =>
          obtain ⟨x, hx⟩ := h
          cases hx
      | cons r₂ rs₂ =>
          rw [List.map_cons, List.map_cons, List.cons_prefix_cons] at h
          obtain ⟨hlex, h⟩ := h
          have hrest := @ih ((r₂.lexeme.tok prev).opByte == opKfunc) r₁.after r₂.after r₂.lexeme.prevop
            rs₂ h
          rw [outline_cons_length, outline_cons_length, hlex, List.length_cons, List.length_cons]
          omega

/-- The same lexemes give the same ops exactly when the markers at the names are the same. -/
theorem outline_eq_iff (h : rs₁.map Read.lexeme = rs₂.map Read.lexeme) :
    outline file owed m₁ prev rs₁ = outline file owed m₂ prev rs₂ ↔
      nameMarks file owed m₁ prev rs₁ = nameMarks file owed m₂ prev rs₂ := by
  induction rs₁ generalizing owed m₁ m₂ prev rs₂ with
  | nil =>
      cases rs₂ with
      | nil => exact iff_of_true rfl rfl
      | cons r₂ rs₂ => cases h
  | cons r₁ rs₁ ih =>
      cases rs₂ with
      | nil => cases h
      | cons r₂ rs₂ =>
          rw [List.map_cons, List.map_cons, List.cons.injEq] at h
          obtain ⟨hlex, h⟩ := h
          have hrest := @ih ((r₂.lexeme.tok prev).opByte == opKfunc) r₁.after r₂.after r₂.lexeme.prevop
            rs₂ h
          simp only [outline, nameMarks, hlex]
          generalize r₂.lexeme.tok prev = t at hrest ⊢
          cases owed with
          | false =>
              simp only [Bool.false_eq_true, if_false, false_and, List.nil_append, List.singleton_append,
                List.cons.injEq, true_and]
              exact hrest
          | true =>
              simp only [if_true, true_and]
              by_cases hlab : t.opByte = opLabel
              · by_cases hview : t.view = file.view
                · -- the name is the file's: its place does not show
                  simp only [hlab, true_and, hview, ne_eq, not_true_eq_false, and_false, if_false,
                    List.nil_append, ite_self]
                  rw [List.append_cancel_left_eq, ← hlab]
                  exact hrest
                · simp only [hlab, true_and, ne_eq, hview, not_false_eq_true, if_true,
                    List.singleton_append, List.cons.injEq]
                  rw [← hlab] at *
                  cases hm₁ : (m₁ || r₁.before) <;> cases hm₂ : (m₂ || r₂.before)
                  · simpa using hrest
                  · simpa using fun heq => absurd heq hview
                  · simpa using fun heq => absurd heq.symm hview
                  · simpa using hrest
              · simp only [hlab, false_and, if_false, List.nil_append]
                rw [List.append_cancel_left_eq]
                exact hrest

end Two

theorem Items.read_prefix (is : Items) : (Items.read is).map Read.lexeme <+: is.map Prod.fst := by
  induction is with
  | nil => exact List.nil_prefix
  | cons i is ih =>
      obtain ⟨t, g⟩ := i
      have hif : ∀ {b : Bool}, (if b = true then Items.read is else []).map Read.lexeme <+:
          is.map Prod.fst := by
        intro b
        cases b
        · exact List.nil_prefix
        · exact ih
      simp only [Items.read]
      split
      · exact List.nil_prefix
      · split
        · exact List.cons_prefix_cons.mpr ⟨rfl, hif⟩
        · exact List.cons_prefix_cons.mpr ⟨rfl, hif⟩

theorem Layout.read_prefix (L : Layout) : L.read.map Read.lexeme <+: L.lexemes := by
  rw [Layout.read]
  split
  · exact Items.read_prefix _
  · exact List.nil_prefix

/-- The ops of the stream of a layout. -/
theorem streamOps_layout {N : Scanner} {srcfile : Option (List Byte)} {L : Layout} {warnings : Int}
    {buf : List Byte} (hfile : (srcfile.getD []).length ≤ maxObjnamelen)
    (h : nDecompose N srcfile L.text warnings = .ok (some buf)) :
    streamOps buf = outline (fileLabel srcfile) false (Gap.feeds L.lead.run.1) 0 L.read := by
  have hchew : chewed L.text = false := by
    rw [← Bool.not_eq_true]
    intro hchew
    rw [nDecompose, if_pos hchew] at h
    obtain ⟨s, -, h⟩ := bind_eq_ok.mp h
    cases h
  have hlex : ∃ s, nDecomposeSub N (Lex.start L.text warnings) = .ok s := by
    rw [nDecompose, hchew] at h
    obtain ⟨s, hs, -⟩ := bind_eq_ok.mp h
    exact ⟨s, hs⟩
  obtain ⟨s, hlex⟩ := hlex
  have htab := nDecomposeSub_layout L hlex
  have hends := nDecompose_spec hchew (Nat.le_trans hfile (by decide)) hlex
  rw [h] at hends
  rcases hends with hends | ⟨e, hends⟩ | hends
  · cases hends
  · cases hends
  split at hends
  · cases hends
  · rename_i hend
    obtain ⟨buf', hbuf, hstream⟩ := hends
    cases hbuf
    rw [hstream.streamOps_eq, ← views_withFiles htab (fun h => by cases h) hend]
    exact views_markers [1] _

theorem nameMarks_start (file : Tok) (m : Bool) (prev : Byte) (rs : List Read) :
    nameMarks file false m prev rs = nameMarks file false false prev rs := by
  cases rs with
  | nil => rfl
  | cons r rs => simp only [nameMarks, Bool.false_eq_true, false_and, if_false]

/-- The streams of two layouts of the same lexemes hold the same ops exactly when equally many
lexemes of both are read, and line markers stand in the same places between `function` and a
name that is not the source file's. -/
theorem sameOps_iff {N : Scanner} {srcfile : Option (List Byte)} {L₁ L₂ : Layout} {w₁ w₂ : Int}
    {buf₁ buf₂ : List Byte} (hfile : (srcfile.getD []).length ≤ maxObjnamelen)
    (hlex : L₁.lexemes = L₂.lexemes) (h₁ : nDecompose N srcfile L₁.text w₁ = .ok (some buf₁))
    (h₂ : nDecompose N srcfile L₂.text w₂ = .ok (some buf₂)) :
    streamOps buf₁ = streamOps buf₂ ↔
      L₁.read.length = L₂.read.length ∧ L₁.nameMarks srcfile = L₂.nameMarks srcfile := by
  have hpre₁ := L₁.read_prefix
  have hpre₂ := L₂.read_prefix
  rw [← hlex] at hpre₂
  rw [streamOps_layout hfile h₁, streamOps_layout hfile h₂]
  by_cases hlen : L₁.read.length = L₂.read.length
  · have hsame : L₁.read.map Read.lexeme = L₂.read.map Read.lexeme := by
      refine (List.prefix_of_prefix_length_le hpre₁ hpre₂ ?_).eq_of_length ?_
      · simp only [List.length_map, hlen, Nat.le_refl]
      · simp only [List.length_map, hlen]
    rw [outline_eq_iff hsame, nameMarks_start, nameMarks_start (m := Gap.feeds L₂.lead.run.1)]
    exact (and_iff_right hlen).symm
  · -- more ops come from the layout of which more is read
    refine iff_of_false ?_ fun h => hlen h.1
    intro heq
    have hlength := congrArg List.length heq
    rcases Nat.lt_or_gt_of_ne hlen with hlt | hlt
    · have hpre : L₁.read.map Read.lexeme <+: L₂.read.map Read.lexeme := by
        refine List.prefix_of_prefix_length_le hpre₁ hpre₂ ?_
        simp only [List.length_map]
        omega
      have := @length_outline_lt (fileLabel srcfile) false (Gap.feeds L₁.lead.run.1)
        (Gap.feeds L₂.lead.run.1) 0 _ _ hpre
      omega
    · have hpre : L₂.read.map Read.lexeme <+: L₁.read.map Read.lexeme := by
        refine List.prefix_of_prefix_length_le hpre₂ hpre₁ ?_
        simp only [List.length_map]
        omega
      have := @length_outline_lt (fileLabel srcfile) false (Gap.feeds L₂.lead.run.1)
        (Gap.feeds L₁.lead.run.1) 0 _ _ hpre
      omega

/-- The layouts of a number, a plus sign and a number with one gap behind the first number. -/
def sumLayout (g : Gap) : Layout where
  lead := []
  items := [(.num (ch '1') [] rfl (fun _ h => by cases h), g),
    (.math ⟨bytes "+", opMadd, 3⟩ (by decide), []), (.num (ch '2') [] rfl (fun _ h => by cases h), [])]
  apart := by
    refine ⟨?_, (fun h => by cases h), ?_, (fun h => by cases h), ?_, (fun h => by cases h), trivial⟩
    · rintro rfl c h
      cases h
      rfl
    · rintro - c h
      cases h
      rfl
    · rintro - c h
      cases h

/-- A blank changes nothing: both layouts are read whole. -/
theorem sameOps_blank :
    streamOps ([13, 172, 0, 0, 0, 0, 0, 0, 34, 0, 0, 0, 20, 0, 0, 0, 0, 0, 0, 0] ++
        ([186, 1, 0, 0, 0, 182, 1, 49, 0, 239, 182, 1, 50, 0] ++ [0, 0, 0, 0])) =
      streamOps ([13, 172, 0, 0, 0, 0, 0, 0, 34, 0, 0, 0, 20, 0, 0, 0, 0, 0, 0, 0] ++
        ([186, 1, 0, 0, 0, 182, 1, 49, 0, 239, 182, 1, 50, 0] ++ [0, 0, 0, 0])) ↔
      (sumLayout []).read.length = (sumLayout [.space 32 rfl]).read.length ∧
        (sumLayout []).nameMarks none = (sumLayout [.space 32 rfl]).nameMarks none :=
  @sameOps_iff ⟨true, 10⟩ none _ _ 0 0 _ _ (by decide) rfl (by decide) (by decide)

/-- Behind the second of two comments nothing is read: of the sum its first number is left. -/
theorem not_sameOps_comments :
    (sumLayout []).lexemes = (sumLayout [.block [] trivial, .block [] trivial]).lexemes ∧
      ∃ buf₁ buf₂, nDecompose ⟨true, 10⟩ none (sumLayout []).text 0 = .ok (some buf₁) ∧
        nDecompose ⟨true, 10⟩ none (sumLayout [.block [] trivial, .block [] trivial]).text 0 =
          .ok (some buf₂) ∧
        streamOps buf₁ ≠ streamOps buf₂ := by
  refine ⟨rfl, [13, 172, 0, 0, 0, 0, 0, 0, 34, 0, 0, 0, 20, 0, 0, 0, 0, 0, 0, 0] ++
      ([186, 1, 0, 0, 0, 182, 1, 49, 0, 239, 182, 1, 50, 0] ++ [0, 0, 0, 0]),
    [13, 172, 0, 0, 0, 0, 0, 0, 29, 0, 0, 0, 20, 0, 0, 0, 0, 0, 0, 0] ++
      ([186, 1, 0, 0, 0, 182, 1, 49, 0] ++ [0, 0, 0, 0]), ?_, ?_, ?_⟩
  · decide
  · decide
  · decide

end NullG.Nsp
