/-
Framing of the op stream.

* `framed_iff` — the walk over the stream visits the emitted tokens and ends at the file
  size exactly when every number literal fits its length byte and the text does not end in
  `function`.
* `jumpsAgree_iff` — a block's length field and `n_skipto` agree on its end exactly when
  the contents of parentheses fit two bytes, and no such number stands in a block.
-/

import NullG.Nsp.Fixup

namespace NullG.Nsp

open NullG.Lib

/-! ### Walking the stream -/

/-- What a reader of the stream sees of a token: its op and its data. -/
def Tok.view : Tok → Byte × List Byte
  | .linenum n => (opLinenum, writei4 n)
  | .op o text =>
      (o, if o = opStrdata ∨ o = opEstrdata ∨ o = opNumdata ∨ o = opLabel then text else [])

theorem opData_text {o n : Byte} (h : o = opNumdata ∨ o = opLabel) (p : List Byte) :
    opData (o :: n :: p) = .ok (o, p.take n.toNat) := by
  have hns : ¬ (o = opStrdata ∨ o = opEstrdata) := by rcases h with rfl | rfl <;> decide
  simp only [opData, deref, ok_bind, if_neg hns, if_pos h, List.tail_cons, pure_eq_ok,
    List.drop_succ_cons, List.drop_zero]

/-- The data of a token that is short is read back as it was written. -/
theorem Tok.opData_lay {t : Tok} (hv : t.Valid) (hs : t.Short) (hfit : t.Fits) (f p : List Byte) :
    opData (t.lay f ++ p) = .ok t.view := by
  cases hv with
  | line n =>
      show opData (opLinenum :: (writei4 n ++ p)) = .ok (opLinenum, writei4 n)
      simp +decide only [opData, deref, ok_bind, if_false, if_true, List.tail_cons, pure_eq_ok,
        List.take_left' (length_writei4 n)]
  | @label text hlen =>
      show opData (opLabel :: text.length.toUInt8 :: ((text ++ [0]) ++ p)) = .ok (opLabel, text)
      have hn : text.length.toUInt8.toNat = text.length := by
        simp only [Nat.toUInt8, UInt8.toNat_ofNat']
        omega
      rw [opData_text (.inr rfl), hn, List.append_assoc, List.take_left]
  | @num text _ =>
      show opData (opNumdata :: text.length.toUInt8 :: ((text ++ [0]) ++ p)) = .ok (opNumdata, text)
      have hlen : text.length ≤ 255 := hs rfl
      have hn : text.length.toUInt8.toNat = text.length := by
        simp only [Nat.toUInt8, UInt8.toNat_ofNat']
        omega
      rw [opData_text (.inl rfl), hn, List.append_assoc, List.take_left]
  | @str o text hop =>
      have hlay : (Tok.op o text).lay f ++ p =
          o :: (writei4 text.length ++ ((text ++ [0]) ++ p)) := by
        rcases hop with rfl | rfl <;> simp +decide [Tok.lay, encTok]
      have hview : (Tok.op o text).view = (o, text) := by
        rcases hop with rfl | rfl <;> rfl
      rw [hlay, hview]
      simp only [opData, deref, ok_bind, if_pos hop, List.tail_cons, readi4_writei4 (hfit hop), pure_eq_ok,
        List.drop_succ_cons, List.drop_left' (length_writei4 _), Int.toNat_natCast]
      rw [List.append_assoc, List.take_left]
  | @sym o text hop =>
      have hne : o ≠ opStrdata ∧ o ≠ opEstrdata ∧ o ≠ opNumdata ∧ o ≠ opLabel ∧ o ≠ opLinenum := by
        refine ⟨?_, ?_, ?_, ?_, ?_⟩ <;> rintro rfl <;> revert hop <;> decide
      obtain ⟨h1, h2, h3, h4, h5⟩ := hne
      obtain ⟨tail, hcons⟩ := (Tok.op o text).lay_eq_cons f
      rw [hcons]
      simp only [Tok.opByte, Tok.view, opData, List.cons_append, deref, ok_bind, h1, h2, h3, h4, h5,
        or_self, if_false, pure_eq_ok]

/-- Of a number of more than 255 bytes a reader sees less. -/
theorem Tok.opData_long {t : Tok} (hv : t.Valid) (hs : ¬ t.Short) (f p : List Byte) :
    ∃ v, opData (t.lay f ++ p) = .ok v ∧ v ≠ t.view := by
  cases hv with
  | line => exact absurd trivial hs
  | label => exact absurd (fun h => absurd h (by decide)) hs
  | str text hop => exact absurd (fun h => by rcases hop with rfl | rfl <;> exact absurd h (by decide)) hs
  | sym text hop => exact absurd (fun h => by subst h; exact absurd hop (by decide)) hs
  | @num text _ =>
      have hlong : 255 < text.length := by
        apply Nat.lt_of_not_le
        intro h
        exact hs fun _ => h
      show ∃ v, opData (opNumdata :: text.length.toUInt8 :: ((text ++ [0]) ++ p)) = .ok v ∧
        v ≠ (opNumdata, text)
      refine ⟨_, opData_text (.inl rfl) _, ?_⟩
      intro heq
      have hlen := congrArg List.length (congrArg Prod.snd heq)
      simp only [List.length_take, Nat.toUInt8, UInt8.toNat_ofNat'] at hlen
      omega

/-- `n_seekop(p, 0)` passes a token that is short. -/
theorem Tok.nSeekop_lay {t : Tok} (hv : t.Valid) (hs : t.Short) (hfit : t.Fits) {f : List Byte}
    (hf : f.length = t.width) (p : List Byte) : nSeekop (t.lay f ++ p) false = .ok p := by
  by_cases hw : t.width = 0
  · exact seekop_leaf (Tok.leaf hv hs hfit hw p) _ _
  · obtain ⟨c, hp⟩ := Tok.exists_pair hw
    exact seekop_opens (hp.opens hf p) _

section Walk

variable {ts : List Tok} {bs : List Byte} {fuel : Nat}

theorem walk_round {t : Tok} {f p : List Byte} {v : Byte × List Byte} {q : List Byte}
    (hv : opData (t.lay f ++ (p ++ trailer)) = .ok v)
    (hq : nSeekop (t.lay f ++ (p ++ trailer)) false = .ok q) :
    walk 4 (fuel + 1) (t.lay f ++ (p ++ trailer)) =
      (walk 4 fuel q >>= fun r => .ok (v :: r.1, r.2)) := by
  have hlen : ¬ (t.lay f ++ (p ++ trailer)).length ≤ 4 := by
    obtain ⟨tail, hcons⟩ := t.lay_eq_cons f
    have : trailer.length = 4 := rfl
    simp only [hcons, List.length_append, List.length_cons]
    omega
  simp only [walk, if_neg hlen, hv, hq, ok_bind]
  rfl

/-- The walk over tokens that are all short visits them in order, and ends behind them. -/
theorem walk_lays (hok : ∀ t ∈ ts, t.Valid ∧ t.Fits ∧ t.Short) (hl : Lays ts bs)
    (hfuel : (bs ++ trailer).length < fuel) :
    walk 4 fuel (bs ++ trailer) = .ok (ts.map Tok.view, trailer) := by
  induction hl generalizing fuel with
  | nil =>
      obtain ⟨fuel, rfl⟩ : ∃ k, fuel = k + 1 := ⟨fuel - 1, by omega⟩
      rfl
  | @cons t ts f bs hf _ ih =>
      obtain ⟨hv, hfit, hs⟩ := hok t List.mem_cons_self
      obtain ⟨tail, hcons⟩ := t.lay_eq_cons f
      obtain ⟨fuel, rfl⟩ : ∃ k, fuel = k + 1 := ⟨fuel - 1, by omega⟩
      rw [List.append_assoc] at hfuel ⊢
      have hlt : (bs ++ trailer).length < fuel := by
        rw [hcons, List.length_append, List.length_cons] at hfuel
        omega
      rw [walk_round (Tok.opData_lay hv hs hfit f _) (Tok.nSeekop_lay hv hs hfit hf _),
        ih (fun u hu => hok u (List.mem_cons_of_mem _ hu)) hlt]
      rfl

/-- The walk over tokens with a number of more than 255 bytes sees other tokens. -/
theorem walk_long (hok : ∀ t ∈ ts, t.Valid ∧ t.Fits) (hlong : ∃ t ∈ ts, ¬ t.Short) (hl : Lays ts bs)
    {e : List Byte} : walk 4 fuel (bs ++ trailer) ≠ .ok (ts.map Tok.view, e) := by
  induction hl generalizing fuel with
  | nil =>
      obtain ⟨t, ht, -⟩ := hlong
      cases ht
  | @cons t ts f bs hf _ ih =>
      intro h
      cases fuel with
      | zero => cases h
      | succ fuel =>
          obtain ⟨hv, hfit⟩ := hok t List.mem_cons_self
          rw [List.append_assoc] at h
          by_cases hs : t.Short
          · rw [walk_round (Tok.opData_lay hv hs hfit f _) (Tok.nSeekop_lay hv hs hfit hf _)] at h
            obtain ⟨⟨vs, e'⟩, hrest, h⟩ := bind_eq_ok.mp h
            simp only [Except.ok.injEq, Prod.mk.injEq, List.map_cons, List.cons.injEq, true_and] at h
            obtain ⟨rfl, rfl⟩ := h
            have hlong' : ∃ t ∈ ts, ¬ t.Short := by
              obtain ⟨u, hu, hns⟩ := hlong
              rcases List.mem_cons.mp hu with rfl | hu
              · exact absurd hs hns
              · exact ⟨u, hu, hns⟩
            exact ih (fun u hu => hok u (List.mem_cons_of_mem _ hu)) hlong' hrest
          · obtain ⟨v, hdata, hne⟩ := Tok.opData_long hv hs f (bs ++ trailer)
            obtain ⟨-, -, ds, -, -, hleaf⟩ := Tok.long hv hs f
            rw [walk_round hdata (seekop_leaf (hleaf (bs ++ trailer)) _ _)] at h
            obtain ⟨⟨vs, e'⟩, -, h⟩ := bind_eq_ok.mp h
            simp only [Except.ok.injEq, Prod.mk.injEq, List.map_cons, List.cons.injEq] at h
            exact hne h.1.1

end Walk

/-! ### The whole stream -/

/-- The stream of `n_decompose` for the tokens `ts`: the header with the file size, the
tokens with the lengths of blocks filled in, and four NULs. -/
structure IsStream (ts : List Tok) (buf : List Byte) : Prop where
  laid : ∃ bs, Fixed ts bs ∧ buf = headerOf (20 + size ts) ++ (bs ++ trailer)
  sound : ∀ t ∈ ts, t.Valid ∧ t.Fits
  int : 20 + size ts < 2 ^ 31

theorem emitted_sound {srcfile : Option (List Byte)} {s : Lex} (hs : s.Sound)
    (hfile : (srcfile.getD []).length ≤ 255) : ∀ t ∈ emitted srcfile s.code, t.Valid := by
  intro t ht
  rcases List.mem_cons.mp ht with rfl | ht
  · exact .line 1
  · rcases mem_withFiles ht with rfl | ht
    · exact .label hfile
    · exact hs t ht

theorem fits_of_size {ts : List Tok} (h : size ts < 2 ^ 31) : ∀ t ∈ ts, t.Fits := by
  intro t ht
  cases t with
  | linenum => trivial
  | op o text =>
      intro hop
      obtain ⟨pre, post, rfl⟩ := List.append_of_mem ht
      have hlen : text.length ≤ (encTok (.op o text)).length := by
        rcases hop with rfl | rfl
        · simp +decide [encTok]
          omega
        · simp +decide [encTok]
          omega
      rw [size_append, size_cons] at h
      omega

/-- The ways `n_decompose` can end once its text is tokenized. -/
theorem nDecompose_spec {N : Scanner} {srcfile : Option (List Byte)} {text : List Byte}
    {warnings : Int} {s : Lex} (hchew : chewed text = false) (hfile : (srcfile.getD []).length ≤ 255)
    (hlex : nDecomposeSub N (Lex.start text warnings) = .ok s) :
    nDecompose N srcfile text warnings = .error .noMemory ∨
      (∃ e, nDecompose N srcfile text warnings = .error (.raised e)) ∨
      if EndsInFunction s.code then nDecompose N srcfile text warnings = .error .nullPointer
      else ∃ buf, nDecompose N srcfile text warnings = .ok (some buf) ∧
        IsStream (emitted srcfile s.code) buf := by
  have hs : s.Sound := nDecomposeSub_sound (fun t ht => by cases ht) hlex
  have run : nDecompose N srcfile text warnings = (emit N srcfile s >>= fun d =>
      fixupLoop N (d.destbuf.length + 1) d.lex (d.destbuf.take 12) (d.destbuf.drop 12) >>= fun r =>
        .ok (some r.2)) := by
    simp only [nDecompose, hchew, Bool.false_eq_true, if_false, hlex, ok_bind]
    rfl
  rw [run]
  rcases emit_spec N srcfile hs with h | h
  · exact .inl (by rw [h, error_bind])
  · split at h
    · rename_i hend
      rw [if_pos hend, h]
      exact .inr (.inr rfl)
    · rename_i hend
      obtain ⟨m, h, hsize⟩ := h
      generalize hE : emitted srcfile s.code = E at *
      have hok : ∀ t ∈ E, t.Valid ∧ t.Fits := fun t ht =>
        ⟨emitted_sound hs hfile t (by rw [hE]; exact ht), fits_of_size (by omega) t ht⟩
      rw [if_neg hend, h, ok_bind]
      -- the loop starts at the optab offset, which stands before the tokens
      have hpre : (headerOf (20 + size E) ++ (E.flatMap encTok ++ trailer)).take 12 =
          [0x0D, 0xAC, 0, 0, 0, 0, 0, 0] ++ writei4 (20 + size E : Nat) := rfl
      have hrest : (headerOf (20 + size E) ++ (E.flatMap encTok ++ trailer)).drop 12 =
          (writei4 20 ++ writei4 0) ++ (E.flatMap encTok ++ trailer) := rfl
      have hlen : ((writei4 20 ++ writei4 0) ++ (E.flatMap encTok ++ trailer)).length <
          (headerOf (20 + size E) ++ (E.flatMap encTok ++ trailer)).length + 1 := by
        rw [← hrest, List.length_drop]
        omega
      have hfix : FixesUp (fixupLoop N _ s
          ([0x0D, 0xAC, 0, 0, 0, 0, 0, 0] ++ writei4 (20 + size E : Nat)) _) _ E :=
        fixupLoop_spec (by decide +kernel) hok (lays_flatMap E) hlen
      rw [hpre, hrest]
      rcases hfix with ⟨e, h⟩ | ⟨s', bs, h, hfix⟩
      · exact .inr (.inl ⟨e, by rw [h, error_bind]⟩)
      · refine .inr (.inr ⟨_, by rw [h, ok_bind], ⟨bs, hfix, ?_⟩, hok, hsize⟩)
        simp only [headerOf, List.append_assoc]

/-- The walk over the stream that `n_decompose` writes for the text visits the tokens `ts` of
its table, each `function` with the file's name, in order, and ends at the file size. -/
def Framed (N : Scanner) (srcfile : Option (List Byte)) (text : List Byte) (warnings : Int)
    (ts : List Tok) : Prop :=
  ∃ buf filesize, nDecompose N srcfile text warnings = .ok (some buf) ∧
    readi4 (buf.drop 8) = .ok filesize ∧
    walkOps buf = .ok ((emitted srcfile ts).map Tok.view, filesize)

theorem IsStream.readi4_size {ts : List Tok} {buf : List Byte} (h : IsStream ts buf) :
    readi4 (buf.drop 8) = .ok ((20 + size ts : Nat) : Int) := by
  obtain ⟨bs, -, rfl⟩ := h.laid
  exact readi4_writei4 h.int _

/-- The walk over a stream starts at its first token and stops before the NULs. -/
theorem IsStream.walkOps_eq {ts : List Tok} {bs : List Byte} (hsize : 20 + size ts < 2 ^ 31)
    (hl : Lays ts bs) :
    walkOps (headerOf (20 + size ts) ++ (bs ++ trailer)) =
      (walk 4 (size ts + 25) (bs ++ trailer) >>= fun r =>
        .ok (r.1, ((size ts + 24 : Nat) : Int) - r.2.length)) := by
  have htrail : trailer.length = 4 := rfl
  have hbuf : (headerOf (20 + size ts) ++ (bs ++ trailer)).length = size ts + 24 := by
    rw [List.length_append, List.length_append, hl.length_eq, htrail]
    have : (headerOf (20 + size ts)).length = 20 := rfl
    omega
  have h8 : readi4 ((headerOf (20 + size ts) ++ (bs ++ trailer)).drop 8) =
      .ok ((20 + size ts : Nat) : Int) := readi4_writei4 hsize _
  have h12 : readi4 ((headerOf (20 + size ts) ++ (bs ++ trailer)).drop 12) = .ok ((20 : Nat) : Int) :=
    readi4_writei4 (by decide) (writei4 0 ++ (bs ++ trailer))
  have h20 : (headerOf (20 + size ts) ++ (bs ++ trailer)).drop 20 = bs ++ trailer := rfl
  have hstop : size ts + 24 - (20 + size ts) = 4 := by omega
  simp only [walkOps, h8, h12, ok_bind, Int.toNat_natCast, h20, hbuf, hstop]
  rfl

/-- The stream is framed exactly when every number literal fits its length byte and the text
does not end in `function`. -/
theorem framed_iff (N : Scanner) {srcfile : Option (List Byte)} {text : List Byte} {warnings : Int}
    {s : Lex} (hchew : chewed text = false) (hfile : (srcfile.getD []).length ≤ maxObjnamelen)
    (hlex : nDecomposeSub N (Lex.start text warnings) = .ok s)
    (hmem : nDecompose N srcfile text warnings ≠ .error .noMemory)
    (hraise : ∀ e, nDecompose N srcfile text warnings ≠ .error (.raised e)) :
    Framed N srcfile text warnings s.code ↔
      (∀ t ∈ s.code, t.Short) ∧ ¬ EndsInFunction s.code := by
  have hfile' : (srcfile.getD []).length ≤ 255 := Nat.le_trans hfile (by decide)
  have hends := nDecompose_spec hchew hfile' hlex
  rcases hends with h | ⟨e, h⟩ | h
  · exact absurd h hmem
  · exact absurd h (hraise e)
  split at h
  · rename_i hend
    constructor
    · rintro ⟨buf, filesize, hbuf, -⟩
      rw [h] at hbuf
      cases hbuf
    · rintro ⟨-, hne⟩
      exact absurd hend hne
  · rename_i hend
    obtain ⟨buf, hbuf, hstream⟩ := h
    have hread := hstream.readi4_size
    obtain ⟨⟨bs, hfix, rfl⟩, hsound, hint⟩ := hstream
    have hshort : (∀ t ∈ emitted srcfile s.code, t.Short) ↔ ∀ t ∈ s.code, t.Short := by
      constructor
      · intro h t ht
        exact h t (List.mem_cons_of_mem _ (mem_withFiles_of_mem ht))
      · intro h t ht
        rcases List.mem_cons.mp ht with rfl | ht
        · trivial
        · rcases mem_withFiles ht with rfl | ht
          · exact fun h => absurd h (by decide)
          · exact h t ht
    rw [← hshort]
    constructor
    · rintro ⟨buf', filesize, hbuf', -, hwalk⟩
      rw [hbuf, Except.ok.injEq, Option.some.injEq] at hbuf'
      subst hbuf'
      refine ⟨?_, hend⟩
      intro t ht
      by_contra hns
      rw [IsStream.walkOps_eq hint hfix.lays] at hwalk
      obtain ⟨⟨vs, e⟩, hrun, heq⟩ := bind_eq_ok.mp hwalk
      rw [Except.ok.injEq, Prod.mk.injEq] at heq
      obtain ⟨rfl, -⟩ := heq
      exact walk_long hsound ⟨t, ht, hns⟩ hfix.lays hrun
    · rintro ⟨hall, -⟩
      refine ⟨_, _, hbuf, hread, ?_⟩
      have hok : ∀ t ∈ emitted srcfile s.code, t.Valid ∧ t.Fits ∧ t.Short := fun t ht =>
        ⟨(hsound t ht).1, (hsound t ht).2, hall t ht⟩
      have hlt : (bs ++ trailer).length < size (emitted srcfile s.code) + 25 := by
        rw [List.length_append, hfix.lays.length_eq]
        have : trailer.length = 4 := rfl
        omega
      rw [IsStream.walkOps_eq hint hfix.lays, walk_lays hok hfix.lays hlt, ok_bind]
      have htrail : trailer.length = 4 := rfl
      simp only [htrail]
      congr 2
      omega

/-- A number and a semicolon: every condition is met. -/
theorem framed_number :
    Framed ⟨true, 10⟩ none (bytes "1;") 0 [.op opNumdata [49], .op opPsemicol [59]] ↔
      (∀ t ∈ [Tok.op opNumdata [49], .op opPsemicol [59]], t.Short) ∧
        ¬ EndsInFunction [.op opNumdata [49], .op opPsemicol [59]] := by
  have hok : (nDecompose ⟨true, 10⟩ none (bytes "1;") 0).isOk = true := by decide
  refine framed_iff ⟨true, 10⟩ (s := ⟨[0], [.op opNumdata [49], .op opPsemicol [59]], 1, 0, false⟩)
    (by decide) (by decide) (by decide) ?_ ?_
  · intro h
    rw [h] at hok
    cases hok
  · intro e h
    rw [h] at hok
    cases hok

/-- A number of 256 digits: its length byte is 0, and the walk sees a number without digits. -/
theorem not_framed_digits :
    nDecomposeSub ⟨true, 10⟩ (Lex.start (List.replicate 256 49) 0) =
        .ok ⟨[0], [.op opNumdata (List.replicate 256 49)], 1, 0, false⟩ ∧
      ¬ Framed ⟨true, 10⟩ none (List.replicate 256 49) 0 [.op opNumdata (List.replicate 256 49)] := by
  refine ⟨by decide +kernel, ?_⟩
  rintro ⟨buf, filesize, hbuf, -, hwalk⟩
  have seen : (nDecompose ⟨true, 10⟩ none (List.replicate 256 49) 0 >>= fun b =>
      (walkOps (b.getD [])).map fun r => r.1[1]?) = .ok (some (opNumdata, [])) := by decide +kernel
  rw [hbuf, ok_bind, Option.getD_some, hwalk, Except.map] at seen
  have views : ((emitted none [.op opNumdata (List.replicate 256 49)]).map Tok.view)[1]? =
      some (opNumdata, []) := Except.ok.inj seen
  exact absurd views (by decide)

/-! ### Ends of blocks -/

/-- The length field of the open op at `p`, as `n_if`, `n_for`, `n_getfunction` and
`n_execconstructor` read it. -/
def readLength (p : List Byte) : Except Fault Int := do
  if (← deref p) = opPobrace then readi4 p.tail else readi2 p.tail

/-- The block at `p` has contents of `n` bytes: its field says so, and `n_seekop(p, 0)` and
`n_skipto` come to its close op there. -/
structure AgreesAt (p : List Byte) (o c : Tok) (n : Nat) : Prop where
  field : readLength p = .ok n
  found : (nSeekop p false >>= nSkipto c.opByte) = .ok (p.drop (1 + o.width + n))
  close : (p.drop (1 + o.width + n)).head? = some c.opByte

/-- For every block of the stream whose contents are balanced and properly nested, the length
field and the search for the close op give the same end. -/
def JumpsAgree (N : Scanner) (srcfile : Option (List Byte)) (text : List Byte) (warnings : Int)
    (ts : List Tok) : Prop :=
  ∃ buf, nDecompose N srcfile text warnings = .ok (some buf) ∧
    ∀ {pre inner post : List Tok} {o c : Tok},
      emitted srcfile ts = pre ++ o :: (inner ++ c :: post) → Pair o c → Nested inner →
      AgreesAt (buf.drop (20 + size pre)) o c (size inner)

/-- No number in a block is longer than 255 bytes, and the contents of parentheses are shorter
than `2 ^ 16`. -/
def BlocksFit (ts : List Tok) : Prop :=
  ∀ {pre inner post : List Tok} {o c : Tok},
    ts = pre ++ o :: (inner ++ c :: post) → Pair o c → Nested inner →
    (∀ t ∈ inner, t.Short) ∧ (o.opByte = opPoparen → size inner < 2 ^ 16)

theorem Fixed.split {ts us : List Tok} {bs : List Byte} (h : Fixed (ts ++ us) bs) :
    ∃ a b, bs = a ++ b ∧ a.length = size ts ∧ Fixed us b := by
  induction ts generalizing bs with
  | nil => exact ⟨[], bs, rfl, rfl, h⟩
  | cons t ts ih =>
      cases h with
      | @cons _ _ f bs hf _ hl =>
          obtain ⟨a, b, rfl, ha, hb⟩ := ih hl
          refine ⟨t.lay f ++ a, b, (List.append_assoc _ _ _).symm, ?_, hb⟩
          rw [List.length_append, Tok.length_lay hf, ha, size_cons]

/-- The field of a block whose contents are `n` bytes long: four bytes hold `n`, two bytes
hold it modulo `2 ^ 16`. -/
theorem readLength_lay {o c : Tok} (hp : Pair o c) {n : Nat} (hn : n < 2 ^ 31) (p : List Byte) :
    readLength (o.lay (LittleEndian.encode o.width n) ++ p) =
      .ok (if o.opByte = opPoparen then (n % 2 ^ 16 : Nat) else n) := by
  rw [hp.open_lay]
  cases hp with
  | brace =>
      have henc : LittleEndian.encode 4 n = writei4 n := by
        have hmod : ((n : Int) % 2 ^ 32).toNat = n % 256 ^ 4 := by omega
        rw [writei4, hmod, LittleEndian.encode_mod]
      show readi4 (LittleEndian.encode 4 n ++ p) = _
      rw [henc, readi4_writei4 hn]
      rfl
  | paren =>
      have hlen : ¬ (LittleEndian.encode 2 n ++ p).length < 2 := by
        rw [List.length_append, LittleEndian.length_encode]
        omega
      show readi2 (LittleEndian.encode 2 n ++ p) = _
      rw [readi2, if_neg hlen, List.take_left' (LittleEndian.length_encode 2 n),
        LittleEndian.decode_encode]
      rfl

/-- A block of the stream, as it is laid out. -/
theorem IsStream.block {pre inner post : List Tok} {o c : Tok} {buf : List Byte}
    (h : IsStream (pre ++ o :: (inner ++ c :: post)) buf) (hp : Pair o c) :
    ∃ f a q, f.length = o.width ∧ Lays inner a ∧
      buf.drop (20 + size pre) = o.lay f ++ (a ++ c.opByte :: q) ∧
      (Nested inner → (∀ t ∈ inner, t.Short) → f = LittleEndian.encode o.width (size inner)) := by
  obtain ⟨⟨bs, hfix, rfl⟩, -, -⟩ := h
  obtain ⟨x, y, rfl, hx, hy⟩ := hfix.split
  cases hy with
  | @cons _ _ f y hf hval hy =>
      obtain ⟨a, b, rfl, ha, hb⟩ := hy.lays.split
      cases hb with
      | @cons _ _ g b hg hb =>
          refine ⟨f, a, b ++ trailer, hf, ha, ?_, fun hn hs => hval hp rfl hn hs⟩
          have hhead : (headerOf (20 + size (pre ++ o :: (inner ++ c :: post))) ++ x).length =
              20 + size pre := by
            rw [List.length_append, hx]
            rfl
          rw [hp.close_lay]
          simp only [List.append_assoc, List.cons_append, List.nil_append]
          rw [← List.append_assoc, List.drop_left' hhead]

/-- The field of one block and the search for its close op agree exactly when no number in it
is too long and the field is wide enough. -/
theorem agreesAt_iff {o c : Tok} (hp : Pair o c) {inner : List Tok} (hn : Nested inner)
    (hok : ∀ t ∈ inner, t.Valid ∧ t.Fits) (hsize : size inner < 2 ^ 31) {f a : List Byte}
    (hf : f.length = o.width) (ha : Lays inner a)
    (hval : (∀ t ∈ inner, t.Short) → f = LittleEndian.encode o.width (size inner)) (q : List Byte) :
    AgreesAt (o.lay f ++ (a ++ c.opByte :: q)) o c (size inner) ↔
      (∀ t ∈ inner, t.Short) ∧ (o.opByte = opPoparen → size inner < 2 ^ 16) := by
  have hseek : nSeekop (o.lay f ++ (a ++ c.opByte :: q)) false = .ok (a ++ c.opByte :: q) :=
    seekop_opens (hp.opens hf _) _
  constructor
  · rintro ⟨field, found, -⟩
    have hshort : ∀ t ∈ inner, t.Short := by
      intro t ht
      by_contra hns
      have hfinds := (hn.finds_long hp hok ⟨t, ht, hns⟩ ha (c.opByte :: q)).2
      rw [hseek, ok_bind, hfinds.nSkipto] at found
      cases found
    refine ⟨hshort, ?_⟩
    intro hparen
    rw [hval hshort, readLength_lay hp hsize, if_pos hparen, Except.ok.injEq, Int.natCast_inj] at field
    rw [← field]
    exact Nat.mod_lt _ (by decide)
  · rintro ⟨hshort, hfit⟩
    have hok' : ∀ t ∈ inner, t.Valid ∧ t.Fits ∧ t.Short := fun t ht =>
      ⟨(hok t ht).1, (hok t ht).2, hshort t ht⟩
    have hdrop : (o.lay f ++ (a ++ c.opByte :: q)).drop (1 + o.width + size inner) = c.opByte :: q := by
      rw [← List.append_assoc]
      refine List.drop_left' ?_
      rw [List.length_append, hp.open_lay, List.length_cons, hf, ha.length_eq]
      omega
    refine ⟨?_, ?_, ?_⟩
    · rw [hval hshort, readLength_lay hp hsize]
      split
      · rename_i hparen
        rw [Nat.mod_eq_of_lt (hfit hparen)]
      · rfl
    · have hline : c.opByte ≠ opLinenum := hp.close_plain.1.2.2.2.2.1
      have here : Finds c.opByte (c.opByte :: q) (.ok (c.opByte :: q)) :=
        .here hp.close_plain.2 (nSkipWs_ne hline)
      have hhead : (c.opByte :: q).head? ≠ some 0 := by simpa using hp.close_plain.2
      rw [hseek, ok_bind, (hn.finds hp hok' ha hhead here).2.nSkipto, hdrop]
    · rw [hdrop]
      rfl

/-- The lengths of blocks and the search for their ends agree exactly when no number in a
block is too long for its length byte, the contents of parentheses fit their field, and the
text does not end in `function`. -/
theorem jumpsAgree_iff (N : Scanner) {srcfile : Option (List Byte)} {text : List Byte}
    {warnings : Int} {s : Lex} (hchew : chewed text = false)
    (hfile : (srcfile.getD []).length ≤ maxObjnamelen)
    (hlex : nDecomposeSub N (Lex.start text warnings) = .ok s)
    (hmem : nDecompose N srcfile text warnings ≠ .error .noMemory)
    (hraise : ∀ e, nDecompose N srcfile text warnings ≠ .error (.raised e)) :
    JumpsAgree N srcfile text warnings s.code ↔
      BlocksFit (emitted srcfile s.code) ∧ ¬ EndsInFunction s.code := by
  have hfile' : (srcfile.getD []).length ≤ 255 := Nat.le_trans hfile (by decide)
  have hends := nDecompose_spec hchew hfile' hlex
  rcases hends with h | ⟨e, h⟩ | h
  · exact absurd h hmem
  · exact absurd h (hraise e)
  split at h
  · rename_i hend
    constructor
    · rintro ⟨buf, hbuf, -⟩
      rw [h] at hbuf
      cases hbuf
    · rintro ⟨-, hne⟩
      exact absurd hend hne
  · rename_i hend
    obtain ⟨buf, hbuf, hstream⟩ := h
    -- both sides say the same of every block
    have each : ∀ {pre inner post : List Tok} {o c : Tok},
        emitted srcfile s.code = pre ++ o :: (inner ++ c :: post) → Pair o c → Nested inner →
        (AgreesAt (buf.drop (20 + size pre)) o c (size inner) ↔
          (∀ t ∈ inner, t.Short) ∧ (o.opByte = opPoparen → size inner < 2 ^ 16)) := by
      intro pre inner post o c heq hp hn
      rw [heq] at hstream
      obtain ⟨f, a, q, hf, ha, hdrop, hval⟩ := hstream.block hp
      have hok : ∀ t ∈ inner, t.Valid ∧ t.Fits := fun t ht =>
        hstream.sound t (List.mem_append_right _ (List.mem_cons_of_mem _ (List.mem_append_left _ ht)))
      have hsize : size inner < 2 ^ 31 := by
        have := hstream.int
        rw [size_append, size_cons, size_append] at this
        omega
      rw [hdrop]
      exact agreesAt_iff hp hn hok hsize hf ha (hval hn) q
    constructor
    · rintro ⟨buf', hbuf', hall⟩
      rw [hbuf, Except.ok.injEq, Option.some.injEq] at hbuf'
      subst hbuf'
      exact ⟨fun heq hp hn => (each heq hp hn).mp (hall heq hp hn), hend⟩
    · rintro ⟨hall, -⟩
      exact ⟨buf, hbuf, fun heq hp hn => (each heq hp hn).mpr (hall heq hp hn)⟩

/-- A call with one argument: every condition is met. -/
theorem jumpsAgree_call :
    JumpsAgree ⟨true, 10⟩ none (bytes "f(1)") 0
        [.op opLabel [102], .op opPoparen [40], .op opNumdata [49], .op opPcparen [41]] ↔
      BlocksFit (emitted none
          [.op opLabel [102], .op opPoparen [40], .op opNumdata [49], .op opPcparen [41]]) ∧
        ¬ EndsInFunction
          [.op opLabel [102], .op opPoparen [40], .op opNumdata [49], .op opPcparen [41]] := by
  have hok : (nDecompose ⟨true, 10⟩ none (bytes "f(1)") 0).isOk = true := by decide
  refine jumpsAgree_iff ⟨true, 10⟩ (s := ⟨[0],
    [.op opLabel [102], .op opPoparen [40], .op opNumdata [49], .op opPcparen [41]], 1, 0, false⟩)
    (by decide) (by decide) (by decide) ?_ ?_
  · intro h
    rw [h] at hok
    cases hok
  · intro e h
    rw [h] at hok
    cases hok

/-- A number of 256 digits in parentheses: the field says 257 where the contents take 259
bytes. -/
theorem not_jumpsAgree_digits :
    nDecomposeSub ⟨true, 10⟩ (Lex.start (40 :: (List.replicate 256 49 ++ [41])) 0) =
        .ok ⟨[0], [.op opPoparen [40], .op opNumdata (List.replicate 256 49), .op opPcparen [41]],
          1, 0, false⟩ ∧
      ¬ JumpsAgree ⟨true, 10⟩ none (40 :: (List.replicate 256 49 ++ [41])) 0
        [.op opPoparen [40], .op opNumdata (List.replicate 256 49), .op opPcparen [41]] := by
  refine ⟨by decide +kernel, ?_⟩
  rintro ⟨buf, hbuf, hall⟩
  have seen : (nDecompose ⟨true, 10⟩ none (40 :: (List.replicate 256 49 ++ [41])) 0 >>= fun b =>
      readLength ((b.getD []).drop 25)) = .ok 257 := by decide +kernel
  have said := (@hall [.linenum 1] [.op opNumdata (List.replicate 256 49)] [] _ _ rfl (.paren _ _)
    (.leaf (by decide) .nil)).field
  rw [hbuf, ok_bind, Option.getD_some] at seen
  rw [show 20 + size [.linenum 1] = 25 from rfl, seen] at said
  exact absurd said (by decide +kernel)

end NullG.Nsp
