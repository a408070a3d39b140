/-
The loop of `n_decompose` that fills in the lengths of blocks.

* `fixup_spec` — one open op: its field takes the distance that `n_seekop(p, 1)` gives;
* `fixupLoop_block`, `fixupLoop_leaf` — one round of the loop;
* `fixupLoop_spec` — the whole loop changes nothing but these fields, and a block with
  properly nested contents gets their size.
-/

import NullG.Nsp.Emission
import NullG.Nsp.LexerBounds

namespace NullG.Nsp

open NullG.Lib

/-! ### The lengths of blocks -/

/-- The bytes hold the tokens, and the length field of every block with properly nested
contents, none of them a number too long, holds the size of its contents. -/
inductive Fixed : List Tok → List Byte → Prop where
  | nil : Fixed [] []
  | cons {t : Tok} {ts : List Tok} {f bs : List Byte} : f.length = t.width →
      (∀ {c : Tok} {inner post : List Tok}, Pair t c → ts = inner ++ c :: post → Nested inner →
        (∀ u ∈ inner, u.Short) → f = LittleEndian.encode t.width (size inner)) →
      Fixed ts bs → Fixed (t :: ts) (t.lay f ++ bs)

theorem Fixed.lays {ts : List Tok} {bs : List Byte} (h : Fixed ts bs) : Lays ts bs := by
  induction h with
  | nil => exact .nil
  | cons hf _ _ ih => exact .cons hf ih

theorem track_digits {ds : List Byte} (hds : ∀ d ∈ ds, NumByte d) (p : List Byte) :
    Track (ds ++ 0 :: p) := by
  induction ds with
  | nil => exact .nul
  | cons d ds ih =>
      exact .leaf (.plain (hds d List.mem_cons_self).plain)
        (ih fun d' hd' => hds d' (List.mem_cons_of_mem _ hd'))

/-- The ops of a stream lead on to the NULs behind it. -/
theorem Lays.track {ts : List Tok} {bs : List Byte} (h : Lays ts bs)
    (hok : ∀ t ∈ ts, t.Valid ∧ t.Fits) (p : List Byte) : Track (bs ++ 0 :: p) := by
  induction h with
  | nil => exact .nul
  | @cons t ts f bs hf _ ih =>
      have hrest := ih fun t' ht' => hok t' (List.mem_cons_of_mem _ ht')
      obtain ⟨hv, hfit⟩ := hok t List.mem_cons_self
      rw [List.append_assoc]
      by_cases hs : t.Short
      · by_cases hw : t.width = 0
        · exact .leaf (Tok.leaf hv hs hfit hw _) hrest
        · obtain ⟨c, hp⟩ := Tok.exists_pair hw
          exact .opens (hp.opens hf _) hrest
      · obtain ⟨-, -, ds, -, hds, hleaf⟩ := Tok.long hv hs f
        exact .leaf (hleaf _) (track_digits hds _)

theorem Pair.open_lay {o c : Tok} (h : Pair o c) (f : List Byte) : o.lay f = o.opByte :: f := by
  cases h with
  | brace => rfl
  | paren => rfl

/-- The fix-up of one block writes its field: the distance from the field's end to the byte
before the one where `n_seekop(p, 1)` ends. -/
theorem fixup_spec (N : Scanner) (s : Lex) {o c : Tok} (hp : Pair o c) {f rest p2 : List Byte}
    (hf : f.length = o.width) (hskip : Skip none (o.lay f ++ rest) p2) :
    (∃ e, fixup N s (o.lay f ++ rest) c.opByte o.width = .error (.raised e)) ∨
      ∃ s' f', fixup N s (o.lay f ++ rest) c.opByte o.width = .ok (s', some (o.lay f' ++ rest)) ∧
        f'.length = o.width ∧
        (p2.length < rest.length → f' = LittleEndian.encode o.width (rest.length - p2.length - 1)) := by
  have hlt := hskip.length_lt
  have hseek := hskip.nSeekop
  rw [hp.open_lay] at hlt hseek ⊢
  have hlen : (o.opByte :: f ++ rest).length = o.width + rest.length + 1 := by
    rw [List.length_append, List.length_cons, hf]
    omega
  obtain ⟨b, hb⟩ : ∃ b, deref ((o.opByte :: f ++ rest).drop
      ((o.opByte :: f ++ rest).length - p2.length - 1)) = .ok b := by
    obtain ⟨b, t, heq⟩ := List.exists_cons_of_ne_nil (List.ne_nil_of_length_pos
      (l := (o.opByte :: f ++ rest).drop ((o.opByte :: f ++ rest).length - p2.length - 1))
      (by rw [List.length_drop]; omega))
    exact ⟨b, by rw [heq]; rfl⟩
  -- what is written, whether or not there was a warning
  have hout : ∀ field : List Byte, (o.opByte :: f ++ rest).take 1 ++ field ++
      (o.opByte :: f ++ rest).drop (o.width + 1) = o.lay field ++ rest := by
    intro field
    rw [hp.open_lay, List.cons_append, List.drop_succ_cons, List.drop_left' hf]
    rfl
  have hval : p2.length < rest.length →
      LittleEndian.encode o.width (((((o.opByte :: f ++ rest).length - p2.length - 1 : Nat) : Int) -
        (o.width + 1)) % 256 ^ o.width).toNat =
          LittleEndian.encode o.width (rest.length - p2.length - 1) := by
    intro hlt'
    have hsub : (((o.opByte :: f ++ rest).length - p2.length - 1 : Nat) : Int) - (o.width + 1) =
        ((rest.length - p2.length - 1 : Nat) : Int) := by
      rw [hlen]
      omega
    have hmod : (((rest.length - p2.length - 1 : Nat) : Int) % 256 ^ o.width).toNat =
        (rest.length - p2.length - 1) % 256 ^ o.width := by
      have : ((256 : Int) ^ o.width) = ((256 ^ o.width : Nat) : Int) := by
        rw [Int.natCast_pow]
        rfl
      rw [this, ← Int.natCast_emod, Int.toNat_natCast]
    rw [hsub, hmod, LittleEndian.encode_mod]
  simp only [fixup, hseek, ok_bind, if_neg (Nat.not_le.mpr hlt), hb]
  by_cases hclose : b = c.opByte
  · simp only [hclose, ne_eq, not_true_eq_false, if_false, pure_eq_ok, ok_bind, hout]
    exact .inr ⟨s, _, rfl, LittleEndian.length_encode _ _, hval⟩
  · simp only [hclose, ne_eq, not_false_eq_true, if_true]
    rcases nWarn_spec N s with h | ⟨s', h, -⟩
    · rw [h]
      exact .inl ⟨_, rfl⟩
    · simp only [h, ok_bind, pure_eq_ok, hout]
      exact .inr ⟨s', _, rfl, LittleEndian.length_encode _ _, hval⟩

section Fixup

variable {N : Scanner} {fuel : Nat} {s : Lex} {pre : List Byte}

/-- A round of the fix-up loop on an op without a block. -/
theorem fixupLoop_leaf {x q : List Byte} (h : Leaf (x ++ q) q)
    (hb : (x ++ q).head? ≠ some opPobrace ∧ (x ++ q).head? ≠ some opPoparen)
    (hlen : 4 < (x ++ q).length) :
    fixupLoop N (fuel + 1) s pre (x ++ q) = fixupLoop N fuel s (pre ++ x) q := by
  have htake : (x ++ q).take ((x ++ q).length - q.length) = x := by
    rw [List.length_append, Nat.add_sub_cancel, List.take_left]
  have hseek : nSeekop (x ++ q) false = .ok q := seekop_leaf h _ _
  generalize hp : x ++ q = p at *
  obtain ⟨b, t, rfl⟩ := List.exists_cons_of_ne_nil (List.ne_nil_of_length_pos (l := p) (by omega))
  simp only [List.head?_cons, ne_eq, Option.some.injEq] at hb
  simp only [fixupLoop, if_neg (Nat.not_le.mpr hlen), deref, ok_bind]
  by_cases hline : b = opLinenum
  · -- a line marker is stepped over without `n_seekop`
    have hq : t.drop 4 = q := by
      subst hline
      cases h with
      | str hop => exact absurd hop (by decide)
      | text hop => exact absurd hop (by decide)
      | line hf => exact List.drop_left' hf
      | plain hpl => exact absurd rfl hpl.2.2.2.2.1
    have hx : (b :: t).take 5 = x := by
      rw [List.take_succ_cons]
      have := List.take_append_drop 4 t
      rw [hq] at this
      rw [← this, ← List.cons_append] at hp
      exact (List.append_cancel_right hp).symm
    rw [if_pos hline, hx, List.drop_succ_cons, hq]
  · simp only [if_neg hline, if_neg hb.1, if_neg hb.2, pure_eq_ok, ok_bind, hseek, htake]

/-- A round of the fix-up loop on an open op. -/
theorem fixupLoop_open {o c : Tok} (hp : Pair o c) {f rest : List Byte}
    (hlen : 4 < (o.lay f ++ rest).length) :
    fixupLoop N (fuel + 1) s pre (o.lay f ++ rest) =
      (fixup N s (o.lay f ++ rest) c.opByte o.width >>= fun r =>
        match r.2 with
        | none => .ok (r.1, pre ++ (o.lay f ++ rest))
        | some p => nSeekop p false >>= fun p' =>
            fixupLoop N fuel r.1 (pre ++ p.take (p.length - p'.length)) p') := by
  have hderef : deref (o.lay f ++ rest) = .ok o.opByte := by
    rw [hp.open_lay]
    rfl
  simp only [fixupLoop, if_neg (Nat.not_le.mpr hlen), hderef, ok_bind]
  cases hp with
  | brace => rfl
  | paren => rfl

/-- A round of the fix-up loop on a block: it raises, or goes on behind the open op, whose
field is the size of the contents if these are properly nested. -/
theorem fixupLoop_block (N : Scanner) (fuel : Nat) (s : Lex) (pre : List Byte) {o c : Tok} (hp : Pair o c)
    {ts : List Tok} {f bs : List Byte} (hf : f.length = o.width) (hok : ∀ t ∈ ts, t.Valid ∧ t.Fits) (hl : Lays ts bs) :
    (∃ e, fixupLoop N (fuel + 1) s pre (o.lay f ++ (bs ++ trailer)) = .error (.raised e)) ∨
      ∃ s' f', fixupLoop N (fuel + 1) s pre (o.lay f ++ (bs ++ trailer)) =
          fixupLoop N fuel s' (pre ++ o.lay f') (bs ++ trailer) ∧ f'.length = o.width ∧
        ∀ {c' : Tok} {inner post : List Tok}, Pair o c' → ts = inner ++ c' :: post → Nested inner →
          (∀ u ∈ inner, u.Short) → f' = LittleEndian.encode o.width (size inner) := by
  have hlen : 4 < (o.lay f ++ (bs ++ trailer)).length := by
    rw [hp.open_lay, List.length_append, List.length_cons, List.length_append]
    have : trailer.length = 4 := rfl
    omega
  have htrack : Track (o.lay f ++ (bs ++ trailer)) := .opens (hp.opens hf _) (hl.track hok _)
  have hhead : (o.lay f ++ (bs ++ trailer)).head? ≠ some 0 := by
    rw [Tok.lay_append_head]
    simpa using (hp.open_ne hp).1
  obtain ⟨p2, hskip, -⟩ := (htrack.skip _ (Nat.le_refl _)).1 hhead
  rw [fixupLoop_open hp hlen]
  rcases fixup_spec N s hp hf hskip with ⟨e, h⟩ | ⟨s', f', h, hf', hval⟩
  · exact .inl ⟨e, by rw [h, error_bind]⟩
  · have hseek : nSeekop (o.lay f' ++ (bs ++ trailer)) false = .ok (bs ++ trailer) :=
      seekop_opens (hp.opens hf' _) _
    have htake : (o.lay f' ++ (bs ++ trailer)).take
        ((o.lay f' ++ (bs ++ trailer)).length - (bs ++ trailer).length) = o.lay f' := by
      rw [List.length_append, Nat.add_sub_cancel, List.take_left]
    refine .inr ⟨s', f', by simp only [h, ok_bind, hseek, htake], hf', ?_⟩
    intro c' inner post hp' heq hin hshort
    subst heq
    obtain ⟨a, b, rfl, ha, hb⟩ := hl.split
    cases hb with
    | @cons _ _ g b hg hb =>
        have okIn : ∀ u ∈ inner, u.Valid ∧ u.Fits ∧ u.Short := fun u hu =>
          ⟨(hok u (List.mem_append_left _ hu)).1, (hok u (List.mem_append_left _ hu)).2, hshort u hu⟩
        have hend := hin.skip_block hp' okIn ha hf g (b ++ trailer)
        simp only [List.append_assoc] at hskip hval
        have hp2 : p2 = b ++ trailer := by
          have := hskip.nSeekop
          rw [hend.nSeekop] at this
          exact (Except.ok.inj this).symm
        have hrest : (a ++ (c'.lay g ++ (b ++ trailer))).length =
            size inner + 1 + (b ++ trailer).length := by
          rw [hp'.close_lay, List.length_append, ha.length_eq, List.length_append]
          rw [List.length_singleton, Nat.add_assoc]
        have hsize : size inner + 1 + p2.length - p2.length - 1 = size inner := by omega
        rw [hrest, ← hp2, hsize] at hval
        exact hval (by omega)

/-- What the fix-up loop makes of the tokens `ts` behind the bytes `pre`. -/
def FixesUp (x : Except Fault (Lex × List Byte)) (pre : List Byte) (ts : List Tok) : Prop :=
  (∃ e, x = .error (.raised e)) ∨ ∃ s bs, x = .ok (s, pre ++ (bs ++ trailer)) ∧ Fixed ts bs

theorem FixesUp.cons {x : Except Fault (Lex × List Byte)} {t : Tok} {ts : List Tok} {f : List Byte}
    (hf : f.length = t.width)
    (hval : ∀ {c : Tok} {inner post : List Tok}, Pair t c → ts = inner ++ c :: post → Nested inner →
      (∀ u ∈ inner, u.Short) → f = LittleEndian.encode t.width (size inner))
    (h : FixesUp x (pre ++ t.lay f) ts) : FixesUp x pre (t :: ts) := by
  rcases h with h | ⟨s, bs, h, hfix⟩
  · exact .inl h
  · refine .inr ⟨s, t.lay f ++ bs, ?_, .cons hf hval hfix⟩
    rw [h]
    simp only [List.append_assoc]

/-- The fix-up loop from a place where the bytes `r` lead on to the tokens `ts`: it raises, or
fills in the lengths and leaves all other bytes as they are. -/
theorem fixupLoop_spec {r bs : List Byte} {ts : List Tok} (hr : ∀ b ∈ r, Plain b)
    (hok : ∀ t ∈ ts, t.Valid ∧ t.Fits) (hl : Lays ts bs)
    (hfuel : (r ++ (bs ++ trailer)).length < fuel) :
    FixesUp (fixupLoop N fuel s pre (r ++ (bs ++ trailer))) (pre ++ r) ts := by
  have htrail : trailer.length = 4 := rfl
  induction fuel generalizing s pre r bs ts with
  | zero => omega
  | succ fuel ih =>
      cases r with
      | cons b r =>
          have hb : Plain b := hr b List.mem_cons_self
          have hstep : fixupLoop N (fuel + 1) s pre ([b] ++ (r ++ (bs ++ trailer))) =
              fixupLoop N fuel s (pre ++ [b]) (r ++ (bs ++ trailer)) := by
            refine fixupLoop_leaf (.plain hb) ⟨?_, ?_⟩ ?_
            · exact fun h => hb.2.2.2.2.2.1 (Option.some.inj h)
            · exact fun h => hb.2.2.2.2.2.2 (Option.some.inj h)
            · simp only [List.length_append, List.length_cons, List.length_nil, htrail]
              omega
          have hpre : pre ++ b :: r = (pre ++ [b]) ++ r := by
            rw [List.append_assoc, List.singleton_append]
          rw [hpre, List.cons_append, ← List.singleton_append, hstep]
          simp only [List.cons_append, List.length_cons] at hfuel
          exact ih (fun b' hb' => hr b' (List.mem_cons_of_mem _ hb')) hok hl (by omega)
      | nil =>
          simp only [List.nil_append, List.append_nil] at hfuel ⊢
          cases hl with
          | nil => exact .inr ⟨s, [], rfl, .nil⟩
          | @cons t ts f bs hf hl =>
              have hts : ∀ u ∈ ts, u.Valid ∧ u.Fits := fun u hu => hok u (List.mem_cons_of_mem _ hu)
              obtain ⟨hv, hfit⟩ := hok t List.mem_cons_self
              have hlay : 0 < (t.lay f).length := by
                obtain ⟨tail, hcons⟩ := t.lay_eq_cons f
                rw [hcons]
                exact Nat.succ_pos _
              rw [List.append_assoc] at hfuel ⊢
              have hlen : 4 < (t.lay f ++ (bs ++ trailer)).length := by
                simp only [List.length_append, htrail]
                omega
              have hlt : ([] ++ (bs ++ trailer)).length < fuel := by
                rw [List.length_append] at hfuel
                rw [List.nil_append]
                omega
              by_cases hw : t.width = 0
              · have hbr : (t.lay f ++ (bs ++ trailer)).head? ≠ some opPobrace ∧
                    (t.lay f ++ (bs ++ trailer)).head? ≠ some opPoparen := by
                  rw [Tok.lay_append_head]
                  exact ⟨fun h => Tok.width_ne_zero (.inl (Option.some.inj h)) hw,
                    fun h => Tok.width_ne_zero (.inr (Option.some.inj h)) hw⟩
                refine FixesUp.cons hf (fun hp => absurd hw hp.width_ne_zero) ?_
                by_cases hs : t.Short
                · rw [fixupLoop_leaf (Tok.leaf hv hs hfit hw _) hbr hlen]
                  have rest : FixesUp (fixupLoop N fuel s (pre ++ t.lay f) ([] ++ (bs ++ trailer)))
                      (pre ++ t.lay f ++ []) ts := ih (by simp) hts hl hlt
                  rwa [List.nil_append, List.append_nil] at rest
                · -- the loop goes on inside the digits, byte by byte
                  obtain ⟨-, hd, ds, hsplit, hds, hleaf⟩ := Tok.long hv hs f
                  have hmid : t.lay f ++ (bs ++ trailer) = hd ++ (ds ++ 0 :: (bs ++ trailer)) := by
                    rw [hsplit]
                    simp only [List.append_assoc, List.cons_append, List.nil_append]
                  have hdigits : ds ++ 0 :: (bs ++ trailer) = (ds ++ [0]) ++ (bs ++ trailer) := by
                    simp only [List.append_assoc, List.cons_append, List.nil_append]
                  have hleaf' := hleaf (bs ++ trailer)
                  have hlt' := hleaf'.length_lt
                  rw [hmid] at hleaf' hbr hlen hfuel hlt' ⊢
                  have hpre : pre ++ t.lay f = (pre ++ hd) ++ (ds ++ [0]) := by
                    rw [hsplit, List.append_assoc]
                  rw [fixupLoop_leaf hleaf' hbr hlen, hdigits, hpre]
                  refine ih ?_ hts hl (by rw [← hdigits]; omega)
                  intro b hb
                  rcases List.mem_append.mp hb with hb | hb
                  · exact (hds b hb).plain
                  · rw [List.mem_singleton.mp hb]
                    decide
              · obtain ⟨c, hp⟩ := Tok.exists_pair hw
                rcases fixupLoop_block N fuel s pre hp hf hts hl with
                  ⟨e, h⟩ | ⟨s', f', h, hf', hval⟩
                · exact .inl ⟨e, h⟩
                · refine FixesUp.cons hf' hval ?_
                  rw [h]
                  have rest : FixesUp (fixupLoop N fuel s' (pre ++ t.lay f') ([] ++ (bs ++ trailer)))
                      (pre ++ t.lay f' ++ []) ts := ih (by simp) hts hl hlt
                  rwa [List.nil_append, List.append_nil] at rest

end Fixup

end NullG.Nsp
