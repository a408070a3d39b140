/-
Walks over an op stream (`n_seekop`, `n_skip_ws`, `n_skipto`).

The functions of `Bytecode` carry a bound on their calls. Here their runs are
relations on the suffixes they pass through, without one:

* `Leaf p q` — one op without a block stands at `p` and ends at `q`; `Opens c p q` —
  an open op with close op `c` stands at `p`, its contents at `q`;
* `Skip none p q` — `n_seekop(p, 1)` returns `q`; `Skip (some c) p q` — so does the
  loop of `skipblock(c)`;
* `Finds c p r` — `n_skipto(c)` at `p` ends with `r`.

`Skip.seekop` and `Finds.nSkipto` say that the functions follow the relations.
-/

import NullG.Lib.Except
import NullG.Nsp.Bytecode

namespace NullG.Nsp

open NullG.Lib

/-! ### Fields -/

theorem length_writei4 (n : Int) : (writei4 n).length = 4 := LittleEndian.length_encode 4 _

/-- A length that fits an `int` is read back as it was written. -/
theorem readi4_writei4 {n : Nat} (h : n < 2 ^ 31) (p : List Byte) :
    readi4 (writei4 n ++ p) = .ok (n : Int) := by
  have hlen : ¬ (writei4 n ++ p).length < 4 := by
    rw [List.length_append, length_writei4]
    omega
  have hmod : ((n : Int) % 2 ^ 32).toNat = n := by omega
  have hdec : LittleEndian.decode (writei4 n) = n := by
    rw [writei4, hmod]
    exact LittleEndian.decode_encode_of_lt (by omega)
  rw [readi4, if_neg hlen, List.take_left' (length_writei4 n), hdec, Int.bmod_def]
  simp only [Except.ok.injEq]
  omega

/-! ### One op -/

/-- The op has neither data nor a length field. -/
def Plain (b : Byte) : Prop :=
  b ≠ opStrdata ∧ b ≠ opEstrdata ∧ b ≠ opNumdata ∧ b ≠ opLabel ∧ b ≠ opLinenum ∧ b ≠ opPobrace ∧
    b ≠ opPoparen

instance (b : Byte) : Decidable (Plain b) := inferInstanceAs (Decidable (_ ∧ _))

/-- An op without a block stands at the first suffix and ends at the second. -/
inductive Leaf : List Byte → List Byte → Prop where
  | str {op : Byte} {n : Nat} {body p : List Byte} : op = opStrdata ∨ op = opEstrdata → n < 2 ^ 31 →
      body.length = n + 1 → Leaf (op :: (writei4 n ++ (body ++ p))) p
  | text {op n : Byte} {body p : List Byte} : op = opNumdata ∨ op = opLabel →
      body.length = n.toNat + 1 → Leaf (op :: n :: (body ++ p)) p
  | line {f p : List Byte} : f.length = 4 → Leaf (opLinenum :: (f ++ p)) p
  | plain {b : Byte} {p : List Byte} : Plain b → Leaf (b :: p) p

/-- An open op stands at the first suffix; its contents, up to the close op, start at the
second. -/
inductive Opens : Byte → List Byte → List Byte → Prop where
  | brace {f p : List Byte} : f.length = 4 → Opens opPcbrace (opPobrace :: (f ++ p)) p
  | paren {f p : List Byte} : f.length = 2 → Opens opPcparen (opPoparen :: (f ++ p)) p

theorem Leaf.length_lt {p q : List Byte} (h : Leaf p q) : q.length < p.length := by
  cases h with
  | str => simp only [List.length_cons, List.length_append]; omega
  | text => simp only [List.length_cons, List.length_append]; omega
  | line => simp only [List.length_cons, List.length_append]; omega
  | plain => exact Nat.lt_succ_self _

theorem Opens.length_lt {c : Byte} {p q : List Byte} (h : Opens c p q) : q.length < p.length := by
  cases h with
  | brace hf => simp only [List.length_cons, List.length_append]; omega
  | paren hf => simp only [List.length_cons, List.length_append]; omega

theorem Opens.plain {c : Byte} {p q : List Byte} (h : Opens c p q) : Plain c ∧ c ≠ 0 := by
  cases h with
  | brace => decide
  | paren => decide

/-- `n_seekop` on an op without a block. -/
theorem seekop_leaf {p q : List Byte} (h : Leaf p q) (fuel : Nat) (sb : Bool) :
    seekop (fuel + 1) p sb = .ok q := by
  cases h with
  | @str op n body p hop hn hb =>
      have hadd : ¬ (6 + (n : Int) < 0) := by omega
      have hnat : (6 + (n : Int)).toNat = n + 6 := by omega
      simp only [seekop, deref, ok_bind, if_pos hop, List.tail_cons, readi4_writei4 hn, advance,
        if_neg hadd, hnat, List.drop_succ_cons]
      rw [← List.append_assoc, List.drop_left']
      rw [List.length_append, length_writei4, hb]
      omega
  | @text op n body p hop hb =>
      have hns : ¬ (op = opStrdata ∨ op = opEstrdata) := by rcases hop with rfl | rfl <;> decide
      simp only [seekop, deref, ok_bind, if_neg hns, if_pos hop, List.tail_cons, pure_eq_ok]
      have hdrop : 3 + n.toNat = (n.toNat + 1) + 1 + 1 := by omega
      rw [hdrop, List.drop_succ_cons, List.drop_succ_cons, List.drop_left' hb]
  | @line f p hf =>
      simp +decide only [seekop, deref, ok_bind, if_false, if_true, pure_eq_ok, List.drop_succ_cons]
      rw [List.drop_left' hf]
  | @plain b p hb =>
      obtain ⟨h1, h2, h3, h4, h5, h6, h7⟩ := hb
      simp only [seekop, deref, ok_bind, h1, h2, h3, h4, h5, h6, h7, or_self, if_false, pure_eq_ok,
        List.tail_cons]

/-- `n_seekop(p, 0)` on an open op steps over its field only. -/
theorem seekop_opens {c : Byte} {p q : List Byte} (h : Opens c p q) (fuel : Nat) :
    seekop (fuel + 1) p false = .ok q := by
  cases h with
  | brace hf =>
      simp +decide only [seekop, deref, ok_bind, if_false, if_true, pure_eq_ok, List.drop_succ_cons]
      rw [List.drop_left' hf]
  | paren hf =>
      simp +decide only [seekop, deref, ok_bind, if_false, if_true, pure_eq_ok, List.drop_succ_cons]
      rw [List.drop_left' hf]

/-- `n_seekop(p, 1)` on an open op goes through its contents. -/
theorem seekop_block {c : Byte} {p q : List Byte} (h : Opens c p q) (fuel : Nat) :
    seekop (fuel + 1) p true = skipblock (fun p => seekop fuel p true) c fuel q := by
  cases h with
  | brace hf =>
      simp +decide only [seekop, deref, ok_bind, if_false, if_true, List.drop_succ_cons]
      rw [List.drop_left' hf]
  | paren hf =>
      simp +decide only [seekop, deref, ok_bind, if_false, if_true, List.drop_succ_cons]
      rw [List.drop_left' hf]

/-! ### Blocks -/

/-- The runs of `n_seekop(p, 1)` (`none`) and of the loop of `skipblock(c)` (`some c`). -/
inductive Skip : Option Byte → List Byte → List Byte → Prop where
  | leaf {p q : List Byte} : Leaf p q → Skip none p q
  | block {c : Byte} {p q r : List Byte} : Opens c p q → Skip (some c) q r → Skip none p r
  | nul {c : Byte} {p : List Byte} : Skip (some c) (0 :: p) (0 :: p)
  | close {c : Byte} {p : List Byte} : c ≠ 0 → Skip (some c) (c :: p) p
  | step {b c : Byte} {p q r : List Byte} : b ≠ 0 → b ≠ c → Skip none (b :: p) q →
      Skip (some c) q r → Skip (some c) (b :: p) r

/-- What a run of `Skip` says of the functions, given enough calls. -/
def Skip.Follows : Option Byte → List Byte → List Byte → Prop
  | none, p, q => q.length < p.length ∧ ∀ fuel, p.length < fuel → seekop fuel p true = .ok q
  | some c, p, q => q.length ≤ p.length ∧ ∀ k fuel, p.length < k → p.length < fuel →
      skipblock (fun p => seekop k p true) c fuel p = .ok q

theorem Skip.follows {o : Option Byte} {p q : List Byte} (h : Skip o p q) : Skip.Follows o p q := by
  induction h with
  | leaf hl =>
      refine ⟨hl.length_lt, ?_⟩
      intro fuel hfuel
      obtain ⟨fuel, rfl⟩ : ∃ k, fuel = k + 1 := ⟨fuel - 1, by omega⟩
      exact seekop_leaf hl fuel true
  | block ho _ ih =>
      have hlt := ho.length_lt
      refine ⟨Nat.lt_of_le_of_lt ih.1 hlt, ?_⟩
      intro fuel hfuel
      obtain ⟨fuel, rfl⟩ : ∃ k, fuel = k + 1 := ⟨fuel - 1, by omega⟩
      rw [seekop_block ho]
      exact ih.2 fuel fuel (by omega) (by omega)
  | nul =>
      refine ⟨Nat.le_refl _, ?_⟩
      intro k fuel _ hfuel
      obtain ⟨fuel, rfl⟩ : ∃ k, fuel = k + 1 := ⟨fuel - 1, by omega⟩
      simp only [skipblock, deref, ok_bind, if_true, pure_eq_ok]
  | close hc =>
      refine ⟨Nat.le_succ _, ?_⟩
      intro k fuel _ hfuel
      obtain ⟨fuel, rfl⟩ : ∃ k, fuel = k + 1 := ⟨fuel - 1, by omega⟩
      simp only [skipblock, deref, ok_bind, if_neg hc, if_true, pure_eq_ok, List.tail_cons]
  | step hb hc _ _ ih₁ ih₂ =>
      refine ⟨Nat.le_of_lt (Nat.lt_of_le_of_lt ih₂.1 ih₁.1), ?_⟩
      intro k fuel hk hfuel
      obtain ⟨fuel, rfl⟩ : ∃ k, fuel = k + 1 := ⟨fuel - 1, by omega⟩
      have hlt := ih₁.1
      simp only [skipblock, deref, ok_bind, if_neg hb, if_neg hc, ih₁.2 k hk]
      exact ih₂.2 k fuel (by omega) (by omega)

/-- A run of `Skip none` is a call of `n_seekop(p, 1)`. -/
theorem Skip.nSeekop {p q : List Byte} (h : Skip none p q) : nSeekop p true = .ok q :=
  h.follows.2 _ (Nat.lt_succ_self _)

theorem Skip.length_lt {p q : List Byte} (h : Skip none p q) : q.length < p.length := h.follows.1

theorem Skip.length_le {c : Byte} {p q : List Byte} (h : Skip (some c) p q) : q.length ≤ p.length :=
  h.follows.1

/-- A suffix from which the ops lead on to a NUL. -/
inductive Track : List Byte → Prop where
  | nul {p : List Byte} : Track (0 :: p)
  | leaf {p q : List Byte} : Leaf p q → Track q → Track p
  | opens {c : Byte} {p q : List Byte} : Opens c p q → Track q → Track p

theorem Track.ne_nil {p : List Byte} (h : Track p) : p ≠ [] := by
  cases h with
  | nul => exact List.cons_ne_nil _ _
  | leaf hl _ =>
      rintro rfl
      exact absurd hl.length_lt (Nat.not_lt_zero _)
  | opens ho _ =>
      rintro rfl
      exact absurd ho.length_lt (Nat.not_lt_zero _)

/-- Behind an op that stands alone the track goes on. -/
theorem Track.tail {b : Byte} {p : List Byte} (hb : Plain b) (h0 : b ≠ 0) (h : Track (b :: p)) :
    Track p := by
  obtain ⟨h1, h2, h3, h4, h5, h6, h7⟩ := hb
  cases h with
  | nul => exact absurd rfl h0
  | leaf hl ht =>
      cases hl with
      | str hop => exact absurd hop (by simp only [h1, h2, or_self, not_false_eq_true])
      | text hop => exact absurd hop (by simp only [h3, h4, or_self, not_false_eq_true])
      | line => exact absurd rfl h5
      | plain => exact ht
  | opens ho =>
      cases ho with
      | brace => exact absurd rfl h6
      | paren => exact absurd rfl h7

/-- From a track both `n_seekop(p, 1)` and `skipblock` return, and to a track. -/
theorem Track.skip (n : Nat) {p : List Byte} (hn : p.length ≤ n) (h : Track p) :
    (p.head? ≠ some 0 → ∃ q, Skip none p q ∧ Track q) ∧
      ∀ c, Plain c → c ≠ 0 → ∃ q, Skip (some c) p q ∧ Track q := by
  induction n generalizing p with
  | zero => exact absurd (List.length_eq_zero_iff.mp (Nat.le_zero.mp hn)) h.ne_nil
  | succ n ih =>
      have seek : p.head? ≠ some 0 → ∃ q, Skip none p q ∧ Track q := by
        intro hhead
        cases h with
        | nul => exact absurd rfl hhead
        | leaf hl ht => exact ⟨_, .leaf hl, ht⟩
        | opens ho ht =>
            have hlt := ho.length_lt
            obtain ⟨q, hq, hq'⟩ := (ih (by omega) ht).2 _ ho.plain.1 ho.plain.2
            exact ⟨q, .block ho hq, hq'⟩
      refine ⟨seek, ?_⟩
      intro c hc hc0
      obtain ⟨b, t, rfl⟩ := List.exists_cons_of_ne_nil h.ne_nil
      by_cases hb : b = 0
      · subst hb
        exact ⟨_, .nul, h⟩
      · by_cases hbc : b = c
        · subst hbc
          exact ⟨t, .close hb, h.tail hc hb⟩
        · obtain ⟨q, hq, hq'⟩ := seek (by simpa using hb)
          have hlt := hq.length_lt
          obtain ⟨r, hr, hr'⟩ := (ih (by omega) hq').2 c hc hc0
          exact ⟨r, .step hb hbc hq hr, hr'⟩

/-! ### Line markers and `n_skipto` -/

theorem nSkipWs_line {f p : List Byte} (hf : f.length = 4) :
    nSkipWs (opLinenum :: (f ++ p)) = nSkipWs p := by
  have more : ∀ {m n : Nat} {p : List Byte}, p.length < m → p.length < n → skipWs m p = skipWs n p := by
    intro m
    induction m with
    | zero => intro n p h; omega
    | succ m ih =>
        intro n p hm hn
        obtain ⟨n, rfl⟩ : ∃ k, n = k + 1 := ⟨n - 1, by omega⟩
        cases p with
        | nil => rfl
        | cons b p =>
            simp only [skipWs, deref, ok_bind]
            split
            · simp only [List.length_cons] at hm hn
              exact ih (by simp only [List.length_drop, List.length_cons]; omega)
                (by simp only [List.length_drop, List.length_cons]; omega)
            · rfl
  have hdrop : (opLinenum :: (f ++ p)).drop 5 = p := by rw [List.drop_succ_cons, List.drop_left' hf]
  have hlen : (opLinenum :: (f ++ p)).length = p.length + 5 := by
    simp only [List.length_cons, List.length_append]
    omega
  rw [nSkipWs, nSkipWs, hlen, skipWs, hdrop]
  simp only [deref, ok_bind, if_true]
  exact more (by omega) (by omega)

theorem nSkipWs_ne {b : Byte} {p : List Byte} (hb : b ≠ opLinenum) :
    nSkipWs (b :: p) = .ok (b :: p) := by
  simp only [nSkipWs, skipWs, deref, ok_bind, if_neg hb, pure_eq_ok]

theorem nSkipWs_length {p q : List Byte} (h : nSkipWs p = .ok q) : q.length ≤ p.length := by
  have go : ∀ {fuel : Nat} {p : List Byte}, skipWs fuel p = .ok q → q.length ≤ p.length := by
    intro fuel
    induction fuel with
    | zero => intro p h; cases h
    | succ fuel ih =>
        intro p h
        obtain ⟨b, hb, h⟩ := bind_eq_ok.mp h
        split at h
        · have := ih h
          simp only [List.length_drop] at this
          omega
        · cases h
          exact Nat.le_refl _
  exact go h

/-- The runs of `n_skipto(c)`: it ends at an op `c`, or raises at a NUL. -/
inductive Finds (c : Byte) : List Byte → Except Fault (List Byte) → Prop where
  | nul {p : List Byte} : Finds c (0 :: p) (.error (.raised (.expected c)))
  | here {b : Byte} {p q : List Byte} : b ≠ 0 → nSkipWs (b :: p) = .ok (c :: q) →
      Finds c (b :: p) (.ok (c :: q))
  | step {b b' : Byte} {p q q' : List Byte} {r : Except Fault (List Byte)} : b ≠ 0 →
      nSkipWs (b :: p) = .ok (b' :: q) → b' ≠ c → Skip none (b' :: q) q' → Finds c q' r →
      Finds c (b :: p) r

/-- A run of `Finds` is a call of `n_skipto`. -/
theorem Finds.nSkipto {c : Byte} {p : List Byte} {r : Except Fault (List Byte)} (h : Finds c p r) :
    nSkipto c p = r := by
  have go : ∀ fuel, p.length < fuel → skiptoLoop c fuel p = r := by
    induction h with
    | nul =>
        intro fuel hfuel
        obtain ⟨fuel, rfl⟩ : ∃ k, fuel = k + 1 := ⟨fuel - 1, by omega⟩
        simp only [skiptoLoop, deref, ok_bind, if_true]
    | here hb hws =>
        intro fuel hfuel
        obtain ⟨fuel, rfl⟩ : ∃ k, fuel = k + 1 := ⟨fuel - 1, by omega⟩
        simp only [skiptoLoop, deref, ok_bind, if_neg hb, hws, if_true, pure_eq_ok]
    | step hb hws hc hs _ ih =>
        intro fuel hfuel
        obtain ⟨fuel, rfl⟩ : ∃ k, fuel = k + 1 := ⟨fuel - 1, by omega⟩
        have hle := nSkipWs_length hws
        have hlt := hs.length_lt
        simp only [skiptoLoop, deref, ok_bind, if_neg hb, hws, if_neg hc, hs.nSeekop]
        exact ih fuel (by omega)
  exact go _ (Nat.lt_succ_self _)

/-- A line marker before the place where a search starts does not change its end. -/
theorem Finds.line {c : Byte} {f p : List Byte} {r : Except Fault (List Byte)} (hf : f.length = 4)
    (h0 : p.head? ≠ some 0) (h : Finds c p r) : Finds c (opLinenum :: (f ++ p)) r := by
  cases h with
  | nul => exact absurd rfl h0
  | here hb hws => exact .here (by decide) (by rw [nSkipWs_line hf, hws])
  | step hb hws hc hs hr => exact .step (by decide) (by rw [nSkipWs_line hf, hws]) hc hs hr

end NullG.Nsp
