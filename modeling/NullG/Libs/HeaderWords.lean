/-
Encoded words of headers (`rfc2047_encode` and `rfc2047_decode` of `libs/net/mime.c`).

The encoder breaks long lines as quoted-printable does, and does not escape the `?` that ends a text for the decoder, so
the round trip holds for short strings only (`rfc2047_iff`). The decoder works in place and stays in its string, unless
that ends within the text of an encoded word: then it reads on behind the NUL (`rfc2047Decode_iff`).
-/

import NullG.Lib.Except
import NullG.Libs.QuotedPrintable
import NullG.Libs.Smtp

namespace NullG.Libs.Mime

open NullG.Nsp NullG.Lib NullG.Mail
open NullG.Httpd (isxdigit)
open NullG.Libs.Smtp (b64chars)

/-! ### The decoder -/

/-- How the decoder leaves the middle of a string. -/
inductive Stop where
  /-- a byte behind the NUL is read -/
  | behind
  /-- a byte is written that was not read -/
  | unread
  /-- there are more rounds than bytes -/
  | rounds
  /-- `break` -/
  | brk (t : InPlace Byte)
  deriving DecidableEq

/-- `*d++ = c` -/
def put (c : Byte) (t : InPlace Byte) : Except Stop (InPlace Byte) :=
  match InPlace.put c t with
  | none => .error .unread
  | some t => .ok t

/-- `*d = c` -/
def poke (c : Byte) (t : InPlace Byte) : Except Stop (InPlace Byte) :=
  match InPlace.poke c t with
  | none => .error .unread
  | some t => .ok t

/-- `*d` -/
def peek (t : InPlace Byte) : Except Stop Byte :=
  match t.gap with
  | [] => .error .unread
  | c :: _ => .ok c

/-- `while (*s && *s != '?') s++;` -/
def toMark (out gap : List Byte) : List Byte → Except Stop (InPlace Byte)
  | [] => .error .behind
  | c :: s => if c = 0 ∨ c = ch '?' then .ok ⟨out, gap, c :: s⟩ else toMark out (gap ++ [c]) s

/-- `if (!*s) break; s++;` -/
def next (t : InPlace Byte) : Except Stop (InPlace Byte) :=
  match t.rest with
  | [] => .error .behind
  | c :: s => if c = 0 then .error (.brk t) else .ok ⟨t.out, t.gap ++ [c], s⟩

/-- Behind the next `?`. -/
def pastMark (t : InPlace Byte) : Except Stop (InPlace Byte) := do next (← toMark t.out t.gap t.rest)

/-- The loop over a text of encoding Q: the byte that ends it, and what is behind that. -/
def qLoop (out gap : List Byte) : List Byte → Except Stop (Byte × InPlace Byte)
  | [] => .error .behind
  | c :: s =>
      if c = 0 ∨ c = ch '?' then .ok (c, ⟨out, gap ++ [c], s⟩)
      else if c ≠ ch '=' then do
        let t ← put c ⟨out, gap ++ [c], s⟩
        qLoop t.out t.gap s
      else
        match s with
        | [] => .error .behind
        | [s0] => if isxdigit s0 then .error .behind else qLoop out (gap ++ [c]) [s0]
        | s0 :: s1 :: rest =>
            if isxdigit s0 && isxdigit s1 then do
              let t ← put (hex2int s0 s1) ⟨out, gap ++ [c, s0] ++ [s1], rest⟩
              qLoop t.out t.gap rest
            else qLoop out (gap ++ [c]) (s0 :: s1 :: rest)

/-- `isspace`. -/
def isspace (c : Byte) : Bool := c == ch ' ' || (9 ≤ c && c ≤ 13)

/-- `pos - b64chars`. -/
def b64pos (c : Byte) : Option Byte := (b64chars.idxOf? c).map Nat.toUInt8

/-- The `switch` over `state`: the next state. -/
def putPos (state : Nat) (x : Byte) (t : InPlace Byte) : Except Stop (Nat × InPlace Byte) :=
  match state with
  | 0 => do return (1, ← poke (x <<< 2) t)
  | 1 => do
      let t ← put ((← peek t) ||| (x >>> 4)) t
      return (2, ← poke ((x &&& (0x0f : Byte)) <<< 4) t)
  | 2 => do
      let t ← put ((← peek t) ||| (x >>> 2)) t
      return (3, ← poke ((x &&& (0x03 : Byte)) <<< 6) t)
  | _ => do return (0, ← put ((← peek t) ||| x) t)

/-- The loop over a text of encoding B: the byte that ends it, and what is behind that. -/
def bLoop (state : Nat) (out gap : List Byte) : List Byte → Except Stop (Byte × InPlace Byte)
  | [] => .error .behind
  | c :: s =>
      if c = 0 then .ok (c, ⟨out, gap ++ [c], s⟩)
      else if isspace c then bLoop state out (gap ++ [c]) s
      else if c = ch '=' then .ok (c, ⟨out, gap ++ [c], s⟩)
      else
        match b64pos c with
        | none => .ok (c, ⟨out, gap ++ [c], s⟩)
        | some x => do
            let r ← putPos state x ⟨out, gap ++ [c], s⟩
            bLoop r.1 r.2.out r.2.gap s

/-- The encoding and the text of a word: `ch`, and what is behind the byte that ended the text. -/
def wordText (t : InPlace Byte) : Except Stop (Byte × InPlace Byte) :=
  match t.rest with
  | [] => .error .behind
  | c :: _ =>
      if c = ch 'q' ∨ c = ch 'Q' then do
        let t ← pastMark t
        qLoop t.out t.gap t.rest
      else if c = ch 'b' ∨ c = ch 'B' then do
        let t ← pastMark t
        bLoop 0 t.out t.gap t.rest
      else .ok (0, t)

/-- `if (*s == '=') s++;` -/
def skipPad (t : InPlace Byte) : Except Stop (InPlace Byte) :=
  match t.rest with
  | [] => .error .behind
  | c :: s => .ok (if c = ch '=' then ⟨t.out, t.gap ++ [c], s⟩ else t)

/-- An encoded word. -/
def word (t : InPlace Byte) : Except Stop (InPlace Byte) := do
  let t ← pastMark t
  let t ← pastMark t
  let r ← wordText t
  let t ← if r.1 = ch '=' then toMark r.2.out r.2.gap r.2.rest else .ok r.2
  let t ← next t
  skipPad t

/-- `strncmp(s, "=?", 2) == 0`. -/
def startsWord : List Byte → Except Stop Bool
  | [] => .error .behind
  | c :: s =>
      if c = ch '=' then
        match s with
        | [] => .error .behind
        | d :: _ => .ok (d == ch '?')
      else .ok false

/-- The end of the decoder, at the NUL. -/
def finish (t : InPlace Byte) : Except Stop (List Byte) :=
  match t.rest with
  | [] => .error .behind
  | c :: s => do
      let _ ← put 0 ⟨t.out, t.gap ++ [c], s⟩
      return t.out

/-- The first loop of `libnsp_net_mime_rfc2047_decode`, for `n` rounds: the string that it leaves. -/
def wordsLoop : Nat → InPlace Byte → Except Stop (List Byte)
  | 0, _ => .error .rounds
  | n + 1, t =>
      match t.rest with
      | [] => .error .behind
      | c :: s =>
          if c = 0 then finish t
          else do
            if ← startsWord t.rest then
              match word t with
              | .error (.brk t) => finish t
              | .error e => .error e
              | .ok t => wordsLoop n t
            else do wordsLoop n (← put c ⟨t.out, t.gap ++ [c], s⟩)

/-- `libnsp_net_mime_rfc2047_decode` of a string. -/
def rfc2047Decode (str : List Byte) : Except Stop (List Byte) :=
  if str = [] then .ok [] else wordsLoop (str.length + 1) ⟨[], [], str ++ [0]⟩

/-! ### The encoder -/

/-- `libnsp_net_mime_rfc2047_encode` of a string. -/
def rfc2047Encode (str : List Byte) : Option (List Byte) :=
  if str = [] then some []
  else do
    let outlen ← sizeLoop 0 0 str
    if outlen = str.length then return str
    else do
      let t ← writeLoop ⟨← outBlock outlen, 0, 0⟩ str
      return bytes "=?UTF-8?Q?" ++ t.dest.take outlen ++ bytes "?="

/-! ### Where a string ends -/

/-- Where the decoder is in a string: `mark` is behind a `=`, `skip` in front of a byte that it skips, and `after` where
it skips a `=`. -/
inductive Scan where
  | plain | mark | charset | letter | qhead | bhead | qtext | btext | pad | skip | after
  deriving DecidableEq

namespace Scan

def top (c : Byte) : Scan := if c = ch '=' then mark else plain

/-- One more byte. -/
def step : Scan → Byte → Scan
  | plain, c => top c
  | mark, c => if c = ch '?' then charset else top c
  | charset, c => if c = ch '?' then letter else charset
  | letter, c => if c = ch 'q' ∨ c = ch 'Q' then qhead else if c = ch 'b' ∨ c = ch 'B' then bhead else after
  | qhead, c => if c = ch '?' then qtext else qhead
  | bhead, c => if c = ch '?' then btext else bhead
  | qtext, c => if c = ch '?' then skip else qtext
  | btext, c => if isspace c then btext else if c = ch '=' then pad else if c ∈ b64chars then btext else skip
  | pad, c => if c = ch '?' then after else pad
  | skip, _ => after
  | after, c => if c = ch '=' then plain else top c

/-- The text of an encoded word. -/
def inside (q : Scan) : Bool := q = qtext || q = btext

end Scan

/-- The string does not end within the text of an encoded word. -/
def Closed (str : List Byte) : Prop := (str.foldl Scan.step .plain).inside = false

instance (str : List Byte) : Decidable (Closed str) := inferInstanceAs (Decidable (_ = _))

/-- The decoder stays in its string, reads before it writes, and what it leaves is not longer. -/
def DecodesSafely (str : List Byte) : Prop := ∃ out, rfc2047Decode str = .ok out ∧ out.length ≤ str.length

/-- The buffer of `n` bytes, where `q` is in front of a rest that ends within a text or does not. -/
structure At (n : Nat) (within : Bool) (q : Scan) (t : InPlace Byte) : Prop where
  text : ∃ s, t.rest = s ++ [0] ∧ 0 ∉ s ∧ (s.foldl Scan.step q).inside = within
  cells : t.out.length + t.gap.length + t.rest.length = n

/-- The decoder leaves a string at its NUL, or reads on where it ended within a text. -/
def StopsAt (n : Nat) (within : Bool) : Stop → Prop
  | .behind => within = true
  | .brk t => within = false ∧ t.rest = [0] ∧ t.out.length + t.gap.length + 1 = n
  | .unread => False
  | .rounds => False

section

variable {n : Nat} {within : Bool} {q q' : Scan} {t t' : InPlace Byte} {c : Byte} {s out gap rest : List Byte}

theorem foldl_mark (hq : ∀ c, c ≠ ch '?' → q.step c = q) (hs : ch '?' ∉ s) : s.foldl Scan.step q = q := by
  induction s with
  | nil => rfl
  | cons c s ih =>
      obtain ⟨hc, hs⟩ := not_or.mp (mt List.mem_cons.mpr hs)
      rw [List.foldl_cons, hq c (Ne.symm hc), ih hs]

/-- The loop ends at a `?` or at the NUL, and nothing is lost. -/
theorem toMark_run (h0 : 0 ∉ s) (out gap : List Byte) : ∃ p r, s = p ++ r ∧ ch '?' ∉ p ∧
    (r = [] ∨ ∃ r', r = ch '?' :: r') ∧ toMark out gap (s ++ [0]) = .ok ⟨out, gap ++ p, r ++ [0]⟩ := by
  induction s generalizing gap with
  | nil => exact ⟨[], [], rfl, List.not_mem_nil, .inl rfl, by rw [List.append_nil]; rfl⟩
  | cons c s ih =>
      obtain ⟨hc, h0⟩ := not_or.mp (mt List.mem_cons.mpr h0)
      by_cases hmark : c = ch '?'
      · subst hmark
        exact ⟨[], ch '?' :: s, rfl, List.not_mem_nil, .inr ⟨s, rfl⟩, by rw [List.append_nil]; rfl⟩
      · obtain ⟨p, r, rfl, hp, hr, hrun⟩ := ih h0 (gap ++ [c])
        refine ⟨c :: p, r, rfl, ?_, hr, ?_⟩
        · rw [List.mem_cons, not_or]
          exact ⟨Ne.symm hmark, hp⟩
        · rw [List.cons_append, toMark, if_neg (by rw [not_or]; exact ⟨Ne.symm hc, hmark⟩), hrun, List.append_assoc]
          rfl

/-- In front of the next `?` or the NUL, and behind the byte there. -/
theorem mark_next (q' : Scan) (hq : ∀ c, q.step c = if c = ch '?' then q' else q) (hin : q.inside = false)
    (h : At n within q t) :
    Returns (fun t' => At n within q' t' ∧ t'.rest.length < t.rest.length ∧ t'.gap ≠ []) (StopsAt n within)
      (pastMark t) := by
  obtain ⟨⟨s, hrest, h0, hend⟩, hcells⟩ := h
  obtain ⟨p, r, rfl, hp, hr, hrun⟩ := toMark_run h0 t.out t.gap
  have hskip : p.foldl Scan.step q = q := foldl_mark (fun c hc => by rw [hq, if_neg hc]) hp
  rw [List.foldl_append, hskip] at hend
  rw [hrest] at hcells
  rw [pastMark, hrest, hrun, ok_bind]
  simp only [List.length_append, List.length_singleton] at hcells
  obtain rfl | ⟨r, rfl⟩ := hr
  · refine ⟨hend.symm.trans hin, rfl, ?_⟩
    simp only [List.length_append]
    simp only [List.length_nil] at hcells
    omega
  · simp only [List.length_cons] at hcells
    have h0r : 0 ∉ r := fun hmem => h0 (List.mem_append_right p (List.mem_cons_of_mem _ hmem))
    rw [List.foldl_cons, hq, if_pos rfl] at hend
    refine ⟨⟨⟨r, rfl, h0r, hend⟩, ?_⟩, ?_, ?_⟩
    all_goals simp
    all_goals omega

/-- What a loop over the text of a word returns: it is ended by a byte, or the string is. -/
def EndsText (n : Nat) (within : Bool) (len : Nat) (r : Byte × InPlace Byte) : Prop :=
  (r.1 = ch '=' ∧ At n within .pad r.2 ∧ r.2.rest.length ≤ len) ∨
    (r.1 ≠ ch '=' ∧ At n within .skip r.2 ∧ r.2.rest.length ≤ len) ∨
    (r.1 ≠ ch '=' ∧ r.2.rest = [] ∧ within = true)

theorem put_ok (c x : Byte) (out gap rest : List Byte) :
    put c ⟨out, gap ++ [x], rest⟩ = .ok ⟨out ++ [c], (gap ++ [x]).tail, rest⟩ := by
  rw [put, InPlace.put_read]

/-- A byte that is read and not written. -/
theorem at_read (h : At n within q ⟨out, gap, c :: s ++ [0]⟩) : At n within (q.step c) ⟨out, gap ++ [c], s ++ [0]⟩ := by
  obtain ⟨⟨s', hrest, h0, hend⟩, hcells⟩ := h
  obtain rfl := List.append_cancel_right hrest
  refine ⟨⟨s, rfl, fun hmem => h0 (List.mem_cons_of_mem c hmem), hend⟩, ?_⟩
  simp only [List.length_append, List.length_cons, List.length_nil] at hcells ⊢
  omega

/-- A byte that is written where one was read. -/
theorem at_put (d : Byte) (h : At n within q ⟨out, gap ++ [c], rest⟩) :
    At n within q ⟨out ++ [d], (gap ++ [c]).tail, rest⟩ := by
  refine ⟨h.text, ?_⟩
  have hcells := h.cells
  simp only [List.length_append, List.length_tail, List.length_cons, List.length_nil] at hcells ⊢
  omega

theorem at_nul (h : At n within q ⟨out, gap, s ++ [0]⟩) : 0 ∉ s ∧ (s.foldl Scan.step q).inside = within := by
  obtain ⟨⟨s', hrest, h0, hend⟩, -⟩ := h
  obtain rfl := List.append_cancel_right hrest
  exact ⟨h0, hend⟩

theorem EndsText.mono {m len : Nat} {r : Byte × InPlace Byte} (h : EndsText n within m r) (hle : m ≤ len) :
    EndsText n within len r := by
  obtain ⟨hc, hat, hlen⟩ | ⟨hc, hat, hlen⟩ | hend := h
  · exact .inl ⟨hc, hat, Nat.le_trans hlen hle⟩
  · exact .inr (.inl ⟨hc, hat, Nat.le_trans hlen hle⟩)
  · exact .inr (.inr hend)

/-- A byte of a text of encoding Q that does not end it. -/
theorem at_qtext (h : At n within .qtext ⟨out, gap, c :: s ++ [0]⟩) (hc : c ≠ ch '?') :
    At n within .qtext ⟨out, gap ++ [c], s ++ [0]⟩ := by
  have hread := at_read h
  rwa [Scan.step, if_neg hc] at hread

theorem digit_not_mark (h : isxdigit c = true) : c ≠ ch '?' := by
  rintro rfl
  exact Bool.false_ne_true h

/-- A text of encoding Q. -/
theorem qLoop_ends (h : At n within .qtext ⟨out, gap, s ++ [0]⟩) :
    Returns (EndsText n within s.length) (StopsAt n within) (qLoop out gap (s ++ [0])) := by
  have hnul : (0 : Byte) ≠ ch '=' := by decide
  have hquestion : ch '?' ≠ ch '=' := by decide
  induction hlen : s.length using Nat.strong_induction_on generalizing s out gap with
  | _ len ih =>
    subst hlen
    have hrec : ∀ {s' out gap}, s'.length < s.length → At n within .qtext ⟨out, gap, s' ++ [0]⟩ →
        Returns (EndsText n within s.length) (StopsAt n within) (qLoop out gap (s' ++ [0])) := by
      intro s' out gap hlt hat
      exact (ih s'.length hlt hat rfl).conseq (fun r hr => hr.mono (Nat.le_of_lt hlt)) fun _ he => he
    cases s with
    | nil =>
        rw [List.nil_append, qLoop, if_pos (.inl rfl)]
        exact .inr (.inr ⟨hnul, rfl, (at_nul h).2.symm⟩)
    | cons c s =>
        have hc : 0 ≠ c := fun hc => (at_nul h).1 (hc ▸ List.mem_cons_self)
        rw [List.cons_append, qLoop.eq_def]
        dsimp only
        by_cases hmark : c = ch '?'
        · subst hmark
          rw [if_pos (.inr rfl)]
          exact .inr (.inl ⟨hquestion, at_read h, by simp⟩)
        · have hread := at_qtext h hmark
          rw [if_neg (not_or.mpr ⟨Ne.symm hc, hmark⟩)]
          by_cases heq : c ≠ ch '='
          · rw [if_pos heq, put_ok, ok_bind]
            exact hrec (Nat.lt_succ_self _) (at_put c hread)
          · rw [if_neg heq]
            cases s with
            | nil => exact hrec (Nat.lt_succ_self _) hread
            | cons a s =>
                cases s with
                | nil =>
                    have hdigits : ¬ (isxdigit a && isxdigit 0) = true := by
                      rw [Bool.and_eq_true_iff]
                      exact fun hdigits => Bool.false_ne_true hdigits.2
                    rw [List.cons_append, List.nil_append]
                    dsimp only
                    rw [if_neg hdigits]
                    exact hrec (Nat.lt_succ_self _) hread
                | cons b s =>
                    rw [List.cons_append, List.cons_append]
                    dsimp only
                    by_cases hdigits : (isxdigit a && isxdigit b) = true
                    · obtain ⟨ha, hb⟩ := Bool.and_eq_true_iff.mp hdigits
                      have hdigit := at_qtext (at_qtext hread (digit_not_mark ha)) (digit_not_mark hb)
                      rw [if_pos hdigits, put_ok, ok_bind]
                      refine hrec (Nat.lt_of_lt_of_le (Nat.lt_succ_self _) (Nat.le_add_right _ 2)) (at_put _ ?_)
                      rwa [List.append_assoc gap] at hdigit
                    · rw [if_neg hdigits]
                      exact hrec (Nat.lt_succ_self _) hread

theorem at_write (d : Byte) {a : Byte} (h : At n within q ⟨out, a :: gap, rest⟩) :
    At n within q ⟨out ++ [d], gap, rest⟩ := by
  refine ⟨h.text, ?_⟩
  have hcells := h.cells
  simp only [List.length_append, List.length_cons, List.length_nil] at hcells ⊢
  omega

/-- The step of a quad stays in the bytes that were read, if there are two. -/
theorem putPos_ok (state : Nat) (x a b : Byte) (h : At n within q ⟨out, a :: b :: gap, rest⟩) :
    ∃ state' out' gap', putPos state x ⟨out, a :: b :: gap, rest⟩ = .ok (state', ⟨out', gap', rest⟩) ∧ gap' ≠ [] ∧
      At n within q ⟨out', gap', rest⟩ := by
  have hput : ∀ c, At n within q ⟨out ++ [c], b :: gap, rest⟩ := fun c => at_write c h
  have hboth : ∀ c d, At n within q ⟨out ++ [c], d :: gap, rest⟩ := fun c d => ⟨(hput c).text, (hput c).cells⟩
  unfold putPos
  split
  · exact ⟨_, _, _, rfl, List.cons_ne_nil _ _, h.text, h.cells⟩
  · exact ⟨_, _, _, rfl, List.cons_ne_nil _ _, hboth _ _⟩
  · exact ⟨_, _, _, rfl, List.cons_ne_nil _ _, hboth _ _⟩
  · exact ⟨_, _, _, rfl, List.cons_ne_nil _ _, hput _⟩

theorem b64pos_none : b64pos c = none ↔ c ∉ b64chars := by
  rw [b64pos, Option.map_eq_none_iff, List.idxOf?_eq_none_iff]

/-- A text of encoding B. -/
theorem bLoop_ends (state : Nat) (hgap : gap ≠ []) (h : At n within .btext ⟨out, gap, s ++ [0]⟩) :
    Returns (EndsText n within s.length) (StopsAt n within) (bLoop state out gap (s ++ [0])) := by
  have hnul : (0 : Byte) ≠ ch '=' := by decide
  induction s generalizing state out gap with
  | nil => exact .inr (.inr ⟨hnul, rfl, (at_nul h).2.symm⟩)
  | cons c s ih =>
      have hc : ¬ c = 0 := fun hc => (at_nul h).1 (hc ▸ List.mem_cons_self)
      have hread := at_read h
      have hgap' : gap ++ [c] ≠ [] := List.append_ne_nil_of_right_ne_nil gap (List.cons_ne_nil c [])
      have hrec : ∀ {state out gap}, gap ≠ [] → At n within .btext ⟨out, gap, s ++ [0]⟩ →
          Returns (EndsText n within (c :: s).length) (StopsAt n within) (bLoop state out gap (s ++ [0])) := by
        intro state out gap hgap hat
        exact (ih state hgap hat).conseq (fun r hr => hr.mono (Nat.le_succ _)) fun _ he => he
      have hshort : (s ++ [0]).length ≤ (c :: s).length := by simp
      rw [List.cons_append, bLoop, if_neg hc]
      rw [Scan.step] at hread
      by_cases hspace : isspace c = true
      · rw [if_pos hspace] at hread ⊢
        exact hrec hgap' hread
      · rw [if_neg hspace] at hread ⊢
        by_cases hpad : c = ch '='
        · rw [if_pos hpad] at hread ⊢
          exact .inl ⟨hpad, hread, hshort⟩
        · rw [if_neg hpad] at hread ⊢
          cases hpos : b64pos c with
          | none =>
              rw [if_neg (b64pos_none.mp hpos)] at hread
              exact .inr (.inl ⟨hpad, hread, hshort⟩)
          | some x =>
              have hmem : c ∈ b64chars := by
                by_contra hmem
                cases hpos.symm.trans (b64pos_none.mpr hmem)
              rw [if_pos hmem] at hread
              obtain ⟨a, b, g, hcells⟩ : ∃ a b g, gap ++ [c] = a :: b :: g := by
                obtain _ | ⟨a, _ | ⟨b, g⟩⟩ := gap
                · exact absurd rfl hgap
                · exact ⟨a, c, [], rfl⟩
                · exact ⟨a, b, g ++ [c], rfl⟩
              rw [hcells] at hread ⊢
              obtain ⟨state', out', gap', hput, hne, hat⟩ := putPos_ok state x a b hread
              dsimp only
              rw [hput, ok_bind]
              exact hrec hne hat

/-- The same place, if the next byte leads to the same one from there. -/
theorem at_same (h : At n within q t) (hin : q.inside = q'.inside)
    (hstep : ∀ c s, t.rest = c :: s → c ≠ 0 → q.step c = q'.step c) : At n within q' t := by
  obtain ⟨⟨s, hrest, h0, hend⟩, hcells⟩ := h
  refine ⟨⟨s, hrest, h0, ?_⟩, hcells⟩
  cases s with
  | nil => exact hin.symm.trans hend
  | cons c s =>
      have hc : c ≠ 0 := fun hc => h0 (hc ▸ List.mem_cons_self)
      rwa [List.foldl_cons, ← hstep c (s ++ [0]) (hrest.trans List.cons_append) hc]

/-- The loop over the text behind the next `?`. -/
theorem text_ends {f : InPlace Byte → Except Stop (Byte × InPlace Byte)}
    (hq : ∀ c, q.step c = if c = ch '?' then q' else q) (hin : q.inside = false) (h : At n within q t)
    (hf : ∀ {out gap s}, gap ≠ [] → At n within q' ⟨out, gap, s ++ [0]⟩ →
      Returns (EndsText n within s.length) (StopsAt n within) (f ⟨out, gap, s ++ [0]⟩)) :
    Returns (EndsText n within t.rest.length) (StopsAt n within) (pastMark t >>= f) := by
  refine (mark_next q' hq hin h).bind ?_
  rintro ⟨out, gap, rest⟩ ⟨hat, hlt, hgap⟩
  obtain ⟨s, hrest, -⟩ := hat.text
  dsimp only at hrest hlt hgap
  subst hrest
  refine (hf hgap hat).conseq (fun r hr => hr.mono ?_) fun _ he => he
  rw [List.length_append] at hlt
  omega

/-- The encoding and the text of a word. -/
theorem wordText_ends (h : At n within .letter t) :
    Returns (EndsText n within t.rest.length) (StopsAt n within) (wordText t) := by
  obtain ⟨out, gap, rest⟩ := t
  obtain ⟨s, hrest, h0, -⟩ := h.text
  obtain ⟨c, s', hcons⟩ : ∃ c s', rest = c :: s' := by
    cases s with
    | nil => exact ⟨0, [], hrest⟩
    | cons c s => exact ⟨c, s ++ [0], hrest.trans List.cons_append⟩
  subst hcons
  have hhead : ∀ {d s''}, c :: s' = d :: s'' → d = c := fun heq => (List.cons.inj heq).1.symm
  unfold wordText
  dsimp only
  by_cases hqletter : c = ch 'q' ∨ c = ch 'Q'
  · rw [if_pos hqletter]
    have hat : At n within .qhead ⟨out, gap, c :: s'⟩ := by
      refine at_same h rfl fun d s'' heq _ => ?_
      obtain rfl := hhead heq
      rcases hqletter with rfl | rfl <;> rfl
    exact text_ends (fun _ => rfl) rfl hat fun _ hat => qLoop_ends hat
  · rw [if_neg hqletter]
    by_cases hbletter : c = ch 'b' ∨ c = ch 'B'
    · rw [if_pos hbletter]
      have hat : At n within .bhead ⟨out, gap, c :: s'⟩ := by
        refine at_same h rfl fun d s'' heq _ => ?_
        obtain rfl := hhead heq
        rcases hbletter with rfl | rfl <;> rfl
      exact text_ends (fun _ => rfl) rfl hat fun hgap hat => bLoop_ends 0 hgap hat
    · rw [if_neg hbletter]
      have hat : At n within .skip ⟨out, gap, c :: s'⟩ := by
        refine at_same h rfl fun d s'' heq _ => ?_
        obtain rfl := hhead heq
        rw [Scan.step, if_neg hqletter, if_neg hbletter, Scan.step]
      have hnul : (0 : Byte) ≠ ch '=' := by decide
      exact .inr (.inl ⟨hnul, hat, Nat.le_refl _⟩)

/-- A byte is skipped, if the string does not end here. -/
theorem next_ends (hin : q.inside = false) (hq : ∀ c, q.step c = q') (h : At n within q t) :
    Returns (fun t' => At n within q' t' ∧ t'.rest.length < t.rest.length) (StopsAt n within) (next t) := by
  obtain ⟨out, gap, rest⟩ := t
  obtain ⟨s, hrest, h0, -⟩ := h.text
  dsimp only at hrest
  subst hrest
  cases s with
  | nil =>
      have hcells := h.cells
      exact ⟨(at_nul h).2.symm.trans hin, rfl, hcells⟩
  | cons c s =>
      have hc : ¬ c = 0 := fun hc => h0 (hc ▸ List.mem_cons_self)
      have hread := at_read h
      rw [hq] at hread
      rw [next, List.cons_append]
      dsimp only
      rw [if_neg hc]
      exact ⟨hread, Nat.lt_succ_self _⟩

theorem skipPad_ends (h : At n within .after t) :
    Returns (fun t' => At n within .plain t' ∧ t'.rest.length ≤ t.rest.length) (StopsAt n within) (skipPad t) := by
  obtain ⟨out, gap, rest⟩ := t
  obtain ⟨s, hrest, h0, -⟩ := h.text
  dsimp only at hrest
  subst hrest
  cases s with
  | nil => exact ⟨at_same h rfl fun c s heq hc => absurd (List.cons.inj heq).1.symm hc, Nat.le_refl _⟩
  | cons c s =>
      rw [skipPad, List.cons_append]
      dsimp only
      by_cases hpad : c = ch '='
      · have hread := at_read h
        rw [Scan.step, if_pos hpad] at hread
        rw [if_pos hpad]
        exact ⟨hread, Nat.le_succ _⟩
      · rw [if_neg hpad]
        refine ⟨at_same h rfl fun d s' heq _ => ?_, Nat.le_refl _⟩
        obtain ⟨rfl, -⟩ := List.cons.inj heq
        exact if_neg hpad

/-- What follows the text of a word. -/
theorem wordEnd_ends {len : Nat} {r : Byte × InPlace Byte} (h : EndsText n within len r) :
    Returns (fun t' => At n within .plain t' ∧ t'.rest.length < len) (StopsAt n within) (do
      let t ← if r.1 = ch '=' then toMark r.2.out r.2.gap r.2.rest else .ok r.2
      let t ← next t
      skipPad t) := by
  have hskip : ∀ {t : InPlace Byte}, At n within .after t ∧ t.rest.length < len →
      Returns (fun t' => At n within .plain t' ∧ t'.rest.length < len) (StopsAt n within) (skipPad t) := by
    rintro t ⟨hat, hlt⟩
    exact (skipPad_ends hat).conseq (fun t' ht' => ⟨ht'.1, Nat.lt_of_le_of_lt ht'.2 hlt⟩) fun _ he => he
  obtain ⟨hc, hat, hlen⟩ | ⟨hc, hat, hlen⟩ | ⟨hc, hrest, hwithin⟩ := h
  · have hmark := mark_next .after (fun _ => rfl) rfl hat
    rw [if_pos hc, ← bind_assoc]
    refine Returns.bind (B := fun t => At n within .after t ∧ t.rest.length < len) ?_ fun _ => hskip
    exact hmark.conseq (fun t ht => ⟨ht.1, Nat.lt_of_lt_of_le ht.2.1 hlen⟩) fun _ he => he
  · rw [if_neg hc, ok_bind]
    refine Returns.bind (B := fun t => At n within .after t ∧ t.rest.length < len) ?_ fun _ => hskip
    exact (next_ends rfl (fun _ => rfl) hat).conseq (fun t ht => ⟨ht.1, Nat.lt_of_lt_of_le ht.2 hlen⟩) fun _ he => he
  · have hnext : next r.2 = .error .behind := by
      unfold next
      rw [hrest]
    rw [if_neg hc, ok_bind]
    dsimp only
    rw [hnext]
    exact hwithin

/-- A word: the rest is shorter. -/
theorem word_ends (h : At n within .plain ⟨out, gap, ch '=' :: ch '?' :: s ++ [0]⟩) :
    Returns (fun t' => At n within .plain t' ∧ t'.rest.length < (ch '=' :: ch '?' :: s ++ [0]).length)
      (StopsAt n within) (word ⟨out, gap, ch '=' :: ch '?' :: s ++ [0]⟩) := by
  have hfirst : pastMark ⟨out, gap, ch '=' :: ch '?' :: s ++ [0]⟩ =
      .ok ⟨out, gap ++ [ch '='] ++ [ch '?'], s ++ [0]⟩ := rfl
  have hat : At n within .charset ⟨out, gap ++ [ch '='] ++ [ch '?'], s ++ [0]⟩ := at_read (at_read h)
  rw [word, hfirst, ok_bind]
  refine (mark_next .letter (fun _ => rfl) rfl hat).bind ?_
  rintro t ⟨hat, hlt, -⟩
  refine (wordText_ends hat).bind fun r hr => ?_
  refine (wordEnd_ends hr).conseq (fun t' ht' => ⟨ht'.1, ?_⟩) fun _ he => he
  have hlt' := ht'.2
  simp only [List.length_append, List.length_cons] at hlt ⊢
  omega

/-- At the NUL. -/
theorem finish_ends (hrest : t.rest = [0]) (hcells : t.out.length + t.gap.length + 1 = n) (hwithin : within = false) :
    Returns (fun out => within = false ∧ out.length < n) (fun e => e = .behind ∧ within = true) (finish t) := by
  rw [finish, hrest]
  dsimp only
  rw [put_ok]
  refine ⟨hwithin, ?_⟩
  omega

/-- No word starts at a `=` without a `?` behind it. -/
theorem startsWord_false (hword : c = ch '=' → ∀ s', s ≠ ch '?' :: s') : startsWord (c :: (s ++ [0])) = .ok false := by
  by_cases heq : c = ch '='
  · rw [startsWord.eq_def]
    dsimp only
    rw [if_pos heq]
    cases s with
    | nil => rfl
    | cons d s => exact congrArg Except.ok (beq_false_of_ne fun hd => hword heq s (by rw [hd]))
  · exact if_neg heq

/-- The decoder stays in a string unless that ends within a text. -/
theorem wordsLoop_ends (rounds : Nat) (hrounds : t.rest.length ≤ rounds) (h : At n within .plain t) :
    Returns (fun out => within = false ∧ out.length < n) (fun e => e = .behind ∧ within = true)
      (wordsLoop rounds t) := by
  induction rounds generalizing t with
  | zero =>
      obtain ⟨s, hrest, -⟩ := h.text
      rw [hrest, List.length_append] at hrounds
      cases hrounds
  | succ rounds ih =>
      obtain ⟨out, gap, rest⟩ := t
      obtain ⟨s, hrest, -⟩ := h.text
      dsimp only at hrest hrounds
      subst hrest
      cases s with
      | nil => exact finish_ends rfl h.cells (at_nul h).2.symm
      | cons c s =>
          have hc : ¬ c = 0 := fun hc => (at_nul h).1 (hc ▸ List.mem_cons_self)
          have hlen : (s ++ [0]).length ≤ rounds := Nat.le_of_succ_le_succ hrounds
          -- a byte that starts no word is copied
          have hcopy : (c = ch '=' → ∀ s', s ≠ ch '?' :: s') →
              Returns (fun out => within = false ∧ out.length < n) (fun e => e = .behind ∧ within = true)
                (put c ⟨out, gap ++ [c], s ++ [0]⟩ >>= fun t => wordsLoop rounds t) := by
            intro hword
            have hread := at_read h
            have hat : At n within .plain ⟨out, gap ++ [c], s ++ [0]⟩ := by
              rw [Scan.step, Scan.top] at hread
              by_cases heq : c = ch '='
              · rw [if_pos heq] at hread
                refine at_same hread rfl fun d s' hrest hd => if_neg ?_
                rintro rfl
                cases s with
                | nil => exact hd (List.cons.inj hrest).1.symm
                | cons d s => exact hword heq s (by rw [(List.cons.inj hrest).1])
              · rwa [if_neg heq] at hread
            rw [put_ok, ok_bind]
            exact ih hlen (at_put c hat)
          rw [wordsLoop, List.cons_append]
          dsimp only
          rw [if_neg hc]
          by_cases hstart : c = ch '=' ∧ ∃ s', s = ch '?' :: s'
          · obtain ⟨rfl, s, rfl⟩ := hstart
            have hword := word_ends h
            have hstarts : startsWord (ch '=' :: (ch '?' :: s ++ [0])) = .ok true := rfl
            rw [hstarts, ok_bind, if_pos rfl]
            cases hrun : word ⟨out, gap, ch '=' :: (ch '?' :: s ++ [0])⟩ with
            | ok t =>
                rw [List.cons_append, hrun] at hword
                exact ih (Nat.le_trans (Nat.le_of_lt_succ hword.2) hlen) hword.1
            | error e =>
                rw [List.cons_append, hrun] at hword
                cases e with
                | behind => exact ⟨rfl, hword⟩
                | unread => exact hword.elim
                | rounds => exact hword.elim
                | brk t => exact finish_ends hword.2.1 hword.2.2 hword.1
          · have hno : c = ch '=' → ∀ s', s ≠ ch '?' :: s' := fun hc s' hs => hstart ⟨hc, s', hs⟩
            rw [startsWord_false hno, ok_bind]
            exact hcopy hno

/-- What the decoder leaves of a string, or how it leaves the string. -/
theorem rfc2047Decode_ends (str : List Byte) (h0 : 0 ∉ str) :
    Returns (fun out => Closed str ∧ out.length ≤ str.length) (fun e => e = .behind ∧ ¬ Closed str)
      (rfc2047Decode str) := by
  unfold rfc2047Decode
  split
  · rename_i hnil
    rw [hnil]
    exact ⟨rfl, Nat.le_refl 0⟩
  · have hstart : At (str.length + 1) (str.foldl Scan.step .plain).inside .plain ⟨[], [], str ++ [0]⟩ :=
      ⟨⟨str, rfl, h0, rfl⟩, by simp⟩
    have hends := wordsLoop_ends (str.length + 1) (by simp) hstart
    refine hends.conseq (fun out hout => ⟨hout.1, Nat.le_of_lt_succ hout.2⟩) fun e he => ⟨he.1, ?_⟩
    rw [Closed, he.2]
    decide

theorem closed_of_safe {str : List Byte} (h0 : 0 ∉ str) (h : DecodesSafely str) : Closed str := by
  obtain ⟨out, hrun, -⟩ := h
  have hends := rfc2047Decode_ends str h0
  rw [hrun] at hends
  exact hends.1

/-- The decoder is safe on the strings that do not end within a text. -/
theorem rfc2047Decode_iff (str : List Byte) (h0 : 0 ∉ str) : DecodesSafely str ↔ Closed str := by
  refine ⟨closed_of_safe h0, fun hclosed => ?_⟩
  have hends := rfc2047Decode_ends str h0
  cases hrun : rfc2047Decode str with
  | ok out =>
      rw [hrun] at hends
      exact ⟨out, hrun, hends.2⟩
  | error e =>
      rw [hrun] at hends
      exact absurd hclosed hends.2

theorem rfc2047Decode_words : DecodesSafely (bytes "a =?b?Q?c=2Cd?= =?b?B?TWE=?=") :=
  (rfc2047Decode_iff (bytes "a =?b?Q?c=2Cd?= =?b?B?TWE=?=") (by decide)).mpr (by decide +kernel)

/-- A text of encoding Q that is cut. -/
theorem not_decodesSafely_cut : ¬ DecodesSafely (bytes "=?a?Q?abc") := by
  have hopen : ¬ Closed (bytes "=?a?Q?abc") := by decide +kernel
  exact fun h => hopen (closed_of_safe (by decide) h)

end

/-! ### The round trip -/

/-- What is encoded is decoded to the string. -/
def EncodesWord (s : List Byte) : Prop := ∃ text, rfc2047Encode s = some text ∧ rfc2047Decode text = .ok s

/-- The string fits on one line, and no `?` stands beside an escape. -/
structure WordFits (s : List Byte) : Prop where
  short : (s.map width).sum < maxlinelen
  plain : ch '?' ∉ s ∨ ∀ c ∈ s, escaped c = false

section

variable {c : Byte} {s p out gap rest : List Byte} {lines : List (List Byte)} {linelen : Nat}

/-- What the decoder makes of a soft break. -/
def crlf : List Byte := [ch '\r', ch '\n']

/-- A text of encoding Q is read as a part of a string, whatever follows it. -/
def ReadAs (text out : List Byte) : Prop :=
  ∀ pre gap rest, ∃ gap', qLoop pre gap (text ++ rest) = qLoop (pre ++ out) gap' rest

theorem ReadAs.nil : ReadAs [] [] := fun pre gap rest => ⟨gap, by rw [List.append_nil]; rfl⟩

theorem ReadAs.append {text text' out out' : List Byte} (h : ReadAs text out) (h' : ReadAs text' out') :
    ReadAs (text ++ text') (out ++ out') := by
  intro pre gap rest
  obtain ⟨gap₁, h₁⟩ := h pre gap (text' ++ rest)
  obtain ⟨gap₂, h₂⟩ := h' (pre ++ out) gap₁ rest
  exact ⟨gap₂, by rw [List.append_assoc, h₁, h₂, List.append_assoc]⟩

/-- A byte that stands for itself. -/
theorem readAs_plain (hnul : c ≠ 0) (hmark : c ≠ ch '?') (hpad : c ≠ ch '=') : ReadAs [c] [c] := by
  intro pre gap rest
  refine ⟨(gap ++ [c]).tail, ?_⟩
  rw [List.singleton_append, qLoop.eq_def]
  dsimp only
  rw [if_neg (not_or.mpr ⟨hnul, hmark⟩), if_pos hpad, put_ok, ok_bind]

theorem readAs_byte (hmark : c ≠ ch '?') : ReadAs (qpByte c) [c] := by
  unfold qpByte
  by_cases hescaped : escaped c = true
  · intro pre gap rest
    refine ⟨(gap ++ [ch '=', hex (c / 16)] ++ [hex (c &&& (15 : Byte))]).tail, ?_⟩
    rw [if_pos hescaped, List.cons_append, List.cons_append, List.cons_append, List.nil_append, qLoop.eq_def]
    dsimp only
    rw [if_neg (by decide), if_neg (by decide), if_pos (hex_digits c), put_ok, ok_bind, hex2int_hex]
  · rw [if_neg hescaped]
    have hplain := plain_of_not_escaped hescaped
    exact readAs_plain hplain.1 hmark hplain.2

theorem readAs_soft : ReadAs soft crlf := by
  intro pre gap rest
  obtain ⟨gap', h⟩ := ((readAs_plain (c := ch '\r') (by decide) (by decide) (by decide)).append
    (readAs_plain (c := ch '\n') (by decide) (by decide) (by decide))) pre (gap ++ [ch '=']) rest
  refine ⟨gap', ?_⟩
  rw [soft, List.cons_append, List.cons_append, List.cons_append, List.nil_append, qLoop.eq_def]
  dsimp only
  rw [if_neg (by decide), if_neg (by decide), if_neg (by decide)]
  exact h

theorem readAs_line (line : List Byte) (hmark : ch '?' ∉ line) : ReadAs (line.flatMap qpByte) line := by
  induction line with
  | nil => exact .nil
  | cons c line ih =>
      obtain ⟨hc, hline⟩ := not_or.mp (mt List.mem_cons.mpr hmark)
      exact (readAs_byte (Ne.symm hc)).append (ih hline)

/-- Lines are read with a CRLF between them. -/
theorem readAs_joined (hmark : ch '?' ∉ lines.flatten) :
    ReadAs (Filling.joined soft qpByte lines) (Filling.joined crlf (fun c => [c]) lines) := by
  have hsingle : ∀ line : List Byte, line.flatMap (fun c => [c]) = line := fun line => List.flatMap_singleton' line
  induction lines with
  | nil => exact .nil
  | cons line lines ih =>
      rw [List.flatten_cons, List.mem_append, not_or] at hmark
      have hline := readAs_line line hmark.1
      by_cases hlines : lines = []
      · subst hlines
        rw [Filling.joined_single, Filling.joined_single, hsingle]
        exact hline
      · rw [Filling.joined_cons hlines, Filling.joined_cons hlines, hsingle]
        exact (hline.append readAs_soft).append (ih hmark.2)

/-! #### The rest of a string -/

/-- A rest without a word is copied. -/
theorem wordsLoop_copy {rounds : Nat} (h0 : 0 ∉ s) (hword : ¬ [ch '=', ch '?'] <:+: s) (hrounds : s.length < rounds)
    (out gap : List Byte) : wordsLoop rounds ⟨out, gap, s ++ [0]⟩ = .ok (out ++ s) := by
  induction s generalizing rounds out gap with
  | nil =>
      obtain ⟨rounds, rfl⟩ := Nat.exists_eq_succ_of_ne_zero (Nat.ne_of_gt hrounds)
      rw [List.nil_append, wordsLoop, List.append_nil]
      dsimp only
      rw [if_pos rfl, finish]
      dsimp only
      rw [put_ok]
      rfl
  | cons c s ih =>
      obtain ⟨rounds, rfl⟩ := Nat.exists_eq_succ_of_ne_zero (Nat.ne_of_gt (Nat.lt_of_le_of_lt (Nat.zero_le _) hrounds))
      obtain ⟨hc, h0⟩ := not_or.mp (mt List.mem_cons.mpr h0)
      have hno : c = ch '=' → ∀ s', s ≠ ch '?' :: s' := by
        rintro rfl s' rfl
        exact hword (List.IsPrefix.isInfix ⟨s', rfl⟩)
      have hrest : ¬ [ch '=', ch '?'] <:+: s := fun h => hword (h.trans (List.suffix_cons c s).isInfix)
      rw [List.cons_append, wordsLoop]
      dsimp only
      rw [if_neg (Ne.symm hc), startsWord_false hno, ok_bind, if_neg Bool.false_ne_true, put_ok, ok_bind,
        ih h0 hrest (Nat.lt_of_succ_lt_succ hrounds), List.append_assoc]
      rfl

/-- A text of encoding Q, in its word. -/
def utf8Word (text : List Byte) : List Byte := bytes "=?UTF-8?Q?" ++ text

/-- The word up to its text. -/
theorem word_text (text : List Byte) : ∃ gap, word ⟨[], [], utf8Word text⟩ = (qLoop [] gap text >>= fun r => do
      let t ← if r.1 = ch '=' then toMark r.2.out r.2.gap r.2.rest else .ok r.2
      let t ← next t
      skipPad t) := by
  refine ⟨bytes "=?UTF-8?Q?", rfl⟩

/-- Behind the `?` that ends a text one byte is skipped, and one more if that is a `=`. -/
theorem skip_tail (out gap tail : List Byte) {x : Byte} (hx : x ≠ 0) : ∃ n gap', 1 ≤ n ∧ n ≤ 2 ∧
    (next ⟨out, gap, x :: tail ++ [0]⟩ >>= skipPad) = .ok ⟨out, gap', (x :: tail).drop n ++ [0]⟩ := by
  have hnext : next ⟨out, gap, x :: tail ++ [0]⟩ = .ok ⟨out, gap ++ [x], tail ++ [0]⟩ := if_neg hx
  rw [hnext, ok_bind]
  cases tail with
  | nil => exact ⟨1, gap ++ [x], by decide, by decide, rfl⟩
  | cons y tail =>
      by_cases hpad : y = ch '='
      · exact ⟨2, gap ++ [x] ++ [y], by decide, by decide, congrArg Except.ok (if_pos hpad)⟩
      · exact ⟨1, gap ++ [x], by decide, by decide, congrArg Except.ok (if_neg hpad)⟩

theorem qLoop_mark (out gap rest : List Byte) :
    qLoop out gap (ch '?' :: rest) = .ok (ch '?', ⟨out, gap ++ [ch '?'], rest⟩) := by
  rw [qLoop.eq_def]
  exact if_pos (.inr rfl)

/-- A round that reads a word. -/
theorem wordsLoop_word {rounds : Nat} {t' : InPlace Byte} (hrun : word ⟨out, gap, ch '=' :: ch '?' :: s⟩ = .ok t') :
    wordsLoop (rounds + 1) ⟨out, gap, ch '=' :: ch '?' :: s⟩ = wordsLoop rounds t' := by
  have hc : ¬ ch '=' = 0 := by decide
  have hstarts : startsWord (ch '=' :: ch '?' :: s) = .ok true := rfl
  rw [wordsLoop]
  dsimp only
  rw [if_neg hc, hstarts, ok_bind, if_pos rfl, hrun]

/-- A word is read up to the first `?` of its text; what follows is copied but for one byte or two. -/
theorem rfc2047Decode_word {text tail out : List Byte} (hread : ReadAs text out) (hne : tail ≠ []) (h0 : 0 ∉ tail)
    (hword : ¬ [ch '=', ch '?'] <:+: tail) : ∃ n, 1 ≤ n ∧ n ≤ 2 ∧
      rfc2047Decode (utf8Word (text ++ ch '?' :: tail)) = .ok (out ++ tail.drop n) := by
  obtain ⟨x, tail, rfl⟩ := List.exists_cons_of_ne_nil hne
  have hx : x ≠ 0 := fun hx => h0 (hx ▸ List.mem_cons_self)
  have hstr : utf8Word (text ++ ch '?' :: x :: tail) ++ [0] = utf8Word (text ++ ch '?' :: (x :: tail ++ [0])) := by
    rw [utf8Word, utf8Word, List.append_assoc, List.append_assoc]
    rfl
  obtain ⟨gap, hrun⟩ := word_text (text ++ ch '?' :: (x :: tail ++ [0]))
  obtain ⟨gap₁, htext⟩ := hread [] gap (ch '?' :: (x :: tail ++ [0]))
  have hend : qLoop ([] ++ out) gap₁ (ch '?' :: (x :: tail ++ [0])) =
      .ok (ch '?', ⟨out, gap₁ ++ [ch '?'], x :: tail ++ [0]⟩) := qLoop_mark _ _ _
  obtain ⟨n, gap₂, hlo, hhi, hskip⟩ := skip_tail out (gap₁ ++ [ch '?']) tail hx
  refine ⟨n, hlo, hhi, ?_⟩
  have hmark : ¬ ch '?' = ch '=' := by decide
  rw [htext, hend, ok_bind] at hrun
  dsimp only at hrun
  rw [if_neg hmark, ok_bind, hskip] at hrun
  have hsuffix : (x :: tail).drop n <:+ x :: tail := List.drop_suffix n (x :: tail)
  have hlen : ((x :: tail).drop n).length < (utf8Word (text ++ ch '?' :: x :: tail)).length := by
    have hle := hsuffix.length_le
    rw [utf8Word, List.length_append, List.length_append, List.length_cons]
    omega
  have hcopy := wordsLoop_copy (fun h => h0 (hsuffix.mem h)) (fun h => hword (h.trans hsuffix.isInfix)) hlen out gap₂
  have hstart : utf8Word (text ++ ch '?' :: x :: tail) ≠ [] := List.cons_ne_nil _ _
  rw [rfc2047Decode, if_neg hstart, hstr]
  exact (wordsLoop_word hrun).trans hcopy

/-! #### The text of a string -/

/-- A rest that the decoder copies. -/
structure Copied (tail : List Byte) : Prop where
  nul : 0 ∉ tail
  word : ¬ [ch '=', ch '?'] <:+: tail

theorem Copied.plain {tail : List Byte} (hnul : c ≠ 0) (hpad : c ≠ ch '=') (h : Copied tail) : Copied (c :: tail) := by
  refine ⟨?_, ?_⟩
  · rw [List.mem_cons, not_or]
    exact ⟨Ne.symm hnul, h.nul⟩
  · rw [List.infix_cons_iff, List.cons_prefix_cons, not_or]
    exact ⟨fun hc => hpad hc.1.symm, h.word⟩

theorem Copied.pad {tail : List Byte} (hmark : c ≠ ch '?') (h : Copied (c :: tail)) :
    Copied (ch '=' :: c :: tail) := by
  refine ⟨?_, ?_⟩
  · rw [List.mem_cons, not_or]
    exact ⟨by decide, h.nul⟩
  · rw [List.infix_cons_iff, List.cons_prefix_cons, List.cons_prefix_cons, not_or]
    exact ⟨fun hc => hmark hc.2.1.symm, h.word⟩

theorem copied_byte {tail : List Byte} (c : Byte) (h : Copied tail) : Copied (qpByte c ++ tail) := by
  unfold qpByte
  split
  · have hdigit : ∀ {d}, isxdigit d = true → d ≠ 0 ∧ d ≠ ch '=' ∧ d ≠ ch '?' := by
      intro d hd
      refine ⟨?_, ?_, ?_⟩
      all_goals
        rintro rfl
        exact Bool.false_ne_true hd
    obtain ⟨hhi, hlo⟩ := Bool.and_eq_true_iff.mp (hex_digits c)
    exact .pad (hdigit hhi).2.2 (.plain (hdigit hhi).1 (hdigit hhi).2.1 (.plain (hdigit hlo).1 (hdigit hlo).2.1 h))
  · rename_i hescaped
    have hplain := plain_of_not_escaped hescaped
    exact .plain hplain.1 hplain.2 h

theorem copied_soft {tail : List Byte} (h : Copied tail) : Copied (soft ++ tail) :=
  .pad (by decide) (.plain (by decide) (by decide) (.plain (by decide) (by decide) h))

theorem copied_qpText {tail : List Byte} (h : Copied tail) (linelen : Nat) (s : List Byte) :
    Copied (qpText linelen s ++ tail) := by
  induction s generalizing linelen with
  | nil => exact h
  | cons c s ih =>
      rw [qpText_cons]
      split
      · rw [List.append_assoc]
        exact copied_byte c (ih _)
      · rw [List.append_assoc, List.append_assoc]
        exact copied_soft (copied_byte c (ih _))

/-- The text up to the first `?` of a string. -/
theorem qpText_split (r : List Byte) (hmark : ch '?' ∉ p) (linelen : Nat) : ∃ text out n breaks,
    qpText linelen (p ++ ch '?' :: r) = text ++ ch '?' :: qpText n r ∧ ReadAs text out ∧
      out.length = p.length + 2 * breaks ∧ (breaks = 0 → out = p) := by
  induction p generalizing linelen with
  | nil =>
      rw [List.nil_append, qpText_cons]
      split
      · exact ⟨[], [], _, 0, rfl, .nil, rfl, fun _ => rfl⟩
      · exact ⟨soft, crlf, _, 1, rfl, readAs_soft, rfl, fun h => absurd h Nat.one_ne_zero⟩
  | cons c p ih =>
      obtain ⟨hc, hp⟩ := not_or.mp (mt List.mem_cons.mpr hmark)
      have hbyte := readAs_byte (Ne.symm hc)
      rw [List.cons_append, qpText_cons]
      split
      · obtain ⟨text, out, n, breaks, htext, hread, hlen, hzero⟩ := ih hp (linelen + width c)
        refine ⟨qpByte c ++ text, [c] ++ out, n, breaks, ?_, hbyte.append hread, ?_, fun h => ?_⟩
        · rw [htext, List.append_assoc]
        · rw [List.length_append, hlen, List.length_singleton, List.length_cons]
          omega
        · rw [hzero h]
          rfl
      · obtain ⟨text, out, n, breaks, htext, hread, hlen, -⟩ := ih hp (width c)
        refine ⟨soft ++ (qpByte c ++ text), crlf ++ ([c] ++ out), n, breaks + 1, ?_,
          readAs_soft.append (hbyte.append hread), ?_, fun h => absurd h (Nat.succ_ne_zero breaks)⟩
        · rw [htext, List.append_assoc, List.append_assoc]
        · have hcrlf : crlf.length = 2 := rfl
          rw [List.length_append, List.length_append, hlen, List.length_singleton, List.length_cons, hcrlf]
          omega

/-- The widths of a string are its length and two more for each escape. -/
theorem width_sum (s : List Byte) : ∃ escapes, (s.map width).sum = s.length + 2 * escapes ∧
    (escapes = 0 ↔ ∀ c ∈ s, escaped c = false) := by
  induction s with
  | nil => exact ⟨0, rfl, by simp⟩
  | cons c s ih =>
      obtain ⟨n, hn, hescapes⟩ := ih
      by_cases hc : escaped c = true
      · refine ⟨n + 1, ?_, ?_⟩
        · rw [List.map_cons, List.sum_cons, hn, width, if_pos hc, List.length_cons]
          omega
        · simp [hc]
      · rw [Bool.not_eq_true] at hc
        refine ⟨n, ?_, ?_⟩
        · rw [List.map_cons, List.sum_cons, hn, width, hc, if_neg Bool.false_ne_true, List.length_cons]
          omega
        · simp [hc, hescapes]

/-- The length of a text: two more for each escape, and three for each soft break. -/
theorem qpText_growth (linelen : Nat) (s : List Byte) : ∃ escapes breaks,
    (qpText linelen s).length = s.length + 2 * escapes + 3 * breaks ∧
      (escapes = 0 ↔ ∀ c ∈ s, escaped c = false) ∧
        breaks = (Filling.fill width maxlinelen linelen s).length - 1 := by
  obtain ⟨escapes, hsum, hescapes⟩ := width_sum s
  refine ⟨escapes, _, ?_, hescapes, rfl⟩
  rw [qpText, Filling.joined_length (Filling.fill_ne_nil _ _ _ _), Filling.fill_flatten, Filling.width, ← hsum]
  simp only [qpByte_length]
  rfl

/-- Without a `?` a text is read with a CRLF for each soft break. -/
theorem decode_unmarked (hmark : ch '?' ∉ s) : ∃ out,
    rfc2047Decode (utf8Word (qpText 0 s ++ bytes "?=")) = .ok out ∧
      out.length = s.length + 2 * ((Filling.fill width maxlinelen 0 s).length - 1) ∧
        ((Filling.fill width maxlinelen 0 s).length = 1 → out = s) := by
  have hflat := Filling.fill_flatten width maxlinelen 0 s
  have hmark : ch '?' ∉ (Filling.fill width maxlinelen 0 s).flatten := by rwa [hflat]
  have hread := readAs_joined hmark
  obtain ⟨n, hlo, -, hrun⟩ := rfc2047Decode_word hread (List.cons_ne_nil (ch '=') []) (by decide) (by decide)
  rw [List.drop_eq_nil_of_le hlo, List.append_nil] at hrun
  refine ⟨_, hrun, ?_, fun hsingle => ?_⟩
  · rw [Filling.joined_length (Filling.fill_ne_nil _ _ _ _), hflat]
    simp [Filling.width, crlf]
  · obtain ⟨line, hline⟩ := List.length_eq_one_iff.mp hsingle
    rw [hline, List.flatten_singleton] at hflat
    rw [hline, Filling.joined_single, List.flatMap_singleton', hflat]

/-- With a `?` it is not read back. -/
theorem decode_marked (hmark : ch '?' ∈ s) : rfc2047Decode (utf8Word (qpText 0 s ++ bytes "?=")) ≠ .ok s := by
  obtain ⟨p, r, rfl, hp⟩ := List.eq_append_cons_of_mem hmark
  obtain ⟨text, out, n, breaks₁, htext, hread, hout, hzero⟩ := qpText_split r hp 0
  obtain ⟨escapes, breaks₂, hlen, hescapes, -⟩ := qpText_growth n r
  have htail : Copied (qpText n r ++ bytes "?=") := copied_qpText ⟨by decide, by decide⟩ n r
  have hne : qpText n r ++ bytes "?=" ≠ [] := List.append_ne_nil_of_right_ne_nil _ (by decide)
  obtain ⟨k, hlo, hhi, hrun⟩ := rfc2047Decode_word hread hne htail.nul htail.word
  rw [htext, List.append_assoc, List.cons_append, hrun]
  intro heq
  have heq' := Except.ok.inj heq
  have hmarks : (bytes "?=").length = 2 := rfl
  -- the lengths are the same only if nothing was escaped or broken, and one byte was skipped
  have hlengths := congrArg List.length heq'
  simp only [List.length_append, List.length_drop, List.length_cons, hout, hlen, hmarks] at hlengths
  obtain ⟨rfl, rfl, rfl⟩ : breaks₁ = 0 ∧ escapes = 0 ∧ k = 1 := by omega
  rw [hzero rfl] at heq'
  have hrest := List.append_cancel_left heq'
  have hpad : ch '=' ∈ (qpText n r ++ bytes "?=").drop 1 := by
    cases qpText n r with
    | nil => decide
    | cons c text => exact List.mem_append_right text (by decide)
  rw [hrest] at hpad
  rcases List.mem_cons.mp hpad with hpad | hpad
  · exact absurd hpad (by decide)
  · exact absurd (hescapes.mp rfl (ch '=') hpad) (by decide)

/-- What is encoded: the string itself where its text is not longer, and else a word. -/
theorem rfc2047Encode_eq (s : List Byte) : rfc2047Encode s =
    if (qpText 0 s).length = s.length ∧ s.length < 2 ^ 31 then some s
    else if (qpText 0 s).length + 1 < 2 ^ 31 then some (utf8Word (qpText 0 s ++ bytes "?=")) else none := by
  unfold rfc2047Encode
  by_cases hs : s = []
  · subst hs
    rfl
  · rw [if_neg hs, sizeLoop_start]
    by_cases hsame : (qpText 0 s).length = s.length ∧ s.length < 2 ^ 31
    · rw [if_pos hsame, Memory.int_eq_some.mpr ⟨hsame.1 ▸ hsame.2, rfl⟩]
      exact if_pos hsame.1
    · rw [if_neg hsame]
      by_cases hfits : (qpText 0 s).length + 1 < 2 ^ 31
      · obtain ⟨block, t, hblock, hrun, -, htake⟩ := writeLoop_block hfits
        have hne : ¬ (qpText 0 s).length = s.length := fun h => hsame ⟨h, by omega⟩
        rw [if_pos hfits, Memory.int_eq_some.mpr ⟨by omega, rfl⟩]
        simp only [Option.bind_eq_bind, Option.bind_some, if_neg hne, hblock, hrun, htake]
        rw [utf8Word, ← List.append_assoc]
        rfl
      · rw [if_neg hfits]
        unfold Memory.int
        split
        · have hne : ¬ (qpText 0 s).length = s.length := fun h => hsame ⟨h, by omega⟩
          simp only [Option.bind_eq_bind, Option.bind_some, if_neg hne, outBlock, Memory.int, if_neg hfits]
          rfl
        · rfl

/-- A string without escapes is read as it is. -/
theorem decode_plain (hplain : ∀ c ∈ s, escaped c = false) : rfc2047Decode s = .ok s := by
  have hpad : ch '=' ∉ s := fun h => absurd (hplain _ h) (by decide)
  have hnul : 0 ∉ s := fun h => absurd (hplain _ h) (by decide)
  have hword : ¬ [ch '=', ch '?'] <:+: s := fun h => hpad (h.subset List.mem_cons_self)
  unfold rfc2047Decode
  split
  · rename_i hs
    rw [hs]
  · exact wordsLoop_copy hnul hword (Nat.lt_succ_self _) [] []

/-- The round trip holds for short strings in which no `?` stands beside an escape. -/
theorem rfc2047_iff (s : List Byte) : EncodesWord s ↔ WordFits s := by
  obtain ⟨escapes, breaks, hlen, hescapes, hbreaks⟩ := qpText_growth 0 s
  have hroom : 0 < maxlinelen := by decide
  have hsingle := @Filling.fill_single _ width maxlinelen 0 s hroom
  have hpos := List.length_pos_iff.mpr (Filling.fill_ne_nil width maxlinelen 0 s)
  rw [Nat.zero_add] at hsingle
  constructor
  · rintro ⟨text, htext, hdecode⟩
    rw [rfc2047Encode_eq] at htext
    split at htext
    · rename_i hsame
      exact ⟨hsingle.mp (by omega), .inr (hescapes.mp (by omega))⟩
    · split at htext
      · obtain rfl := Option.some.inj htext
        by_cases hmark : ch '?' ∈ s
        · exact absurd hdecode (decode_marked hmark)
        · obtain ⟨out, hrun, hout, -⟩ := decode_unmarked hmark
          obtain rfl := Except.ok.inj (hrun.symm.trans hdecode)
          exact ⟨hsingle.mp (by omega), .inl hmark⟩
      · cases htext
  · rintro ⟨hshort, hplain⟩
    have hone := hsingle.mpr hshort
    obtain ⟨sum, hsum, hsumescapes⟩ := width_sum s
    have hmax : maxlinelen = 76 := rfl
    have hzero : escapes = 0 → EncodesWord s := by
      intro h
      refine ⟨s, ?_, decode_plain (hescapes.mp h)⟩
      rw [rfc2047Encode_eq, if_pos ⟨by omega, by omega⟩]
    by_cases h : escapes = 0
    · exact hzero h
    · have hmark : ch '?' ∉ s := hplain.resolve_right fun hall => h (hescapes.mpr hall)
      obtain ⟨out, hrun, -, hsame⟩ := decode_unmarked hmark
      have hlength := qpText_length s
      rw [hone] at hlength
      refine ⟨_, ?_, hsame hone ▸ hrun⟩
      rw [rfc2047Encode_eq, if_neg (by omega), if_pos (by omega)]

/-- A question and an accent. -/
theorem not_encodesWord_question : ¬ EncodesWord [ch '?', 0xE9] := by
  rintro ⟨text, htext, hdecode⟩
  rw [rfc2047Encode_eq, if_neg (by decide +kernel), if_pos (by decide +kernel)] at htext
  obtain rfl := Option.some.inj htext
  exact decode_marked List.mem_cons_self hdecode

end

end NullG.Libs.Mime
