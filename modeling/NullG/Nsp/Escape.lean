/-
The text of a string literal (`n_escape` of `libn.c`, `n_unescape` and `n_skipquote` of `compile.c`).

`n_escape` writes a string for `n_dumpvars`, with a backslash in front of the bytes that a literal does not hold as they
are. A NUL it writes as a backslash and the NUL itself, where `n_unescape` knows a backslash and a `0`.
-/

import NullG.Nsp.LexerBounds
import NullG.Nsp.Operators

namespace NullG.Nsp.Escape

open NullG.Lib

/-! ### The function -/

/-- What `n_escape` writes behind a backslash. -/
def escape (c : Byte) : Option Byte :=
  if c = 0 then some 0
  else if c = 7 then some (ch 'a')
  else if c = ch '\t' then some (ch 't')
  else if c = 12 then some (ch 'f')
  else if c = 27 then some (ch 'e')
  else if c = ch '\r' then some (ch 'r')
  else if c = ch '\n' then some (ch 'n')
  else if c = ch '\'' then some (ch '\'')
  else if c = ch '"' then some (ch '"')
  else if c = ch '\\' then some (ch '\\')
  else none

/-- What `n_escape` writes for a byte. -/
def escapeByte (c : Byte) : List Byte :=
  match escape c with
  | some d => [ch '\\', d]
  | none => [c]

/-- The loop of `n_escape`, with the bytes in its buffer: these are appended to `N->r` where less than 32 are free. -/
def escapeLoop : List Byte → List Byte → H (List Byte)
  | buf, [] => return buf
  | buf, c :: str => do
      if 512 - buf.length < 32 then
        nspStrcat retObj buf
        escapeLoop (escapeByte c) str
      else escapeLoop (buf ++ escapeByte c) str

/-- `n_escape`. -/
def nEscape (str : List Byte) : H Unit := do
  let buf ← escapeLoop [] str
  nspStrcat retObj buf

/-! ### What the function is for -/

/-- `n_escape` appends the bytes to the string in `N->r`. -/
def Emits (str out : List Byte) : Prop :=
  ∀ s v a, Has s retObj v (.string a) → ∃ t, (nEscape str).run s = .ok () t ∧ Has t retObj v (.string (a ++ out))

/-- A text in which every quote and every backslash is behind a backslash that is not behind one. -/
inductive Escaped : List Byte → Prop where
  | nil : Escaped []
  | escape {d : Byte} {p : List Byte} : Escaped p → Escaped (ch '\\' :: d :: p)
  | plain {c : Byte} {p : List Byte} : c ≠ ch '"' → c ≠ ch '\\' → Escaped p → Escaped (c :: p)

/-- The literal of a string is read back. -/
structure ReadsBack (str out : List Byte) : Prop where
  emits : Emits str out
  unescape : ∀ N x s, nUnescape N (out ++ x) out.length false s = .ok (str, s)
  escaped : Escaped out
  nulFree : 0 ∉ out
  skipquote : ∀ N (s : Lex) r fuel, s.rest = out ++ ch '"' :: r → s.rest.length < fuel →
    ∃ n, nSkipquote N (ch '"') false fuel s = .ok { s with rest := r, lineno := n }

/-! ### What is written -/

section

variable {str buf p : List Byte} {c : Byte} {s : Store} {v : ValId} {a : List Byte}

theorem escapeByte_length (c : Byte) : (escapeByte c).length ≤ 2 := by
  unfold escapeByte
  split
  · exact Nat.le_refl 2
  · exact Nat.le_succ 1

/-- The escapes are those that `n_unescape` knows, but for the one of NUL. -/
theorem unescape_escape {d : Byte} (hc : c ≠ 0) (h : escape c = some d) : d ≠ 0 ∧ unescape d = some c := by
  unfold escape at h
  rw [if_neg hc] at h
  repeat' split at h
  all_goals
    cases h
    try
      subst c
      exact ⟨by decide, by decide⟩

/-- A byte is written as it is, or behind a backslash as a byte that `n_unescape` knows; but for NUL. -/
theorem escapeByte_cases (hc : c ≠ 0) :
    (escapeByte c = [c] ∧ c ≠ ch '"' ∧ c ≠ ch '\\') ∨
    ∃ d, escapeByte c = [ch '\\', d] ∧ d ≠ 0 ∧ unescape d = some c := by
  unfold escapeByte
  cases hd : escape c with
  | some d => exact .inr ⟨d, rfl, unescape_escape hc hd⟩
  | none =>
      refine .inl ⟨rfl, ?_, ?_⟩
      · rintro rfl
        exact absurd hd (by decide)
      · rintro rfl
        exact absurd hd (by decide)

/-- The buffer of 512 bytes is never full, and what was in it and the bytes of the string are appended in order. -/
theorem escapeLoop_run (str : List Byte) (h : Has s retObj v (.string a)) (hbuf : buf.length ≤ 482) : ∃ b buf' t,
    (escapeLoop buf str).run s = .ok buf' t ∧ buf'.length ≤ 482 ∧ b ++ buf' = buf ++ str.flatMap escapeByte ∧
    Has t retObj v (.string (a ++ b)) := by
  induction str generalizing buf s a with
  | nil => exact ⟨[], buf, s, rfl, hbuf, by simp, by rwa [List.append_nil]⟩
  | cons c str ih =>
      have hbyte := escapeByte_length c
      unfold escapeLoop
      split_ifs with hfull
      · obtain ⟨t, hcat, hhas, -⟩ := h.strcat buf
        have hshort : (escapeByte c).length ≤ 482 := by omega
        obtain ⟨b, buf', u, hrun, hlen, hout, hhas'⟩ := ih hhas hshort
        rw [Action.run_bind_ok hcat]
        refine ⟨buf ++ b, buf', u, hrun, hlen, ?_, by rwa [← List.append_assoc]⟩
        rw [List.flatMap_cons, List.append_assoc, hout]
      · have hshort : (buf ++ escapeByte c).length ≤ 482 := by
          rw [List.length_append]
          omega
        obtain ⟨b, buf', u, hrun, hlen, hout, hhas'⟩ := ih h hshort
        refine ⟨b, buf', u, hrun, hlen, ?_, hhas'⟩
        rw [hout, List.flatMap_cons, List.append_assoc]

theorem emits_escapeBytes (str : List Byte) : Emits str (str.flatMap escapeByte) := by
  intro s v a h
  have hempty : ([] : List Byte).length ≤ 482 := by decide
  obtain ⟨b, buf, t, hrun, -, hout, hhas⟩ := escapeLoop_run str h hempty
  obtain ⟨u, hcat, hhas', -⟩ := hhas.strcat buf
  unfold nEscape
  rw [Action.run_bind_ok hrun, hcat]
  refine ⟨u, rfl, ?_⟩
  rwa [List.append_assoc, hout, List.nil_append] at hhas'

/-! ### What is read -/

theorem nUnescape_escapeBytes (hstr : 0 ∉ str) (N : Scanner) (x : List Byte) (s : Lex) :
    nUnescape N (str.flatMap escapeByte ++ x) (str.flatMap escapeByte).length false s = .ok (str, s) := by
  induction str with
  | nil => cases x <;> rfl
  | cons c str ih =>
      rw [List.mem_cons, not_or] at hstr
      rw [List.flatMap_cons]
      rcases escapeByte_cases (Ne.symm hstr.1) with ⟨hc, -, hback⟩ | ⟨d, hc, -, hd⟩
      · rw [hc, List.cons_append, List.cons_append, List.length_cons, List.nil_append, nUnescape, if_neg hback,
          ih hstr.2]
        rfl
      · rw [hc]
        simp only [List.cons_append, List.nil_append, List.length_cons]
        rw [nUnescape, if_pos rfl, nUnescape, hd]
        dsimp only
        rw [ih hstr.2]
        rfl

theorem escaped_escapeBytes (hstr : 0 ∉ str) : Escaped (str.flatMap escapeByte) ∧ 0 ∉ str.flatMap escapeByte ∧
    ∀ r, Closes (ch '"') false (str.flatMap escapeByte ++ ch '"' :: r) r := by
  induction str with
  | nil => exact ⟨.nil, List.not_mem_nil, fun r => .quote⟩
  | cons c str ih =>
      rw [List.mem_cons, not_or] at hstr
      obtain ⟨hescaped, hzero, hcloses⟩ := ih hstr.2
      have hback : ch '\\' ≠ 0 := by decide
      rw [List.flatMap_cons]
      rcases escapeByte_cases (Ne.symm hstr.1) with ⟨hc, hquote, hne⟩ | ⟨d, hc, hd, -⟩
      · rw [hc]
        have hplain : PlainIn (ch '"') false c := ⟨Ne.symm hstr.1, hquote, fun h => absurd h hne⟩
        refine ⟨.plain hquote hne hescaped, ?_, fun r => .plain hplain (hcloses r)⟩
        rw [List.cons_append, List.nil_append, List.mem_cons, not_or]
        exact ⟨hstr.1, hzero⟩
      · rw [hc]
        refine ⟨.escape hescaped, ?_, fun r => .escape rfl hd (hcloses r)⟩
        rw [List.cons_append, List.cons_append, List.nil_append, List.mem_cons, List.mem_cons, not_or, not_or]
        exact ⟨hback.symm, Ne.symm hd, hzero⟩

/-! ### The round trip -/

/-- A memory with an empty string in `N->r`. -/
def emptyResult : Store where
  objs := ((Cells.empty.alloc { val := some 0 }).alloc { val := some 1 }).alloc { val := some 2 }
  vals := ((Cells.empty.alloc { type := .null }).alloc { type := .table }).alloc { type := .string }
  locals := globalObj

theorem emptyResult_has : Has emptyResult retObj 2 (.string []) :=
  ⟨⟨_, rfl, rfl, rfl, rfl, none, rfl, rfl⟩, by decide⟩

theorem has_string_inj {b : List Byte} {o : ObjId} (h : Has s o v (.string a)) (h' : Has s o v (.string b)) :
    a = b := by
  obtain ⟨⟨y, hlook, -, -, -, str, hstr, rfl⟩, -⟩ := h
  obtain ⟨⟨z, hlook', -, -, -, str', hstr', rfl⟩, -⟩ := h'
  cases hlook.symm.trans hlook'
  cases hstr.symm.trans hstr'
  rfl

/-- `n_escape` emits one text. -/
theorem Emits.eq {out : List Byte} (h : Emits str out) : out = str.flatMap escapeByte := by
  obtain ⟨t, hrun, hhas⟩ := h emptyResult 2 [] emptyResult_has
  obtain ⟨u, hrun', hhas'⟩ := emits_escapeBytes str emptyResult 2 [] emptyResult_has
  cases hrun.symm.trans hrun'
  exact has_string_inj hhas hhas'

/-- A string is read back exactly where it has no NUL. -/
theorem readsBack_iff (str : List Byte) : (∃ out, ReadsBack str out) ↔ 0 ∉ str := by
  constructor
  · rintro ⟨out, h⟩ hzero
    have hout : 0 ∈ out := by
      rw [h.emits.eq]
      exact List.mem_flatMap.mpr ⟨0, hzero, by decide⟩
    exact h.nulFree hout
  · intro hstr
    obtain ⟨hescaped, hzero, hcloses⟩ := escaped_escapeBytes hstr
    refine ⟨str.flatMap escapeByte, emits_escapeBytes str, nUnescape_escapeBytes hstr, hescaped, hzero, ?_⟩
    intro N s r fuel hs hfuel
    exact nSkipquote_closes (hcloses r) (by decide) (by decide) hs (hs ▸ hfuel)

/-- The literal of a NUL is a backslash and the NUL. -/
theorem not_readsBack_nul : ¬ ∀ str, ∃ out, ReadsBack str out := by
  intro h
  obtain ⟨out, hout⟩ := h [0]
  have heq : out = [ch '\\', 0] := hout.emits.eq
  exact hout.nulFree (heq ▸ by decide)

end

end NullG.Nsp.Escape
