/-
The reads of the parser of multipart bodies (`read_vardata` of `httpd_http.c`).

The memory is a block: the body, and 64 zeros that `read_postdata` has `calloc` put behind it. A zero stops every loop
of the parser, so that it reads up to the first zero behind the body (`stored_run`). But the loop over the bytes of a
part runs over that zero where no boundary is left, and the end of a part is set back over characters that stand
before it. The extents of all parts are right exactly where each part has its boundary and its end not before its
beginning (`extents_iff`).
-/

import NullG.Httpd.Vardata
import NullG.Lib.Memory

namespace NullG.Httpd.Multipart

open NullG.Lib NullG.Nsp NullG.Mail
open NullG.Httpd.Vardata (Part charAt inValue inLine isspace)

/-- A part that is stored, and where its content begins. -/
structure Copy where
  start : Nat
  part : Part

/-! ### The parser on a block of memory -/

section Parser

variable (mem : List Byte)

/-- `strncmp(pat, p2, strlen(pat)) == 0`. -/
def strncmp (pat : List Byte) (p2 : Nat) : Option Bool := Memory.agrees mem (· == ·) pat p2

/-- `strncasecmp(p2, pat, strlen(pat)) == 0`. -/
def strncasecmp (pat : List Byte) (p2 : Nat) : Option Bool := Memory.agrees mem (lower · == lower ·) pat p2

/-- `while (...) p2++`. -/
def skipWhile (test : Byte → Bool) (p2 : Nat) : Option Nat := Memory.skip mem test mem.length p2

/-- `if (*p2 == c) p2++`. -/
def skipIf (c : Byte) (p2 : Nat) : Option Nat := do
  let d ← mem[p2]?
  return if d = c then p2 + 1 else p2

/-- `if (p2[i - 1] == c) i--`, where `e` is `p2 + i`. -/
def stepBack (c : Byte) : Nat → Option Nat
  | 0 => none
  | e + 1 => do
      let d ← mem[e]?
      return if d = c then e else e + 1

/-- The rest of a line and its end are skipped. -/
def skipLine (p2 : Nat) : Option Nat := do
  let p2 ← skipWhile mem inLine p2
  let p2 ← skipIf mem (ch '\r') p2
  skipIf mem (ch '\n') p2

/-- The header lines of a part are skipped, with as many rounds as are left. -/
def skipLines : Nat → Nat → Option Nat
  | 0, _ => none
  | n + 1, p2 => do
      let c ← mem[p2]?
      if inLine c then
        let p2 ← skipLine mem p2
        skipLines n p2
      else return p2

/-- The loop over the name of a part, with as many characters as `tmpbuf` still takes. -/
def readName : Nat → Nat → Option (List Byte × Nat)
  | 0, p2 => some ([], p2)
  | n + 1, p2 => do
      let c ← mem[p2]?
      if !inValue c then return ([], p2)
      else
        let (name, p2) ← readName n (p2 + 1)
        return (toupper c :: name, p2)

/-- The loop over a file name, of which `filename` is kept so far. -/
def readFilename : Nat → List Byte → Nat → Option (List Byte × Nat)
  | 0, _, _ => none
  | n + 1, filename, p2 => do
      if filename.length = 255 then return (filename, p2)
      else
        let c ← mem[p2]?
        if !inValue c then return (filename, p2)
        else if c = ch '\\' ∨ c = ch '/' then readFilename n [] (p2 + 1)
        else readFilename n (filename ++ [c]) (p2 + 1)

/-- The name of a part, and where it ends. -/
def readPartName (p2 : Nat) : Option (List Byte × Nat) := do
  let p2 ← skipIf mem (ch '"') p2
  let (name, p2) ← readName mem maxObjnamelen p2
  let p2 ← skipIf mem (ch '"') p2
  return (name.take (maxObjnamelen - 1), p2)

/-- The file name behind the name of a part; there is none where something else follows a `;`. -/
def fileField (p2 : Nat) : Option (Option (List Byte) × Nat) := do
  let c ← mem[p2]?
  if c ≠ ch ';' then return (some [], p2)
  else
    let p2 ← skipWhile mem isspace (p2 + 1)
    if !(← strncasecmp mem (bytes "filename=") p2) then return (none, p2)
    else
      let p2 ← skipIf mem (ch '"') (p2 + 9)
      let (filename, p2) ← readFilename mem mem.length [] p2
      return (some (filename.take 254), p2)

variable (boundary : List Byte) (clen : Int)

/-- The loop over the bytes of a part, with as many rounds as are left: where the boundary is, or the end. -/
def findBoundary : Nat → Nat → Option Nat
  | 0, _ => none
  | n + 1, e => do
      if clen < e then return e
      else if ← strncmp mem boundary e then return e
      else findBoundary n (e + 1)

/-- The end of a part is set back over two `-` and the end of a line. -/
def setBack (e : Nat) : Option Nat := do
  let e ← stepBack mem (ch '-') e
  let e ← stepBack mem (ch '-') e
  let e ← stepBack mem (ch '\n') e
  stepBack mem (ch '\r') e

/-- Where the content of a part begins, behind the line of its name. -/
def skipHeader (p2 : Nat) : Option Nat := do
  let p2 ← skipLine mem p2
  let p2 ← skipLines mem mem.length p2
  let p2 ← skipIf mem (ch '\r') p2
  skipIf mem (ch '\n') p2

/-- `memcpy(cobj->val->d.str, p2, i)`. For a length of -1, `malloc(0)` returns a block and all of the memory is to be
copied; for one below, there is no block and nothing is. -/
def copyText (p2 e : Nat) : Option (List Byte) :=
  if e + 1 = p2 then none else (List.range (e - p2)).mapM fun i => mem[p2 + i]?

/-- The content of a part is stored. -/
def readContent (name filename : List Byte) (p2 : Nat) : Option (Copy × Nat) := do
  let p2 ← skipHeader mem p2
  let e ← findBoundary mem boundary clen (clen.toNat + 2) p2
  let e ← setBack mem e
  let text ← copyText mem p2 e
  return (⟨p2, name, filename, (e : Int) - p2, text⟩, e)

/-- The header of a part up to its names, and where it goes on; without one, where the next round begins. -/
def readHeader (p2 : Nat) : Option (Except Nat (List Byte × List Byte × Nat)) := do
  if !(← strncmp mem (bytes "--") p2) then return .error (p2 + 1)
  else
    let p2 := p2 + 2
    if !(← strncmp mem boundary p2) then return .error (p2 + 1)
    else
      let p2 ← skipWhile mem isEol (p2 + boundary.length)
      if !(← strncasecmp mem (bytes "Content-Disposition: form-data; ") p2) then return .error (p2 + 1)
      else
        let p2 := p2 + 32
        if !(← strncasecmp mem (bytes "name=") p2) then return .error p2
        else
          let (name, p2) ← readPartName mem (p2 + 5)
          match ← fileField mem p2 with
          | (none, p2) => return .error p2
          | (some filename, p2) => return .ok (name, filename, p2)

/-- One round of the loop over a body: a part, if there is one here, and where the next round begins. -/
def readPart (p2 : Nat) : Option (Option Copy × Nat) := do
  match ← readHeader mem boundary p2 with
  | .error p2 => return (none, p2)
  | .ok (name, filename, p2) => do
      let (c, p2) ← readContent mem boundary clen name filename p2
      return (some c, p2)

/-- The loop over a body from `p2` on, with as many rounds as are left. -/
def readParts : Nat → Nat → Option (List Copy)
  | 0, _ => none
  | n + 1, p2 => do
      if clen < p2 then return []
      else
        let (c, p2) ← readPart mem boundary clen p2
        let copies ← readParts n p2
        return c.toList ++ copies

end Parser

/-- The block of `read_postdata`. -/
def posted (body : List Byte) : List Byte := body ++ List.replicate 64 0

/-- What is stored of a body, if the loops end and read in the block only. -/
def stored (body boundary : List Byte) : Option (List Copy) :=
  readParts (posted body) boundary body.length (body.length + 2) 0

/-- A part that is as long as it should be and a slice of the body. -/
structure Slice (body : List Byte) (c : Copy) : Prop where
  length : 0 ≤ c.part.len
  inside : c.start + c.part.len.toNat ≤ body.length
  text : c.part.text = (body.drop c.start).take c.part.len.toNat

/-- The parser ends without a read outside of the block, and each part is a slice of the body. -/
def Extents (body boundary : List Byte) : Prop :=
  ∃ copies, stored body boundary = some copies ∧ ∀ c ∈ copies, Slice body c

/-! ### The parser reads the body and a zero behind it -/

section Reads

variable {body boundary : List Byte} {i : Nat}

theorem posted_cons (body : List Byte) : posted body = body ++ 0 :: List.replicate 63 0 := rfl

theorem posted_length (body : List Byte) : (posted body).length = body.length + 64 := by
  rw [posted, List.length_append, List.length_replicate]

theorem get_posted (h : i ≤ body.length) : (posted body)[i]? = some (charAt body i) := by
  rcases Nat.lt_or_eq_of_le h with hlt | rfl
  · rw [posted, Memory.read_of_lt hlt, Vardata.charAt_of_lt body hlt]
  · rw [posted_cons, Memory.read_end, Vardata.charAt_of_le body (Nat.le_refl _)]

theorem strncmp_run {pat : List Byte} (h0 : 0 ∉ pat) (h : i ≤ body.length) :
    strncmp (posted body) pat i = some (pat.isPrefixOf (body.drop i)) := by
  have hz : ∀ b ∈ pat, (b == (0 : Byte)) = false := by
    intro b hb
    rw [beq_eq_false_iff_ne]
    rintro rfl
    exact h0 hb
  rw [strncmp, posted_cons, Memory.agrees_run hz h, Memory.isPrefixBy_beq]

theorem isPrefixBy_lower (pat text : List Byte) :
    Memory.isPrefixBy (lower · == lower ·) pat text = sameText (text.take pat.length) pat := by
  induction pat generalizing text with
  | nil => rfl
  | cons b pat ih =>
      cases text with
      | nil => rfl
      | cons c text =>
          rw [Memory.isPrefixBy, ih, List.length_cons, List.take_succ_cons, sameText, sameText, List.map_cons,
            List.map_cons, List.cons_beq_cons, Bool.beq_comm]

theorem bytes_length (str : String) : (bytes str).length = str.length := by simp [bytes, String.length_toList]

theorem strncasecmp_run (str : String) (h0 : (bytes str).all (fun b => lower b != lower 0) = true)
    (h : i ≤ body.length) :
    strncasecmp (posted body) (bytes str) i = some (startsWith (body.drop i) str) := by
  have hz : ∀ b ∈ bytes str, (lower b == lower 0) = false := fun b hb => by
    rw [← Bool.not_eq_true', ← bne, List.all_eq_true.mp h0 b hb]
  have hrun := @Memory.agrees_run _ body (List.replicate 63 0) 0 _ (lower · == lower ·) (bytes str) hz i h
  rw [strncasecmp, posted_cons, hrun, isPrefixBy_lower, bytes_length]
  rfl

/-- A text that starts with a string is as long. -/
theorem length_of_startsWith {text : List Byte} {str : String} (h : startsWith text str = true) :
    str.length ≤ text.length := by
  rw [startsWith, ← bytes_length, ← isPrefixBy_lower] at h
  rw [← bytes_length]
  exact Memory.length_le_of_isPrefixBy h

theorem skipWhile_run (test : Byte → Bool) (h0 : test 0 = false) (h : i ≤ body.length) :
    skipWhile (posted body) test i = some (Vardata.skipWhile body test i) ∧
      Vardata.skipWhile body test i ≤ body.length := by
  constructor
  · rw [skipWhile, posted_length, posted_cons, Memory.skip_run h0 h (by omega)]
    rfl
  · have hle := (List.takeWhile_sublist test (l := body.drop i)).length_le
    rw [List.length_drop] at hle
    unfold Vardata.skipWhile
    omega

theorem skipIf_run {c : Byte} (h0 : c ≠ 0) (h : i ≤ body.length) :
    skipIf (posted body) c i = some (Vardata.skipIf body c i) ∧ Vardata.skipIf body c i ≤ body.length := by
  constructor
  · rw [skipIf, get_posted h]
    rfl
  · unfold Vardata.skipIf
    split
    · rename_i hc
      by_contra hle
      rw [Vardata.charAt_of_le body (by omega)] at hc
      exact h0 hc.symm
    · exact h

theorem stepBack_run (c : Byte) {e : Nat} (hlow : 0 < e) (h : e ≤ body.length + 1) :
    stepBack (posted body) c e = some (Vardata.stepBack body c e) ∧ Vardata.stepBack body c e ≤ body.length + 1 ∧
      e ≤ Vardata.stepBack body c e + 1 := by
  obtain ⟨e, rfl⟩ : ∃ k, e = k + 1 := ⟨e - 1, by omega⟩
  have hle := Vardata.le_stepBack body c (e + 1)
  refine ⟨?_, ?_, by omega⟩
  · rw [stepBack, get_posted (by omega)]
    rfl
  · unfold Vardata.stepBack
    split <;> omega

theorem skipLine_run (h : i ≤ body.length) :
    skipLine (posted body) i = some (Vardata.skipLine body i) ∧ Vardata.skipLine body i ≤ body.length := by
  obtain ⟨hrun₁, h₁⟩ := skipWhile_run inLine rfl h
  obtain ⟨hrun₂, h₂⟩ := skipIf_run (c := ch '\r') (by decide) h₁
  obtain ⟨hrun₃, h₃⟩ := skipIf_run (c := ch '\n') (by decide) h₂
  refine ⟨?_, h₃⟩
  simp only [skipLine, hrun₁, hrun₂, Option.bind_eq_bind, Option.bind_some]
  exact hrun₃

theorem skipLines_run {n : Nat} (h : i ≤ body.length) (hn : body.length < n + i) :
    skipLines (posted body) n i = some (Vardata.skipLines body n i) ∧ Vardata.skipLines body n i ≤ body.length := by
  induction n generalizing i with
  | zero => omega
  | succ n ih =>
      rw [skipLines, Vardata.skipLines, get_posted h, Option.bind_eq_bind, Option.bind_some]
      by_cases hline : inLine (charAt body i) = true
      · obtain ⟨hrun₁, h₁⟩ := skipLine_run h
        have hlt := Vardata.lt_skipLine body hline
        rw [if_pos hline, if_pos hline, hrun₁]
        exact ih h₁ (by omega)
      · rw [if_neg hline, if_neg hline]
        exact ⟨rfl, h⟩

/-- More rounds than are needed change nothing. -/
theorem skipLines_enough {m n : Nat} (hm : body.length ≤ m + i) (hn : m ≤ n) :
    Vardata.skipLines body n i = Vardata.skipLines body m i := by
  induction n, hn using Nat.le_induction with
  | base => rfl
  | succ n hmn ih => rw [Vardata.skipLines_succ body n i (by omega), ih]

theorem readName_run {n : Nat} (h : i ≤ body.length) :
    readName (posted body) n i = some ((((body.drop i).take n).takeWhile inValue).map toupper,
      i + (((body.drop i).take n).takeWhile inValue).length) := by
  induction n generalizing i with
  | zero => simp [readName]
  | succ n ih =>
      rw [readName, get_posted h, Option.bind_eq_bind, Option.bind_some]
      rcases Nat.lt_or_eq_of_le h with hlt | rfl
      · rw [Vardata.charAt_of_lt body hlt, List.drop_eq_getElem_cons hlt, List.take_succ_cons]
        by_cases hc : inValue body[i] = true
        · rw [List.takeWhile_cons_of_pos hc, if_neg (by simp [hc]), ih (i := i + 1) hlt]
          rw [Option.bind_eq_bind, Option.bind_some, Nat.add_right_comm]
          rfl
        · rw [List.takeWhile_cons_of_neg hc, if_pos (by simp [hc])]
          rfl
      · rw [Vardata.charAt_of_le body (Nat.le_refl _), List.drop_length]
        rfl

theorem readFilename_run {n : Nat} (filename : List Byte) (h : i ≤ body.length) (hn : body.length < n + i) :
    readFilename (posted body) n filename i = some ((Vardata.readFilename filename (body.drop i)).1,
      i + (Vardata.readFilename filename (body.drop i)).2) ∧
      i + (Vardata.readFilename filename (body.drop i)).2 ≤ body.length := by
  induction n generalizing i filename with
  | zero => omega
  | succ n ih =>
      rw [readFilename]
      rcases Nat.lt_or_eq_of_le h with hlt | rfl
      · rw [List.drop_eq_getElem_cons hlt, Vardata.readFilename, get_posted h, Vardata.charAt_of_lt body hlt,
          Option.bind_eq_bind, Option.bind_some]
        split
        · exact ⟨rfl, h⟩
        · split
          · exact ⟨rfl, h⟩
          · split
            · obtain ⟨hrun, hle⟩ := ih (i := i + 1) [] hlt (by omega)
              exact ⟨by rw [hrun, Nat.add_right_comm]; rfl, by omega⟩
            · obtain ⟨hrun, hle⟩ := ih (i := i + 1) (filename ++ [body[i]]) hlt (by omega)
              exact ⟨by rw [hrun, Nat.add_right_comm]; rfl, by omega⟩
      · rw [List.drop_length, Vardata.readFilename, get_posted h, Vardata.charAt_of_le body h]
        split
        · exact ⟨rfl, h⟩
        · exact ⟨rfl, h⟩

theorem readPartName_run (h : i ≤ body.length) :
    readPartName (posted body) i = some (Vardata.readPartName body i) ∧
      (Vardata.readPartName body i).2 ≤ body.length := by
  obtain ⟨hrun₁, h₁⟩ := skipIf_run (c := ch '"') (by decide) h
  have hchars : Vardata.skipIf body (ch '"') i +
      (((body.drop (Vardata.skipIf body (ch '"') i)).take maxObjnamelen).takeWhile inValue).length ≤ body.length := by
    have hle := (List.takeWhile_sublist inValue
      (l := (body.drop (Vardata.skipIf body (ch '"') i)).take maxObjnamelen)).length_le
    rw [List.length_take, List.length_drop] at hle
    omega
  obtain ⟨hrun₂, h₂⟩ := skipIf_run (c := ch '"') (by decide) hchars
  refine ⟨?_, h₂⟩
  simp only [readPartName, hrun₁, readName_run h₁, hrun₂, Option.bind_eq_bind, Option.bind_some]
  rfl

theorem fileField_run (h : i ≤ body.length) :
    fileField (posted body) i = some (Vardata.fileField body i) ∧ (Vardata.fileField body i).2 ≤ body.length := by
  rw [fileField, Vardata.fileField, get_posted h, Option.bind_eq_bind, Option.bind_some]
  by_cases hc : charAt body i = ch ';'
  · have hlt : i < body.length := by
      by_contra hle
      rw [Vardata.charAt_of_le body (by omega)] at hc
      cases hc
    obtain ⟨hrun₁, h₁⟩ := skipWhile_run isspace (i := i + 1) rfl hlt
    have hcase := strncasecmp_run "filename=" (by decide) h₁
    simp only [hc, ne_eq, not_true, if_false, hrun₁, hcase, Option.bind_eq_bind, Option.bind_some]
    by_cases hfile : startsWith (body.drop (Vardata.skipWhile body isspace (i + 1))) "filename=" = true
    · have hlen := length_of_startsWith hfile
      have hnine : "filename=".length = 9 := rfl
      rw [List.length_drop, hnine] at hlen
      have hbehind : Vardata.skipWhile body isspace (i + 1) + 9 ≤ body.length := by omega
      obtain ⟨hrun₂, h₂⟩ := skipIf_run (c := ch '"') (by decide) hbehind
      obtain ⟨hrun₃, h₃⟩ := readFilename_run (n := (posted body).length) [] h₂ (by rw [posted_length]; omega)
      simp only [hfile, Bool.not_true, Bool.false_eq_true, if_false, hrun₂, hrun₃, Option.bind_some]
      exact ⟨rfl, h₃⟩
    · simp only [Bool.not_eq_true] at hfile
      simp only [hfile, Bool.not_false, if_true]
      exact ⟨rfl, h₁⟩
  · simp only [hc, ne_eq, not_false_eq_true, if_true]
    exact ⟨rfl, h⟩

/-- The header lines of a part and the line behind them are skipped. -/
def contentStart (body : List Byte) (p2 : Nat) : Nat :=
  Vardata.skipIf body (ch '\n')
    (Vardata.skipIf body (ch '\r') (Vardata.skipLines body body.length (Vardata.skipLine body p2)))

theorem skipHeader_run (h : i ≤ body.length) :
    skipHeader (posted body) i = some (contentStart body i) ∧ contentStart body i ≤ body.length := by
  obtain ⟨hrun₁, h₁⟩ := skipLine_run h
  obtain ⟨hrun₂, h₂⟩ := skipLines_run (n := (posted body).length) h₁ (by rw [posted_length]; omega)
  rw [skipLines_enough (m := body.length) (by omega) (by rw [posted_length]; omega)] at hrun₂ h₂
  obtain ⟨hrun₃, h₃⟩ := skipIf_run (c := ch '\r') (by decide) h₂
  obtain ⟨hrun₄, h₄⟩ := skipIf_run (c := ch '\n') (by decide) h₃
  refine ⟨?_, h₄⟩
  simp only [skipHeader, hrun₁, hrun₂, hrun₃, Option.bind_eq_bind, Option.bind_some]
  exact hrun₄

theorem le_contentStart (body : List Byte) (i : Nat) : i ≤ contentStart body i := by
  have h₁ := Vardata.le_skipLine body i
  have h₂ := Vardata.le_skipLines body body.length (Vardata.skipLine body i)
  have h₃ := Vardata.le_skipIf body (ch '\r') (Vardata.skipLines body body.length (Vardata.skipLine body i))
  exact h₁.trans (h₂.trans (h₃.trans (Vardata.le_skipIf body (ch '\n') _)))

/-- The end of a part is set back over two `-` and the end of a line. -/
def endOf (body : List Byte) (e : Nat) : Nat :=
  Vardata.stepBack body (ch '\r') (Vardata.stepBack body (ch '\n')
    (Vardata.stepBack body (ch '-') (Vardata.stepBack body (ch '-') e)))

theorem setBack_run {e : Nat} (hlow : 4 ≤ e) (h : e ≤ body.length + 1) :
    setBack (posted body) e = some (endOf body e) ∧ endOf body e ≤ body.length + 1 := by
  obtain ⟨hrun₁, h₁, hle₁⟩ := stepBack_run (ch '-') (by omega) h
  obtain ⟨hrun₂, h₂, hle₂⟩ := stepBack_run (ch '-') (by omega) h₁
  obtain ⟨hrun₃, h₃, hle₃⟩ := stepBack_run (ch '\n') (by omega) h₂
  obtain ⟨hrun₄, h₄, -⟩ := stepBack_run (ch '\r') (by omega) h₃
  refine ⟨?_, h₄⟩
  simp only [setBack, hrun₁, hrun₂, hrun₃, Option.bind_eq_bind, Option.bind_some]
  exact hrun₄

theorem copyText_run {p2 e : Nat} (h : e ≤ body.length + 1) (hne : e + 1 ≠ p2) :
    copyText (posted body) p2 e = some ((List.range (e - p2)).map fun i => charAt body (p2 + i)) := by
  have hmap : ∀ l : List Nat, (∀ i ∈ l, p2 + i ≤ body.length) →
      l.mapM (fun i => (posted body)[p2 + i]?) = some (l.map fun i => charAt body (p2 + i)) := by
    intro l
    induction l with
    | nil => exact fun _ => rfl
    | cons i l ih =>
        intro hl
        rw [List.mapM_cons, get_posted (hl i List.mem_cons_self), ih fun j hj => hl j (List.mem_cons_of_mem i hj)]
        rfl
  rw [copyText, if_neg hne]
  refine hmap _ fun i hi => ?_
  have hlt := List.mem_range.mp hi
  omega

/-- A result that is there if the content of every part can be copied. -/
def Copied {α : Type} (copies : List Copy) (r : α) (x : Option α) : Prop :=
  (∀ c ∈ copies, c.part.len ≠ -1) ∧ x = some r ∨ (∃ c ∈ copies, c.part.len = -1) ∧ x = none

variable (h0 : 0 ∉ boundary)
include h0

theorem findBoundary_run {n e : Nat} (h : e ≤ body.length + 1) (hn : body.length + 1 < n + e) :
    findBoundary (posted body) boundary body.length n e = some (Vardata.findBoundary body boundary body.length n e) ∧
      Vardata.findBoundary body boundary body.length n e ≤ body.length + 1 := by
  induction n generalizing e with
  | zero => omega
  | succ n ih =>
      rw [findBoundary, Vardata.findBoundary]
      by_cases hend : (body.length : Int) < e
      · rw [if_pos hend, if_pos hend]
        exact ⟨rfl, h⟩
      · rw [if_neg hend, if_neg hend, strncmp_run h0 (by omega), Option.bind_eq_bind, Option.bind_some]
        split
        · exact ⟨rfl, h⟩
        · exact ih (by omega) (by omega)

/-- The part that begins at a place, and where it ends. -/
def contentOf (body boundary name filename : List Byte) (p2 : Nat) : Copy × Nat :=
  let r := Vardata.readContent body boundary body.length p2
  (⟨r.1, name, filename, (r.2 : Int) - r.1, (List.range (r.2 - r.1)).map fun i => charAt body (r.1 + i)⟩, r.2)

theorem readContent_run (name filename : List Byte) (hlow : 4 ≤ i) (h : i ≤ body.length) :
    Copied [(contentOf body boundary name filename i).1] (contentOf body boundary name filename i)
      (readContent (posted body) boundary body.length name filename i) := by
  obtain ⟨hrun₁, h₁⟩ := skipHeader_run h
  have hle := le_contentStart body i
  obtain ⟨hrun₂, h₂⟩ := @findBoundary_run body boundary h0 ((body.length : Int).toNat + 2)
    (contentStart body i) (by omega) (by omega)
  rw [Vardata.findBoundary_succ body boundary body.length _ _ (by omega)] at hrun₂ h₂
  have he := Vardata.le_findBoundary body boundary body.length ((body.length : Int).toNat + 1) (contentStart body i)
  obtain ⟨hrun₃, h₃⟩ := setBack_run (by omega) h₂
  have hcontent : Vardata.readContent body boundary body.length i =
      (contentStart body i, endOf body (Vardata.findBoundary body boundary body.length
        ((body.length : Int).toNat + 1) (contentStart body i))) := rfl
  simp only [readContent, hrun₁, hrun₂, hrun₃, Option.bind_eq_bind, Option.bind_some, contentOf, hcontent]
  generalize contentStart body i = q at *
  generalize endOf body _ = e at *
  by_cases hone : e + 1 = q
  · refine .inr ⟨⟨_, List.mem_singleton_self _, ?_⟩, ?_⟩
    · dsimp only
      omega
    · rw [copyText, if_pos hone]
      rfl
  · refine .inl ⟨fun p hp => ?_, ?_⟩
    · rw [List.mem_singleton.mp hp]
      dsimp only
      omega
    · rw [copyText_run h₃ hone]
      rfl

/-- The header of a part in the body. -/
def partHeader (body boundary : List Byte) (p2 : Nat) : Except Nat (List Byte × List Byte × Nat) :=
  if !(bytes "--").isPrefixOf (body.drop p2) then .error (p2 + 1)
  else
    let p2 := p2 + 2
    if !boundary.isPrefixOf (body.drop p2) then .error (p2 + 1)
    else
      let p2 := Vardata.skipWhile body isEol (p2 + boundary.length)
      if !startsWith (body.drop p2) "Content-Disposition: form-data; " then .error (p2 + 1)
      else
        let p2 := p2 + 32
        if !startsWith (body.drop p2) "name=" then .error p2
        else
          let (name, p2) := Vardata.readPartName body (p2 + 5)
          match Vardata.fileField body p2 with
          | (none, p2) => .error p2
          | (some filename, p2) => .ok (name, filename, p2)

/-- A round whose header was read. -/
def roundOf (body boundary : List Byte) : Except Nat (List Byte × List Byte × Nat) → Option Copy × Nat
  | .error p2 => (none, p2)
  | .ok (name, filename, p2) =>
      (some (contentOf body boundary name filename p2).1, (contentOf body boundary name filename p2).2)

theorem readHeader_run (h : i ≤ body.length) : readHeader (posted body) boundary i = some (partHeader body boundary i) ∧
    ∀ name filename k, partHeader body boundary i = .ok (name, filename, k) → 4 ≤ k ∧ k ≤ body.length := by
  -- a text that agrees lies inside the body
  have hinside : ∀ {pat : List Byte} {j : Nat}, pat.isPrefixOf (body.drop j) = true → j ≤ body.length →
      j + pat.length ≤ body.length := by
    intro pat j hpat hj
    have hle := (List.isPrefixOf_iff_prefix.mp hpat).length_le
    rw [List.length_drop] at hle
    omega
  have hstarts : ∀ {str : String} {j : Nat}, startsWith (body.drop j) str = true → j ≤ body.length →
      j + str.length ≤ body.length := by
    intro str j hstr hj
    have hle := length_of_startsWith hstr
    rw [List.length_drop] at hle
    omega
  rw [readHeader, partHeader, strncmp_run (by decide) h, Option.bind_eq_bind, Option.bind_some]
  by_cases hdash : (bytes "--").isPrefixOf (body.drop i) = true
  · have h₁ : i + 2 ≤ body.length := hinside hdash h
    simp only [hdash, Bool.not_true, Bool.false_eq_true, if_false, strncmp_run h0 h₁, Option.bind_some]
    by_cases hbound : boundary.isPrefixOf (body.drop (i + 2)) = true
    · obtain ⟨hrun₂, h₂⟩ := skipWhile_run isEol rfl (hinside hbound h₁)
      simp only [hbound, Bool.not_true, Bool.false_eq_true, if_false, hrun₂, Option.bind_eq_bind, Option.bind_some]
      generalize Vardata.skipWhile body isEol (i + 2 + boundary.length) = j at *
      have hcase := strncasecmp_run "Content-Disposition: form-data; " (by decide) h₂
      simp only [hcase, Option.bind_some]
      by_cases hform : startsWith (body.drop j) "Content-Disposition: form-data; " = true
      · have h₃ : j + 32 ≤ body.length := hstarts hform h₂
        have hcase' := strncasecmp_run "name=" (by decide) h₃
        simp only [hform, Bool.not_true, Bool.false_eq_true, if_false, hcase', Option.bind_some]
        by_cases hname : startsWith (body.drop (j + 32)) "name=" = true
        · have h₄ : j + 32 + 5 ≤ body.length := hstarts hname h₃
          obtain ⟨hrun₅, h₅⟩ := readPartName_run h₄
          have hle₅ := Vardata.le_readPartName body (j + 32 + 5)
          simp only [hname, Bool.not_true, Bool.false_eq_true, if_false, hrun₅, Option.bind_some]
          generalize Vardata.readPartName body (j + 32 + 5) = name at *
          obtain ⟨hrun₆, h₆⟩ := fileField_run h₅
          have hle₆ := Vardata.le_fileField body name.2
          simp only [hrun₆, Option.bind_some]
          generalize Vardata.fileField body name.2 = file at *
          obtain ⟨filename, k⟩ := file
          cases filename with
          | none => exact ⟨rfl, nofun⟩
          | some filename =>
              refine ⟨rfl, fun name' filename' k' heq => ?_⟩
              cases heq
              dsimp only at h₆ hle₆
              omega
        · rw [Bool.not_eq_true] at hname
          simp only [hname, Bool.not_false, if_true]
          exact ⟨rfl, nofun⟩
      · rw [Bool.not_eq_true] at hform
        simp only [hform, Bool.not_false, if_true]
        exact ⟨rfl, nofun⟩
    · rw [Bool.not_eq_true] at hbound
      simp only [hbound, Bool.not_false, if_true]
      exact ⟨rfl, nofun⟩
  · rw [Bool.not_eq_true] at hdash
    rw [hdash]
    exact ⟨rfl, nofun⟩

omit h0 in
theorem readPart_eq (i : Nat) : Vardata.readPart body boundary body.length i =
    ((roundOf body boundary (partHeader body boundary i)).1.map Copy.part,
      (roundOf body boundary (partHeader body boundary i)).2) := by
  unfold Vardata.readPart partHeader
  split
  · rfl
  · dsimp only
    split
    · rfl
    · split
      · rfl
      · split
        · rfl
        · generalize Vardata.readPartName body _ = name
          obtain ⟨name, q⟩ := name
          dsimp only
          generalize Vardata.fileField body q = file
          obtain ⟨filename, k⟩ := file
          cases filename with
          | none => rfl
          | some filename => rfl

/-- One round: what the parser stores is what it reads of the body, if it can be copied. -/
theorem readPart_run (h : i ≤ body.length) : Copied (roundOf body boundary (partHeader body boundary i)).1.toList
    (roundOf body boundary (partHeader body boundary i)) (readPart (posted body) boundary body.length i) := by
  obtain ⟨hrun, hbound⟩ := readHeader_run h0 h
  rw [readPart, hrun, Option.bind_eq_bind, Option.bind_some]
  cases hheader : partHeader body boundary i with
  | error p2 => exact .inl ⟨fun c hc => absurd hc List.not_mem_nil, rfl⟩
  | ok r =>
      obtain ⟨name, filename, k⟩ := r
      obtain ⟨hlow, hk⟩ := hbound name filename k hheader
      rcases readContent_run h0 name filename hlow hk with
        ⟨hlens, hrun'⟩ | ⟨⟨c, hc, hlen⟩, hrun'⟩
      · dsimp only
        rw [hrun']
        exact .inl ⟨hlens, rfl⟩
      · dsimp only
        rw [hrun']
        exact .inr ⟨⟨c, hc, hlen⟩, rfl⟩

/-- The parts of a body from a place on. -/
def copiesFrom (body boundary : List Byte) : Nat → Nat → List Copy
  | 0, _ => []
  | n + 1, i =>
      if body.length < i then []
      else (roundOf body boundary (partHeader body boundary i)).1.toList ++
        copiesFrom body boundary n (roundOf body boundary (partHeader body boundary i)).2

omit h0 in
omit h0 in
theorem lt_roundOf (body boundary : List Byte) (i : Nat) :
    i < (roundOf body boundary (partHeader body boundary i)).2 := by
  have hlt := Vardata.lt_readPart body boundary body.length i
  rwa [readPart_eq] at hlt

/-- The loop over a body. -/
theorem readParts_run {n : Nat} (hpos : 0 < n) (hn : body.length + 1 < n + i) :
    Copied (copiesFrom body boundary n i) (copiesFrom body boundary n i)
      (readParts (posted body) boundary body.length n i) := by
  induction n generalizing i with
  | zero => omega
  | succ n ih =>
      rw [readParts, copiesFrom]
      by_cases hend : body.length < i
      · rw [if_pos hend, if_pos (by omega)]
        exact .inl ⟨fun c hc => absurd hc List.not_mem_nil, rfl⟩
      · rw [if_neg hend, if_neg (by omega)]
        have hlt := lt_roundOf body boundary i
        have hrest := ih (i := (roundOf body boundary (partHeader body boundary i)).2) (by omega) (by omega)
        have hpart := @readPart_run body boundary i h0 (by omega)
        generalize roundOf body boundary (partHeader body boundary i) = r at hrest hpart ⊢
        obtain ⟨o, k⟩ := r
        dsimp only at hrest hpart ⊢
        rcases hpart with ⟨hlens, hrun⟩ | ⟨⟨c, hc, hlen⟩, hrun⟩
        · rw [hrun, Option.bind_eq_bind, Option.bind_some]
          rcases hrest with ⟨hlens', hrun'⟩ | ⟨⟨c, hc, hlen⟩, hrun'⟩
          · refine .inl ⟨fun c hc => ?_, by rw [hrun']; rfl⟩
            rcases List.mem_append.mp hc with hc | hc
            · exact hlens c hc
            · exact hlens' c hc
          · exact .inr ⟨⟨c, List.mem_append_right _ hc, hlen⟩, by rw [hrun']; rfl⟩
        · exact .inr ⟨⟨c, List.mem_append_left _ hc, hlen⟩, by rw [hrun]; rfl⟩

/-- The parser ends and reads in the block only, up to the copy of a part. -/
theorem stored_run : Copied (copiesFrom body boundary (body.length + 2) 0)
    (copiesFrom body boundary (body.length + 2) 0) (stored body boundary) :=
    readParts_run h0 (Nat.succ_pos _) (by omega)

/-- The extents are right if all parts are slices of the body. -/
theorem extents_iff_slices :
    Extents body boundary ↔ ∀ c ∈ copiesFrom body boundary (body.length + 2) 0, Slice body c := by
  rcases @stored_run body boundary h0 with ⟨-, hrun⟩ | ⟨⟨c, hc, hlen⟩, hrun⟩
  · rw [Extents, hrun]
    simp
  · constructor
    · rintro ⟨copies, hcopies, -⟩
      rw [hrun] at hcopies
      cases hcopies
    · intro hslices
      have hle := (hslices c hc).length
      omega

end Reads

/-! ### Bodies whose parts have their boundary -/

/-- The content that begins at `q` goes on to the boundary at `e`, the first one there, and its end is set back to a
place that is not before its beginning. -/
structure Bounded (body boundary : List Byte) (q e : Nat) : Prop where
  behind : q ≤ e
  inside : e ≤ body.length
  found : boundary <+: body.drop e
  first : ∀ d, q ≤ d → d < e → ¬ boundary <+: body.drop d
  notBefore : q ≤ endOf body e

/-- From a place on, each part that the loop comes to has its boundary. -/
inductive Framed (body boundary : List Byte) : Nat → Prop where
  | done {i} : body.length < i → Framed body boundary i
  | skip {i next} : partHeader body boundary i = .error next → Framed body boundary next → Framed body boundary i
  | part {i name filename k e} : partHeader body boundary i = .ok (name, filename, k) →
      Bounded body boundary (contentStart body k) e → Framed body boundary (endOf body e) → Framed body boundary i

section Extents

variable {body boundary name filename : List Byte} {i q e k : Nat}

/-- The loop over the bytes of a part stops at the boundary, or behind the byte that follows the body. -/
theorem findBoundary_spec (hq : q ≤ body.length + 1) {n : Nat} (hn : body.length + 1 < n + q) :
    let e := Vardata.findBoundary body boundary body.length n q
    (∀ d, q ≤ d → d < e → ¬ boundary <+: body.drop d) ∧
      (e ≤ body.length ∧ boundary <+: body.drop e ∨ e = body.length + 1) := by
  induction n generalizing q with
  | zero => omega
  | succ n ih =>
      rw [Vardata.findBoundary]
      by_cases hend : (body.length : Int) < q
      · rw [if_pos hend]
        exact ⟨fun d hd hlt => absurd hd (by omega), .inr (by omega)⟩
      · rw [if_neg hend]
        by_cases hpre : boundary.isPrefixOf (body.drop q) = true
        · rw [if_pos hpre]
          exact ⟨fun d hd hlt => absurd hd (by omega), .inl ⟨by omega, List.isPrefixOf_iff_prefix.mp hpre⟩⟩
        · rw [if_neg hpre]
          obtain ⟨hfirst, hstop⟩ := ih (q := q + 1) (by omega) (by omega)
          refine ⟨fun d hd hlt => ?_, hstop⟩
          rcases Nat.lt_or_eq_of_le hd with hd | rfl
          · exact hfirst d hd hlt
          · exact fun h => hpre (List.isPrefixOf_iff_prefix.mpr h)

theorem stepBack_le (body : List Byte) (c : Byte) (e : Nat) : Vardata.stepBack body c e ≤ e := by
  unfold Vardata.stepBack
  split <;> omega

theorem endOf_le (body : List Byte) (e : Nat) : endOf body e ≤ e := by
  have h₁ := stepBack_le body (ch '-') e
  have h₂ := stepBack_le body (ch '-') (Vardata.stepBack body (ch '-') e)
  have h₃ := stepBack_le body (ch '\n') (Vardata.stepBack body (ch '-') (Vardata.stepBack body (ch '-') e))
  exact (stepBack_le body (ch '\r') _).trans (h₃.trans (h₂.trans h₁))

/-- The end of a part without a boundary is behind the byte that follows the body. -/
theorem endOf_end : endOf body (body.length + 1) = body.length + 1 := by
  have hstep : ∀ c : Byte, c ≠ 0 → Vardata.stepBack body c (body.length + 1) = body.length + 1 := by
    intro c hc
    rw [Vardata.stepBack, Nat.add_sub_cancel, Vardata.charAt_of_le body (Nat.le_refl _), if_neg hc.symm]
  rw [endOf, hstep _ (by decide), hstep _ (by decide), hstep _ (by decide), hstep _ (by decide)]

/-- The bytes from one place to another. -/
theorem range_charAt (h : e ≤ body.length) :
    ((List.range (e - q)).map fun i => charAt body (q + i)) = (body.drop q).take (e - q) := by
  refine List.ext_getElem ?_ fun j hj hj' => ?_
  · rw [List.length_map, List.length_range, List.length_take, List.length_drop]
    omega
  · rw [List.length_map, List.length_range] at hj
    rw [List.getElem_map, List.getElem_range, List.getElem_take, List.getElem_drop,
      Vardata.charAt_of_lt body (by omega)]

/-- Where the content of a part ends: at the first boundary, or behind the byte that follows the body. -/
theorem contentOf_end (boundary name filename : List Byte) (hlow : 4 ≤ k) (hk : contentStart body k ≤ body.length) :
    ∃ e, (contentOf body boundary name filename k).2 = endOf body e ∧ contentStart body k ≤ e ∧
      (∀ d, contentStart body k ≤ d → d < e → ¬ boundary <+: body.drop d) ∧
      (e ≤ body.length ∧ boundary <+: body.drop e ∨ e = body.length + 1) := by
  have hle := le_contentStart body k
  have hspec := @findBoundary_spec body boundary (contentStart body k) (by omega)
    ((body.length : Int).toNat + 1) (by omega)
  exact ⟨_, rfl, Vardata.le_findBoundary body boundary body.length _ _, hspec.1, hspec.2⟩

/-- A part that is a slice of the body has its boundary. -/
theorem bounded_of_slice (hlow : 4 ≤ k) (hk : contentStart body k ≤ body.length)
    (h : Slice body (contentOf body boundary name filename k).1) :
    ∃ e, Bounded body boundary (contentStart body k) e ∧
      (contentOf body boundary name filename k).2 = endOf body e := by
  obtain ⟨e, hend, hbehind, hfirst, hstop⟩ := contentOf_end boundary name filename
    hlow hk
  have hlength : 0 ≤ ((contentOf body boundary name filename k).2 : Int) - contentStart body k := h.length
  have hinside : contentStart body k + (((contentOf body boundary name filename k).2 : Int) -
    contentStart body k).toNat ≤ body.length := h.inside
  rw [hend] at hlength hinside
  rcases hstop with ⟨hlast, hfound⟩ | rfl
  · exact ⟨e, ⟨hbehind, hlast, hfound, hfirst, by omega⟩, hend⟩
  · rw [endOf_end] at hinside
    omega

/-- A part that has its boundary is a slice of the body. -/
theorem slice_of_bounded (name filename : List Byte) (hlow : 4 ≤ k) (hk : contentStart body k ≤ body.length)
    (h : Bounded body boundary (contentStart body k) e) :
    Slice body (contentOf body boundary name filename k).1 ∧
      (contentOf body boundary name filename k).2 = endOf body e := by
  obtain ⟨e', hend, hbehind, hfirst, hstop⟩ := contentOf_end boundary name filename
    hlow hk
  obtain rfl : e = e' := by
    have hinside := h.inside
    rcases Nat.lt_trichotomy e e' with hlt | heq | hlt
    · exact absurd h.found (hfirst e h.behind hlt)
    · exact heq
    · rcases hstop with ⟨-, hfound⟩ | rfl
      · exact absurd hfound (h.first e' hbehind hlt)
      · omega
  have hlast := (endOf_le body e).trans h.inside
  have hnot := h.notBefore
  have hlen : (contentOf body boundary name filename k).1.part.len = (endOf body e : Int) - contentStart body k := by
    rw [← hend]
    rfl
  have hnat : (contentOf body boundary name filename k).1.part.len.toNat = endOf body e - contentStart body k := by
    omega
  refine ⟨⟨by omega, ?_, ?_⟩, hend⟩
  · rw [hnat]
    show contentStart body k + _ ≤ _
    omega
  · rw [hnat, ← hend]
    exact range_charAt (hend ▸ hlast)

/-- The parts from a place on are slices of the body if they have their boundary. -/
theorem slices_iff_framed (h0 : 0 ∉ boundary) {n : Nat} (hpos : 0 < n) (hn : body.length + 1 < n + i) :
    (∀ c ∈ copiesFrom body boundary n i, Slice body c) ↔ Framed body boundary i := by
  induction n generalizing i with
  | zero => omega
  | succ n ih =>
      rw [copiesFrom]
      by_cases hend : body.length < i
      · rw [if_pos hend]
        exact iff_of_true (fun c hc => absurd hc List.not_mem_nil) (.done hend)
      · rw [if_neg hend]
        have hlt := lt_roundOf body boundary i
        have hrest := ih (i := (roundOf body boundary (partHeader body boundary i)).2) (by omega) (by omega)
        have hbound := (@readHeader_run body boundary i h0 (by omega)).2
        cases hheader : partHeader body boundary i with
        | error next =>
            rw [hheader] at hrest
            refine Iff.trans hrest ⟨fun h => .skip hheader h, fun h => ?_⟩
            cases h with
            | done hdone => exact absurd hdone hend
            | skip hskip hnext =>
                rw [hheader] at hskip
                cases hskip
                exact hnext
            | part hpart _ _ =>
                rw [hheader] at hpart
                cases hpart
        | ok r =>
            obtain ⟨name, filename, k⟩ := r
            obtain ⟨hlow, hk⟩ := hbound name filename k hheader
            have hstart := (skipHeader_run hk).2
            rw [hheader] at hrest
            dsimp only [roundOf] at hrest ⊢
            constructor
            · intro hall
              obtain ⟨e, hbounded, hnext⟩ := bounded_of_slice hlow hstart
                (hall _ (List.mem_append_left _ (Option.mem_toList.mpr rfl)))
              refine .part hheader hbounded ?_
              rw [← hnext]
              exact hrest.mp fun c hc => hall c (List.mem_append_right _ hc)
            · intro h
              cases h with
              | done hdone => exact absurd hdone hend
              | skip hskip _ =>
                  rw [hheader] at hskip
                  cases hskip
              | @part _ name' filename' k' e hpart hbounded hframed =>
                  rw [hheader] at hpart
                  cases hpart
                  obtain ⟨hslice, hnext⟩ := slice_of_bounded name filename hlow hstart hbounded
                  rw [hnext] at hrest ⊢
                  intro c hc
                  rcases List.mem_append.mp hc with hc | hc
                  · obtain rfl : c = _ := by simpa using hc
                    exact hslice
                  · exact hrest.mpr hframed c hc

/-- The extents of the parts are right exactly where every part has its boundary. -/
theorem extents_iff (h0 : 0 ∉ boundary) : Extents body boundary ↔ Framed body boundary 0 :=
  (extents_iff_slices h0).trans (slices_iff_framed h0 (Nat.succ_pos _) (by omega))

end Extents

/-- A field with its boundary. -/
def fieldBody : List Byte :=
  bytes "--b\r\nContent-Disposition: form-data; name=\"a\"\r\n\r\nx\r\n--b--"

theorem extents_field : Extents fieldBody (bytes "b") := by
  refine (extents_iff (by decide)).mpr ?_
  have hpart : partHeader fieldBody (bytes "b") 0 = .ok (bytes "A", [], 45) := by decide +kernel
  have hskip : ∀ e ∈ [(50, 51), (51, 52), (52, 56), (56, 57), (57, 58)],
      partHeader fieldBody (bytes "b") e.1 = .error e.2 := by decide +kernel
  refine .part hpart (e := 54)
    ⟨by decide +kernel, by decide +kernel, by decide +kernel, ?_, by decide +kernel⟩ ?_
  · intro d hd hlt
    have hstart : contentStart fieldBody 45 = 49 := by decide +kernel
    have hall : ∀ j < 5, ¬ bytes "b" <+: fieldBody.drop (49 + j) := by decide +kernel
    obtain ⟨j, rfl⟩ : ∃ j, d = 49 + j := ⟨d - 49, by omega⟩
    exact hall j (by omega)
  · have hend : endOf fieldBody 54 = 50 := by decide +kernel
    rw [hend]
    -- the rest is passed byte by byte, and the dashes behind the boundary with it
    refine .skip (hskip (50, 51) (by decide)) (.skip (hskip (51, 52) (by decide)) ?_)
    refine .skip (hskip (52, 56) (by decide)) (.skip (hskip (56, 57) (by decide)) ?_)
    exact .skip (hskip (57, 58) (by decide)) (.done (by decide))

/-- The last part of a body that ends without its boundary. -/
def openBody : List Byte := bytes "--b\r\nContent-Disposition: form-data; name=\"a\"\r\n\r\nx"

/-- The zero behind the body is counted as one of its bytes. -/
theorem not_extents_open : ¬ Extents openBody (bytes "b") := by
  rintro ⟨copies, hcopies, hslices⟩
  have hinside : (stored openBody (bytes "b")).map
      (fun l => l.all fun c => c.start + c.part.len.toNat ≤ openBody.length) = some false := by decide +kernel
  rw [hcopies, Option.map_some, Option.some.injEq, List.all_eq_false] at hinside
  obtain ⟨c, hc, hnot⟩ := hinside
  exact hnot (decide_eq_true (hslices c hc).inside)

end NullG.Httpd.Multipart
