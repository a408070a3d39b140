/-
The variables of a request in the memory of the interpreter (`read_vardata` of `httpd_http.c`).

`nsp_settable` and `nsp_setstr` return the null object of the process for an empty name. A variable of a query string
is only decoded where it has a value, but a part of a multipart body is written through whatever was returned.
-/

import NullG.Httpd.Query
import NullG.Nsp.NullSafe
import NullG.Nsp.OwnedTables

namespace NullG.Httpd.Vardata

open NullG.Lib NullG.Nsp NullG.Mail

/-! ### Multipart bodies -/

/-- `isspace`. -/
def isspace (c : Byte) : Bool := c == ch ' ' || (9 ≤ c && c ≤ 13)

/-- A part of a body: its names, its length as `read_vardata` counts it, and as many bytes of it. -/
structure Part where
  name : List Byte
  filename : List Byte
  len : Int
  text : List Byte
  deriving DecidableEq

section Body

variable (body : List Byte)

/-- The byte at `p2`; the buffer has zeros behind the body. -/
def charAt (p2 : Nat) : Byte := body.getD p2 0

/-- `while (...) p2++`. -/
def skipWhile (test : Byte → Bool) (p2 : Nat) : Nat := p2 + ((body.drop p2).takeWhile test).length

/-- `if (*p2 == c) p2++`. -/
def skipIf (c : Byte) (p2 : Nat) : Nat := if charAt body p2 = c then p2 + 1 else p2

/-- `if (p2[i - 1] == c) i--`, where `e` is `p2 + i`. -/
def stepBack (c : Byte) (e : Nat) : Nat := if charAt body (e - 1) = c then e - 1 else e

/-- A character of a name. -/
def inValue (c : Byte) : Bool :=
  c != 0 && c != ch ';' && c != ch '\'' && c != ch '"' && c != ch '\r' && c != ch '\n'

/-- A character of a line. -/
def inLine (c : Byte) : Bool := c != 0 && !isEol c

/-- The rest of a line and its end are skipped. -/
def skipLine (p2 : Nat) : Nat := skipIf body (ch '\n') (skipIf body (ch '\r') (skipWhile body inLine p2))

/-- The header lines of a part are skipped, with as many rounds as are left. -/
def skipLines : Nat → Nat → Nat
  | 0, p2 => p2
  | n + 1, p2 => if inLine (charAt body p2) then skipLines n (skipLine body p2) else p2

/-- The loop over a file name, of which only what is behind the last slash is kept: the name, and how much of the
text was read. -/
def readFilename (filename : List Byte) : List Byte → List Byte × Nat
  | [] => (filename, 0)
  | c :: p2 =>
      if filename.length = 255 then (filename, 0)
      else if !inValue c then (filename, 0)
      else if c = ch '\\' ∨ c = ch '/' then ((readFilename [] p2).1, (readFilename [] p2).2 + 1)
      else ((readFilename (filename ++ [c]) p2).1, (readFilename (filename ++ [c]) p2).2 + 1)

/-- The file name behind the name of a part; there is none where something else follows a `;`. -/
def fileField (p2 : Nat) : Option (List Byte) × Nat :=
  if charAt body p2 ≠ ch ';' then (some [], p2)
  else
    let p2 := skipWhile body isspace (p2 + 1)
    if !startsWith (body.drop p2) "filename=" then (none, p2)
    else
      let p2 := skipIf body (ch '"') (p2 + 9)
      let (filename, n) := readFilename [] (body.drop p2)
      (some (filename.take 254), p2 + n)

variable (boundary : List Byte) (clen : Int)

/-- The loop over the bytes of a part, with as many rounds as are left: where the boundary is, or the end. -/
def findBoundary : Nat → Nat → Nat
  | 0, e => e
  | n + 1, e => if clen < e then e else if boundary.isPrefixOf (body.drop e) then e else findBoundary n (e + 1)

/-- The name of a part, and where it ends. -/
def readPartName (p2 : Nat) : List Byte × Nat :=
  let p2 := skipIf body (ch '"') p2
  let chars := ((body.drop p2).take maxObjnamelen).takeWhile inValue
  ((chars.map toupper).take (maxObjnamelen - 1), skipIf body (ch '"') (p2 + chars.length))

/-- The content of a part behind the line of its name: where it begins and where it ends. The end is set back over two
`-` and over the end of a line, also where the content is shorter than these. -/
def readContent (p2 : Nat) : Nat × Nat :=
  let p2 := skipIf body (ch '\n') (skipIf body (ch '\r') (skipLines body body.length (skipLine body p2)))
  let e := findBoundary body boundary clen (clen.toNat + 1) p2
  (p2, stepBack body (ch '\r') (stepBack body (ch '\n') (stepBack body (ch '-') (stepBack body (ch '-') e))))

/-- One round of the loop over a body: a part, if there is one here, and where the next round begins. -/
def readPart (p2 : Nat) : Option Part × Nat :=
  if !(bytes "--").isPrefixOf (body.drop p2) then (none, p2 + 1)
  else
    let p2 := p2 + 2
    if !boundary.isPrefixOf (body.drop p2) then (none, p2 + 1)
    else
      let p2 := skipWhile body isEol (p2 + boundary.length)
      if !startsWith (body.drop p2) "Content-Disposition: form-data; " then (none, p2 + 1)
      else
        let p2 := p2 + 32
        if !startsWith (body.drop p2) "name=" then (none, p2)
        else
          let (name, p2) := readPartName body (p2 + 5)
          match fileField body p2 with
          | (none, p2) => (none, p2)
          | (some filename, p2) =>
              let (p2, e) := readContent body boundary clen p2
              (some ⟨name, filename, (e : Int) - p2, (List.range (e - p2)).map fun i => charAt body (p2 + i)⟩, e)

/-- The parts of a body from `p2` on, with as many rounds as are left. -/
def partsFrom : Nat → Nat → List Part
  | 0, _ => []
  | n + 1, p2 =>
      if clen < p2 then []
      else (readPart body boundary clen p2).1.toList ++ partsFrom n (readPart body boundary clen p2).2

/-- The parts of a body. -/
def partsOf : List Part := partsFrom body boundary clen (clen.toNat + 2) 0

/-! The rounds are enough. -/

theorem le_skipWhile (test : Byte → Bool) (p2 : Nat) : p2 ≤ skipWhile body test p2 := Nat.le_add_right _ _

theorem le_skipIf (c : Byte) (p2 : Nat) : p2 ≤ skipIf body c p2 := by
  unfold skipIf
  split <;> omega

theorem le_stepBack (c : Byte) (e : Nat) : e - 1 ≤ stepBack body c e := by
  unfold stepBack
  split <;> omega

theorem charAt_of_le {p2 : Nat} (h : body.length ≤ p2) : charAt body p2 = 0 := by
  simp [charAt, h]

theorem charAt_of_lt {p2 : Nat} (h : p2 < body.length) : charAt body p2 = body[p2] := by
  simp [charAt, h]

theorem lt_skipLine {p2 : Nat} (h : inLine (charAt body p2) = true) : p2 < skipLine body p2 := by
  have hlt : p2 < body.length := by
    by_contra hle
    rw [charAt_of_le body (Nat.le_of_not_lt hle)] at h
    cases h
  have hwhile : p2 < skipWhile body inLine p2 := by
    rw [charAt_of_lt body hlt] at h
    rw [skipWhile, List.drop_eq_getElem_cons hlt, List.takeWhile_cons, if_pos h, List.length_cons]
    omega
  apply Nat.lt_of_lt_of_le hwhile
  exact Nat.le_trans (le_skipIf body (ch '\r') _) (le_skipIf body (ch '\n') _)

theorem le_skipLine (p2 : Nat) : p2 ≤ skipLine body p2 :=
  Nat.le_trans (le_skipWhile body inLine p2)
    (Nat.le_trans (le_skipIf body (ch '\r') _) (le_skipIf body (ch '\n') _))

/-- Another round of `skipLines` changes nothing. -/
theorem skipLines_succ (n p2 : Nat) (h : body.length ≤ n + p2) : skipLines body (n + 1) p2 = skipLines body n p2 := by
  induction n generalizing p2 with
  | zero =>
      have hend : charAt body p2 = 0 := charAt_of_le body (by omega)
      simp [skipLines, hend, inLine]
  | succ n ih =>
      rw [skipLines]
      by_cases hline : inLine (charAt body p2) = true
      · have hlt := lt_skipLine body hline
        rw [if_pos hline, ih _ (by omega), skipLines, if_pos hline]
      · rw [if_neg hline, skipLines, if_neg hline]

theorem le_skipLines (n p2 : Nat) : p2 ≤ skipLines body n p2 := by
  induction n generalizing p2 with
  | zero => exact Nat.le_refl _
  | succ n ih =>
      rw [skipLines]
      split
      · exact Nat.le_trans (le_skipLine body p2) (ih _)
      · exact Nat.le_refl _

/-- Another round of `findBoundary` changes nothing. -/
theorem findBoundary_succ (n e : Nat) (h : clen < n + e) :
    findBoundary body boundary clen (n + 1) e = findBoundary body boundary clen n e := by
  induction n generalizing e with
  | zero => simp [findBoundary, show clen < e by omega]
  | succ n ih =>
      rw [findBoundary, ih (e + 1) (by omega)]
      rfl

theorem le_findBoundary (n e : Nat) : e ≤ findBoundary body boundary clen n e := by
  induction n generalizing e with
  | zero => exact Nat.le_refl _
  | succ n ih =>
      rw [findBoundary]
      split
      · exact Nat.le_refl _
      · split
        · exact Nat.le_refl _
        · exact Nat.le_trans (Nat.le_succ e) (ih _)

theorem le_fileField (p2 : Nat) : p2 ≤ (fileField body p2).2 := by
  have hspace := le_skipWhile body isspace (p2 + 1)
  unfold fileField
  split
  · exact Nat.le_refl _
  · dsimp only
    split
    · exact Nat.le_trans (Nat.le_succ p2) hspace
    · have hquote := le_skipIf body (ch '"') (skipWhile body isspace (p2 + 1) + 9)
      omega

theorem le_readPartName (p2 : Nat) : p2 ≤ (readPartName body p2).2 := by
  have hquote := le_skipIf body (ch '"') p2
  apply Nat.le_trans hquote
  exact Nat.le_trans (Nat.le_add_right _ _) (le_skipIf body (ch '"') _)

theorem le_readContent (p2 : Nat) : p2 ≤ (readContent body boundary clen p2).2 + 4 := by
  unfold readContent
  generalize hstart : skipIf body (ch '\n') (skipIf body (ch '\r') (skipLines body body.length (skipLine body p2))) = q
  have hq : p2 ≤ q := by
    rw [← hstart]
    apply Nat.le_trans (le_skipLine body p2)
    apply Nat.le_trans (le_skipLines body body.length _)
    exact Nat.le_trans (le_skipIf body (ch '\r') _) (le_skipIf body (ch '\n') _)
  have he := le_findBoundary body boundary clen (clen.toNat + 1) q
  dsimp only
  generalize findBoundary body boundary clen (clen.toNat + 1) q = e at he ⊢
  have h₁ := le_stepBack body (ch '-') e
  have h₂ := le_stepBack body (ch '-') (stepBack body (ch '-') e)
  have h₃ := le_stepBack body (ch '\n') (stepBack body (ch '-') (stepBack body (ch '-') e))
  have h₄ := le_stepBack body (ch '\r') (stepBack body (ch '\n') (stepBack body (ch '-') (stepBack body (ch '-') e)))
  omega

theorem lt_readPart (p2 : Nat) : p2 < (readPart body boundary clen p2).2 := by
  unfold readPart
  split
  · exact Nat.lt_succ_self _
  · dsimp only
    split
    · exact Nat.lt_succ_of_lt (Nat.lt_succ_of_lt (Nat.lt_succ_self _))
    · have heol := le_skipWhile body isEol (p2 + 2 + boundary.length)
      split
      · dsimp only
        omega
      · split
        · dsimp only
          omega
        · have hname := le_readPartName body (skipWhile body isEol (p2 + 2 + boundary.length) + 32 + 5)
          generalize readPartName body _ = name at hname ⊢
          obtain ⟨name, q⟩ := name
          have hfile := le_fileField body q
          dsimp only at hname ⊢
          generalize fileField body q = file at hfile ⊢
          obtain ⟨filename, q'⟩ := file
          cases filename with
          | none =>
              dsimp only at hfile ⊢
              omega
          | some filename =>
              have hcontent := le_readContent body boundary clen q'
              dsimp only at hfile ⊢
              omega

end Body

/-- The boundary in a content type; without one, `read_vardata` returns. -/
def boundaryOf (contentType : List Byte) : Option (List Byte) :=
  match (contentType.tails.find? (bytes "boundary").isPrefixOf).map (List.drop 8) with
  | none => none
  | some p1 =>
      if p1.head? ≠ some (ch '=') then none
      else
        let p1 := p1.drop 1
        let p1 := if p1.head? = some (ch '\'') ∨ p1.head? = some (ch '"') then p1.drop 1 else p1
        some ((p1.takeWhile fun c => c != 0 && c != ch ';' && c != ch '\'' && c != ch '"').take 99)

/-! ### `read_vardata` -/

/-- What `read_vardata` reads: the entries of `_SERVER`, `max_post_size`, and the body that `read_postdata` reads, if
it does not end the thread. -/
structure Input where
  queryString : List Byte
  post : Bool
  contentLength : Int
  contentType : List Byte
  maxPostSize : Int
  posted : Option (List Byte)

/-- A variable is set, and its value is decoded where it is. -/
def storeVar (tobj : ObjId) (v : List Byte × List Byte) : H Unit := do
  let cobj ← nspSetobj tobj (some v.1) (.string v.2)
  let y ← getVal cobj
  let str ← member y.d.asStr
  match str with
  | none => pure ()
  | some str => modVal cobj fun y =>
      { y with d := .str (cstr (decodeurl (cstr str))), size := (cstr (decodeurl (cstr str))).length }

/-- The loop over a query string or a body that is one. -/
def storeVars (tobj : ObjId) : List (List Byte × List Byte) → H Unit
  | [] => pure ()
  | v :: vars => do
      storeVar tobj v
      storeVars tobj vars

/-- The content of a part becomes the data of `cobj`. Memory for a length below -1 is not to be had; for -1, `malloc(0)`
returns a block, and more is copied than there is memory. -/
def storeContent (cobj : ObjId) (p : Part) : H Unit :=
  if p.len = 0 then modVal cobj fun y => { y with size := 0 }
  else if p.len = -1 then .fail .outOfBounds
  else if p.len < 0 then modVal cobj fun y => { y with d := .num 0, size := 0 }
  else modVal cobj fun y => { y with d := .str p.text, size := p.len.toNat }

/-- A part is stored in `pobj`; one with a file name is a table. -/
def storePart (pobj : ObjId) (p : Part) : H Unit :=
  if p.filename ≠ [] then do
    let fobj ← nspSetobj pobj (some p.name) .table
    let cobj ← nspSetobj fobj (some (bytes "DATA")) (.string [])
    let _ ← nspSetobj fobj (some (bytes "FILENAME")) (.string p.filename)
    let _ ← nspSetobj fobj (some (bytes "SIZE")) (.number p.len)
    storeContent cobj p
  else do
    let cobj ← nspSetobj pobj (some p.name) (.string [])
    storeContent cobj p

/-- The loop over a multipart body. -/
def storeParts (pobj : ObjId) : List Part → H Unit
  | [] => pure ()
  | p :: parts => do
      storePart pobj p
      storeParts pobj parts

/-- The content type of a multipart body. -/
def Input.isMultipart (r : Input) : Bool := (bytes "multipart/form-data").isPrefixOf r.contentType

/-- The body is not longer than is allowed. -/
def Input.isShort (r : Input) : Bool := r.contentLength ≤ max r.maxPostSize 8192

/-- What `read_vardata` does with a body that was read. -/
def readBody (pobj : ObjId) (r : Input) (data : List Byte) : H Int := do
  let cobj ← nspSetobj globalObj (some (bytes "POSTRAWDATA")) (.string [])
  modVal cobj fun y => { y with d := .str data, size := data.length }
  if r.isMultipart then
    match boundaryOf r.contentType with
    | none => return -1
    | some boundary => do
        let _ ← nspSetobj globalObj (some (bytes "POSTBOUNDARY")) (.string boundary)
        storeParts pobj (partsOf data boundary r.contentLength)
        return 0
  else if (bytes "text/xml").isPrefixOf r.contentType then return 0
  else do
    storeVars pobj (queryVars (cstr data).length (cstr data))
    return 0

/-- `read_vardata`; `none` where it ends the thread. -/
def readVardata (r : Input) : H (Option Int) := do
  let gobj ← nspSetobj globalObj (some (bytes "_GET")) .table
  let pobj ← nspSetobj globalObj (some (bytes "_POST")) .table
  storeVars gobj (queryVars r.queryString.length r.queryString)
  if !r.post then return some 0
  else if !r.isShort then return none
  else
    match r.posted with
    | none => return none
    | some data => do
        let rc ← readBody pobj r data
        return some rc

/-! ### Shared state -/

/-- The variables that a request may set. -/
def requestNames : List (List Byte) := [bytes "_GET", bytes "_POST", bytes "POSTRAWDATA", bytes "POSTBOUNDARY"]

/-- The entries of the globals. -/
inductive InGlobals (s : Store) : ObjId → Prop where
  | first {v : ValId} {y : Val} {f : ObjId} {i l : Option ObjId} :
      s.look globalObj = .ok (v, y) → y.d = .table (some f) i l → InGlobals s f
  | next {o p : ObjId} {x : Obj} : InGlobals s o → s.objs.get o = some x → x.next = some p → InGlobals s p

/-- Of what was in the memory `b`, where the globals had the entries `olds`, only links of the globals are changed in
`s`, and what was added to them has the names of a request. The null object and its value are as they were. -/
structure OnlyOwn (b : Store) (olds : List ObjId) (s : Store) : Prop where
  null : NullIsNull s
  vals : ∀ v y, b.vals.get v = some y → b.ptr globalObj ≠ some v → s.vals.get v = some y
  objs : ∀ o x, b.objs.get o = some x → o ∉ olds → s.objs.get o = some x
  entries : ∀ o ∈ olds, ∀ x, b.objs.get o = some x → ∃ p n, s.objs.get o = some { x with prev := p, next := n }
  globals : ∀ v y, b.look globalObj = .ok (v, y) → ∃ f i l, s.vals.get v = some { y with d := .table f i l }
  added : ∀ o, InGlobals s o → o ∈ olds ∨ ∃ x, s.objs.get o = some x ∧ x.name ∈ requestNames

/-- The parts that `read_vardata` stores. -/
def Input.parts (r : Input) : List Part :=
  if r.post && r.isShort && r.isMultipart then
    match r.posted, boundaryOf r.contentType with
    | some data, some boundary => partsOf data boundary r.contentLength
    | _, _ => []
  else []

/-- A part without a name that has some length. -/
def Part.isStray (p : Part) : Bool := p.name == [] && p.len != 0

/-- No part without a name has a file name, and the last one of these that has some length has a negative one, for
which there is no memory. -/
structure Input.Harmless (r : Input) : Prop where
  noFile : ∀ p ∈ r.parts, p.name = [] → p.filename = []
  noText : ∀ p, (r.parts.filter Part.isStray).getLast? = some p → p.len < 0

/-- No part without a name has a file name or some length. -/
def Input.Untouched (r : Input) : Prop := ∀ p ∈ r.parts, p.name = [] → p.filename = [] ∧ p.len = 0

/-! ### What the parts leave of the null value -/

/-- A part that has neither a name nor a file name, stored in the null value. -/
def Part.onNull (p : Part) (y : Val) : Val :=
  if p.len = 0 then { y with size := 0 }
  else if p.len < 0 then { y with d := .num 0, size := 0 }
  else { y with d := .str p.text, size := p.len.toNat }

/-- What a part makes of the null value. -/
structure NullStep (p : Part) (y y' : Val) : Prop where
  named : p.name ≠ [] → y' = y
  file : p.name = [] → p.filename ≠ [] → y'.type = .number
  text : p.name = [] → p.filename = [] → y' = p.onNull y
  flat : Flat y → Flat y'

/-- What parts make of the null value. -/
inductive NullSteps : List Part → Val → Val → Prop where
  | nil (y : Val) : NullSteps [] y y
  | cons {p : Part} {parts : List Part} {y y₁ y' : Val} :
      NullStep p y y₁ → NullSteps parts y₁ y' → NullSteps (p :: parts) y y'

section Null

variable {p : Part} {parts : List Part} {y y' : Val}

@[simp] theorem Part.onNull_type (p : Part) (y : Val) : (p.onNull y).type = y.type := by
  unfold Part.onNull
  split
  · rfl
  · split <;> rfl

@[simp] theorem Part.onNull_ztable (p : Part) (y : Val) : (p.onNull y).ztable = y.ztable := by
  unfold Part.onNull
  split
  · rfl
  · split <;> rfl

/-- A type that is not null stays one. -/
theorem NullSteps.type_ne (h : NullSteps parts y y') (hy : y.type ≠ .null) : y'.type ≠ .null := by
  induction h with
  | nil => exact hy
  | @cons p parts y y₁ y' hstep _ ih =>
      apply ih
      by_cases hname : p.name = []
      · by_cases hfile : p.filename = []
        · rw [hstep.text hname hfile, Part.onNull_type]
          exact hy
        · rw [hstep.file hname hfile]
          simp
      · rw [hstep.named hname]
        exact hy

/-- A part without a name that has a file name leaves a number. -/
theorem NullSteps.noFile (h : NullSteps parts y y') (hy' : y'.type = .null) (hmem : p ∈ parts) (hname : p.name = []) :
    p.filename = [] := by
  induction h with
  | nil => cases hmem
  | @cons q parts y y₁ y' hstep hsteps ih =>
      rcases List.mem_cons.mp hmem with rfl | hmem
      · by_contra hfile
        exact hsteps.type_ne (by rw [hstep.file hname hfile]; simp) hy'
      · exact ih hy' hmem

/-- The null value as it was at first, or with a string. -/
def Touched (y : Val) : Prop := ∃ b size, y = { nullval with d := .str b, size := size }

theorem not_touched : ¬ Touched nullval := by
  rintro ⟨b, size, h⟩
  cases congrArg Val.d h

/-- The last part without a name that has some length decides. -/
theorem NullSteps.value (h : NullSteps parts y y') (hfile : ∀ p ∈ parts, p.name = [] → p.filename = [])
    (hy : y = nullval ∨ Touched y) : (y' = nullval ∨ Touched y') ∧ (y' = nullval ↔
      match (parts.filter Part.isStray).getLast? with
      | none => y = nullval
      | some p => p.len < 0) := by
  induction h with
  | nil y => exact ⟨hy, Iff.rfl⟩
  | @cons p parts y y₁ y' hstep _ ih =>
      have hfile' : ∀ q ∈ parts, q.name = [] → q.filename = [] := fun q hq => hfile q (List.mem_cons_of_mem _ hq)
      by_cases hname : p.name = []
      · obtain rfl := hstep.text hname (hfile p (List.mem_cons_self ..) hname)
        by_cases hzero : p.len = 0
        · have hnot : p.isStray = false := by simp [Part.isStray, hzero]
          have hsize : p.onNull y = { y with size := 0 } := if_pos hzero
          have hstill : (p.onNull y = nullval ∨ Touched (p.onNull y)) ∧ (p.onNull y = nullval ↔ y = nullval) := by
            rw [hsize]
            rcases hy with rfl | ⟨b, size, rfl⟩
            · exact ⟨.inl rfl, Iff.rfl⟩
            · refine ⟨.inr ⟨b, 0, rfl⟩, fun heq => ?_, fun heq => ?_⟩
              · cases congrArg Val.d heq
              · cases congrArg Val.d heq
          obtain ⟨htouched, hvalue⟩ := ih hfile' hstill.1
          refine ⟨htouched, hvalue.trans ?_⟩
          rw [List.filter_cons_of_neg (by simp [hnot])]
          cases (parts.filter Part.isStray).getLast? with
          | none => exact hstill.2
          | some q => exact Iff.rfl
        · have hstray : p.isStray = true := by simp [Part.isStray, hname, hzero]
          have hafter : (p.onNull y = nullval ∨ Touched (p.onNull y)) ∧ (p.onNull y = nullval ↔ p.len < 0) := by
            unfold Part.onNull
            rw [if_neg hzero]
            by_cases hneg : p.len < 0
            · rw [if_pos hneg]
              have hnull : { y with d := .num 0, size := 0 } = nullval := by
                rcases hy with rfl | ⟨b, size, rfl⟩ <;> rfl
              rw [hnull]
              exact ⟨.inl rfl, iff_of_true rfl hneg⟩
            · rw [if_neg hneg]
              have htext : Touched { y with d := .str p.text, size := p.len.toNat } := by
                rcases hy with rfl | ⟨b, size, rfl⟩ <;> exact ⟨p.text, p.len.toNat, rfl⟩
              refine ⟨.inr htext, iff_of_false (fun heq => not_touched (heq ▸ htext)) hneg⟩
          obtain ⟨htouched, hvalue⟩ := ih hfile' hafter.1
          refine ⟨htouched, hvalue.trans ?_⟩
          rw [List.filter_cons_of_pos hstray, List.getLast?_cons]
          cases (parts.filter Part.isStray).getLast? with
          | none => exact hafter.2
          | some q => exact Iff.rfl
      · obtain rfl := hstep.named hname
        have hnot : p.isStray = false := by simp [Part.isStray, hname]
        rw [List.filter_cons_of_neg (by simp [hnot])]
        exact ih hfile' hy

/-- The null value is as it was at first exactly if the parts are harmless. -/
theorem NullSteps.harmless_iff (h : NullSteps parts nullval y') : y' = nullval ↔
    (∀ p ∈ parts, p.name = [] → p.filename = []) ∧
      ∀ p, (parts.filter Part.isStray).getLast? = some p → p.len < 0 := by
  constructor
  · rintro rfl
    have hfile : ∀ p ∈ parts, p.name = [] → p.filename = [] := fun p hp hname => h.noFile rfl hp hname
    refine ⟨hfile, fun p hp => ?_⟩
    have hvalue := (h.value hfile (.inl rfl)).2.mp rfl
    rw [hp] at hvalue
    exact hvalue
  · rintro ⟨hfile, hlast⟩
    apply (h.value hfile (.inl rfl)).2.mpr
    cases hp : (parts.filter Part.isStray).getLast? with
    | none => rfl
    | some p => exact hlast p hp

end Null

/-! ### Runs -/

section Runs

variable {F : Fence} {s : Store} {t pobj : ObjId} {p : Part} {parts : List Part}

/-- A new value is written, and keeps its type. -/
theorem modVal_mine (h : Fenced F s) {o : ObjId} (ho : Zone.mine.Has F o) {f : Val → Val}
    (hz : ∀ y, (f y).ztable = y.ztable)
    (hlinks : ∀ y : Val, y.d.Links (Zone.mine.At F s) → (f y).d.Links (Zone.mine.At F s))
    (htype : ∀ y, (f y).type = y.type) :
    Ends (fun _ s' => Fenced F s') (fun _ s' => F.Kept s') ((modVal o f).run s) :=
  (modVal_new h ho.1 hz hlinks (.inr htype)).mono (fun _ _ h' => h') fun _ _ h' => h'.kept

/-- A variable of a query string goes to a new table; one without a name goes nowhere. -/
theorem storeVar_ends (h : Fenced F s) (hnul : F.nul = nullval) (ht : t ∈ F.tables) (v : List Byte × List Byte) :
    Ends (fun _ s' => Fenced F s') (fun _ s' => F.Kept s') ((storeVar t v).run s) := by
  rw [storeVar]
  by_cases hname : v.1 = []
  · rw [hname, Action.run_bind_ok (nspSetobj_empty h ht _), Action.run_bind_ok (getVal_run h.look_null), hnul]
    exact h
  · apply (nspSetobj_mine h (.inl ht) hname _).bind
    rintro o s₁ ⟨h₁, ho⟩
    apply getVal_bind_ends fun _ => h₁.kept
    intro _ y _
    apply member_bind_ends fun _ => h₁.kept
    intro str _
    cases str with
    | none => exact h₁
    | some str =>
        apply modVal_mine h₁ ho
        · exact fun _ => rfl
        · exact fun _ _ => trivial
        · exact fun _ => rfl

theorem storeVars_ends (hnul : F.nul = nullval) (ht : t ∈ F.tables) (vars : List (List Byte × List Byte))
    (h : Fenced F s) : Ends (fun _ s' => Fenced F s') (fun _ s' => F.Kept s') ((storeVars t vars).run s) := by
  induction vars generalizing s with
  | nil => exact h
  | cons v vars ih =>
      apply (storeVar_ends h hnul ht v).bind
      intro _ s₁ h₁
      exact ih h₁

theorem storeContent_mine (h : Fenced F s) {o : ObjId} (ho : Zone.mine.Has F o) (p : Part) :
    Ends (fun _ s' => Fenced F s') (fun _ s' => F.Kept s') ((storeContent o p).run s) := by
  unfold storeContent
  split
  · apply modVal_mine h ho
    · exact fun _ => rfl
    · exact fun _ hl => hl
    · exact fun _ => rfl
  · split
    · exact h.kept
    · split
      all_goals
        apply modVal_mine h ho
        · exact fun _ => rfl
        · exact fun _ _ => trivial
        · exact fun _ => rfl

/-- A part with a name goes to new memory. -/
theorem storePart_named (h : Fenced F s) (ht : pobj ∈ F.tables) (hname : p.name ≠ []) :
    Ends (fun _ s' => Fenced F s') (fun _ s' => F.Kept s') ((storePart pobj p).run s) := by
  unfold storePart
  split
  · apply (nspSetobj_mine h (.inl ht) hname _).bind
    rintro fobj s₁ ⟨h₁, hf⟩
    apply (nspSetobj_mine h₁ (.inr hf) (by decide) _).bind
    rintro cobj s₂ ⟨h₂, hc⟩
    apply (nspSetobj_mine h₂ (.inr hf) (by decide) _).bind
    rintro - s₃ ⟨h₃, -⟩
    apply (nspSetobj_mine h₃ (.inr hf) (by decide) _).bind
    rintro - s₄ ⟨h₄, -⟩
    exact storeContent_mine h₄ hc p
  · apply (nspSetobj_mine h (.inl ht) hname _).bind
    rintro cobj s₁ ⟨h₁, hc⟩
    exact storeContent_mine h₁ hc p

/-- A part that has neither a name nor a file name nor a length leaves the null value as it was at first. -/
theorem storePart_untouched (h : Fenced F s) (hnul : F.nul = nullval) (ht : pobj ∈ F.tables)
    (hp : p.name = [] → p.filename = [] ∧ p.len = 0) :
    Ends (fun _ s' => Fenced F s') (fun _ s' => F.Kept s') ((storePart pobj p).run s) := by
  by_cases hname : p.name = []
  · obtain ⟨hfile, hlen⟩ := hp hname
    obtain ⟨s', hrun, h'⟩ := modVal_nullObj h fun y => { y with size := 0 }
    unfold storePart
    rw [if_neg (by simp [hfile]), hname, Action.run_bind_ok (nspSetobj_empty h ht _), storeContent, if_pos hlen, hrun]
    have hsame : { F with nul := { F.nul with size := 0 } } = F := by
      rw [hnul, show ({ nullval with size := 0 } : Val) = nullval from rfl, ← hnul]
    rw [hsame] at h'
    exact h'
  · exact storePart_named h ht hname

theorem storeParts_untouched (hnul : F.nul = nullval) (ht : pobj ∈ F.tables)
    (hparts : ∀ p ∈ parts, p.name = [] → p.filename = [] ∧ p.len = 0) (h : Fenced F s) :
    Ends (fun _ s' => Fenced F s') (fun _ s' => F.Kept s') ((storeParts pobj parts).run s) := by
  induction parts generalizing s with
  | nil => exact h
  | cons p parts ih =>
      apply (storePart_untouched h hnul ht (hparts p (List.mem_cons_self ..))).bind
      intro _ s₁ h₁
      exact ih (fun q hq => hparts q (List.mem_cons_of_mem _ hq)) h₁

/-- The content of a part in the null value. -/
theorem storeContent_nullObj (h : Fenced F s) (p : Part) :
    Ends (fun _ s' => Fenced { F with nul := p.onNull F.nul } s') (fun _ _ => True) ((storeContent nullObj p).run s) := by
  have hwrite : ∀ f : Val → Val, f F.nul = p.onNull F.nul →
      Ends (fun _ s' => Fenced { F with nul := p.onNull F.nul } s') (fun _ _ => True) ((modVal nullObj f).run s) := by
    intro f hf
    obtain ⟨s', hrun, h'⟩ := modVal_nullObj h f
    rw [hf] at h'
    rw [hrun]
    exact h'
  unfold storeContent
  split
  · rename_i hzero
    exact hwrite _ (if_pos hzero).symm
  · rename_i hzero
    split
    · trivial
    · split
      · rename_i hneg
        apply hwrite
        rw [Part.onNull, if_neg hzero, if_pos hneg]
      · rename_i hneg
        apply hwrite
        rw [Part.onNull, if_neg hzero, if_neg hneg]

/-- What a part leaves, once it is stored. -/
theorem storePart_null (h : Fenced F s) (hflat : Flat F.nul) (ht : pobj ∈ F.tables) (p : Part) :
    Ends (fun _ s' => ∃ y, NullStep p F.nul y ∧ Fenced { F with nul := y } s') (fun _ _ => True)
      ((storePart pobj p).run s) := by
  by_cases hname : p.name = []
  · unfold storePart
    split
    · rename_i hfile
      -- the null object is made a string, a string and a number
      rw [hname, Action.run_bind_ok (nspSetobj_empty h ht _)]
      apply (nspSetobj_nullObj h hflat _ (by simp [Setting.type])).bind
      rintro _ s₁ ⟨rfl, y₁, -, hflat₁, h₁⟩
      apply (nspSetobj_nullObj h₁ hflat₁ _ (by simp [Setting.type])).bind
      rintro _ s₂ ⟨-, y₂, -, hflat₂, h₂⟩
      apply (nspSetobj_nullObj h₂ hflat₂ _ (by simp [Setting.type])).bind
      rintro _ s₃ ⟨-, y₃, hy₃, hflat₃, h₃⟩
      apply (storeContent_nullObj h₃ p).mono _ fun _ _ _ => trivial
      intro _ s₄ h₄
      refine ⟨p.onNull y₃, ⟨fun hne => absurd hname hne, fun _ _ => ?_, fun _ hno => absurd hno hfile, fun _ => ?_⟩, h₄⟩
      · rw [Part.onNull_type]
        exact hy₃
      · rw [Flat, Part.onNull_type, Part.onNull_ztable]
        exact hflat₃
    · rename_i hfile
      rw [hname, Action.run_bind_ok (nspSetobj_empty h ht _)]
      apply (storeContent_nullObj h p).mono _ fun _ _ _ => trivial
      intro _ s₁ h₁
      refine ⟨p.onNull F.nul, ⟨fun hne => absurd hname hne, fun _ hne => absurd hne hfile, fun _ _ => rfl, ?_⟩, h₁⟩
      intro hflat
      rw [Flat, Part.onNull_type, Part.onNull_ztable]
      exact hflat
  · apply (storePart_named h ht hname).mono _ fun _ _ _ => trivial
    intro _ s₁ h₁
    exact ⟨F.nul, ⟨fun _ => rfl, fun heq => absurd heq hname, fun heq => absurd heq hname, id⟩, h₁⟩

theorem storeParts_null (hflat : Flat F.nul) (ht : pobj ∈ F.tables) (parts : List Part) (h : Fenced F s) :
    Ends (fun _ s' => ∃ y, NullSteps parts F.nul y ∧ Fenced { F with nul := y } s') (fun _ _ => True)
      ((storeParts pobj parts).run s) := by
  induction parts generalizing F s with
  | nil => exact ⟨F.nul, .nil _, h⟩
  | cons p parts ih =>
      apply (storePart_null h hflat ht p).bind
      rintro _ s₁ ⟨y, hstep, h₁⟩
      apply (ih (F := { F with nul := y }) (hstep.flat hflat) ht h₁).mono _ fun _ _ _ => trivial
      rintro _ s₂ ⟨y', hsteps, h₂⟩
      exact ⟨y', .cons hstep hsteps, h₂⟩

end Runs

/-! ### The whole of `read_vardata` -/

/-- A division of the memory `b`, to whose globals a request may be adding. -/
structure IsOf (b : Store) (olds : List ObjId) (y : Val) (F : Fence) : Prop where
  base : F.base = b
  olds : F.olds = olds
  allowed : F.allowed = requestNames
  nul : F.nul = y

/-- Only what a request may set differs from `b`, and the null value is `y`. -/
def Around (b : Store) (olds : List ObjId) (y : Val) (s : Store) : Prop := ∃ F, IsOf b olds y F ∧ Fenced F s

section Whole

variable {b s : Store} {olds : List ObjId} {y : Val} {F : Fence} {o pobj : ObjId} {r : Input}

theorem IsOf.enter (hF : IsOf b olds y F) (o : ObjId) (oname : List Byte) (otype : Ty) :
    IsOf b olds y (F.enter o oname otype) :=
  ⟨hF.base, hF.olds, hF.allowed, hF.nul⟩

theorem IsOf.around (hF : IsOf b olds y F) (h : F.Kept s) : Around b olds y s := by
  obtain ⟨entries, names, tables, h⟩ := h
  exact ⟨{ F with entries := entries, names := names, tables := tables }, ⟨hF.base, hF.olds, hF.allowed, hF.nul⟩, h⟩

/-- A name of a request that is set for the first time. -/
theorem setGlobal_ends (hF : IsOf b olds nullval F) (h : Fenced F s) {oname : List Byte} (hname : oname ∈ requestNames)
    (hnew : oname ∉ F.names) (v : Setting) :
    Ends (fun o s' => F.base.objs.next ≤ o ∧ Fenced (F.enter o oname v.type) s')
      (fun _ s' => Around b olds nullval s') ((nspSetobj globalObj (some oname) v).run s) := by
  apply (nspSetobj_globals h (hF.allowed ▸ hname) hnew _ v).mono
  · exact fun _ _ h' => h'
  · exact fun _ _ h' => hF.around h'
  · rintro rfl
    exact absurd hname (by decide)

/-- The parts of a body that was read. -/
theorem Input.parts_of_posted {data : List Byte} (hpost : r.post = true) (hshort : r.isShort = true)
    (hdata : r.posted = some data) : r.parts = if r.isMultipart then
      match boundaryOf r.contentType with
      | some boundary => partsOf data boundary r.contentLength
      | none => []
    else [] := by
  rw [Input.parts, hpost, hshort, hdata]
  simp only [Bool.true_and]
  split
  · cases boundaryOf r.contentType <;> rfl
  · rfl

section Loop

variable {G E : Store → Prop} (hE : ∀ s, Around b olds nullval s → E s)
  (hnone : ∀ s, r.parts = [] → Around b olds nullval s → G s)
  (hparts : ∀ F s pobj, IsOf b olds nullval F → Fenced F s → pobj ∈ F.tables →
    Ends (fun _ s' => G s') (fun _ s' => E s') ((storeParts pobj r.parts).run s))

include hE hnone hparts

/-- A body around the loop over its parts, which keeps `G`, or ends with an error and `E`. -/
theorem readBody_ends {data : List Byte} (hpost : r.post = true) (hshort : r.isShort = true)
    (hdata : r.posted = some data) (hF : IsOf b olds nullval F) (h : Fenced F s) (hpobj : pobj ∈ F.tables)
    (hnames : F.names = [bytes "_POST", bytes "_GET"]) :
    Ends (fun _ s' => G s') (fun _ s' => E s') ((readBody pobj r data).run s) := by
  have hwhole := Input.parts_of_posted hpost hshort hdata
  rw [readBody]
  apply ((setGlobal_ends hF h (by decide) (by rw [hnames]; decide) (.string [])).mono (fun _ _ h => h)
    fun _ s' h => hE s' h).bind
  rintro cobj s₁ ⟨hle, h₁⟩
  have hF₁ := hF.enter cobj (bytes "POSTRAWDATA") .string
  have hdataOf : Ends (fun _ s' => Fenced (F.enter cobj (bytes "POSTRAWDATA") .string) s') (fun _ s' => E s')
      ((modVal cobj fun y => { y with d := .str data, size := data.length }).run s₁) := by
    apply Ends.mono (modVal_new h₁ hle ?_ ?_ (.inr ?_)) (fun _ _ h => h) fun _ s' h => hE s' (hF₁.around h.kept)
    · exact fun _ => rfl
    · exact fun _ _ => trivial
    · exact fun _ => rfl
  apply hdataOf.bind
  rintro - s₂ h₂
  split at hwhole
  · rename_i hmulti
    rw [if_pos hmulti]
    cases hbound : boundaryOf r.contentType with
    | none =>
        rw [hbound] at hwhole
        exact hnone s₂ hwhole ⟨_, hF₁, h₂⟩
    | some boundary =>
        rw [hbound] at hwhole
        dsimp only at hwhole ⊢
        apply ((setGlobal_ends hF₁ h₂ (by decide) (by simp only [Fence.enter, hnames]; decide)
          (.string boundary)).mono (fun _ _ h => h) fun _ s' h => hE s' h).bind
        rintro o s₃ ⟨-, h₃⟩
        rw [← hwhole]
        apply (hparts _ s₃ pobj (hF₁.enter o (bytes "POSTBOUNDARY") .string) h₃ hpobj).bind
        exact fun _ _ hG => hG
  · rename_i hmulti
    rw [if_neg hmulti]
    split
    · exact hnone s₂ hwhole ⟨_, hF₁, h₂⟩
    · apply ((storeVars_ends hF₁.nul hpobj _ h₂).mono (fun _ _ h => h) fun _ s' h => hE s' (hF₁.around h)).bind
      intro _ s₃ h₃
      exact hnone s₃ hwhole ⟨_, hF₁, h₃⟩

/-- `read_vardata` around the loop over the parts of a body. -/
theorem readVardata_ends (hb : Prepared b olds requestNames) :
    Ends (fun _ s' => G s') (fun _ s' => E s') ((readVardata r).run b) := by
  have hF : IsOf b olds nullval ⟨b, olds, requestNames, olds, [], [], nullval⟩ := ⟨rfl, rfl, rfl, rfl⟩
  rw [readVardata]
  apply ((setGlobal_ends hF hb.fenced (by decide) (by simp) .table).mono (fun _ _ h => h) fun _ s' h => hE s' h).bind
  rintro gobj s₁ ⟨-, h₁⟩
  have hF₁ := hF.enter gobj (bytes "_GET") .table
  have hnew : bytes "_POST" ∉ [bytes "_GET"] := by decide
  apply ((setGlobal_ends hF₁ h₁ (by decide) hnew .table).mono (fun _ _ h => h) fun _ s' h => hE s' h).bind
  rintro pobj s₂ ⟨-, h₂⟩
  have hF₂ := hF₁.enter pobj (bytes "_POST") .table
  apply ((storeVars_ends hF₂.nul (List.mem_cons_of_mem _ (List.mem_cons_self ..)) _ h₂).mono (fun _ _ h => h)
    fun _ s' h => hE s' (hF₂.around h)).bind
  intro _ s₃ h₃
  have hend : r.parts = [] → G s₃ := fun hnil => hnone s₃ hnil ⟨_, hF₂, h₃⟩
  split
  · rename_i hpost
    apply hend
    rw [Input.parts, (Bool.not_eq_true' _).mp hpost]
    rfl
  · rename_i hpost
    split
    · rename_i hshort
      apply hend
      rw [Input.parts, (Bool.not_eq_true' _).mp hshort, Bool.and_false]
      rfl
    · rename_i hshort
      cases hdata : r.posted with
      | none =>
          apply hend
          rw [Input.parts, hdata]
          split <;> rfl
      | some data =>
          have hbody := readBody_ends hE hnone hparts (by simpa using hpost) (by simpa using hshort) hdata hF₂ h₃
            (List.mem_cons_self ..) rfl
          apply hbody.bind
          exact fun _ _ hG => hG

end Loop

/-- An entry of the globals is one of the division. -/
theorem mem_entries (h : Fenced F s) (ho : InGlobals s o) : o ∈ F.entries := by
  induction ho with
  | @first v y f i l hlook hd =>
      obtain ⟨hptr, hy⟩ := Store.ptr_of_look hlook
      rw [h.globalPtr] at hptr
      have hlinks := h.links .globals v y hptr hy
      rw [hd] at hlinks
      exact (hlinks.1 f rfl).1
  | next _ hx hnext ih => exact ((h.linked .globals _ _ ih hx).1 _ hnext).1

/-- What is around the parts that may be written is as it was, exactly if the null value is. -/
theorem onlyOwn_iff_nullval (h : Around b olds y s) : OnlyOwn b olds s ↔ y = nullval := by
  obtain ⟨F, hF, h⟩ := h
  obtain ⟨rfl, rfl, hallowed, rfl⟩ := hF
  constructor
  · intro hown
    obtain ⟨v, yg, f, i, l, hlook, -, -, -, hne⟩ := h.ready.globals
    have hnull := hown.vals nullVal nullval h.ready.null.2 ?_
    · rw [h.null] at hnull
      exact Option.some.inj hnull
    · rw [(Store.ptr_of_look hlook).1]
      exact fun heq => hne (Option.some.inj heq)
  · intro hnul
    constructor
    · constructor
      · rw [Store.valType, h.null, hnul]
        rfl
      · intro v hv
        have hv : s.ptr nullObj = some v := hv
        rw [(Store.ptr_of_look h.look_null).1] at hv
        obtain rfl := Option.some.inj hv
        rw [Store.valType, h.null, hnul]
        rfl
    · intro v y hy hg
      by_cases hv : v = nullVal
      · subst hv
        rw [h.ready.null.2] at hy
        obtain rfl := Option.some.inj hy
        rw [h.null, hnul]
      · exact h.vals v y hy hv hg
    · exact fun o x hx ho => h.objs o x hx ho
    · exact fun o ho x hx => (h.olds o ho).2 x hx
    · intro v y hlook
      obtain ⟨f, i, l, hy⟩ := h.globals v y hlook
      exact ⟨some f, i, l, hy⟩
    · intro o ho
      by_cases hold : o ∈ F.olds
      · exact .inl hold
      · obtain ⟨-, x, hx, hname⟩ := h.new o (mem_entries h ho) hold
        exact .inr ⟨x, hx, hallowed ▸ h.names _ hname⟩

/-- A request leaves what is not its own as it was exactly if the parts of its body are harmless; and if no part
without a name has a file name or some length, also where its run ends with a fault. -/
theorem onlyOwn_iff (hb : Prepared b olds requestNames) (r : Input) :
    (∀ rc s, (readVardata r).run b = .ok rc s → (OnlyOwn b olds s ↔ r.Harmless)) ∧
      (r.Untouched → OnlyOwn b olds (final ((readVardata r).run b))) := by
  constructor
  · intro rc s hrun
    have hends : Ends (fun _ s' => ∃ y, NullSteps r.parts nullval y ∧ Around b olds y s') (fun _ _ => True)
        ((readVardata r).run b) := by
      apply readVardata_ends (E := fun _ => True) (fun _ _ => trivial) _ _ hb
      · intro s hnil h
        refine ⟨nullval, ?_, h⟩
        rw [hnil]
        exact .nil _
      · intro F s pobj hF h hpobj
        have hflat : Flat F.nul := by
          rw [hF.nul]
          exact ⟨by decide, rfl⟩
        apply (storeParts_null hflat hpobj r.parts h).mono _ fun _ _ _ => trivial
        rintro _ s' ⟨y, hsteps, h'⟩
        rw [hF.nul] at hsteps
        exact ⟨y, hsteps, { F with nul := y }, ⟨hF.base, hF.olds, hF.allowed, rfl⟩, h'⟩
    rw [hrun] at hends
    obtain ⟨y, hsteps, haround⟩ := hends
    rw [onlyOwn_iff_nullval haround, hsteps.harmless_iff]
    exact ⟨fun ⟨hfile, htext⟩ => ⟨hfile, htext⟩, fun h => ⟨h.noFile, h.noText⟩⟩
  · intro huntouched
    have hends : Ends (fun _ s' => Around b olds nullval s') (fun _ s' => Around b olds nullval s')
        ((readVardata r).run b) := by
      apply readVardata_ends (fun _ h => h) (fun _ _ h => h) _ hb
      intro F s pobj hF h hpobj
      apply (storeParts_untouched hF.nul hpobj huntouched h).mono
      · exact fun _ _ h' => ⟨F, hF, h'⟩
      · exact fun _ _ h' => hF.around h'
    apply (onlyOwn_iff_nullval _).mpr rfl
    cases hrun : (readVardata r).run b with
    | ok rc s =>
        rw [hrun] at hends
        exact hends
    | error e s =>
        rw [hrun] at hends
        exact hends

end Whole

/-! ### A new interpreter -/

/-- The globals as `read_header` makes them for a request. -/
def newGlobals : H Unit := do
  nspNewstate
  let hcobj ← nspSetobj globalObj (some (bytes "_COOKIE")) .table
  modVal hcobj fun y => { y with autosort := true }
  let hrobj ← nspSetobj globalObj (some (bytes "_HEADER")) .table
  modVal hrobj fun y => { y with autosort := true }
  let hsobj ← nspSetobj globalObj (some (bytes "_SERVER")) .table
  modVal hsobj fun y => { y with autosort := true }

/-- The memory in which the variables of a request are read. -/
def newStore : Store := final (newGlobals.run emptyStore)

/-- The entries of its globals. -/
def newEntries : List ObjId := List.range' 4 7

theorem prepared_newStore : Prepared newStore newEntries requestNames where
  linked := by
    have hall : (newEntries.all fun o => (newStore.objs.get o).any fun x =>
        (x.next.toList ++ x.prev.toList).all (newEntries.contains ·) &&
          requestNames.all fun w => nameCmp x.name w != 0) = true := by decide +kernel
    intro o ho
    have h := List.all_eq_true.mp hall o ho
    cases hx : newStore.objs.get o with
    | none =>
        rw [hx] at h
        cases h
    | some x =>
        rw [hx] at h
        simp only [Option.any_some, List.all_append, Option.mem_toList, List.all_eq_true, Bool.and_eq_true, bne_iff_ne, ne_eq,
          List.contains_iff_mem] at h
        exact ⟨x, rfl, h.1.1, h.1.2, h.2⟩
  globals := by
    have hglobals : ((newStore.look globalObj).toOption.any fun r =>
        r.2.type == .table && r.2.d == .table (some 8) (some 9) (some 7) && r.1 != nullVal) = true := by
      decide +kernel
    cases hlook : newStore.look globalObj with
    | error e =>
        rw [hlook] at hglobals
        cases hglobals
    | ok r =>
        rw [hlook] at hglobals
        simp only [Except.toOption, Option.any_some, Bool.and_eq_true, beq_iff_eq, bne_iff_ne] at hglobals
        obtain ⟨⟨htype, hd⟩, hne⟩ := hglobals
        refine ⟨r.1, r.2, 8, some 9, some 7, rfl, htype, hd, ?_, hne⟩
        rw [hd]
        simp [Data.Links, newEntries]
  notEntry := by decide
  ret := by decide +kernel
  null := by decide +kernel
  made := by
    have hsafe : NullSafe newStore := newGlobals.keeps _ nullSafe_emptyStore
    exact (hsafe (by decide +kernel)).made
  plain := by decide +kernel

/-- A request with a query string and a body with a named part. -/
def formRequest (name filename : String) : Input where
  queryString := bytes "a=1&b=%20"
  post := true
  contentLength := 200
  contentType := bytes "multipart/form-data; boundary=XX"
  maxPostSize := 0
  posted := some (bytes ("--XX\r\nContent-Disposition: form-data; name=\"" ++ name ++ "\"; filename=\"" ++ filename ++
    "\"\r\n\r\ntext\r\n--XX--\r\n"))

theorem onlyOwn_iff_form : ∃ rc s, (readVardata (formRequest "file" "a.txt")).run newStore = .ok rc s ∧
    OnlyOwn newStore newEntries s := by
  have hok : (match (readVardata (formRequest "file" "a.txt")).run newStore with
      | .ok _ _ => true
      | .error _ _ => false) = true := by decide +kernel
  have hlast : ((formRequest "file" "a.txt").parts.filter Part.isStray).getLast? = none := by decide +kernel
  cases hrun : (readVardata (formRequest "file" "a.txt")).run newStore with
  | error e s =>
      rw [hrun] at hok
      cases hok
  | ok rc s =>
      refine ⟨rc, s, rfl, ((onlyOwn_iff prepared_newStore _).1 rc s hrun).mpr ⟨by decide +kernel, ?_⟩⟩
      rw [hlast]
      exact fun _ h => nomatch h

/-- A file in a part without a name: the null value of the process becomes a number. -/
theorem nullval_stray : ∃ rc s y, (readVardata (formRequest "" "a.txt")).run newStore = .ok rc s ∧
    s.vals.get nullVal = some y ∧ y.type = .number ∧ ¬ NullIsNull s := by
  have hout : (match (readVardata (formRequest "" "a.txt")).run newStore with
      | .ok _ s => s.valType nullVal == some .number
      | .error _ _ => false) = true := by decide +kernel
  cases hrun : (readVardata (formRequest "" "a.txt")).run newStore with
  | error e s =>
      rw [hrun] at hout
      cases hout
  | ok rc s =>
      rw [hrun] at hout
      have htype : s.valType nullVal = some .number := by simpa using hout
      cases hy : s.vals.get nullVal with
      | none =>
          rw [Store.valType, hy] at htype
          cases htype
      | some y =>
          refine ⟨rc, s, y, rfl, hy, ?_, fun h => ?_⟩
          · rw [Store.valType, hy] at htype
            exact Option.some.inj htype
          · rw [h.1] at htype
            cases htype

end NullG.Httpd.Vardata
