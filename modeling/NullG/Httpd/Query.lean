/-
The variables in the request line (`read_header` and `read_vardata` of `httpd_http.c`).

The whole URI is decoded before it is split at `?`, `=` and `&`, and the values are decoded again. So a value gets
to its variable if nothing in it is a separator or is decoded a second time, and a name if it has no `=`. An
unsorted table takes names that are numerals of one number for each other.
-/

import Mathlib.Algebra.Order.BigOperators.Group.List
import Mathlib.Algebra.Order.Group.Nat
import Mathlib.Data.List.Nodup
import Mathlib.Data.List.Pairwise
import Mathlib.Data.List.Perm.Subperm
import NullG.Httpd.Format
import NullG.Mail.Lines

namespace NullG.Httpd

open NullG.Nsp NullG.Mail

/-- `toupper`. -/
def toupper (c : Byte) : Byte := if ch 'a' ≤ c && c ≤ ch 'z' then c - 32 else c

/-- Upper case. -/
def upper (text : List Byte) : List Byte := text.map toupper

/-! ### Unsorted tables -/

/-- The entries of a table without `NST_AUTOSORT` that holds strings, in their order. -/
abbrev Table := List (List Byte × List Byte)

section

variable (nval : List Byte → Int)

/-- The `nval` of a name, where `nval` is the number that `n_aton` makes of a numeral. -/
def numeral (name : List Byte) : Int := if allDigits name then nval name else -1

theorem numeral_aton : numeral (fun name => Num.trunc (nAton name)) = nameNval := rfl

/-- The comparison of `n_locateobj` finds that an entry has the name that is searched. -/
def found (oname name : List Byte) : Bool :=
  if -1 < numeral nval oname then numeral nval name == numeral nval oname else name == oname

/-- `nsp_setstr` of a name that is not empty: the entry that is found, or a new one at the end. -/
def setEntry (oname value : List Byte) : Table → Table
  | [] => [(oname, value)]
  | (name, old) :: t =>
      if found nval oname name then (name, value) :: t else (name, old) :: setEntry oname value t

/-- `nsp_setstr`. There is no entry with an empty name. -/
def setStr (t : Table) (oname value : List Byte) : Table := if oname = [] then t else setEntry nval oname value t

end

/-! ### The query string -/

/-- The loop of `read_vardata` over a name, with as many rounds as are left: the name in upper case, and what is
behind it. -/
def readName : Nat → List Byte → List Byte × List Byte
  | 0, p1 => ([], p1)
  | _ + 1, [] => ([], [])
  | i + 1, c :: p1 => if c = ch '=' then ([], p1) else (toupper c :: (readName i p1).1, (readName i p1).2)

/-- What `read_vardata` reads of a query string: names, of which the buffer holds 63 bytes, and values before they
are decoded. There are no more of them than bytes. -/
def queryVars : Nat → List Byte → List (List Byte × List Byte)
  | 0, _ => []
  | _, [] => []
  | n + 1, p1 =>
      let (name, p1) := readName maxObjnamelen p1
      (name.take (maxObjnamelen - 1), p1.takeWhile (· != ch '&')) ::
        queryVars n ((p1.dropWhile (· != ch '&')).drop 1)

/-- What a list of settings makes of a table; the values are decoded where they are stored. -/
def setAll (nval : List Byte → Int) (t l : Table) : Table :=
  l.foldl (fun t v => setStr nval t v.1 (cstr (decodeurl v.2))) t

/-- `_GET`, as `read_vardata` makes it of a query string. -/
def readVardata (nval : List Byte → Int) (query : List Byte) : Table := setAll nval [] (queryVars query.length query)

/-! ### The request line -/

/-- The method, the URI and the protocol of a request line, which are not empty. -/
def requestLine (line : List Byte) : Option (List Byte × List Byte × List Byte) :=
  let space := fun c => c != ch ' '
  let pt2 := (line.dropWhile space).drop 1
  let pt3 := (pt2.dropWhile space).drop 1
  if !line.contains (ch ' ') || !pt2.contains (ch ' ') then none
  else if (line.takeWhile space).isEmpty || (pt2.takeWhile space).isEmpty || pt3.isEmpty then none
  else some (upper (line.takeWhile space), pt2.takeWhile space, pt3)

/-- A variable of a query. -/
structure Var where
  name : List Byte
  value : List Byte
  nonempty : name ≠ []
  short : name.length ≤ 63
  noZero : 0 ∉ value

/-- Variables with different names. -/
structure Query where
  vars : List Var
  distinct : (vars.map fun v => upper v.name).Nodup

/-- The variables, each in an encoding, as they are joined. -/
def joined (encode : List Byte → List Byte) : List Var → List Byte
  | [] => []
  | [v] => encode v.name ++ ch '=' :: encode v.value
  | v :: w :: vars => encode v.name ++ ch '=' :: (encode v.value ++ ch '&' :: joined encode (w :: vars))

/-- The parts of a request line around the query. -/
structure Request where
  method : List Byte
  path : List Byte
  protocol : List Byte
  isMethod : upper method = bytes "GET" ∨ upper method = bytes "POST"
  noSpace : ch ' ' ∉ path
  /-- the `?` behind the path is the first one, also when the URI is decoded -/
  isPath : ch '?' ∉ decodeurl path ∧ 0 ∉ decodeurl path
  isProtocol : protocol ≠ [] ∧ striprn protocol = protocol ∧ 0 ∉ protocol

/-- The request line. -/
def Request.line (r : Request) (q : Query) : List Byte :=
  r.method ++ ch ' ' :: (r.path ++ ch '?' :: joined percentEncode q.vars) ++ ch ' ' :: r.protocol ++ bytes "\r\n"

/-- Two names are numerals of one number. -/
def Clash (nval : List Byte → Int) (p p' : List Byte) : Prop := -1 < numeral nval p ∧ numeral nval p' = numeral nval p

/-- A query whose variables are read as they were sent. -/
structure Query.Clean (nval : List Byte → Int) (q : Query) : Prop where
  names : ∀ v ∈ q.vars, ch '=' ∉ v.name ∧ 0 ∉ v.name
  values : ∀ v ∈ q.vars, ch '&' ∉ v.value ∧ ch '%' ∉ v.value ∧ ch '+' ∉ v.value
  numerals : (q.vars.map fun v => upper v.name).Pairwise fun p p' => ¬ Clash nval p p'

/-! ### Names and values -/

section

variable {c : Byte} {p query name value : List Byte} {n : Nat}

/-- What a list of names and values takes, with a separator behind each of them. -/
def weight (l : Table) : Nat := (l.map fun v => v.1.length + v.2.length + 2).sum

end

/-! ### Tables -/

section

variable {nval : List Byte → Int} {t : Table} {oname value : List Byte}

/-- The names of a table, of which none is found for another. -/
def Apart (nval : List Byte → Int) (t : Table) : Prop := t.Pairwise fun e d => found nval d.1 e.1 = false

end

/-! ### Queries -/

section

variable {nval : List Byte → Int}

theorem not_found {p p' : List Byte} (hne : p ≠ p') (h : ¬ Clash nval p p') : found nval p' p = false := by
  unfold found
  split
  · rename_i hpos
    rw [beq_eq_false_iff_ne]
    exact fun heq => h ⟨heq ▸ hpos, heq.symm⟩
  · exact beq_eq_false_iff_ne.mpr hne

variable (q : Query)

end

end NullG.Httpd
