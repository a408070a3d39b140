/-
NSP op codes and the operator table (`opcodes.h`, `opcodes.c`), with the lexical
byte classes of `nsplib.h` and `opcodes.c`.

An op is one byte. The table `oplist` has a row for each of the values 0..255;
the rows 0..186 and 255 are `{ NULL, OP_UNDEFINED, -1 }`, and each of the rows
187..254 holds its own index as its value, so the model keeps those 68 rows
only (`oplist_value` states the indexing). Priorities are `uchar`: the `-1` of
the rows that are no operators is 255.
-/

import Mathlib.Algebra.Ring.Int.Defs
import Mathlib.Algebra.Ring.Nat
import Mathlib.Data.List.Basic

namespace NullG.Nsp

/-- `unsigned char`. -/
abbrev Byte := UInt8

/-- The byte of a character constant of the source. -/
def ch (c : Char) : Byte := c.toNat.toUInt8

/-- The bytes of a string constant of the source, without its NUL. -/
def bytes (s : String) : List Byte := s.toList.map ch

/-! ### Op codes (`opcodes.h`) -/

abbrev opUndefined : Byte := 255
abbrev opPobrace : Byte := 254
abbrev opPoparen : Byte := 253
abbrev opPobracket : Byte := 252
abbrev opPcbrace : Byte := 251
abbrev opPcparen : Byte := 250
abbrev opPcbracket : Byte := 249
abbrev opPcomma : Byte := 248
abbrev opPsemicol : Byte := 247
abbrev opPdot : Byte := 246
abbrev opPlquote : Byte := 245
abbrev opPsquote : Byte := 244
abbrev opPdquote : Byte := 243
abbrev opPat : Byte := 242
abbrev opPhash : Byte := 241
abbrev opMeq : Byte := 240
abbrev opMadd : Byte := 239
abbrev opMsub : Byte := 238
abbrev opMmul : Byte := 237
abbrev opMdiv : Byte := 236
abbrev opMaddeq : Byte := 235
abbrev opMsubeq : Byte := 234
abbrev opMmuleq : Byte := 233
abbrev opMdiveq : Byte := 232
abbrev opMaddadd : Byte := 231
abbrev opMsubsub : Byte := 230
abbrev opMmod : Byte := 229
abbrev opMand : Byte := 228
abbrev opMor : Byte := 227
abbrev opMxor : Byte := 226
abbrev opMland : Byte := 225
abbrev opMlor : Byte := 224
abbrev opMlnot : Byte := 223
abbrev opMceq : Byte := 222
abbrev opMceeq : Byte := 221
abbrev opMcne : Byte := 220
abbrev opMcle : Byte := 219
abbrev opMcge : Byte := 218
abbrev opMclt : Byte := 217
abbrev opMcgt : Byte := 216
abbrev opMshiftr : Byte := 215
abbrev opMshiftl : Byte := 214
abbrev opMcolon : Byte := 213
abbrev opMquestion : Byte := 212
abbrev opKbreak : Byte := 211
abbrev opKcont : Byte := 210
abbrev opKret : Byte := 209
abbrev opKdelete : Byte := 208
abbrev opKnew : Byte := 207
abbrev opKnamespace : Byte := 206
abbrev opKclass : Byte := 205
abbrev opKfunc : Byte := 204
abbrev opKglob : Byte := 203
abbrev opKlocal : Byte := 202
abbrev opKvar : Byte := 201
abbrev opKif : Byte := 200
abbrev opKelse : Byte := 199
abbrev opKfor : Byte := 198
abbrev opKforeach : Byte := 197
abbrev opKdo : Byte := 196
abbrev opKwhile : Byte := 195
abbrev opKswitch : Byte := 194
abbrev opKcase : Byte := 193
abbrev opKdefault : Byte := 192
abbrev opKtry : Byte := 191
abbrev opKcatch : Byte := 190
abbrev opKfinally : Byte := 189
abbrev opKthrow : Byte := 188
abbrev opKexit : Byte := 187
abbrev opLinenum : Byte := 186
abbrev opLabel : Byte := 185
abbrev opStrdata : Byte := 184
abbrev opEstrdata : Byte := 183
abbrev opNumdata : Byte := 182

/-- `OP_ISPUNC`. -/
def opIspunc (o : Byte) : Bool := opPhash ≤ o && o ≤ opPobrace

/-- `OP_ISMATH`. -/
def opIsmath (o : Byte) : Bool := opMquestion ≤ o && o ≤ opMeq

/-- `OP_ISKEY`. -/
def opIskey (o : Byte) : Bool := opKexit ≤ o && o ≤ opKbreak

/-- `OP_ISEND`. -/
def opIsend (o : Byte) : Bool := opPsemicol ≤ o && o ≤ opPcbrace

/-! ### The operator table -/

/-- `optab`. -/
structure Optab where
  name : List Byte
  value : Byte
  priority : Byte
  deriving DecidableEq

private def row (name : String) (value priority : Byte) : Optab := ⟨bytes name, value, priority⟩

/-- The keyword rows of `oplist` (187..211). -/
def keywords : List Optab :=
  [row "exit" opKexit 255, row "throw" opKthrow 255, row "finally" opKfinally 255,
   row "catch" opKcatch 255, row "try" opKtry 255, row "default" opKdefault 255,
   row "case" opKcase 255, row "switch" opKswitch 255, row "while" opKwhile 255,
   row "do" opKdo 255, row "foreach" opKforeach 255, row "for" opKfor 255,
   row "else" opKelse 255, row "if" opKif 255, row "var" opKvar 255,
   row "local" opKlocal 255, row "global" opKglob 255, row "function" opKfunc 255,
   row "class" opKclass 255, row "namespace" opKnamespace 255, row "new" opKnew 255,
   row "delete" opKdelete 255, row "return" opKret 255, row "continue" opKcont 255,
   row "break" opKbreak 255]

/-- The operator rows of `oplist` (212..240). -/
def mathops : List Optab :=
  [row "?" opMquestion 1, row ":" opMcolon 1, row "<<" opMshiftl 3, row ">>" opMshiftr 3,
   row ">" opMcgt 2, row "<" opMclt 2, row ">=" opMcge 2, row "<=" opMcle 2,
   row "!=" opMcne 2, row "===" opMceeq 2, row "==" opMceq 2, row "!" opMlnot 1,
   row "||" opMlor 1, row "&&" opMland 1, row "^" opMxor 5, row "|" opMor 5,
   row "&" opMand 5, row "%" opMmod 4, row "--" opMsubsub 3, row "++" opMaddadd 3,
   row "/=" opMdiveq 0, row "*=" opMmuleq 0, row "-=" opMsubeq 0, row "+=" opMaddeq 0,
   row "/" opMdiv 4, row "*" opMmul 4, row "-" opMsub 3, row "+" opMadd 3, row "=" opMeq 0]

/-- The punctuation rows of `oplist` (241..254). -/
def puncops : List Optab :=
  [row "#" opPhash 255, row "@" opPat 255, row "\"" opPdquote 255, row "'" opPsquote 255,
   row "\x60" opPlquote 255, row "." opPdot 255, row ";" opPsemicol 255, row "," opPcomma 255,
   row "]" opPcbracket 255, row ")" opPcparen 255, row "\x7d" opPcbrace 255,
   row "[" opPobracket 255, row "(" opPoparen 255, row "\x7b" opPobrace 255]

/-- `oplist` from row 187 on. -/
def oplist : List Optab := keywords ++ mathops ++ puncops

/-- Every row holds its own index: `oplist[i].value == i`. -/
theorem oplist_value : oplist.map Optab.value = (List.range 68).map fun i => (187 + i).toUInt8 := by
  decide

/-- `oplist[op].priority`. -/
def priority (op : Byte) : Byte :=
  match oplist.find? (·.value == op) with
  | some r => r.priority
  | none => 255

/-- The search loops of `n_getop` and `n_decompose_sub`: the value of the first
row of that name. -/
def findop (rows : List Optab) (name : List Byte) : Option Byte :=
  (rows.find? (·.name == name)).map (·.value)

/-- `n_iskeyword`. -/
def nIskeyword (name : List Byte) : Byte := (findop keywords name).getD 0

/-- `n_getsym`. -/
def nGetsym (op : Byte) : List Byte :=
  if op = opStrdata then bytes "string"
  else if op = opEstrdata then bytes "estring"
  else if op = opNumdata then bytes "number"
  else if op = opLabel then bytes "label"
  else match oplist.find? (·.value == op) with
    | some r => r.name
    | none => bytes "(unknown)"

/-! ### Lexical classes -/

/-- `nc_isdigit`. -/
def ncIsdigit (c : Byte) : Bool := ch '0' ≤ c && c ≤ ch '9'

/-- `nc_isalpha`. -/
def ncIsalpha (c : Byte) : Bool := (ch 'A' ≤ c && c ≤ ch 'Z') || (ch 'a' ≤ c && c ≤ ch 'z')

/-- `nc_isspace`. -/
def ncIsspace (c : Byte) : Bool := c == ch '\r' || c == ch '\n' || c == ch '\t' || c == ch ' '

/-- `IS_MATHOP`. -/
def isMathop (c : Byte) : Bool :=
  c == ch '=' || c == ch '+' || c == ch '-' || c == ch '*' || c == ch '/' || c == ch '%' ||
  c == ch '&' || c == ch '|' || c == ch '^' || c == ch '!' || c == ch '<' || c == ch '>' ||
  c == ch ':' || c == ch '?'

/-- `IS_PUNCOP`. -/
def isPuncop (c : Byte) : Bool :=
  c == ch '(' || c == ch ')' || c == ch ',' || c == 0x7b || c == 0x7d || c == ch ';' ||
  c == ch '.' || c == ch '[' || c == ch ']'

/-- A quote character: single, double or back quote. -/
def isQuote (c : Byte) : Bool := c == ch '\'' || c == ch '"' || c == 0x60

/-- `IS_DATA`. -/
def isData (c : Byte) : Bool := c == ch '@' || isQuote c || ncIsdigit c

/-- `IS_LABEL`. -/
def isLabel (c : Byte) : Bool := c == ch '_' || c == ch '$' || ncIsalpha c

/-- `MAX_OBJNAMELEN`. -/
abbrev maxObjnamelen : Nat := 64

end NullG.Nsp
