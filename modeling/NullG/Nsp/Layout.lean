/-
Layouts of a program text: lexemes with blanks and comments between them.

This is the abstract side of the tokenizer. A `Lexeme` is a token as it is written, a
`Blank` one blank or one complete comment, and a `Layout` a text made of them. The
structures carry their well-formedness, so every layout is a text a user can write.

`Layout.read` says which lexemes `n_decompose_sub` reads of a layout, from three habits of
the tokenizer: a run of `n_skipblank` ends behind a block comment that no blank follows;
the gap behind a number or a string gets one such run and every other gap two; and an
operator of one byte takes a slash behind it as its second byte.
-/

import NullG.Nsp.LexerBounds

namespace NullG.Nsp

/-! ### Blanks and comments -/

/-- The text of a block comment: no NUL in it, and no closing mark. -/
def BlockText : List Byte → Prop
  | [] => True
  | b :: p => b ≠ 0 ∧ ¬ (b = ch '*' ∧ p.head? = some (ch '/')) ∧ BlockText p

/-- The text of a line comment: no NUL and no line end in it. -/
def LineText (p : List Byte) : Prop := ∀ b ∈ p, b ≠ 0 ∧ b ≠ ch '\n' ∧ b ≠ ch '\r'

/-- A blank, a `#` or `//` comment with its line end (a line feed or a carriage return), or
a block comment. -/
inductive Blank where
  | space (b : Byte) (h : ncIsspace b = true)
  | line (hash : Bool) (text : List Byte) (h : LineText text) (feed : Bool)
  | block (text : List Byte) (h : BlockText text)

/-- The bytes of a blank. -/
def Blank.text : Blank → List Byte
  | .space b _ => [b]
  | .line hash text _ feed =>
      (if hash then [ch '#'] else [ch '/', ch '/']) ++ text ++ [if feed then ch '\n' else ch '\r']
  | .block text _ => [ch '/', ch '*'] ++ text ++ [ch '*', ch '/']

/-- The blank ends a line with a line feed, so that a line marker is made for it. -/
def Blank.feeds : Blank → Bool
  | .space b _ => b == ch '\n'
  | .line _ _ _ feed => feed
  | .block _ _ => false

/-- The blank is a comment that opens with a slash. -/
def Blank.slash : Blank → Bool
  | .space _ _ => false
  | .line hash _ _ _ => !hash
  | .block _ _ => true

/-- What stands between two lexemes. -/
abbrev Gap := List Blank

/-- The bytes of a gap. -/
def Gap.text (g : Gap) : List Byte := g.flatMap Blank.text

/-- A gap split where a run of `n_skipblank` ends: behind a block comment, unless a blank
follows it. -/
def Gap.run : Gap → Gap × Gap
  | [] => ([], [])
  | .block t h :: .space b h' :: g =>
      let r := Gap.run g
      (.block t h :: .space b h' :: r.1, r.2)
  | .block t h :: g => ([.block t h], g)
  | i :: g =>
      let r := Gap.run g
      (i :: r.1, r.2)

/-- Some blank of the gap makes a line marker. -/
def Gap.feeds (g : Gap) : Bool := g.any Blank.feeds

/-! ### Lexemes -/

/-- The number of bytes of a name, at most. -/
def wordRoom : Nat := maxObjnamelen - 1

/-- A token as it is written: a name or keyword, a number, a string (verbatim behind an `@`),
an operator, or a punctuation mark. -/
inductive Lexeme where
  | word (c : Byte) (name : List Byte) (h : isLabel c = true)
      (h' : ∀ d ∈ name, (isLabel d || ncIsdigit d) = true) (hlen : name.length ≤ wordRoom)
  | num (c : Byte) (text : List Byte) (h : ncIsdigit c = true)
      (h' : ∀ d ∈ text, (ncIsdigit d || d == ch '.') = true)
  | str (q : Byte) (verbatim : Bool) (body : List Byte) (h : isQuote q = true)
      (h' : Closes q verbatim (body ++ [q]) []) (hlen : body.length < 2 ^ 64)
  | math (row : Optab) (h : row ∈ mathops)
  | punc (c : Byte) (h : isPuncop c = true)

namespace Lexeme

/-- The bytes of a lexeme. -/
def spell : Lexeme → List Byte
  | word c name _ _ _ => c :: name
  | num c text _ _ => c :: text
  | str q verbatim body _ _ _ => (if verbatim then [ch '@'] else []) ++ q :: (body ++ [q])
  | math row _ => row.name
  | punc c _ => [c]

/-- A number or a string. -/
def isLiteral : Lexeme → Bool
  | num _ _ _ _ => true
  | str _ _ _ _ _ _ => true
  | _ => false

/-- The op that `n_getop` finds. -/
def op : Lexeme → Byte
  | word c name _ _ _ => (findop keywords (c :: name)).getD opLabel
  | num _ _ _ _ => opNumdata
  | str q _ _ _ _ _ => quoteOp q
  | math row _ => row.value
  | punc c _ => (findop puncops [c]).getD opUndefined

/-- The `prevop` that the lexeme leaves behind: of a string, its quote. -/
def prevop : Lexeme → Byte
  | str q _ _ _ _ _ => q
  | t => t.op

/-- The byte would be read as part of the lexeme before it. -/
def takes : Lexeme → Byte → Bool
  | word _ _ _ _ _, c => isLabel c || ncIsdigit c
  | num _ _ _ _, c => ncIsdigit c || c == ch '.'
  | str _ _ _ _ _ _, _ => false
  | math row _, c =>
      match row.name with
      | [a] => if a = ch '=' then c == ch '=' else isMathop c
      | [a, _] => a == ch '=' && c == ch '='
      | _ => false
  | punc _ _, _ => false

end Lexeme

/-- The text of a string with its escapes resolved; an escape that is not known is left out. -/
def unescaped : List Byte → List Byte
  | [] => []
  | [c] => if c = ch '\\' then [] else [c]
  | c :: d :: p =>
      if c = ch '\\' then (match unescape d with | some b => [b] | none => []) ++ unescaped p
      else c :: unescaped (d :: p)

/-- The token made of a lexeme behind `prev`: a keyword behind a dot is a label. -/
def Lexeme.tok (prev : Byte) : Lexeme → Tok
  | .word c name _ _ _ =>
      match findop keywords (c :: name) with
      | some k => if prev = opPdot then .op opLabel (c :: name) else .op k (nGetsym k)
      | none => .op opLabel (c :: name)
  | .num c text _ _ => .op opNumdata (c :: text)
  | .str q verbatim body _ _ _ => .op (quoteOp q) (if verbatim then body else unescaped body)
  | .math row _ => .op row.value (nGetsym row.value)
  | .punc c h => .op (Lexeme.punc c h).op (nGetsym (Lexeme.punc c h).op)

/-! ### Layouts -/

/-- Lexemes, each with the gap behind it. -/
abbrev Items := List (Lexeme × Gap)

/-- The bytes of the items. -/
def Items.text (is : Items) : List Byte := is.flatMap fun i => i.1.spell ++ i.2.text

/-- No lexeme runs into what follows it: with nothing between two lexemes, the first does not
take the first byte of the second, and no slash stands before a comment that opens with one
(two slashes open a comment, and so does a slash with a star). -/
def Items.Apart : Items → Prop
  | [] => True
  | (t, g) :: is =>
      (g = [] → ∀ c, (Items.text is).head? = some c → t.takes c = false) ∧
      (t.spell = [ch '/'] → (g.head?.any Blank.slash) = false) ∧ Items.Apart is

/-- A program text: lexemes with gaps before, between and behind them. -/
structure Layout where
  lead : Gap
  items : Items
  apart : items.Apart

/-- The source text. -/
def Layout.text (L : Layout) : List Byte := L.lead.text ++ L.items.text

/-- The lexemes of the text. -/
def Layout.lexemes (L : Layout) : List Lexeme := L.items.map Prod.fst

/-- The lexeme is an operator of one byte that a comment follows at once: it takes the slash. -/
def glued (t : Lexeme) (g : Gap) : Bool := t.takes (ch '/') && g.head?.any Blank.slash

/-- A lexeme that is read: whether a line marker stands directly before it and directly
behind it in the token table, as far as the gap behind it makes them. -/
structure Read where
  lexeme : Lexeme
  before : Bool
  after : Bool

/-- The items that are read: up to an operator that takes the slash of a comment, or to a gap
that is not skipped whole. -/
def Items.read : Items → List Read
  | [] => []
  | (t, g) :: is =>
      if glued t g then []
      else if t.isLiteral then
        ⟨t, false, g.run.1.feeds⟩ :: if g.run.2.isEmpty then Items.read is else []
      else
        -- the first run comes before the token is stored, the second with the next token
        ⟨t, g.run.1.feeds, g.run.2.run.1.feeds⟩ ::
          if g.run.2.run.2.isEmpty then Items.read is else []

/-- The lexemes that are read of a layout. -/
def Layout.read (L : Layout) : List Read := if L.lead.run.2.isEmpty then L.items.read else []

end NullG.Nsp
