/-
The header block of a response (`flushheader` of `httpd_io.c`).

Each line is formatted into a buffer of its own, which holds 2046 bytes. So the block has the lines that it should have
just where every entry of `_HEADER` fits there and has no line end in it.
-/

import NullG.Httpd.Response
import NullG.Mail.Lines
import NullG.Mail.Numbers

namespace NullG.Httpd

open NullG.Nsp NullG.Mail

/-! ### The text -/

/-- The loop of `flushheader` over `tmpnam`: the letter behind a `_` is left as it is. -/
def dashes : List Byte → List Byte
  | [] => []
  | c :: p =>
      if c = ch '_' then
        match p with
        | d :: p => if ncIsalpha d then ch '-' :: d :: dashes p else ch '-' :: dashes (d :: p)
        | [] => [ch '-']
      else lower c :: dashes p

/-- The name of an entry, as it is sent. -/
def fieldName (name : List Byte) : List Byte :=
  match dashes (name.take 63) with
  | [] => []
  | c :: p => toupper c :: p

/-- The line of an entry of `_HEADER`, if it has one. -/
def entryLine : List Byte × HeaderValue → Option (List Byte)
  | (name, .str text) => some (fieldName name ++ bytes ": " ++ cstr text)
  | (name, .num q) => some (fieldName name ++ bytes ": " ++ nNtoa q true 6)
  | _ => none

/-- `ctype`: there is a line for `CONTENT_TYPE`. -/
def hasCtype (t : HeaderTable) : Bool :=
  t.any fun e => e.1.take 63 == bytes "CONTENT_TYPE" && (entryLine e).isSome

/-- The lines behind those of the entries. -/
def fixedLines (h : Head) : List (List Byte) :=
  [bytes "Server: NullLogic GroupServer 1.3.30", bytes "Status: " ++ decimal (h.status.bmod (2 ^ 16))] ++
    (h.contentLength.map fun n => bytes "Content-Length: " ++ decimal n).toList ++
    if hasCtype h.entries then [] else [bytes "Content-Type: text/plain"]

/-- The status line. -/
def statusLine (h : Head) : List Byte := h.protocol ++ bytes " " ++ decimal (h.status.bmod (2 ^ 16)) ++ bytes " OK"

/-- The lines that a header should have. -/
def Head.lines (h : Head) : List (List Byte) := statusLine h :: (h.entries.filterMap entryLine ++ fixedLines h)

/-- `tcp_fprintf` of a line. -/
def fprintfLine (line : List Byte) : List Byte := (line ++ bytes "\r\n").take 2046

/-- What `flushheader` sends. -/
def Head.block (h : Head) : List Byte := (h.lines ++ [[]]).flatMap fprintfLine

section

variable {h : Head} {r : Reply}

/-! ### Numbers -/

end

end NullG.Httpd
