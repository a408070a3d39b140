/-
Text of the mail servers (`format.c` and the C library).
-/

import NullG.Lib.Pieces
import NullG.Nsp.Value

namespace NullG.Mail

open NullG.Nsp NullG.Lib

/-- `LOWER`, and the case that `strcasecmp` ignores. -/
def lower (c : Byte) : Byte := if ch 'A' ≤ c && c ≤ ch 'Z' then c + 32 else c

/-- Two strings are equal but for case. -/
def sameText (a b : List Byte) : Bool := a.map lower == b.map lower

/-- `snprintf(buf, size, "%s", str)`. -/
def snprintf (size : Nat) (str : List Byte) : List Byte := str.take (size - 1)

/-- `\r` or `\n`. -/
def isEol (c : Byte) : Bool := c == ch '\r' || c == ch '\n'

/-- `striprn`. -/
def striprn (line : List Byte) : List Byte := (line.reverse.dropWhile isEol).reverse

/-- The blanks before an argument are skipped. -/
def skipBlanks (p : List Byte) : List Byte := p.dropWhile fun c => c == ch ' ' || c == ch '\t'

/-- `strncasecmp(line, str, strlen(str)) == 0`. -/
def startsWith (line : List Byte) (str : String) : Bool := sameText (line.take str.length) (bytes str)

/-- The local part and the domain of an address, at the first `@`. -/
def splitAddr (addr : List Byte) : List Byte × List Byte :=
  if addr.contains (ch '@') then (addr.takeWhile (· != ch '@'), (addr.dropWhile (· != ch '@')).drop 1)
  else (addr, bytes "localhost")

/-- A number with zeros before it, as `%04d` prints it. -/
def padded (width n : Nat) : List Byte :=
  List.replicate (width - (natDigits n).length) (ch '0') ++ natDigits n

/-- `%d`. -/
def decimal (n : Int) : List Byte := if n < 0 then ch '-' :: natDigits n.natAbs else natDigits n.toNat

/-- `atoi`, of a `long` that is clipped and then cast to `int`. -/
def atoi (str : List Byte) : Int :=
  let str := str.dropWhile fun c => c == ch ' ' || (9 ≤ c && c ≤ 13)
  let value (p : List Byte) : Int :=
    ((p.takeWhile ncIsdigit).foldl (fun n c => n * 10 + (c - ch '0').toNat) 0 : Nat)
  let n : Int :=
    match str with
    | [] => 0
    | c :: p => if c = ch '-' then max (-value p) (-2 ^ 63) else min (value (if c = ch '+' then p else str)) (2 ^ 63 - 1)
  n.bmod (2 ^ 32)

/-- `fixslashes`. -/
def fixslashes (path : List Byte) : List Byte := path.map fun c => if c = ch '\\' then ch '/' else c

/-- The end of a line. -/
def isNl (c : Byte) : Bool := c == ch '\n'

/-- What calls of `fgets(buf, size, fp)` read from a file of these bytes, up to the first that returns NULL. -/
def fgetsAll (size : Nat) (content : List Byte) : List (List Byte) :=
  (pieces isNl (size - 1) content).map cstr

end NullG.Mail
