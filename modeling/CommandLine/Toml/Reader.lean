import CommandLine.Numeral.Integer
import CommandLine.Toml.Document

/-!
# Reading configuration documents

A document is read line by line. A line is empty, opens a table by its header in brackets or gives a
key its value; a comment may end any line. Values are texts between double quotes with escapes,
texts between single quotes without, whole numbers and truth values.
-/

set_option autoImplicit false

namespace CommandLine.Toml

open Numeral

/-- Spaces and tabs. -/
def isGap (c : Char) : Bool := c = ' ' || c = '\t'

/-- What follows spaces and tabs. -/
def skipGap (cs : List Char) : List Char := cs.dropWhile isGap

/-- Control characters other than the tab, which no line may hold. -/
def isControl (c : Char) : Bool := (c.toNat < 32 && c ≠ '\t') || c.toNat = 127

/-- The character that stands for itself after a backslash, by its letter. -/
def escapeLetter? (c : Char) : Option Char :=
  if c = '"' || c = '\\' then some c
  else if c = 'b' then some (Char.ofNat 8)
  else if c = 't' then some '\t'
  else if c = 'n' then some '\n'
  else if c = 'f' then some (Char.ofNat 12)
  else if c = 'r' then some '\r'
  else none

/-- The value of a digit in a base up to sixteen. -/
def digitIn? (base : Nat) (c : Char) : Option Nat :=
  let value :=
    if c.isDigit then some (c.toNat - '0'.toNat)
    else if 'a' ≤ c && c ≤ 'f' then some (c.toNat - 'a'.toNat + 10)
    else if 'A' ≤ c && c ≤ 'F' then some (c.toNat - 'A'.toNat + 10)
    else none
  value.filter (· < base)

/-- The number that digits of a base write, read on after `value`. -/
def numberIn? (base value : Nat) : List Char → Option Nat
  | [] => some value
  | c :: cs => digitIn? base c >>= fun digit => numberIn? base (base * value + digit) cs

/-- The character with a code point given in hexadecimal digits, if there is one. -/
def codePoint? (digits : List Char) : Option Char :=
  match numberIn? 16 0 digits with
  | some n => if n.isValidChar then some (Char.ofNat n) else none
  | none => none

/-- Puts a character in front of a text that was read up to its closing quote. -/
def consRead (c : Option Char) (read : Option (List Char × List Char)) :
    Option (List Char × List Char) :=
  match c, read with
  | some c, some (text, rest) => some (c :: text, rest)
  | _, _ => none

/-- Reads a text with escapes up to its closing quote. -/
def readEscaped : List Char → Option (List Char × List Char)
  | [] => none
  | '"' :: rest => some ([], rest)
  | '\\' :: 'u' :: a :: b :: c :: d :: rest => consRead (codePoint? [a, b, c, d]) (readEscaped rest)
  | '\\' :: 'U' :: a :: b :: c :: d :: e :: f :: g :: h :: rest =>
    consRead (codePoint? [a, b, c, d, e, f, g, h]) (readEscaped rest)
  | '\\' :: c :: rest => consRead (escapeLetter? c) (readEscaped rest)
  | c :: rest => if isControl c then none else consRead (some c) (readEscaped rest)

/-- Reads a text without escapes up to its closing quote. -/
def readVerbatim : List Char → Option (List Char × List Char)
  | [] => none
  | '\'' :: rest => some ([], rest)
  | c :: rest => if isControl c then none else consRead (some c) (readVerbatim rest)

/-- The characters of a key without quotes. -/
def isKeyChar (c : Char) : Bool := c.isAlphanum || c = '_' || c = '-'

/-- Reads one key. -/
def readKey : List Char → Option (String × List Char)
  | '"' :: cs => (readEscaped cs).map fun (text, rest) => (String.ofList text, rest)
  | '\'' :: cs => (readVerbatim cs).map fun (text, rest) => (String.ofList text, rest)
  | cs =>
    let key := cs.takeWhile isKeyChar
    if key.isEmpty then none else some (String.ofList key, cs.dropWhile isKeyChar)

/-- Reads keys separated by dots, at most `count` of them. -/
def readKeys : Nat → List Char → Option (Path × List Char)
  | 0, _ => none
  | count + 1, cs =>
    match readKey (skipGap cs) with
    | none => none
    | some (key, rest) =>
      match skipGap rest with
      | '.' :: later => (readKeys count later).map fun (keys, rest) => (key :: keys, rest)
      | rest => some ([key], rest)

/-- How many keys a path can have. -/
def greatestDepth : Nat := 79

/-- Reads a path of keys. -/
def readPath (cs : List Char) : Option (Path × List Char) := readKeys greatestDepth cs

/-- The digits of a numeral without the lone underscores between them. -/
def withoutSeparators : List Char → Option (List Char)
  | [] => none
  | [c] => if c = '_' then none else some [c]
  | c :: '_' :: cs =>
    if c = '_' then none
    else match cs with
      | [] => none
      | _ => (withoutSeparators cs).map (c :: ·)
  | c :: cs => if c = '_' then none else (withoutSeparators cs).map (c :: ·)

/-- The whole number that a numeral writes: decimal with an optional sign and no needless zero, or
unsigned in base sixteen, eight or two. -/
def readNumeral? (cs : List Char) : Option Int :=
  let whole (base : Nat) (digits : List Char) : Option Int :=
    (withoutSeparators digits >>= numberIn? base 0).map Int.ofNat
  let number := match cs with
    | '0' :: 'x' :: digits => whole 16 digits
    | '0' :: 'o' :: digits => whole 8 digits
    | '0' :: 'b' :: digits => whole 2 digits
    | _ =>
      let (negative, digits) := splitSign cs
      match digits with
      | '0' :: _ :: _ => none
      | _ => (whole 10 digits).map fun n => if negative then -n else n
  number.filter fitsInteger

/-- Reads a scalar. -/
def readScalar : List Char → Option (Scalar × List Char)
  | '"' :: cs => (readEscaped cs).map fun (text, rest) => (.text (String.ofList text), rest)
  | '\'' :: cs => (readVerbatim cs).map fun (text, rest) => (.text (String.ofList text), rest)
  | cs =>
    let ends (c : Char) : Bool := !isGap c && c ≠ '#'
    let word := cs.takeWhile ends
    let rest := cs.dropWhile ends
    if String.ofList word = "true" then some (.truth true, rest)
    else if String.ofList word = "false" then some (.truth false, rest)
    else (readNumeral? word).map fun n => (.integer n, rest)

/-- Whether nothing but a comment follows. -/
def isLineEnd (cs : List Char) : Bool :=
  match skipGap cs with
  | [] => true
  | '#' :: comment => !comment.any isControl
  | _ => false

/-- One line of a document. -/
inductive Line where
  | empty
  | header (path : Path)
  | entry (key : Path) (scalar : Scalar)

/-- Reads the header of a table after its opening bracket. -/
def readHeader (cs : List Char) : Option Line :=
  match readPath cs with
  | some (path, ']' :: rest) => if isLineEnd rest then some (.header path) else none
  | _ => none

/-- Reads a key and its value. -/
def readEntry (cs : List Char) : Option Line :=
  match readPath cs with
  | some (key, '=' :: rest) =>
    match readScalar (skipGap rest) with
    | some (scalar, rest) => if isLineEnd rest then some (.entry key scalar) else none
    | none => none
  | _ => none

/-- Reads one line. -/
def readLine (cs : List Char) : Option Line :=
  if isLineEnd cs then some .empty
  else match skipGap cs with
    | '[' :: rest => readHeader rest
    | cs => readEntry cs

/-- The lines of a text. A line may end in a carriage return before its line feed. -/
def splitLines (line : List Char) : List Char → List (List Char)
  | [] => [line.reverse]
  | '\r' :: '\n' :: cs => line.reverse :: splitLines [] cs
  | '\n' :: cs => line.reverse :: splitLines [] cs
  | c :: cs => splitLines (c :: line) cs

/-- Adds lines to a document, with entries below the table of the last header. -/
def addLines (d : Document) (table : Path) : List (List Char) → Option Document
  | [] => some d
  | line :: lines =>
    match readLine line with
    | none => none
    | some .empty => addLines d table lines
    | some (.header path) => d.open? path >>= fun d => addLines d path lines
    | some (.entry key scalar) => d.insert? table key scalar >>= fun d => addLines d table lines

/-- The document that a text writes. A byte order mark at its start is no part of it. -/
def Document.ofText? (text : String) : Option Document :=
  let cs := match text.toList with
    | c :: cs => if c.toNat = 0xFEFF then cs else c :: cs
    | [] => []
  addLines {} [] (splitLines [] cs)

end CommandLine.Toml
