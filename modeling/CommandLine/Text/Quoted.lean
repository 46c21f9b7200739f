import CommandLine.Text.Visible

/-!
# Quoted text

Text shown to a developer stands between double quotes, a character between single ones. The quote
in use, the backslash and four control characters have short escapes; every other character that is
not visible is written as its code point in braces.
-/

set_option autoImplicit false

namespace CommandLine.Text

/-- A code point in braces, with as few hexadecimal digits as it needs. -/
def codePointEscape (c : Char) : List Char :=
  ['\\', 'u', '\x7b'] ++ Nat.toDigits 16 c.toNat ++ ['\x7d']

/-- One character as it is written between two `quote` characters. -/
def escapeChar (quote c : Char) : List Char :=
  if c = '\x00' then ['\\', '0']
  else if c = '\t' then ['\\', 't']
  else if c = '\r' then ['\\', 'r']
  else if c = '\n' then ['\\', 'n']
  else if c = quote || c = '\\' then ['\\', c]
  else if isVisible c then [c]
  else codePointEscape c

/-- A text between double quotes. -/
def quoted (s : String) : String :=
  String.ofList ('"' :: s.toList.flatMap (escapeChar '"') ++ ['"'])

/-- A character between single quotes. -/
def quotedChar (c : Char) : String := String.ofList ('\'' :: escapeChar '\'' c ++ ['\''])

/-- Items between brackets, separated by commas. -/
def bracketed (items : List String) : String := "[" ++ ", ".intercalate items ++ "]"

/-- A list of texts, each quoted. -/
def quotedList (texts : List String) : String := bracketed (texts.map quoted)

/-- Entries between braces, separated by commas; nothing stands between the braces of none. -/
def braced (entries : List String) : String := "\x7b" ++ ", ".intercalate entries ++ "\x7d"

/-- An optional value, named as present or absent. -/
def optional (shown : Option String) : String :=
  match shown with
  | none => "None"
  | some s => "Some(" ++ s ++ ")"

/-- A named record with its fields in order. An open record has fields that are not shown. -/
def record (name : String) (fields : List (String × String)) (isOpen : Bool) : String :=
  let shown := fields.map (fun field => field.1 ++ ": " ++ field.2) ++ if isOpen then [".."] else []
  name ++ " \x7b " ++ ", ".intercalate shown ++ " \x7d"

end CommandLine.Text
