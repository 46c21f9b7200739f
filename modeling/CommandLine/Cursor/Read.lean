import CommandLine.Cursor.Basic
import CommandLine.Rejection
import CommandLine.Text.Lowercase
import CommandLine.Numeral.Decimal

/-!
# Reading from a cursor

A reader answers what it read and where it stopped, also when it rejects the line. A quoted word is
grouped by `"` or `'`; inside it a backslash stands before the quote or another backslash and
nothing else, and after the closing quote a blank or the end must follow.

* `readWordAs_eq_ok_iff` — what a reader that converts a word answers;
* `readString_reached`, `readWordAs_reached` — readers only move forward.
-/

set_option autoImplicit false

namespace CommandLine

/-- What a reader answers, and the cursor at which it stopped. -/
abbrev Reading (β : Type) := Except Rejection β × Cursor

namespace Cursor

/-- A rejection at the cursor. -/
def reject {β : Type} (c : Cursor) (cause : Cause) : Reading β :=
  (.error ⟨cause, c.position, none⟩, c)

/-- Reads one character. -/
def readChar (c : Cursor) : Reading Char :=
  match c.rest with
  | [] => c.reject .endOfInput
  | ch :: _ => (.ok ch, c.advance 1)

/-- Reads the body of a quoted word up to its closing quote. `value` is what was read, latest
character first, and `opening` the position of the opening quote. -/
def readBody (quote : Char) (opening : Nat) (value passed : List Char) :
    List Char → Reading String
  | [] => (.error ⟨.unclosedQuote, opening, none⟩, ⟨passed, []⟩)
  | '\\' :: [] => (.error ⟨.unclosedQuote, opening, none⟩, ⟨'\\' :: passed, []⟩)
  | '\\' :: escaped :: rest =>
    if escaped = quote || escaped = '\\' then
      readBody quote opening (escaped :: value) (escaped :: '\\' :: passed) rest
    else
      (.error ⟨.invalidEscape escaped, byteCount passed, none⟩, ⟨escaped :: '\\' :: passed, rest⟩)
  | c :: rest =>
    if c = quote then
      let after : Cursor := ⟨c :: passed, rest⟩
      if after.atBreak then (.ok (String.ofList value.reverse), after)
      else after.reject .expectedWhitespace
    else readBody quote opening (c :: value) (c :: passed) rest

/-- A character that is neither the last nor followed by another one as a backslash is none. -/
theorem ne_backslash {ch : Char} {rest : List Char} (hlast : ch = '\\' → rest = [] → False)
    (hmore : ∀ escaped later, ch = '\\' → rest = escaped :: later → False) : ch ≠ '\\' := by
  intro heq
  cases rest with
  | nil => exact hlast heq rfl
  | cons escaped later => exact hmore escaped later heq rfl

/-- A character that is not a backslash stands for itself or closes the word. -/
theorem readBody_cons {quote ch : Char} {opening : Nat} {value passed rest : List Char}
    (hch : ch ≠ '\\') : readBody quote opening value passed (ch :: rest) =
      if ch = quote then
        if (⟨ch :: passed, rest⟩ : Cursor).atBreak then
          (.ok (String.ofList value.reverse), ⟨ch :: passed, rest⟩)
        else (⟨ch :: passed, rest⟩ : Cursor).reject .expectedWhitespace
      else readBody quote opening (ch :: value) (ch :: passed) rest := by
  rw [readBody.eq_def]
  split
  · contradiction
  · simp_all
  · simp_all
  · simp_all

/-- Reads one word; a quote at its start groups everything up to the matching quote. -/
def readString (c : Cursor) : Reading String :=
  match c.rest with
  | [] => c.reject .endOfInput
  | ch :: rest =>
    if ch = '"' || ch = '\'' then readBody ch c.position [] (ch :: c.passed) rest
    else (.ok c.word, c.skipWord)

/-- Reads one word without regard to quotes and converts it. -/
def readWordAs {β : Type} (convert : String → Option β) (reason : ValueFault) (c : Cursor) :
    Reading β :=
  if c.word = "" then c.reject .endOfInput
  else match convert c.word with
    | some value => (.ok value, c.skipWord)
    | none => (.error ⟨.invalidValue c.word reason, c.position, none⟩, c.skipWord)

/-- A reader that converts a word answers what the word stands for, and stops behind it. -/
theorem readWordAs_eq_ok_iff {β : Type} {convert : String → Option β} {reason : ValueFault} {x : β}
    {c after : Cursor} : c.readWordAs convert reason = (.ok x, after) ↔
      c.word ≠ "" ∧ convert c.word = some x ∧ after = c.skipWord := by
  unfold readWordAs
  by_cases hempty : c.word = ""
  · simp [hempty, reject]
  · cases hconvert : convert c.word <;> simp [hempty, eq_comm (a := after)]

/-- Reads a finite decimal number. -/
def readNumber : Cursor → Reading Float :=
  readWordAs (fun w => (Numeral.readDecimal? w).filter Float.isFinite) .number

/-- Reads a whole number that fits. -/
def readInteger : Cursor → Reading Int := readWordAs Numeral.readInteger? .integer

/-- The truth value that a word names, in any case. -/
def truthOfWord? (w : String) : Option Bool :=
  if Text.equalIgnoringBasicCase w "true" then some true
  else if Text.equalIgnoringBasicCase w "false" then some false
  else none

/-- Reads a truth value. -/
def readTruth : Cursor → Reading Bool := readWordAs truthOfWord? .truth

/-- Reads everything that is left; there has to be something. -/
def readAll (c : Cursor) : Reading String :=
  if c.atEnd then c.reject .endOfInput else (.ok c.restText, c.skipAll)

theorem readBody_reached (quote : Char) (opening : Nat) (value passed rest : List Char) :
    (⟨passed, rest⟩ : Cursor).Reaches (readBody quote opening value passed rest).2 := by
  fun_induction readBody quote opening value passed rest with
  | case1 => exact .refl _
  | case2 => exact ⟨['\\'], rfl, rfl⟩
  | case3 value passed escaped rest _ ih =>
    exact Reaches.trans ⟨['\\', escaped], rfl, rfl⟩ ih
  | case4 value passed escaped rest => exact ⟨['\\', escaped], rfl, rfl⟩
  | case5 => exact ⟨[_], rfl, rfl⟩
  | case6 => exact ⟨[_], rfl, rfl⟩
  | case7 => exact Reaches.trans ⟨[_], rfl, rfl⟩ ‹_›

/-- Reading a word only moves forward. -/
theorem readString_reached (c : Cursor) : c.Reaches c.readString.2 := by
  unfold readString
  split
  · exact .refl c
  · rename_i ch rest hr
    split
    · exact Reaches.trans ⟨[ch], by simp [hr], rfl⟩
        (readBody_reached ch c.position [] (ch :: c.passed) rest)
    · exact skipWord_reached c

/-- Reading a converted word only moves forward. -/
theorem readWordAs_reached {β : Type} (convert : String → Option β) (reason : ValueFault)
    (c : Cursor) : c.Reaches (c.readWordAs convert reason).2 := by
  unfold readWordAs
  split
  · exact .refl c
  · split <;> exact skipWord_reached c

/-- Reading everything only moves forward. -/
theorem readAll_reached (c : Cursor) : c.Reaches c.readAll.2 := by
  unfold readAll
  split
  · exact .refl c
  · exact skipAll_reached c

end Cursor

end CommandLine
