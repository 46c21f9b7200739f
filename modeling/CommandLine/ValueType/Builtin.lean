import CommandLine.ValueType.Basic

/-!
# Built-in parameter types

Choices, truth values, whole and decimal numbers with optional inclusive bounds, words with optional
bounds on their length, and the rest of the line. Choices and words understand quotes; numbers and
truth values are read up to the next blank.
-/

set_option autoImplicit false

namespace CommandLine

open Numeral

/-- The parameter types that come with the library. -/
inductive BuiltinType where
  /-- One word out of a fixed list. -/
  | choice (choices : List String) (caseSensitive : Bool)
  /-- `true` or `false`. -/
  | truth
  /-- A whole number, at least and at most the bounds given. -/
  | integer (least greatest : Option Int)
  /-- A decimal number, at least and at most the bounds given. -/
  | decimal (least greatest : Option Float)
  /-- A word whose number of characters is at least and at most the bounds given. -/
  | word (least greatest : Option Nat)
  /-- Everything that is left on the line. -/
  | greedy

namespace BuiltinType

/-- The greatest finite decimal number. -/
def greatestDecimal : Float := Float.ofScientific 17976931348623157 false 292

/-- The greatest length that a word can have: the greatest number of 64 bits. -/
def greatestLength : Nat := 18446744073709551615

/-- The choice that a word names, in its declared spelling. -/
def findChoice? (choices : List String) (caseSensitive : Bool) (w : String) : Option String :=
  choices.find? fun declared =>
    if caseSensitive then declared = w else Text.equalIgnoringBasicCase declared w

/-- Goes on with what a reader answered; what is refused afterwards is found at `start`. -/
def checked {β : Type} (start : Cursor) (read : Reading β)
    (accept : β → Except Cause Value) : Reading Value :=
  match read with
  | (.error f, c) => (.error f, c)
  | (.ok x, c) =>
    match accept x with
    | .ok value => (.ok value, c)
    | .error kind => (.error ⟨kind, start.position, none⟩, c)

/-- Accepts a choice. -/
def acceptChoice (choices : List String) (caseSensitive : Bool) (w : String) :
    Except Cause Value :=
  match findChoice? choices caseSensitive w with
  | some declared => .ok (.text declared)
  | none => .error (.invalidValue w (.choice choices caseSensitive))

/-- Accepts a whole number within its bounds. -/
def acceptInteger (least greatest : Option Int) (n : Int) : Except Cause Value :=
  let least := least.getD leastInteger
  let greatest := greatest.getD greatestInteger
  if n < least || greatest < n then
    .error (.invalidValue (toString n) (.outOfRange (Float.ofInt least) (Float.ofInt greatest)))
  else .ok (.integer n)

/-- Accepts a decimal number within its bounds. -/
def acceptDecimal (least greatest : Option Float) (x : Float) : Except Cause Value :=
  let least := least.getD (-greatestDecimal)
  let greatest := greatest.getD greatestDecimal
  if x < least || greatest < x then
    .error (.invalidValue (Layout.plain.write x) (.outOfRange least greatest))
  else .ok (.decimal x)

/-- Accepts a word of a length within its bounds. -/
def acceptWord (least greatest : Option Nat) (w : String) : Except Cause Value :=
  let least := least.getD 0
  let greatest := greatest.getD greatestLength
  if w.length < least || greatest < w.length then
    .error (.invalidValue w (.wrongSize least greatest w.length))
  else .ok (.text w)

/-- Reads one value at the cursor. -/
def parse : BuiltinType → Cursor → Reading Value
  | choice choices caseSensitive, c => checked c c.readString (acceptChoice choices caseSensitive)
  | truth, c => checked c c.readTruth fun b => .ok (.truth b)
  | integer least greatest, c => checked c c.readInteger (acceptInteger least greatest)
  | decimal least greatest, c => checked c c.readNumber (acceptDecimal least greatest)
  | word least greatest, c => checked c c.readString (acceptWord least greatest)
  | greedy, c => checked c c.readAll fun s => .ok (.text s)

/-- The traits of a built-in type. -/
def traits : BuiltinType → TypeTraits
  | choice choices _ => { kind := .text, suggestions := choices }
  | truth =>
    { kind := .truth, priority := 10, suggestions := ["true", "false"]
      zero := some (.truth false) }
  | integer _ _ => { kind := .integer, priority := 20, zero := some (.integer 0) }
  | decimal _ _ => { kind := .decimal, priority := 30, zero := some (.decimal 0.0) }
  | word _ _ => { kind := .text, priority := 50 }
  | greedy => { kind := .text, priority := 100, greedy := true }

theorem checked_snd {β : Type} (start : Cursor) (read : Reading β)
    (accept : β → Except Cause Value) : (checked start read accept).2 = read.2 := by
  unfold checked
  split
  · rfl
  · split <;> rfl

/-- A value is what was read and then accepted. -/
theorem checked_eq_ok_iff {β : Type} {start after : Cursor} {read : Reading β}
    {accept : β → Except Cause Value} {value : Value} :
    checked start read accept = (.ok value, after) ↔
      ∃ x, read = (.ok x, after) ∧ accept x = .ok value := by
  obtain ⟨answer, c⟩ := read
  cases answer with
  | error f => simp [checked]
  | ok x =>
    simp only [Prod.mk.injEq, Except.ok.injEq, and_assoc, exists_eq_left']
    cases haccept : accept x <;> simp [checked, haccept, and_comm]

/-- Built-in types only move forward. -/
theorem parse_reached (t : BuiltinType) (c : Cursor) : c.Reaches (t.parse c).2 := by
  cases t <;> simp only [parse, checked_snd]
  case choice | word => exact Cursor.readString_reached c
  case greedy => exact Cursor.readAll_reached c
  all_goals exact Cursor.readWordAs_reached _ _ c

/-- A built-in type as a parameter type. -/
def toValueType {α : Type} (t : BuiltinType) : ValueType α where
  traits := t.traits
  parse _ c := t.parse c
  parse_reached _ c := t.parse_reached c

end BuiltinType

end CommandLine
