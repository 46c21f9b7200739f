import Mathlib.Order.Bounds.Defs
import CommandLine.Cursor.Bytes

/-!
# What cursors keep

A cursor is moved to a position, over characters or over blanks, or something is read from it, and a
reader that rejects the line leaves it where it stopped. Each of these operations keeps the line, so
after any of them the cursor stands between two characters of it; and all but moving to a position
go over a share of what was left, which is the text that a reader answers or converts.

* `source_run`, `reaches_run` — what one operation keeps, and where it goes;
* `source_perform` — what any operations keep;
* `between_of_passed` — the text between two cursors;
* `exists_between_of_run` — an answer comes from the text between the two places;
* `operations_keep_invariant` — all of this for the cursor after any operations;
* `performBytes?_eq` — a byte offset to which the same is done is that of the cursor, and never
  inside a character where a text is needed.
-/

set_option autoImplicit false

namespace CommandLine

/-- The text of a line between two byte positions. -/
def Between (line : String) (start stop : Nat) (part : String) : Prop :=
  ∃ front back, line = front ++ part ++ back ∧ front.utf8ByteSize = start ∧
    (front ++ part).utf8ByteSize = stop

namespace Cursor

/-! ## Operations -/

/-- What can be read from a cursor, with the type of the answer. -/
inductive Reader : Type → Type
  | character : Reader Char
  | word : Reader String
  | remaining : Reader String
  | string : Reader String
  | number : Reader Float
  | integer : Reader Int
  | truth : Reader Bool

namespace Reader

/-- What a reader answers, and where it stops. -/
def run : {β : Type} → Reader β → Cursor → Reading β
  | _, .character, c => c.readChar
  | _, .word, c => (.ok c.word, c.skipWord)
  | _, .remaining, c => (.ok c.restText, c.skipAll)
  | _, .string, c => c.readString
  | _, .number, c => c.readNumber
  | _, .integer, c => c.readInteger
  | _, .truth, c => c.readTruth

/-- The answer for which a text stands. -/
def value? : {β : Type} → Reader β → String → Option β
  | _, .character, part => match part.toList with
    | [ch] => some ch
    | _ => none
  | _, .word, part | _, .remaining, part | _, .string, part => some part
  | _, .number, part => (Numeral.readDecimal? part).filter Float.isFinite
  | _, .integer, part => Numeral.readInteger? part
  | _, .truth, part => truthOfWord? part

/-- Whether a reader finds a quote that it takes for an opening one. -/
def Unquotes : {β : Type} → Reader β → Cursor → Prop
  | _, .string, c => c.peek? = some '"' ∨ c.peek? = some '\''
  | _, _, _ => False

end Reader

/-- What can be done with a cursor. -/
inductive Operation
  | seek (position : Nat)
  | advance (count : Nat)
  | skipBlank
  | read {β : Type} (reader : Reader β)

namespace Operation

/-- Where an operation leaves the cursor, also when it fails. -/
def run : Operation → Cursor → Cursor
  | .seek position, c => c.seek position
  | .advance count, c => c.advance count
  | .skipBlank, c => c.skipBlank
  | .read reader, c => (reader.run c).2

/-- Every operation but moving to a position. -/
def IsForward : Operation → Prop
  | .seek _ => False
  | _ => True

end Operation

/-- Where operations leave the cursor, one after the other. -/
def perform (ops : List Operation) (c : Cursor) : Cursor := ops.foldl (fun c op => op.run c) c

variable {β : Type} {c d : Cursor} {line : String}

theorem readChar_reached (c : Cursor) : c.Reaches c.readChar.2 := by
  unfold readChar
  split
  · exact .refl c
  · exact advance_reached 1 c

/-- Reading only moves forward. -/
theorem Reader.reaches_run (reader : Reader β) (c : Cursor) : c.Reaches (reader.run c).2 := by
  cases reader with
  | character => exact readChar_reached c
  | word => exact skipWord_reached c
  | remaining => exact skipAll_reached c
  | string => exact readString_reached c
  | number | integer | truth => exact readWordAs_reached _ _ c

/-- Only moving to a position may go back. -/
theorem Operation.reaches_run (op : Operation) (hop : op.IsForward) (c : Cursor) :
    c.Reaches (op.run c) := by
  cases op with
  | seek position => exact hop.elim
  | advance count => exact advance_reached count c
  | skipBlank => exact skipBlank_reached c
  | read reader => exact reader.reaches_run c

/-- No operation leaves the line. -/
theorem Operation.source_run (op : Operation) (c : Cursor) : (op.run c).source = c.source := by
  cases op with
  | seek position => exact source_seek position c
  | advance count => exact (reaches_run (.advance count) trivial c).source_eq
  | skipBlank => exact (reaches_run .skipBlank trivial c).source_eq
  | read reader => exact (reaches_run (.read reader) trivial c).source_eq

theorem source_perform (ops : List Operation) (c : Cursor) : (perform ops c).source = c.source := by
  induction ops generalizing c with
  | nil => rfl
  | cons op ops ih => exact (ih (op.run c)).trans (op.source_run c)

/-! ## What was read -/

/-- What was passed on the way from one cursor to another is the text between them. -/
theorem between_of_passed {taken : List Char} (hc : c.source = line.toList)
    (hrest : c.rest = taken ++ d.rest) (hpassed : d.passed = taken.reverse ++ c.passed) :
    Between line c.position d.position (String.ofList taken) := by
  refine ⟨String.ofList c.passed.reverse, String.ofList d.rest, ?_, ?_, ?_⟩
  · rw [← String.ofList_append, ← String.ofList_append, List.append_assoc, ← hrest]
    exact (String.ofList_toList.symm.trans (congrArg String.ofList hc.symm))
  · rw [utf8ByteSize_ofList, byteCount_reverse]
    rfl
  · rw [← String.ofList_append, utf8ByteSize_ofList, position, hpassed]
    simp [Nat.add_comm]

theorem between_word (hc : c.source = line.toList) :
    Between line c.position c.skipWord.position c.word :=
  between_of_passed hc List.takeWhile_append_dropWhile.symm rfl

theorem between_restText (hc : c.source = line.toList) :
    Between line c.position c.skipAll.position c.restText :=
  between_of_passed hc (List.append_nil _).symm rfl

/-- A reader that converts a word converts the text that it passes. -/
theorem exists_between_of_readWordAs {convert : String → Option β} {reason : ValueFault}
    {value : β} (hc : c.source = line.toList)
    (h : c.readWordAs convert reason = (.ok value, d)) :
    ∃ part, Between line c.position d.position part ∧ convert part = some value := by
  obtain ⟨-, hconvert, rfl⟩ := readWordAs_eq_ok_iff.mp h
  exact ⟨c.word, between_word hc, hconvert⟩

/-- An answer comes from the text that was passed, if no quotes were taken off it. -/
theorem exists_between_of_run {reader : Reader β} {value : β} (hc : c.source = line.toList)
    (hquote : ¬reader.Unquotes c) (h : reader.run c = (.ok value, d)) :
    ∃ part, Between line c.position d.position part ∧ reader.value? part = some value := by
  cases reader with
  | character =>
    simp only [Reader.run, readChar] at h
    split at h
    · cases h
    · rename_i rest hrest
      cases h
      have hbetween : Between line c.position (c.advance 1).position (String.ofList [value]) :=
        between_of_passed hc (by simp [advance, hrest]) (by simp [advance, hrest])
      exact ⟨_, hbetween, by simp [Reader.value?]⟩
  | word =>
    cases h
    exact ⟨c.word, between_word hc, rfl⟩
  | remaining =>
    cases h
    exact ⟨c.restText, between_restText hc, rfl⟩
  -- An unquoted string is a word, so what is read is what stands between the two offsets.
  | string =>
    simp only [Reader.run, readString] at h
    split at h
    · cases h
    · rename_i ch rest hrest
      have hch : ¬(ch = '"' ∨ ch = '\'') := by simpa [Reader.Unquotes, peek?, hrest] using hquote
      rw [if_neg (by simpa using hch)] at h
      cases h
      exact ⟨c.word, between_word hc, rfl⟩
  | number | integer | truth => exact exists_between_of_readWordAs hc h

/-! ## The same by bytes -/

/-- What a reader answers at a byte offset, and where it stops, if there is a text behind it. -/
def Reader.runBytes? : {β : Type} → Reader β → ByteCursor → Option (ByteReading β)
  | _, .character, b => b.readChar?
  | _, .word, b => b.readUnquoted?.map fun (part, after) => (.ok part, after)
  | _, .remaining, b => b.readRemaining?.map fun (part, after) => (.ok part, after)
  | _, .string, b => b.readString?
  | _, .number, b =>
    b.readWordAs? (fun w => (Numeral.readDecimal? w).filter Float.isFinite) .number
  | _, .integer, b => b.readWordAs? Numeral.readInteger? .integer
  | _, .truth, b => b.readWordAs? truthOfWord? .truth

/-- Where an operation leaves a byte offset, also when it fails. -/
def Operation.runBytes? : Operation → ByteCursor → Option ByteCursor
  | .seek position, b => some (b.setPosition position)
  | .advance count, b => b.advance? count
  | .skipBlank, b => b.skipBlank?
  | .read reader, b => (reader.runBytes? b).map Prod.snd

/-- Where operations leave a byte offset, one after the other. -/
def performBytes? (ops : List Operation) (b : ByteCursor) : Option ByteCursor :=
  ops.foldlM (fun b op => op.runBytes? b) b

/-- A reader at the offset of a cursor finds its text, and answers and stops as at the cursor. -/
theorem Reader.runBytes?_bytes (reader : Reader β) (c : Cursor) :
    reader.runBytes? c.bytes = some ((reader.run c).map id bytes) := by
  cases reader with
  | character => exact readChar?_bytes c
  | word => simp [runBytes?, run, readUnquoted?_bytes]
  | remaining => simp [runBytes?, run, readRemaining?_bytes]
  | string => exact readString?_bytes c
  | number | integer | truth =>
    rw [runBytes?]
    exact readWordAs?_bytes _ _ c

/-- And so does every operation. -/
theorem Operation.runBytes?_bytes (op : Operation) (c : Cursor) :
    op.runBytes? c.bytes = some (op.run c).bytes := by
  cases op with
  | seek position => exact congrArg some (setPosition_bytes position c)
  | advance count => exact advance?_bytes count c
  | skipBlank => exact skipBlank?_bytes c
  | read reader => simp [runBytes?, run, reader.runBytes?_bytes c]

/-- **Offsets follow cursors.** A byte offset that is moved and read from as a cursor is, from the
start of a line, always has a text behind it to read, and is the cursor's position on the same
line. -/
theorem performBytes?_eq (line : String) (ops : List Operation) :
    performBytes? ops ⟨line, 0⟩ = some (perform ops (ofString line)).bytes := by
  have hrun (c : Cursor) : performBytes? ops c.bytes = some (perform ops c).bytes := by
    induction ops generalizing c with
    | nil => rfl
    | cons op ops ih =>
      rw [performBytes?, List.foldlM_cons, op.runBytes?_bytes c]
      exact ih (op.run c)
  have hstart : (ofString line).bytes = ⟨line, 0⟩ := by
    simp [bytes, Cursor.line, source, ofString, position, byteCount]
  rw [← hstart]
  exact hrun _

/-! ## What is kept -/

/-- **What cursors keep.** Whatever was done with a cursor on a line, rejected readings included:
the line is the same, and the position is one of the line's own, not behind its end and not inside a
character. From there, moving to any position goes to the last such place at or before it, no other
operation moves back, and what a reader answers without taking quotes off it is the text between the
old and the new position, or what that text is converted to. -/
theorem operations_keep_invariant (line : String) (ops : List Operation) {c : Cursor}
    (hc : perform ops (ofString line) = c) :
    c.line = line ∧ c.position ≤ line.utf8ByteSize ∧
      (⟨c.position⟩ : String.Pos.Raw).IsValid line ∧
      (∀ position, IsGreatest
        {boundary | (⟨boundary⟩ : String.Pos.Raw).IsValid line ∧ boundary ≤ position}
        (c.seek position).position) ∧
      (∀ op : Operation, op.IsForward → c.position ≤ (op.run c).position) ∧
      ∀ {β : Type} (reader : Reader β) (value : β) (d : Cursor), ¬reader.Unquotes c →
        reader.run c = (.ok value, d) →
          ∃ part, Between line c.position d.position part ∧ reader.value? part = some value := by
  have hsource : c.source = line.toList := hc ▸ source_perform ops (ofString line)
  have hvalid := isValid_position hsource
  refine ⟨?line, hvalid.le_rawEndPos, hvalid, ?seek, ?forward, ?read⟩
  case line => rw [Cursor.line, hsource, String.ofList_toList]
  case seek =>
    intro position
    have hseek : (c.seek position).source = line.toList := (source_seek position c).trans hsource
    exact ⟨⟨isValid_position hseek, position_seek_le position c⟩,
      fun _ hboundary => le_position_seek hsource hboundary.1 hboundary.2⟩
  case forward => exact fun op hop => (op.reaches_run hop c).position_le
  case read => exact fun reader value d => exists_between_of_run hsource

/-- Moved into a character, the cursor stands in front of it, and reads it from there. -/
theorem operations_keep_invariant_seek :
    perform [.read .word, .seek 2] (ofString "né 7") = ⟨['n'], ['é', ' ', '7']⟩ ∧
      ∃ part, Between "né 7" 1 3 part ∧ Reader.word.value? part = some "é" := by
  have hc : perform [.read .word, .seek 2] (ofString "né 7") = ⟨['n'], ['é', ' ', '7']⟩ := by
    decide
  obtain ⟨-, -, -, -, -, hread⟩ := operations_keep_invariant "né 7" _ hc
  exact ⟨hc, hread .word "é" ⟨['é', 'n'], [' ', '7']⟩ id rfl⟩

end Cursor

end CommandLine
