import CommandLine.Cursor.Read

/-!
# Cursors by bytes

A place in a line can also be kept as the line and a byte offset into it. Nothing then says that the
offset is between two characters: every read takes the text behind it, which is there only if it is,
and adds the bytes of what it goes over, and a move to any offset is brought back to the start of
the character that it would split. A `Cursor` has no such state to guard, and this is why: started
from the offset of a cursor, each operation finds its text, answers as the cursor does and stops at
the offset where the cursor stops.

* `splitBytes?_eq_some_iff` — the offsets at which a text can be split;
* `rest?_bytes`, `since?_bytes`, `since?_bytes_eq_since` — the text behind a cursor's offset, and
  between two of them;
* `setPosition_bytes` — moving to an offset is moving to the last place at or before it;
* `advance?_bytes`, `skipBlank?_bytes`, `readUnquoted?_bytes`, `readRemaining?_bytes`,
  `readChar?_bytes`, `readString?_bytes`, `readWordAs?_bytes` — what the other operations do.
-/

set_option autoImplicit false

namespace CommandLine

/-- A text cut behind a number of bytes, unless that is inside a character or behind the end. -/
def splitBytes? : List Char → Nat → Option (List Char × List Char)
  | cs, 0 => some ([], cs)
  | [], _ + 1 => none
  | c :: cs, bytes + 1 =>
    if c.utf8Size ≤ bytes + 1 then
      (splitBytes? cs (bytes + 1 - c.utf8Size)).map fun (front, back) => (c :: front, back)
    else none

/-- A text is cut in two where the first part has that many bytes. -/
theorem splitBytes?_eq_some_iff {cs front back : List Char} {bytes : Nat} :
    splitBytes? cs bytes = some (front, back) ↔ cs = front ++ back ∧ byteCount front = bytes := by
  -- The first part loses the character that is cut off, so it is not fixed in the induction.
  fun_induction splitBytes? cs bytes generalizing front with
  | case1 cs =>
    cases front with
    | nil => simp [byteCount, eq_comm]
    | cons c front => simp [byteCount, Nat.ne_of_gt (Char.utf8Size_pos c)]
  | case2 bytes =>
    cases front with
    | nil => simp [byteCount]
    | cons c front => simp
  | case3 c cs bytes hle ih =>
    cases front with
    | nil => simp [byteCount]
    | cons d front =>
      simp only [Option.map_eq_some_iff, Prod.exists, Prod.mk.injEq, List.cons.injEq,
        List.cons_append, byteCount]
      constructor
      · rintro ⟨front', back', hsplit, ⟨rfl, rfl⟩, rfl⟩
        obtain ⟨rfl, hcount⟩ := ih.mp hsplit
        exact ⟨⟨rfl, rfl⟩, by omega⟩
      · rintro ⟨⟨rfl, rfl⟩, hcount⟩
        exact ⟨front, back, ih.mpr ⟨rfl, by omega⟩, ⟨rfl, rfl⟩, rfl⟩
  | case4 c cs bytes hlt =>
    cases front with
    | nil => simp [byteCount]
    | cons d front =>
      simp only [reduceCtorEq, List.cons_append, List.cons.injEq, byteCount, false_iff]
      rintro ⟨⟨rfl, rfl⟩, hcount⟩
      omega

/-- A line and a byte offset into it. -/
@[ext] structure ByteCursor where
  line : String
  position : Nat
deriving DecidableEq

/-- What a reader answers, and the offset at which it stopped. -/
abbrev ByteReading (β : Type) := Except Rejection β × ByteCursor

/-- The last offset at or before another one that is not inside a character of the line. -/
def boundaryBefore (line : String) : Nat → Nat
  | 0 => 0
  | position + 1 =>
    if (⟨position + 1⟩ : String.Pos.Raw).IsValid line then position + 1
    else boundaryBefore line position

namespace ByteCursor

/-- The text between two offsets. -/
def slice? (start stop : Nat) (b : ByteCursor) : Option (List Char) := do
  let (front, _) ← splitBytes? b.line.toList stop
  let (_, part) ← splitBytes? front start
  return part

/-- What is left of the line. -/
def rest? (b : ByteCursor) : Option (List Char) := b.slice? b.position b.line.utf8ByteSize

/-- The text between an earlier offset and this one. -/
def since? (start : Nat) (b : ByteCursor) : Option String :=
  (b.slice? (min start b.position) b.position).map String.ofList

/-- Moves to an offset, or to the end if that is behind it, or to the start of the character that it
is inside of. -/
def setPosition (position : Nat) (b : ByteCursor) : ByteCursor :=
  { b with position := boundaryBefore b.line (min position b.line.utf8ByteSize) }

/-- Goes over a number of bytes. -/
def skipBytes (bytes : Nat) (b : ByteCursor) : ByteCursor :=
  { b with position := b.position + bytes }

/-- Moves over `count` characters, or over all that are left. -/
def advance? (count : Nat) (b : ByteCursor) : Option ByteCursor := do
  let rest ← b.rest?
  return b.skipBytes (byteCount (rest.take count))

/-- Moves over blank characters. -/
def skipBlank? (b : ByteCursor) : Option ByteCursor := do
  let rest ← b.rest?
  return b.skipBytes (byteCount (rest.takeWhile Text.isBlank))

/-- A rejection at the offset. -/
def reject {β : Type} (b : ByteCursor) (cause : Cause) : ByteReading β :=
  (.error ⟨cause, b.position, none⟩, b)

/-- Reads one character. -/
def readChar? (b : ByteCursor) : Option (ByteReading Char) := do
  match ← b.rest? with
  | [] => return b.reject .endOfInput
  | ch :: _ => return (.ok ch, b.skipBytes ch.utf8Size)

/-- Reads the characters up to the next blank one. -/
def readUnquoted? (b : ByteCursor) : Option (String × ByteCursor) := do
  let rest ← b.rest?
  let after := b.skipBytes (byteCount (rest.takeWhile fun ch => !Text.isBlank ch))
  return (← after.since? b.position, after)

/-- Moves over everything that is left. -/
def skipAll (b : ByteCursor) : ByteCursor := { b with position := b.line.utf8ByteSize }

/-- Reads everything that is left. -/
def readRemaining? (b : ByteCursor) : Option (String × ByteCursor) :=
  (b.skipAll.since? b.position).map (·, b.skipAll)

/-- What is left behind an offset begins there, and its characters are on the line. -/
theorem position_add_le {b : ByteCursor} {ch : Char} {rest : List Char}
    (h : b.rest? = some (ch :: rest)) : b.position + ch.utf8Size ≤ b.line.utf8ByteSize := by
  simp only [rest?, slice?, Option.bind_eq_bind, Option.bind_eq_some_iff, Prod.exists,
    splitBytes?_eq_some_iff, Option.pure_def, Option.some.injEq] at h
  obtain ⟨front, -, ⟨-, hcount⟩, before, -, ⟨rfl, hbefore⟩, rfl⟩ := h
  simp only [byteCount_append, byteCount] at hcount
  omega

/-- Reads the body of a quoted word up to its closing quote, one character after the other.
`value` is what was read, `escaped` whether a backslash was just passed, and `opening` the offset of
the opening quote. -/
def readBody? (quote : Char) (opening : Nat) (value : String) (escaped : Bool) (b : ByteCursor) :
    Option (ByteReading String) :=
  match hrest : b.rest? with
  | none => none
  | some [] => some (.error ⟨.unclosedQuote, opening, none⟩, b)
  | some (ch :: _) =>
    let after := b.skipBytes ch.utf8Size
    if escaped then
      if ch = quote || ch = '\\' then readBody? quote opening (value.push ch) false after
      else some (.error ⟨.invalidEscape ch, b.position - 1, none⟩, after)
    else if ch = '\\' then readBody? quote opening value true after
    else if ch = quote then do
      let rest ← after.rest?
      if rest.head?.all Text.isBlank then return (.ok value, after)
      else return after.reject .expectedWhitespace
    else readBody? quote opening (value.push ch) false after
termination_by b.line.utf8ByteSize - b.position
decreasing_by
  all_goals
    have hsize := Char.utf8Size_pos ch
    have hle := position_add_le hrest
    simp only [skipBytes]
    omega

/-- Reads one word; a quote at its start groups everything up to the matching quote. -/
def readString? (b : ByteCursor) : Option (ByteReading String) := do
  match ← b.rest? with
  | [] => return b.reject .endOfInput
  | ch :: _ =>
    if ch = '"' || ch = '\'' then readBody? ch b.position "" false (b.skipBytes ch.utf8Size)
    else
      let (word, after) ← b.readUnquoted?
      return (.ok word, after)

/-- Reads one word without regard to quotes and converts it. -/
def readWordAs? {β : Type} (convert : String → Option β) (reason : ValueFault) (b : ByteCursor) :
    Option (ByteReading β) := do
  let (word, after) ← b.readUnquoted?
  if word = "" then return (.error ⟨.endOfInput, b.position, none⟩, after)
  else match convert word with
    | some value => return (.ok value, after)
    | none => return (.error ⟨.invalidValue word reason, b.position, none⟩, after)

end ByteCursor

namespace Cursor

/-- The byte offset at which a cursor stands. -/
def bytes (c : Cursor) : ByteCursor := ⟨c.line, c.position⟩

@[simp] theorem line_bytes (c : Cursor) : c.bytes.line = c.line := rfl

@[simp] theorem position_bytes (c : Cursor) : c.bytes.position = c.position := rfl

/-- A rejection is located at the offset. -/
theorem reject_bytes {β : Type} (c : Cursor) (cause : Cause) :
    (c.bytes.reject cause : ByteReading β) = (c.reject cause).map id bytes := rfl

/-! ## The text at a cursor's offset -/

section

variable {c d : Cursor} {taken : List Char}

/-- A cursor's offset and the end of its line are places at which the line can be split. -/
theorem rest?_bytes (c : Cursor) : c.bytes.rest? = some c.rest := by
  have hall : splitBytes? c.line.toList c.line.utf8ByteSize = some (c.line.toList, []) :=
    splitBytes?_eq_some_iff.mpr ⟨(List.append_nil _).symm, byteCount_toList c.line⟩
  have hpassed : splitBytes? c.line.toList c.position = some (c.passed.reverse, c.rest) :=
    splitBytes?_eq_some_iff.mpr ⟨String.toList_ofList, byteCount_reverse c.passed⟩
  simp [ByteCursor.rest?, ByteCursor.slice?, bytes, hall, hpassed]

/-- The text between the offsets of two cursors is what was gone over on the way. -/
theorem since?_bytes (hrest : c.rest = taken ++ d.rest)
    (hpassed : d.passed = taken.reverse ++ c.passed) :
    d.bytes.since? c.position = some (String.ofList taken) := by
  have hle : c.position ≤ d.position := Reaches.position_le ⟨taken, hrest, hpassed⟩
  have hstop : splitBytes? d.line.toList d.position = some (d.passed.reverse, d.rest) :=
    splitBytes?_eq_some_iff.mpr ⟨String.toList_ofList, byteCount_reverse d.passed⟩
  have hstart : splitBytes? d.passed.reverse c.position = some (c.passed.reverse, taken) :=
    splitBytes?_eq_some_iff.mpr ⟨by simp [hpassed], byteCount_reverse c.passed⟩
  simp [ByteCursor.since?, ByteCursor.slice?, bytes, Nat.min_eq_left hle, hstop, hstart]

/-- And it is what the later cursor tells of it. -/
theorem since?_bytes_eq_since (h : c.Reaches d) :
    d.bytes.since? c.position = some (d.since c.position) := by
  obtain ⟨taken, hrest, hpassed⟩ := h
  have hsplit : d.passed.reverse = c.passed.reverse ++ taken := by simp [hpassed]
  rw [since?_bytes hrest hpassed, since, hsplit, position, ← byteCount_reverse c.passed,
    forwardBytes_byteCount]

/-- A cursor that went over some text has moved by the bytes of the text. -/
theorem bytes_eq_skipBytes (hrest : c.rest = taken ++ d.rest)
    (hpassed : d.passed = taken.reverse ++ c.passed) :
    d.bytes = c.bytes.skipBytes (byteCount taken) := by
  have hline : d.line = c.line :=
    congrArg String.ofList (Reaches.source_eq ⟨taken, hrest, hpassed⟩)
  ext1
  · exact hline
  · simp [bytes, ByteCursor.skipBytes, position, hpassed, Nat.add_comm]

end

/-! ## Moving -/

section

variable {line : String} {boundary position : Nat}

/-- Stepping back goes to no later offset. -/
theorem boundaryBefore_le (line : String) (position : Nat) :
    boundaryBefore line position ≤ position := by
  fun_induction boundaryBefore line position with
  | case1 => exact Nat.le_refl 0
  | case2 => exact Nat.le_refl _
  | case3 position _ ih => exact Nat.le_succ_of_le ih

/-- It ends between two characters; the start of the line is such a place. -/
theorem isValid_boundaryBefore (line : String) (position : Nat) :
    (⟨boundaryBefore line position⟩ : String.Pos.Raw).IsValid line := by
  fun_induction boundaryBefore line position with
  | case1 => exact String.Pos.Raw.isValid_zero
  | case2 position hvalid => exact hvalid
  | case3 position _ ih => exact ih

/-- And it passes over no place on its way. -/
theorem le_boundaryBefore (hvalid : (⟨boundary⟩ : String.Pos.Raw).IsValid line)
    (hle : boundary ≤ position) : boundary ≤ boundaryBefore line position := by
  fun_induction boundaryBefore line position with
  | case1 => exact hle
  | case2 => exact hle
  | case3 position hinvalid ih =>
    have hne : boundary ≠ position + 1 := fun h => hinvalid (h ▸ hvalid)
    exact ih (by omega)

end

/-- Clamped and stepped back, an offset is that of the last place at or before it. -/
theorem setPosition_bytes (position : Nat) (c : Cursor) :
    c.bytes.setPosition position = (c.seek position).bytes := by
  have hsource : c.source = c.line.toList := String.toList_ofList.symm
  have hseek : (c.seek position).source = c.line.toList := (source_seek position c).trans hsource
  ext1
  · exact congrArg String.ofList (source_seek position c).symm
  · let last := boundaryBefore c.line (min position c.line.utf8ByteSize)
    have hlast : last ≤ min position c.line.utf8ByteSize := boundaryBefore_le ..
    have hvalid := isValid_position hseek
    have hend : (c.seek position).position ≤ c.line.utf8ByteSize := hvalid.le_rawEndPos
    show last = (c.seek position).position
    -- Both are the greatest of the places that the bound leaves, so neither is behind the other.
    refine Nat.le_antisymm ?_ ?_
    · exact le_position_seek hsource (isValid_boundaryBefore ..) (by omega)
    · exact le_boundaryBefore hvalid (Nat.le_min.mpr ⟨position_seek_le position c, hend⟩)

/-- Going over characters adds their bytes. -/
theorem advance?_bytes (count : Nat) (c : Cursor) :
    c.bytes.advance? count = some (c.advance count).bytes := by
  have hafter : (c.advance count).bytes = c.bytes.skipBytes (byteCount (c.rest.take count)) :=
    bytes_eq_skipBytes (List.take_append_drop ..).symm rfl
  simp [ByteCursor.advance?, rest?_bytes, hafter]

/-- So does going over blanks. -/
theorem skipBlank?_bytes (c : Cursor) : c.bytes.skipBlank? = some c.skipBlank.bytes := by
  have hafter : c.skipBlank.bytes =
      c.bytes.skipBytes (byteCount (c.rest.takeWhile Text.isBlank)) :=
    bytes_eq_skipBytes List.takeWhile_append_dropWhile.symm rfl
  simp [ByteCursor.skipBlank?, rest?_bytes, hafter]

/-! ## Reading -/

/-- A word is the text between the offsets before and behind it. -/
theorem readUnquoted?_bytes (c : Cursor) :
    c.bytes.readUnquoted? = some (c.word, c.skipWord.bytes) := by
  have hsplit : c.rest = (c.rest.takeWhile fun ch => !Text.isBlank ch) ++ c.skipWord.rest :=
    List.takeWhile_append_dropWhile.symm
  have hsince : c.skipWord.bytes.since? c.position = some c.word := since?_bytes hsplit rfl
  have hafter := bytes_eq_skipBytes hsplit rfl
  simp [ByteCursor.readUnquoted?, rest?_bytes, ← hafter, hsince]

/-- Nothing is left behind the last byte. -/
theorem skipAll_bytes (c : Cursor) : c.bytes.skipAll = c.skipAll.bytes := by
  ext1
  · exact congrArg String.ofList (skipAll_reached c).source_eq.symm
  · simp [ByteCursor.skipAll, line, source, utf8ByteSize_ofList, position, skipAll, Nat.add_comm]

/-- What is left is the text up to the last byte. -/
theorem readRemaining?_bytes (c : Cursor) :
    c.bytes.readRemaining? = some (c.restText, c.skipAll.bytes) := by
  have hsince : c.skipAll.bytes.since? c.position = some c.restText :=
    since?_bytes (List.append_nil _).symm rfl
  simp [ByteCursor.readRemaining?, skipAll_bytes, hsince]

/-- One character is read, and its bytes are passed. -/
theorem readChar?_bytes (c : Cursor) : c.bytes.readChar? = some (c.readChar.map id bytes) := by
  unfold readChar
  cases hrest : c.rest with
  | nil => simp [ByteCursor.readChar?, rest?_bytes, hrest, reject_bytes]
  | cons ch rest =>
    have hafter : (c.advance 1).bytes = c.bytes.skipBytes (byteCount [ch]) :=
      bytes_eq_skipBytes (by simp [advance, hrest]) (by simp [advance, hrest])
    simp [ByteCursor.readChar?, rest?_bytes, hrest, hafter, byteCount]

/-- One more character of the line is passed. -/
theorem skipBytes_bytes (ch : Char) (passed rest : List Char) :
    (⟨passed, ch :: rest⟩ : Cursor).bytes.skipBytes ch.utf8Size =
      (⟨ch :: passed, rest⟩ : Cursor).bytes := by
  have hafter : (⟨ch :: passed, rest⟩ : Cursor).bytes =
      (⟨passed, ch :: rest⟩ : Cursor).bytes.skipBytes (byteCount [ch]) :=
    bytes_eq_skipBytes List.singleton_append.symm rfl
  simpa [byteCount] using hafter.symm

/-- Where nothing is left the loop finds the quote unclosed. -/
theorem readBody?_nil (quote : Char) (opening : Nat) (value : String) (escaped : Bool)
    (passed : List Char) :
    (⟨passed, []⟩ : Cursor).bytes.readBody? quote opening value escaped =
      some (.error ⟨.unclosedQuote, opening, none⟩, (⟨passed, []⟩ : Cursor).bytes) := by
  rw [ByteCursor.readBody?]
  split <;> simp_all [rest?_bytes]

/-- What the loop does with the next character, which a backslash may have escaped. -/
theorem readBody?_cons (quote : Char) (opening : Nat) (value : String) (escaped : Bool) (ch : Char)
    (passed rest : List Char) :
    (⟨passed, ch :: rest⟩ : Cursor).bytes.readBody? quote opening value escaped =
      if escaped then
        if ch = quote || ch = '\\' then
          (⟨ch :: passed, rest⟩ : Cursor).bytes.readBody? quote opening (value.push ch) false
        else some (.error ⟨.invalidEscape ch, byteCount passed - 1, none⟩,
          (⟨ch :: passed, rest⟩ : Cursor).bytes)
      else if ch = '\\' then
        (⟨ch :: passed, rest⟩ : Cursor).bytes.readBody? quote opening value true
      else if ch = quote then
        if (⟨ch :: passed, rest⟩ : Cursor).atBreak then
          some (.ok value, (⟨ch :: passed, rest⟩ : Cursor).bytes)
        else some ((⟨ch :: passed, rest⟩ : Cursor).bytes.reject .expectedWhitespace)
      else (⟨ch :: passed, rest⟩ : Cursor).bytes.readBody? quote opening (value.push ch) false := by
  rw [ByteCursor.readBody?]
  split
  · simp_all [rest?_bytes]
  · simp_all [rest?_bytes]
  · rename_i ch' rest' hrest
    obtain ⟨rfl, rfl⟩ : ch = ch' ∧ rest = rest' := by simpa [rest?_bytes] using hrest
    have hbreak : rest.head?.all Text.isBlank = (⟨ch :: passed, rest⟩ : Cursor).atBreak := by
      cases rest <;> simp [atBreak, atEnd, atBlank]
    simp only [skipBytes_bytes, rest?_bytes, Option.bind_eq_bind, Option.bind_some, hbreak]
    rfl

/-- A backslash escapes the next character. -/
theorem readBody?_backslash (quote : Char) (opening : Nat) (value : String)
    (passed rest : List Char) :
    (⟨passed, '\\' :: rest⟩ : Cursor).bytes.readBody? quote opening value false =
      (⟨'\\' :: passed, rest⟩ : Cursor).bytes.readBody? quote opening value true := by
  rw [readBody?_cons, if_neg Bool.false_ne_true, if_pos rfl]

/-- And what the loop does with a character that no backslash is at. -/
theorem readBody?_plain {ch : Char} (hch : ch ≠ '\\') (quote : Char) (opening : Nat)
    (value : String) (passed rest : List Char) :
    (⟨passed, ch :: rest⟩ : Cursor).bytes.readBody? quote opening value false =
      if ch = quote then
        if (⟨ch :: passed, rest⟩ : Cursor).atBreak then
          some (.ok value, (⟨ch :: passed, rest⟩ : Cursor).bytes)
        else some ((⟨ch :: passed, rest⟩ : Cursor).bytes.reject .expectedWhitespace)
      else (⟨ch :: passed, rest⟩ : Cursor).bytes.readBody? quote opening (value.push ch) false := by
  rw [readBody?_cons, if_neg Bool.false_ne_true, if_neg hch]

/-- The loop over the body of a quoted word finds what the recursion over its characters does. -/
theorem readBody?_bytes (quote : Char) (opening : Nat) (value passed rest : List Char) :
    (⟨passed, rest⟩ : Cursor).bytes.readBody? quote opening (String.ofList value.reverse) false =
      some ((readBody quote opening value passed rest).map id bytes) := by
  have hpush (ch : Char) (value : List Char) :
      (String.ofList value.reverse).push ch = String.ofList (ch :: value).reverse := by
    simp [String.ofList_append]
  fun_induction readBody quote opening value passed rest with
  | case1 => exact readBody?_nil ..
  | case2 => rw [readBody?_backslash, readBody?_nil]; rfl
  | case3 value passed escaped rest hescaped ih =>
    rw [readBody?_backslash, readBody?_cons, if_pos rfl, if_pos hescaped, hpush]
    exact ih
  | case4 value passed escaped rest hescaped =>
    -- The offset before the escaped character is one past its backslash.
    have hbackslash : byteCount ('\\' :: passed) - 1 = byteCount passed := by
      simp [byteCount, Char.utf8Size]
    rw [readBody?_backslash, readBody?_cons, if_pos rfl, if_neg hescaped, hbackslash]
    rfl
  | case5 value passed rest hlast hmore after hbreak =>
    rw [readBody?_plain (ne_backslash hlast hmore), if_pos rfl, if_pos hbreak]
    rfl
  | case6 value passed rest hlast hmore after hbreak =>
    rw [readBody?_plain (ne_backslash hlast hmore), if_pos rfl, if_neg hbreak]
    rfl
  | case7 value passed ch rest hlast hmore hclosing ih =>
    rw [readBody?_plain (ne_backslash hlast hmore), if_neg hclosing, hpush]
    exact ih

/-- A word is read with or without its quotes. -/
theorem readString?_bytes (c : Cursor) :
    c.bytes.readString? = some (c.readString.map id bytes) := by
  unfold readString
  cases hrest : c.rest with
  | nil => simp [ByteCursor.readString?, rest?_bytes, hrest, reject_bytes]
  | cons ch rest =>
    obtain ⟨passed, _⟩ := c
    obtain rfl := hrest
    have hbody := readBody?_bytes ch (⟨passed, ch :: rest⟩ : Cursor).position [] (ch :: passed) rest
    by_cases hquote : ch = '"' ∨ ch = '\''
    · simpa [ByteCursor.readString?, rest?_bytes, hquote, skipBytes_bytes] using hbody
    · simp [ByteCursor.readString?, rest?_bytes, hquote, readUnquoted?_bytes]

/-- A word is converted, and where there is none nothing is passed. -/
theorem readWordAs?_bytes {β : Type} (convert : String → Option β) (reason : ValueFault)
    (c : Cursor) :
    c.bytes.readWordAs? convert reason = some ((c.readWordAs convert reason).map id bytes) := by
  unfold readWordAs ByteCursor.readWordAs?
  rw [readUnquoted?_bytes]
  by_cases hempty : c.word = ""
  · -- A word without characters leaves the offset where it was.
    have hstay : c.skipWord.bytes = c.bytes := by
      have hafter : c.skipWord.bytes = c.bytes.skipBytes (byteCount c.word.toList) :=
        bytes_eq_skipBytes (by simp [word, skipWord, skipWhile])
          (by simp [word, skipWord, skipWhile])
      rw [hafter, hempty]
      rfl
    simp [hempty, hstay, reject]
  · cases hconvert : convert c.word <;> simp [hempty, hconvert]

end Cursor

end CommandLine
