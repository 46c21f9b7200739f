import CommandLine.Text.Blank

/-!
# Cursors

A cursor is a place between two characters of a line. It keeps what was passed, latest character
first, and what is left, so it never rests inside a character and never loses any of the line.
Positions are counted in bytes of UTF-8.

* `byteCount_toList` — positions count the bytes of the text itself;
* `isValid_iff_exists_append` — the positions between two characters of a text;
* `Cursor.Reaches` — one cursor is reached from another by moving forward;
* `skipWhile_reached`, `advance_reached` — the basic moves go forward;
* `source_seek`, `position_seek_le`, `le_position_seek` — moving to a position keeps the line and
  goes to the last place at or before that position;
* `isValid_position` — a cursor stands between two characters;
* `Reaches.seek_position` — moving to the position of an earlier place goes back there;
* `Reaches.source_eq`, `Reaches.position_le` — moving forward keeps the line and never decreases the
  position.
-/

set_option autoImplicit false

namespace CommandLine

/-- The number of bytes of a text in UTF-8. -/
def byteCount : List Char → Nat
  | [] => 0
  | c :: cs => c.utf8Size + byteCount cs

/-- The bytes of two texts are counted one after the other. -/
@[simp] theorem byteCount_append (cs ds : List Char) :
    byteCount (cs ++ ds) = byteCount cs + byteCount ds := by
  induction cs with
  | nil => simp [byteCount]
  | cons c cs ih => simp [byteCount, ih, Nat.add_assoc]

/-- In which order the characters come does not matter. -/
@[simp] theorem byteCount_reverse (cs : List Char) : byteCount cs.reverse = byteCount cs := by
  induction cs with
  | nil => rfl
  | cons c cs ih => simp [byteCount, ih, Nat.add_comm]

/-- The bytes of a text are the bytes of its characters. -/
theorem byteCount_toList (s : String) : byteCount s.toList = s.utf8ByteSize := by
  have h (cs : List Char) : byteCount cs = (String.ofList cs).utf8ByteSize := by
    induction cs with
    | nil => rfl
    | cons c cs ih => simp [byteCount, ih, String.ofList_cons]
  simpa using h s.toList

/-- The text of some characters has their bytes. -/
theorem utf8ByteSize_ofList (cs : List Char) : (String.ofList cs).utf8ByteSize = byteCount cs := by
  rw [← byteCount_toList, String.toList_ofList]

/-- The positions between two characters of a text, its start and its end are the byte counts of
what stands before them. -/
theorem isValid_iff_exists_append {line : String} {position : Nat} :
    (⟨position⟩ : String.Pos.Raw).IsValid line ↔
      ∃ front back, line.toList = front ++ back ∧ byteCount front = position := by
  rw [String.Pos.Raw.isValid_iff_exists_append]
  constructor
  · rintro ⟨front, back, rfl, hposition⟩
    refine ⟨front.toList, back.toList, String.toList_append, ?_⟩
    rw [byteCount_toList]
    exact (String.Pos.Raw.ext_iff.mp hposition).symm
  · rintro ⟨front, back, hline, rfl⟩
    refine ⟨String.ofList front, String.ofList back, ?_, ?_⟩
    · rw [← String.ofList_append, ← hline, String.ofList_toList]
    · exact String.Pos.Raw.ext (utf8ByteSize_ofList front).symm

/-- A place in a line: what was passed, latest character first, and what is left. -/
@[ext] structure Cursor where
  passed : List Char
  rest : List Char
deriving DecidableEq, Inhabited

namespace Cursor

/-- The cursor at the start of a line. -/
def ofString (line : String) : Cursor := ⟨[], line.toList⟩

/-- The characters of the whole line. -/
def source (c : Cursor) : List Char := c.passed.reverse ++ c.rest

/-- The whole line. -/
def line (c : Cursor) : String := String.ofList c.source

/-- The number of bytes passed. -/
def position (c : Cursor) : Nat := byteCount c.passed

/-- The number of bytes of the whole line. -/
def size (c : Cursor) : Nat := byteCount c.passed + byteCount c.rest

/-- Whether nothing is left. -/
def atEnd (c : Cursor) : Bool := c.rest.isEmpty

/-- What is left of the line. -/
def restText (c : Cursor) : String := String.ofList c.rest

/-- The next character. -/
def peek? (c : Cursor) : Option Char := c.rest.head?

/-- Whether the next character is blank. -/
def atBlank (c : Cursor) : Bool := c.rest.head?.any Text.isBlank

/-- Whether a word may end here: nothing is left or the next character is blank. -/
def atBreak (c : Cursor) : Bool := c.atEnd || c.atBlank

/-- Moves over the characters in front that satisfy `p`. -/
def skipWhile (p : Char → Bool) (c : Cursor) : Cursor :=
  ⟨(c.rest.takeWhile p).reverse ++ c.passed, c.rest.dropWhile p⟩

/-- Moves over `count` characters, or over all that are left. -/
def advance (count : Nat) (c : Cursor) : Cursor :=
  ⟨(c.rest.take count).reverse ++ c.passed, c.rest.drop count⟩

/-- Moves over blank characters. -/
def skipBlank (c : Cursor) : Cursor := c.skipWhile Text.isBlank

/-- The word in front of the cursor: the characters up to the next blank one. -/
def word (c : Cursor) : String := String.ofList (c.rest.takeWhile fun ch => !Text.isBlank ch)

/-- Moves over the word in front. -/
def skipWord (c : Cursor) : Cursor := c.skipWhile fun ch => !Text.isBlank ch

/-- Moves over everything that is left. -/
def skipAll (c : Cursor) : Cursor := ⟨c.rest.reverse ++ c.passed, []⟩

/-- Moves forward over whole characters as far as a number of bytes allows. -/
def forwardBytes (passed : List Char) : List Char → Nat → Cursor
  | [], _ => ⟨passed, []⟩
  | c :: cs, bytes =>
    if c.utf8Size ≤ bytes then forwardBytes (c :: passed) cs (bytes - c.utf8Size)
    else ⟨passed, c :: cs⟩

/-- The last place of the line at or before a byte position. -/
def seek (position : Nat) (c : Cursor) : Cursor := forwardBytes [] c.source position

/-- The text between an earlier byte position and the cursor. -/
def since (start : Nat) (c : Cursor) : String :=
  String.ofList (forwardBytes [] c.passed.reverse start).rest

/-- The cursor `d` is reached from `c` by moving forward over `d`'s share of what `c` has left. -/
def Reaches (c d : Cursor) : Prop :=
  ∃ taken, c.rest = taken ++ d.rest ∧ d.passed = taken.reverse ++ c.passed

namespace Reaches

/-- A cursor is reached from itself. -/
theorem refl (c : Cursor) : c.Reaches c := ⟨[], rfl, rfl⟩

/-- Moving forward twice is moving forward. -/
theorem trans {c d e : Cursor} (hcd : c.Reaches d) (hde : d.Reaches e) : c.Reaches e := by
  obtain ⟨s, hs, hs'⟩ := hcd
  obtain ⟨t, ht, ht'⟩ := hde
  exact ⟨s ++ t, by simp [hs, ht], by simp [hs', ht']⟩

/-- Moving forward stays on the same line. -/
theorem source_eq {c d : Cursor} (h : c.Reaches d) : d.source = c.source := by
  obtain ⟨t, ht, ht'⟩ := h
  simp [source, ht, ht']

/-- Moving forward leaves no more than before. -/
theorem length_rest_le {c d : Cursor} (h : c.Reaches d) : d.rest.length ≤ c.rest.length := by
  obtain ⟨t, ht, _⟩ := h
  simp [ht]

/-- Moving forward and leaving as much as before is staying. -/
theorem eq_of_length_rest {c d : Cursor} (h : c.Reaches d)
    (hlen : d.rest.length = c.rest.length) : d = c := by
  obtain ⟨t, ht, ht'⟩ := h
  have : t = [] := by
    have := congrArg List.length ht
    simp [hlen] at this
    exact this
  subst this
  ext1 <;> simp_all

/-- Moving forward never decreases the position. -/
theorem position_le {c d : Cursor} (h : c.Reaches d) : c.position ≤ d.position := by
  obtain ⟨t, _, ht'⟩ := h
  simp [position, ht']

end Reaches

/-- Going over characters moves forward. -/
theorem skipWhile_reached (p : Char → Bool) (c : Cursor) : c.Reaches (c.skipWhile p) :=
  ⟨c.rest.takeWhile p, by simp [skipWhile], rfl⟩

/-- Going over a number of them does. -/
theorem advance_reached (count : Nat) (c : Cursor) : c.Reaches (c.advance count) :=
  ⟨c.rest.take count, by simp [advance], rfl⟩

theorem skipBlank_reached (c : Cursor) : c.Reaches c.skipBlank := skipWhile_reached _ c

theorem skipWord_reached (c : Cursor) : c.Reaches c.skipWord := skipWhile_reached _ c

theorem skipAll_reached (c : Cursor) : c.Reaches c.skipAll := ⟨c.rest, by simp [skipAll], rfl⟩

theorem forwardBytes_reached (passed rest : List Char) (bytes : Nat) :
    (⟨passed, rest⟩ : Cursor).Reaches (forwardBytes passed rest bytes) := by
  fun_induction forwardBytes passed rest bytes with
  | case1 => exact .refl _
  | case2 => exact Reaches.trans ⟨[_], rfl, rfl⟩ ‹_›
  | case3 => exact .refl _

/-- A cursor never stands inside a character. -/
theorem isValid_position {line : String} {c : Cursor} (h : c.source = line.toList) :
    (⟨c.position⟩ : String.Pos.Raw).IsValid line :=
  isValid_iff_exists_append.mpr ⟨c.passed.reverse, c.rest, h.symm, byteCount_reverse c.passed⟩

/-- Moving to any position stays on the same line. -/
theorem source_seek (position : Nat) (c : Cursor) : (c.seek position).source = c.source := by
  have h := (forwardBytes_reached [] c.source position).source_eq
  simpa [seek, source] using h

/-- It goes no further than the bytes allow. -/
theorem position_forwardBytes_le (passed rest : List Char) (bytes : Nat) :
    (forwardBytes passed rest bytes).position ≤ byteCount passed + bytes := by
  fun_induction forwardBytes passed rest bytes with
  | case1 => exact Nat.le_add_right ..
  | case2 passed c cs bytes hle ih =>
    simp only [byteCount] at ih
    omega
  | case3 => exact Nat.le_add_right ..

/-- Moving to a position never goes beyond it. -/
theorem position_seek_le (position : Nat) (c : Cursor) : (c.seek position).position ≤ position := by
  simpa [seek, byteCount] using position_forwardBytes_le [] c.source position

/-- And at least over the characters that fit. -/
theorem le_position_forwardBytes {bytes : Nat} (passed : List Char) {cs : List Char}
    (rest : List Char) (h : byteCount cs ≤ bytes) :
    byteCount passed + byteCount cs ≤ (forwardBytes passed (cs ++ rest) bytes).position := by
  induction cs generalizing passed bytes with
  | nil => exact (forwardBytes_reached passed rest bytes).position_le
  | cons c cs ih =>
    have hc : c.utf8Size ≤ bytes := Nat.le_trans (Nat.le_add_right ..) h
    have hcs : byteCount cs ≤ bytes - c.utf8Size := by
      simp only [byteCount] at h
      omega
    have hbehind := ih (c :: passed) hcs
    rw [List.cons_append, forwardBytes, if_pos hc]
    simp only [byteCount] at hbehind ⊢
    omega

/-- And it stops before no position in between at which it could stand. -/
theorem le_position_seek {line : String} {c : Cursor} {boundary position : Nat}
    (hc : c.source = line.toList) (hboundary : (⟨boundary⟩ : String.Pos.Raw).IsValid line)
    (hle : boundary ≤ position) : boundary ≤ (c.seek position).position := by
  obtain ⟨front, back, hline, rfl⟩ := isValid_iff_exists_append.mp hboundary
  rw [seek, hc, hline]
  simpa [byteCount] using le_position_forwardBytes [] back hle

/-- With just the bytes of some characters it goes over these. -/
theorem forwardBytes_byteCount (passed cs rest : List Char) :
    forwardBytes passed (cs ++ rest) (byteCount cs) = ⟨cs.reverse ++ passed, rest⟩ := by
  induction cs generalizing passed with
  | nil =>
    cases rest with
    | nil => rfl
    | cons c rest => simp [forwardBytes, byteCount, Nat.not_le.mpr (Char.utf8Size_pos c)]
  | cons c cs ih => simp [forwardBytes, byteCount, ih]

/-- Moving to the position of an earlier place on the line goes back to that place. -/
theorem Reaches.seek_position {c d : Cursor} (h : c.Reaches d) : d.seek c.position = c := by
  rw [seek, h.source_eq, source, position, ← byteCount_reverse c.passed, forwardBytes_byteCount]
  simp

/-- Skipping blanks at a blank leaves less. -/
theorem length_skipBlank_lt {c : Cursor} (h : c.atBlank = true) :
    c.skipBlank.rest.length < c.rest.length := by
  cases hr : c.rest with
  | nil => simp [atBlank, hr] at h
  | cons ch cs =>
    have hb : Text.isBlank ch = true := by simpa [atBlank, hr] using h
    have := (List.dropWhile_sublist (l := cs) Text.isBlank).length_le
    simp [skipBlank, skipWhile, hr, hb]
    omega

/-- Behind a word only a blank or the end follows. -/
theorem atBreak_skipWord (c : Cursor) : c.skipWord.atBreak = true := by
  have hrest : c.skipWord.rest = c.rest.dropWhile fun ch => !Text.isBlank ch := rfl
  rw [atBreak, atEnd, atBlank, hrest]
  cases hdrop : c.rest.dropWhile fun ch => !Text.isBlank ch with
  | nil => rfl
  | cons ch cs =>
    have hhead := List.head?_dropWhile_not (fun ch => !Text.isBlank ch) c.rest
    rw [hdrop] at hhead
    simpa using hhead

/-- Moving over one character leaves less. -/
theorem length_advance_one_lt {c : Cursor} (h : c.rest ≠ []) :
    (c.advance 1).rest.length < c.rest.length := by
  cases hr : c.rest with
  | nil => exact absurd hr h
  | cons ch cs => simp [advance, hr]

end Cursor

end CommandLine
