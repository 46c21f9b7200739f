import CommandLine.Proofs.Search.Continued

/-!
# Lines that begin differently

What is read from a place on a line does not depend on what was passed before. So a line whose
beginning is replaced by another text is read as before from there on (`Cursor.precededBy`): the
built-in types read the same values or reject the line for the same cause, and all places move by
the bytes of what is new in front.

* `Cursor.readBody_precededBy`, `Cursor.readString_precededBy` — quoted words;
* `BuiltinType.parse_precededBy` — the built-in types.
-/

set_option autoImplicit false

namespace CommandLine

open Text

/-- The same place on a line with a text in front. The text is given as it is passed, latest
character first. -/
def Cursor.precededBy (front : List Char) (c : Cursor) : Cursor := ⟨c.passed ++ front, c.rest⟩

/-- The rejection of a line with a text in front. -/
def Rejection.precededBy (front : List Char) (r : Rejection) : Rejection :=
  { r with position := r.position + byteCount front }

/-- What is read of a line with a text in front. -/
def Reading.precededBy {β : Type} (front : List Char) (r : Reading β) : Reading β :=
  (r.1.mapError (·.precededBy front), r.2.precededBy front)

namespace Cursor

variable {front : List Char} {c : Cursor}

@[simp] theorem rest_precededBy : (c.precededBy front).rest = c.rest := rfl

/-- Text in front of a line moves every place by its bytes. -/
@[simp] theorem position_precededBy :
    (c.precededBy front).position = c.position + byteCount front := by
  simp [precededBy, position]

@[simp] theorem word_precededBy : (c.precededBy front).word = c.word := rfl

@[simp] theorem atEnd_precededBy : (c.precededBy front).atEnd = c.atEnd := rfl

@[simp] theorem atBreak_precededBy : (c.precededBy front).atBreak = c.atBreak := rfl

/-- What is gone over does not depend on the text in front. -/
theorem skipWhile_precededBy (p : Char → Bool) :
    (c.precededBy front).skipWhile p = (c.skipWhile p).precededBy front := by
  simp [skipWhile, precededBy]

theorem skipBlank_precededBy : (c.precededBy front).skipBlank = c.skipBlank.precededBy front :=
  skipWhile_precededBy _

theorem skipWord_precededBy : (c.precededBy front).skipWord = c.skipWord.precededBy front :=
  skipWhile_precededBy _

theorem advance_precededBy (count : Nat) :
    (c.precededBy front).advance count = (c.advance count).precededBy front := by
  simp [advance, precededBy]

/-- Rejections move with the places. -/
theorem reject_precededBy {β : Type} (cause : Cause) :
    (c.precededBy front).reject cause = Reading.precededBy front (c.reject cause : Reading β) := by
  simp [reject, Reading.precededBy, Rejection.precededBy, Except.mapError]

/-! ### The first word of a line -/

/-- At the start of a line stands its first word, and behind it comes what follows. -/
theorem skipBlank_ofString_append {w rest : String} (hw : IsWord w)
    (hrest : ∀ ch ∈ rest.toList.head?, isBlank ch = true) :
    (ofString (w ++ rest)).skipBlank.word = w ∧
      (ofString (w ++ rest)).skipBlank.skipWord =
        (ofString rest).precededBy w.toList.reverse := by
  have hchars : (ofString (w ++ rest)).rest = w.toList ++ rest.toList := String.toList_append
  obtain ⟨hword, hskipWord⟩ := of_word hw hchars ((Option.all_eq_true _ _).mpr hrest)
  have hskip : (ofString (w ++ rest)).skipBlank = ofString (w ++ rest) := by
    obtain ⟨ch, cs, hcs⟩ := List.exists_cons_of_ne_nil hw.toList_ne_nil
    have hch : isBlank ch = false := hw.2 ch (hcs ▸ List.mem_cons_self)
    rw [hcs, List.cons_append] at hchars
    ext1 <;> simp [skipBlank, skipWhile, hchars, hch]
  rw [hskip]
  refine ⟨hword, hskipWord.trans ?_⟩
  ext1
  · exact (List.append_nil _).trans (List.nil_append _).symm
  · rfl

/-! ### Readers -/

/-- So the body of a quoted word is read alike, also where it is rejected at its opening quote. -/
theorem readBody_precededBy (quote : Char) (opening : Nat) (value passed rest : List Char) :
    readBody quote (opening + byteCount front) value (passed ++ front) rest =
      Reading.precededBy front (readBody quote opening value passed rest) := by
  fun_induction readBody quote opening value passed rest with
  | case1 => rfl
  | case2 => rfl
  | case3 value passed escaped rest hescaped ih =>
    rw [← ih, readBody, if_pos hescaped]
    rfl
  | case4 value passed escaped rest hescaped =>
    rw [readBody, if_neg hescaped, byteCount_append]
    rfl
  | case5 value passed rest hlast hmore after hbreak =>
    have hbreak' : (⟨quote :: (passed ++ front), rest⟩ : Cursor).atBreak = true := hbreak
    rw [readBody_cons (ne_backslash hlast hmore), if_pos rfl, if_pos hbreak']
    rfl
  | case6 value passed rest hlast hmore after hbreak =>
    have hbreak' : ¬(⟨quote :: (passed ++ front), rest⟩ : Cursor).atBreak = true := hbreak
    rw [readBody_cons (ne_backslash hlast hmore), if_pos rfl, if_neg hbreak']
    exact reject_precededBy (c := after) _
  | case7 value passed ch rest hlast hmore hclosing ih =>
    rw [readBody_cons (ne_backslash hlast hmore), if_neg hclosing, ← ih]
    rfl

theorem readString_precededBy :
    (c.precededBy front).readString = Reading.precededBy front c.readString := by
  unfold readString
  rw [rest_precededBy]
  split
  · exact reject_precededBy _
  · split
    · rename_i ch rest _ _
      rw [position_precededBy]
      exact readBody_precededBy ch c.position [] (ch :: c.passed) rest
    · rw [word_precededBy, skipWord_precededBy]
      rfl

theorem readWordAs_precededBy {β : Type} (convert : String → Option β) (reason : ValueFault) :
    (c.precededBy front).readWordAs convert reason =
      Reading.precededBy front (c.readWordAs convert reason) := by
  unfold readWordAs
  rw [word_precededBy, skipWord_precededBy, position_precededBy]
  split
  · exact reject_precededBy _
  · split <;> rfl

theorem readAll_precededBy :
    (c.precededBy front).readAll = Reading.precededBy front c.readAll := by
  unfold readAll
  rw [atEnd_precededBy]
  split
  · exact reject_precededBy _
  · simp [Reading.precededBy, skipAll, precededBy, restText, Except.mapError]

end Cursor

/-! ## Built-in types -/

namespace BuiltinType

variable {front : List Char} {c : Cursor}

/-- So is a value that has to be accepted. -/
theorem checked_precededBy {β : Type} (start : Cursor) (read : Reading β)
    (accept : β → Except Cause Value) :
    checked (start.precededBy front) (Reading.precededBy front read) accept =
      Reading.precededBy front (checked start read accept) := by
  obtain ⟨answer, after⟩ := read
  cases answer with
  | error r => rfl
  | ok x =>
    simp only [checked, Reading.precededBy, Except.mapError, Cursor.position_precededBy]
    cases accept x <;> rfl

/-- A built-in type reads the same whatever was passed before. -/
theorem parse_precededBy (b : BuiltinType) :
    b.parse (c.precededBy front) = Reading.precededBy front (b.parse c) := by
  cases b with
  | choice | word =>
    rw [parse, parse, Cursor.readString_precededBy, checked_precededBy]
  | truth =>
    rw [parse, parse, Cursor.readTruth, Cursor.readWordAs_precededBy, checked_precededBy]
  | integer =>
    rw [parse, parse, Cursor.readInteger, Cursor.readWordAs_precededBy, checked_precededBy]
  | decimal =>
    rw [parse, parse, Cursor.readNumber, Cursor.readWordAs_precededBy, checked_precededBy]
  | greedy => rw [parse, parse, Cursor.readAll_precededBy, checked_precededBy]

end BuiltinType

end CommandLine
