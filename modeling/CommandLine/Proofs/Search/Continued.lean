import Mathlib.Data.List.TakeWhile
import CommandLine.Proofs.Search.Spaced

/-!
# Lines that go on

What is read at the start of a line does not depend on what the line goes on with, as long as it is
read to an end before that. So a line that ends with a blank can be read in place of a longer one: a
cursor on the longer line is a cursor on the shorter one with a tail behind it
(`Cursor.followedBy`), words end where they did, and the built-in types read the same values.

* `Cursor.skipBlank_followedBy`, `Cursor.word_followedBy` — words and blanks before the tail;
* `Cursor.readBody_of_followedBy` — a quoted word that is closed before the tail;
* `BuiltinType.parse_of_followedBy` — values that are read before the tail.
-/

set_option autoImplicit false

namespace CommandLine

open Text

/-- A text that starts with a character that is not blank. -/
def Text.StartsWord (cs : List Char) : Prop := ∃ ch rest, cs = ch :: rest ∧ isBlank ch = false

/-- A text that starts with a character has one. -/
theorem Text.StartsWord.ne_nil {cs : List Char} (h : StartsWord cs) : cs ≠ [] := by
  obtain ⟨ch, rest, rfl, _⟩ := h
  exact List.cons_ne_nil ch rest

namespace Cursor

variable {c d e : Cursor} {tail : List Char}

/-- The same place on a line that goes on with a tail. -/
def followedBy (c : Cursor) (tail : List Char) : Cursor := ⟨c.passed, c.rest ++ tail⟩

@[simp] theorem passed_followedBy : (c.followedBy tail).passed = c.passed := rfl

@[simp] theorem rest_followedBy : (c.followedBy tail).rest = c.rest ++ tail := rfl

/-- Places on lines with the same tail differ as they did without it. -/
theorem followedBy_inj : c.followedBy tail = d.followedBy tail ↔ c = d := by
  simp [followedBy, Cursor.ext_iff]

/-- A place before the tail of a line is one on the line without it. -/
theorem exists_followedBy {front : List Char} (h : c.rest = front ++ tail) :
    ∃ d : Cursor, c = d.followedBy tail :=
  ⟨⟨c.passed, front⟩, Cursor.ext rfl h⟩

/-- So is every earlier place. -/
theorem Reaches.exists_followedBy (h : c.Reaches (d.followedBy tail)) :
    ∃ e : Cursor, c = e.followedBy tail := by
  obtain ⟨taken, hrest, _⟩ := h
  rw [rest_followedBy, ← List.append_assoc] at hrest
  exact Cursor.exists_followedBy hrest

/-- What is left of the line ends with a blank, unless nothing is left. -/
def EndsBlank (c : Cursor) : Prop := ∀ ch ∈ c.rest.getLast?, isBlank ch = true

-- The last character is looked at, not all characters that there are.
instance (c : Cursor) : Decidable c.EndsBlank :=
  decidable_of_iff (c.rest.getLast?.all isBlank = true) (Option.all_eq_true ..)

/-- Moving forward keeps the end of the line. -/
theorem EndsBlank.of_reaches (h : c.EndsBlank) (hreaches : c.Reaches d) : d.EndsBlank := by
  obtain ⟨taken, hrest, _⟩ := hreaches
  intro ch hch
  apply h
  rw [hrest, List.getLast?_append, Option.mem_def.mp hch]
  rfl

/-! ## Blanks and words before the tail -/

/-- What stops in front of the tail stops there without it too. -/
theorem skipWhile_followedBy {p : Char → Bool}
    (h : (c.skipWhile p).rest ≠ [] ∨ tail.takeWhile p = []) :
    (c.followedBy tail).skipWhile p = (c.skipWhile p).followedBy tail := by
  have hparts : (c.rest ++ tail).takeWhile p = c.rest.takeWhile p ∧
      (c.rest ++ tail).dropWhile p = c.rest.dropWhile p ++ tail := by
    have hsplit := List.takeWhile_append_dropWhile (p := p) (l := c.rest)
    by_cases hall : c.rest.dropWhile p = []
    · have hstop : tail.takeWhile p = [] := h.resolve_left (not_not_intro hall)
      have htail := List.takeWhile_append_dropWhile (p := p) (l := tail)
      rw [hstop, List.nil_append] at htail
      rw [hall, List.append_nil] at hsplit
      have hp := List.takeWhile_eq_self_iff.mp hsplit
      rw [List.takeWhile_append_of_pos hp, List.dropWhile_append_of_pos hp, hstop, htail, hsplit,
        hall]
      simp
    · have hlen : (c.rest.takeWhile p).length ≠ c.rest.length := by
        have hlen := congrArg List.length hsplit
        have hpos := List.length_pos_iff.mpr hall
        rw [List.length_append] at hlen
        omega
      rw [List.takeWhile_append, if_neg hlen, List.dropWhile_append,
        if_neg (by simpa using hall)]
      exact ⟨rfl, rfl⟩
  ext1
  · simp only [skipWhile, rest_followedBy, passed_followedBy, hparts.1]
  · exact hparts.2

/-- Blanks stop in front of a tail that starts a word. -/
theorem skipBlank_followedBy (htail : StartsWord tail) :
    (c.followedBy tail).skipBlank = c.skipBlank.followedBy tail := by
  obtain ⟨ch, rest, rfl, hch⟩ := htail
  exact skipWhile_followedBy (.inr (by simp [hch]))

/-- A word in front of a line that ends with a blank ends before the line does. -/
theorem EndsBlank.rest_skipWord_ne_nil (h : c.EndsBlank) (hne : c.rest ≠ []) :
    c.skipWord.rest ≠ [] := by
  intro hnil
  have hblank := h (c.rest.getLast hne) (List.getLast?_eq_some_getLast hne)
  have hnone := List.dropWhile_eq_nil_iff.mp hnil _ (List.getLast_mem hne)
  simp [hblank] at hnone

/-- A word stops in front of the last blank, and so in front of the tail. -/
theorem EndsBlank.skipWord_followedBy (h : c.EndsBlank) (hne : c.rest ≠ []) :
    (c.followedBy tail).skipWord = c.skipWord.followedBy tail :=
  skipWhile_followedBy (.inl (h.rest_skipWord_ne_nil hne))

/-- So the tail does not become a part of it. -/
theorem EndsBlank.word_followedBy (h : c.EndsBlank) (hne : c.rest ≠ []) :
    (c.followedBy tail).word = c.word := by
  have hskip : (c.followedBy tail).skipWord = c.skipWord.followedBy tail :=
    h.skipWord_followedBy hne
  have htaken := List.append_cancel_right (congrArg Cursor.passed hskip)
  exact congrArg String.ofList (List.reverse_injective htaken)

/-- Whether a word ends is seen in front of the tail. -/
theorem atBreak_followedBy (hne : c.rest ≠ []) :
    (c.followedBy tail).atBreak = c.atBreak := by
  obtain ⟨ch, rest, hrest⟩ := List.exists_cons_of_ne_nil hne
  simp [atBreak, atEnd, atBlank, hrest]

/-- Where the tail starts with a word, a word that ends does so before the tail. -/
theorem rest_ne_nil_of_atBreak (htail : StartsWord tail) (h : (c.followedBy tail).atBreak = true) :
    c.rest ≠ [] := by
  obtain ⟨ch, rest, rfl, hch⟩ := htail
  intro hnil
  simp [atBreak, atEnd, atBlank, hnil, hch] at h

/-- Where a word may not end, one goes on. -/
theorem startsWord_of_atBreak_eq_false (h : c.atBreak = false) : StartsWord c.rest := by
  cases hrest : c.rest with
  | nil => simp [atBreak, atEnd, hrest] at h
  | cons ch rest => exact ⟨ch, rest, rfl, by simpa [atBreak, atEnd, atBlank, hrest] using h⟩

/-- Characters that are there may be gone over. -/
theorem advance_followedBy {count : Nat} (h : count ≤ c.rest.length) :
    (c.followedBy tail).advance count = (c.advance count).followedBy tail := by
  simp [advance, followedBy, List.take_append_of_le_length h, List.drop_append_of_le_length h]

/-! ## Readers -/

/-- Reading a quoted word goes over the closing quote. -/
theorem length_rest_readBody_lt {quote : Char} {opening : Nat} {value passed rest : List Char}
    {s : String} (h : readBody quote opening value passed rest = (.ok s, e)) :
    e.rest.length < rest.length := by
  fun_induction readBody quote opening value passed rest with
  | case1 | case2 | case4 | case6 => simp [reject] at h
  | case3 _ _ _ _ _ ih | case7 _ _ _ _ _ _ _ ih =>
    have := ih h
    simp only [List.length_cons]
    omega
  | case5 =>
    rw [← (Prod.mk.inj h).2]
    exact Nat.lt_add_one _

/-- A quoted word that is closed before the tail is closed without it. -/
theorem readBody_of_followedBy {quote : Char} {opening : Nat} {value passed rest : List Char}
    {s : String}
    (h : readBody quote opening value passed (rest ++ tail) = (.ok s, e.followedBy tail)) :
    readBody quote opening value passed rest = (.ok s, e) := by
  fun_induction readBody quote opening value passed rest with
  | case1 value passed =>
    have hlt := length_rest_readBody_lt h
    rw [rest_followedBy, List.nil_append, List.length_append] at hlt
    omega
  | case2 value passed =>
    -- A backslash in front of the tail takes its first character.
    cases tail with
    | nil => simp [readBody] at h
    | cons ch tail =>
      simp only [List.cons_append, List.nil_append, readBody] at h
      split at h
      · have hlt := length_rest_readBody_lt h
        simp at hlt
        omega
      · cases (Prod.mk.inj h).1
  | case3 value passed escaped rest hescaped ih =>
    simp only [List.cons_append, readBody, hescaped, if_true] at h
    exact ih h
  | case4 value passed escaped rest hescaped =>
    simp only [List.cons_append, readBody, hescaped] at h
    cases (Prod.mk.inj h).1
  | case5 value passed rest hlast hmore =>
    have hch := ne_backslash hlast hmore
    rw [List.cons_append, readBody_cons hch, if_pos rfl] at h
    split at h
    · obtain ⟨hs, he⟩ := Prod.mk.inj h
      rw [hs]
      exact congrArg _ (followedBy_inj.mp he)
    · cases (Prod.mk.inj h).1
  | case6 value passed rest hlast hmore after hbreak =>
    have hch := ne_backslash hlast hmore
    have hne : after.rest ≠ [] := by
      intro hnil
      exact hbreak (by simp [atBreak, atEnd, hnil])
    rw [List.cons_append, readBody_cons hch, if_pos rfl] at h
    have hbreak' : ¬(⟨quote :: passed, rest ++ tail⟩ : Cursor).atBreak = true := by
      rw [← atBreak_followedBy hne] at hbreak
      exact hbreak
    rw [if_neg hbreak'] at h
    cases (Prod.mk.inj h).1
  | case7 value passed ch rest hlast hmore hclosing ih =>
    have hch := ne_backslash hlast hmore
    rw [List.cons_append, readBody_cons hch, if_neg hclosing] at h
    exact ih h

/-- A word that is read before the tail is read without it. -/
theorem readString_of_followedBy {s : String} (hends : c.EndsBlank) (hne : c.rest ≠ [])
    (h : (c.followedBy tail).readString = (.ok s, e.followedBy tail)) :
    c.readString = (.ok s, e) := by
  obtain ⟨ch, rest, hrest⟩ := List.exists_cons_of_ne_nil hne
  unfold readString at h ⊢
  rw [rest_followedBy, hrest, List.cons_append] at h
  simp only [hrest] at h ⊢
  split at h
  · rename_i hquote
    rw [if_pos hquote]
    exact readBody_of_followedBy h
  · rename_i hquote
    rw [if_neg hquote]
    rw [hends.word_followedBy hne, hends.skipWord_followedBy hne] at h
    obtain ⟨hs, he⟩ := Prod.mk.inj h
    rw [hs, followedBy_inj.mp he]

/-- So is one that is converted. -/
theorem readWordAs_of_followedBy {β : Type} {convert : String → Option β} {reason : ValueFault}
    {x : β} (hends : c.EndsBlank) (hne : c.rest ≠ [])
    (h : (c.followedBy tail).readWordAs convert reason = (.ok x, e.followedBy tail)) :
    c.readWordAs convert reason = (.ok x, e) := by
  rw [readWordAs_eq_ok_iff, hends.word_followedBy hne, hends.skipWord_followedBy hne,
    followedBy_inj] at h
  exact readWordAs_eq_ok_iff.mpr h

end Cursor

/-- What a built-in type reads before the tail of a line, it reads without the tail. -/
theorem BuiltinType.parse_of_followedBy {b : BuiltinType} {c e : Cursor} {tail : List Char}
    {value : Value} (htail : tail ≠ []) (hends : c.EndsBlank) (hne : c.rest ≠ [])
    (h : b.parse (c.followedBy tail) = (.ok value, e.followedBy tail)) :
    b.parse c = (.ok value, e) := by
  have hstring {accept : String → Except Cause Value}
      (h : checked (c.followedBy tail) (c.followedBy tail).readString accept =
        (.ok value, e.followedBy tail)) : checked c c.readString accept = (.ok value, e) := by
    obtain ⟨x, hread, haccept⟩ := checked_eq_ok_iff.mp h
    exact checked_eq_ok_iff.mpr ⟨x, Cursor.readString_of_followedBy hends hne hread, haccept⟩
  have hconverted {β : Type} {convert : String → Option β} {reason : ValueFault}
      {accept : β → Except Cause Value}
      (h : checked (c.followedBy tail) ((c.followedBy tail).readWordAs convert reason) accept =
        (.ok value, e.followedBy tail)) :
      checked c (c.readWordAs convert reason) accept = (.ok value, e) := by
    obtain ⟨x, hread, haccept⟩ := checked_eq_ok_iff.mp h
    exact checked_eq_ok_iff.mpr ⟨x, Cursor.readWordAs_of_followedBy hends hne hread, haccept⟩
  cases b with
  | choice | word => exact hstring h
  | truth =>
    rw [parse] at h ⊢
    exact hconverted h
  | integer | decimal => exact hconverted h
  | greedy =>
    -- The rest of the line would have taken the tail.
    rw [parse] at h
    obtain ⟨_, hread, _⟩ := checked_eq_ok_iff.mp h
    unfold Cursor.readAll at hread
    split at hread
    · cases (Prod.mk.inj hread).1
    · have hrest := congrArg Cursor.rest (Prod.mk.inj hread).2
      exact absurd (List.append_eq_nil_iff.mp hrest.symm).2 htail

/-- A value is read without the tail if the line is read up to the tail behind it. -/
theorem BuiltinType.exists_parse_of_followedBy {b : BuiltinType} {c after : Cursor}
    {tail front : List Char} {value : Value} (htail : StartsWord tail) (hends : c.EndsBlank)
    (h : b.parse (c.followedBy tail) = (.ok value, after)) (hbreak : after.atBreak = true)
    (hbefore : after.skipBlank.rest = front ++ tail) :
    ∃ e : Cursor, after = e.followedBy tail ∧ b.parse c = (.ok value, e) ∧ c.atEnd = false ∧
      e.atEnd = false ∧ e.atBreak = true := by
  obtain ⟨d, hd⟩ := Cursor.exists_followedBy hbefore
  obtain ⟨e, rfl⟩ := Cursor.Reaches.exists_followedBy (hd ▸ Cursor.skipBlank_reached after)
  have hne : e.rest ≠ [] := Cursor.rest_ne_nil_of_atBreak htail hbreak
  have hnec : c.rest ≠ [] := by
    have hreached := b.parse_reached (c.followedBy tail)
    rw [h] at hreached
    have hle := hreached.length_rest_le
    simp only [Cursor.rest_followedBy, List.length_append] at hle
    have hpos := List.length_pos_iff.mpr hne
    exact List.length_pos_iff.mp (by omega)
  refine ⟨e, rfl, parse_of_followedBy htail.ne_nil hends hnec h, ?_, ?_, ?_⟩
  · simpa [Cursor.atEnd] using hnec
  · simpa [Cursor.atEnd] using hne
  · rw [← hbreak, Cursor.atBreak_followedBy hne]

end CommandLine
