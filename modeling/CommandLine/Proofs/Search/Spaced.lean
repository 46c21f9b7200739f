import Mathlib.Data.List.Basic
import CommandLine.Tree.Branch

/-!
# Spaced words

A line of words with one space between any two is read back word by word: where a cursor is before
some words, the word in front of it is the first of them, and it comes before the others when it
skips that word and the blanks behind. The built-in types read one word, wherever it stands, except
for the one that takes the rest of the line. Only quotes at the start of a word would change that.

* `Cursor.of_word` — a word in front of a blank or of the end;
* `Cursor.Before.word_eq`, `Cursor.Before.skip` — the words in front of a cursor;
* `Cursor.Before.advance_one`, `Cursor.Before.of_empty` — what is left of a word, to its end;
* `BuiltinType.parse_of_word_eq` — what a type makes of a word;
* `Settings.flagSpelling?_long` — a long name behind its prefix spells a flag.
-/

set_option autoImplicit false

namespace CommandLine

/-- A text is one word of a line: it has characters, and none of them is blank. -/
def Text.IsWord (s : String) : Prop := s ≠ "" ∧ ∀ ch ∈ s.toList, isBlank ch = false

/-- A word without quotes. -/
def Text.IsPlain (s : String) : Prop := IsWord s ∧ ∀ ch ∈ s.toList, ch ≠ '"' ∧ ch ≠ '\''

-- The characters of the text are gone through, not all characters that there are.
instance (s : String) : Decidable (Text.IsWord s) :=
  @instDecidableAnd _ _ inferInstance (List.decidableBAll _ _)

instance (s : String) : Decidable (Text.IsPlain s) :=
  @instDecidableAnd _ _ inferInstance (List.decidableBAll _ _)

theorem Text.IsWord.toList_ne_nil {s : String} (h : IsWord s) : s.toList ≠ [] := by
  simpa using h.1

/-- A prefix without blanks makes one word with a word behind it. -/
theorem Text.IsWord.append {front s : String} (hfront : ∀ ch ∈ front.toList, isBlank ch = false)
    (h : IsWord s) : IsWord (front ++ s) := by
  refine ⟨by simp [h.1], ?_⟩
  intro ch hch
  rw [String.toList_append, List.mem_append] at hch
  exact hch.elim (hfront ch) (h.2 ch)

/-- So does a word with a text without blanks behind it. -/
theorem Text.IsWord.extend {s back : String} (h : IsWord s)
    (hback : ∀ ch ∈ back.toList, isBlank ch = false) : IsWord (s ++ back) := by
  refine ⟨by simp [h.1], ?_⟩
  intro ch hch
  rw [String.toList_append, List.mem_append] at hch
  exact hch.elim (h.2 ch) (hback ch)

/-! ## Cursors -/

namespace Cursor

open Text

variable {c : Cursor} {w : String} {words : List String} {back : List Char}

/-- A word ends in front of the first blank. -/
theorem of_word (hw : IsWord w) (hc : c.rest = w.toList ++ back)
    (hback : back.head?.all isBlank = true) :
    c.word = w ∧ c.skipWord = ⟨w.toList.reverse ++ c.passed, back⟩ := by
  have hword (ch : Char) (hch : ch ∈ w.toList) : (!isBlank ch) = true := by simp [hw.2 ch hch]
  have hstop : back.takeWhile (fun ch => !isBlank ch) = [] ∧
      back.dropWhile (fun ch => !isBlank ch) = back := by
    cases back with
    | nil => simp
    | cons ch cs =>
      have hch : isBlank ch = true := by simpa using hback
      simp [hch]
  have htake : c.rest.takeWhile (fun ch => !isBlank ch) = w.toList := by
    rw [hc, List.takeWhile_append_of_pos hword, hstop.1, List.append_nil]
  have hdrop : c.rest.dropWhile (fun ch => !isBlank ch) = back := by
    rw [hc, List.dropWhile_append_of_pos hword, hstop.2]
  exact ⟨by rw [word, htake, String.ofList_toList], by rw [skipWord, skipWhile, htake, hdrop]⟩

/-- What is left of the line is some words, with one space between any two. -/
def Before (c : Cursor) (words : List String) : Prop := c.rest = (" ".intercalate words).toList

/-- The start of such a line is before all its words. -/
theorem Before.of_line (words : List String) :
    (ofString (" ".intercalate words)).Before words := rfl

theorem Before.atEnd (h : c.Before []) : c.atEnd = true := by
  rw [Cursor.atEnd, h]
  rfl

/-- In front of some words there are the characters of the first one, and then a space and the
characters of each of the others. -/
theorem before_cons_iff : c.Before (w :: words) ↔
    c.rest = w.toList ++ words.flatMap fun v => ' ' :: v.toList := by
  have hchars : (" ".intercalate (w :: words)).toList =
      w.toList ++ words.flatMap fun v => ' ' :: v.toList := by
    induction words generalizing w with
    | nil => simp
    | cons v words ih => simpa using ih
  rw [Before, hchars]

/-- The first word is read up to the space behind it. -/
theorem Before.of_word (h : c.Before (w :: words)) (hw : IsWord w) :
    c.word = w ∧ c.skipWord.rest = words.flatMap fun v => ' ' :: v.toList := by
  have hback : (words.flatMap fun v => ' ' :: v.toList).head?.all isBlank = true := by
    cases words with
    | nil => rfl
    | cons v words =>
      show isBlank ' ' = true
      decide
  obtain ⟨hword, hskip⟩ := Cursor.of_word hw (before_cons_iff.mp h) hback
  exact ⟨hword, congrArg Cursor.rest hskip⟩

/-- The word in front is the first of the words. -/
theorem Before.word_eq (h : c.Before (w :: words)) (hw : IsWord w) : c.word = w :=
  (h.of_word hw).1

/-- It starts with a character that is not blank. -/
theorem Before.exists_rest (h : c.Before (w :: words)) (hw : IsWord w) :
    ∃ ch rest, c.rest = ch :: rest ∧ isBlank ch = false := by
  obtain ⟨ch, cs, hcs⟩ := List.exists_cons_of_ne_nil hw.toList_ne_nil
  have hrest := before_cons_iff.mp h
  rw [hcs, List.cons_append] at hrest
  exact ⟨ch, _, hrest, hw.2 ch (hcs ▸ List.mem_cons_self)⟩

theorem Before.atEnd_eq_false (h : c.Before (w :: words)) (hw : IsWord w) : c.atEnd = false := by
  obtain ⟨ch, rest, hrest, _⟩ := h.exists_rest hw
  simp [Cursor.atEnd, hrest]

/-- No word ends in front of one. -/
theorem Before.atBreak_eq_false (h : c.Before (w :: words)) (hw : IsWord w) :
    c.atBreak = false := by
  obtain ⟨ch, rest, hrest, hch⟩ := h.exists_rest hw
  simp [atBreak, Cursor.atEnd, atBlank, hrest, hch]

/-- In front of a word there are no blanks to skip. -/
theorem Before.skipBlank_eq (h : c.Before (w :: words)) (hw : IsWord w) : c.skipBlank = c := by
  obtain ⟨ch, rest, hrest, hch⟩ := h.exists_rest hw
  ext1 <;> simp [skipBlank, skipWhile, hrest, hch]

/-- Where nothing is left of the first word it ends, and the others come behind the blank. -/
theorem Before.of_empty (h : c.Before ("" :: words)) (hwords : ∀ v ∈ words, IsWord v) :
    c.atBreak = true ∧ c.skipBlank.Before words := by
  have hrest := before_cons_iff.mp h
  cases words with
  | nil =>
    have hnil : c.rest = [] := hrest
    simp [atBreak, Cursor.atEnd, skipBlank, skipWhile, Before, hnil]
  | cons v words =>
    have hspace : isBlank ' ' = true := by decide
    have hcons : c.rest = ' ' :: (v.toList ++ words.flatMap fun v => ' ' :: v.toList) := hrest
    obtain ⟨ch, cs, hcs⟩ :=
      List.exists_cons_of_ne_nil (hwords v List.mem_cons_self).toList_ne_nil
    have hch : isBlank ch = false :=
      (hwords v List.mem_cons_self).2 ch (hcs ▸ List.mem_cons_self)
    refine ⟨by simp [atBreak, atBlank, hcons, hspace], before_cons_iff.mpr ?_⟩
    simp [skipBlank, skipWhile, hcons, hspace, hcs, hch]

/-- One character further the first word is shorter. -/
theorem Before.advance_one {ch : Char} {x : String} (h : c.Before (w :: words))
    (hw : w.toList = ch :: x.toList) :
    (∃ rest, c.rest = ch :: rest) ∧ (c.advance 1).Before (x :: words) := by
  have hrest := before_cons_iff.mp h
  rw [hw, List.cons_append] at hrest
  refine ⟨⟨_, hrest⟩, before_cons_iff.mpr ?_⟩
  rw [advance, hrest]
  rfl

/-- Behind the first word nothing is left of it. -/
theorem Before.skipWord (h : c.Before (w :: words)) (hw : IsWord w) :
    c.skipWord.Before ("" :: words) :=
  before_cons_iff.mpr (h.of_word hw).2

/-- Behind the first word and the blanks the cursor comes before the other words. -/
theorem Before.skip (h : c.Before (w :: words)) (hw : IsWord w) (hwords : ∀ v ∈ words, IsWord v) :
    c.skipWord.skipBlank.Before words :=
  ((h.skipWord hw).of_empty hwords).2

/-! ### Readers -/

/-- A word that is a whole line is the word at its start. -/
theorem word_ofString (hw : IsWord w) : (ofString w).word = w :=
  (Before.of_line [w] : (ofString (" ".intercalate [w])).Before [w]).word_eq hw

/-- A word that does not start with a quote is read as it stands. -/
theorem readString_of_word_eq (hw : IsPlain w) (hc : c.word = w) :
    c.readString = (.ok w, c.skipWord) := by
  unfold readString
  split
  · rename_i hrest
    rw [word, hrest] at hc
    exact absurd hc.symm hw.1.1
  · rename_i ch rest hrest
    have hch : ch ∈ w.toList := by
      obtain ⟨first, cs, hcs⟩ := List.exists_cons_of_ne_nil hw.1.toList_ne_nil
      have htake : (ch :: rest).takeWhile (fun ch => !isBlank ch) = first :: cs := by
        rw [← hcs, ← hc, word, String.toList_ofList, hrest]
      by_cases hblank : isBlank ch = true
      · simp [hblank] at htake
      · simp only [hblank, Bool.not_false, List.takeWhile_cons_of_pos] at htake
        rw [hcs, (List.cons.inj htake).1]
        exact List.mem_cons_self
    obtain ⟨hdouble, hsingle⟩ := hw.2 ch hch
    rw [if_neg (by simp [hdouble, hsingle]), hc]

end Cursor

/-! ## Built-in types -/

namespace BuiltinType

open Text

variable {b : BuiltinType} {c after : Cursor} {w : String} {value : Value}

/-- A type that does not take the rest of the line reads a plain word wherever it stands. -/
theorem parse_of_word_eq (hb : b.traits.greedy = false) (hw : IsPlain w)
    (h : b.parse (.ofString w) = (.ok value, after)) (hc : c.word = w) :
    b.parse c = (.ok value, c.skipWord) := by
  have hself := Cursor.word_ofString hw.1
  have hstring {accept : String → Except Cause Value}
      (h : checked (.ofString w) (Cursor.readString (.ofString w)) accept = (.ok value, after)) :
      checked c c.readString accept = (.ok value, c.skipWord) := by
    obtain ⟨x, hread, haccept⟩ := checked_eq_ok_iff.mp h
    rw [Cursor.readString_of_word_eq hw hself] at hread
    obtain rfl := Except.ok.inj (Prod.mk.inj hread).1
    exact checked_eq_ok_iff.mpr ⟨w, Cursor.readString_of_word_eq hw hc, haccept⟩
  have hconverted {β : Type} {convert : String → Option β} {reason : ValueFault}
      {accept : β → Except Cause Value}
      (h : checked (.ofString w) (Cursor.readWordAs convert reason (.ofString w)) accept =
        (.ok value, after)) :
      checked c (c.readWordAs convert reason) accept = (.ok value, c.skipWord) := by
    obtain ⟨x, hread, haccept⟩ := checked_eq_ok_iff.mp h
    obtain ⟨hne, hconvert, _⟩ := Cursor.readWordAs_eq_ok_iff.mp hread
    rw [hself] at hne hconvert
    exact checked_eq_ok_iff.mpr
      ⟨x, Cursor.readWordAs_eq_ok_iff.mpr ⟨hc ▸ hne, hc ▸ hconvert, rfl⟩, haccept⟩
  cases b with
  | choice | word => exact hstring h
  | truth =>
    rw [parse] at h ⊢
    exact hconverted h
  | integer | decimal => exact hconverted h
  | greedy => cases hb

/-- The type that takes the rest of the line takes all of it. -/
theorem exists_parse_of_greedy (hb : b.traits.greedy = true) (hc : c.atEnd = false) :
    ∃ value after, b.parse c = (.ok value, after) ∧ after.atEnd = true := by
  cases b with
  | greedy =>
    refine ⟨.text c.restText, c.skipAll, ?_, rfl⟩
    rw [parse]
    exact checked_eq_ok_iff.mpr ⟨c.restText, by simp [Cursor.readAll, hc], rfl⟩
  | choice | truth | integer | decimal | word => cases hb

end BuiltinType

/-! ## Flags -/

/-- The long prefix and a long name behind it spell the flag. -/
theorem Settings.flagSpelling?_long (s : Settings) {name : String} (hname : name ≠ "") :
    s.flagSpelling? (s.longPrefix ++ name) = some (.long name) := by
  have hspelling : s.longPrefix.toList.isPrefixOf? (s.longPrefix ++ name).toList =
      some name.toList := by
    rw [List.isPrefixOf?_eq_some_iff_append_eq, String.toList_append]
  rw [flagSpelling?, hspelling]
  simp [hname]

/-- The usual prefixes: two dashes before a long name and one before shorthands. -/
structure Settings.Dashed (s : Settings) : Prop where
  long : s.longPrefix = "--"
  short : s.shortPrefix = "-"

/-- Dashes are no blanks. -/
theorem Settings.Dashed.isBlank_long {s : Settings} (h : s.Dashed) :
    ∀ ch ∈ s.longPrefix.toList, Text.isBlank ch = false := by
  intro ch hch
  rw [h.long] at hch
  obtain rfl : ch = '-' := by simpa using hch
  decide

theorem Settings.Dashed.isBlank_short {s : Settings} (h : s.Dashed) :
    ∀ ch ∈ s.shortPrefix.toList, Text.isBlank ch = false := by
  intro ch hch
  rw [h.short] at hch
  obtain rfl : ch = '-' := by simpa using hch
  decide

/-- A character that a dash in front of it makes a shorthand, and no long name or number. Every
letter is one. -/
structure Text.StandsAlone (ch : Char) : Prop where
  not_blank : isBlank ch = false
  not_dash : ch ≠ '-'
  not_number : (ch.isDigit || ch = '.') = false

/-- Letters can be shorthands. -/
theorem Text.StandsAlone.of_isAlpha {ch : Char} (h : ch.isAlpha = true) : StandsAlone ch := by
  have hupper (h : ch.isUpper = true) : 65 ≤ ch.toNat ∧ ch.toNat ≤ 90 := by
    simpa [UInt32.le_iff_toNat_le] using of_decide_eq_true h
  have hlower (h : ch.isLower = true) : 97 ≤ ch.toNat ∧ ch.toNat ≤ 122 := by
    simpa [UInt32.le_iff_toNat_le] using Bool.and_eq_true_iff.mp h
  have hrange := (Bool.or_eq_true_iff.mp h).imp hupper hlower
  have hne {d : Char} (hd : d.toNat < 65) : ch ≠ d := by
    rintro rfl
    omega
  have hblank : isBlank ch = false := by
    simp only [isBlank, Bool.or_eq_false_iff, Bool.and_eq_false_imp, decide_eq_true_eq,
      decide_eq_false_iff_not]
    omega
  have hdigit : ch.isDigit = false := by
    rw [Bool.eq_false_iff]
    intro hdigit
    have hle : ch.toNat ≤ 57 := by
      simpa [UInt32.le_iff_toNat_le] using (Bool.and_eq_true_iff.mp hdigit).2
    omega
  exact ⟨hblank, hne (by decide), by rw [hdigit, decide_eq_false (hne (by decide))]; rfl⟩

/-- A dash and a character that stands alone start a word of shorthands. -/
theorem Settings.Dashed.flagSpelling?_short {s : Settings} (h : s.Dashed) {word : String}
    {ch : Char} {rest : List Char} (hch : Text.StandsAlone ch)
    (hword : word.toList = '-' :: ch :: rest) : s.flagSpelling? word = some .short := by
  have hlong : "--".toList.isPrefixOf? word.toList = none := by
    rw [hword]
    show ['-', '-'].isPrefixOf? ('-' :: ch :: rest) = none
    simp [List.isPrefixOf?, hch.not_dash.symm]
  have hshort : "-".toList.isPrefixOf? word.toList = some (ch :: rest) := by
    rw [hword]
    rfl
  have hnumber : looksNumeric (ch :: rest) = false := by
    rw [looksNumeric, hch.not_number, Bool.false_and]
  rw [flagSpelling?, h.long, h.short, hlong]
  simp only [hshort]
  simp [hnumber]

/-- A word that does not start with a dash spells no flag. -/
theorem Settings.Dashed.flagSpelling?_eq_none {s : Settings} (h : s.Dashed) {word : String}
    (hword : word.toList.head? ≠ some '-') : s.flagSpelling? word = none := by
  have hprefix (more : List Char) : ('-' :: more).isPrefixOf? word.toList = none := by
    cases hchars : word.toList with
    | nil => rfl
    | cons ch cs =>
      have hne : ch ≠ '-' := by
        rintro rfl
        simp [hchars] at hword
      simp [List.isPrefixOf?, hne.symm]
  rw [flagSpelling?, h.long, h.short, show "--".toList = ['-', '-'] from rfl, hprefix,
    show "-".toList = ['-'] from rfl, hprefix]

/-- Usable settings have no fault. -/
theorem Settings.fault?_eq_none {s : Settings} (h : s.validate = .ok ()) : s.fault? = none := by
  unfold validate at h
  split at h
  · cases h
  · assumption

/-- Usable settings have a long prefix. -/
theorem Settings.longPrefix_ne_empty {s : Settings} (h : s.validate = .ok ()) :
    s.longPrefix ≠ "" := by
  have hfault := Settings.fault?_eq_none h
  intro hempty
  unfold fault? at hfault
  split at hfault
  · cases hfault
  · simp [hempty] at hfault

/-- Usable settings have no blanks in the long prefix. -/
theorem Settings.isBlank_longPrefix (s : Settings) (h : s.validate = .ok ()) :
    ∀ ch ∈ s.longPrefix.toList, Text.isBlank ch = false := by
  have hfault := Settings.fault?_eq_none h
  have hblank : (s.longPrefix.toList ++ s.shortPrefix.toList).any Text.isBlank = false := by
    unfold fault? at hfault
    split at hfault
    · cases hfault
    · split at hfault
      · cases hfault
      · split at hfault
        · cases hfault
        · split at hfault
          · cases hfault
          · rename_i hblank
            simpa using hblank
  intro ch hch
  rw [List.any_eq_false] at hblank
  simpa using hblank ch (List.mem_append_left _ hch)

end CommandLine
