import CommandLine.Proofs.Search.Suggested

/-!
# The same words on two lines

Two cursors on two lines **face** the same words if neither stands at a blank and the words that are
left are the same; they are **level** if inside a word as much of it is left before both, and the
words behind it are the same. Moving over what is the same keeps this up, whatever the blanks are.
Among cursors that face words of one line the order is that of what they have left, so two lines
with the same words agree on it.

* `Reaches.words_subset` — the words that are left behind a word;
* `Level.facing_skipBlank`, `Facing.level`, `Level.skipWord`, `Level.advance` — moving on;
* `Facing.position_lt_iff` — the order of positions;
* `Text.words_intercalate` — words with single spaces between them;
* `BuiltinType.parse_of_plain` — a type that does not take the rest of the line looks at one word.
-/

set_option autoImplicit false

namespace CommandLine

open Text

namespace Cursor

/-- The words that are left of the line, the first of them from the cursor on. -/
def words (c : Cursor) : List (List Char) := Text.words c.rest

variable {c d e : Cursor}

@[simp] theorem words_skipBlank (c : Cursor) : c.skipBlank.words = c.words :=
  Text.words_dropWhile c.rest

/-- A word is behind the cursor where one may end. -/
theorem word_eq_empty_iff : c.word = "" ↔ c.atBreak = true := by
  rw [← String.toList_inj, toList_word]
  cases hrest : c.rest with
  | nil => simp [atBreak, atEnd, hrest]
  | cons ch rest => cases hch : isBlank ch <;> simp [atBreak, atEnd, atBlank, hrest, hch]

/-- At a break there is no word to go over. -/
theorem skipWord_of_atBreak (h : c.atBreak = true) : c.skipWord = c := by
  have hword := word_eq_nil_of_atBreak h
  rw [toList_word] at hword
  have hsplit := List.takeWhile_append_dropWhile (p := fun ch => !isBlank ch) (l := c.rest)
  rw [hword, List.nil_append] at hsplit
  ext1 <;> simp [skipWord, skipWhile, hword, hsplit]

/-- Where none may end there is one, and it goes on up to the next blank. -/
theorem isWord_word (h : c.atBreak = false) : IsWord c.word ∧
    c.rest = c.word.toList ++ c.skipWord.rest ∧ c.skipWord.rest.head?.all isBlank = true := by
  refine ⟨⟨by simp [word_eq_empty_iff, h], fun ch hch => ?_⟩, ?_, ?_⟩
  · rw [toList_word] at hch
    simpa using List.mem_takeWhile_imp (p := fun ch => !isBlank ch) hch
  · rw [toList_word]
    exact List.takeWhile_append_dropWhile.symm
  · have hbreak := c.atBreak_skipWord
    cases hrest : c.skipWord.rest with
    | nil => rfl
    | cons ch rest => simpa [atBreak, atEnd, atBlank, hrest] using hbreak

/-- Inside a word what is left of it comes first. -/
theorem words_eq_cons (h : c.atBreak = false) :
    c.words = c.word.toList :: c.skipWord.words := by
  obtain ⟨hword, hrest, hback⟩ := isWord_word h
  rw [words, hrest, Text.words_append hword.toList_ne_nil hword.2 hback, words]

/-- If no blank comes next, only the end is a break. -/
theorem atBreak_eq_atEnd (h : c.atBlank = false) : c.atBreak = c.atEnd := by
  rw [atBreak, h, Bool.or_false]

/-- Nothing is left where no words are and no blank. -/
theorem words_eq_nil_iff (h : c.atBlank = false) : c.words = [] ↔ c.atBreak = true := by
  rw [atBreak_eq_atEnd h]
  cases hrest : c.rest with
  | nil => simp [words, atEnd, hrest, Text.words_eq_nil_iff]
  | cons ch rest =>
    have hch : isBlank ch = false := by simpa [atBlank, hrest] using h
    simp [words, atEnd, hrest, Text.words_eq_nil_iff, hch]

/-- Behind the last word is the end of the line. -/
theorem atEnd_of_words_eq_nil (h : c.atBlank = false) (hwords : c.words = []) :
    c.atEnd = true := by
  rw [← atBreak_eq_atEnd h]
  exact (words_eq_nil_iff h).mp hwords

/-- The first of the words that are left begins here, and the others are behind it. -/
theorem of_words_eq_cons {w : String} {later : List (List Char)} (h : c.atBlank = false)
    (hwords : c.words = w.toList :: later) :
    c.atBreak = false ∧ c.word = w ∧ c.skipWord.skipBlank.words = later := by
  have hbreak : c.atBreak = false := by
    rw [← Bool.not_eq_true, ← words_eq_nil_iff h, hwords]
    exact List.cons_ne_nil _ _
  rw [words_eq_cons hbreak, List.cons.injEq, String.toList_inj] at hwords
  exact ⟨hbreak, hwords.1, (words_skipBlank _).trans hwords.2⟩

/-- The words that are left behind a word are among those that were left before. -/
theorem Reaches.words_subset (h : c.Reaches d) (hd : d.atBreak = true) : d.words ⊆ c.words := by
  obtain ⟨taken, hrest, -⟩ := h
  rw [words, words, hrest]
  refine words_subset_append taken ?_
  cases hd' : d.rest with
  | nil => rfl
  | cons ch rest => simpa [atBreak, atEnd, atBlank, hd'] using hd

/-! ## Two lines -/

/-- A cursor on either of two lines, neither at a blank, with the same words left. -/
structure Facing (s s' : List Char) (c c' : Cursor) : Prop where
  source_eq : c.source = s
  source_eq' : c'.source = s'
  atBlank : c.atBlank = false
  atBlank' : c'.atBlank = false
  words_eq : c.words = c'.words

/-- A cursor on either of two lines, with the same left of a word and the same words behind it. -/
structure Level (s s' : List Char) (c c' : Cursor) : Prop where
  source_eq : c.source = s
  source_eq' : c'.source = s'
  word_eq : c.word = c'.word
  later_eq : c.skipWord.words = c'.skipWord.words

variable {s s' : List Char} {c' d' e' : Cursor}

/-- Places that face the same words are both at a break or neither. -/
theorem Facing.atBreak_eq (h : Facing s s' c c') : c.atBreak = c'.atBreak := by
  rw [Bool.eq_iff_iff, ← words_eq_nil_iff h.atBlank, ← words_eq_nil_iff h.atBlank', h.words_eq]

/-- And both at the end or neither. -/
theorem Facing.atEnd_eq (h : Facing s s' c c') : c.atEnd = c'.atEnd := by
  rw [← atBreak_eq_atEnd h.atBlank, ← atBreak_eq_atEnd h.atBlank', h.atBreak_eq]

/-- Cursors that face the same words are level. -/
theorem Facing.level (h : Facing s s' c c') : Level s s' c c' := by
  have hbreak := h.atBreak_eq
  have hwords := h.words_eq
  refine ⟨h.source_eq, h.source_eq', ?_, ?_⟩ <;> cases hc : c.atBreak
  · rw [words_eq_cons hc, words_eq_cons (hbreak.symm.trans hc)] at hwords
    exact String.toList_inj.mp (List.cons.inj hwords).1
  · rw [word_eq_empty_iff.mpr hc, word_eq_empty_iff.mpr (hbreak.symm.trans hc)]
  · rw [words_eq_cons hc, words_eq_cons (hbreak.symm.trans hc)] at hwords
    exact (List.cons.inj hwords).2
  · rwa [skipWord_of_atBreak hc, skipWord_of_atBreak (hbreak.symm.trans hc)]

/-- So are places in front of the same characters of a word. -/
theorem Level.atBreak_eq (h : Level s s' c c') : c.atBreak = c'.atBreak := by
  rw [Bool.eq_iff_iff, ← word_eq_empty_iff, ← word_eq_empty_iff, h.word_eq]

/-- Inside a word level cursors face the same words. -/
theorem Level.facing (h : Level s s' c c') (hc : c.atBreak = false) : Facing s s' c c' := by
  have hc' : c'.atBreak = false := h.atBreak_eq.symm.trans hc
  refine ⟨h.source_eq, h.source_eq', (Bool.or_eq_false_iff.mp hc).2,
    (Bool.or_eq_false_iff.mp hc').2, ?_⟩
  rw [words_eq_cons hc, words_eq_cons hc', h.word_eq, h.later_eq]

/-- Behind the blanks they face the same words. -/
theorem Level.facing_skipBlank (h : Level s s' c c') : Facing s s' c.skipBlank c'.skipBlank := by
  refine ⟨(skipBlank_reached c).source_eq.trans h.source_eq,
    (skipBlank_reached c').source_eq.trans h.source_eq', atBlank_skipBlank c,
    atBlank_skipBlank c', ?_⟩
  rw [words_skipBlank, words_skipBlank]
  cases hc : c.atBreak with
  | false => exact (h.facing hc).words_eq
  | true =>
    have hlater := h.later_eq
    rwa [skipWord_of_atBreak hc, skipWord_of_atBreak (h.atBreak_eq.symm.trans hc)] at hlater

/-- Behind the word they are level. -/
theorem Level.skipWord (h : Level s s' c c') : Level s s' c.skipWord c'.skipWord := by
  refine ⟨(skipWord_reached c).source_eq.trans h.source_eq,
    (skipWord_reached c').source_eq.trans h.source_eq', ?_, ?_⟩
  · rw [word_eq_empty_iff.mpr c.atBreak_skipWord, word_eq_empty_iff.mpr c'.atBreak_skipWord]
  · rw [skipWord_of_atBreak c.atBreak_skipWord, skipWord_of_atBreak c'.atBreak_skipWord]
    exact h.later_eq

/-- The words behind the word are the same from every place inside it. -/
theorem skipWord_advance {front later : List Char} (h : c.word.toList = front ++ later) :
    (c.advance front.length).skipWord = c.skipWord := by
  have hword := word_advance h
  rw [toList_word] at h hword
  have hsplit := List.takeWhile_append_dropWhile (p := fun ch => !isBlank ch) (l := c.rest)
  rw [h, List.append_assoc] at hsplit
  have hrest : (c.advance front.length).rest =
      later ++ c.rest.dropWhile fun ch => !isBlank ch := by
    rw [advance, ← hsplit, List.drop_left, hsplit]
  have hpassed : (c.advance front.length).passed = front.reverse ++ c.passed := by
    rw [advance, ← hsplit, List.take_left]
  have hdrop : (c.advance front.length).rest.dropWhile (fun ch => !isBlank ch) =
      c.rest.dropWhile fun ch => !isBlank ch := by
    have hsplit' := List.takeWhile_append_dropWhile (p := fun ch => !isBlank ch)
      (l := (c.advance front.length).rest)
    rw [hword, hrest] at hsplit'
    rw [hrest]
    exact List.append_cancel_left hsplit'
  ext1
  · simp only [Cursor.skipWord, skipWhile, hword, hpassed, h, List.reverse_append,
      List.append_assoc]
  · exact hdrop

/-- As far into the word they are level, too. -/
theorem Level.advance {front later : List Char} (h : Level s s' c c')
    (hword : c.word.toList = front ++ later) :
    Level s s' (c.advance front.length) (c'.advance front.length) := by
  have hword' : c'.word.toList = front ++ later := h.word_eq ▸ hword
  refine ⟨(advance_reached _ c).source_eq.trans h.source_eq,
    (advance_reached _ c').source_eq.trans h.source_eq', ?_, ?_⟩
  · rw [← String.toList_inj, word_advance hword, word_advance hword']
  · rw [skipWord_advance hword, skipWord_advance hword']
    exact h.later_eq

/-! ### The order of positions -/

/-- Of two cursors on one line one is ahead of the other. -/
theorem reaches_or_reaches (h : d.source = e.source) : d.Reaches e ∨ e.Reaches d := by
  rcases List.append_eq_append_iff.mp h with ⟨taken, hpassed, hrest⟩ | ⟨taken, hpassed, hrest⟩
  · refine .inl ⟨taken, hrest, ?_⟩
    simpa using congrArg List.reverse hpassed
  · refine .inr ⟨taken, hrest, ?_⟩
    simpa using congrArg List.reverse hpassed

/-- The number of characters in the words that are left. -/
def solid (c : Cursor) : Nat := c.words.flatten.length

/-- A cursor that is ahead has less left, unless blanks only were passed. -/
theorem Reaches.solid_eq (h : d.Reaches e) :
    ∃ taken, d.rest = taken ++ e.rest ∧ e.position = d.position + byteCount taken ∧
      d.solid = (taken.filter fun ch => !isBlank ch).length + e.solid := by
  obtain ⟨taken, hrest, hpassed⟩ := h
  refine ⟨taken, hrest, ?_, ?_⟩
  · simp [position, hpassed, Nat.add_comm]
  · simp [solid, words, flatten_words, hrest]

/-- Where no blank follows, a cursor is before another one on the line if more is left. -/
theorem position_lt_iff (hsource : d.source = e.source) (hd : d.atBlank = false) :
    d.position < e.position ↔ e.solid < d.solid := by
  rcases reaches_or_reaches hsource with h | h
  · obtain ⟨taken, hrest, hposition, hsolid⟩ := h.solid_eq
    cases taken with
    | nil => simp_all [byteCount]
    | cons ch taken =>
      have hch : isBlank ch = false := by simpa [Cursor.atBlank, hrest] using hd
      have hpos := Char.utf8Size_pos ch
      simp only [byteCount] at hposition
      simp only [List.filter_cons, hch, Bool.not_false, if_true, List.length_cons] at hsolid
      omega
  · obtain ⟨taken, _, hposition, hsolid⟩ := h.solid_eq
    omega

/-- Two lines with the same words agree on the order of cursors that face words. -/
theorem Facing.position_lt_iff (hd : Facing s s' d d') (he : Facing s s' e e') :
    d.position < e.position ↔ d'.position < e'.position := by
  rw [Cursor.position_lt_iff (hd.source_eq.trans he.source_eq.symm) hd.atBlank,
    Cursor.position_lt_iff (hd.source_eq'.trans he.source_eq'.symm) hd.atBlank',
    solid, solid, solid, solid, hd.words_eq, he.words_eq]

/-- On lines without quotes words have none. -/
theorem isPlain_word (hline : ∀ ch ∈ c.source, ch ≠ '"' ∧ ch ≠ '\'') (hc : c.atBreak = false) :
    IsPlain c.word := by
  obtain ⟨hword, hrest, _⟩ := isWord_word hc
  refine ⟨hword, fun ch hch => hline ch (List.mem_append_right _ ?_)⟩
  rw [hrest]
  exact List.mem_append_left _ hch

end Cursor

/-! ## Words with spaces between them -/

namespace Text

/-- Words on a line have one space between any two. -/
theorem toList_intercalate_cons (w : String) (ws : List String) :
    (" ".intercalate (w :: ws)).toList = w.toList ++ ws.flatMap fun v => ' ' :: v.toList :=
  Cursor.before_cons_iff.mp (Cursor.Before.of_line (w :: ws))

/-- Words with single spaces between them are the words of their line. -/
theorem words_intercalate {ws : List String} (h : ∀ w ∈ ws, IsWord w) :
    words (" ".intercalate ws).toList = ws.map String.toList := by
  induction ws with
  | nil => rfl
  | cons w ws ih =>
    have hw : IsWord w := h w List.mem_cons_self
    rw [toList_intercalate_cons, List.map_cons]
    cases ws with
    | nil => exact words_append hw.toList_ne_nil hw.2 rfl
    | cons v ws =>
      have hrest := ih fun u hu => h u (List.mem_cons_of_mem w hu)
      rw [words_append hw.toList_ne_nil hw.2 rfl, List.flatMap_cons, List.cons_append,
        words_cons_of_isBlank rfl, ← toList_intercalate_cons, hrest]

/-- The characters of such a line are spaces and those of the words. -/
theorem mem_intercalate {ws : List String} {ch : Char} (h : ch ∈ (" ".intercalate ws).toList) :
    ch = ' ' ∨ ∃ w ∈ ws, ch ∈ w.toList := by
  cases ws with
  | nil => cases h
  | cons w ws =>
    rw [toList_intercalate_cons, List.mem_append, List.mem_flatMap] at h
    rcases h with h | ⟨v, hv, h⟩
    · exact .inr ⟨w, List.mem_cons_self, h⟩
    · rcases List.mem_cons.mp h with rfl | h
      · exact .inl rfl
      · exact .inr ⟨v, List.mem_cons_of_mem w hv, h⟩

end Text

/-! ## Built-in types -/

namespace BuiltinType

/-- What a type that does not take the rest of the line makes of a word. -/
def ofWord : BuiltinType → String → Except Cause Value
  | choice choices caseSensitive, w => acceptChoice choices caseSensitive w
  | truth, w => converted Cursor.truthOfWord? .truth (fun b => .ok (.truth b)) w
  | integer least greatest, w =>
    converted Numeral.readInteger? .integer (acceptInteger least greatest) w
  | decimal least greatest, w =>
    converted (fun w => (Numeral.readDecimal? w).filter Float.isFinite) .number
      (acceptDecimal least greatest) w
  | word least greatest, w => acceptWord least greatest w
  | greedy, w => .ok (.text w)
where
  converted {β : Type} (convert : String → Option β) (reason : ValueFault)
      (accept : β → Except Cause Value) (w : String) : Except Cause Value :=
    match convert w with
    | some x => accept x
    | none => .error (.invalidValue w reason)

/-- Such a type looks at the word in front of the cursor and stops behind it. -/
theorem parse_of_plain {b : BuiltinType} {c : Cursor} (hb : b.traits.greedy = false)
    (hc : IsPlain c.word) :
    b.parse c =
      ((b.ofWord c.word).mapError fun cause => ⟨cause, c.position, none⟩, c.skipWord) := by
  have hstring (accept : String → Except Cause Value) : checked c c.readString accept =
      ((accept c.word).mapError fun cause => ⟨cause, c.position, none⟩, c.skipWord) := by
    rw [Cursor.readString_of_word_eq hc rfl, checked]
    cases accept c.word <;> rfl
  have hconverted {β : Type} (convert : String → Option β) (reason : ValueFault)
      (accept : β → Except Cause Value) : checked c (c.readWordAs convert reason) accept =
        ((ofWord.converted convert reason accept c.word).mapError
          fun cause => ⟨cause, c.position, none⟩, c.skipWord) := by
    rw [Cursor.readWordAs, if_neg hc.1.1, ofWord.converted]
    cases convert c.word with
    | none => rfl
    | some x =>
      simp only [checked]
      cases accept x <;> rfl
  cases b with
  | choice | word => exact hstring _
  | truth =>
    rw [parse]
    exact hconverted _ _ _
  | integer | decimal => exact hconverted _ _ _
  | greedy => cases hb

end BuiltinType

end CommandLine
