/-!
# Blank characters

The Unicode property `White_Space`: 25 code points, of which the zero-width ones (U+200B, U+FEFF)
are not members. Words are the longest runs of characters outside the class.

* `words_eq_nil_iff` — a text has no words exactly when every character is blank;
* `words_dropWhile`, `words_append` — blanks in front do not count, and a word in front comes first;
* `words_subset_append` — the words behind a place where no word goes on;
* `flatten_words`, `of_mem_words` — the words together are the characters that are not blank.
-/

set_option autoImplicit false

namespace CommandLine.Text

/-- The characters that separate words. -/
def isBlank (c : Char) : Bool :=
  let n := c.toNat
  (9 ≤ n && n ≤ 13) || n = 0x20 || n = 0x85 || n = 0xA0 || n = 0x1680 ||
    (0x2000 ≤ n && n ≤ 0x200A) || n = 0x2028 || n = 0x2029 || n = 0x202F || n = 0x205F ||
    n = 0x3000

/-- The text without the blank characters at its start. -/
def trimStart (cs : List Char) : List Char := cs.dropWhile isBlank

/-- The text without the blank characters at its two ends. -/
def trim (cs : List Char) : List Char := (trimStart (trimStart cs).reverse).reverse

/-- Whether a text holds blank characters only. -/
def isBlankText (s : String) : Bool := s.toList.all isBlank

/-- One word in front of the words already found, unless it is empty. -/
private def consWord (word : List Char) (found : List (List Char)) : List (List Char) :=
  if word.isEmpty then found else word.reverse :: found

/-- The words of a text, the letters of the word being read kept latest first. -/
private def wordsFrom (word : List Char) : List Char → List (List Char)
  | [] => consWord word []
  | c :: cs => if isBlank c then consWord word (wordsFrom [] cs) else wordsFrom (c :: word) cs

/-- The words of a text, from left to right. -/
def words (cs : List Char) : List (List Char) := wordsFrom [] cs

/-- There is no word only where nothing but blanks is read. -/
private theorem wordsFrom_eq_nil_iff (word cs : List Char) :
    wordsFrom word cs = [] ↔ word = [] ∧ ∀ c ∈ cs, isBlank c = true := by
  induction cs generalizing word with
  | nil => cases word <;> simp [wordsFrom, consWord]
  | cons c cs ih =>
    by_cases hc : isBlank c = true
    · cases word <;> simp [wordsFrom, consWord, hc, ih]
    · simp [wordsFrom, hc, ih]

/-- A text has no words exactly when every character is blank. -/
theorem words_eq_nil_iff (cs : List Char) : words cs = [] ↔ ∀ c ∈ cs, isBlank c = true := by
  simp [words, wordsFrom_eq_nil_iff]

/-- A blank in front makes no word. -/
theorem words_cons_of_isBlank {c : Char} (hc : isBlank c = true) (cs : List Char) :
    words (c :: cs) = words cs := by
  simp [words, wordsFrom, consWord, hc]

/-- Blanks in front do not count. -/
@[simp] theorem words_dropWhile (cs : List Char) : words (cs.dropWhile isBlank) = words cs := by
  induction cs with
  | nil => rfl
  | cons c cs ih =>
    by_cases hc : isBlank c = true
    · rw [List.dropWhile_cons_of_pos hc, ih, words_cons_of_isBlank hc]
    · rw [List.dropWhile_cons_of_neg hc]

-- The word being read goes on up to the next blank; the words behind it are those of what is left.
/-- Characters in front of a break belong to the word that was begun. -/
private theorem wordsFrom_append (word front : List Char) {back : List Char}
    (hfront : ∀ c ∈ front, isBlank c = false) (hback : back.head?.all isBlank = true) :
    wordsFrom word (front ++ back) = consWord (front.reverse ++ word) (words back) := by
  induction front generalizing word with
  | nil =>
    cases back with
    | nil => rfl
    | cons c cs =>
      have hc : isBlank c = true := by simpa using hback
      rw [words_cons_of_isBlank hc]
      simp [wordsFrom, words, hc]
  | cons c front ih =>
    have hc : isBlank c = false := hfront c List.mem_cons_self
    rw [List.cons_append, wordsFrom, if_neg (by simp [hc]),
      ih (c :: word) fun d hd => hfront d (List.mem_cons_of_mem c hd)]
    simp

/-- A word in front of a blank or of the end comes first. -/
theorem words_append {word back : List Char} (hne : word ≠ [])
    (hword : ∀ c ∈ word, isBlank c = false) (hback : back.head?.all isBlank = true) :
    words (word ++ back) = word :: words back := by
  rw [words, wordsFrom_append [] word hword hback]
  simp [consWord, hne]

/-- And the words behind the break are words of the whole. -/
private theorem subset_wordsFrom_append (word front : List Char) {back : List Char}
    (hback : back.head?.all isBlank = true) : words back ⊆ wordsFrom word (front ++ back) := by
  have hcons (word : List Char) (found : List (List Char)) : found ⊆ consWord word found := by
    cases word <;> simp [consWord]
  induction front generalizing word with
  | nil =>
    rw [wordsFrom_append word [] (by simp) hback]
    exact hcons _ _
  | cons c cs ih =>
    by_cases hc : isBlank c = true
    · simpa [wordsFrom, hc] using List.Subset.trans (ih []) (hcons word _)
    · simpa [wordsFrom, hc] using ih (c :: word)

/-- The words behind a place where no word goes on are words of the whole text. -/
theorem words_subset_append (front : List Char) {back : List Char}
    (hback : back.head?.all isBlank = true) : words back ⊆ words (front ++ back) :=
  subset_wordsFrom_append [] front hback

/-- Put together, the words are the text without its blanks. -/
private theorem flatten_wordsFrom (word cs : List Char) :
    (wordsFrom word cs).flatten = word.reverse ++ cs.filter fun c => !isBlank c := by
  have hcons (word : List Char) (found : List (List Char)) :
      (consWord word found).flatten = word.reverse ++ found.flatten := by
    cases word <;> simp [consWord]
  induction cs generalizing word with
  | nil => simp [wordsFrom, hcons]
  | cons c cs ih => by_cases hc : isBlank c = true <;> simp [wordsFrom, hcons, hc, ih]

/-- The words together are the characters that are not blank. -/
theorem flatten_words (cs : List Char) : (words cs).flatten = cs.filter fun c => !isBlank c :=
  flatten_wordsFrom [] cs

/-- No word is empty. -/
private theorem ne_nil_of_mem_wordsFrom {word cs w : List Char} (h : w ∈ wordsFrom word cs) :
    w ≠ [] := by
  have hcons {word : List Char} {found : List (List Char)} (h : w ∈ consWord word found) :
      w ≠ [] ∨ w ∈ found := by
    unfold consWord at h
    split at h
    · exact .inr h
    · rename_i hne
      rcases List.mem_cons.mp h with rfl | h
      · exact .inl (by simpa using hne)
      · exact .inr h
  induction cs generalizing word with
  | nil => exact (hcons h).resolve_right List.not_mem_nil
  | cons c cs ih =>
    unfold wordsFrom at h
    split at h
    · exact (hcons h).elim id ih
    · exact ih h

/-- Words are not empty, and they have characters of the text, but no blank ones. -/
theorem of_mem_words {cs w : List Char} (h : w ∈ words cs) :
    w ≠ [] ∧ ∀ c ∈ w, c ∈ cs ∧ isBlank c = false := by
  refine ⟨ne_nil_of_mem_wordsFrom h, fun c hc => ?_⟩
  have hmem : c ∈ (words cs).flatten := List.mem_flatten.mpr ⟨w, h, hc⟩
  simpa [flatten_words] using hmem

end CommandLine.Text
