import CommandLine.Cursor.Read

/-!
# Quoted words

A word in quotes is a quote, a body, the same quote, and then a blank or the end of the line. In the
body a backslash stands in front of a quote or of another backslash, and both only ever stand behind
one (`QuotedBody`). Whatever follows an opening quote starts with a longest such body, and what
comes behind it decides: the closing quote, with a break behind it or without one, a backslash that
stands in front of something else, or nothing more.

* `QuotedBody.readBody_append` — a body is read over;
* `exists_quotedBody` — what follows an opening quote has a body and then stops in one of four ways;
* `readString_quoted` — which words are read, as what, and where the others are rejected;
* `quotedBody_escapeBody` — every text can be written as a body.
-/

set_option autoImplicit false

namespace CommandLine

/-- The body of a word in quotes, and the text for which it stands. -/
inductive QuotedBody (quote : Char) : List Char → List Char → Prop
  | nil : QuotedBody quote [] []
  | plain {c : Char} {body value : List Char} (hquote : c ≠ quote) (hslash : c ≠ '\\')
      (rest : QuotedBody quote body value) : QuotedBody quote (c :: body) (c :: value)
  | escaped {c : Char} {body value : List Char} (hc : c = quote ∨ c = '\\')
      (rest : QuotedBody quote body value) : QuotedBody quote ('\\' :: c :: body) (c :: value)

/-- A text as the body of a word in quotes: quotes and backslashes have a backslash in front. -/
def escapeBody (quote : Char) : List Char → List Char
  | [] => []
  | c :: cs =>
    if c = quote ∨ c = '\\' then '\\' :: c :: escapeBody quote cs else c :: escapeBody quote cs

variable {quote c : Char} {body value text tail after : List Char}

/-- Every text can be written as a body. -/
theorem quotedBody_escapeBody (quote : Char) (text : List Char) :
    QuotedBody quote (escapeBody quote text) text := by
  induction text with
  | nil => exact .nil
  | cons c text ih =>
    rw [escapeBody]
    split
    · rename_i hc
      exact .escaped hc ih
    · rename_i hc
      rw [not_or] at hc
      exact .plain hc.1 hc.2 ih

/-- What can follow the body of a word in quotes. -/
inductive BodyStop (quote : Char) : List Char → Prop
  | closed (after : List Char) : BodyStop quote (quote :: after)
  | misescaped {c : Char} (after : List Char) (hquote : c ≠ quote) (hslash : c ≠ '\\') :
      BodyStop quote ('\\' :: c :: after)
  | ended : BodyStop quote []
  | cut : BodyStop quote ['\\']

/-- What follows an opening quote has a body, and then it stops. -/
theorem exists_quotedBody (quote : Char) (text : List Char) :
    ∃ body value tail, text = body ++ tail ∧ QuotedBody quote body value ∧ BodyStop quote tail := by
  match text with
  | [] => exact ⟨[], [], [], rfl, .nil, .ended⟩
  | c :: text =>
    by_cases hquote : c = quote
    · exact ⟨[], [], c :: text, rfl, .nil, hquote ▸ .closed text⟩
    · by_cases hslash : c = '\\'
      · subst hslash
        match text with
        | [] => exact ⟨[], [], ['\\'], rfl, .nil, .cut⟩
        | d :: text =>
          by_cases hd : d = quote ∨ d = '\\'
          · obtain ⟨body, value, tail, rfl, hbody, hstop⟩ := exists_quotedBody quote text
            exact ⟨'\\' :: d :: body, d :: value, tail, rfl, .escaped hd hbody, hstop⟩
          · rw [not_or] at hd
            exact ⟨[], [], '\\' :: d :: text, rfl, .nil, .misescaped text hd.1 hd.2⟩
      · obtain ⟨body, value, tail, rfl, hbody, hstop⟩ := exists_quotedBody quote text
        exact ⟨c :: body, c :: value, tail, rfl, .plain hquote hslash hbody, hstop⟩
termination_by text.length

/-! ## Reading behind an opening quote -/

namespace QuotedBody

open Cursor

variable {opening : Nat} {front passed : List Char}

/-- A body is read over, and the text for which it stands is kept. -/
theorem readBody_append (h : QuotedBody quote body value) (tail : List Char) :
    readBody quote opening front passed (body ++ tail) =
      readBody quote opening (value.reverse ++ front) (body.reverse ++ passed) tail := by
  induction h generalizing front passed with
  | nil => rfl
  | plain hquote hslash _ ih =>
    rw [List.cons_append, readBody_cons hslash, if_neg hquote, ih]
    simp
  | escaped hc _ ih =>
    simp only [List.cons_append, readBody, Bool.or_eq_true, decide_eq_true_eq, if_pos hc, ih]
    simp

/-- Up to the closing quote with a break behind it the word is read. -/
theorem readBody_closed (h : QuotedBody quote body value) (hquote : quote ≠ '\\')
    (hbreak : after.head?.all Text.isBlank = true) :
    readBody quote opening [] passed (body ++ quote :: after) =
      (.ok (String.ofList value), ⟨quote :: (body.reverse ++ passed), after⟩) := by
  have hat : (⟨quote :: (body.reverse ++ passed), after⟩ : Cursor).atBreak = true := by
    cases after with
    | nil => rfl
    | cons c after => simpa [atBreak, atEnd, atBlank] using hbreak
  rw [h.readBody_append, readBody_cons hquote, if_pos rfl, if_pos hat]
  simp

/-- Without a break the word is rejected behind its closing quote. -/
theorem readBody_unspaced (h : QuotedBody quote body value) (hquote : quote ≠ '\\')
    (hc : Text.isBlank c = false) :
    (readBody quote opening [] passed (body ++ quote :: c :: after)).1 =
      .error ⟨.expectedWhitespace, byteCount passed + byteCount body + quote.utf8Size, none⟩ := by
  have hat : (⟨quote :: (body.reverse ++ passed), c :: after⟩ : Cursor).atBreak = false := by
    simp [atBreak, atEnd, atBlank, hc]
  rw [h.readBody_append, readBody_cons hquote, if_pos rfl, hat]
  simp [reject, position, byteCount]
  omega

/-- A word is rejected at a backslash in front of another character. -/
theorem readBody_misescaped (h : QuotedBody quote body value) (hquote : c ≠ quote)
    (hslash : c ≠ '\\') :
    (readBody quote opening [] passed (body ++ '\\' :: c :: after)).1 =
      .error ⟨.invalidEscape c, byteCount passed + byteCount body, none⟩ := by
  rw [h.readBody_append]
  simp [readBody, hquote, hslash, Nat.add_comm]

/-- A word that is not closed is rejected at its opening quote. -/
theorem readBody_unclosed (h : QuotedBody quote body value) (htail : tail = [] ∨ tail = ['\\']) :
    (readBody quote opening [] passed (body ++ tail)).1 =
      .error ⟨.unclosedQuote, opening, none⟩ := by
  rw [h.readBody_append]
  rcases htail with rfl | rfl <;> simp [readBody]

end QuotedBody

/-- How what follows an opening quote at `start` is rejected: at the first backslash that stands in
front of something else, behind a closing quote without a break, or at the opening quote if the text
ends first. -/
inductive Misquoted (quote : Char) (start : Nat) : List Char → Rejection → Prop
  | misescaped {c : Char} {body value : List Char} (after : List Char)
      (hbody : QuotedBody quote body value) (hquote : c ≠ quote) (hslash : c ≠ '\\') :
      Misquoted quote start (body ++ '\\' :: c :: after)
        ⟨.invalidEscape c, start + quote.utf8Size + byteCount body, none⟩
  | unspaced {c : Char} {body value : List Char} (after : List Char)
      (hbody : QuotedBody quote body value) (hc : Text.isBlank c = false) :
      Misquoted quote start (body ++ quote :: c :: after)
        ⟨.expectedWhitespace, start + quote.utf8Size + byteCount body + quote.utf8Size, none⟩
  | unclosed {body value : List Char} {tail : List Char} (hbody : QuotedBody quote body value)
      (htail : tail = [] ∨ tail = ['\\']) :
      Misquoted quote start (body ++ tail) ⟨.unclosedQuote, start, none⟩

/-- What follows an opening quote is closed in front of a break, or there is a fault in it. -/
theorem closed_or_misquoted (quote : Char) (start : Nat) (text : List Char) :
    (∃ body value after, text = body ++ quote :: after ∧ QuotedBody quote body value ∧
      after.head?.all Text.isBlank = true) ∨ ∃ r, Misquoted quote start text r := by
  obtain ⟨body, value, tail, rfl, hbody, hstop⟩ := exists_quotedBody quote text
  cases hstop with
  | closed after =>
    cases after with
    | nil => exact .inl ⟨body, value, [], rfl, hbody, rfl⟩
    | cons c after =>
      cases hc : Text.isBlank c with
      | true => exact .inl ⟨body, value, c :: after, rfl, hbody, hc⟩
      | false => exact .inr ⟨_, .unspaced after hbody hc⟩
  | misescaped after hquote hslash => exact .inr ⟨_, .misescaped after hbody hquote hslash⟩
  | ended => exact .inr ⟨_, .unclosed hbody (.inl rfl)⟩
  | cut => exact .inr ⟨_, .unclosed hbody (.inr rfl)⟩

namespace Cursor

variable {cursor : Cursor}

theorem readString_of_quote (hquote : quote = '"' ∨ quote = '\'')
    (hrest : cursor.rest = quote :: text) :
    cursor.readString = readBody quote cursor.position [] (quote :: cursor.passed) text := by
  simp only [readString, hrest]
  rcases hquote with rfl | rfl <;> rfl

/-- A fault is what the reader rejects. -/
theorem error_of_misquoted {r : Rejection} (hquote : quote = '"' ∨ quote = '\'')
    (hrest : cursor.rest = quote :: text) (h : Misquoted quote cursor.position text r) :
    cursor.readString.1 = .error r := by
  have hne : quote ≠ '\\' := by
    rintro rfl
    simp at hquote
  have hopening : byteCount (quote :: cursor.passed) = cursor.position + quote.utf8Size :=
    Nat.add_comm ..
  rw [readString_of_quote hquote hrest]
  cases h with
  | misescaped after hbody hescaped hslash =>
    rw [hbody.readBody_misescaped hescaped hslash, hopening]
  | unspaced after hbody hc => rw [hbody.readBody_unspaced hne hc, hopening]
  | unclosed hbody htail => exact hbody.readBody_unclosed htail

/-- A body is read up to the closing quote in front of a break. -/
theorem readString_closed (hquote : quote = '"' ∨ quote = '\'')
    (hrest : cursor.rest = quote :: (body ++ quote :: after)) (hbody : QuotedBody quote body value)
    (hbreak : after.head?.all Text.isBlank = true) :
    cursor.readString =
      (.ok (String.ofList value), ⟨quote :: (body.reverse ++ quote :: cursor.passed), after⟩) := by
  have hne : quote ≠ '\\' := by
    rintro rfl
    simp at hquote
  rw [readString_of_quote hquote hrest, hbody.readBody_closed hne hbreak]

/-- **The reader of words accepts exactly the grammar of quoted words.** Let the text at the cursor
start with a quote.

* A word is read exactly if the text goes on with a body, the same quote, and then a blank or the
  end. The word is what the body stands for, and the cursor moves right behind the closing quote.
* Otherwise the text is rejected as it is misquoted, and for nothing else: scanned from the left, at
  the backslash of the first escape that is none, right behind a closing quote that has no break
  behind it, or at the opening quote if the text ends first.
* A text that is written as a body between quotes, in front of a break, is read back. -/
theorem readString_quoted (hquote : quote = '"' ∨ quote = '\'')
    (hrest : cursor.rest = quote :: text) :
    (∀ word next, cursor.readString = (.ok word, next) ↔
      ∃ body value after, text = body ++ quote :: after ∧ QuotedBody quote body value ∧
        after.head?.all Text.isBlank = true ∧ word = String.ofList value ∧
        next = ⟨quote :: (body.reverse ++ quote :: cursor.passed), after⟩) ∧
    (∀ r, cursor.readString.1 = .error r ↔ Misquoted quote cursor.position text r) ∧
    ∀ word after, text = escapeBody quote word.toList ++ quote :: after →
      after.head?.all Text.isBlank = true →
        cursor.readString = (.ok word,
          ⟨quote :: ((escapeBody quote word.toList).reverse ++ quote :: cursor.passed),
            after⟩) := by
  -- The text behind the quote is either closed or misquoted, and never both.
  refine ⟨fun word next => ⟨fun h => ?_, ?_⟩, fun r => ⟨fun h => ?_, ?_⟩, ?_⟩
  · rcases closed_or_misquoted quote cursor.position text with
      ⟨body, value, after, rfl, hbody, hbreak⟩ | ⟨r, hfault⟩
    · rw [readString_closed hquote hrest hbody hbreak] at h
      obtain ⟨hword, hnext⟩ := Prod.mk.inj h
      exact ⟨body, value, after, rfl, hbody, hbreak, (Except.ok.inj hword).symm, hnext.symm⟩
    · have herror := error_of_misquoted hquote hrest hfault
      rw [h] at herror
      cases herror
  · rintro ⟨body, value, after, rfl, hbody, hbreak, rfl, rfl⟩
    exact readString_closed hquote hrest hbody hbreak
  · rcases closed_or_misquoted quote cursor.position text with
      ⟨body, value, after, rfl, hbody, hbreak⟩ | ⟨r', hfault⟩
    · rw [readString_closed hquote hrest hbody hbreak] at h
      cases h
    · have herror := error_of_misquoted hquote hrest hfault
      obtain rfl := Except.error.inj (h.symm.trans herror)
      exact hfault
  · exact error_of_misquoted hquote hrest
  · rintro word after rfl hbreak
    rw [readString_closed hquote hrest (quotedBody_escapeBody quote word.toList) hbreak,
      String.ofList_toList]

/-- The quote of the other kind and a letter of two bytes stand for themselves. -/
theorem readString_quoted_speech :
    (⟨['=', 'é'], "'d\\'é \\\\ \"' x".toList⟩ : Cursor).rest = '\'' :: "d\\'é \\\\ \"' x".toList ∧
      " x".toList.head?.all Text.isBlank = true ∧
      (⟨['=', 'é'], "'d\\'é \\\\ \"' x".toList⟩ : Cursor).readString =
        (.ok "d'é \\ \"", ⟨"'\" \\\\ é'\\d'=é".toList, " x".toList⟩) := by
  have hrest : (⟨['=', 'é'], "'d\\'é \\\\ \"' x".toList⟩ : Cursor).rest =
      '\'' :: "d\\'é \\\\ \"' x".toList := by decide
  have hbreak : " x".toList.head?.all Text.isBlank = true := by decide
  have hread := (readString_quoted (.inr rfl) hrest).2.2 "d'é \\ \"" " x".toList (by decide) hbreak
  exact ⟨hrest, hbreak, hread⟩

end Cursor

end CommandLine
