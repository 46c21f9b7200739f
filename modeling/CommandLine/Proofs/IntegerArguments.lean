import Mathlib.Algebra.Group.Int.Defs
import Mathlib.Algebra.Group.Nat.Defs
import CommandLine.Proofs.Search.Respaced

/-!
# Whole-number arguments

A whole number in writing is a sign or none, and digits (`Whole`). Its digits count as much as their
places say, so leading zeros change nothing and there is no limit to their number. A whole-number
argument takes the word in front of the cursor. If the word writes a number of 64 bits, the bounds
decide about it; if it does not, the word is refused as no whole number at all, also if it only
writes one that is too large.

* `readWhole?_eq_some_iff`, `readInteger?_eq_some_iff` — what the reader of numerals accepts;
* `whole_toString` — the text of a number writes it;
* `BuiltinType.within_or_unfit` — a word writes a number within the bounds, or it is `Unfit`;
* `BuiltinType.parse_integer` — which words are read, as what, and how the others are rejected.
-/

set_option autoImplicit false

namespace CommandLine

/-! ## Whole numbers in writing -/

namespace Numeral

variable {c : Char} {cs : List Char} {n : Nat} {k : Int}

/-- Digits and the number that they write, where every digit counts as much as its place says. -/
inductive Digits : List Char → Nat → Prop
  | last {c : Char} (hc : c.isDigit = true) : Digits [c] (digitValue c)
  | lead {c : Char} {cs : List Char} {n : Nat} (hc : c.isDigit = true) (rest : Digits cs n) :
      Digits (c :: cs) (digitValue c * 10 ^ cs.length + n)

/-- A whole number in writing: a sign or none, and digits. -/
inductive Whole : List Char → Int → Prop
  | unsigned {cs : List Char} {n : Nat} (h : Digits cs n) : Whole cs n
  | plus {cs : List Char} {n : Nat} (h : Digits cs n) : Whole ('+' :: cs) n
  | minus {cs : List Char} {n : Nat} (h : Digits cs n) : Whole ('-' :: cs) (-n)

/-- The first digit counts as much as its place among the others says. -/
theorem digitsValue_cons (c : Char) (cs : List Char) :
    digitsValue 0 (c :: cs) = digitValue c * 10 ^ cs.length + digitsValue 0 cs := by
  show Nat.ofDigitChars 10 cs (10 * 0 + digitValue c) = _
  rw [Nat.ofDigitChars_eq_ofDigitChars_zero]
  simp [Nat.mul_comm, digitsValue, Nat.ofDigitChars, digitValue]

/-- Digits write one number, and all characters that are digits do. -/
theorem digits_iff : Digits cs n ↔
    cs ≠ [] ∧ (∀ c ∈ cs, c.isDigit = true) ∧ digitsValue 0 cs = n := by
  constructor
  · intro h
    induction h with
    | last hc => simp [hc, digitsValue]
    | lead hc _ ih =>
      obtain ⟨_, hall, hvalue⟩ := ih
      exact ⟨by simp, List.forall_mem_cons.mpr ⟨hc, hall⟩, by rw [digitsValue_cons, hvalue]⟩
  · rintro ⟨hne, hall, rfl⟩
    induction cs with
    | nil => exact (hne rfl).elim
    | cons c cs ih =>
      obtain ⟨hc, hall⟩ := List.forall_mem_cons.mp hall
      rw [digitsValue_cons]
      cases cs with
      | nil => simpa [digitsValue] using Digits.last hc
      | cons d ds => exact .lead hc (ih (by simp) hall)

/-- Digits do not start with a sign. -/
theorem Digits.splitSign_eq (h : Digits cs n) : splitSign cs = (false, cs) := by
  have hfirst {sign : Char} {rest : List Char} (hcs : cs = sign :: rest) : sign.isDigit = true :=
    (digits_iff.mp h).2.1 sign (hcs ▸ List.mem_cons_self)
  unfold splitSign
  split
  · cases hfirst rfl
  · cases hfirst rfl
  · rfl

/-- Behind the sign stand digits. -/
theorem readWhole?_eq_some_iff_digits : readWhole? cs = some k ↔
    ∃ n : Nat, Digits (splitSign cs).2 n ∧ k = if (splitSign cs).1 then -(n : Int) else n := by
  simp only [readWhole?, digits_iff]
  split
  · rename_i hbad
    simp only [Bool.or_eq_true, List.isEmpty_iff, Bool.not_eq_true', List.all_eq_false] at hbad
    grind
  · rename_i hgood
    simp only [Bool.or_eq_true, List.isEmpty_iff, Bool.not_eq_true', List.all_eq_false] at hgood
    grind

/-- The reader of whole numbers knows every way to write one, and nothing else. -/
theorem readWhole?_eq_some_iff : readWhole? cs = some k ↔ Whole cs k := by
  rw [readWhole?_eq_some_iff_digits]
  constructor
  · rintro ⟨n, hdigits, rfl⟩
    unfold splitSign at hdigits ⊢
    split at hdigits
    · exact .minus hdigits
    · exact .plus hdigits
    · exact .unsigned hdigits
  · intro h
    cases h with
    | unsigned h => exact ⟨_, by simpa [h.splitSign_eq] using h, by simp [h.splitSign_eq]⟩
    | plus h => exact ⟨_, h, rfl⟩
    | minus h => exact ⟨_, h, rfl⟩

/-- The digits of a number write it. -/
theorem digits_toDigits (n : Nat) : Digits (Nat.toDigits 10 n) n :=
  digits_iff.mpr ⟨Nat.toDigits_ne_nil,
    fun _ hc => Nat.isDigit_of_mem_toDigits (by decide) (by decide) hc,
    Nat.ofDigitChars_toDigits (by decide) (by decide)⟩

/-- A whole number is written by its text. -/
theorem whole_toString (k : Int) : Whole (toString k).toList k := by
  rw [Int.toString_eq_repr]
  cases k with
  | ofNat n =>
    show Whole (n.repr).toList n
    rw [Nat.toList_repr]
    exact .unsigned (digits_toDigits n)
  | negSucc n =>
    show Whole ("-" ++ (n + 1).repr).toList (-((n + 1 : Nat) : Int))
    rw [String.toList_append, Nat.toList_repr]
    exact .minus (digits_toDigits (n + 1))

/-- No digit is a blank. -/
theorem isBlank_of_isDigit (hc : c.isDigit = true) : Text.isBlank c = false := by
  have hbounds : 48 ≤ c.toNat ∧ c.toNat ≤ 57 := by
    simpa [Char.isDigit, UInt32.le_iff_toNat_le] using hc
  simp only [Text.isBlank, Bool.or_eq_false_iff, Bool.and_eq_false_iff, decide_eq_false_iff_not]
  omega

/-- A whole number in writing is one word. -/
theorem Whole.isWord {s : String} (h : Whole s.toList k) : Text.IsWord s := by
  have hdigits {cs : List Char} {n : Nat} (h : Digits cs n) (c : Char) (hc : c ∈ cs) :
      Text.isBlank c = false := isBlank_of_isDigit ((digits_iff.mp h).2.1 c hc)
  have hchars : s.toList ≠ [] ∧ ∀ c ∈ s.toList, Text.isBlank c = false := by
    generalize s.toList = cs at h
    cases h with
    | unsigned h => exact ⟨(digits_iff.mp h).1, hdigits h⟩
    | plus h => exact ⟨by simp, List.forall_mem_cons.mpr ⟨by decide, hdigits h⟩⟩
    | minus h => exact ⟨by simp, List.forall_mem_cons.mpr ⟨by decide, hdigits h⟩⟩
  exact ⟨by simpa using hchars.1, hchars.2⟩

/-! ### Limits -/

/-- A number has 64 bits with a sign. -/
def Fits (k : Int) : Prop := -2 ^ 63 ≤ k ∧ k < 2 ^ 63

/-- A number is at least and at most the bounds that are given. -/
def Within (least greatest : Option Int) (k : Int) : Prop :=
  (∀ low ∈ least, low ≤ k) ∧ ∀ high ∈ greatest, k ≤ high

instance (k : Int) : Decidable (Fits k) := inferInstanceAs (Decidable (_ ∧ _))

instance (least greatest : Option Int) (k : Int) : Decidable (Within least greatest k) :=
  inferInstanceAs (Decidable (_ ∧ _))

theorem fitsInteger_iff : fitsInteger k = true ↔ Fits k := by
  unfold fitsInteger leastInteger greatestInteger Fits
  rw [Bool.and_eq_true, decide_eq_true_iff, decide_eq_true_iff]
  omega

/-- What is kept of a whole number in writing is one of 64 bits. -/
theorem readInteger?_eq_some_iff {w : String} :
    readInteger? w = some k ↔ Whole w.toList k ∧ Fits k := by
  rw [readInteger?, Option.filter_eq_some_iff, readWhole?_eq_some_iff, fitsInteger_iff]

end Numeral

/-! ## Arguments -/

namespace BuiltinType

open Numeral

variable {least greatest : Option Int} {k : Int} {c : Cursor} {w : String} {after : List Char}

/-- A number is refused if it is beyond the bounds, which for a number of 64 bits are only those
that are given. -/
theorem acceptInteger_eq (hfits : Fits k) : acceptInteger least greatest k =
    if Within least greatest k then .ok (.integer k) else
      .error (.invalidValue (toString k) (.outOfRange (Float.ofInt (least.getD leastInteger))
        (Float.ofInt (greatest.getD greatestInteger)))) := by
  have hbounds : (k < least.getD leastInteger || greatest.getD greatestInteger < k) = true ↔
      ¬Within least greatest k := by
    obtain ⟨hlow, hhigh⟩ := hfits
    rw [Bool.or_eq_true, decide_eq_true_iff, decide_eq_true_iff]
    unfold Within leastInteger greatestInteger
    cases least <;> cases greatest <;> simp <;> omega
  unfold acceptInteger
  by_cases hwithin : Within least greatest k
  · rw [if_pos hwithin]
    exact if_neg (hbounds.not.mpr (not_not_intro hwithin))
  · rw [if_neg hwithin]
    exact if_pos (hbounds.mpr hwithin)

/-- The word in front of a cursor is converted, and the cursor moves behind it. -/
theorem readInteger_eq (hc : c.atBreak = false) : c.readInteger =
    (match readInteger? c.word with
      | some k => .ok k
      | none => .error ⟨.invalidValue c.word .integer, c.position, none⟩, c.skipWord) := by
  have hne : c.word ≠ "" := by simp [Cursor.word_eq_empty_iff, hc]
  rw [Cursor.readInteger, Cursor.readWordAs, if_neg hne]
  cases readInteger? c.word <;> rfl

/-- A word that is no number within the bounds, and how it is rejected at a position. -/
inductive Unfit (least greatest : Option Int) (w : String) (start : Nat) : Rejection → Prop
  /-- It does not write a whole number of 64 bits. -/
  | unreadable (h : ∀ k, Whole w.toList k → ¬Fits k) :
      Unfit least greatest w start ⟨.invalidValue w .integer, start, none⟩
  /-- It writes one that is beyond a bound. -/
  | beyond {k : Int} (hwhole : Whole w.toList k) (hfits : Fits k)
      (hout : ¬Within least greatest k) : Unfit least greatest w start
        ⟨.invalidValue (toString k) (.outOfRange (Float.ofInt (least.getD leastInteger))
          (Float.ofInt (greatest.getD greatestInteger))), start, none⟩

theorem within_or_unfit (least greatest : Option Int) (w : String) (start : Nat) :
    (∃ k, Whole w.toList k ∧ Fits k ∧ Within least greatest k) ∨
      ∃ r, Unfit least greatest w start r := by
  by_cases h : ∃ k, Whole w.toList k ∧ Fits k
  · obtain ⟨k, hwhole, hfits⟩ := h
    by_cases hwithin : Within least greatest k
    · exact .inl ⟨k, hwhole, hfits, hwithin⟩
    · exact .inr ⟨_, .beyond hwhole hfits hwithin⟩
  · exact .inr ⟨_, .unreadable fun k hwhole hfits => h ⟨k, hwhole, hfits⟩⟩

theorem parse_integer_of_within (hc : c.atBreak = false) (hwhole : Whole c.word.toList k)
    (hfits : Fits k) (hwithin : Within least greatest k) :
    (integer least greatest).parse c = (.ok (.integer k), c.skipWord) := by
  have hread : readInteger? c.word = some k := readInteger?_eq_some_iff.mpr ⟨hwhole, hfits⟩
  rw [parse, readInteger_eq hc, hread]
  simp only [checked, acceptInteger_eq hfits, if_pos hwithin]

theorem parse_integer_of_unfit {r : Rejection} (hc : c.atBreak = false)
    (h : Unfit least greatest c.word c.position r) :
    (integer least greatest).parse c = (.error r, c.skipWord) := by
  cases h with
  | unreadable h =>
    have hread : readInteger? c.word = none := by
      rw [Option.eq_none_iff_forall_ne_some]
      intro k hk
      obtain ⟨hwhole, hfits⟩ := readInteger?_eq_some_iff.mp hk
      exact h k hwhole hfits
    rw [parse, readInteger_eq hc, hread]
    rfl
  | @beyond k hwhole hfits hout =>
    have hread : readInteger? c.word = some k := readInteger?_eq_some_iff.mpr ⟨hwhole, hfits⟩
    rw [parse, readInteger_eq hc, hread]
    simp only [checked, acceptInteger_eq hfits, if_neg hout]

/-- The text of a number is read back wherever it stands, if a word may end behind it. -/
theorem parse_integer_toString (hfits : Fits k) (hwithin : Within least greatest k)
    (hrest : c.rest = (toString k).toList ++ after)
    (hafter : after.head?.all Text.isBlank = true) : (integer least greatest).parse c =
      (.ok (.integer k), ⟨(toString k).toList.reverse ++ c.passed, after⟩) := by
  have hwhole := whole_toString k
  obtain ⟨hword, hskip⟩ := Cursor.of_word hwhole.isWord hrest hafter
  have hc : c.atBreak = false := by
    rw [← Bool.not_eq_true, ← Cursor.word_eq_empty_iff, hword]
    exact hwhole.isWord.1
  rw [parse_integer_of_within hc (hword ▸ hwhole) hfits hwithin, hskip]

/-- **Whole-number arguments are read exactly.** Let the cursor stand at a character that is not
blank, and let there be a lower bound or none, and an upper bound or none.

* The word in front goes on up to the next blank or the end.
* It is read exactly if it writes a whole number of 64 bits within the bounds. The value is that
  number, and the cursor moves behind the word.
* Otherwise it is rejected at its start, and for nothing else: as no whole number, if it does not
  write one of 64 bits, or as out of range, if the number is beyond a bound.
* The text of every number of 64 bits within the bounds is read back as that number. -/
theorem parse_integer (least greatest : Option Int) (hend : c.atEnd = false)
    (hblank : c.atBlank = false) :
    (Text.IsWord c.word ∧ c.rest = c.word.toList ++ c.skipWord.rest ∧
      c.skipWord.rest.head?.all Text.isBlank = true) ∧
    (∀ value next, (integer least greatest).parse c = (.ok value, next) ↔
      ∃ k, Whole c.word.toList k ∧ Fits k ∧ Within least greatest k ∧ value = .integer k ∧
        next = c.skipWord) ∧
    (∀ r, ((integer least greatest).parse c).1 = .error r ↔
      Unfit least greatest c.word c.position r) ∧
    ∀ k after, Fits k → Within least greatest k → after.head?.all Text.isBlank = true →
      (integer least greatest).parse ⟨c.passed, (toString k).toList ++ after⟩ =
        (.ok (.integer k), ⟨(toString k).toList.reverse ++ c.passed, after⟩) := by
  have hc : c.atBreak = false := by rw [Cursor.atBreak, hend, hblank, Bool.or_false]
  -- The word is a numeral within bounds or is unfit, and never both; every part turns on that.
  refine ⟨Cursor.isWord_word hc, fun value next => ⟨fun h => ?_, ?_⟩,
    fun r => ⟨fun h => ?_, fun h => ?_⟩, fun k after hfits hwithin hafter => ?_⟩
  · rcases within_or_unfit least greatest c.word c.position with
      ⟨k, hwhole, hfits, hwithin⟩ | ⟨r, hunfit⟩
    · rw [parse_integer_of_within hc hwhole hfits hwithin] at h
      obtain ⟨hvalue, hnext⟩ := Prod.mk.inj h
      exact ⟨k, hwhole, hfits, hwithin, (Except.ok.inj hvalue).symm, hnext.symm⟩
    · rw [parse_integer_of_unfit hc hunfit] at h
      cases (Prod.mk.inj h).1
  · rintro ⟨k, hwhole, hfits, hwithin, rfl, rfl⟩
    exact parse_integer_of_within hc hwhole hfits hwithin
  · rcases within_or_unfit least greatest c.word c.position with
      ⟨k, hwhole, hfits, hwithin⟩ | ⟨r', hunfit⟩
    · rw [parse_integer_of_within hc hwhole hfits hwithin] at h
      cases h
    · rw [parse_integer_of_unfit hc hunfit] at h
      exact Except.error.inj h ▸ hunfit
  · rw [parse_integer_of_unfit hc h]
  · exact parse_integer_toString hfits hwithin rfl hafter

/-- With a sign and zeros in front, in front of a space of two bytes. Below it no number fits. -/
theorem parse_integer_lowest :
    (⟨['='], "-009223372036854775808\u00a0x".toList⟩ : Cursor).atEnd = false ∧
      (⟨['='], "-009223372036854775808\u00a0x".toList⟩ : Cursor).atBlank = false ∧
      (integer none (some (-1))).parse ⟨['='], "-009223372036854775808\u00a0x".toList⟩ =
        (.ok (.integer (-9223372036854775808)),
          ⟨"808577458630273322900-=".toList, "\u00a0x".toList⟩) := by
  have hend : (⟨['='], "-009223372036854775808\u00a0x".toList⟩ : Cursor).atEnd = false := by
    decide
  have hblank : (⟨['='], "-009223372036854775808\u00a0x".toList⟩ : Cursor).atBlank = false := by
    decide
  obtain ⟨_, hok, _⟩ := parse_integer none (some (-1)) hend hblank
  refine ⟨hend, hblank, (hok _ _).mpr ⟨_, ?_, ?_, ?_, rfl, ?_⟩⟩
  · exact readWhole?_eq_some_iff.mp (by decide +kernel)
  · decide
  · decide
  · decide

end BuiltinType

end CommandLine
