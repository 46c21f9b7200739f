import Mathlib.Data.List.TakeWhile
import CommandLine.Proofs.Search.Spaced
import CommandLine.Tree.Completion

/-!
# Completion, word by word

What completion does with a word that it accepts: it goes on behind the word, with one step or one
flag less. Shorthands in one word are taken one by one, so inside a bundle completion stands between
two of them (`suggestBundle`). Only where the line ends does it look at what could stand there.

* `followSteps_literal`, `followSteps_argument` — words and arguments;
* `suggestFlags_long_switch`, `suggestFlags_long_flag` — flags under their long names;
* `suggestFlags_short`, `suggestBundle_switch`, `suggestBundle_flag`, `suggestBundle_end` — bundles
  of shorthands.
-/

set_option autoImplicit false

namespace CommandLine

open Text

variable {α σ : Type}

/-- The only element that satisfies `p` is taken out of a list. -/
theorem exists_takeOut? {β : Type} {p : β → Bool} {xs : List β} {x : β} (hx : x ∈ xs)
    (hp : p x = true) (hunique : ∀ y ∈ xs, p y = true → y = x) :
    ∃ ys, takeOut? p xs = some (x, ys) ∧ (x :: ys).Perm xs := by
  induction xs with
  | nil => cases hx
  | cons y xs ih =>
    unfold takeOut?
    by_cases hy : p y = true
    · obtain rfl := hunique y List.mem_cons_self hy
      exact ⟨xs, by rw [if_pos hy], .refl _⟩
    · have hne : x ≠ y := by
        rintro rfl
        exact hy hp
      obtain ⟨ys, htake, hperm⟩ := ih ((List.mem_cons.mp hx).resolve_left hne) fun z hz =>
        hunique z (List.mem_cons_of_mem y hz)
      refine ⟨y :: ys, by rw [if_neg hy, htake]; rfl, ?_⟩
      exact (List.Perm.swap y x ys).trans (hperm.cons y)

namespace Cursor

variable {c : Cursor}

/-- The characters of a word are those up to the next blank. -/
theorem toList_word : c.word.toList = c.rest.takeWhile fun ch => !isBlank ch :=
  String.toList_ofList

/-- What is left of a word behind its first characters. -/
theorem word_advance {front later : List Char} (h : c.word.toList = front ++ later) :
    (c.advance front.length).word.toList = later := by
  rw [toList_word] at h ⊢
  have hrest : c.rest = front ++ (later ++ c.rest.dropWhile fun ch => !isBlank ch) := by
    rw [← List.append_assoc, ← h, List.takeWhile_append_dropWhile]
  have hfront : ∀ ch ∈ front, (!isBlank ch) = true := by
    intro ch hch
    have hmem : ch ∈ c.rest.takeWhile fun ch => !isBlank ch := h ▸ List.mem_append_left _ hch
    exact List.mem_takeWhile_imp (p := fun ch => !isBlank ch) hmem
  rw [hrest, List.takeWhile_append_of_pos hfront] at h
  rw [advance, hrest, List.drop_left]
  exact List.append_cancel_left h

/-- Behind blanks a word may end only where the line does. -/
theorem atBreak_skipBlank (c : Cursor) : c.skipBlank.atBreak = c.skipBlank.atEnd := by
  have hrest : c.skipBlank.rest = c.rest.dropWhile isBlank := rfl
  rw [atBreak, atEnd, atBlank, hrest]
  cases hdrop : c.rest.dropWhile isBlank with
  | nil => rfl
  | cons ch cs =>
    have hhead := List.head?_dropWhile_not isBlank c.rest
    rw [hdrop] at hhead
    simpa using hhead

/-- No blank is left behind blanks. -/
theorem atBlank_skipBlank (c : Cursor) : c.skipBlank.atBlank = false := by
  have hbreak := c.atBreak_skipBlank
  cases hrest : c.skipBlank.rest with
  | nil => simp [atBlank, hrest]
  | cons ch rest => simpa [atBreak, atEnd, hrest] using hbreak

/-- Inside a word something is left. -/
theorem rest_ne_nil_of_atBreak_eq_false (h : c.atBreak = false) : c.rest ≠ [] := by
  intro hnil
  simp [atBreak, atEnd, hnil] at h

/-- No word is left where one may end. -/
theorem word_eq_nil_of_atBreak (h : c.atBreak = true) : c.word.toList = [] := by
  rw [toList_word]
  cases hrest : c.rest with
  | nil => rfl
  | cons ch rest =>
    have hblank : isBlank ch = true := by simpa [atBreak, atEnd, atBlank, hrest] using h
    simp [hblank]

end Cursor

/-! ## Words and arguments -/

section

variable {c after : Cursor} {ctx : Context α} {steps : List (Step α)} {w : String}
  {p : Parameter α} {value : Value}

/-- A word that is there is read. -/
theorem followSteps_literal (hword : c.word = w) (hend : c.skipWord.atEnd = false) :
    followSteps c ctx (.literal w :: steps) = followSteps c.skipWord.skipBlank ctx steps := by
  simp only [followSteps, followStep, followLiteral, hword, hend, Bool.false_eq_true, if_false,
    if_true]

/-- So is a value behind which the line goes on. -/
theorem followValue_eq_ready (hallows : p.permission.allows ctx.principal = true)
    (hparse : p.type.parse ctx c = (.ok value, after)) (hend : after.atEnd = false)
    (hbreak : after.atBreak = true) :
    followValue p c ctx = .ready after.skipBlank (ctx.bind p.name value) := by
  have hblank : after.atBlank = true := by simpa [Cursor.atBreak, hend] using hbreak
  simp [followValue, hallows, hparse, hend, hblank]

/-- An argument that is read and ends in front of the end of the line is passed. -/
theorem followSteps_argument (hallows : p.permission.allows ctx.principal = true)
    (hparse : p.type.parse ctx c = (.ok value, after)) (hend : after.atEnd = false)
    (hbreak : after.atBreak = true) :
    followSteps c ctx (.parameter p :: steps) =
      followSteps after.skipBlank (ctx.bind p.name value) steps := by
  simp only [followSteps, followStep, followValue_eq_ready hallows hparse hend hbreak]

/-- The value of a flag stands right behind its name or behind the blanks after it. -/
theorem followFlagValue_eq_ready {d : Cursor} {attached : Bool}
    (hallows : p.permission.allows ctx.principal = true)
    (hblank : attached = false → c.atBlank = true) (hd : d = if attached then c else c.skipBlank)
    (hstart : d.atEnd = false) (hparse : p.type.parse ctx d = (.ok value, after))
    (hend : after.atEnd = false) (hbreak : after.atBreak = true) :
    followFlagValue p c ctx attached = .ready after.skipBlank (ctx.bind p.name value) := by
  have hready := followValue_eq_ready hallows hparse hend hbreak
  cases attached with
  | true =>
    rw [if_pos rfl] at hd
    subst hd
    simp [followFlagValue, hstart, hready]
  | false =>
    rw [if_neg Bool.false_ne_true] at hd
    subst hd
    simp [followFlagValue, hblank rfl, hstart, hready]

end

/-! ## Flags -/

/-- How a long name is spelled. -/
theorem Settings.of_flagSpelling?_long {s : Settings} {word name : String}
    (h : s.flagSpelling? word = some (.long name)) :
    name ≠ "" ∧ s.longPrefix.toList.isPrefixOf? word.toList = some name.toList := by
  unfold flagSpelling? at h
  split at h
  · rename_i rest hrest
    split at h
    · cases h
    · rename_i hne
      obtain rfl := FlagSpelling.long.inj (Option.some.inj h)
      rw [hrest, String.toList_ofList]
      exact ⟨by simpa using hne, rfl⟩
  · split at h
    · split at h <;> cases h
    · cases h

/-- How shorthands are spelled. -/
theorem Settings.of_flagSpelling?_short {s : Settings} {word : String}
    (h : s.flagSpelling? word = some .short) :
    s.longPrefix.toList.isPrefixOf? word.toList = none ∧
      ∃ ch rest, s.shortPrefix.toList.isPrefixOf? word.toList = some (ch :: rest) := by
  unfold flagSpelling? at h
  split at h
  · split at h <;> cases h
  · rename_i hlong
    split at h
    · rename_i rest hrest
      refine ⟨hlong, ?_⟩
      cases rest with
      | nil => simp at h
      | cons ch rest => exact ⟨ch, rest, hrest⟩
    · cases h

/-- A flag is not spelled where a word may end. -/
theorem Settings.atBreak_eq_false_of_flagSpelling? {s : Settings} {c : Cursor}
    {spelling : FlagSpelling} (h : s.flagSpelling? c.word = some spelling) :
    c.atBreak = false := by
  rw [← Bool.not_eq_true]
  intro hbreak
  have hnil := Cursor.word_eq_nil_of_atBreak hbreak
  cases spelling with
  | long name =>
    obtain ⟨hname, hrest⟩ := of_flagSpelling?_long h
    have hword := List.isPrefixOf?_eq_some_iff_append_eq.mp hrest
    rw [hnil] at hword
    simp [hname] at hword
  | short =>
    obtain ⟨_, ch, rest, hrest⟩ := of_flagSpelling?_short h
    have hword := List.isPrefixOf?_eq_some_iff_append_eq.mp hrest
    rw [hnil] at hword
    simp at hword

/-- Behind the short prefix of a word of shorthands there is one. -/
theorem Settings.atBreak_advance_shortPrefix {s : Settings} {c : Cursor}
    (h : s.flagSpelling? c.word = some .short) :
    s.shortPrefix.length ≤ c.rest.length ∧ (c.advance s.shortPrefix.length).atBreak = false := by
  obtain ⟨_, ch, rest, hrest⟩ := of_flagSpelling?_short h
  have hword := (List.isPrefixOf?_eq_some_iff_append_eq.mp hrest).symm
  constructor
  · have hle := (List.takeWhile_prefix (l := c.rest) fun ch => !isBlank ch).length_le
    rw [← Cursor.toList_word, hword, List.length_append, String.length_toList] at hle
    omega
  · rw [← Bool.not_eq_true]
    intro hbreak
    rw [← String.length_toList] at hbreak
    have hnil := Cursor.word_eq_nil_of_atBreak hbreak
    rw [Cursor.word_advance hword] at hnil
    cases hnil

/-- What is offered inside a bundle of shorthands, of which the first ones were read. -/
def suggestBundle (s : Settings) (bundle : List Char) (flags : List (Parameter α)) (c : Cursor)
    (ctx : Context α) : List String :=
  match followBundle flags c ctx c.word.toList with
  | .halted suggestions => suggestions
  | .past left after ctx onlySwitches =>
    if after.atEnd then
      if onlySwitches then bundleSpellings s left (String.ofList bundle) else []
    else suggestLater s left after ctx true

section

variable {s : Settings} {c d : Cursor} {ctx ctx' : Context α} {flags left : List (Parameter α)}
  {p : Parameter α} {short : Bool} {bundle : List Char}

/-- Behind a break flags are suggested behind the blanks. -/
theorem suggestLater_of_atBreak (h : c.atBreak = true) :
    suggestLater s flags c ctx short = suggestFlags s flags c.skipBlank ctx short := by
  rw [suggestLater, if_pos h]

/-- At the end of the line all flags that are left are offered. -/
theorem suggestFlags_of_atEnd (h : c.atEnd = true) :
    suggestFlags s flags c ctx short = flagSpellings s flags short := by
  rw [suggestFlags, if_pos h]

theorem suggestLater_of_atEnd (h : c.atEnd = true) :
    suggestLater s flags c ctx short = suggestFlags s flags c ctx short := by
  have hnil : c.rest = [] := by simpa [Cursor.atEnd] using h
  have hskip : c.skipBlank = c := by simp [Cursor.skipBlank, Cursor.skipWhile, Cursor.ext_iff, hnil]
  rw [suggestLater_of_atBreak (by rw [Cursor.atBreak, h, Bool.true_or]), hskip]

/-- A flag under its long name is used up, with its value if it is no switch. -/
theorem suggestFlags_long (hstart : c.atEnd = false)
    (hspelled : s.flagSpelling? c.word = some (.long p.longName))
    (hend : c.skipWord.atEnd = false)
    (htake : takeOut? (fun q => q.longName = p.longName) flags = some (p, left)) :
    suggestFlags s flags c ctx short =
      if p.isSwitch then suggestLater s left c.skipWord (ctx.bind p.name (.truth true)) false
      else match followFlagValue p c.skipWord ctx false with
        | .halted suggestions => suggestions
        | .ready d ctx => suggestLater s left d ctx false := by
  rw [suggestFlags, if_neg (by simp [hstart]), (Settings.of_flagSpelling?_long hspelled).2]
  simp only [hend, Bool.false_eq_true, if_false]
  split
  · rename_i hnone
    rw [String.ofList_toList, htake] at hnone
    cases hnone
  · rename_i q rest hsome
    rw [String.ofList_toList, htake] at hsome
    obtain ⟨rfl, rfl⟩ := Prod.mk.inj (Option.some.inj hsome)
    rfl

/-- A switch that is written out is taken out of the flags, and its value is known. -/
theorem suggestFlags_long_switch (hstart : c.atEnd = false)
    (hspelled : s.flagSpelling? c.word = some (.long p.longName))
    (hend : c.skipWord.atEnd = false)
    (htake : takeOut? (fun q => q.longName = p.longName) flags = some (p, left))
    (hswitch : p.isSwitch = true) :
    suggestFlags s flags c ctx short =
      suggestFlags s left c.skipWord.skipBlank (ctx.bind p.name (.truth true)) false := by
  rw [suggestFlags_long hstart hspelled hend htake, if_pos hswitch,
    suggestLater_of_atBreak c.atBreak_skipWord]

/-- So is a flag with its value, if that can be read. -/
theorem suggestFlags_long_flag (hstart : c.atEnd = false)
    (hspelled : s.flagSpelling? c.word = some (.long p.longName))
    (hend : c.skipWord.atEnd = false)
    (htake : takeOut? (fun q => q.longName = p.longName) flags = some (p, left))
    (hswitch : p.isSwitch = false)
    (hvalue : followFlagValue p c.skipWord ctx false = .ready d ctx') :
    suggestFlags s flags c ctx short = suggestLater s left d ctx' false := by
  rw [suggestFlags_long hstart hspelled hend htake, if_neg (by simp [hswitch]), hvalue]

/-- A word of shorthands is a bundle behind the short prefix. -/
theorem suggestFlags_short (hstart : c.atEnd = false)
    (hspelled : s.flagSpelling? c.word = some .short) :
    ∃ bundle, suggestFlags s flags c ctx short =
      suggestBundle s bundle flags (c.advance s.shortPrefix.length) ctx := by
  obtain ⟨hlong, ch, rest, hrest⟩ := Settings.of_flagSpelling?_short hspelled
  have hword := (List.isPrefixOf?_eq_some_iff_append_eq.mp hrest).symm
  refine ⟨ch :: rest, ?_⟩
  rw [suggestFlags, if_neg (by simp [hstart]), hlong]
  simp only [hrest]
  rw [suggestBundle, ← String.length_toList, Cursor.word_advance hword]
  split <;> rename_i hfollow <;> simp only [hfollow]

/-- A switch in a bundle is used up. -/
theorem suggestBundle_switch {ch : Char} {rest : List Char} (hrest : c.rest = ch :: rest)
    (hch : isBlank ch = false)
    (htake : takeOut? (fun q => q.shorthand? = some ch) flags = some (p, left))
    (hswitch : p.isSwitch = true) :
    suggestBundle s bundle flags c ctx =
      suggestBundle s bundle left (c.advance 1) (ctx.bind p.name (.truth true)) := by
  have hword : c.word.toList = ch :: (c.advance 1).word.toList := by
    simp [Cursor.toList_word, Cursor.advance, hrest, hch]
  rw [suggestBundle, hword, followBundle]
  simp only [htake, hswitch, if_true]
  rfl

/-- A flag in a bundle takes its value, behind which nothing is offered. -/
theorem suggestBundle_flag {ch : Char} {rest : List Char} (hrest : c.rest = ch :: rest)
    (hch : isBlank ch = false)
    (htake : takeOut? (fun q => q.shorthand? = some ch) flags = some (p, left))
    (hswitch : p.isSwitch = false)
    (hvalue : followFlagValue p (c.advance 1) ctx (!(c.advance 1).atBreak) =
      .ready d.skipBlank ctx') :
    suggestBundle s bundle flags c ctx = [] := by
  have hword : c.word.toList = ch :: (c.advance 1).word.toList := by
    simp [Cursor.toList_word, Cursor.advance, hrest, hch]
  rw [suggestBundle, hword, followBundle]
  simp only [htake, hswitch, Bool.false_eq_true, if_false, hvalue]
  split
  · rfl
  · rename_i hend
    rw [suggestLater, Cursor.atBreak_skipBlank, if_neg hend]

/-- Behind the value of a flag more is offered only at the end of the line. -/
theorem atEnd_of_mem_suggestLater {x : String}
    (h : x ∈ suggestLater s flags c.skipBlank ctx short) : c.skipBlank.atEnd = true := by
  by_contra hend
  rw [suggestLater, Cursor.atBreak_skipBlank, if_neg hend] at h
  cases h

/-- Behind a bundle more flags may follow. -/
theorem suggestBundle_end (hbreak : c.atBreak = true) (hend : c.atEnd = false) :
    suggestBundle s bundle flags c ctx = suggestFlags s flags c.skipBlank ctx true := by
  rw [suggestBundle, Cursor.word_eq_nil_of_atBreak hbreak, followBundle]
  simp only [hend, Bool.false_eq_true, if_false]
  exact suggestLater_of_atBreak hbreak

end

/-! ## Whole lines -/

/-- Leaving out what comes again leaves everything that comes. -/
theorem mem_firstOccurrences {xs : List String} {x : String} :
    x ∈ firstOccurrences xs ↔ x ∈ xs := by
  have hfold (kept : Array String) :
      x ∈ xs.foldl (fun kept x => if kept.contains x then kept else kept.push x) kept ↔
        x ∈ kept ∨ x ∈ xs := by
    induction xs generalizing kept with
    | nil => simp
    | cons y xs ih =>
      rw [List.foldl_cons, ih, List.mem_cons]
      split
      · rename_i hy
        have hy : y ∈ kept := by simpa using hy
        constructor
        · rintro (h | h)
          · exact .inl h
          · exact .inr (.inr h)
        · rintro (h | rfl | h)
          · exact .inl h
          · exact .inl hy
          · exact .inr h
      · rw [Array.mem_push, or_assoc]
  rw [firstOccurrences, Array.mem_toList_iff, hfold]
  simp

/-- A tree offers what its commands offer that take part. -/
theorem Tree.mem_complete_iff {t : Tree α σ} {principal : α} {line x : String} :
    x ∈ t.complete principal line ↔ line ≠ "" ∧ ∃ c ∈ t.commands,
      c.completable principal (Cursor.ofString line).word = true ∧
        x ∈ c.complete t.settings principal line := by
  unfold Tree.complete
  split
  · rename_i hempty
    simp [hempty]
  · rename_i hempty
    simp [hempty, mem_firstOccurrences, and_assoc]

end CommandLine
