import Mathlib.Data.List.Induction
import CommandLine.Proofs.Search.Suggested
import CommandLine.Proofs.Tree.Literals

/-!
# Completion of words

A tree of commands that are made of words completes a line word by word. The line is read as the
words that are typed, each with blanks behind it, and the part of one more word, which may be empty
(`Text.Typed`). Typed words have to be the first ones of a command; the word that the command has
next is offered if it starts with the part, ignoring case.

* `followSteps_words` — what one command offers;
* `completable_of_nextWord?` — what a command offers starts with the typed first word, which
  completion looks at beforehand;
* `complete_literals` — what a tree offers.
-/

set_option autoImplicit false

namespace CommandLine

open Text

variable {α σ : Type}

/-! ## What is typed -/

/-- A text is some words, each with blanks behind it, and then the part of a word. -/
inductive Text.Typed : List Char → List String → String → Prop
  | part {q : String} : (∀ ch ∈ q.toList, isBlank ch = false) → Typed q.toList [] q
  | word {w q : String} {blanks rest : List Char} {ws : List String} : IsWord w → blanks ≠ [] →
      (∀ ch ∈ blanks, isBlank ch = true) → Typed rest ws q →
        Typed (w.toList ++ (blanks ++ rest)) (w :: ws) q

/-- It does not start with a blank. -/
theorem Text.Typed.head?_eq {cs : List Char} {ws : List String} {q : String} (h : Typed cs ws q) :
    cs.head?.any isBlank = false := by
  have hhead (s : String) (hs : ∀ ch ∈ s.toList, isBlank ch = false) :
      s.toList.head?.any isBlank = false := by
    cases hchars : s.toList with
    | nil => rfl
    | cons ch cs => simpa using hs ch (hchars ▸ List.mem_cons_self)
  cases h with
  | part hq => exact hhead q hq
  | word hw => rw [List.head?_append_of_ne_nil _ hw.toList_ne_nil]; exact hhead _ hw.2

/-- Every text that does not start with a blank can be read so. -/
theorem Text.exists_typed {cs : List Char} (h : cs.head?.any isBlank = false) :
    ∃ ws q, Typed cs ws q := by
  induction hn : cs.length using Nat.strongRecOn generalizing cs with
  | _ n ih =>
    -- The first word, the blanks behind it and what follows them.
    let front := cs.takeWhile fun ch => !isBlank ch
    let back := cs.dropWhile fun ch => !isBlank ch
    let blanks := back.takeWhile isBlank
    let rest := back.dropWhile isBlank
    have hsplit : front ++ back = cs := List.takeWhile_append_dropWhile
    have hback : blanks ++ rest = back := List.takeWhile_append_dropWhile
    have hfront : ∀ ch ∈ (String.ofList front).toList, isBlank ch = false := by
      intro ch hch
      rw [String.toList_ofList] at hch
      simpa using List.mem_takeWhile_imp (p := fun ch => !isBlank ch) hch
    cases hnil : back with
    | nil =>
      have hpart : Typed (String.ofList front).toList [] (String.ofList front) := .part hfront
      rw [String.toList_ofList, ← List.append_nil front, ← hnil, hsplit] at hpart
      exact ⟨[], _, hpart⟩
    | cons ch later =>
      have hblank : isBlank ch = true := by
        simpa [back, hnil] using List.head?_dropWhile_not (fun ch => !isBlank ch) cs
      have hblanks : blanks ≠ [] := by simp [blanks, hnil, hblank]
      have hne : front ≠ [] := by
        intro hempty
        rw [← hsplit, hempty, hnil] at h
        simp [hblank] at h
      have hrest : rest.head?.any isBlank = false := by
        cases hrest : rest with
        | nil => rfl
        | cons d ds => simpa [rest, hrest] using List.head?_dropWhile_not isBlank back
      have hlength : rest.length < n := by
        have hlengths := congrArg List.length (hback ▸ hsplit)
        have := List.length_pos_iff.mpr hne
        simp only [List.length_append] at hlengths
        omega
      obtain ⟨ws, q, htyped⟩ := ih rest.length hlength hrest rfl
      have hword : IsWord (String.ofList front) := ⟨by simpa using hne, hfront⟩
      have hall : ∀ d ∈ blanks, isBlank d = true := fun d hd => List.mem_takeWhile_imp hd
      have htyped := Typed.word hword hblanks hall htyped
      rw [String.toList_ofList, hback, hsplit] at htyped
      exact ⟨_, q, htyped⟩

namespace Cursor

variable {c : Cursor} {w q : String} {blanks rest : List Char} {ws : List String}

/-- In front of the part of a word nothing else is left of the line. -/
theorem of_part (hq : ∀ ch ∈ q.toList, isBlank ch = false) (hc : c.rest = q.toList) :
    c.word = q ∧ c.skipWord.atEnd = true := by
  have hall : ∀ ch ∈ c.rest, (!isBlank ch) = true := by
    intro ch hch
    simp [hq ch (hc ▸ hch)]
  have htake := List.takeWhile_eq_self_iff.mpr hall
  have hdrop := List.dropWhile_eq_nil_iff.mpr hall
  exact ⟨by rw [word, htake, hc, String.ofList_toList],
    by simp [skipWord, skipWhile, atEnd, hdrop]⟩

/-- Behind a typed word and its blanks the others are left. -/
theorem of_typed_word (hw : IsWord w) (hne : blanks ≠ [])
    (hblanks : ∀ ch ∈ blanks, isBlank ch = true) (hrest : rest.head?.any isBlank = false)
    (hc : c.rest = w.toList ++ (blanks ++ rest)) :
    c.word = w ∧ c.skipWord.atEnd = false ∧ c.skipWord.skipBlank.rest = rest := by
  obtain ⟨ch, later, rfl⟩ := List.exists_cons_of_ne_nil hne
  have hch : isBlank ch = true := hblanks ch List.mem_cons_self
  obtain ⟨hword, hskip⟩ := of_word hw hc (by simp [hch])
  have hdrop : c.skipWord.rest = ch :: later ++ rest := congrArg Cursor.rest hskip
  refine ⟨hword, by simp [atEnd, hdrop], ?_⟩
  show c.skipWord.rest.dropWhile isBlank = rest
  rw [hdrop, List.dropWhile_append_of_pos hblanks]
  cases rest with
  | nil => rfl
  | cons d ds => exact List.dropWhile_cons_of_neg (by simpa using hrest)

end Cursor

/-! ## One command -/

/-- The word that comes next in a list that begins with some words. -/
def nextWord? (words typed : List String) : Option String :=
  if words.take typed.length = typed then words[typed.length]? else none

theorem nextWord?_cons (v w : String) (words typed : List String) :
    nextWord? (v :: words) (w :: typed) = if v = w then nextWord? words typed else none := by
  by_cases h : v = w <;> simp [nextWord?, h]

/-- What a walk offers that may only halt. -/
def Progress.suggestions : Progress α → List String
  | .halted suggestions => suggestions
  | .ready _ _ => []

/-- A walk along words offers the next one behind those that are typed, if it starts with the
part. -/
theorem followSteps_words {typed : List String} {q : String} {c : Cursor}
    (h : Typed c.rest typed q) (words : List String) (ctx : Context α) :
    (followSteps c ctx (words.map .literal)).suggestions =
      ((nextWord? words typed).filter (startsWithIgnoringCase · q)).toList := by
  generalize hc : c.rest = cs at h
  induction h generalizing c words with
  | part hq =>
    obtain ⟨hword, hend⟩ := Cursor.of_part hq hc
    cases words with
    | nil => rfl
    | cons v words =>
      simp only [List.map_cons, followSteps, followStep, followLiteral, hend, if_true, hword,
        Progress.suggestions]
      cases hstart : startsWithIgnoringCase v _ <;> simp [nextWord?, Option.filter, hstart]
  | @word w q blanks rest typed hw hne hblanks htyped ih =>
    obtain ⟨hword, hend, hrest⟩ := Cursor.of_typed_word hw hne hblanks htyped.head?_eq hc
    cases words with
    | nil => rfl
    | cons v words =>
      rw [nextWord?_cons]
      -- A finished word that is another than the command's ends the walk with no suggestion.
      by_cases hv : v = w
      · subst hv
        rw [List.map_cons, followSteps_literal hword hend, ih words hrest, if_pos rfl]
      · have hother : ¬c.word = v := fun h => hv (h.symm.trans hword)
        simp [followSteps, followStep, followLiteral, hend, hother, Progress.suggestions, hv]

/-- A command that is made of words offers the next one. -/
theorem Command.Literal.complete_eq {c : Command α σ} (hc : c.Literal) {s : Settings}
    {principal : α} {line q : String} {typed : List String} (h : Typed line.toList typed q) :
    c.complete s principal line =
      ((nextWord? c.words typed).filter (startsWithIgnoringCase · q)).toList := by
  have hfollow := followSteps_words (c := .ofString line) h c.words (.ofLine principal line)
  rw [complete, hc.positionals_eq]
  split
  · rename_i suggestions hhalted
    rw [hhalted] at hfollow
    exact hfollow
  · rename_i after ctx hready
    rw [hready] at hfollow
    rw [hc.flags_eq]
    exact hfollow

theorem startsWithIgnoringCase_self (s : String) : startsWithIgnoringCase s s = true := by
  simp [startsWithIgnoringCase]

/-- The first word of a command that offers something starts with the first word of the line. -/
theorem Command.startsWith_of_nextWord? {c : Command α σ} {line q x : String}
    {typed : List String} (h : Typed line.toList typed q)
    (hx : (nextWord? c.words typed).filter (startsWithIgnoringCase · q) = some x) :
    startsWithIgnoringCase c.name (Cursor.ofString line).word = true := by
  obtain ⟨hnext, hstart⟩ := Option.filter_eq_some_iff.mp hx
  have hwords : c.words = c.name :: c.path.filterMap Step.literal? := rfl
  rw [hwords] at hnext
  generalize hline : line.toList = cs at h
  cases h with
  | part hq =>
    rw [(Cursor.of_part hq hline).1]
    obtain rfl : c.name = x := by simpa [nextWord?] using hnext
    exact hstart
  | word hw hne hblanks htyped =>
    rw [(Cursor.of_typed_word hw hne hblanks htyped.head?_eq hline).1]
    rw [nextWord?_cons] at hnext
    split at hnext
    · rename_i hname
      exact hname ▸ startsWithIgnoringCase_self c.name
    · cases hnext

/-! ## All commands -/

/-- What is kept of a list is each element at its first occurrence. -/
theorem firstOccurrences_eq_eraseDups (xs : List String) : firstOccurrences xs = xs.eraseDups := by
  induction xs using List.reverseRecOn with
  | nil => rfl
  | append_singleton xs x ih =>
    have hkept : (xs.foldl (fun kept x => if kept.contains x then kept else kept.push x)
        #[]).contains x = xs.contains x := by
      rw [← Array.contains_toList, ← firstOccurrences]
      simp [mem_firstOccurrences]
    rw [List.eraseDups_append, ← ih, firstOccurrences, List.foldl_append, List.foldl_cons,
      List.foldl_nil, hkept]
    by_cases hx : x ∈ xs <;> simp [hx, firstOccurrences, List.removeAll, List.eraseDups_cons]

/-- Two ways of gathering agree if they agree on every element. -/
theorem flatMap_filter_eq_filterMap {β γ : Type} {p p' : β → Bool} {f : β → List γ}
    {g : β → Option γ} {xs : List β}
    (h : ∀ x ∈ xs, (if p x then f x else []) = if p' x then (g x).toList else []) :
    (xs.filter p).flatMap f = (xs.filter p').filterMap g := by
  induction xs with
  | nil => rfl
  | cons x xs ih =>
    have hrest := ih fun y hy => h y (List.mem_cons_of_mem x hy)
    have hhead := h x List.mem_cons_self
    by_cases hp : p x = true <;> by_cases hp' : p' x = true <;>
      cases hg : g x <;> simp_all

/-- Commands that are made of words offer what comes next in them. One whose first word does not
start with the first word of the line would offer nothing. -/
theorem flatMap_complete {cs : List (Command α σ)} {s : Settings} {line q : String}
    {typed : List String} (hcs : ∀ c ∈ cs, c.Literal) (h : Typed line.toList typed q)
    (principal : α) :
    (cs.filter (·.completable principal (Cursor.ofString line).word)).flatMap
        (·.complete s principal line) =
      (cs.filter fun c => !c.secret && c.permission.allows principal).filterMap fun c =>
        (nextWord? c.words typed).filter (startsWithIgnoringCase · q) := by
  apply flatMap_filter_eq_filterMap
  intro c hc
  have hcompletable : c.completable principal (Cursor.ofString line).word =
      ((!c.secret && c.permission.allows principal) &&
        startsWithIgnoringCase c.name (Cursor.ofString line).word) := Bool.and_right_comm ..
  rw [(hcs c hc).complete_eq h, hcompletable]
  cases hopen : !c.secret && c.permission.allows principal with
  | false => rfl
  | true =>
    rw [Bool.true_and, if_pos rfl]
    cases hnext : (nextWord? c.words typed).filter (startsWithIgnoringCase · q) with
    | none => rw [Option.toList_none, ite_self]
    | some x => rw [if_pos (c.startsWith_of_nextWord? h hnext)]

namespace Tree

/-- **Completion of words is exact.** Take commands that are made of words, inserted into an empty
tree, and a line that does not start with a blank. The line is some typed words, each with blanks
behind it, and the part of one more. Offered are, in the order of the commands and each of them
once, the words that come next in the commands that begin with the typed words, if they start with
the part, ignoring case; secret commands and those closed to the principal are left out. -/
theorem complete_literals {cs : List (Command α σ)} {s : Settings} {t : Tree α σ} {line : String}
    (hcs : ∀ c ∈ cs, c.Literal) (hgrown : Growth.insertAll cs (empty s) = .ok () t)
    (hline : line ≠ "") (hstart : line.toList.head?.any isBlank = false) (principal : α) :
    (∃ typed part, Typed line.toList typed part) ∧
      ∀ typed part, Typed line.toList typed part → t.complete principal line =
        ((cs.filter fun c => !c.secret && c.permission.allows principal).filterMap fun c =>
          (nextWord? c.words typed).filter (startsWithIgnoringCase · part)).eraseDups := by
  refine ⟨exists_typed hstart, ?_⟩
  intro typed part htyped
  have hcommands : t.commands.toList = cs := Growth.commands_of_insertAll hcs hgrown
  rw [complete, if_neg hline, firstOccurrences_eq_eraseDups, hcommands]
  exact congrArg List.eraseDups (flatMap_complete hcs htyped principal)

/-- Some greetings. One of them is secret, one is for operators, and two have one first pair of
words. -/
def greetings : List (Command Nat Unit) :=
  [greet ["all"], greet ["Alice", "now"], { greet ["alone"] with secret := true },
    { greet ["admins"] with permission := .requires fun level => 3 ≤ level }, greet ["Alice"]]
where
  greet (words : List String) : Command Nat Unit :=
    { id := 0, name := "greet", path := words.map .literal, flags := [], permission := .always,
      action := none, description := none, secret := false }

theorem complete_literals_greetings :
    (∀ c ∈ greetings, c.Literal) ∧
      Growth.insertAll greetings (empty {}) =
        .ok () ((Growth.insertAll greetings).after (empty {})) ∧
      ((Growth.insertAll greetings).after (empty {})).complete 0 "greet  A" = ["all", "Alice"] := by
  have hliteral : ∀ c ∈ greetings, c.Literal := by decide
  have hgrown := Growth.eq_ok_of_succeeds
    (show (Growth.insertAll greetings).succeeds (empty {}) = true by decide +kernel)
  have htyped : Typed ("greet".toList ++ ("  ".toList ++ "A".toList)) ["greet"] "A" :=
    .word (by decide) (by decide) (List.all_eq_true.mp (by decide))
      (.part (show IsWord "A" by decide).2)
  obtain ⟨_, hcomplete⟩ := complete_literals hliteral hgrown (show "greet  A" ≠ "" by decide)
    (by decide) 0
  refine ⟨hliteral, hgrown, ?_⟩
  rw [hcomplete ["greet"] "A" htyped]
  decide +kernel

end Tree

end CommandLine
