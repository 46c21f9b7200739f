import CommandLine.Text.Lowercase
import CommandLine.Tree.Basic

/-!
# Completing lines

Each command that the principal may run is followed along the line on its own, past the words that
it accepts. Where the line stops making sense the walk halts, and where the line ends it offers what
could stand there. Candidates are kept when they start with what was typed, ignoring case, and are
cut after the last space already typed.
-/

set_option autoImplicit false

namespace CommandLine

open Text

variable {α σ : Type}

/-- What of a candidate stands after the last space among its first `count` characters. `kept` is
what follows the last space so far. -/
def afterLastSpace (kept : List Char) : Nat → List Char → List Char
  | 0, _ => kept
  | _, [] => kept
  | count + 1, c :: cs => afterLastSpace (if c = ' ' then cs else kept) count cs

/-- The part of a candidate that replaces the last typed word. -/
def stillToType (candidate typed : String) : String :=
  String.ofList (afterLastSpace candidate.toList typed.length candidate.toList)

/-- The candidates that start with what was typed, each cut to the part that is still to come. -/
def matching (candidates : List String) (typed : String) : List String :=
  (candidates.filter fun candidate => startsWithIgnoringCase candidate typed).map
    fun candidate => stillToType candidate typed

/-- How a walk along one command stands: halted with its suggestions, or ready to go on. -/
inductive Progress (α : Type) where
  | halted (suggestions : List String)
  | ready (c : Cursor) (ctx : Context α)

/-- Reads one value. At the end of the line, or where the type refuses, the parameter's suggestions
are offered. -/
def followValue (p : Parameter α) (c : Cursor) (ctx : Context α) : Progress α :=
  if !p.permission.allows ctx.principal then .halted []
  else match p.type.parse ctx c with
    | (.error _, _) => .halted (matching (p.suggestions ctx) c.restText)
    | (.ok value, after) =>
      if after.atEnd then .halted (matching (p.suggestions ctx) (after.since c.position))
      else if after.atBlank then .ready after.skipBlank (ctx.bind p.name value)
      else .halted []

/-- Reads the value of a flag whose name was just read. -/
def followFlagValue (p : Parameter α) (c : Cursor) (ctx : Context α) (attached : Bool) :
    Progress α :=
  if !attached && !c.atBlank then .halted []
  else
    let c := if attached then c else c.skipBlank
    if c.atEnd then .halted (matching (p.suggestions ctx) "") else followValue p c ctx

/-- Reads a literal. At the end of the line its word is offered. -/
def followLiteral (name : String) (c : Cursor) (ctx : Context α) : Progress α :=
  let after := c.skipWord
  if after.atEnd then .halted (if startsWithIgnoringCase name c.word then [name] else [])
  else if c.word = name then .ready after.skipBlank ctx
  else .halted []

/-- Reads one literal or argument. -/
def followStep (step : Step α) (c : Cursor) (ctx : Context α) : Progress α :=
  match step with
  | .literal name => followLiteral name c ctx
  | .parameter p => followValue p c ctx

/-- Reads literals and arguments in order. -/
def followSteps (c : Cursor) (ctx : Context α) : List (Step α) → Progress α
  | [] => .ready c ctx
  | step :: steps =>
    match followStep step c ctx with
    | .ready c ctx => followSteps c ctx steps
    | halted => halted

/-- How a walk along a bundle of shorthands stands: halted, or past it with the flags that are left
and whether it held switches only. -/
inductive BundleProgress (α : Type) where
  | halted (suggestions : List String)
  | past (flags : List (Parameter α)) (c : Cursor) (ctx : Context α) (onlySwitches : Bool)

/-- Takes the first element that satisfies `p` out of a list. -/
def takeOut? {β : Type} (p : β → Bool) : List β → Option (β × List β)
  | [] => none
  | x :: xs =>
    if p x then some (x, xs) else (takeOut? p xs).map fun (y, ys) => (y, x :: ys)

/-- Reads a bundle of shorthands: any number of switches, and at most one flag, which takes what
follows as its value. Each shorthand uses up its flag. -/
def followBundle (flags : List (Parameter α)) (c : Cursor) (ctx : Context α) :
    List Char → BundleProgress α
  | [] => .past flags c ctx true
  | ch :: chars =>
    match takeOut? (fun p => p.shorthand? = some ch) flags with
    | none => .halted []
    | some (p, left) =>
      let after := c.advance 1
      if p.isSwitch then followBundle left after (ctx.bind p.name (.truth true)) chars
      else match followFlagValue p after ctx (!after.atBreak) with
        | .halted suggestions => .halted suggestions
        | .ready c ctx => .past left c ctx false

/-- The spellings offered where a flag may start: long ones, or short ones right after a bundle. -/
def flagSpellings (s : Settings) (flags : List (Parameter α)) (short : Bool) : List String :=
  flags.map fun p =>
    match p.shorthand?, short with
    | some c, true => s.shortPrefix ++ c.toString
    | _, _ => s.longPrefix ++ p.longName

/-- The long spellings offered for a part of a name. A whole name needs no completion. -/
def longSpellings (s : Settings) (flags : List (Parameter α)) (part : String) : List String :=
  if flags.any fun p => p.longName = part then []
  else (flags.filter fun p => startsWithIgnoringCase p.longName part).map
    fun p => s.longPrefix ++ p.longName

/-- The spellings offered for a bundle that may grow by a shorthand; a flag still needs a value. -/
def bundleSpellings (s : Settings) (flags : List (Parameter α)) (bundle : String) : List String :=
  flags.filterMap fun p => p.shorthand?.map fun c =>
    s.shortPrefix ++ bundle ++ c.toString ++ if p.isSwitch then "" else " "

theorem length_of_takeOut? {β : Type} {p : β → Bool} {xs ys : List β} {x : β}
    (h : takeOut? p xs = some (x, ys)) : ys.length < xs.length := by
  induction xs generalizing x ys with
  | nil => simp [takeOut?] at h
  | cons z zs ih =>
    unfold takeOut? at h
    split at h
    · simp only [Option.some.injEq, Prod.mk.injEq] at h
      simp [← h.2]
    · simp only [Option.map_eq_some_iff, Prod.exists, Prod.mk.injEq] at h
      obtain ⟨y, ws, hw, _, rfl⟩ := h
      simpa using ih hw

theorem length_of_followBundle {flags left : List (Parameter α)} {c after : Cursor}
    {ctx ctx' : Context α} {chars : List Char} {only : Bool}
    (h : followBundle flags c ctx chars = .past left after ctx' only) :
    left.length ≤ flags.length ∧ (chars ≠ [] → left.length < flags.length) := by
  induction chars generalizing flags c ctx with
  | nil =>
    simp only [followBundle, BundleProgress.past.injEq] at h
    simp [h.1]
  | cons ch chars ih =>
    unfold followBundle at h
    split at h
    · cases h
    · rename_i p rest htake
      have hlt := length_of_takeOut? htake
      simp only at h
      split at h
      · have := (ih h).1
        omega
      · split at h
        · cases h
        · simp only [BundleProgress.past.injEq] at h
          obtain ⟨rfl, _⟩ := h
          omega

mutual

/-- What is offered where flags may come: `flags` are those not given yet, and `short` says whether
the last word was a bundle. -/
def suggestFlags (s : Settings) (flags : List (Parameter α)) (c : Cursor) (ctx : Context α)
    (short : Bool) : List String :=
  if c.atEnd then flagSpellings s flags short
  else
    match s.longPrefix.toList.isPrefixOf? c.word.toList with
    | some name =>
      let name := String.ofList name
      let after := c.skipWord
      if after.atEnd then longSpellings s flags name
      else
        match _ : takeOut? (fun p => p.longName = name) flags with
        | none => []
        | some (p, left) =>
          if p.isSwitch then suggestLater s left after (ctx.bind p.name (.truth true)) false
          else match followFlagValue p after ctx false with
            | .halted suggestions => suggestions
            | .ready c ctx => suggestLater s left c ctx false
    | none =>
      match s.shortPrefix.toList.isPrefixOf? c.word.toList with
      | none | some [] => []
      | some (ch :: chars) =>
        match _ : followBundle flags (c.advance s.shortPrefix.length) ctx (ch :: chars) with
        | .halted suggestions => suggestions
        | .past left after ctx onlySwitches =>
          if after.atEnd then
            if onlySwitches then bundleSpellings s left (String.ofList (ch :: chars)) else []
          else suggestLater s left after ctx true
termination_by 2 * flags.length
decreasing_by
  · have h := length_of_takeOut? ‹_›
    omega
  · have h := length_of_takeOut? ‹_›
    omega
  · have h := (length_of_followBundle ‹_›).2 (by simp)
    omega

/-- What is offered after one more flag was read. A word must have ended there. -/
def suggestLater (s : Settings) (flags : List (Parameter α)) (c : Cursor) (ctx : Context α)
    (short : Bool) : List String :=
  if c.atBreak then suggestFlags s flags c.skipBlank ctx short else []
termination_by 2 * flags.length + 1

end

namespace Command

/-- What a command offers at the end of a line. -/
def complete (command : Command α σ) (s : Settings) (principal : α) (line : String) :
    List String :=
  match followSteps (Cursor.ofString line) (.ofLine principal line) command.positionals with
  | .halted suggestions => suggestions
  | .ready c ctx =>
    let flags := command.flags.filter fun p => p.permission.allows principal
    if flags.isEmpty then [] else suggestFlags s flags c ctx false

/-- Whether a command takes part in completion: it is not secret, its name starts with the first
word, ignoring case, and the principal may run it. -/
def completable (command : Command α σ) (principal : α) (word : String) : Bool :=
  !command.secret && startsWithIgnoringCase command.name word && command.permission.allows principal

end Command

/-- The elements of a list at their first occurrence. -/
def firstOccurrences (xs : List String) : List String :=
  (xs.foldl (fun kept x => if kept.contains x then kept else kept.push x) #[]).toList

/-- What could be typed next, in the order of the commands and without repetition. -/
def Tree.complete (t : Tree α σ) (principal : α) (line : String) : List String :=
  if line = "" then []
  else
    let word := (Cursor.ofString line).word
    firstOccurrences <| (t.commands.toList.filter (·.completable principal word)).flatMap
      (·.complete t.settings principal line)

end CommandLine
