import CommandLine.Tree.Basic

/-!
# The ways on from a node

A visit is a node together with the cursor and the values with which it was reached. From a visit
there are branches: to the literal child named by the next word, to the flag child that the word
spells, to each argument child in order, and one that says that no child accepted the word. A branch
leads on to another visit, is rejected or denied, or finds a command.

* `left_lt_of_mem_branches` — each branch that leads on has read something.
-/

set_option autoImplicit false

namespace CommandLine

variable {α σ : Type}

/-- A node, how far the line was read to reach it and what was found on the way. In a bundle the
cursor stands before the next shorthand of the word being read. -/
structure Visit (α : Type) where
  node : NodeIndex
  cursor : Cursor
  context : Context α
  bundled : Bool := false

/-- How much of the line a visit has left. -/
def Visit.left {α : Type} (v : Visit α) : Nat := v.cursor.rest.length

/-- One way on from a visit. -/
inductive Branch (α σ : Type) where
  | rejected (r : Rejection)
  /-- The principal may not go on; nothing else is tried. -/
  | denied (r : Rejection)
  /-- The line ends here with a command. -/
  | bound (c : Command α σ)
  | enter (v : Visit α)

/-- Who has a turn at a visit. -/
inductive Turn (α : Type) where
  /-- The flag child with the next shorthand of a bundle. -/
  | shorthand
  /-- The end of the line. -/
  | finish
  /-- The literal child that the next word names. -/
  | literal
  /-- The flag child that the next word spells. -/
  | flag
  /-- One of the argument children. -/
  | argument (child : NodeIndex) (p : Parameter α)
  /-- The node itself, where no child accepted the word. -/
  | mismatch

/-- Whether a turn gives a name a value when it leads on. Literals have none. -/
def Turn.binds {α : Type} : Turn α → Bool
  | .shorthand | .flag | .argument _ _ => true
  | .finish | .literal | .mismatch => false

/-- How a word spells flags. -/
inductive FlagSpelling where
  | long (name : String)
  | short
deriving DecidableEq, Repr

/-- Whether what follows a short prefix makes the word a negative number: it starts with a digit or
a point and reads as a decimal number. -/
def looksNumeric (cs : List Char) : Bool :=
  match cs with
  | [] => false
  | c :: _ => (c.isDigit || c = '.') && (Numeral.readDecimal? (String.ofList cs)).isSome

/-- How a word spells flags under some settings. The long prefix is matched first. -/
def Settings.flagSpelling? (s : Settings) (word : String) : Option FlagSpelling :=
  match s.longPrefix.toList.isPrefixOf? word.toList with
  | some name => if name.isEmpty then none else some (.long (String.ofList name))
  | none =>
    match s.shortPrefix.toList.isPrefixOf? word.toList with
    | some rest => if rest.isEmpty || looksNumeric rest then none else some .short
    | none => none

namespace Tree

/-- Goes on only if the node is open to the principal; a denial is found at `position`. -/
def permitted (t : Tree α σ) (ctx : Context α) (child : NodeIndex) (position : Nat)
    (b : Branch α σ) : Branch α σ :=
  if (t.node child).permission.allows ctx.principal then b
  else .denied ⟨.noPermission, position, some (t.node child).name⟩

/-- Enters a child where a word has ended: only a blank or the end of the line may follow. -/
def enter (t : Tree α σ) (child : NodeIndex) (c : Cursor) (ctx : Context α) : Branch α σ :=
  if c.atBreak then .enter ⟨child, c.skipBlank, ctx, false⟩
  else .rejected ⟨.expectedWhitespace, c.position, some (t.node child).name⟩

/-- Reads the value of a parameter and enters its node. -/
def enterValue (t : Tree α σ) (child : NodeIndex) (p : Parameter α) (c : Cursor)
    (ctx : Context α) : Branch α σ :=
  match p.type.parse ctx c with
  | (.ok value, after) => t.enter child after (ctx.bind p.name value)
  | (.error r, _) => .rejected (r.atNode p.name)

/-- Reads the value of a flag, which has to be there. -/
def flagValue (t : Tree α σ) (child : NodeIndex) (p : Parameter α) (c : Cursor)
    (ctx : Context α) : Branch α σ :=
  if c.atEnd then .rejected ⟨.missingArgument p.name, c.position, some p.name⟩
  else t.enterValue child p c ctx

/-- Goes on after the name of a flag. The word goes on with `attached`: with the next shorthand
after a switch, with the value after a flag. -/
def afterFlag (t : Tree α σ) (child : NodeIndex) (p : Parameter α) (c : Cursor)
    (ctx : Context α) (attached : Bool) : Branch α σ :=
  match p.isSwitch, attached with
  | true, true => .enter ⟨child, c, ctx.bind p.name (.truth true), true⟩
  | true, false => t.enter child c (ctx.bind p.name (.truth true))
  | false, true => t.flagValue child p c ctx
  | false, false => t.flagValue child p c.skipBlank ctx

/-- The branch at a shorthand. -/
def shorthandBranch? (t : Tree α σ) (id : NodeIndex) (c : Cursor) (ctx : Context α) :
    Option (Branch α σ) :=
  match c.rest with
  | [] => none
  | ch :: _ =>
    match t.flagShort? id ch with
    | none => some (.rejected ⟨.unknownFlag ch.toString true, c.position, none⟩)
    | some (child, p) =>
      let after := c.advance 1
      some (t.permitted ctx child c.position (t.afterFlag child p after ctx (!after.atBreak)))

/-- The branch to the literal child that the next word names. -/
def literalBranch? (t : Tree α σ) (id : NodeIndex) (c : Cursor) (ctx : Context α) :
    Option (Branch α σ) :=
  ((t.node id).literal? c.word).map fun child =>
    t.permitted ctx child c.position (t.enter child c.skipWord ctx)

/-- The branch to the flag child that the next word spells. -/
def flagBranch? (t : Tree α σ) (id : NodeIndex) (c : Cursor) (ctx : Context α) :
    Option (Branch α σ) :=
  if (t.node id).flags.isEmpty then none
  else match t.settings.flagSpelling? c.word with
    | none => none
    | some (.long name) =>
      match t.flagNamed? id name with
      | none => some (.rejected ⟨.unknownFlag name false, c.position, none⟩)
      | some (child, p) =>
        some (t.permitted ctx child c.position (t.afterFlag child p c.skipWord ctx false))
    | some .short => t.shorthandBranch? id (c.advance t.settings.shortPrefix.length) ctx

/-- The branch to an argument child. -/
def argumentBranch (t : Tree α σ) (child : NodeIndex) (p : Parameter α) (c : Cursor)
    (ctx : Context α) : Branch α σ :=
  t.permitted ctx child c.position (t.enterValue child p c ctx)

/-- What is wrong with a word that no child accepted, if no child has said so already. -/
def mismatch? (t : Tree α σ) (id : NodeIndex) (word : String) : Option Cause :=
  let n := t.node id
  if (n.literal? word).isSome then none
  else if n.isRoot then some (.unknownCommand word)
  else if !n.arguments.isEmpty then none
  else if !n.literals.isEmpty then some (.expectedLiteral n.literalNames word)
  else if !n.flags.isEmpty && (t.settings.flagSpelling? word).isSome then none
  else some (.trailingInput word)

/-- The rejection of a word that no child accepted. -/
def mismatchBranch? (t : Tree α σ) (id : NodeIndex) (c : Cursor) : Option (Branch α σ) :=
  (t.mismatch? id c.word).map fun cause => .rejected ⟨cause, c.position, some (t.node id).name⟩

/-- What is missing at a node without a command where the line ends. -/
def missing (t : Tree α σ) (id : NodeIndex) : Cause :=
  let n := t.node id
  let flags := (t.flagsOf id).map Prod.snd
  if n.isRoot then .unknownCommand ""
  else match n.arguments.head?, (flags.find? (!·.isOptional) <|> flags.head?) with
    | some argument, _ => .missingArgument (t.node argument).name
    | none, some flag => .missingArgument flag.name
    | none, none =>
      if n.literals.isEmpty then .endOfInput else .expectedLiteral n.literalNames ""

/-- The branch at the end of the line: the command of the node, if its own permission allows. -/
def endBranch (t : Tree α σ) (id : NodeIndex) (c : Cursor) (ctx : Context α) : Branch α σ :=
  match (t.node id).command with
  | some command =>
    if command.permission.allows ctx.principal then .bound command
    else .denied ⟨.noPermission, c.position, some command.name⟩
  | none => .rejected ⟨t.missing id, c.position, some (t.node id).name⟩

/-- The turns at a visit, in order: inside a bundle the next shorthand, at the end of the line its
end, and otherwise the literals, the flags, each argument, and last the complaint that no child
accepted the word. -/
def turns (t : Tree α σ) (v : Visit α) : List (Turn α) :=
  if v.bundled then [.shorthand]
  else if v.cursor.atEnd then [.finish]
  else .literal :: .flag :: (t.argumentsOf v.node).map (fun child => .argument child.1 child.2) ++
    [.mismatch]

/-- What comes of a turn at a node, with what has been found so far. -/
def attempt (t : Tree α σ) (id : NodeIndex) (c : Cursor) (ctx : Context α) :
    Turn α → Option (Branch α σ)
  | .shorthand => t.shorthandBranch? id c ctx
  | .finish => some (t.endBranch id c ctx)
  | .literal => t.literalBranch? id c ctx
  | .flag => t.flagBranch? id c ctx
  | .argument child p => some (t.argumentBranch child p c ctx)
  | .mismatch => t.mismatchBranch? id c

/-- The ways on from a visit, in the order in which they are tried. -/
def branches (t : Tree α σ) (v : Visit α) : List (Branch α σ) :=
  (t.turns v).filterMap (t.attempt v.node v.cursor v.context)

/-- Only a branch that enters is let in. -/
theorem eq_of_permitted_eq_enter {t : Tree α σ} {ctx : Context α} {child : NodeIndex}
    {position : Nat} {b : Branch α σ} {v : Visit α}
    (h : t.permitted ctx child position b = .enter v) : b = .enter v := by
  unfold permitted at h
  split at h
  · exact h
  · cases h

/-- Entering a child where a word has ended leaves less than before the word. -/
theorem left_lt_of_enter {t : Tree α σ} {child : NodeIndex} {c d : Cursor} {ctx : Context α}
    {v : Visit α} (hcd : c.Reaches d) (hne : c.rest ≠ []) (h : t.enter child d ctx = .enter v) :
    v.left < c.rest.length := by
  unfold enter at h
  split at h
  · rename_i hbreak
    obtain rfl := Branch.enter.inj h
    have hle := (Cursor.skipBlank_reached d).length_rest_le
    rcases Nat.lt_or_ge d.rest.length c.rest.length with hlt | hge
    · exact Nat.lt_of_le_of_lt hle hlt
    · obtain rfl := hcd.eq_of_length_rest (Nat.le_antisymm hcd.length_rest_le hge)
      have hblank : d.atBlank = true := by
        simpa [Cursor.atBreak, Cursor.atEnd, hne] using hbreak
      exact Cursor.length_skipBlank_lt hblank
  · cases h

/-- Behind a value less of the line is left. -/
theorem left_lt_of_enterValue {t : Tree α σ} {child : NodeIndex} {p : Parameter α}
    {c d : Cursor} {ctx : Context α} {v : Visit α} (hcd : c.Reaches d) (hne : c.rest ≠ [])
    (h : t.enterValue child p d ctx = .enter v) : v.left < c.rest.length := by
  have hparse := p.type.parse_reached ctx d
  unfold enterValue at h
  split at h
  · rename_i value after heq
    rw [heq] at hparse
    exact left_lt_of_enter (hcd.trans hparse) hne h
  · cases h

/-- Also behind the value of a flag. -/
theorem left_lt_of_flagValue {t : Tree α σ} {child : NodeIndex} {p : Parameter α}
    {c d : Cursor} {ctx : Context α} {v : Visit α} (hcd : c.Reaches d) (hne : c.rest ≠ [])
    (h : t.flagValue child p d ctx = .enter v) : v.left < c.rest.length := by
  unfold flagValue at h
  split at h
  · cases h
  · exact left_lt_of_enterValue hcd hne h

/-- Also behind the name of a flag, with or without a value. -/
theorem left_lt_of_afterFlag {t : Tree α σ} {child : NodeIndex} {p : Parameter α}
    {c d : Cursor} {ctx : Context α} {attached : Bool} {v : Visit α} (hcd : c.Reaches d)
    (hne : c.rest ≠ []) (hlt : attached = true → d.rest.length < c.rest.length)
    (h : t.afterFlag child p d ctx attached = .enter v) : v.left < c.rest.length := by
  unfold afterFlag at h
  split at h
  · obtain rfl := Branch.enter.inj h
    exact hlt rfl
  · exact left_lt_of_enter hcd hne h
  · exact left_lt_of_flagValue hcd hne h
  · exact left_lt_of_flagValue (hcd.trans (Cursor.skipBlank_reached d)) hne h

/-- A shorthand takes at least its character. -/
theorem left_lt_of_shorthandBranch? {t : Tree α σ} {id : NodeIndex} {c : Cursor} {ctx : Context α}
    {v : Visit α} (h : t.shorthandBranch? id c ctx = some (.enter v)) :
    v.left < c.rest.length := by
  unfold shorthandBranch? at h
  split at h
  · cases h
  · rename_i ch rest hrest
    have hne : c.rest ≠ [] := by simp [hrest]
    split at h
    · cases h
    · exact left_lt_of_afterFlag (Cursor.advance_reached 1 c) hne
        (fun _ => Cursor.length_advance_one_lt hne) (eq_of_permitted_eq_enter (Option.some.inj h))

/-- And a word that names a flag at least the word. -/
theorem left_lt_of_flagBranch? {t : Tree α σ} {id : NodeIndex} {c : Cursor} {ctx : Context α}
    {v : Visit α} (hne : c.rest ≠ []) (h : t.flagBranch? id c ctx = some (.enter v)) :
    v.left < c.rest.length := by
  unfold flagBranch? at h
  split at h
  · cases h
  · split at h
    · cases h
    · split at h
      · cases h
      · exact left_lt_of_afterFlag (Cursor.skipWord_reached c) hne (by simp)
          (eq_of_permitted_eq_enter (Option.some.inj h))
    · exact Nat.lt_of_lt_of_le (left_lt_of_shorthandBranch? h)
        (Cursor.advance_reached _ c).length_rest_le

/-- Outside a bundle and before the end of the line something is left to read. -/
theorem rest_ne_nil_of_mem_turns {t : Tree α σ} {v : Visit α} {turn : Turn α}
    (h : turn ∈ t.turns v) : turn = .shorthand ∨ turn = .finish ∨ v.cursor.rest ≠ [] := by
  unfold turns at h
  split at h
  · exact .inl (List.mem_singleton.mp h)
  · split at h
    · exact .inr (.inl (List.mem_singleton.mp h))
    · rename_i hend
      exact .inr (.inr (by simpa [Cursor.atEnd] using hend))

/-- Every turn that leads on reads something, whatever has been found so far. -/
theorem left_lt_of_attempt {t : Tree α σ} {v w : Visit α} {ctx : Context α} {turn : Turn α}
    (hturn : turn ∈ t.turns v) (h : t.attempt v.node v.cursor ctx turn = some (.enter w)) :
    w.left < v.left := by
  have hrest := rest_ne_nil_of_mem_turns hturn
  cases turn with
  | shorthand => exact left_lt_of_shorthandBranch? h
  | finish =>
    simp only [attempt, endBranch, Option.some.injEq] at h
    split at h
    · split at h <;> cases h
    · cases h
  | literal =>
    obtain ⟨child, _, h⟩ := Option.map_eq_some_iff.mp h
    exact left_lt_of_enter (Cursor.skipWord_reached _) (by simpa using hrest)
      (eq_of_permitted_eq_enter h)
  | flag => exact left_lt_of_flagBranch? (by simpa using hrest) h
  | argument child p =>
    exact left_lt_of_enterValue (.refl _) (by simpa using hrest)
      (eq_of_permitted_eq_enter (Option.some.inj h))
  | mismatch =>
    obtain ⟨_, _, h⟩ := Option.map_eq_some_iff.mp h
    cases h

/-- Every branch that leads on has read something. -/
theorem left_lt_of_mem_branches {t : Tree α σ} {v w : Visit α}
    (h : .enter w ∈ t.branches v) : w.left < v.left := by
  obtain ⟨turn, hturn, h⟩ := List.mem_filterMap.mp h
  exact left_lt_of_attempt hturn h

end Tree

end CommandLine
