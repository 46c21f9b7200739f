import CommandLine.Proofs.Tree.Nodes
import CommandLine.Tree.Search

/-!
# Readings of a line

A reading follows the line from visit to visit, with no search in it: every move goes to one child
that the line fits, and says which value it gave to which parameter. Each visit has a cursor and
values of its own. A reading is accepted if the line ends at a node with a command that its
principal may use.

* `attempt_eq_enter_iff` — the moves are exactly the turns that lead on;
* `Reads.context_eq` — a reading ends with the values that it gave, in order, and with no others.
-/

set_option autoImplicit false

namespace CommandLine

variable {α σ : Type}

/-- A value given to a parameter, with what was known and where the line stood when it was read. -/
structure Given (α : Type) where
  parameter : Parameter α
  value : Value
  context : Context α
  cursor : Cursor

/-- The value is what the line says: what the parameter's type reads there, or the presence of a
switch. -/
def Given.Read (g : Given α) : Prop :=
  (∃ after, g.parameter.type.parse g.context g.cursor = (.ok g.value, after)) ∨
    g.parameter.isSwitch = true ∧ g.value = .truth true

/-- A context with values given to it one after the other. -/
def Context.given (ctx : Context α) (given : List (Given α)) : Context α :=
  given.foldl (fun ctx g => ctx.bind g.parameter.name g.value) ctx

/-- Values are given to one principal. -/
theorem Context.principal_given (ctx : Context α) (given : List (Given α)) :
    (ctx.given given).principal = ctx.principal := by
  induction given generalizing ctx with
  | nil => rfl
  | cons g given ih => exact ih (ctx.bind g.parameter.name g.value)

/-- Where a reading is accepted. -/
structure Arrival (α σ : Type) where
  command : Command α σ
  cursor : Cursor
  context : Context α

namespace Tree

/-- The flag child that a turn finds spelled, the cursor behind its name, and whether the word goes
on there. -/
inductive Spells (t : Tree α σ) (v : Visit α) :
    Turn α → NodeIndex → Parameter α → Cursor → Bool → Prop
  | long {name : String} {child : NodeIndex} {p : Parameter α} :
      t.settings.flagSpelling? v.cursor.word = some (.long name) →
      t.flagNamed? v.node name = some (child, p) →
      Spells t v .flag child p v.cursor.skipWord false
  | short {ch : Char} {rest : List Char} {child : NodeIndex} {p : Parameter α} {c : Cursor} :
      t.settings.flagSpelling? v.cursor.word = some .short →
      c = v.cursor.advance t.settings.shortPrefix.length → c.rest = ch :: rest →
      t.flagShort? v.node ch = some (child, p) →
      Spells t v .flag child p (c.advance 1) !(c.advance 1).atBreak
  | bundled {ch : Char} {rest : List Char} {child : NodeIndex} {p : Parameter α} :
      v.cursor.rest = ch :: rest → t.flagShort? v.node ch = some (child, p) →
      Spells t v .shorthand child p (v.cursor.advance 1) !(v.cursor.advance 1).atBreak

/-- A turn leads from one visit to another and gives a parameter its value, unless it was a word's
turn. -/
inductive Moves (t : Tree α σ) (v : Visit α) : Turn α → Option (Given α) → Visit α → Prop
  | literal {child : NodeIndex} :
      (t.node v.node).literal? v.cursor.word = some child →
      (t.node child).permission.allows v.context.principal = true →
      v.cursor.skipWord.atBreak = true →
      Moves t v .literal none ⟨child, v.cursor.skipWord.skipBlank, v.context, false⟩
  | argument {child : NodeIndex} {p : Parameter α} {value : Value} {after : Cursor} :
      (t.node child).permission.allows v.context.principal = true →
      p.type.parse v.context v.cursor = (.ok value, after) → after.atBreak = true →
      Moves t v (.argument child p) (some ⟨p, value, v.context, v.cursor⟩)
        ⟨child, after.skipBlank, v.context.bind p.name value, false⟩
  /-- A switch at the end of its word. -/
  | switch {turn : Turn α} {child : NodeIndex} {p : Parameter α} {c : Cursor} :
      t.Spells v turn child p c false → p.isSwitch = true →
      (t.node child).permission.allows v.context.principal = true → c.atBreak = true →
      Moves t v turn (some ⟨p, .truth true, v.context, c⟩)
        ⟨child, c.skipBlank, v.context.bind p.name (.truth true), false⟩
  /-- A switch with more shorthands behind it. -/
  | bundle {turn : Turn α} {child : NodeIndex} {p : Parameter α} {c : Cursor} :
      t.Spells v turn child p c true → p.isSwitch = true →
      (t.node child).permission.allows v.context.principal = true →
      Moves t v turn (some ⟨p, .truth true, v.context, c⟩)
        ⟨child, c, v.context.bind p.name (.truth true), true⟩
  /-- A flag with its value, in the same word or in the next one. -/
  | value {turn : Turn α} {child : NodeIndex} {p : Parameter α} {c d after : Cursor}
      {attached : Bool} {value : Value} :
      t.Spells v turn child p c attached → p.isSwitch = false →
      (t.node child).permission.allows v.context.principal = true →
      d = (if attached then c else c.skipBlank) → d.atEnd = false →
      p.type.parse v.context d = (.ok value, after) → after.atBreak = true →
      Moves t v turn (some ⟨p, value, v.context, d⟩)
        ⟨child, after.skipBlank, v.context.bind p.name value, false⟩

variable {t : Tree α σ} {v w u : Visit α} {turn : Turn α} {child : NodeIndex} {p : Parameter α}
  {c : Cursor} {ctx : Context α} {attached : Bool}

/-! ## Moves are the turns that lead on -/

/-- Only those who are let in go on at a node. -/
theorem permitted_eq_enter_iff {position : Nat} {b : Branch α σ} :
    t.permitted ctx child position b = .enter w ↔
      (t.node child).permission.allows ctx.principal = true ∧ b = .enter w := by
  cases hallows : (t.node child).permission.allows ctx.principal <;> simp [permitted, hallows]

/-- A node is entered behind a break, and the search goes on behind the blanks. -/
theorem enter_eq_enter_iff :
    t.enter child c ctx = .enter w ↔ c.atBreak = true ∧ w = ⟨child, c.skipBlank, ctx, false⟩ := by
  cases hbreak : c.atBreak <;> simp [enter, hbreak, eq_comm (a := w)]

/-- A value is bound on the way in if it can be read and a break follows. -/
theorem enterValue_eq_enter_iff :
    t.enterValue child p c ctx = .enter w ↔
      ∃ value after, p.type.parse ctx c = (.ok value, after) ∧ after.atBreak = true ∧
        w = ⟨child, after.skipBlank, ctx.bind p.name value, false⟩ := by
  unfold enterValue
  split
  · rename_i value after hparse
    simp only [hparse, enter_eq_enter_iff, Prod.mk.injEq, Except.ok.injEq]
    constructor
    · intro h
      exact ⟨value, after, ⟨rfl, rfl⟩, h⟩
    · rintro ⟨_, _, ⟨rfl, rfl⟩, h⟩
      exact h
  · rename_i r after hparse
    simp [hparse]

/-- The value of a flag must be there as well. -/
theorem flagValue_eq_enter_iff :
    t.flagValue child p c ctx = .enter w ↔ c.atEnd = false ∧
      ∃ value after, p.type.parse ctx c = (.ok value, after) ∧ after.atBreak = true ∧
        w = ⟨child, after.skipBlank, ctx.bind p.name value, false⟩ := by
  cases hend : c.atEnd <;> simp [flagValue, hend, enterValue_eq_enter_iff]

/-- What may follow the name of a switch or a flag. -/
theorem afterFlag_eq_enter_iff :
    t.afterFlag child p c ctx attached = .enter w ↔
      (p.isSwitch = true ∧ attached = true ∧ w = ⟨child, c, ctx.bind p.name (.truth true), true⟩) ∨
      (p.isSwitch = true ∧ attached = false ∧ c.atBreak = true ∧
        w = ⟨child, c.skipBlank, ctx.bind p.name (.truth true), false⟩) ∨
      (p.isSwitch = false ∧ (if attached then c else c.skipBlank).atEnd = false ∧
        ∃ value after, p.type.parse ctx (if attached then c else c.skipBlank) = (.ok value, after) ∧
          after.atBreak = true ∧
          w = ⟨child, after.skipBlank, ctx.bind p.name value, false⟩) := by
  cases hswitch : p.isSwitch <;> cases attached <;>
    simp [afterFlag, hswitch, flagValue_eq_enter_iff, enter_eq_enter_iff, eq_comm (a := w)]

/-- A shorthand leads on where it is that of a flag and what follows it does. -/
theorem shorthandBranch?_eq_enter_iff {id : NodeIndex} :
    t.shorthandBranch? id c ctx = some (.enter w) ↔
      ∃ ch rest child p, c.rest = ch :: rest ∧ t.flagShort? id ch = some (child, p) ∧
        (t.node child).permission.allows ctx.principal = true ∧
        t.afterFlag child p (c.advance 1) ctx (!(c.advance 1).atBreak) = .enter w := by
  unfold shorthandBranch?
  split
  · rename_i hrest
    simp [hrest]
  · rename_i ch rest hrest
    split
    · rename_i hnone
      simp [hrest, hnone]
    · rename_i child p hsome
      simp only [Option.some.injEq, permitted_eq_enter_iff]
      constructor
      · intro h
        exact ⟨ch, rest, child, p, hrest, hsome, h⟩
      · rintro ⟨_, _, child', p', hrest', hsome', h⟩
        obtain ⟨rfl, _⟩ := List.cons.inj (hrest.symm.trans hrest')
        obtain ⟨rfl, rfl⟩ := Prod.mk.inj (Option.some.inj (hsome.symm.trans hsome'))
        exact h

/-- A flag is named by a word or by a shorthand. -/
theorem Spells.turn_eq (h : t.Spells v turn child p c attached) :
    turn = .flag ∨ turn = .shorthand := by
  cases h <;> simp

theorem Spells.binds (h : t.Spells v turn child p c attached) : turn.binds = true := by
  cases h <;> rfl

/-- Only arguments of the node have a turn. -/
theorem mem_argumentsOf_of_mem_turns (h : .argument child p ∈ t.turns v) :
    (child, p) ∈ t.argumentsOf v.node := by
  unfold turns at h
  split at h
  · simp at h
  · split at h
    · simp at h
    · simpa using h

/-- A node with a flag has flags. -/
theorem flags_isEmpty_of_mem_flagsOf {id j : NodeIndex} (h : (j, p) ∈ t.flagsOf id) :
    (t.node id).flags.isEmpty = false :=
  List.isEmpty_eq_false_iff_exists_mem.mpr ⟨j, (mem_flagsOf.mp h).1⟩

/-- A flag's turn leads on where the line spells a child and goes on as it has to. -/
theorem attempt_flag_eq_enter_iff :
    t.attempt v.node v.cursor v.context .flag = some (.enter w) ↔
      ∃ child p c attached, t.Spells v .flag child p c attached ∧
        (t.node child).permission.allows v.context.principal = true ∧
        t.afterFlag child p c v.context attached = .enter w := by
  show t.flagBranch? v.node v.cursor v.context = some (.enter w) ↔ _
  constructor
  · intro h
    unfold flagBranch? at h
    split at h
    · cases h
    · split at h
      · cases h
      · rename_i name hspelling
        split at h
        · cases h
        · rename_i child p hchild
          obtain ⟨hallows, hafter⟩ := permitted_eq_enter_iff.mp (Option.some.inj h)
          exact ⟨child, p, _, _, .long hspelling hchild, hallows, hafter⟩
      · -- A flag turn reads a long name, or else falls back to the shorthand branch.
        rename_i hspelling
        obtain ⟨ch, rest, child, p, hrest, hchild, hallows, hafter⟩ :=
          shorthandBranch?_eq_enter_iff.mp h
        exact ⟨child, p, _, _, .short hspelling rfl hrest hchild, hallows, hafter⟩
  · rintro ⟨child, p, c, attached, hspells, hallows, hafter⟩
    unfold flagBranch?
    cases hspells with
    | long hspelling hchild =>
      simp [flags_isEmpty_of_mem_flagsOf (of_flagNamed?_eq_some hchild).1, hspelling, hchild,
        permitted_eq_enter_iff, hallows, hafter]
    | short hspelling hc hrest hchild =>
      subst hc
      simp only [flags_isEmpty_of_mem_flagsOf (mem_flagsOf_of_flagShort? hchild), hspelling,
        Bool.false_eq_true, if_false]
      exact shorthandBranch?_eq_enter_iff.mpr ⟨_, _, child, p, hrest, hchild, hallows, hafter⟩

/-- So does the turn of a shorthand in a bundle. -/
theorem attempt_shorthand_eq_enter_iff :
    t.attempt v.node v.cursor v.context .shorthand = some (.enter w) ↔
      ∃ child p c attached, t.Spells v .shorthand child p c attached ∧
        (t.node child).permission.allows v.context.principal = true ∧
        t.afterFlag child p c v.context attached = .enter w := by
  apply shorthandBranch?_eq_enter_iff.trans
  constructor
  · rintro ⟨ch, rest, child, p, hrest, hchild, hallows, hafter⟩
    exact ⟨child, p, _, _, .bundled hrest hchild, hallows, hafter⟩
  · rintro ⟨child, p, c, attached, hspells, hallows, hafter⟩
    cases hspells with
    | bundled hrest hchild => exact ⟨_, _, child, p, hrest, hchild, hallows, hafter⟩

/-- The name of a flag and what follows it make a move. -/
theorem exists_moves_iff_afterFlag (hturn : turn = .flag ∨ turn = .shorthand) :
    (∃ given, t.Moves v turn given w) ↔
      ∃ child p c attached, t.Spells v turn child p c attached ∧
        (t.node child).permission.allows v.context.principal = true ∧
        t.afterFlag child p c v.context attached = .enter w := by
  constructor
  · rintro ⟨given, hmove⟩
    cases hmove with
    | literal => simp at hturn
    | argument => simp at hturn
    | switch hspells hswitch hallows hbreak =>
      exact ⟨_, _, _, _, hspells, hallows,
        afterFlag_eq_enter_iff.mpr (.inr (.inl ⟨hswitch, rfl, hbreak, rfl⟩))⟩
    | bundle hspells hswitch hallows =>
      exact ⟨_, _, _, _, hspells, hallows,
        afterFlag_eq_enter_iff.mpr (.inl ⟨hswitch, rfl, rfl⟩)⟩
    | value hspells hswitch hallows hd hend hparse hbreak =>
      subst hd
      exact ⟨_, _, _, _, hspells, hallows,
        afterFlag_eq_enter_iff.mpr (.inr (.inr ⟨hswitch, hend, _, _, hparse, hbreak, rfl⟩))⟩
  · rintro ⟨child, p, c, attached, hspells, hallows, hafter⟩
    -- Behind a flag the search goes on in a bundle, behind a switch, or behind a value.
    rcases afterFlag_eq_enter_iff.mp hafter with
      ⟨hswitch, rfl, rfl⟩ | ⟨hswitch, rfl, hbreak, rfl⟩ | ⟨hswitch, hend, value, after, hparse,
        hbreak, rfl⟩
    · exact ⟨_, .bundle hspells hswitch hallows⟩
    · exact ⟨_, .switch hspells hswitch hallows hbreak⟩
    · exact ⟨_, .value hspells hswitch hallows rfl hend hparse hbreak⟩

/-- The moves are exactly the turns that lead on. -/
theorem attempt_eq_enter_iff :
    t.attempt v.node v.cursor v.context turn = some (.enter w) ↔
      ∃ given, t.Moves v turn given w := by
  -- Each turn has moves of its own, so the others are left out case by case.
  cases turn with
  | shorthand =>
    exact attempt_shorthand_eq_enter_iff.trans (exists_moves_iff_afterFlag (.inr rfl)).symm
  | flag => exact attempt_flag_eq_enter_iff.trans (exists_moves_iff_afterFlag (.inl rfl)).symm
  | literal =>
    simp only [attempt, literalBranch?, Option.map_eq_some_iff, permitted_eq_enter_iff,
      enter_eq_enter_iff]
    constructor
    · rintro ⟨child, hchild, hallows, hbreak, rfl⟩
      exact ⟨_, .literal hchild hallows hbreak⟩
    · rintro ⟨_, hmove⟩
      cases hmove with
      | literal hchild hallows hbreak => exact ⟨_, hchild, hallows, hbreak, rfl⟩
      | switch hspells | bundle hspells | value hspells => simpa using hspells.turn_eq
  | argument child p =>
    simp only [attempt, argumentBranch, Option.some.injEq, permitted_eq_enter_iff,
      enterValue_eq_enter_iff]
    constructor
    · rintro ⟨hallows, value, after, hparse, hbreak, rfl⟩
      exact ⟨_, .argument hallows hparse hbreak⟩
    · rintro ⟨_, hmove⟩
      cases hmove with
      | argument hallows hparse hbreak => exact ⟨hallows, _, _, hparse, hbreak, rfl⟩
      | switch hspells | bundle hspells | value hspells => simpa using hspells.turn_eq
  | finish =>
    have hend : t.attempt v.node v.cursor v.context .finish ≠ some (.enter w) := by
      intro h
      simp only [attempt, endBranch, Option.some.injEq] at h
      split at h
      · split at h <;> cases h
      · cases h
    refine iff_of_false hend ?_
    rintro ⟨_, hmove⟩
    cases hmove with
    | switch hspells | bundle hspells | value hspells => simpa using hspells.turn_eq
  | mismatch =>
    refine iff_of_false (by simp [attempt, mismatchBranch?]) ?_
    rintro ⟨_, hmove⟩
    cases hmove with
    | switch hspells | bundle hspells | value hspells => simpa using hspells.turn_eq

/-! ## What a move does -/

/-- What names a flag is gone over. -/
theorem Spells.reached (h : t.Spells v turn child p c attached) : v.cursor.Reaches c := by
  cases h with
  | long => exact Cursor.skipWord_reached _
  | short _ hc => exact hc ▸ (Cursor.advance_reached _ _).trans (Cursor.advance_reached 1 _)
  | bundled => exact Cursor.advance_reached 1 _

/-- And the flag is one of the node's. -/
theorem Spells.mem_flagsOf (h : t.Spells v turn child p c attached) :
    (child, p) ∈ t.flagsOf v.node := by
  cases h with
  | long _ hchild => exact (of_flagNamed?_eq_some hchild).1
  | short _ _ _ hchild | bundled _ hchild => exact mem_flagsOf_of_flagShort? hchild

/-- A move goes forward on the line. It ends inside a bundle, or behind a word and the blanks that
follow the word. -/
theorem Moves.exists_end {given : Option (Given α)} (h : t.Moves v turn given w) :
    ∃ e, v.cursor.Reaches e ∧
      if w.bundled then w.cursor = e else e.atBreak = true ∧ w.cursor = e.skipBlank := by
  cases h with
  | literal _ _ hbreak => exact ⟨_, Cursor.skipWord_reached _, hbreak, rfl⟩
  | @argument _ p _ after _ hparse hbreak =>
    have hreached := p.type.parse_reached v.context v.cursor
    rw [hparse] at hreached
    exact ⟨after, hreached, hbreak, rfl⟩
  | switch hspells _ _ hbreak => exact ⟨_, hspells.reached, hbreak, rfl⟩
  | bundle hspells => exact ⟨_, hspells.reached, rfl⟩
  | @value _ _ p c d after attached _ hspells _ _ hd _ hparse hbreak =>
    have hreached := p.type.parse_reached v.context d
    rw [hparse] at hreached
    have hcd : c.Reaches d := by
      rw [hd]
      split
      · exact .refl c
      · exact Cursor.skipBlank_reached c
    exact ⟨after, hspells.reached.trans (hcd.trans hreached), hbreak, rfl⟩

/-- A search only moves forward on the line. -/
theorem Moves.reached {given : Option (Given α)} (h : t.Moves v turn given w) :
    v.cursor.Reaches w.cursor := by
  obtain ⟨e, he, hend⟩ := h.exists_end
  split at hend
  · exact hend ▸ he
  · exact hend.2 ▸ he.trans (Cursor.skipBlank_reached e)

/-- A move gives its value and nothing else. -/
theorem Moves.context_eq {given : Option (Given α)} (h : t.Moves v turn given w) :
    w.context = v.context.given given.toList := by
  cases h <;> rfl

/-- What a move gives is what the line says. -/
theorem Moves.read {given : Given α} (h : t.Moves v turn (some given) w) : given.Read := by
  cases h with
  | argument _ hparse => exact .inl ⟨_, hparse⟩
  | switch _ hswitch => exact .inr ⟨hswitch, rfl⟩
  | bundle _ hswitch => exact .inr ⟨hswitch, rfl⟩
  | value _ _ _ _ _ hparse => exact .inl ⟨_, hparse⟩

/-! ## Readings -/

/-- A reading from one visit to another, with the values given on the way in order. -/
inductive Reads (t : Tree α σ) : Visit α → List (Given α) → Visit α → Prop
  | refl (v : Visit α) : Reads t v [] v
  | step {v w u : Visit α} {turn : Turn α} {given : Option (Given α)} {later : List (Given α)} :
      turn ∈ t.turns v → t.Moves v turn given w → Reads t w later u →
      Reads t v (given.toList ++ later) u

/-- A reading from a visit that is accepted with some values given on the way. -/
structure Accepts (t : Tree α σ) (v : Visit α) (given : List (Given α)) (a : Arrival α σ) :
    Prop where
  accepted : ∃ u, t.Reads v given u ∧ u.bundled = false ∧ u.cursor.atEnd = true ∧
    (t.node u.node).command = some a.command ∧ a = ⟨a.command, u.cursor, u.context⟩
  allowed : a.command.permission.allows a.context.principal = true

/-- A reading ends with the values that it gave, in order, and with no others. -/
theorem Reads.context_eq {given : List (Given α)} (h : t.Reads v given u) :
    u.context = v.context.given given := by
  induction h with
  | refl v => rfl
  | step _ hmove _ ih =>
    rw [ih, hmove.context_eq, Context.given, Context.given, Context.given, List.foldl_append]

/-- A reading that goes on from where another one ends. -/
theorem Reads.append {given later : List (Given α)} (h : t.Reads v given w)
    (h' : t.Reads w later u) : t.Reads v (given ++ later) u := by
  induction h with
  | refl v => exact h'
  | step hturn hmove _ ih =>
    rw [List.append_assoc]
    exact .step hturn hmove (ih h')

/-- What a reading gives is what the line says. -/
theorem Reads.read {given : List (Given α)} (h : t.Reads v given u) : ∀ g ∈ given, g.Read := by
  induction h with
  | refl v => simp
  | @step v w u turn given later _ hmove _ ih =>
    intro g hg
    rcases List.mem_append.mp hg with hg | hg
    · rw [Option.mem_toList] at hg
      obtain rfl := hg
      exact hmove.read
    · exact ih g hg

/-- The values of an accepted line are those that were given on it. -/
theorem Accepts.context_eq {given : List (Given α)} {a : Arrival α σ} (h : t.Accepts v given a) :
    a.context = v.context.given given := by
  obtain ⟨u, hreads, _, _, _, ha⟩ := h.accepted
  rw [ha]
  exact hreads.context_eq

/-- The command of an accepted reading allows the principal that the reading began with. -/
theorem Accepts.allows {given : List (Given α)} {a : Arrival α σ} (h : t.Accepts v given a) :
    a.command.permission.allows v.context.principal = true := by
  have hallowed := h.allowed
  rwa [h.context_eq, Context.principal_given] at hallowed

/-- Each of them was read from the line. -/
theorem Accepts.read {given : List (Given α)} {a : Arrival α σ} (h : t.Accepts v given a) :
    ∀ g ∈ given, g.Read := by
  obtain ⟨u, hreads, _⟩ := h.accepted
  exact hreads.read

end Tree

end CommandLine
