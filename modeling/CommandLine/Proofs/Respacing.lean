import CommandLine.Proofs.Search.Paired
import CommandLine.Proofs.Search.Respaced

/-!
# Spacing

How many blanks stand between words, and which, makes no difference to what a line is resolved to,
as long as no type takes the rest of the line and nothing is quoted. The readings of two lines with
the same words go side by side (`Visit.Alike`): the turns of one visit come to what those of the
other come to (`attempt_alike`), so the events of one line are those of the other, at places where
both lines have the same words left (`events_alike`). Which of several rejections is reported
depends on the order of their places only, and on that the two lines agree.

* `attempt_alike`, `events_alike` — one turn, and all readings;
* `Rejection.ordered_alike` — the order of places;
* `parse_alike`, `parse_respaced` — what a line is resolved to.
-/

set_option autoImplicit false

namespace CommandLine

open Text

variable {α σ : Type}

/-- A parameter whose type is built in and does not take the rest of the line. -/
def Parameter.OneWord (p : Parameter α) : Prop :=
  ∃ b : BuiltinType, p.type = b.toValueType ∧ b.traits.greedy = false

/-- Such a parameter has a built-in type. -/
theorem Parameter.OneWord.builtin {p : Parameter α} (h : p.OneWord) : p.Builtin :=
  h.imp fun _ hb => hb.1

/-- No character is a quote. -/
def Text.Unquoted (s : List Char) : Prop := ∀ ch ∈ s, ch ≠ '"' ∧ ch ≠ '\''

instance (s : List Char) : Decidable (Text.Unquoted s) := List.decidableBAll _ _

/-! ## What is alike on two lines -/

/-- The same is wrong, at places that face the same words. -/
structure Rejection.Alike (s s' : List Char) (r r' : Rejection) : Prop where
  cause_eq : r.cause = r'.cause
  node_eq : r.node = r'.node
  places : ∃ d d', Cursor.Facing s s' d d' ∧ r.position = d.position ∧ r'.position = d'.position

/-- Visits to one node with the same values and the same words left. -/
structure Visit.Alike (s s' : List Char) (v v' : Visit α) : Prop where
  node_eq : v.node = v'.node
  cursor : Cursor.Facing s s' v.cursor v'.cursor
  context : v.context.Alike v'.context
  bundled_eq : v.bundled = v'.bundled

/-- Branches that are alike. -/
inductive Branch.Alike (s s' : List Char) : Branch α σ → Branch α σ → Prop
  | rejected {r r' : Rejection} : r.Alike s s' r' → Alike s s' (.rejected r) (.rejected r')
  | denied {r r' : Rejection} : r.Alike s s' r' → Alike s s' (.denied r) (.denied r')
  | bound (c : Command α σ) : Alike s s' (.bound c) (.bound c)
  | enter {v v' : Visit α} : v.Alike s s' v' → Alike s s' (.enter v) (.enter v')

variable {s s' : List Char} {c c' : Cursor} {ctx ctx' : Context α}

/-- What is wrong at places that face the same words is alike. -/
theorem Rejection.Alike.of_facing (h : Cursor.Facing s s' c c') (cause : Cause)
    (node : Option String) :
    Rejection.Alike s s' ⟨cause, c.position, node⟩ ⟨cause, c'.position, node⟩ :=
  ⟨rfl, rfl, c, c', h, rfl, rfl⟩

namespace Tree

variable {t : Tree α σ} {v v' : Visit α} {id child : NodeIndex} {p : Parameter α}
  {attached : Bool} {b b' : Branch α σ}

/-! ## Turns -/

/-- Who may not pass is told so alike. -/
theorem permitted_alike (hctx : ctx.Alike ctx') (hc : Cursor.Facing s s' c c')
    (hb : b.Alike s s' b') :
    (t.permitted ctx child c.position b).Alike s s' (t.permitted ctx' child c'.position b') := by
  unfold permitted
  rw [← hctx.principal_eq]
  split
  · exact hb
  · exact .denied (.of_facing hc _ _)

/-- A node is entered on both lines, or a blank is expected on both. -/
theorem enter_alike (hc : Cursor.Level s s' c c') (hctx : ctx.Alike ctx') :
    (t.enter child c ctx).Alike s s' (t.enter child c' ctx') := by
  unfold enter
  rw [← hc.atBreak_eq]
  cases hbreak : c.atBreak with
  | true => exact .enter ⟨rfl, hc.facing_skipBlank, hctx, rfl⟩
  | false => exact .rejected (.of_facing (hc.facing hbreak) _ _)

/-- A value is one word of either line. -/
theorem enterValue_alike (hp : p.OneWord) (hs : Unquoted s) (hs' : Unquoted s')
    (hc : Cursor.Facing s s' c c') (hend : c.atEnd = false) (hctx : ctx.Alike ctx') :
    (t.enterValue child p c ctx).Alike s s' (t.enterValue child p c' ctx') := by
  obtain ⟨b, hb, hgreedy⟩ := hp
  have hbreak : c.atBreak = false := (Cursor.atBreak_eq_atEnd hc.atBlank).trans hend
  have hplain := Cursor.isPlain_word (hc.source_eq ▸ hs) hbreak
  have hplain' := Cursor.isPlain_word (hc.source_eq' ▸ hs') (hc.atBreak_eq.symm.trans hbreak)
  have hparse (ctx : Context α) (c : Cursor) : p.type.parse ctx c = b.parse c := by rw [hb]; rfl
  unfold enterValue
  rw [hparse, hparse, BuiltinType.parse_of_plain hgreedy hplain,
    BuiltinType.parse_of_plain hgreedy hplain', hc.level.word_eq]
  cases b.ofWord c'.word with
  | error cause => exact .rejected (.of_facing hc _ _)
  | ok value => exact enter_alike hc.level.skipWord (hctx.bind _ _)

/-- The value of a flag is read or rejected alike, however many blanks are in front of it. -/
theorem flagValue_alike (hp : p.OneWord) (hs : Unquoted s) (hs' : Unquoted s')
    (hc : Cursor.Facing s s' c c') (hctx : ctx.Alike ctx') :
    (t.flagValue child p c ctx).Alike s s' (t.flagValue child p c' ctx') := by
  unfold flagValue
  rw [← hc.atEnd_eq]
  cases hend : c.atEnd with
  | true => exact .rejected (.of_facing hc _ _)
  | false => exact enterValue_alike hp hs hs' hc hend hctx

/-- And so is what follows the name of a flag. -/
theorem afterFlag_alike (hp : p.OneWord) (hs : Unquoted s) (hs' : Unquoted s')
    (hc : Cursor.Level s s' c c') (hattached : attached = true → c.atBreak = false)
    (hctx : ctx.Alike ctx') :
    (t.afterFlag child p c ctx attached).Alike s s' (t.afterFlag child p c' ctx' attached) := by
  unfold afterFlag
  split
  · exact .enter ⟨rfl, hc.facing (hattached rfl), hctx.bind _ _, rfl⟩
  · exact enter_alike hc (hctx.bind _ _)
  · exact flagValue_alike hp hs hs' (hc.facing (hattached rfl)) hctx
  · exact flagValue_alike hp hs hs' hc.facing_skipBlank hctx

/-- All parameters of a tree are read off one word. -/
def ReadsWords (t : Tree α σ) : Prop := ∀ i p, (t.node i).label = .parameter p → p.OneWord

variable (ht : t.ReadsWords) (hs : Unquoted s) (hs' : Unquoted s')
include ht hs hs'

/-- A bundle of shorthands is read alike. -/
theorem shorthandBranch?_alike (hc : Cursor.Facing s s' c c') (hctx : ctx.Alike ctx') :
    Option.Rel (Branch.Alike s s') (t.shorthandBranch? id c ctx)
      (t.shorthandBranch? id c' ctx') := by
  cases hbreak : c.atBreak with
  | true =>
    have hnil {c : Cursor} (h : c.atEnd = true) : c.rest = [] := List.isEmpty_iff.mp h
    have hend : c.atEnd = true := (Cursor.atBreak_eq_atEnd hc.atBlank).symm.trans hbreak
    unfold shorthandBranch?
    rw [hnil hend, hnil (hc.atEnd_eq.symm.trans hend)]
    exact .none
  | false =>
    -- Both words begin with the same character.
    obtain ⟨ch, later, hword⟩ := List.exists_cons_of_ne_nil
      (Cursor.isPlain_word (hc.source_eq ▸ hs) hbreak).1.toList_ne_nil
    have hrest {c : Cursor} (h : c.word.toList = ch :: later) : ∃ rest, c.rest = ch :: rest := by
      have hsplit := List.takeWhile_append_dropWhile (p := fun ch => !isBlank ch) (l := c.rest)
      rw [← Cursor.toList_word, h] at hsplit
      exact ⟨_, hsplit.symm⟩
    obtain ⟨rest, hcons⟩ := hrest hword
    obtain ⟨rest', hcons'⟩ := hrest (hc.level.word_eq ▸ hword)
    have hafter : Cursor.Level s s' (c.advance 1) (c'.advance 1) :=
      hc.level.advance (show c.word.toList = [ch] ++ later from hword)
    unfold shorthandBranch?
    rw [hcons, hcons']
    simp only
    cases hfind : t.flagShort? id ch with
    | none => exact .some (.rejected (.of_facing hc _ _))
    | some found =>
      obtain ⟨child, p⟩ := found
      have hp := ht child p (mem_flagsOf.mp (mem_flagsOf_of_flagShort? hfind)).2
      simp only [← hafter.atBreak_eq]
      exact .some (permitted_alike hctx hc
        (afterFlag_alike hp hs hs' hafter (fun h => by simpa using h) hctx))

/-- So is a word that names a flag. -/
theorem flagBranch?_alike (hc : Cursor.Facing s s' c c') (hctx : ctx.Alike ctx') :
    Option.Rel (Branch.Alike s s') (t.flagBranch? id c ctx) (t.flagBranch? id c' ctx') := by
  unfold flagBranch?
  rw [← hc.level.word_eq]
  split
  · exact .none
  · split
    · exact .none
    · split
      · exact .some (.rejected (.of_facing hc _ _))
      · rename_i child p hfind
        have hp := ht child p (mem_flagsOf.mp (of_flagNamed?_eq_some hfind).1).2
        exact .some (permitted_alike hctx hc
          (afterFlag_alike hp hs hs' hc.level.skipWord (fun h => nomatch h) hctx))
    · rename_i hspelling
      have hbreak := (Settings.atBreak_advance_shortPrefix hspelling).2
      obtain ⟨_, ch, rest, hrest⟩ := Settings.of_flagSpelling?_short hspelling
      have hword := (List.isPrefixOf?_eq_some_iff_append_eq.mp hrest).symm
      have hafter := hc.level.advance hword
      rw [String.length_toList] at hafter
      exact shorthandBranch?_alike ht hs hs' (hafter.facing hbreak) hctx

/-- The turns of visits that are alike come to the same. -/
theorem attempt_alike {turn : Turn α} (hv : v.Alike s s' v') (hturn : turn ∈ t.turns v) :
    Option.Rel (Branch.Alike s s') (t.attempt v.node v.cursor v.context turn)
      (t.attempt v'.node v'.cursor v'.context turn) := by
  have hc := hv.cursor
  have hctx := hv.context
  rw [← hv.node_eq]
  cases turn with
  | shorthand => exact shorthandBranch?_alike ht hs hs' hc hctx
  | flag => exact flagBranch?_alike ht hs hs' hc hctx
  | finish =>
    refine .some ?_
    unfold endBranch
    rw [← hctx.principal_eq]
    split
    · split
      · exact .bound _
      · exact .denied (.of_facing hc _ _)
    · exact .rejected (.of_facing hc _ _)
  | literal =>
    simp only [attempt, literalBranch?, ← hc.level.word_eq]
    cases (t.node v.node).literal? v.cursor.word with
    | none => exact .none
    | some child =>
      exact .some (permitted_alike hctx hc (enter_alike hc.level.skipWord hctx))
  -- The one turn that reads a value, so the only one where the two lines must agree about what
  -- stands behind the cursor.
  | argument child p =>
    have hp := ht child p (mem_argumentsOf.mp (mem_argumentsOf_of_mem_turns hturn)).2
    have hend : v.cursor.atEnd = false := by
      rcases rest_ne_nil_of_mem_turns hturn with h | h | h
      · cases h
      · cases h
      · simpa [Cursor.atEnd] using h
    exact .some (permitted_alike hctx hc (enterValue_alike hp hs hs' hc hend hctx))
  | mismatch =>
    simp only [attempt, mismatchBranch?, ← hc.level.word_eq]
    cases t.mismatch? v.node v.cursor.word with
    | none => exact .none
    | some cause => exact .some (.rejected (.of_facing hc _ _))

/-- What comes of all readings from one visit comes of those from the other. -/
theorem events_alike (hv : v.Alike s s' v') :
    List.Forall₂ (Event.Paired Eq (Rejection.Alike s s')) (t.events v) (t.events v') := by
  induction hn : v.left using Nat.strongRecOn generalizing v v' with
  | ind n ih =>
    have hturns : t.turns v' = t.turns v := by
      rw [turns, turns, hv.node_eq, hv.bundled_eq, hv.cursor.atEnd_eq]
    rw [events_eq_flatMap_turns, events_eq_flatMap_turns, hturns]
    refine List.rel_flatMap (R := fun a b => a = b ∧ a ∈ t.turns v)
      (List.forall₂_same.mpr fun turn hmem => ⟨rfl, hmem⟩) ?_
    rintro turn _ ⟨rfl, hmem⟩
    have hrel := attempt_alike ht hs hs' hv hmem
    unfold turnEvents
    generalize hattempt : t.attempt v.node v.cursor v.context turn = b at hrel
    generalize t.attempt v'.node v'.cursor v'.context turn = b' at hrel
    cases hrel with
    | none => exact .nil
    | some hb =>
      cases hb with
      | rejected hr => exact .cons (.rejected hr) .nil
      | denied hr => exact .cons (.denied hr) .nil
      | bound c => exact .cons (.bound ⟨rfl, hv.context⟩) .nil
      | @enter w w' hw => exact ih w.left (hn ▸ left_lt_of_attempt hmem hattempt) hw rfl

end Tree

/-- Among rejections that are alike the order of positions is the same. -/
theorem Rejection.ordered_alike : Rejection.Ordered (Rejection.Alike s s') := by
  intro r r' g g' hr hg
  obtain ⟨d, d', hd, hposition, hposition'⟩ := hr.places
  obtain ⟨e, e', he, hposition₂, hposition₂'⟩ := hg.places
  rw [hposition, hposition', hposition₂, hposition₂']
  exact hd.position_lt_iff he

/-! ## Lines -/

/-- Two lines are resolved alike: to one command with the same values, or the same is wrong with
both at the same node. -/
inductive Resolved.Alike : Except Rejection (Resolved α σ) → Except Rejection (Resolved α σ) → Prop
  | ok {r r' : Resolved α σ} : r.command = r'.command → r.context.bindings = r'.context.bindings →
      Alike (.ok r) (.ok r')
  | error {f f' : Rejection} : f.cause = f'.cause → f.node = f'.node → Alike (.error f) (.error f')

namespace Tree

variable {t : Tree α σ} {line line' : String}

/-- The readings of lines with the same words begin alike. -/
theorem start_alike (hwords : Text.words line.toList = Text.words line'.toList) (principal : α) :
    (start principal line).Alike line.toList line'.toList (start principal line') where
  node_eq := rfl
  bundled_eq := rfl
  context := ⟨rfl, rfl⟩
  cursor :=
    { source_eq := (Cursor.skipBlank_reached _).source_eq
      source_eq' := (Cursor.skipBlank_reached _).source_eq
      atBlank := Cursor.atBlank_skipBlank _
      atBlank' := Cursor.atBlank_skipBlank _
      words_eq := by
        have hstart (line : String) :
            (start principal line).cursor.words = Text.words line.toList :=
          Cursor.words_skipBlank (Cursor.ofString line)
        rw [hstart, hstart, hwords] }

/-- Lines with the same words are resolved alike, if no type takes the rest of the line and nothing
is quoted. -/
theorem parse_alike (h : t.GrownOver Parameter.OneWord) (hline : Unquoted line.toList)
    (hline' : Unquoted line'.toList)
    (hwords : Text.words line.toList = Text.words line'.toList) (principal : α) :
    Resolved.Alike (t.parse principal line) (t.parse principal line') := by
  obtain ⟨m⟩ := h.nonempty_chart
  have ht : t.ReadsWords := fun i p hlabel => h.allowed_of_label hlabel
  have hpaired := (m.mono fun c hc => ⟨hc.1, fun p hp => (hc.2 p hp).builtin⟩).parse_paired
    (m.mono fun _ hc => hc.1) rfl (fun _ _ hc => congrArg Command.parameters hc)
    Rejection.ordered_alike (events_alike ht hline hline' (start_alike hwords principal))
  generalize t.parse principal line = result at hpaired ⊢
  generalize t.parse principal line' = result' at hpaired ⊢
  cases hpaired with
  | ok hcommand hbindings => exact .ok hcommand hbindings
  | rejected hr => exact .error hr.cause_eq hr.node_eq
  | omitted f => exact .error rfl rfl

/-- The words of a line with single spaces between them. -/
def respaced (line : String) : String :=
  " ".intercalate ((Text.words line.toList).map String.ofList)

/-- Without its extra blanks a line has the same words. -/
theorem words_respaced (line : String) :
    Text.words (respaced line).toList = Text.words line.toList := by
  have hwords : ∀ w ∈ (Text.words line.toList).map String.ofList, IsWord w := by
    intro w hw
    obtain ⟨cs, hcs, rfl⟩ := List.mem_map.mp hw
    obtain ⟨hne, hall⟩ := Text.of_mem_words hcs
    exact ⟨by simpa using hne, by simpa using fun ch hch => (hall ch hch).2⟩
  rw [respaced, Text.words_intercalate hwords, List.map_map]
  simp [Function.comp_def]

/-- And no quotes that it did not have. -/
theorem unquoted_respaced (hline : Unquoted line.toList) : Unquoted (respaced line).toList := by
  intro ch hch
  rcases Text.mem_intercalate hch with rfl | ⟨w, hw, hmem⟩
  · decide
  · obtain ⟨cs, hcs, rfl⟩ := List.mem_map.mp hw
    rw [String.toList_ofList] at hmem
    exact hline ch ((Text.of_mem_words hcs).2 ch hmem).1

/-- **Spacing between words makes no difference.** Take a tree grown over built-in types none of
which takes the rest of the line, and a line without quotes. The line and its words with single
spaces between them are resolved to one command with the same values, or they are both rejected, for
the same cause and at the same node. -/
theorem parse_respaced (h : t.GrownOver Parameter.OneWord) (principal : α) {line : String}
    (hline : Unquoted line.toList) :
    (∃ r r', t.parse principal line = .ok r ∧ t.parse principal (respaced line) = .ok r' ∧
        r'.command = r.command ∧ r'.context.bindings = r.context.bindings) ∨
      ∃ f f', t.parse principal line = .error f ∧ t.parse principal (respaced line) = .error f' ∧
        f'.cause = f.cause ∧ f'.node = f.node := by
  have halike := parse_alike h hline (unquoted_respaced hline) (words_respaced line).symm principal
  generalize t.parse principal line = result at halike ⊢
  generalize t.parse principal (respaced line) = result' at halike ⊢
  cases halike with
  | @ok r r' hcommand hbindings => exact .inl ⟨r, r', rfl, rfl, hcommand.symm, hbindings.symm⟩
  | @error f f' hcause hnode => exact .inr ⟨f, f', rfl, rfl, hcause.symm, hnode.symm⟩

/-- A command that gives a number of things. -/
def givingTree : Tree Unit Unit := (Growth.register give).after (empty {})
where
  count : Parameter Unit := .ofBuiltin "count" (.integer none none)
  item : Parameter Unit := .ofBuiltin "item" (.word none none)
  give : Declaration Unit Unit :=
    { name := "give", steps := [.parameter count, .parameter item] }

/-- The same word is no count, at another place. -/
theorem parse_respaced_givingTree :
    givingTree.GrownOver Parameter.OneWord ∧ respaced " give\ttwo  apples" = "give two apples" ∧
      ∃ f f', givingTree.parse () " give\ttwo  apples" = .error f ∧
        givingTree.parse () "give two apples" = .error f' ∧ f'.cause = f.cause ∧
          f'.node = f.node ∧ f.position = 6 ∧ f'.position = 5 := by
  have hgrown : givingTree.GrownOver Parameter.OneWord := by
    refine .register ?_ (.empty {} (by decide))
    intro p hp
    rcases List.mem_cons.mp hp with rfl | hp
    · exact ⟨_, rfl, rfl⟩
    · obtain rfl := List.mem_singleton.mp hp
      exact ⟨_, rfl, rfl⟩
  have hwords : respaced " give\ttwo  apples" = "give two apples" := by decide +kernel
  have hfails : (∃ f, givingTree.parse () " give\ttwo  apples" = .error f ∧ f.position = 6) ∧
      ∃ f, givingTree.parse () "give two apples" = .error f ∧ f.position = 5 := by
    decide +kernel
  obtain ⟨⟨f, hf, hposition⟩, f', hf', hposition'⟩ := hfails
  refine ⟨hgrown, hwords, f, f', hf, hf', ?_⟩
  rcases parse_respaced hgrown () (show Unquoted " give\ttwo  apples".toList by decide) with
    ⟨r, _, hr, _⟩ | ⟨g, g', hg, hg', hcause, hnode⟩
  · rw [hf] at hr
    cases hr
  · rw [hwords] at hg'
    obtain rfl := Except.error.inj (hf.symm.trans hg)
    obtain rfl := Except.error.inj (hf'.symm.trans hg')
    exact ⟨hcause, hnode, hposition, hposition'⟩

end Tree

end CommandLine
