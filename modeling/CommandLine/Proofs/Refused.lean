import CommandLine.Proofs.Search.FirstWord
import CommandLine.Proofs.Search.Refinement
import CommandLine.Tree.Completion

/-!
# What a refused insertion changes

A refused insertion stops where it is, so what it attached, opened and bound before stays. All of
that is below the first word of its command: lines with another first word are read as before, and
completion, which looks at the listed commands only, answers as before.

The first word is the exact limit. Whatever a line says after its first word, some refused insertion
of a command of that name changes how the line is read.

* `Chart.Extends.search_eq` — lines with another first word are searched as before;
* `refused_insert_keeps_iff` — the lines that every refused insertion of a command leaves alone.
-/

set_option autoImplicit false

namespace CommandLine.Tree

variable {α σ : Type}

/-! ## Lines with another first word -/

namespace Chart

variable {t t' : Tree α σ} {known : Command α σ → Prop} {m : Chart known t} {m' : Chart known t'}
  {name : String}

/-- The nodes whose ways start with another word than the one that a growth is about. -/
def Aside (m : Chart known t) (name : String) (i : NodeIndex) : Prop :=
  i < t.nodes.size ∧ i ≠ root ∧ (m.way i).head? ≠ some (.literal name)

/-- What is below a node that a growth leaves aside is left aside. -/
theorem Aside.child {i j : NodeIndex} (hi : m.Aside name i) (hchild : t.Child i j) :
    m.Aside name j := by
  obtain ⟨hlt, hne, hhead⟩ := hi
  obtain ⟨label, hleads⟩ := m.exists_leads_of_child hlt hchild
  have hway : (m.way j).head? = (m.way i).head? := m.head?_way_eq hlt hne hleads
  exact ⟨hleads.lt, m.ne_root_of_child hlt hchild, hway ▸ hhead⟩

/-- Below another word than the growing command's a tree stays the same. -/
theorem Extends.alike (h : m.Extends name m') {word : String} (hword : word ≠ name) :
    AlikeBelow word id t t' (m.Aside name) where
  settings := by rw [h.rest]
  node i hi := (h.aside i hi.1 hi.2.1 hi.2.2).trans (t.node i).rename_id.symm
  closed i j hi hchild := hi.child hchild
  word_eq := by rw [h.root_literal word hword, Option.map_id, id]
  word_mem j hj := by
    have hchild : t.Child root j := .inl ⟨_, Node.mem_literals_of_literal? hj⟩
    have hleads := (m.stands root m.size_pos).literal _ j (Node.mem_literals_of_literal? hj)
    have hway : m.way j = [.literal word] := by
      rw [hleads.way_eq, m.way_root]
      rfl
    exact ⟨hleads.lt, m.ne_root_of_child m.size_pos hchild, by simpa [hway] using hword⟩

/-- A line with another first word is searched as before. -/
theorem Extends.search_eq (h : m.Extends name m') (principal : α) {line : String}
    (hword : firstWord line ≠ name) :
    t'.search (start principal line) = t.search (start principal line) :=
  m.search_start_eq m' (h.alike hword) principal rfl

/-- And so they are parsed as before. -/
theorem Extends.parse_eq (h : m.Extends name m') (principal : α) {line : String}
    (hword : firstWord line ≠ name) : t'.parse principal line = t.parse principal line :=
  m.parse_eq_of_alike m' (h.alike hword) principal rfl

/-- Running a resolved command looks at the hook only, which growth does not touch. -/
theorem Extends.run_eq (h : m.Extends name m') : t'.run = t.run := by
  funext r state
  unfold run
  rw [h.rest]

end Chart

/-! ## The first word is the limit -/

section

/-- A command of two words that nobody may use. -/
def reserved (name : String) : Declaration α σ :=
  { name, steps := [.literal (name ++ "x")], permission := .requires fun _ => false }

/-- An optional argument that is named like the second word of the reserved command. -/
def collidingArgument (name : String) : Parameter α :=
  .asOptional (.ofBuiltin (name ++ "x") (.word none none))

/-- A command for everyone with such an argument. -/
def colliding (name : String) : Declaration α σ :=
  { name, steps := [.parameter (collidingArgument name)] }

/-- The tree of the reserved command. -/
def reservedTree (name : String) : Tree α σ :=
  { empty {} with
    nodes := #[{ label := .root, literals := [(name, 1)] },
      { label := .literal name, permission := .requires fun _ => false,
        literals := [(name ++ "x", 2)] },
      { label := .literal (name ++ "x"), permission := .requires fun _ => false,
        command := some ((reserved name).command 0 name) }]
    commands := #[(reserved name).command 0 name] }

/-- What the colliding command leaves of it: the first word is open, and the command is bound
there. -/
def openedTree (name : String) : Tree α σ :=
  { reservedTree name with
    nodes := #[{ label := .root, literals := [(name, 1)] },
      { label := .literal name, literals := [(name ++ "x", 2)],
        command := some ((colliding name).command 1 name) },
      { label := .literal (name ++ "x"), permission := .requires fun _ => false,
        command := some ((reserved name).command 0 name) }] }

variable {name : String}

/-- The first command is inserted without trouble. -/
theorem insert_reserved (name : String) :
    Growth.insert ((reserved name).command 0 name) (empty {} : Tree α σ) =
      .ok () (reservedTree name) := rfl

/-- The colliding command is refused at its argument, after its first word. -/
theorem insert_colliding (name : String) :
    Growth.insert ((colliding name).command 1 name) (reservedTree name : Tree α σ) =
      .error (.conflict (name ++ "x")) (openedTree name) := by
  have hfirst : Growth.ensureLiteral root name .always (reservedTree name : Tree α σ) =
      .ok 1 ((reservedTree name).joinPermission 1 .always) := by
    have hfind : ((reservedTree name : Tree α σ).node root).literal? name = some 1 := by
      simp [reservedTree, node, root, Node.literal?]
    rw [Growth.ensureLiteral, hfind]
  have hargument : Growth.ensureArgument 1 (collidingArgument name)
      (openedTree name : Tree α σ) = .error (.conflict (name ++ "x")) (openedTree name) := by
    have hfind : (((openedTree name : Tree α σ).node 1).literal?
        (collidingArgument name : Parameter α).name).isSome = true := by
      have hname : (collidingArgument name : Parameter α).name = name ++ "x" := rfl
      simp [Node.literal?, openedTree, node, hname]
    rw [Growth.ensureArgument, if_pos hfind]
    rfl
  -- After the first word the command is bound; then comes the argument.
  have hgrow : Growth.growCommand ((colliding name).command 1 name) (reservedTree name : Tree α σ) =
      (Growth.ensureLiteral root name .always >>= fun first =>
        Growth.growPath ((colliding name).command 1 name) (.ofFlags 4 []) first
          [.parameter (collidingArgument name)]) (reservedTree name) := rfl
  have hpath : Growth.growPath ((colliding name).command 1 name) (.ofFlags 4 []) 1
      [.parameter (collidingArgument name)]
      ((reservedTree name : Tree α σ).joinPermission 1 .always) =
        (Growth.ensureArgument 1 (collidingArgument name) >>= fun child =>
          Growth.growPath ((colliding name).command 1 name) (.ofFlags 4 []) child [])
          (openedTree name) := rfl
  rw [Growth.insert_eq, hgrow, Growth.bind_apply, hfirst]
  simp only
  rw [hpath, Growth.bind_apply, hargument]

/-- A word that a line can start with is not blank. -/
theorem not_isBlankText_of_word {c : Cursor} (h : c.word = name) (hname : name ≠ "") :
    Text.isBlankText name = false := by
  have hlist : name.toList = c.rest.takeWhile fun ch => !Text.isBlank ch := by
    rw [← h, Cursor.word, String.toList_ofList]
  obtain ⟨ch, hch⟩ : ∃ ch, ch ∈ name.toList :=
    List.exists_mem_of_ne_nil _ (by simpa using hname)
  have hblank : Text.isBlank ch = false := by
    rw [hlist] at hch
    simpa using List.all_eq_true.mp (List.all_takeWhile (l := c.rest)) ch hch
  rw [Text.isBlankText, ← Bool.not_eq_true, List.all_eq_true]
  intro hall
  rw [hall ch hch] at hblank
  cases hblank

/-- Any such word names the first command. -/
theorem built_reserved (h : Text.isBlankText name = false) :
    ((reserved name).command 0 name : Command α σ).Built := by
  have hvalid : (reserved name : Declaration α σ).validate = .ok () := by
    simp only [Declaration.validate, Declaration.names, reserved, List.any_cons, h, List.any_nil]
    rfl
  exact Declaration.built_command hvalid 0 List.mem_cons_self

/-- And the one that collides with it. -/
theorem built_colliding (h : Text.isBlankText name = false) :
    ((colliding name).command 1 name : Command α σ).Built := by
  have hvalid : (colliding name : Declaration α σ).validate = .ok () := by
    simp [Declaration.validate, Declaration.names, colliding, h, Declaration.parameters,
      Declaration.checkParameters, Declaration.checkParameter, Step.parameter?,
      Declaration.literals, Parameter.isNamed, collidingArgument, Parameter.asOptional,
      Parameter.ofBuiltin, Parameter.ofType, Step.literal?]
  exact Declaration.built_command hvalid 1 List.mem_cons_self

/-- The tree of the first command is a grown one. -/
theorem grown_reservedTree (h : Text.isBlankText name = false) :
    (reservedTree name : Tree α σ).Grown := by
  have hgrown : ((Growth.insert ((reserved name).command 0 name)).after
      (empty {} : Tree α σ)).Grown :=
    .insert (built_reserved h) (.empty {} (by decide))
  rwa [Growth.after_of_ok (insert_reserved name)] at hgrown

/-- So is the one that the refused insertion leaves. -/
theorem grown_openedTree (h : Text.isBlankText name = false) :
    (openedTree name : Tree α σ).Grown := by
  have hgrown : ((Growth.insert ((colliding name).command 1 name)).after
      (reservedTree name : Tree α σ)).Grown :=
    .insert (built_colliding h) (grown_reservedTree h)
  rwa [Growth.after, insert_colliding] at hgrown

/-- Nobody may use the reserved command, so its first word ends the search. -/
theorem parse_reservedTree (principal : α) {line : String} (hline : firstWord line = name)
    (hname : name ≠ "") : (reservedTree name : Tree α σ).parse principal line =
      .error ⟨.noPermission, (start principal line).cursor.position, some name⟩ := by
  have hfind : ((reservedTree name : Tree α σ).node root).literal? name = some 1 := by
    simp [reservedTree, node, root, Node.literal?]
  exact parse_of_denied_word hline hname hfind rfl

/-- Behind the first word of the opened tree the line ends, or its next word is the reserved
command's, or no child accepts it. -/
theorem events_openedTree {v : Visit α} (hv : v.node = 1) (hbundled : v.bundled = false) :
    (openedTree name : Tree α σ).events v =
      if v.cursor.atEnd then [.bound ⟨(colliding name).command 1 name, v.cursor, v.context⟩]
      else if v.cursor.word = name ++ "x" then
        [.denied ⟨.noPermission, v.cursor.position, some (name ++ "x")⟩]
      else
        [.rejected
          ⟨.expectedLiteral [name ++ "x"] v.cursor.word, v.cursor.position, some name⟩] := by
  obtain ⟨i, c, ctx, bundled⟩ := v
  subst hv hbundled
  have hliteral (w : String) : ((openedTree name : Tree α σ).node 1).literal? w =
      if w = name ++ "x" then some 2 else none := by
    by_cases h : w = name ++ "x"
    · simp [openedTree, node, Node.literal?, h]
    · simp [openedTree, node, Node.literal?, h, Ne.symm h]
  rw [events_eq_flatMap_turns]
  -- At the end of the line the node has the command of the refused insertion. Before it only one
  -- word leads on, and nobody may follow it.
  cases hend : c.atEnd with
  | true =>
    have hturns : (openedTree name : Tree α σ).turns ⟨1, c, ctx, false⟩ = [.finish] := by
      simp [turns, hend]
    rw [hturns]
    rfl
  | false =>
    have hturns : (openedTree name : Tree α σ).turns ⟨1, c, ctx, false⟩ =
        [.literal, .flag, .mismatch] := by
      rw [turns, hend]
      rfl
    rw [hturns]
    have hflag : (openedTree name : Tree α σ).turnEvents ⟨1, c, ctx, false⟩ .flag = [] := rfl
    have hmismatch : (openedTree name : Tree α σ).turnEvents ⟨1, c, ctx, false⟩ .mismatch =
        if c.word = name ++ "x" then []
        else [.rejected ⟨.expectedLiteral [name ++ "x"] c.word, c.position, some name⟩] := by
      rw [turnEvents, attempt, mismatchBranch?, mismatch?, hliteral]
      by_cases hw : c.word = name ++ "x" <;> simp only [hw] <;> rfl
    have hchild : (openedTree name : Tree α σ).turnEvents ⟨1, c, ctx, false⟩ .literal =
        if c.word = name ++ "x" then [.denied ⟨.noPermission, c.position, some (name ++ "x")⟩]
        else [] := by
      rw [turnEvents, attempt, literalBranch?, hliteral]
      by_cases hw : c.word = name ++ "x" <;> simp only [hw] <;> rfl
    simp only [List.flatMap_cons, List.flatMap_nil, hchild, hflag, hmismatch]
    by_cases hw : c.word = name ++ "x" <;> simp [hw]

/-- The first word of the opened tree lets everyone through. -/
theorem events_start_openedTree (principal : α) {line : String} (hline : firstWord line = name)
    (hname : name ≠ "") : (openedTree name : Tree α σ).events (start principal line) =
      (openedTree name : Tree α σ).events ⟨1, (start principal line).cursor.skipWord.skipBlank,
        (start principal line).context, false⟩ := by
  have hfind : ((openedTree name : Tree α σ).node root).literal? name = some 1 := by
    simp [openedTree, node, root, Node.literal?]
  obtain ⟨m⟩ := (grown_openedTree (not_isBlankText_of_word hline hname)).chart
  exact m.events_start_of_word hline hname hfind rfl

/-- The colliding command can do without its argument. -/
theorem fillParameters_colliding (ctx : Context α) :
    fillParameters ctx ((colliding name).command 1 name : Command α σ).parameters = .ok ctx := by
  have hkeep : fillParameter ctx (collidingArgument name) = .ok ctx := by
    unfold fillParameter
    by_cases h : ctx.bindings.contains (collidingArgument name : Parameter α).name = true
    · rw [if_pos h]
    · rw [if_neg h]
      rfl
  show fillParameters ctx [collidingArgument name] = .ok ctx
  rw [fillParameters, hkeep]
  rfl

/-- So a line that starts with it is not rejected there for want of permission. -/
theorem parse_openedTree_ne (principal : α) {line : String} (hline : firstWord line = name)
    (hname : name ≠ "") : (openedTree name : Tree α σ).parse principal line ≠
      .error ⟨.noPermission, (start principal line).cursor.position, some name⟩ := by
  have htook := (grown_openedTree (not_isBlankText_of_word hline hname)).search_took (σ := σ)
    principal line
  rw [events_start_openedTree principal hline hname, events_openedTree rfl rfl] at htook
  obtain ⟨hending, hrejections⟩ := htook
  by_cases hend : (start principal line).cursor.skipWord.skipBlank.atEnd = true
  · -- The line ends here, with the refused command.
    rw [if_pos hend] at hending
    rw [parse_of_found (Searched.outcome_eq_ok hending).1, fillParameters_colliding]
    simp
  · by_cases hw : (start principal line).cursor.skipWord.skipBlank.word = name ++ "x"
    · rw [if_neg hend, if_pos hw] at hending
      rw [parse_of_denied (Searched.outcome_eq_error hending)]
      simp
    · rw [if_neg hend, if_neg hw] at hending hrejections
      have hnone : ((openedTree name : Tree α σ).search (start principal line)).outcome = none :=
        Searched.outcome_eq_none hending
      rw [parse_of_none hnone, reported, hrejections]
      simp [Event.rejectionsBefore, ReportPolicy.choose?, openedTree, reservedTree, empty]

end

/-! ## Refused insertions -/

section

variable {t t' : Tree α σ} {c : Command α σ} {e : Refusal} {principal : α} {line : String}

/-- What a refused insertion leaves extends the chart of what it found. -/
theorem Grown.exists_extends (h : t.Grown) (hc : c.Built)
    (hrun : Growth.insert c t = .error e t') :
    ∃ (m : Chart Command.Built t) (m' : Chart Command.Built t'), m.Extends c.name m' := by
  obtain ⟨m⟩ := h.chart
  obtain ⟨m', hext, _⟩ := m.exists_of_insert_error hc hc.sound hrun
  exact ⟨m, m', hext⟩

/-- Some refused insertion changes how a line is parsed, if its command is named like the line's
first word. -/
theorem exists_refused_insert (principal : α) (σ : Type) {line name : String}
    (hline : firstWord line = name) (hname : name ≠ "") :
    ∃ (t t' : Tree α σ) (c : Command α σ) (e : Refusal), t.Grown ∧ c.Built ∧ c.name = name ∧
      Growth.insert c t = .error e t' ∧ t'.parse principal line ≠ t.parse principal line := by
  have hblank := not_isBlankText_of_word hline hname
  refine ⟨reservedTree name, openedTree name, (colliding name).command 1 name,
    .conflict (name ++ "x"), grown_reservedTree hblank, built_colliding hblank, rfl,
    insert_colliding name, ?_⟩
  rw [parse_reservedTree principal hline hname]
  exact parse_openedTree_ne principal hline hname

/-- **The lines that refused insertions leave alone.** Completion answers as before on every line.
A line is parsed and dispatched as before, whatever the tree and the refused command of a name, if
its first word is another one; and only then, since no command has an empty name. -/
theorem refused_insert_keeps_iff (principal : α) (line name : String) :
    (∀ (t t' : Tree α σ) (c : Command α σ) (e : Refusal), t.Grown → c.Built → c.name = name →
      Growth.insert c t = .error e t' →
        t'.complete principal line = t.complete principal line) ∧
    ((∀ (t t' : Tree α σ) (c : Command α σ) (e : Refusal), t.Grown → c.Built → c.name = name →
      Growth.insert c t = .error e t' →
        t'.parse principal line = t.parse principal line ∧
          ∀ state, t'.dispatch principal line state = t.dispatch principal line state) ↔
      firstWord line ≠ name ∨ name = "") := by
  refine ⟨?_, ?_, ?_⟩
  · intro t t' c e ht hc _ hrun
    obtain ⟨m, m', hext⟩ := ht.exists_extends hc hrun
    unfold complete
    rw [hext.rest]
  · -- Whenever the line starts with the refused name, some tree reads it otherwise afterwards.
    intro h
    by_contra hnot
    obtain ⟨hline, hname⟩ := not_or.mp hnot
    obtain ⟨t, t', c, e, ht, hc, hcname, hrun, hne⟩ :=
      exists_refused_insert principal σ (not_not.mp hline) hname
    exact hne (h t t' c e ht hc hcname hrun).1
  · intro h t t' c e ht hc hcname hrun
    obtain ⟨m, m', hext⟩ := ht.exists_extends hc hrun
    have hword : firstWord line ≠ c.name := by
      rcases h with h | h
      · exact hcname ▸ h
      · exact (hc.name_ne_empty (hcname.trans h)).elim
    have hparse := hext.parse_eq principal hword
    refine ⟨hparse, ?_⟩
    intro state
    unfold dispatch
    rw [hparse, hext.run_eq]

end

/-! ## A command that is bound although it was refused -/

/-- A tree with the one command `a b`. -/
def pairTree : Tree Unit Unit := (Growth.register (.ofPath "a b")).after (empty {})

/-- The command `a` with an optional argument `b`. -/
def optionalPair : Declaration Unit Unit :=
  { name := "a", steps := [.parameter (.asOptional (.ofBuiltin "b" (.word none none)))]
    action := some fun _ state => state }

/-- The insertion of `optionalPair` is refused, since its argument collides with the word `b`. Yet
the line `a`, which did not parse before, resolves to that command afterwards. -/
theorem refused_insert_binds_command :
    ∃ (t t' : Tree Unit Unit) (c : Command Unit Unit), t.Grown ∧ c.Built ∧
      Growth.insert c t = .error (.conflict "b") t' ∧
      t.parse () "a" = .error ⟨.expectedLiteral ["b"] "", 1, some "a"⟩ ∧
      ∃ r, t'.parse () "a" = .ok r ∧ r.command.id = c.id ∧ ∀ c' ∈ t.commands, c'.id ≠ c.id := by
  have hrefused : ∃ e t', Growth.insert (optionalPair.command 1 "a") pairTree = .error e t' ∧
      (e = .conflict "b" ∧ ∃ r, t'.parse () "a" = .ok r ∧ r.command.id = 1) := by decide +kernel
  have hbefore : ∃ r, pairTree.parse () "a" = .error r ∧
      r = ⟨.expectedLiteral ["b"] "", 1, some "a"⟩ := by decide +kernel
  have hlisted : pairTree.commands.all (·.id = 0) = true := by decide +kernel
  obtain ⟨_, t', hrun, rfl, r, hr, hid⟩ := hrefused
  obtain ⟨_, hr', rfl⟩ := hbefore
  have hgrown : pairTree.Grown := .register _ (.empty {} (by decide))
  have hbuilt : (optionalPair.command 1 "a").Built :=
    ⟨optionalPair, 1, _, rfl, List.mem_cons_self⟩
  refine ⟨pairTree, t', optionalPair.command 1 "a", hgrown, hbuilt, hrun, hr', r, hr, hid, ?_⟩
  intro c' hc' hsame
  have hzero : c'.id = 0 := by simpa using Array.all_eq_true_iff_forall_mem.mp hlisted c' hc'
  rw [hzero] at hsame
  cases hsame

end CommandLine.Tree
