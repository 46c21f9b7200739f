import CommandLine.Proofs.Search.Pursued

/-!
# The spellings of a switch

A switch can be given by its long name and by its shorthand, each behind its prefix. Usable settings
keep the two prefixes apart, since the short one does not start with the long one. Still the long
prefix can be the short one with a shorthand behind it, and then the word for that shorthand is a
long prefix without a name.

* `Settings.flagSpelling?_shorthand` — what the short prefix and a shorthand spell;
* `register_switch` — the tree of a command with one switch;
* `parse_switch_spellings` — the long name is always taken, the shorthand with that exception;
* `switch_shorthand_shadowed` — a shorthand that cannot be given.
-/

set_option autoImplicit false

namespace CommandLine

open Text

variable {α σ : Type}

/-! ## Spellings under usable settings -/

namespace Settings

variable {s : Settings} {ch : Char}

/-- Usable settings have no blanks in the short prefix. -/
theorem isBlank_shortPrefix (h : s.validate = .ok ()) :
    ∀ ch ∈ s.shortPrefix.toList, isBlank ch = false := by
  have hfault := fault?_eq_none h
  have hblank : (s.longPrefix.toList ++ s.shortPrefix.toList).any isBlank = false := by
    grind [fault?]
  intro ch hch
  rw [List.any_eq_false] at hblank
  simpa using hblank ch (List.mem_append_right _ hch)

/-- The short prefix of usable settings does not start with the long one. -/
theorem not_prefix_shortPrefix (h : s.validate = .ok ()) :
    ¬s.longPrefix.toList <+: s.shortPrefix.toList := by
  have hfault := fault?_eq_none h
  rw [← List.isPrefixOf_iff_prefix]
  grind [fault?]

/-- A shorthand behind its prefix is spelled, unless the two make the long prefix. -/
theorem flagSpelling?_shorthand (h : s.validate = .ok ()) (hch : ch.isDigit = false) :
    s.flagSpelling? (s.shortPrefix ++ ch.toString) =
      if s.longPrefix = s.shortPrefix ++ ch.toString then none else some .short := by
  have hword : (s.shortPrefix ++ ch.toString).toList = s.shortPrefix.toList ++ [ch] := by simp
  have hpoint : (Numeral.readDecimal? (String.ofList ['.'])).isSome = false := by decide
  have hnumber : looksNumeric [ch] = false := by
    by_cases hdot : ch = '.'
    · rw [hdot, looksNumeric, hpoint, Bool.and_false]
    · simp [looksNumeric, hch, hdot]
  have hshort : s.shortPrefix.toList.isPrefixOf? (s.shortPrefix ++ ch.toString).toList =
      some [ch] := by
    rw [hword, List.isPrefixOf?_eq_some_iff_append_eq]
  rw [flagSpelling?]
  split_ifs with heq
  · -- A long prefix in front of the word would be the whole word, or a beginning of the short
    -- prefix.
    have hlong : s.longPrefix.toList.isPrefixOf? (s.shortPrefix ++ ch.toString).toList =
        some [] := by
      rw [heq, List.isPrefixOf?_eq_some_iff_append_eq, List.append_nil]
    rw [hlong]
    rfl
  · have hlong : s.longPrefix.toList.isPrefixOf? (s.shortPrefix ++ ch.toString).toList = none := by
      refine Option.eq_none_iff_forall_ne_some.mpr fun rest hrest => ?_
      have hprefix : s.longPrefix.toList <+: s.shortPrefix.toList ++ [ch] :=
        ⟨rest, (List.isPrefixOf?_eq_some_iff_append_eq.mp hrest).trans hword⟩
      rcases List.prefix_concat_iff.mp hprefix with hall | hfront
      · exact heq (String.toList_inj.mp (hall.trans hword.symm))
      · exact not_prefix_shortPrefix h hfront
    rw [hlong, hshort]
    simp [hnumber]

end Settings

/-! ## The tree of a command with one switch -/

namespace Tree

variable {s : Settings} {c : Command α σ} {d : Declaration α σ} {p : Parameter α} {ch : Char}
  {principal : α} {v : Visit α} {w : String}

/-- The tree of a command without path and with one switch. -/
def switchTree (s : Settings) (c : Command α σ) (p : Parameter α) : Tree α σ where
  nodes := #[{ label := .root, literals := [(c.name, 1)] },
    { label := .literal c.name, permission := c.permission, flags := [2], command := some c },
    { label := .parameter p, permission := p.permission, command := some c }]
  commands := #[c]
  settings := s
  hooks := []
  nextId := 1

/-- A switch alone is laid out alike with orders and with a chain. -/
theorem growFlags_switch (hflags : c.flags = [p]) (hswitch : p.isSwitch = true) (threshold : Nat)
    {t : Tree α σ} {i : NodeIndex} (hnew : (t.bindCommand i c).flagNamed? i p.longName = none) :
    Growth.growFlags c i (.ofFlags threshold c.flags) t = .ok ()
      (((t.bindCommand i c).addFlag i p).bindCommand (t.bindCommand i c).nodes.size c) := by
  have hoptional : p.isOptional = true := by simp [Parameter.isOptional, hswitch]
  have hchild : Growth.ensureParameter i p (t.bindCommand i c) =
      .ok (t.bindCommand i c).nodes.size ((t.bindCommand i c).addFlag i p) := by
    simp only [Growth.ensureParameter, if_pos (Parameter.isNamed_of_isSwitch hswitch),
      Growth.ensureFlag, hnew]
  have hrequired : Parameter.required [p] = [] := by simp [Parameter.required, hoptional]
  have hoptionals : Parameter.optionals [p] = [p] := by simp [Parameter.optionals, hoptional]
  rw [hflags, FlagPlan.ofFlags]
  split
  · simp only [hrequired, hoptionals, Growth.growFlags, Growth.growRow, Growth.growChain,
      Growth.markEnd, Growth.bind_apply, pure, EStateM.pure, Growth.modify_apply, hchild,
      List.foldl_nil]
  · have horders : Parameter.flagOrders [p] = [[p]] := by
      rw [Parameter.flagOrders, hrequired, hoptionals]
      rfl
    simp only [horders, Growth.growFlags, Growth.growOrders, Growth.growOrder,
      Growth.markEndBefore, List.all_cons, List.all_nil, hoptional, Bool.and_self, if_true,
      Growth.markEnd, Growth.bind_apply, pure, EStateM.pure, Growth.modify_apply, hchild]

/-- A command of one word with one switch is well declared. -/
theorem validate_switch (hname : IsWord d.name) (haliases : d.aliases = [])
    (hsteps : d.steps = [.parameter p]) (hswitch : p.isSwitch = true)
    (htruth : p.type.traits.kind = .truth) : d.validate = .ok () := by
  have hnamed := Parameter.isNamed_of_isSwitch hswitch
  have hparameters : d.parameters = [p] := by simp [Declaration.parameters, hsteps, Step.parameter?]
  have hflags : d.flags = [p] := by simp [Declaration.flags, hparameters, hnamed]
  refine Declaration.validate_eq_ok_iff_wellFormed.mpr ⟨?_, ?_, ?_, ?_, ?_, ?_⟩
  · intro name hmem
    obtain rfl : name = d.name := by simpa [Declaration.names, haliases] using hmem
    obtain ⟨ch, hch⟩ := List.exists_mem_of_ne_nil _ hname.toList_ne_nil
    exact ⟨ch, hch, hname.2 ch hch⟩
  · simp [hparameters]
  · simp [hflags]
  · rw [hflags]
    cases hshort : p.shorthand? <;> simp [hshort]
  · simp [hparameters, htruth]
  · simp [hparameters, hnamed]

/-- Registered in an empty tree it has a node for its word and one for its switch. -/
theorem register_switch (hvalid : d.validate = .ok ()) (haliases : d.aliases = [])
    (hsteps : d.steps = [.parameter p]) (hswitch : p.isSwitch = true) (s : Settings) :
    Growth.register d (empty s) = .ok 0 (switchTree s (d.command 0 d.name) p) := by
  have hnamed := Parameter.isNamed_of_isSwitch hswitch
  have hpath : (d.command 0 d.name).path = [] := by
    simp [Declaration.command, Declaration.path, hsteps, Step.parameter?, hnamed]
  have hflags : (d.command 0 d.name).flags = [p] := by
    simp [Declaration.command, Declaration.flags, Declaration.parameters, hsteps, Step.parameter?,
      hnamed]
  have hbuild : d.build 0 = .ok [d.command 0 d.name] :=
    Declaration.build_eq_ok_iff.mpr ⟨hvalid, by rw [Declaration.names, haliases]; rfl⟩
  have hfirst : Growth.ensureLiteral root d.name d.permission
      ({ empty s with nextId := 1 } : Tree α σ) =
        .ok 1 (({ empty s with nextId := 1 } : Tree α σ).addLiteral root d.name d.permission) := rfl
  have hsection := growFlags_switch (t := ({ empty s with nextId := 1 } : Tree α σ).addLiteral root
    d.name d.permission) (i := 1) hflags hswitch s.threshold rfl
  -- One literal and one section of a single switch: the growth is run as it stands.
  have hgrow : Growth.growCommand (d.command 0 d.name) ({ empty s with nextId := 1 } : Tree α σ) =
      .ok () { switchTree s (d.command 0 d.name) p with commands := #[] } := by
    rw [Growth.growCommand, Growth.bind_apply, Growth.get_apply]
    simp only
    rw [Growth.bind_apply, show (d.command 0 d.name : Command α σ).name = d.name from rfl,
      show (d.command 0 d.name : Command α σ).permission = d.permission from rfl, hfirst]
    simp only
    rw [hpath]
    exact hsection
  rw [Growth.register_eq, show (empty s : Tree α σ).nextId = 0 from rfl, hbuild]
  simp only
  rw [Growth.insertAll_cons, Growth.insert_eq]
  simp only [Nat.zero_add, hgrow]
  rfl

/-! ## Lines with a word and a flag -/

theorem grown_switchTree (hvalid : d.validate = .ok ()) (haliases : d.aliases = [])
    (hsteps : d.steps = [.parameter p]) (hswitch : p.isSwitch = true) (hs : s.validate = .ok ()) :
    (switchTree s (d.command 0 d.name) p).Grown := by
  have hgrown := Grown.register d (.empty s hs)
  rwa [Growth.after_of_ok (register_switch hvalid haliases hsteps hswitch s)] at hgrown

/-- The visit to the node of a command, behind its word and in front of another one. -/
def behindWord (principal : α) (name w : String) : Visit α :=
  ⟨1, (start principal (" ".intercalate [name, w])).cursor.skipWord.skipBlank,
    .ofLine principal (" ".intercalate [name, w]), false⟩

theorem faces_behindWord (principal : α) {name : String} (hname : IsWord name) (hw : IsWord w) :
    (behindWord principal name w).Faces 1 [w] where
  node_eq := rfl
  bundled_eq := rfl
  before :=
    (Visit.Faces.of_start principal (List.cons_ne_nil name [w]) (by simp [hname, hw])).before.skip
      hname (by simp [hw])

/-- The first word of a line leads to the node of the command. -/
theorem chooses_word (hname : IsWord c.name) (hw : IsWord w)
    (hallows : c.permission.allows principal = true) :
    (switchTree s c p).Chooses (start principal (" ".intercalate [c.name, w])) .literal none
      (behindWord principal c.name w) := by
  have hfaces := Visit.Faces.of_start principal (List.cons_ne_nil c.name [w])
    (by simp [hname, hw])
  have hfind : ((switchTree s c p).node
      (start principal (" ".intercalate [c.name, w])).node).literal?
        (start principal (" ".intercalate [c.name, w])).cursor.word = some 1 := by
    rw [hfaces.before.word_eq hname, hfaces.node_eq]
    simp [switchTree, node, root, Node.literal?]
  exact .of_turns_eq_cons (turns_of_faces hfaces hname)
    (.literal hfind hallows (Cursor.atBreak_skipWord _))

/-- Nothing else comes of that word. -/
theorem events_start_switchTree (hname : IsWord c.name) (hw : IsWord w)
    (hallows : c.permission.allows principal = true) :
    (switchTree s c p).events (start principal (" ".intercalate [c.name, w])) =
      (switchTree s c p).events (behindWord principal c.name w) := by
  have hfaces := Visit.Faces.of_start principal (List.cons_ne_nil c.name [w])
    (by simp [hname, hw])
  have hliteral : (switchTree s c p).turnEvents (start principal (" ".intercalate [c.name, w]))
      .literal = (switchTree s c p).events (behindWord principal c.name w) := by
    rw [turnEvents, attempt_eq_enter_iff.mpr ⟨none, (chooses_word hname hw hallows).moves⟩]
    rfl
  have hflag : (switchTree s c p).turnEvents (start principal (" ".intercalate [c.name, w]))
      .flag = [] := rfl
  have hmismatch : (switchTree s c p).turnEvents (start principal (" ".intercalate [c.name, w]))
      .mismatch = [] := by
    rw [turnEvents, attempt, mismatchBranch?, mismatch?, hfaces.before.word_eq hname,
      hfaces.node_eq]
    simp [switchTree, node, root, Node.literal?]
  rw [events_eq_flatMap_turns, turns_of_faces hfaces hname,
    show (switchTree s c p).argumentsOf root = [] from rfl]
  simp only [List.map_nil, List.cons_append, List.nil_append, List.flatMap_cons, List.flatMap_nil,
    hliteral, hflag, hmismatch, List.append_nil]

/-- A parameter that has a value is not filled in. -/
theorem fillParameters_of_bound {ctx : Context α} {value : Value}
    (h : ctx.bindings.entries = [(p.name, value)]) : fillParameters ctx [p] = .ok ctx := by
  have hbound : ctx.bindings.contains p.name = true := by simp [Bindings.contains, h]
  simp only [fillParameters, fillParameter, hbound, if_true]

/-- A word that spells the switch, with nothing behind it, gives the switch. -/
theorem parse_of_spells (hgrown : (switchTree s c p).Grown) (hparameters : c.parameters = [p])
    (hswitch : p.isSwitch = true) (hname : IsWord c.name) (hw : IsWord w)
    (hallows : c.permission.allows principal = true)
    (hallows' : p.permission.allows principal = true) {e : Cursor}
    (hspells : (switchTree s c p).Spells (behindWord principal c.name w) .flag 2 p e false)
    (hrest : e.Before [""]) :
    ∃ r, (switchTree s c p).parse principal (" ".intercalate [c.name, w]) = .ok r ∧
      r.command = c ∧ r.context.bindings.entries = [(p.name, .truth true)] := by
  obtain ⟨hbreak, hend⟩ := hrest.of_empty (by simp)
  have hflag := Chooses.mk (.switch hspells hswitch hallows' hbreak)
    ⟨[.literal], _, turns_of_faces (faces_behindWord principal hname hw) hw, by simp; rfl⟩
  have hpursued := (Pursues.single (chooses_word hname hw hallows)).append (.single hflag)
  have hfirst := hpursued.firstEnding? (firstEnding?_of_atEnd rfl hend.atEnd (c := c) rfl hallows)
  rw [← (hgrown.search_took principal _).ending] at hfirst
  obtain ⟨hout, _, hcontext⟩ := Searched.outcome_eq_ok hfirst
  have hbindings : ((switchTree s c p).search
      (start principal (" ".intercalate [c.name, w]))).context.bindings.entries =
        [(p.name, .truth true)] := by
    rw [← hcontext]
    rfl
  refine ⟨_, by rw [parse_of_found hout, hparameters, fillParameters_of_bound hbindings], rfl,
    hbindings⟩

/-- A word that spells no flag is rejected at the command's node. -/
theorem parse_of_unspelled (hgrown : (switchTree s c p).Grown) (hname : IsWord c.name)
    (hw : IsWord w) (hallows : c.permission.allows principal = true)
    (hspelling : s.flagSpelling? w = none) :
    (switchTree s c p).parse principal (" ".intercalate [c.name, w]) =
      .error ⟨.trailingInput w, (behindWord principal c.name w).cursor.position, some c.name⟩ := by
  have hfaces := faces_behindWord principal hname hw
  have hword := hfaces.before.word_eq hw
  -- Two turns are left at the end of the word: the flag's, which reads nothing, and the mismatch.
  have hflag : (switchTree s c p).turnEvents (behindWord principal c.name w) .flag = [] := by
    have hnone : (switchTree s c p).flagBranch? (behindWord principal c.name w).node
        (behindWord principal c.name w).cursor (behindWord principal c.name w).context = none := by
      rw [flagBranch?, hword, show (switchTree s c p).settings = s from rfl, hspelling]
      split <;> rfl
    rw [turnEvents, attempt, hnone]
  have hmismatch : (switchTree s c p).turnEvents (behindWord principal c.name w) .mismatch =
      [.rejected ⟨.trailingInput w, (behindWord principal c.name w).cursor.position,
        some c.name⟩] := by
    have hcause : (switchTree s c p).mismatch? (behindWord principal c.name w).node w =
        some (.trailingInput w) := by
      simp [mismatch?, switchTree, behindWord, node, Node.literal?, Node.isRoot, hspelling]
    rw [turnEvents, attempt, mismatchBranch?, hword, hcause]
    rfl
  have hevents : (switchTree s c p).events (behindWord principal c.name w) =
      [.rejected ⟨.trailingInput w, (behindWord principal c.name w).cursor.position,
        some c.name⟩] := by
    rw [events_eq_flatMap_turns, turns_of_faces hfaces hw,
      show (switchTree s c p).argumentsOf 1 = [] from rfl]
    simp [hflag, hmismatch]
    rfl
  have htook := hgrown.search_took principal (" ".intercalate [c.name, w])
  rw [events_start_switchTree hname hw hallows, hevents] at htook
  have hout := Searched.outcome_eq_none htook.ending
  rw [parse_of_none hout, reported, htook.rejections]
  cases (switchTree s c p).settings.policy <;> rfl

/-- The word behind that of the command comes after a space. -/
theorem position_behindWord (principal : α) {name : String} (hname : IsWord name) (hw : IsWord w) :
    (behindWord principal name w).cursor.position = name.utf8ByteSize + 1 := by
  have hbefore := (faces_behindWord principal hname hw).before
  have hreached : (Cursor.ofString (" ".intercalate [name, w])).Reaches
      (behindWord principal name w).cursor :=
    (Cursor.skipBlank_reached _).trans
      ((Cursor.skipWord_reached _).trans (Cursor.skipBlank_reached _))
  have hrest : (behindWord principal name w).cursor.rest = w.toList := by
    simpa using Cursor.before_cons_iff.mp hbefore
  have hbytes := congrArg byteCount hreached.source_eq
  simp only [Cursor.source, Cursor.ofString, hrest, byteCount_append, byteCount_reverse] at hbytes
  have hspace : ' '.utf8Size = 1 := by decide
  have hline : byteCount (" ".intercalate [name, w]).toList =
      name.utf8ByteSize + 1 + byteCount w.toList := by
    simp [← byteCount_toList, byteCount, hspace, Nat.add_assoc]
  rw [hline] at hbytes
  rw [Cursor.position]
  simpa [byteCount] using hbytes

/-- The long name spells the switch. -/
theorem spells_long_switch (hlong : IsWord p.longName) {v : Visit α}
    (hv : v.Faces 1 [s.longPrefix ++ p.longName]) (hw : IsWord (s.longPrefix ++ p.longName)) :
    (switchTree s c p).Spells v .flag 2 p v.cursor.skipWord false := by
  have hspelling : (switchTree s c p).settings.flagSpelling? v.cursor.word =
      some (.long p.longName) := by
    rw [hv.before.word_eq hw]
    exact Settings.flagSpelling?_long s hlong.1
  refine .long hspelling ?_
  rw [hv.node_eq]
  simp [flagNamed?, flagsOf, parametersAt, switchTree, node, Node.parameter?]

/-- So does the shorthand, where its word is one of shorthands. -/
theorem exists_spells_short_switch (hshort : p.shorthand? = some ch) {v : Visit α}
    (hv : v.Faces 1 [s.shortPrefix ++ ch.toString]) (hw : IsWord (s.shortPrefix ++ ch.toString))
    (hspelling : s.flagSpelling? (s.shortPrefix ++ ch.toString) = some .short) :
    ∃ e : Cursor, (switchTree s c p).Spells v .flag 2 p e false ∧ e.Before [""] := by
  have hrest : v.cursor.rest = s.shortPrefix.toList ++ [ch] := by
    simpa using Cursor.before_cons_iff.mp hv.before
  have hdrop : (v.cursor.advance s.shortPrefix.length).rest = [ch] := by
    rw [Cursor.advance, hrest, ← String.length_toList, List.drop_left]
  have hend : ((v.cursor.advance s.shortPrefix.length).advance 1).rest = [] := by
    rw [Cursor.advance, hdrop]
    rfl
  have hbreak : ((v.cursor.advance s.shortPrefix.length).advance 1).atBreak = true := by
    simp [Cursor.atBreak, Cursor.atEnd, hend]
  have hchild : (switchTree s c p).flagShort? v.node ch = some (2, p) := by
    rw [hv.node_eq]
    simp [flagShort?, flagsOf, parametersAt, switchTree, node, Node.parameter?, hshort]
  have hspelled : (switchTree s c p).settings.flagSpelling? v.cursor.word = some .short := by
    rw [hv.before.word_eq hw]
    exact hspelling
  have hspells := Spells.short hspelled rfl hdrop hchild
  rw [show (switchTree s c p).settings.shortPrefix = s.shortPrefix from rfl, hbreak] at hspells
  exact ⟨_, hspells, Cursor.before_cons_iff.mpr (by simpa using hend)⟩

/-- **The prefixes keep the spellings of a switch apart, but for one shorthand.** Let a command of
one word with one switch be alone in a tree with usable settings, and let the principal use both.
The shorthand is a character that is neither blank nor a digit.

* The long name behind the long prefix is taken, and the switch is set.
* The shorthand behind the short prefix is taken, and the switch is set, unless the two are the long
  prefix.
* If they are, the word is rejected as trailing input. -/
theorem parse_switch_spellings (hs : s.validate = .ok ()) (hname : IsWord d.name)
    (haliases : d.aliases = []) (hsteps : d.steps = [.parameter p]) (hswitch : p.isSwitch = true)
    (htruth : p.type.traits.kind = .truth) (hlong : IsWord p.longName)
    (hshort : p.shorthand? = some ch) (hblank : isBlank ch = false) (hdigit : ch.isDigit = false)
    (hallows : d.permission.allows principal = true)
    (hallows' : p.permission.allows principal = true) :
    ∃ t, Growth.register d (empty s) = .ok 0 t ∧
      (∃ r, t.parse principal (d.name ++ " " ++ (s.longPrefix ++ p.longName)) = .ok r ∧
        r.command = d.command 0 d.name ∧
        r.context.bindings.entries = [(p.name, .truth true)]) ∧
      (s.longPrefix ≠ s.shortPrefix ++ ch.toString →
        ∃ r, t.parse principal (d.name ++ " " ++ (s.shortPrefix ++ ch.toString)) = .ok r ∧
          r.command = d.command 0 d.name ∧
          r.context.bindings.entries = [(p.name, .truth true)]) ∧
      (s.longPrefix = s.shortPrefix ++ ch.toString →
        t.parse principal (d.name ++ " " ++ (s.shortPrefix ++ ch.toString)) =
          .error ⟨.trailingInput (s.shortPrefix ++ ch.toString), d.name.utf8ByteSize + 1,
            some d.name⟩) := by
  have hvalid := validate_switch hname haliases hsteps hswitch htruth
  have hgrown := grown_switchTree hvalid haliases hsteps hswitch hs
  have hparameters : (d.command 0 d.name).parameters = [p] := by
    have hperm := Declaration.parameters_command_perm d 0 d.name
    rw [show d.parameters = [p] by simp [Declaration.parameters, hsteps, Step.parameter?]] at hperm
    exact List.perm_singleton.mp hperm
  have hline (w : String) : d.name ++ " " ++ w = " ".intercalate [d.name, w] := by simp
  have hword : IsWord (s.longPrefix ++ p.longName) := hlong.append (s.isBlank_longPrefix hs)
  have hword' : IsWord (s.shortPrefix ++ ch.toString) := by
    refine IsWord.append (Settings.isBlank_shortPrefix hs) ⟨by simp, by simpa using hblank⟩
  have hspelling := Settings.flagSpelling?_shorthand hs hdigit
  -- The first word is passed in all three cases; they differ in how the second one is spelled.
  refine ⟨_, register_switch hvalid haliases hsteps hswitch s, ?_, fun hne => ?_, fun heq => ?_⟩
  · have hfaces := faces_behindWord principal hname hword
    rw [hline]
    exact parse_of_spells hgrown hparameters hswitch hname hword hallows hallows'
      (spells_long_switch hlong hfaces hword) (hfaces.before.skipWord hword)
  · rw [if_neg hne] at hspelling
    obtain ⟨e, hspells, he⟩ :=
      exists_spells_short_switch hshort (faces_behindWord principal hname hword') hword' hspelling
    rw [hline]
    exact parse_of_spells hgrown hparameters hswitch hname hword' hallows hallows' hspells he
  · rw [if_pos heq] at hspelling
    rw [hline, ← position_behindWord principal hname hword']
    exact parse_of_unspelled hgrown hname hword' hallows hspelling

/-- A command with the switch `verbose`. -/
def verboseCommand : Declaration Unit Unit :=
  { name := "cmd", steps := [.parameter (.switch "verbose")] }

/-- Here the short prefix and the shorthand of the switch are the long prefix. -/
def shadowing : Settings := { longPrefix := "-v", shortPrefix := "-" }

/-- So the shorthand cannot be given, though the settings are usable. -/
theorem switch_shorthand_shadowed :
    shadowing.validate = .ok () ∧
      (Growth.register verboseCommand).succeeds (empty shadowing) = true ∧
      (∃ r, ((Growth.register verboseCommand).after (empty shadowing)).parse () "cmd -vverbose" =
        .ok r ∧ r.context.bindings.get? "verbose" = some (.truth true)) ∧
      ∃ e, ((Growth.register verboseCommand).after (empty shadowing)).parse () "cmd -v" = .error e ∧
        e.cause = .trailingInput "-v" :=
  ⟨by decide, by decide +kernel, by decide +kernel, by decide +kernel⟩

/-- With another letter in the long prefix it can, though the long prefix still goes on from the
short one. -/
theorem parse_switch_spellings_verbose :
    ({ longPrefix := "-x", shortPrefix := "-" } : Settings).validate = .ok () ∧
      isBlank 'v' = false ∧ 'v'.isDigit = false ∧
      ∃ t, Growth.register verboseCommand (empty { longPrefix := "-x", shortPrefix := "-" }) =
          .ok 0 t ∧
        (∃ r, t.parse () "cmd -xverbose" = .ok r ∧
          r.context.bindings.entries = [("verbose", .truth true)]) ∧
        ∃ r, t.parse () "cmd -v" = .ok r ∧
          r.context.bindings.entries = [("verbose", .truth true)] := by
  have hs : ({ longPrefix := "-x", shortPrefix := "-" } : Settings).validate = .ok () := by decide
  obtain ⟨t, hregister, ⟨r, hlong, _, hvalues⟩, hshort, _⟩ :=
    parse_switch_spellings (d := verboseCommand) (p := .switch "verbose") hs (by decide) rfl rfl
      rfl rfl (by decide) (show (Parameter.switch "verbose").shorthand? = some 'v' from rfl)
      (by decide) (by decide) (show verboseCommand.permission.allows () = true from rfl) rfl
  obtain ⟨r', hparse, _, hvalues'⟩ := hshort (by decide)
  exact ⟨hs, by decide, by decide, t, hregister, ⟨r, hlong, hvalues⟩, r', hparse, hvalues'⟩

end Tree

end CommandLine
