import CommandLine.Proofs.OfferedFlags
import CommandLine.Proofs.Search.Offered
import CommandLine.Proofs.Search.OneWay
import CommandLine.Proofs.Search.Resolved

/-!
# Taking up suggestions

On the tree of one command that has words and optional flags only, whatever completion offers behind
a line that resolves can be taken up. Most suggestions are spellings of flags not given yet, so the
line goes on with a flag of the section; it resolves if the flag is a switch, and otherwise asks for
the value. The others are suggestions for a value that takes the rest of the line, which takes them,
too.

* `suggestion_taken` — what comes of a line with a suggestion behind it.
-/

set_option autoImplicit false

namespace CommandLine

open Text

variable {α σ : Type}

/-- A command with words and optional flags only. Its long names are words, and its shorthands are
characters that stand alone. -/
structure Command.Optional (c : Command α σ) : Prop where
  plain : ∀ p, .parameter p ∉ c.path
  optional : ∀ p ∈ c.flags, p.isOptional = true
  longName : ∀ p ∈ c.flags, IsWord p.longName
  shorthand : ∀ p ∈ c.flags, ∀ ch, p.shorthand? = some ch → StandsAlone ch

namespace Command

variable {c : Command α σ}

/-- The words of a command without arguments. -/
theorem exists_words (hplain : ∀ p, .parameter p ∉ c.path) :
    ∃ words : List String, c.positionals = words.map .literal := by
  have hsteps (steps : List (Step α)) (h : ∀ p, .parameter p ∉ steps) :
      ∃ words : List String, steps = words.map .literal := by
    induction steps with
    | nil => exact ⟨[], rfl⟩
    | cons step steps ih =>
      obtain ⟨words, hwords⟩ := ih fun p hp => h p (List.mem_cons_of_mem step hp)
      cases step with
      | literal w => exact ⟨w :: words, by rw [hwords]; rfl⟩
      | parameter p => exact (h p List.mem_cons_self).elim
  exact hsteps c.positionals fun p hp => hplain p (by simpa [positionals] using hp)

/-- What an open command offers comes from its flags. -/
theorem mem_suggestSteps_of_mem_complete {s : Settings} {principal : α} {line x : String}
    (hopen : c.Open) (h : x ∈ c.complete s principal line) : x ∈
      suggestSteps s c.positionals c.flags (.ofString line) (.ofLine principal line) false := by
  by_cases hflags : c.flags = []
  · rw [complete] at h
    rw [suggestSteps]
    cases hfollow : followSteps (.ofString line) (.ofLine principal line) c.positionals with
    | halted suggestions =>
      rw [hfollow] at h
      exact h
    | ready d ctx =>
      rw [hfollow] at h
      simp [hflags] at h
  · obtain ⟨f, hf⟩ := List.exists_mem_of_ne_nil _ hflags
    rwa [← c.complete_eq_suggestSteps s principal line hopen hf]

/-- A line that starts with a blank is not completed. -/
theorem startsWord_of_mem_complete {s : Settings} {principal : α} {line x : String}
    (hname : c.name ≠ "") (hne : line ≠ "") (h : x ∈ c.complete s principal line) :
    StartsWord line.toList := by
  obtain ⟨ch, rest, hline⟩ := List.exists_cons_of_ne_nil (show line.toList ≠ [] by simpa using hne)
  refine ⟨ch, rest, hline, ?_⟩
  by_contra hblank
  have hblank : isBlank ch = true := by simpa using hblank
  have hword : (Cursor.ofString line).word = "" := by
    simp [Cursor.word, Cursor.ofString, hline, hblank]
  have hend : (Cursor.ofString line).skipWord.atEnd = false := by
    simp [Cursor.skipWord, Cursor.skipWhile, Cursor.ofString, Cursor.atEnd, hline, hblank]
  have hhalted : followSteps (.ofString line) (.ofLine principal line) c.positionals =
      .halted [] := by
    simp [positionals, followSteps, followStep, followLiteral, hword, hend, hname.symm]
  rw [complete, hhalted] at h
  cases h

end Command

namespace Tree

variable {t : Tree α σ} {c : Command α σ} {v : Visit α} {p : Parameter α} {child : NodeIndex}

/-- A text that spells a flag is one word. -/
theorem isWord_of_spelledBy (hdashed : t.settings.Dashed) (hoptional : c.Optional)
    (hp : p ∈ c.flags) {x : String} (hx : p.SpelledBy t.settings x) : IsWord x := by
  rcases hx with rfl | ⟨ch, hch, rfl⟩
  · exact (hoptional.longName p hp).append hdashed.isBlank_long
  · have halone := hoptional.shorthand p hp ch hch
    exact IsWord.append hdashed.isBlank_short ⟨by simp, by simpa using halone.not_blank⟩

/-- The flag child that a word at the end of the line spells. -/
theorem Chart.exists_spells (m : Chart (· = c) t) (hc : c.Built) (hdashed : t.settings.Dashed)
    (hoptional : c.Optional) (hi : v.node < t.nodes.size)
    (hchild : (child, p) ∈ t.flagsOf v.node) (hp : p ∈ c.flags) {x : String}
    (hx : p.SpelledBy t.settings x) (hbefore : v.cursor.Before [x]) :
    ∃ e : Cursor, t.Spells v .flag child p e false ∧ e.atEnd = true := by
  have hword := isWord_of_spelledBy hdashed hoptional hp hx
  have hcursor := hbefore.word_eq hword
  have hrest : v.cursor.rest = x.toList := by simpa [Cursor.Before] using hbefore
  -- By its long name the flag takes the whole word, by its shorthand the prefix and a character.
  rcases hx with rfl | ⟨ch, hch, rfl⟩
  · refine ⟨v.cursor.skipWord, ?_, ?_⟩
    · refine .long (by rw [hcursor, Settings.flagSpelling?_long _ (hoptional.longName p hp).1]) ?_
      exact m.flagNamed?_of_mem_flagsOf hi hchild
    · have hall : (t.settings.longPrefix ++ p.longName).toList.dropWhile (fun ch => !isBlank ch) =
          [] := List.dropWhile_eq_nil_iff.mpr fun ch hch => by simp [hword.2 ch hch]
      rw [Cursor.atEnd, Cursor.skipWord, Cursor.skipWhile, hrest, hall]
      rfl
  · have halone := hoptional.shorthand p hp ch hch
    rw [hdashed.short] at hrest hcursor
    have hchars : ("-" ++ ch.toString).toList = ['-', ch] := by simp
    have hadvance : (v.cursor.advance t.settings.shortPrefix.length).rest = [ch] := by
      rw [hdashed.short, Cursor.advance, hrest, hchars]
      rfl
    have hspelling : t.settings.flagSpelling? v.cursor.word = some .short := by
      rw [hcursor]
      exact hdashed.flagSpelling?_short halone hchars
    have hspells := Spells.short hspelling rfl hadvance
      (m.flagShort?_of_mem_flagsOf hc hi hchild hch)
    have hend : ((v.cursor.advance t.settings.shortPrefix.length).advance 1).atEnd = true := by
      rw [Cursor.advance, Cursor.atEnd, hadvance]
      rfl
    refine ⟨_, ?_, hend⟩
    rwa [Cursor.atBreak, hend] at hspells

/-- A line that starts with a word is read from its start. -/
theorem cursor_start_of_startsWord (principal : α) {line : String}
    (hline : StartsWord line.toList) : (start principal line).cursor = Cursor.ofString line := by
  obtain ⟨ch, rest, hline, hch⟩ := hline
  simp [start, Cursor.ofString, Cursor.skipBlank, Cursor.skipWhile, hline, hch]

/-- The start of a longer line is that of the line, which starts with a word. -/
theorem start_onward (principal : α) {typed : String} (text : String)
    (htyped : StartsWord typed.toList) : start principal (typed ++ text) =
      (start principal typed).onward text.toList (.ofLine principal (typed ++ text)) := by
  have hlonger := cursor_start principal text htyped
  rw [← cursor_start_of_startsWord principal htyped] at hlonger
  rw [Visit.onward, ← hlonger]
  rfl

/-- A walk from the start of a line to its end is accepted where lines end. -/
theorem Walks.accepts {principal : α} {line : String} {steps : List (Step α)} {u : Visit α}
    (h : t.Walks (start principal line) steps u) (hbundled : u.bundled = false)
    (hend : u.cursor.atEnd = true) (hcommand : (t.node u.node).command = some c)
    (hopen : c.Open) : ∃ given a, t.Accepts (start principal line) given a := by
  obtain ⟨given, hreads, _⟩ := h.exists_reads
  exact ⟨given, ⟨c, u.cursor, u.context⟩, ⟨u, hreads, hbundled, hend, hcommand, rfl⟩,
    hopen.command _⟩

/-- At the end of a line all its bytes are passed. -/
theorem Walks.position_eq {principal : α} {line : String} {steps : List (Step α)} {u : Visit α}
    (h : t.Walks (start principal line) steps u) {e : Cursor} (he : u.cursor.Reaches e)
    (hend : e.atEnd = true) : e.position = line.utf8ByteSize := by
  have hnil : e.rest = [] := List.isEmpty_iff.mp hend
  have hline : e.source = line.toList :=
    ((Cursor.skipBlank_reached _).trans (h.reached.trans he)).source_eq
  have hreverse : e.passed = line.toList.reverse := by
    rw [Cursor.source, hnil, List.append_nil] at hline
    rw [← hline, List.reverse_reverse]
  rw [Cursor.position, hreverse, byteCount_reverse, byteCount_toList]

/-- Where one rejection is all that comes of a line, it is reported, whatever the policy. -/
theorem Chart.parse_of_rejected {known : Command α σ → Prop} (m : Chart known t)
    (hbuilt : ∀ c, known c → c.Built) {principal : α} {line : String} {r : Rejection}
    (h : t.events (start principal line) = [.rejected r]) :
    t.parse principal line = .error r := by
  obtain ⟨hending, hrejections⟩ := (m.mono hbuilt).took principal line
  rw [h] at hending hrejections
  have hnone : (t.search (start principal line)).outcome = none :=
    Option.map_eq_none_iff.mp hending
  have hchosen : t.settings.policy.choose? [r] = some r := by
    cases t.settings.policy <;> rfl
  have hrecorded : (t.search (start principal line)).rejections = [r] := hrejections
  rw [parse_of_none hnone, reported, hrecorded, hchosen, Option.getD_some]

/-- Optional flags may be given in any order, so any flag not given yet may be given next. -/
theorem allows_append_singleton (hs : c.Sound) (hoptional : c.Optional)
    (hthreshold : c.flags.length ≤ t.settings.threshold) {flags : List (Parameter α)}
    (hflags : (t.plan c).Allows flags) (hp : p ∈ c.flags) (hnew : p ∉ flags) :
    (t.plan c).Allows (flags ++ [p]) := by
  have hnone : Parameter.required c.flags = [] := by
    rw [List.eq_nil_iff_forall_not_mem]
    intro q hq
    obtain ⟨hq, hrequired⟩ := Parameter.mem_required.mp hq
    rw [hoptional.optional q hq] at hrequired
    cases hrequired
  have hnodup : flags.Nodup := (hflags.nodup_map hs.longNames_nodup).of_map
  rw [plan, FlagPlan.allows_ofFlags_iff hs.longNames_nodup.of_map hthreshold]
  refine ⟨[], flags ++ [p], rfl, by rw [hnone], ?_, ?_⟩
  · exact List.nodup_append.mpr ⟨hnodup, List.nodup_singleton p, by
      intro q hq q' hq' heq
      obtain rfl := List.mem_singleton.mp hq'
      exact hnew (heq ▸ hq)⟩
  · intro q hq
    refine Parameter.mem_optionals.mpr ?_
    have hmem : q ∈ c.flags := by
      rcases List.mem_append.mp hq with hq | hq
      · exact hflags.subset hq
      · exact List.mem_singleton.mp hq ▸ hp
    exact ⟨hmem, hoptional.optional q hmem⟩

/-- A walk up to a switch at the end of a line is accepted with it, if lines end there. -/
theorem Walks.accepts_switch {principal : α} {line : String} {steps : List (Step α)} {e : Cursor}
    (h : t.Walks (start principal line) steps v) (hturn : .flag ∈ t.turns v)
    (hspells : t.Spells v .flag child p e false) (hend : e.atEnd = true)
    (hswitch : p.isSwitch = true)
    (hallows : (t.node child).permission.allows v.context.principal = true)
    (hcommand : (t.node child).command = some c) (hopen : c.Open) :
    ∃ given a, t.Accepts (start principal line) given a := by
  have hbreak : e.atBreak = true := by rw [Cursor.atBreak, hend, Bool.true_or]
  have hmove := Moves.switch hspells hswitch hallows hbreak
  exact (h.append (.step hturn hmove (.refl _))).accepts rfl (Cursor.atEnd_skipBlank hend)
    hcommand hopen

/-- All that comes of a line after a walk up to a flag at its end is that the value is missing. -/
theorem Walks.events_of_lacking (m : Chart (· = c) t) (hs : c.Sound)
    (hplain : ∀ p, .parameter p ∉ c.path) {principal : α} {line : String} {steps : List (Step α)}
    {e : Cursor} (h : t.Walks (start principal line) steps v) (hi : v.node < t.nodes.size)
    (hturn : .flag ∈ t.turns v) (hspells : t.Spells v .flag child p e false)
    (hend : e.atEnd = true) (hswitch : p.isSwitch = false)
    (hallows : (t.node child).permission.allows v.context.principal = true) :
    t.events (start principal line) =
      [.rejected ⟨.missingArgument p.name, line.utf8ByteSize, some p.name⟩] := by
  have hposition : e.skipBlank.position = line.utf8ByteSize :=
    h.position_eq (hspells.reached.trans (Cursor.skipBlank_reached e)) (Cursor.atEnd_skipBlank hend)
  have hlacks : t.afterFlag child p e v.context false =
      .rejected ⟨.missingArgument p.name, line.utf8ByteSize, some p.name⟩ := by
    simp only [afterFlag, hswitch, flagValue, Cursor.atEnd_skipBlank hend, hposition, if_true]
  have hattempt := attempt_flag_eq_of_spells hspells hallows
  have hbranches := (m.oneWay hs hplain hi).branches_eq hturn (by simp) hattempt
  rw [h.events_eq m hs hplain m.size_pos, Tree.events_eq, hbranches]
  exact congrArg (fun b => [b].flatMap _) hlacks

/-- What completion offers behind a line of words and of flags that do not take the rest of it
spells a flag that the line does not give. -/
theorem Walks.exists_spelled (m : Chart (· = c) t) (hc : c.Built) (hopen : c.Open)
    (hbuiltin : ∀ p ∈ c.parameters, ∃ b : BuiltinType, p.type = b.toValueType)
    (hoptional : c.Optional) {principal : α} {typed x : String} (htyped : StartsWord typed.toList)
    (hends : (start principal typed).cursor.EndsBlank) {flags : List (Parameter α)}
    (hflags : (t.plan c).Allows flags)
    (h : t.Walks (start principal typed) (c.positionals ++ flags.map .parameter) v)
    (hplain : ∀ q ∈ flags, (Step.parameter q).isGreedy = false) (hv : v.bundled = false)
    (hend : v.cursor.atEnd = true) (hx : x ∈ c.complete t.settings principal typed) :
    ∃ p ∈ c.flags, p ∉ flags ∧ p.SpelledBy t.settings x := by
  have hs := hc.sound
  obtain ⟨words, hwords⟩ := Command.exists_words hoptional.plain
  have hleft : c.Remaining flags c.flags :=
    ⟨⟨(hflags.nodup_map hs.longNames_nodup).of_map, hflags.subset, List.Subset.refl _⟩,
      hs.longNames_nodup.of_map⟩
  have hoffered := Command.mem_suggestSteps_of_mem_complete hopen hx
  rw [← cursor_start_of_startsWord principal htyped, hwords] at hoffered
  rw [hwords] at h
  exact h.exists_of_mem_suggestSteps m hc hopen hbuiltin m.size_pos rfl hends hplain hv hend hleft
    hoffered

/-- **Suggestions can be taken up.** Let a tree with the usual prefixes have one command, which is
open, not secret and of built-in types, with words and optional flags only, at most as many flags as
the threshold says, and readable defaults. Whatever completion offers behind a line that resolves
and ends with a blank, the line resolves with the suggestion behind it, or the suggestion spells a
flag and all that the line lacks is its value. -/
theorem suggestion_taken (h : t.Sole c) (hdashed : t.settings.Dashed) (hoptional : c.Optional)
    (hthreshold : c.flags.length ≤ t.settings.threshold) (hreadable : c.Readable) (principal : α)
    {line : String} (hends : (Cursor.ofString line).EndsBlank) {r : Resolved α σ}
    (hparse : t.parse principal line = .ok r) {x : String} (hx : x ∈ t.complete principal line) :
    (∃ r', t.parse principal (line ++ x) = .ok r') ∨
      ∃ p ∈ c.flags, p.isSwitch = false ∧ p.SpelledBy t.settings x ∧
        t.parse principal (line ++ x) =
          .error ⟨.missingArgument p.name, (line ++ x).utf8ByteSize, some p.name⟩ := by
  obtain ⟨hc, ⟨m⟩, hlaid⟩ := h.populated.exists_chart h.commands_eq
  have hs := hc.sound
  have hopen (c' : Command α σ) (hc' : c' = c) : c'.Open := hc' ▸ h.opened
  have hbuiltin (c' : Command α σ) (hc' : c' = c) :
      ∀ p ∈ c'.parameters, ∃ b : BuiltinType, p.type = b.toValueType := hc' ▸ h.builtin
  have hallows := m.allows_node hopen
  have hresolves (line : String) := m.exists_parse_eq_ok_iff (fun _ hc' => hc' ▸ hc) hopen
    (fun _ hc' => hc' ▸ hreadable) principal line
  -- The reading of the line passes all words and some of the flags.
  obtain ⟨given, a, haccepts⟩ := (hresolves line).mp ⟨r, hparse⟩
  obtain ⟨u, hreads, hu, hend, hcommand, -⟩ := haccepts.accepted
  obtain ⟨steps, hwalks, -⟩ := hreads.exists_walks
  obtain rfl := m.known_of_command hcommand
  obtain ⟨k, flags, hk, hflags, rfl⟩ := m.exists_steps_of_bound hs hwalks.route hcommand
  obtain rfl := hk.eq_length hoptional.plain
  have hlaid := hlaid _ hk
  obtain ⟨hi, -⟩ := m.way_of_route hwalks.route
  -- The line starts with a word, so the longer line is read from the same place.
  obtain ⟨hne, _, hmem, -, hx⟩ := mem_complete_iff.mp hx
  obtain rfl : _ = a.command := by simpa [h.commands_eq] using hmem
  have htyped := Command.startsWord_of_mem_complete hc.name_ne_empty hne hx
  have hstart := start_onward principal x htyped
  have hends' : (start principal line).cursor.EndsBlank :=
    hends.of_reaches (Cursor.skipBlank_reached _)
  by_cases hgreedy : ∃ step ∈ a.command.positionals.take a.command.positionals.length ++
      flags.map Step.parameter, step.isGreedy = true
  · -- A value that takes the rest of the line takes the suggestion.
    obtain ⟨u', hwalks', hnode, hu', hend'⟩ := hwalks.onward_greedy m hopen hbuiltin m.size_pos
      hends' (by simp [start]) hgreedy x.toList (.ofLine principal (line ++ x))
    rw [← hstart] at hwalks'
    exact .inl ((hresolves _).mpr (hwalks'.accepts hu' hend' (hnode ▸ hcommand) h.opened))
  · -- The suggestion spells a flag that was not given, whose child the longer line comes to.
    have hplain (step : Step α) (hstep : step ∈ a.command.positionals.take
        a.command.positionals.length ++ flags.map Step.parameter) : step.isGreedy = false := by
      rw [← Bool.not_eq_true]
      exact fun hstep' => hgreedy ⟨step, hstep, hstep'⟩
    obtain ⟨p, hp, hnew, hspelled⟩ := Walks.exists_spelled m hc h.opened h.builtin hoptional
      htyped hends' hflags (by rwa [List.take_length] at hwalks)
      (fun q hq => hplain _ (List.mem_append_right _ (List.mem_map_of_mem hq))) hu hend hx
    have hword := isWord_of_spelledBy hdashed hoptional hp hspelled
    have htail : StartsWord x.toList := by
      obtain ⟨ch, rest, hchars⟩ := List.exists_cons_of_ne_nil hword.toList_ne_nil
      exact ⟨ch, rest, hchars, hword.2 ch (by simp [hchars])⟩
    obtain ⟨ctx, hwalks'⟩ := hwalks.onward m hopen hbuiltin m.size_pos hends' (by simp [start])
      hplain (.inr htail) (.ofLine principal (line ++ x))
    rw [← hstart] at hwalks'
    obtain ⟨j, hchild, hcommand'⟩ := m.exists_mem_flagsOf hs hlaid hthreshold hp
      (allows_append_singleton hs hoptional hthreshold hflags hp hnew) hwalks.route
    have hbefore : (u.onward x.toList ctx).cursor.Before [x] := by
      have hnil : u.cursor.rest = [] := List.isEmpty_iff.mp hend
      simp [Visit.onward, Cursor.Before, hnil]
    obtain ⟨e, hspells, hatEnd⟩ := m.exists_spells (v := u.onward x.toList ctx) hc hdashed
      hoptional hi hchild hp hspelled hbefore
    have hturn : .flag ∈ t.turns (u.onward x.toList ctx) := by
      have hmore : (u.onward x.toList ctx).cursor.atEnd = false := hbefore.atEnd_eq_false hword
      rw [turns_eq (v := u.onward x.toList ctx) hu hmore]
      simp
    cases hswitch : p.isSwitch with
    | true =>
      exact .inl ((hresolves _).mpr (hwalks'.accepts_switch hturn hspells hatEnd hswitch
        (hallows _ _) hcommand' h.opened))
    | false =>
      have hevents := hwalks'.events_of_lacking m hs hoptional.plain hi hturn hspells hatEnd
        hswitch (hallows _ _)
      exact .inr ⟨p, hp, hswitch, hspelled,
        m.parse_of_rejected (fun _ hc' => hc' ▸ hc) hevents⟩

/-- A command that lists some entries, 20 by default. -/
def listing : Command Unit Unit := declaration.command 0 "list"
where
  declaration : Declaration Unit Unit :=
    { name := "list", steps := [.literal "all", .parameter limit, .parameter verbose] }
  limit : Parameter Unit :=
    ((Parameter.ofBuiltin "limit" (.integer none none)).withDefault "20").asFlag
  verbose : Parameter Unit := .switch "verbose"

/-- The tree of the command that lists entries. -/
def listTree : Tree Unit Unit := (Growth.register listing.declaration).after (empty {})

theorem sole_listTree : listTree.Sole listing where
  populated := by
    unfold listTree
    exact .register_after (.empty {} (by decide)) (by decide +kernel)
  commands_eq := rfl
  listed := rfl
  opened := { command := fun _ => rfl
              parameter := fun p hp _ => by rcases List.mem_pair.mp hp with rfl | rfl <;> rfl }
  builtin p hp := by rcases List.mem_pair.mp hp with rfl | rfl <;> exact ⟨_, rfl⟩

theorem optional_listing : listing.Optional where
  plain p hp := by
    have hp : Step.parameter p ∈ [Step.literal "all"] := hp
    simp at hp
  optional p hp := by rcases List.mem_pair.mp hp with rfl | rfl <;> rfl
  longName p hp := by rcases List.mem_pair.mp hp with rfl | rfl <;> decide
  shorthand p hp ch hch := by
    have hch : ch = 'l' ∨ ch = 'v' := by
      rcases List.mem_pair.mp hp with rfl | rfl
      · exact .inl (Option.some.inj hch).symm
      · exact .inr (Option.some.inj hch).symm
    rcases hch with rfl | rfl <;> exact .of_isAlpha (by decide)

theorem readable_listing : listing.Readable := by
  intro p hp text htext ctx
  rcases List.mem_pair.mp hp with rfl | rfl
  · obtain rfl := Option.some.inj htext
    have hparse : (BuiltinType.integer none none).parse (.ofString "20") =
        (.ok (.integer 20), ⟨['0', '2'], []⟩) := by decide +kernel
    exact ⟨_, _, hparse⟩
  · cases htext

/-- Behind a switch the flag is offered, whose value is missing then. -/
theorem suggestion_taken_listTree :
    listTree.Sole listing ∧ listTree.settings.Dashed ∧ listing.Optional ∧
      listing.flags.length ≤ listTree.settings.threshold ∧ listing.Readable ∧
      (Cursor.ofString "list all -v ").EndsBlank ∧
      ∃ r, listTree.parse () "list all -v " = .ok r ∧
        "-l" ∈ listTree.complete () "list all -v " ∧
        ((∃ r', listTree.parse () ("list all -v " ++ "-l") = .ok r') ∨
          ∃ p ∈ listing.flags, p.isSwitch = false ∧ p.SpelledBy listTree.settings "-l" ∧
            listTree.parse () ("list all -v " ++ "-l") = .error ⟨.missingArgument p.name,
              ("list all -v " ++ "-l").utf8ByteSize, some p.name⟩) := by
  have hends : (Cursor.ofString "list all -v ").EndsBlank := by decide
  have hparse : ∃ r, listTree.parse () "list all -v " = .ok r ∧ r.command.id = 0 := by
    decide +kernel
  obtain ⟨r, hr, -⟩ := hparse
  have hoffered : "-l" ∈ listTree.complete () "list all -v " := by decide +kernel
  exact ⟨sole_listTree, ⟨rfl, rfl⟩, optional_listing, by decide, readable_listing, hends, r, hr,
    hoffered, suggestion_taken sole_listTree ⟨rfl, rfl⟩ optional_listing (by decide)
      readable_listing () hends hr hoffered⟩

end Tree

end CommandLine
