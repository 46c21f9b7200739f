import CommandLine.Proofs.OneChain
import CommandLine.Proofs.Search.Abreast

/-!
# Offering the flags that would be taken

Completion and dispatch walk along a line independently. On a tree of one command they agree about
the next flag: if a line goes on with a flag that an accepted reading takes, then completion at that
place offers the flag. Completion stops at the first argument that the line does not give, though an
optional one may be left out, and it takes a word that could be a value for the value. So the
reading has to give every argument before the flag.

* `taken_flag_offered` — when a flag that is taken is offered;
* `taken_flag_not_offered` — flags behind an argument that is left out, and in place of one.
-/

set_option autoImplicit false

namespace CommandLine

open Text

variable {α σ : Type}

/-- The start of a line that goes on. -/
theorem Tree.cursor_start (principal : α) {typed : String} (text : String)
    (htyped : StartsWord typed.toList) :
    (start principal (typed ++ text)).cursor =
      (Cursor.ofString typed).followedBy text.toList := by
  obtain ⟨ch, rest, htyped, hch⟩ := htyped
  simp [start, Cursor.ofString, Cursor.skipBlank, Cursor.skipWhile, Cursor.followedBy, htyped,
    hch]

namespace Command

variable {c : Command α σ} {k : Nat}

/-- A line has given every argument of a command, and of its flags only switches. -/
structure Advanced (c : Command α σ) (given : List (Given α)) : Prop where
  arguments : ∀ p, .parameter p ∈ c.path → ∃ g ∈ given, g.parameter = p
  switches : ∀ g ∈ given, g.parameter.isNamed = true → g.parameter.isSwitch = true

/-- No argument is left out behind which a flag section begins if all are on the way. -/
theorem Grafts.take_eq (hk : c.Grafts k) (hs : c.Sound) {flags : List (Parameter α)}
    (hflags : flags ⊆ c.flags)
    (h : ∀ p, .parameter p ∈ c.path → .parameter p ∈ c.positionals.take k ++ flags.map .parameter) :
    c.positionals.take k = c.positionals := by
  have hsplit := List.take_append_drop k c.positionals
  have hnodup : ((Step.parameters (c.positionals.take k ++ c.positionals.drop k)).map
      Parameter.name).Nodup := by
    have hnames := hs.names_nodup
    rw [show c.parameters = Step.parameters (c.positionals ++ c.flags.map .parameter) from rfl,
      Step.parameters_append, List.map_append] at hnames
    rw [hsplit]
    exact (List.nodup_append.mp hnames).1
  rw [Step.parameters_append, List.map_append, List.nodup_append] at hnodup
  -- A parameter behind the graft point would have to be walked, but it is neither before it nor a
  -- flag.
  suffices hnone : c.positionals.drop k = [] by rw [hnone, List.append_nil] at hsplit; exact hsplit
  rw [List.eq_nil_iff_forall_not_mem]
  intro step hstep
  cases step with
  | literal w => simpa [Step.isOptional] using hk.rest _ hstep
  | parameter p =>
    have hpath : .parameter p ∈ c.path := by
      simpa [positionals] using List.mem_of_mem_drop hstep
    rcases List.mem_append.mp (h p hpath) with hp | hp
    · exact hnodup.2.2 _ (List.mem_map_of_mem (Step.mem_parameters.mpr hp)) _
        (List.mem_map_of_mem (Step.mem_parameters.mpr hstep)) rfl
    · obtain ⟨q, hq, heq⟩ := List.mem_map.mp hp
      obtain rfl := Step.parameter.inj heq
      have hnamed := hs.named q (hflags hq)
      rw [hs.unnamed q hpath] at hnamed
      cases hnamed

/-- A command that has a flag offers what follows its words and arguments. -/
theorem complete_eq_suggestSteps (s : Settings) (principal : α) (line : String) (hopen : c.Open)
    {f : Parameter α} (hf : f ∈ c.flags) : c.complete s principal line =
      suggestSteps s c.positionals c.flags (.ofString line) (.ofLine principal line) false := by
  have hflags : c.flags.filter (fun p => p.permission.allows principal) = c.flags := by
    rw [List.filter_eq_self]
    exact fun p hp => hopen.parameter p (mem_parameters.mpr (.inr hp)) principal
  have hsome : c.flags.isEmpty = false := List.isEmpty_eq_false_iff_exists_mem.mpr ⟨f, hf⟩
  rw [complete, suggestSteps]
  cases followSteps (.ofString line) (.ofLine principal line) c.positionals with
  | halted => rfl
  | ready c ctx => simp only [hflags, hsome, Bool.false_eq_true, if_false]

/-- Completion starts abreast of a reading. -/
theorem Abreast.start {s : Settings} (hs : c.Sound) (principal : α) {typed text : String}
    (htyped : StartsWord typed.toList) (hends : (Cursor.ofString typed).EndsBlank)
    {flags : List (Parameter α)} (hpending : c.Pending flags c.flags) :
    c.Abreast s text.toList
      (suggestSteps s c.positionals c.flags (.ofString typed) (.ofLine principal typed) false)
      (Tree.start principal (typed ++ text)) (c.positionals ++ flags.map .parameter) :=
  .between rfl (Tree.cursor_start principal text htyped) hends
    (fun _ => hs.isFlag_of_mem_positionals) hpending rfl rfl

end Command

namespace Tree

/-- The only command of a tree: everyone may use it, completion may offer it, and its types are
built-in ones. -/
structure Sole (t : Tree α σ) (c : Command α σ) : Prop where
  populated : t.Populated
  commands_eq : t.commands = #[c]
  listed : c.secret = false
  opened : c.Open
  builtin : ∀ p ∈ c.parameters, ∃ b : BuiltinType, p.type = b.toValueType

/-- Between two visits a flag is read with its value, and the flag goes by its long name. -/
structure ReadsValue (t : Tree α σ) (u : Visit α) (p : Parameter α) (v : Visit α) : Prop where
  valued : p.isSwitch = false
  turn : .flag ∈ t.turns u
  spelled : t.settings.flagSpelling? u.cursor.word = some (.long p.longName)
  moves : ∃ g, g.parameter = p ∧ t.Moves u .flag (some g) v

/-- A line that starts with `typed` goes on with the flag `f`: on an accepted reading of the line,
all arguments and some switches are read first, then perhaps another flag with its value, and then,
where `text` begins, the flag. -/
def FlagTaken (t : Tree α σ) (c : Command α σ) (principal : α) (typed text : String)
    (f : Parameter α) : Prop :=
  ∃ (given later : List (Given α)) (u v w : Visit α) (g : Given α) (a : Arrival α σ),
    t.Reads (start principal (typed ++ text)) given u ∧ c.Advanced given ∧
    (u = v ∨ ∃ p, t.ReadsValue u p v) ∧ v.cursor.rest = text.toList ∧
    .flag ∈ t.turns v ∧ t.Moves v .flag (some g) w ∧ g.parameter = f ∧ t.Accepts w later a

variable {t : Tree α σ} {c : Command α σ} {u v w : Visit α}

/-- The tree of one command has a chart on which no other command is known. -/
theorem Sole.exists_chart (h : t.Sole c) : c.Built ∧ Nonempty (Chart (· = c) t) := by
  obtain ⟨hc, hchart, -⟩ := h.populated.exists_chart h.commands_eq
  exact ⟨hc, hchart⟩

/-- A route into an end of the only command that passes every argument passes all its words and
arguments, and then some of its flags. -/
theorem Chart.exists_pending (m : Chart (· = c) t) (hs : c.Sound) {steps : List (Step α)}
    {i : NodeIndex} (hroute : t.Route root steps i) (hcommand : (t.node i).command.isSome = true)
    (harguments : ∀ p, .parameter p ∈ c.path → .parameter p ∈ steps) :
    ∃ flags, steps = c.positionals ++ flags.map .parameter ∧ c.Pending flags c.flags := by
  obtain ⟨c', hc'⟩ := Option.isSome_iff_exists.mp hcommand
  obtain rfl := m.known_of_command hc'
  obtain ⟨k, flags, hk, hallows, rfl⟩ := m.exists_steps_of_bound hs hroute hc'
  exact ⟨flags, by rw [hk.take_eq hs hallows.subset harguments],
    (hallows.nodup_map hs.longNames_nodup).of_map, hallows.subset, List.Subset.refl _⟩

/-- A flag's turn passes a flag that the word spells. -/
theorem Moves.exists_spells {g : Given α} (h : t.Moves v .flag (some g) w) :
    ∃ child cursor attached, t.Spells v .flag child g.parameter cursor attached := by
  cases h with
  | switch h | bundle h | value h => exact ⟨_, _, _, h⟩

/-- It is a flag of the only command. -/
theorem Moves.mem_flags {g : Given α} (h : t.Moves v .flag (some g) w) (m : Chart (· = c) t)
    (hs : c.Sound) (hv : v.node < t.nodes.size) :
    g.parameter ∈ c.flags ∧ g.parameter.isNamed = true := by
  obtain ⟨_, _, _, hspells⟩ := h.exists_spells
  have hnamed := (m.leads_of_mem_flagsOf hv hspells.mem_flagsOf).1
  obtain ⟨_, rfl, hp⟩ := m.exists_command_of_edge hv (.of_flag hspells.mem_flagsOf)
  exact ⟨hs.mem_flags hp hnamed, hnamed⟩

/-- Where a flag is read, a word starts. -/
theorem Moves.startsWord {g : Given α} (h : t.Moves v .flag (some g) w) :
    StartsWord v.cursor.rest := by
  obtain ⟨_, _, _, hspells⟩ := h.exists_spells
  cases hspells with
  | long hspelling | short hspelling =>
    exact Cursor.startsWord_of_atBreak_eq_false
      (Settings.atBreak_eq_false_of_flagSpelling? hspelling)

/-- Reading a value is walking over its parameter. -/
theorem ReadsValue.walks {p : Parameter α} (h : t.ReadsValue u p v) :
    t.Walks u [.parameter p] v := by
  obtain ⟨g, rfl, hmove⟩ := h.moves
  exact .step h.turn hmove (.refl v)

/-- A flag with its value keeps completion abreast at the end of its line. -/
theorem ReadsValue.abreast {p : Parameter α} (h : t.ReadsValue u p v) (m : Chart (· = c) t)
    (hc : c.Built) (hopen : c.Open)
    (hbuiltin : ∀ p ∈ c.parameters, ∃ b : BuiltinType, p.type = b.toValueType)
    (hu : u.node < t.nodes.size) (htail : StartsWord v.cursor.rest) {suggestions : List String}
    {ahead : List (Step α)}
    (habreast : c.Abreast t.settings v.cursor.rest suggestions u (.parameter p :: ahead)) :
    c.Abreast t.settings v.cursor.rest suggestions v ahead := by
  obtain ⟨g, rfl, hmove⟩ := h.moves
  have hrest : v.left < u.left :=
    left_lt_of_attempt h.turn (attempt_eq_enter_iff.mpr ⟨_, hmove⟩)
  cases hmove with
  | switch _ hswitch | bundle _ hswitch =>
    have hvalued := h.valued
    rw [hswitch] at hvalued
    cases hvalued
  | value hspells hvalued _ hd _ hparse hbreak =>
    have hspelled := h.spelled
    have hchild := hspells.mem_flagsOf
    obtain ⟨_, rfl, hp⟩ := m.exists_command_of_edge hu (.of_flag hchild)
    obtain ⟨b, hb⟩ := hbuiltin _ hp
    cases hspells with
    | short hshort =>
      rw [hshort] at hspelled
      cases hspelled
    | long =>
      rw [if_neg (by simp)] at hd
      rw [hd] at hparse
      exact habreast.value hc htail hrest hb (hopen.parameter _ hp)
        (m.leads_of_mem_flagsOf hu hchild).1 hvalued h.turn hspelled hparse hbreak rfl

/-- **Flags that would be taken are offered.** On a tree with one command, which is open, not secret
and of built-in types, let a line start with a text that begins with a word and ends with a blank.
If the line goes on with a flag that an accepted reading takes there, after all arguments were
given, then completion of the text offers the flag, under its long name or its shorthand. -/
theorem taken_flag_offered (h : t.Sole c) (principal : α) {typed text : String}
    (htyped : StartsWord typed.toList) (hends : (Cursor.ofString typed).EndsBlank)
    {f : Parameter α} (htaken : t.FlagTaken c principal typed text f) :
    t.settings.longPrefix ++ f.longName ∈ t.complete principal typed ∨
      ∃ ch, f.shorthand? = some ch ∧
        t.settings.shortPrefix ++ ch.toString ∈ t.complete principal typed := by
  obtain ⟨hc, ⟨m⟩⟩ := h.exists_chart
  have hs := hc.sound
  obtain ⟨given, later, u, v, w, g, a, hreads, hadvanced, huv, hv, hturn, hmove, rfl, haccepts⟩ :=
    htaken
  obtain ⟨z, hlater, _, _, hcommand, _⟩ := haccepts.accepted
  obtain ⟨steps, hwalks, hsteps⟩ := hreads.exists_walks
  obtain ⟨last, hlast, _⟩ := hlater.exists_walks
  have htail : StartsWord text.toList := hv ▸ hmove.startsWord
  obtain ⟨taken, htaken, _⟩ : u.cursor.Reaches v.cursor := by
    rcases huv with rfl | ⟨p, hvalue⟩
    · exact .refl _
    · exact hvalue.walks.reached
  rw [hv] at htaken
  have hplain (p : Parameter α) (hp : .parameter p ∈ steps) (hnamed : p.isNamed = true) :
      p.isSwitch = true := by
    have hmem : p ∈ given.map Given.parameter := hsteps ▸ Step.mem_parameters.mpr hp
    obtain ⟨g', hg', rfl⟩ := List.mem_map.mp hmem
    exact hadvanced.switches g' hg' hnamed
  have hvalue : ∃ valued, t.Walks u valued v ∧ ∀ suggestions ahead,
      c.Abreast t.settings text.toList suggestions u (valued ++ ahead) →
        c.Abreast t.settings text.toList suggestions v ahead := by
    rcases huv with rfl | ⟨p, hvalue⟩
    · exact ⟨[], .refl u, fun _ _ habreast => habreast⟩
    · refine ⟨_, hvalue.walks, fun suggestions ahead habreast => ?_⟩
      have hu := (m.way_of_route hwalks.route).1
      rw [← hv] at habreast htail ⊢
      exact hvalue.abreast m hc h.opened h.builtin hu htail habreast
  obtain ⟨valued, hvalued, hkeep⟩ := hvalue
  -- The steps of the whole reading are those that completion expects.
  have hall := hwalks.append (hvalued.append (.step hturn hmove hlast))
  obtain ⟨flags, hflags, hpending⟩ := m.exists_pending hs hall.route (by rw [hcommand]; rfl) (by
    intro p hp
    obtain ⟨g', hg', rfl⟩ := hadvanced.arguments p hp
    have hmem : g'.parameter ∈ Step.parameters steps := hsteps ▸ List.mem_map_of_mem hg'
    exact List.mem_append_left _ (Step.mem_parameters.mp hmem))
  have hstart : c.Abreast t.settings text.toList _ (start principal (typed ++ text)) _ :=
    .start hs principal htyped hends hpending
  rw [← hflags] at hstart
  have hv' := hkeep _ _ (hstart.walks m hc h.opened h.builtin htail hwalks m.size_pos hplain htaken)
  obtain ⟨hf, hnamed⟩ :=
    hmove.mem_flags m hs (m.way_of_route (hwalks.append hvalued).route).1
  have hoffered := hv'.mem_suggestions hnamed hturn hv
  rw [← c.complete_eq_suggestSteps _ principal typed h.opened hf] at hoffered
  -- The command takes part, since its name is the first word.
  rw [hflags] at hall
  have hne : (Cursor.ofString typed).rest ≠ [] := htyped.ne_nil
  have hword : (Cursor.ofString typed).word = c.name := by
    rw [← hends.word_followedBy hne, ← cursor_start principal text htyped]
    exact hall.word_eq
  have hpart : c.completable principal (Cursor.ofString typed).word = true := by
    simp [Command.completable, h.listed, hword, startsWithIgnoringCase, h.opened.command principal]
  have hcomplete {x : String} (hx : x ∈ c.complete t.settings principal typed) :
      x ∈ t.complete principal typed := by
    refine mem_complete_iff.mpr ⟨fun hempty => hne (by rw [hempty]; rfl), c, ?_, hpart, hx⟩
    simp [h.commands_eq]
  exact hoffered.imp hcomplete fun ⟨ch, hch, hmem⟩ => ⟨ch, hch, hcomplete hmem⟩

/-- A command that shows some lines of a log, 20 by default. -/
def showing : Command Unit Unit := declaration.command 0 "log"
where
  declaration : Declaration Unit Unit :=
    { name := "log", steps := [.parameter lines, .parameter follow, .parameter verbose] }
  lines : Parameter Unit := Parameter.withDefault (.ofBuiltin "lines" (.integer none none)) "20"
  follow : Parameter Unit := .switch "follow"
  verbose : Parameter Unit := .switch "verbose"

/-- A command that says any word. -/
def saying : Command Unit Unit := declaration.command 0 "say"
where
  declaration : Declaration Unit Unit :=
    { name := "say", steps := [.parameter text, .parameter loud] }
  text : Parameter Unit := .ofBuiltin "text" (.word none none)
  loud : Parameter Unit := .switch "loud"

/-- The tree of the command that shows lines. -/
def logTree : Tree Unit Unit := (Growth.register showing.declaration).after (empty {})

/-- The tree of the command that says a word. -/
def wordTree : Tree Unit Unit := (Growth.register saying.declaration).after (empty {})

/-- No permission is asked for, and flags go by their own names, which are words. -/
structure Unguarded (c : Command Unit Unit) : Prop where
  command : c.permission = .always
  parameter : ∀ p ∈ c.parameters, p.permission = .always
  flag : ∀ p ∈ c.flags, p.longName = p.name ∧ IsWord p.name

/-- A command that guards nothing is open. -/
theorem Unguarded.opened {c : Command Unit Unit} (h : Unguarded c) : c.Open where
  command principal := by rw [h.command]; rfl
  parameter p hp principal := by rw [h.parameter p hp]; rfl

theorem unguarded_showing : Unguarded showing where
  command := rfl
  parameter p hp := by
    have hp : p ∈ [showing.lines, showing.follow, showing.verbose] := hp
    simp only [List.mem_cons, List.not_mem_nil, or_false] at hp
    rcases hp with rfl | rfl | rfl <;> rfl
  flag p hp := by
    rcases List.mem_pair.mp hp with rfl | rfl <;> exact ⟨rfl, by decide⟩

theorem unguarded_saying : Unguarded saying where
  command := rfl
  parameter p hp := by rcases List.mem_pair.mp hp with rfl | rfl <;> rfl
  flag p hp := by
    obtain rfl := List.mem_singleton.mp hp
    exact ⟨rfl, by decide⟩

/-- No other command is in the tree of the first one. -/
theorem sole_logTree : logTree.Sole showing where
  populated := by
    unfold logTree
    exact .register_after (.empty {} (by decide)) (by decide +kernel)
  commands_eq := rfl
  listed := rfl
  opened := unguarded_showing.opened
  builtin p hp := by
    have hp : p ∈ [showing.lines, showing.follow, showing.verbose] := hp
    simp only [List.mem_cons, List.not_mem_nil, or_false] at hp
    rcases hp with rfl | rfl | rfl <;> exact ⟨_, rfl⟩

theorem sole_wordTree : wordTree.Sole saying where
  populated := by
    unfold wordTree
    exact .register_after (.empty {} (by decide)) (by decide +kernel)
  commands_eq := rfl
  listed := rfl
  opened := unguarded_saying.opened
  builtin p hp := by rcases List.mem_pair.mp hp with rfl | rfl <;> exact ⟨_, rfl⟩

/-- A line that goes on with the long spelling of a flag resolves, but the flag is not offered. -/
def Unoffered (t : Tree Unit Unit) (c : Command Unit Unit) (typed : String) : Prop :=
  StartsWord typed.toList ∧ (Cursor.ofString typed).EndsBlank ∧ ∃ f ∈ c.flags,
    (∃ r, t.parse () (typed ++ (t.settings.longPrefix ++ f.longName)) = .ok r) ∧
    t.settings.longPrefix ++ f.longName ∉ t.complete () typed ∧
    ∀ ch, f.shorthand? = some ch → t.settings.shortPrefix ++ ch.toString ∉ t.complete () typed

/-- Completion does not offer a flag behind an argument that is left out, nor one whose spelling is
a value for the next argument. -/
theorem taken_flag_not_offered :
    (logTree.settings = {} ∧ logTree.Sole showing ∧ Unguarded showing ∧
      logTree.Unoffered showing "log ") ∧
    wordTree.settings = {} ∧ wordTree.Sole saying ∧ Unguarded saying ∧
      wordTree.Unoffered saying "say " := by
  have hlog : logTree.complete () "log " = [] := by decide +kernel
  have hword : wordTree.complete () "say " = [] := by decide +kernel
  refine ⟨⟨rfl, sole_logTree, unguarded_showing, ⟨'l', _, rfl, rfl⟩, by decide, showing.follow,
    List.mem_cons_self, ?_, ?_, ?_⟩, rfl, sole_wordTree, unguarded_saying, ⟨'s', _, rfl, rfl⟩,
    by decide, saying.loud, List.mem_cons_self, ?_, ?_, ?_⟩
  · have hparse : ∃ r, logTree.parse () "log --follow" = .ok r ∧ r.command.id = 0 := by
      decide +kernel
    exact hparse.imp fun _ h => h.1
  · simp [hlog]
  · simp [hlog]
  · have hparse : ∃ r, wordTree.parse () "say --loud" = .ok r ∧ r.command.id = 0 := by
      decide +kernel
    exact hparse.imp fun _ h => h.1
  · simp [hword]
  · simp [hword]

/-- A switch is taken behind an argument and the shorthand of another switch. -/
theorem flagTaken_logTree :
    logTree.FlagTaken showing () "log 5 -v " "--follow" showing.follow := by
  -- In front of the line, the number, the shorthand and the long name, and at the end of the line.
  let v₀ : Visit Unit := start () ("log 5 -v " ++ "--follow")
  let v₁ : Visit Unit := ⟨1, v₀.cursor.skipWord.skipBlank, v₀.context, false⟩
  let v₂ : Visit Unit :=
    ⟨6, v₁.cursor.skipWord.skipBlank, v₁.context.bind "lines" (.integer 5), false⟩
  let c : Cursor := v₂.cursor.advance 1
  let v₃ : Visit Unit :=
    ⟨9, (c.advance 1).skipBlank, v₂.context.bind "verbose" (.truth true), false⟩
  let v₄ : Visit Unit :=
    ⟨10, v₃.cursor.skipWord.skipBlank, v₃.context.bind "follow" (.truth true), false⟩
  have hword : logTree.Moves v₀ .literal none v₁ :=
    .literal (by decide +kernel) rfl (by decide +kernel)
  have hlines : logTree.Moves v₁ (.argument 6 showing.lines)
      (some ⟨showing.lines, .integer 5, v₁.context, v₁.cursor⟩) v₂ := by
    have hparse : showing.lines.type.parse v₁.context v₁.cursor =
        (.ok (.integer 5), v₁.cursor.skipWord) := by decide +kernel
    exact .argument rfl hparse (by decide +kernel)
  have hverbose : logTree.Moves v₂ .flag
      (some ⟨showing.verbose, .truth true, v₂.context, c.advance 1⟩) v₃ := by
    have hbreak : (c.advance 1).atBreak = true := by decide +kernel
    have hrest : c.rest = 'v' :: (c.advance 1).rest := by decide +kernel
    have hspells : logTree.Spells v₂ .flag 9 showing.verbose (c.advance 1)
        (!(c.advance 1).atBreak) := .short (by decide +kernel) rfl hrest rfl
    rw [hbreak] at hspells
    exact .switch hspells rfl rfl hbreak
  have hfollow : logTree.Moves v₃ .flag
      (some ⟨showing.follow, .truth true, v₃.context, v₃.cursor.skipWord⟩) v₄ := by
    have hspelling : logTree.settings.flagSpelling? v₃.cursor.word = some (.long "follow") := by
      decide +kernel
    exact .switch (.long hspelling rfl) rfl rfl (by decide +kernel)
  have hturns₀ : .literal ∈ logTree.turns v₀ := by
    rw [turns_eq rfl (by decide +kernel)]
    exact List.mem_cons_self
  have hturns₁ : .argument 6 showing.lines ∈ logTree.turns v₁ := by
    have harguments : logTree.argumentsOf v₁.node = [(6, showing.lines)] := rfl
    rw [turns_eq rfl (by decide +kernel), harguments]
    simp
  have hturns₂ : .flag ∈ logTree.turns v₂ := by
    rw [turns_eq rfl (by decide +kernel)]
    simp
  have hturns₃ : .flag ∈ logTree.turns v₃ := by
    rw [turns_eq rfl (by decide +kernel)]
    simp
  have hreads : logTree.Reads v₀ [⟨showing.lines, .integer 5, v₁.context, v₁.cursor⟩,
      ⟨showing.verbose, .truth true, v₂.context, c.advance 1⟩] v₃ :=
    .step hturns₀ hword (.step hturns₁ hlines (.step hturns₂ hverbose (.refl v₃)))
  have hadvanced : showing.Advanced [⟨showing.lines, .integer 5, v₁.context, v₁.cursor⟩,
      ⟨showing.verbose, .truth true, v₂.context, c.advance 1⟩] := by
    constructor
    · intro p hp
      obtain rfl := Step.parameter.inj (List.mem_singleton.mp hp)
      exact ⟨_, List.mem_cons_self, rfl⟩
    · intro g hg hnamed
      rcases List.mem_pair.mp hg with rfl | rfl
      · cases hnamed
      · rfl
  have haccepts : logTree.Accepts v₄ [] ⟨showing, v₄.cursor, v₄.context⟩ :=
    ⟨⟨v₄, .refl v₄, rfl, by decide +kernel, rfl, rfl⟩, rfl⟩
  exact ⟨_, [], v₃, v₃, v₄, _, _, hreads, hadvanced, .inl rfl, by decide +kernel, hturns₃, hfollow,
    rfl, haccepts⟩

/-- The other switch is offered under its shorthand then. -/
theorem taken_flag_offered_logTree :
    logTree.Sole showing ∧ StartsWord "log 5 -v ".toList ∧
      (Cursor.ofString "log 5 -v ").EndsBlank ∧
      logTree.FlagTaken showing () "log 5 -v " "--follow" showing.follow ∧
      (logTree.settings.longPrefix ++ showing.follow.longName ∈ logTree.complete () "log 5 -v " ∨
        ∃ ch, showing.follow.shorthand? = some ch ∧
          logTree.settings.shortPrefix ++ ch.toString ∈ logTree.complete () "log 5 -v ") := by
  have htyped : StartsWord "log 5 -v ".toList := ⟨'l', _, rfl, rfl⟩
  have hends : (Cursor.ofString "log 5 -v ").EndsBlank := by decide
  exact ⟨sole_logTree, htyped, hends, flagTaken_logTree,
    taken_flag_offered sole_logTree () htyped hends flagTaken_logTree⟩

end Tree

end CommandLine
