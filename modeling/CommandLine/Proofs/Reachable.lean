import CommandLine.Proofs.SharedNodes
import CommandLine.Proofs.Search.Followed
import CommandLine.Proofs.Search.Resolved

/-!
# Reaching every command

A line that writes a command out in full, every word and argument and then every required flag, is
read along the path on which the command was inserted. Its texts are read by the parameters that
made the nodes of that path, which need not be the command's own, and a value that takes the rest of
the line takes whatever the line goes on with. Where these parameters take the texts, and nothing
has to be given behind a value that takes the rest of the line, the line resolves to some command.

* `fullLine_accepted` — when the full line of a command is accepted;
* `fullLine_rejected` — a shared argument with other bounds, and a flag behind the rest of the line.
-/

set_option autoImplicit false

namespace CommandLine

open Text

variable {α σ : Type}

namespace Command

variable {c : Command α σ}

/-- Every word and argument of a command, and then every flag that it requires. -/
def full (c : Command α σ) : List (Step α) :=
  c.positionals ++ (Parameter.required c.flags).map .parameter

/-- The line that writes a command out in full. -/
def fullLine (c : Command α σ) (s : Settings) (text : Parameter α → String) : String :=
  " ".intercalate (c.full.flatMap (Step.words s text))

/-- Behind a value that takes the rest of the line nothing has to be given. -/
def GreedyLast (c : Command α σ) : Prop :=
  ∀ before step after, c.full = before ++ step :: after → step.isGreedy = true →
    ∀ s ∈ after, s.isOptional = true

/-- A start of the full steps behind which nothing has to be given ends where a flag section that
is empty may begin, or it is all of them. -/
theorem exists_grafts_of_full_eq {front back : List (Step α)} (hfull : c.full = front ++ back)
    (hfront : front ≠ []) (hback : ∀ s ∈ back, s.isOptional = true) :
    ∃ k, c.Grafts k ∧
      front = c.positionals.take k ++ (Parameter.required c.flags).map .parameter := by
  have hrequired {s : Step α} (hs : s ∈ (Parameter.required c.flags).map Step.parameter) :
      s.isOptional = false := by
    obtain ⟨p, hp, rfl⟩ := List.mem_map.mp hs
    exact (Parameter.mem_required.mp hp).2
  have hnone {steps : List (Step α)}
      (hsteps : ∀ s ∈ steps, s.isOptional = true ∧ s.isOptional = false) : steps = [] := by
    rw [List.eq_nil_iff_forall_not_mem]
    intro s hs
    obtain ⟨htrue, hfalse⟩ := hsteps s hs
    rw [htrue] at hfalse
    cases hfalse
  rcases List.append_eq_append_iff.mp hfull with ⟨flags, rfl, hflags⟩ | ⟨late, hplaces, rfl⟩
  · -- The start goes into the flags, of which none is left.
    obtain rfl : back = [] := hnone fun s hs =>
      ⟨hback s hs, hrequired (hflags ▸ List.mem_append_right _ hs)⟩
    refine ⟨c.positionals.length, c.grafts_length, ?_⟩
    rw [List.take_length, hflags, List.append_nil]
  · -- Only optional arguments are left, and no flag is required.
    have hnoflags : (Parameter.required c.flags).map Step.parameter = [] := hnone fun s hs =>
      ⟨hback s (List.mem_append_right _ hs), hrequired hs⟩
    refine ⟨front.length, ⟨List.length_pos_iff.mpr hfront, ?_, ?_⟩, ?_⟩
    · rw [hplaces, List.length_append]
      exact Nat.le_add_right ..
    · rw [hplaces, List.drop_left]
      exact fun s hs => hback s (List.mem_append_left _ hs)
    · rw [hplaces, List.take_left, hnoflags, List.append_nil]

end Command

namespace Tree

variable {t : Tree α σ} {c : Command α σ} {j : NodeIndex}

/-- Everyone may use everything in the tree, all types are built-in ones, and every default can be
read. -/
structure Plain (t : Tree α σ) : Prop where
  builtin : t.BuiltinOnly
  opened : ∀ c ∈ t.commands, c.Open
  defaults : ∀ c ∈ t.commands, ∀ p ∈ c.parameters, ∀ text, p.default = some text → ∀ ctx,
    ∃ value after, p.type.parse ctx (.ofString text) = (.ok value, after)

/-- Commands for everyone, whose parameters are built in, open and without defaults, make a plain
tree. -/
theorem Plain.of_parameters (hcommands : ∀ c ∈ t.commands, c.permission = .always)
    (hparameters : ∀ c ∈ t.commands, ∀ p ∈ c.parameters,
      (∃ b : BuiltinType, p.type = b.toValueType) ∧ p.permission = .always ∧ p.default = none) :
    t.Plain where
  builtin c hc p hp := (hparameters c hc p hp).1
  opened c hc :=
    { command := fun _ => by rw [hcommands c hc]; rfl
      parameter := fun p hp _ => by rw [(hparameters c hc p hp).2.1]; rfl }
  defaults c hc p hp text htext := by
    rw [(hparameters c hc p hp).2.2] at htext
    cases htext

namespace Chart

variable {known : Command α σ → Prop}

/-- Lines may end behind a start of the full steps of a command after which nothing has to be
given. -/
theorem isSome_command_of_full (m : Chart known t) (hlaid : ∀ k, c.Grafts k → t.Laid c k)
    {stand front back : List (Step α)} (hroute : t.Route root stand j)
    (hfits : List.Forall₂ Step.Fits stand front) (hfull : c.full = front ++ back)
    (hfront : front ≠ []) (hback : ∀ s ∈ back, s.isOptional = true) :
    (t.node j).command.isSome = true := by
  obtain ⟨k, hk, rfl⟩ := Command.exists_grafts_of_full_eq hfull hfront hback
  obtain ⟨i, ⟨steps, hroute', hfits'⟩, hcommand⟩ := (hlaid k hk).required
  obtain rfl := m.route_unique m.size_pos hroute' hroute (Step.forall₂_fits_trans hfits' hfits)
  exact hcommand

/-- The full line of a command is accepted at a node on the path of the command. -/
theorem exists_accepts_full (m : Chart known t) (hlaid : ∀ k, c.Grafts k → t.Laid c k)
    (hgreedy : c.GreedyLast) {stand : List (Step α)} (hroute : t.Route root stand j)
    (hcommand : (t.node j).command.isSome = true) (hopen : ∀ c, known c → c.Open)
    (hbuiltin : ∀ c, known c → ∀ p ∈ c.parameters, ∃ b : BuiltinType, p.type = b.toValueType)
    (hdashes : ∀ ch ∈ t.settings.longPrefix.toList, isBlank ch = false)
    {text : Parameter α → String} (htakes : List.Forall₂ (Step.Takes text) stand c.full)
    (principal : α) :
    ∃ given a, t.Accepts (start principal (c.fullLine t.settings text)) given a := by
  have hgreedy_eq {s step : Step α} (htake : s.Takes text step) : s.isGreedy = step.isGreedy :=
    Step.isGreedy_eq_of_fits htake.fits
  have hne : c.full ≠ [] := by simp [Command.full, Command.positionals]
  cases hfind : c.full.find? Step.isGreedy with
  | none =>
    rw [List.find?_eq_none] at hfind
    obtain ⟨c', hc'⟩ := Option.isSome_iff_exists.mp hcommand
    obtain ⟨given, a, haccepts, _⟩ := m.exists_accepts hroute hopen hbuiltin hdashes htakes hne
      (fun s hs => by
        obtain ⟨step, hstep, htake⟩ := (exists_of_mem_forall₂ htakes).1 s hs
        rw [hgreedy_eq htake]
        simpa using hfind step hstep) hc' principal
    exact ⟨given, a, haccepts⟩
  | some step =>
    -- The first value that takes the rest of the line ends the reading.
    obtain ⟨hstep, before, after, hfull, hbefore⟩ := List.find?_eq_some_iff_append.mp hfind
    have hlast := hgreedy before step after hfull hstep
    have hwords := Step.isWord_of_takes htakes hdashes
    have hstart : (start principal (c.fullLine t.settings text)).Faces root
        (c.full.flatMap (Step.words t.settings text)) :=
      .of_start principal (Step.flatMap_words_ne_nil hne) hwords
    rw [hfull] at htakes hwords hstart
    obtain ⟨front, back, rfl, hfronts, hback⟩ := exists_append_of_forall₂ htakes
    cases hback with
    | @cons s _ back _ htake hback =>
      obtain ⟨l, hfront, i, hedge, _⟩ := exists_route_append hroute
      obtain ⟨hl, _⟩ := m.way_of_route hfront
      rw [List.flatMap_append, List.flatMap_cons] at hwords hstart
      obtain ⟨given, v, hreads, hv, _⟩ := m.exists_reads m.size_pos hfront hopen hbuiltin
        hdashes hfronts (fun w hw => hwords w (List.mem_append_right _ hw)) (fun s hs => by
          obtain ⟨step, hstep, htake⟩ := (exists_of_mem_forall₂ hfronts).1 s hs
          rw [hgreedy_eq htake]
          simpa using hbefore step hstep) hstart
      obtain ⟨later, u, hreads', hu, _⟩ := m.exists_reads_step hl hedge hopen hbuiltin hdashes
        htake (fun w hw => hwords w (List.mem_append_right _ (List.mem_append_right _ hw))) hv
      rw [hgreedy_eq htake, hstep, if_pos rfl] at hu
      have hfits : List.Forall₂ Step.Fits (front ++ [s]) (before ++ [step]) :=
        List.rel_append (hfronts.imp fun _ _ h => h.fits) (.cons htake.fits .nil)
      have hsplit : c.full = (before ++ [step]) ++ after := by simpa using hfull
      obtain ⟨c', hc'⟩ := Option.isSome_iff_exists.mp
        (m.isSome_command_of_full hlaid (hfront.snoc hedge) hfits hsplit (by simp) hlast)
      exact ⟨_, _, .of_faces (hreads.append hreads') hu hc'
        ((hopen c' (m.known_of_command hc')).command _)⟩

end Chart

/-- A line with an accepted reading resolves where nothing is denied. -/
theorem Populated.exists_parse_eq_ok (h : t.Populated) (ht : t.Plain) {principal : α}
    {line : String} {given : List (Given α)} {a : Arrival α σ}
    (haccepts : t.Accepts (start principal line) given a) :
    ∃ r, t.parse principal line = .ok r := by
  obtain ⟨m⟩ := h.charted.chart
  exact (m.exists_parse_eq_ok_iff h.charted.built ht.opened ht.defaults principal line).mpr
    ⟨given, a, haccepts⟩

/-- **No command is out of reach.** On a populated tree that is open to everyone, with built-in
types and readable defaults, let nothing have to be given behind a value of the command that takes
the rest of the line. Then there is one route from the root past nodes that stand for the steps of
its full line, with the parameters of some commands, such that

* the full line resolves for all texts that the nodes on the route take;
* so it does for all texts that the command's own steps take, if the parameters on the route have
  the types of those of the command for which they stand. -/
theorem fullLine_accepted (h : t.Populated) (ht : t.Plain) (hc : c ∈ t.commands)
    (hgreedy : c.GreedyLast) :
    ∃ stand i, t.Route root stand i ∧ List.Forall₂ Step.Fits stand c.full ∧
      (∀ stand' j, t.Route root stand' j → List.Forall₂ Step.Fits stand' c.full →
        stand' = stand ∧ j = i) ∧
      (∀ q, .parameter q ∈ stand → ∃ c' ∈ t.commands, q ∈ c'.parameters) ∧
      (∀ text, List.Forall₂ (Step.Takes text) stand c.full → ∀ principal,
        ∃ r, t.parse principal (c.fullLine t.settings text) = .ok r) ∧
      ((∀ q, .parameter q ∈ stand → ∀ p, .parameter p ∈ c.full →
          (Step.parameter q).Fits (.parameter p) → q.type = p.type) →
        ∀ text, (∀ step ∈ c.full, step.Takes text step) → ∀ principal,
          ∃ r, t.parse principal (c.fullLine t.settings text) = .ok r) := by
  obtain ⟨m⟩ := h.charted.chart
  have hlaid := h.charted.laid c hc
  obtain ⟨i, ⟨stand, hroute, hfits⟩, hcommand⟩ := (hlaid _ c.grafts_length).required
  rw [List.take_length] at hfits
  have hregistered (q : Parameter α) (hq : .parameter q ∈ stand) :
      ∃ c' ∈ t.commands, q ∈ c'.parameters := m.exists_command_of_route hroute hq
  have haccepted (text : Parameter α → String)
      (htakes : List.Forall₂ (Step.Takes text) stand c.full) (principal : α) :
      ∃ r, t.parse principal (c.fullLine t.settings text) = .ok r := by
    obtain ⟨given, a, haccepts⟩ :=
      m.exists_accepts_full hlaid hgreedy hroute hcommand ht.opened ht.builtin
        (t.settings.isBlank_longPrefix h.charted.valid) htakes principal
    exact h.exists_parse_eq_ok ht haccepts
  refine ⟨stand, i, hroute, hfits, ?unique, hregistered, haccepted, ?ownTexts⟩
  case unique =>
    intro stand' j hroute' hfits'
    have hsame : List.Forall₂ Step.Fits stand' stand := Step.forall₂_fits_trans hfits' hfits
    exact ⟨m.steps_unique m.size_pos hroute' hroute hsame,
      m.route_unique m.size_pos hroute' hroute hsame⟩
  case ownTexts =>
    -- A node on the route whose parameter has the type of the command's takes the same texts.
    intro htypes text htakes principal
    refine haccepted text ?_ principal
    refine forall₂_imp_of_mem hfits fun s hs step hstep hfit => ?_
    refine (htakes step hstep).of_fits hfit ?_
    rintro q p rfl rfl
    exact htypes q hs p hstep hfit

/-- The full line of a command is rejected at a node, although the command's own parameters take its
texts. -/
def Unreached (t : Tree Unit Unit) (line node : String) : Prop :=
  ∃ c ∈ t.commands, ∃ text, (∀ step ∈ c.full, step.Takes text step) ∧
    c.fullLine t.settings text = line ∧ ∃ r, t.parse () line = .error r ∧ r.node = some node

/-- Two commands that share an argument, of which the first declares a digit. -/
def narrowTree : Tree Unit Unit :=
  (Growth.register wide).after ((Growth.register narrow).after (empty {}))
where
  digit : Parameter Unit := .ofBuiltin "value" (.integer (some 0) (some 9))
  number : Parameter Unit := .ofBuiltin "value" (.integer none none)
  limit : Parameter Unit := (Parameter.ofBuiltin "limit" (.integer none none)).asFlag
  narrow : Declaration Unit Unit := { name := "set", steps := [.parameter digit] }
  wide : Declaration Unit Unit :=
    { name := "set", steps := [.parameter number, .parameter limit] }

/-- A command with a flag behind the rest of the line. -/
def sayTree : Tree Unit Unit :=
  (Growth.register say).after (empty {})
where
  message : Parameter Unit := .ofBuiltin "message" .greedy
  say : Declaration Unit Unit :=
    { name := "say", steps := [.parameter message, .parameter narrowTree.limit] }

/-- The text of a limit is `5`. -/
def limitText (value : String) (p : Parameter Unit) : String :=
  if p.name = "limit" then "5" else value

theorem takes_limit (value : String) : (Step.parameter narrowTree.limit).Takes (limitText value)
    (.parameter narrowTree.limit) := by
  have htext : limitText value narrowTree.limit = "5" := rfl
  refine .flag rfl rfl (.refl _) (by decide) ?_ ?_
  · rw [htext]
    decide
  · rw [htext]
    exact BuiltinType.takes ⟨.integer 5, ⟨['5'], []⟩, by decide +kernel, rfl⟩

/-- The tree is made by two registrations. -/
theorem populated_narrowTree : narrowTree.Populated := by
  unfold narrowTree
  exact .register_after (.register_after (.empty {} (by decide)) (by decide +kernel))
    (by decide +kernel)

/-- It has these two commands. -/
theorem mem_commands_narrowTree {c : Command Unit Unit} : c ∈ narrowTree.commands ↔
    c = narrowTree.narrow.command 0 "set" ∨ c = narrowTree.wide.command 1 "set" := by
  have hcommands : narrowTree.commands =
      #[narrowTree.narrow.command 0 "set", narrowTree.wide.command 1 "set"] := rfl
  simp [hcommands]

theorem mem_parameters_narrowTree {c : Command Unit Unit} (hc : c ∈ narrowTree.commands)
    {p : Parameter Unit} (hp : p ∈ c.parameters) :
    p = narrowTree.digit ∨ p = narrowTree.number ∨ p = narrowTree.limit := by
  rcases mem_commands_narrowTree.mp hc with rfl | rfl
  · exact .inl (List.mem_singleton.mp hp)
  · exact .inr (List.mem_pair.mp hp)

/-- Nothing in it is denied or has a default. -/
theorem plain_narrowTree : narrowTree.Plain := by
  refine .of_parameters ?_ ?_
  · intro c hc
    rcases mem_commands_narrowTree.mp hc with rfl | rfl <;> rfl
  · intro c hc p hp
    rcases mem_parameters_narrowTree hc hp with rfl | rfl | rfl <;> exact ⟨⟨_, rfl⟩, rfl, rfl⟩

/-- A shared argument with other bounds and a flag behind the rest of the line each put a command
out of reach. -/
theorem fullLine_rejected :
    (narrowTree.Populated ∧ narrowTree.Plain ∧ Unreached narrowTree "set 50 --limit 5" "value") ∧
      sayTree.Populated ∧ sayTree.Plain ∧ Unreached sayTree "say hello --limit 5" "message" := by
  have hcommands : sayTree.commands = #[sayTree.say.command 0 "say"] := rfl
  have hmem {c : Command Unit Unit} : c ∈ sayTree.commands ↔ c = sayTree.say.command 0 "say" := by
    simp [hcommands]
  -- In the first tree a narrower parameter owns the node, in the second a greedy one takes the
  -- flag.
  refine ⟨⟨populated_narrowTree, plain_narrowTree, ?_⟩, ?_, ?_, ?_⟩
  · refine ⟨narrowTree.wide.command 1 "set", mem_commands_narrowTree.mpr (.inr rfl),
      limitText "50", ?_, by decide +kernel, by decide +kernel⟩
    have hnumber : (Step.parameter narrowTree.number).Takes (limitText "50")
        (.parameter narrowTree.number) := by
      exact .argument rfl (.refl _) (by decide)
        (BuiltinType.takes ⟨.integer 50, ⟨['0', '5'], []⟩, by decide +kernel, rfl⟩)
    exact List.forall_mem_cons.mpr ⟨.literal (by decide), List.forall_mem_cons.mpr
      ⟨hnumber, List.forall_mem_singleton.mpr (takes_limit _)⟩⟩
  · unfold sayTree
    exact .register_after (.empty {} (by decide)) (by decide +kernel)
  · refine .of_parameters ?_ ?_
    · intro c hc
      obtain rfl := hmem.mp hc
      rfl
    · intro c hc p hp
      obtain rfl := hmem.mp hc
      rcases List.mem_pair.mp hp with rfl | rfl <;> exact ⟨⟨_, rfl⟩, rfl, rfl⟩
  · refine ⟨sayTree.say.command 0 "say", hmem.mpr rfl, limitText "hello", ?_, by decide +kernel,
      by decide +kernel⟩
    have hmessage : (Step.parameter sayTree.message).Takes (limitText "hello")
        (.parameter sayTree.message) := by
      exact .argument rfl (.refl _) (by decide)
        (BuiltinType.takes ⟨.text "hello", ⟨"hello".toList.reverse, []⟩, by decide +kernel, rfl⟩)
    exact List.forall_mem_cons.mpr ⟨.literal (by decide), List.forall_mem_cons.mpr
      ⟨hmessage, List.forall_mem_singleton.mpr (takes_limit _)⟩⟩

/-- The second command is reached with a number that the digit takes. -/
theorem fullLine_accepted_narrowTree :
    narrowTree.Populated ∧ narrowTree.Plain ∧
      narrowTree.wide.command 1 "set" ∈ narrowTree.commands ∧
      (narrowTree.wide.command 1 "set").GreedyLast ∧
      ∃ r, narrowTree.parse () "set 7 --limit 5" = .ok r := by
  have hc := mem_commands_narrowTree.mpr (.inr rfl)
  have hgreedy : (narrowTree.wide.command 1 "set").GreedyLast := by
    intro before step after hfull hstep
    have hmem : step ∈ (narrowTree.wide.command 1 "set").full := by simp [hfull]
    have hnone : ∀ s ∈ (narrowTree.wide.command 1 "set").full, s.isGreedy = false := by decide
    rw [hnone step hmem] at hstep
    cases hstep
  obtain ⟨stand, _, _, hfits, _, hregistered, haccepted, _⟩ :=
    fullLine_accepted populated_narrowTree plain_narrowTree hc hgreedy
  have hline : (narrowTree.wide.command 1 "set").fullLine narrowTree.settings (limitText "7") =
      "set 7 --limit 5" := by decide +kernel
  refine ⟨populated_narrowTree, plain_narrowTree, hc, hgreedy, hline ▸ haccepted _ ?_ ()⟩
  refine forall₂_imp_of_mem hfits fun s hs step hstep hfit => ?_
  -- Whatever stands for a step of the command takes its text.
  have hregistered' {q : Parameter Unit} (hq : .parameter q ∈ stand) :
      q = narrowTree.digit ∨ q = narrowTree.number ∨ q = narrowTree.limit := by
    obtain ⟨c, hc, hq⟩ := hregistered q hq
    exact mem_parameters_narrowTree hc hq
  have hplain : IsPlain "7" := by decide
  have hfull : (narrowTree.wide.command 1 "set").full =
      [.literal "set", .parameter narrowTree.number, .parameter narrowTree.limit] := rfl
  have hsteps : step = .literal "set" ∨ step = .parameter narrowTree.number ∨
      step = .parameter narrowTree.limit := by
    rw [hfull] at hstep
    simpa using hstep
  cases s with
  | literal w =>
    obtain rfl := hfit.of_literal
    rcases hsteps with hw | hw | hw <;> cases hw
    exact .literal (by decide)
  | parameter q =>
    rcases hsteps with rfl | rfl | rfl
    · exact hfit.elim
    · rcases hregistered' hs with rfl | rfl | rfl
      · exact .argument rfl hfit hplain
          (BuiltinType.takes ⟨.integer 7, ⟨['7'], []⟩, by decide +kernel, rfl⟩)
      · exact .argument rfl hfit hplain
          (BuiltinType.takes ⟨.integer 7, ⟨['7'], []⟩, by decide +kernel, rfl⟩)
      · exact absurd hfit.1 (by decide)
    · rcases hregistered' hs with rfl | rfl | rfl
      · exact absurd hfit.1 (by decide)
      · exact absurd hfit.1 (by decide)
      · exact takes_limit _

end Tree

end CommandLine
