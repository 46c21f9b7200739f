import CommandLine.Proofs.Search.Followed

/-!
# Flags of other commands and repeated flags

A search keeps no account of the flags that a line has given. That a line gives the flags of its own
command only, and each at most once, rests on the paths of the tree alone, and they provide for it
where no other command shares the command's flag nodes, or where none of them links flag nodes. The
links of two chains over the same nodes add up: they lead on to flags of the other command, and back
to flags that were given before.

* `names_own_or_foreign` — whose names a context has;
* `flags_given_once` — when no flag is given twice;
* `foreign_flag_given`, `flag_given_twice` — two chains over the same nodes.
-/

set_option autoImplicit false

namespace CommandLine

variable {α σ : Type}

/-- A flag is foreign to a command that has no flag of its long name. -/
def Command.Foreign (c : Command α σ) (q : Parameter α) : Prop :=
  q.isNamed = true ∧ ∀ p ∈ c.flags, p.longName ≠ q.longName

/-- The long names of the flags that a line gave, in order. -/
def givenFlags (given : List (Given α)) : List String :=
  ((given.map Given.parameter).filter Parameter.isNamed).map Parameter.longName

/-- Flags that stand for each other have the same long names. -/
theorem Step.longNames_eq_of_fits {steps steps' : List (Step α)}
    (h : List.Forall₂ Step.Fits steps steps') :
    ((parameters steps).filter Parameter.isNamed).map Parameter.longName =
      ((parameters steps').filter Parameter.isNamed).map Parameter.longName := by
  induction h with
  | nil => rfl
  | @cons s step steps steps' hfit _ ih =>
    cases s with
    | literal w =>
      obtain rfl := hfit.of_literal
      exact ih
    | parameter q =>
      cases step with
      | literal w => exact hfit.elim
      | parameter p =>
        have hnamed := Parameter.isNamed_eq_of_interchangeable hfit.2
        cases hp : p.isNamed <;> simp [hnamed, hp, ih, hfit.1]

/-- The flags among the steps of a command's line. -/
theorem Command.Sound.filter_isNamed {c : Command α σ} (hs : c.Sound) {k : Nat}
    {flags : List (Parameter α)} (hflags : flags ⊆ c.flags) :
    (Step.parameters (c.positionals.take k ++ flags.map .parameter)).filter Parameter.isNamed =
      flags := by
  have hplaces : (Step.parameters (c.positionals.take k)).filter Parameter.isNamed = [] := by
    rw [List.filter_eq_nil_iff]
    intro p hp
    rw [hs.unnamed_of_mem_positionals (List.mem_of_mem_take (Step.mem_parameters.mp hp))]
    exact Bool.false_ne_true
  have hown : Step.parameters (flags.map .parameter) = flags := by
    rw [Step.parameters, List.filterMap_map]
    exact List.filterMap_some
  rw [Step.parameters_append, List.filter_append, hplaces, hown, List.nil_append]
  exact List.filter_eq_self.mpr fun p hp => hs.named p (hflags hp)

namespace Tree

variable {t : Tree α σ} {principal : α} {line : String} {r : Resolved α σ} {given : List (Given α)}

namespace Passed

/-- A name in the context was given a value on the line, or filled in. -/
theorem exists_name (h : t.Passed principal line r given) {name : String}
    (hname : r.context.bindings.contains name = true) :
    (∃ g ∈ given, g.parameter.name = name) ∨ ∃ p ∈ r.command.parameters, p.name = name := by
  by_contra hnone
  rw [not_or] at hnone
  obtain ⟨ctx, hfill, hbindings⟩ := h.filled
  rw [hbindings, ← Bindings.isSome_get?, get?_of_fillParameters hfill
    (.inl fun p hp heq => hnone.2 ⟨p, hp, heq.symm⟩),
    Context.get?_given_of_ne fun g hg heq => hnone.1 ⟨g, hg, heq⟩] at hname
  cases hname

/-- What was given has the name of a parameter of the command, or is a foreign flag. -/
theorem exists_own_name (h : t.Passed principal line r given) (ht : t.Populated)
    (hnames : ∀ c ∈ t.commands, ∀ p ∈ c.flags, p.longName = p.name) {g : Given α} (hg : g ∈ given) :
    (∃ p ∈ r.command.parameters, p.name = g.parameter.name) ∨
      r.command.Foreign g.parameter := by
  cases hnamed : g.parameter.isNamed with
  | false =>
    obtain ⟨p, hp, hlong, hshape⟩ := h.exists_parameter ht hg (.inl hnamed)
    have hplace := (Parameter.isNamed_eq_of_interchangeable hshape).symm.trans hnamed
    exact .inl ⟨p, hp, (Parameter.name_eq_of_longName_eq hnamed hplace hlong).symm⟩
  | true =>
    by_cases hown : ∃ p ∈ r.command.flags, p.longName = g.parameter.longName
    · obtain ⟨p, hp, hlong⟩ := hown
      obtain ⟨c, hc, hmem⟩ := h.exists_mem_flags ht hg hnamed
      refine .inl ⟨p, Command.mem_parameters.mpr (.inr hp), ?_⟩
      rw [← hnames r.command h.mem_commands p hp, ← hnames c hc _ hmem, hlong]
    · exact .inr ⟨hnamed, fun p hp hlong => hown ⟨p, hp, hlong⟩⟩

/-- A separate command is given no foreign flag. -/
theorem not_foreign (h : t.Passed principal line r given) (ht : t.Populated)
    (hsep : t.Separate r.command) {g : Given α} (hg : g ∈ given) :
    ¬r.command.Foreign g.parameter := by
  rintro ⟨hnamed, hforeign⟩
  obtain ⟨p, hp, hlong, hshape⟩ := h.exists_parameter ht hg (.inr hsep)
  have hflag : p ∈ r.command.flags := (h.sound ht).mem_flags hp
    ((Parameter.isNamed_eq_of_interchangeable hshape).symm.trans hnamed)
  exact hforeign p hflag hlong.symm

/-- A separate command is given each of its flags at most once. -/
theorem nodup_givenFlags (h : t.Passed principal line r given) (ht : t.Populated)
    (hsep : t.Separate r.command) : (givenFlags given).Nodup := by
  obtain ⟨k, flags, steps, _, hallows, hfits, hsteps⟩ := h.exists_fits ht hsep
  rw [givenFlags, ← hsteps, Step.longNames_eq_of_fits hfits,
    (h.sound ht).filter_isNamed hallows.subset]
  exact hallows.nodup_map (h.sound ht).longNames_nodup

end Passed

/-- **Whose names a context has.** When a line resolves on a populated tree where flags are named as
they are spelled, the search took an accepted reading such that

* every name in the context is that of a parameter of the command, or of a foreign flag that the
  line gave;
* if no other command meets the command, unless neither of the two links flag nodes, the line gave
  no foreign flag, and every name in the context is that of a parameter of the command. -/
theorem names_own_or_foreign (h : t.Populated)
    (hnames : ∀ c ∈ t.commands, ∀ p ∈ c.flags, p.longName = p.name)
    (hparse : t.parse principal line = .ok r) :
    ∃ given, t.Accepts (start principal line) given ⟨r.command,
        (t.search (start principal line)).cursor, (t.search (start principal line)).context⟩ ∧
      (∀ name, r.context.bindings.contains name = true →
        (∃ p ∈ r.command.parameters, p.name = name) ∨
          ∃ g ∈ given, r.command.Foreign g.parameter ∧ g.parameter.name = name) ∧
      (t.Separate r.command → (∀ g ∈ given, ¬r.command.Foreign g.parameter) ∧
        ∀ name, r.context.bindings.contains name = true →
          ∃ p ∈ r.command.parameters, p.name = name) := by
  obtain ⟨given, hpassed⟩ := h.exists_passed hparse
  have hcases (name : String) (hname : r.context.bindings.contains name = true) :
      (∃ p ∈ r.command.parameters, p.name = name) ∨
        ∃ g ∈ given, r.command.Foreign g.parameter ∧ g.parameter.name = name := by
    rcases hpassed.exists_name hname with ⟨g, hg, rfl⟩ | hown
    · exact (hpassed.exists_own_name h hnames hg).imp_right fun hforeign => ⟨g, hg, hforeign, rfl⟩
    · exact .inl hown
  refine ⟨given, hpassed.accepts, hcases, fun hsep => ?_⟩
  have hnone (g : Given α) (hg : g ∈ given) := hpassed.not_foreign h hsep hg
  refine ⟨hnone, fun name hname => (hcases name hname).resolve_right ?_⟩
  rintro ⟨g, hg, hforeign, _⟩
  exact hnone g hg hforeign

/-- A command with some switches. -/
def switches (names : List String) : Declaration Unit Unit :=
  { name := "cmd", steps := names.map fun name => .parameter (.switch name) }

/-- A command of switches has no other parameters. -/
theorem exists_eq_switch {names : List String} {id : Nat} {name : String} {p : Parameter Unit}
    (hp : p ∈ ((switches names).command id name).parameters) : ∃ name, p = .switch name := by
  have hp := ((switches names).parameters_command_perm id name).mem_iff.mp hp
  obtain ⟨step, hstep, hparameter⟩ := List.mem_filterMap.mp hp
  obtain ⟨name, _, rfl⟩ := List.mem_map.mp hstep
  exact ⟨name, (Option.some.inj hparameter).symm⟩

theorem open_switches (names : List String) (id : Nat) (name : String) :
    ((switches names).command id name).Open where
  command _ := rfl
  parameter p hp _ := by
    obtain ⟨name, rfl⟩ := exists_eq_switch hp
    rfl

/-- A command with more switches than the threshold. -/
def chainTree : Tree Unit Unit :=
  (Growth.register (switches ["a", "b", "c", "d", "e"])).after (empty {})

/-- The registration goes through, and a line with two of the switches resolves. -/
theorem parse_chainTree :
    chainTree.Populated ∧ ∃ r, chainTree.parse () "cmd --a --c" = .ok r := by
  have hrun : (Growth.register (switches ["a", "b", "c", "d", "e"])).succeeds
      (empty {} : Tree Unit Unit) = true ∧
        ∃ r, chainTree.parse () "cmd --a --c" = .ok r ∧
          r.context.bindings.contains "c" = true := by
    decide +kernel
  exact ⟨.register_after (.empty {} (by decide)) hrun.1, hrun.2.imp fun _ h => h.1⟩

theorem populated_chainTree : chainTree.Populated := parse_chainTree.1

theorem mem_commands_chainTree {c : Command Unit Unit} :
    c ∈ chainTree.commands ↔ c = (switches ["a", "b", "c", "d", "e"]).command 0 "cmd" := by
  have hcommands :
      chainTree.commands = #[(switches ["a", "b", "c", "d", "e"]).command 0 "cmd"] := rfl
  simp [hcommands]

/-- The only command is separate. -/
theorem separate_chainTree {c : Command Unit Unit} (hc : c ∈ chainTree.commands) :
    chainTree.Separate c :=
  fun _ hc' _ => .inl ((mem_commands_chainTree.mp hc').trans (mem_commands_chainTree.mp hc).symm)

/-- On the tree of one command every name is its own. -/
theorem names_own_or_foreign_chainTree :
    chainTree.Populated ∧ (∀ c ∈ chainTree.commands, ∀ p ∈ c.flags, p.longName = p.name) ∧
      ∃ r, chainTree.parse () "cmd --a --c" = .ok r ∧ chainTree.Separate r.command ∧
        ∀ name, r.context.bindings.contains name = true →
          ∃ p ∈ r.command.parameters, p.name = name := by
  have hnames : ∀ c ∈ chainTree.commands, ∀ p ∈ c.flags, p.longName = p.name := by decide +kernel
  obtain ⟨_, r, hr⟩ := parse_chainTree
  obtain ⟨_, hpassed⟩ := populated_chainTree.exists_passed hr
  have hsep := separate_chainTree hpassed.mem_commands
  obtain ⟨_, _, _, hown⟩ := names_own_or_foreign populated_chainTree hnames hr
  exact ⟨populated_chainTree, hnames, r, hr, hsep, (hown hsep).2⟩

/-- A line resolves to a command that has no parameter of some name in its context. -/
def GivesForeign (t : Tree Unit Unit) (line name : String) : Prop :=
  ∃ r, t.parse () line = .ok r ∧ r.context.bindings.contains name = true ∧
    ∀ p ∈ r.command.parameters, p.name ≠ name

instance (t : Tree Unit Unit) (line name : String) : Decidable (GivesForeign t line name) :=
  decidableExistsOk ..

/-- Two chains, of which the second begins with the last switch of the first. -/
def joinedTree : Tree Unit Unit :=
  (Growth.register (switches ["e", "f", "g", "h", "i"])).after chainTree

/-- The links of the first chain lead to a switch from which those of the second lead on. -/
theorem foreign_flag_given :
    joinedTree.Populated ∧ (∀ c ∈ joinedTree.commands, ∀ p ∈ c.flags, p.longName = p.name) ∧
      GivesForeign joinedTree "cmd --a --e --f" "a" := by
  refine ⟨?_, by decide +kernel, by decide +kernel⟩
  unfold joinedTree
  exact .register_after populated_chainTree (by decide +kernel)

/-- **Flags are given once.** When a line resolves on a populated tree, the search took an accepted
reading that gave no two flags of one long name, if no other command meets the command, unless
neither of the two links flag nodes. -/
theorem flags_given_once (h : t.Populated) (hparse : t.parse principal line = .ok r) :
    ∃ given, t.Accepts (start principal line) given ⟨r.command,
        (t.search (start principal line)).cursor, (t.search (start principal line)).context⟩ ∧
      (t.Separate r.command → (givenFlags given).Nodup) := by
  obtain ⟨given, hpassed⟩ := h.exists_passed hparse
  exact ⟨given, hpassed.accepts, hpassed.nodup_givenFlags h⟩

/-- On the tree of one command every flag is given once. -/
theorem flags_given_once_chainTree :
    chainTree.Populated ∧ ∃ r given, chainTree.parse () "cmd --a --c" = .ok r ∧
      chainTree.Separate r.command ∧
      chainTree.Accepts (start () "cmd --a --c") given ⟨r.command,
        (chainTree.search (start () "cmd --a --c")).cursor,
        (chainTree.search (start () "cmd --a --c")).context⟩ ∧ (givenFlags given).Nodup := by
  obtain ⟨_, r, hr⟩ := parse_chainTree
  obtain ⟨_, hpassed⟩ := populated_chainTree.exists_passed hr
  have hsep := separate_chainTree hpassed.mem_commands
  obtain ⟨given, haccepts, honce⟩ := flags_given_once populated_chainTree hr
  exact ⟨populated_chainTree, r, given, hr, hsep, haccepts, honce hsep⟩

/-- Two chains of the same switches, the second in reverse. -/
def reversedTree : Tree Unit Unit :=
  (Growth.register (switches ["e", "d", "c", "b", "a"])).after chainTree

theorem mem_commands_reversedTree {c : Command Unit Unit} (hc : c ∈ reversedTree.commands) :
    c = (switches ["a", "b", "c", "d", "e"]).command 0 "cmd" ∨
      c = (switches ["e", "d", "c", "b", "a"]).command 1 "cmd" := by
  have hcommands : reversedTree.commands = #[(switches ["a", "b", "c", "d", "e"]).command 0 "cmd",
      (switches ["e", "d", "c", "b", "a"]).command 1 "cmd"] := rfl
  simpa [hcommands] using hc

/-- From the node of `a` to that of `b` and back. -/
def backAndForth : List (Step Unit) :=
  [.literal "cmd", .parameter (.switch "a"), .parameter (.switch "b"), .parameter (.switch "a")]

/-- The second registration goes through as well, and the links lead there. -/
theorem route_backAndForth :
    reversedTree.Populated ∧ reversedTree.Route root backAndForth 2 := by
  have hrun : (Growth.register (switches ["e", "d", "c", "b", "a"])).succeeds chainTree = true ∧
      ("cmd", 1) ∈ (reversedTree.node root).literals ∧ 2 ∈ (reversedTree.node 1).flags ∧
        3 ∈ (reversedTree.node 2).flags ∧ 2 ∈ (reversedTree.node 3).flags := by
    decide +kernel
  obtain ⟨hregister, hword, hfirst, hsecond, hthird⟩ := hrun
  refine ⟨.register_after populated_chainTree hregister, 1, hword, 2, .of_flag ?_, 3, .of_flag ?_,
    2, .of_flag ?_, rfl⟩
  · exact mem_flagsOf.mpr ⟨hfirst, rfl⟩
  · exact mem_flagsOf.mpr ⟨hsecond, rfl⟩
  · exact mem_flagsOf.mpr ⟨hthird, rfl⟩

/-- The links of the second chain lead back to a switch from which those of the first came. -/
theorem flag_given_twice :
    reversedTree.Populated ∧ (∃ r, reversedTree.parse () "cmd --a --b --a" = .ok r) ∧
      ∃ given a, reversedTree.Accepts (start () "cmd --a --b --a") given a ∧
        givenFlags given = ["a", "b", "a"] := by
  obtain ⟨hpopulated, hroute⟩ := route_backAndForth
  obtain ⟨m⟩ := hpopulated.charted.chart
  have hparse : ∃ r, reversedTree.parse () "cmd --a --b --a" = .ok r ∧
      r.context.bindings.contains "b" = true := by decide +kernel
  -- The route goes there and back again, so the line is written out from it.
  have htakes : List.Forall₂ (Step.Takes fun _ => "") backAndForth backAndForth :=
    .cons (.literal (by decide)) (.cons (.switch rfl (.refl _) (by decide))
      (.cons (.switch rfl (.refl _) (by decide)) (.cons (.switch rfl (.refl _) (by decide)) .nil)))
  have hopen (c : Command Unit Unit) (hc : c ∈ reversedTree.commands) : c.Open := by
    rcases mem_commands_reversedTree hc with rfl | rfl <;> exact open_switches ..
  have hbuiltin (c : Command Unit Unit) (hc : c ∈ reversedTree.commands) (p : Parameter Unit)
      (hp : p ∈ c.parameters) : ∃ b : BuiltinType, p.type = b.toValueType := by
    have hswitch : ∃ name, p = .switch name := by
      rcases mem_commands_reversedTree hc with rfl | rfl <;> exact exists_eq_switch hp
    obtain ⟨name, rfl⟩ := hswitch
    exact ⟨.truth, rfl⟩
  have hcommand : (reversedTree.node 2).command.isSome = true := by decide +kernel
  obtain ⟨c, hc⟩ := Option.isSome_iff_exists.mp hcommand
  obtain ⟨given, a, haccepts, hgiven⟩ := m.exists_accepts hroute hopen hbuiltin
    (reversedTree.settings.isBlank_longPrefix hpopulated.charted.valid) htakes
    (by simp [backAndForth]) (by decide) hc ()
  have hline : " ".intercalate (backAndForth.flatMap
      (Step.words reversedTree.settings fun _ => "")) = "cmd --a --b --a" := by decide +kernel
  refine ⟨hpopulated, hparse.imp fun _ h => h.1, given, a, hline ▸ haccepts, ?_⟩
  rw [givenFlags, ← hgiven]
  rfl

end Tree

end CommandLine
