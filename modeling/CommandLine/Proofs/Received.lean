import CommandLine.Proofs.Search.Passed

/-!
# Required parameters

A line that resolves has read its command's required arguments: a command is bound only behind them.
Of its required flags this holds under conditions. A flag node that several commands share by long
name stores its value under the name that the first of them gave to the flag, and a linked flag node
can be reached past the required flags of another command. Filling in then supplies the zero of the
type, without a word. Neither happens to an orderly command (`Tree.Orderly`).

* `required_received_iff` — on which lines every required parameter was received, and what the
  others have instead;
* `required_flag_omitted` — a shared flag node and a linked one that leave a required flag out.
-/

set_option autoImplicit false

namespace CommandLine

variable {α σ : Type}

/-- A flag section begins behind every required word and argument. -/
theorem Command.Grafts.mem_take {c : Command α σ} {k : Nat} {step : Step α} (hk : c.Grafts k)
    (h : step ∈ c.positionals) (hrequired : step.isOptional = false) :
    step ∈ c.positionals.take k := by
  rw [← List.take_append_drop k c.positionals] at h
  refine (List.mem_append.mp h).resolve_right fun hlate => ?_
  rw [hk.rest step hlate] at hrequired
  cases hrequired

namespace Tree

variable {t : Tree α σ} {principal : α} {line : String} {r : Resolved α σ} {given : List (Given α)}
  {p : Parameter α}

/-- A parameter was received: the value of its name was read from the line. -/
def Received (given : List (Given α)) (ctx : Context α) (p : Parameter α) : Prop :=
  ∃ g, Stored given ctx p.name g ∧ g.Read

namespace Passed

/-- Every name to which a value was given has the last of them in the end. -/
theorem received (h : t.Passed principal line r given)
    (hp : ∃ g ∈ given, g.parameter.name = p.name) : Received given r.context p := by
  obtain ⟨ctx, hfill, hbindings⟩ := h.filled
  obtain ⟨g, hg, hname, hvalue⟩ :=
    Context.exists_get?_given hp (Context.ofLine principal line)
  refine ⟨g, ⟨hg, hname, ?_⟩, h.accepts.read g hg⟩
  rw [hbindings, get?_of_fillParameters hfill (.inr ?_), hvalue]
  rw [← Bindings.isSome_get?, hvalue]
  rfl

/-- A required parameter to which no value was given has the zero of its type. -/
theorem get?_eq_zero (h : t.Passed principal line r given) (ht : t.Populated)
    (hp : p ∈ r.command.parameters) (hrequired : p.isOptional = false)
    (hnone : ∀ g ∈ given, g.parameter.name ≠ p.name) :
    r.context.bindings.get? p.name = p.type.traits.zero := by
  obtain ⟨ctx, hfill, hbindings⟩ := h.filled
  rw [hbindings]
  refine get?_of_fillParameters_required hfill hp (h.sound ht).names_nodup hrequired ?_
  rw [← Bindings.isSome_get?, Context.get?_given_of_ne hnone]
  rfl

/-- Required arguments are always given. -/
theorem exists_argument (h : t.Passed principal line r given) (ht : t.Populated)
    (hp : p ∈ r.command.parameters) (hrequired : p.isOptional = false)
    (hplace : p.isNamed = false) : ∃ g ∈ given, g.parameter.name = p.name := by
  have hpositional : .parameter p ∈ r.command.positionals := by
    refine (Command.mem_parameters.mp hp).resolve_right fun hflag => ?_
    rw [(h.sound ht).named p hflag] at hplace
    cases hplace
  obtain ⟨k, way, hk, hpasses, hway⟩ := h.exists_passes ht
  obtain ⟨q, hq, hlong, hshape⟩ :=
    Step.exists_mem_right_of_fits hpasses (hk.mem_take hpositional hrequired)
  rw [hway] at hq
  obtain ⟨g, hg, rfl⟩ := List.mem_map.mp (List.mem_of_mem_filter hq)
  have hplace' := (Parameter.isNamed_eq_of_interchangeable hshape).trans hplace
  exact ⟨g, hg, Parameter.name_eq_of_longName_eq hplace' hplace hlong⟩

/-- Required flags of an orderly command are given too. -/
theorem exists_flag (h : t.Passed principal line r given) (ht : t.Populated)
    (ho : t.Orderly r.command)
    (hp : p ∈ r.command.flags) (hrequired : p.isOptional = false) :
    ∃ g ∈ given, g.parameter.name = p.name := by
  obtain ⟨k, flags, steps, _, hallows, hfits, hsteps⟩ := h.exists_fits ht ho.separate
  have hgiven : p ∈ flags := hallows.mem_of_required hp hrequired
  obtain ⟨q, hq, hlong, hshape⟩ := Step.exists_mem_right_of_fits hfits
    (List.mem_append_right _ (List.mem_map_of_mem hgiven))
  rw [hsteps] at hq
  obtain ⟨g, hg, rfl⟩ := List.mem_map.mp hq
  have hnamed : g.parameter.isNamed = true :=
    (Parameter.isNamed_eq_of_interchangeable hshape).trans ((h.sound ht).named p hp)
  exact ⟨g, hg, h.name_eq_of_orderly ht ho hg hnamed hp hlong⟩

end Passed

/-- **Whether required parameters were received.** When a line resolves on a populated tree, the
search took an accepted reading such that

* every required parameter of the command was received, its value being the one read last for its
  name, exactly if the reading gave a value to the name of every required flag;
* a required parameter that was not received has the zero of its type instead;
* every required parameter of an orderly command was received. -/
theorem required_received_iff (h : t.Populated) (hparse : t.parse principal line = .ok r) :
    ∃ given, t.Accepts (start principal line) given ⟨r.command,
        (t.search (start principal line)).cursor, (t.search (start principal line)).context⟩ ∧
      ((∀ p ∈ r.command.parameters, p.isOptional = false → Received given r.context p) ↔
        ∀ p ∈ r.command.flags, p.isOptional = false → ∃ g ∈ given, g.parameter.name = p.name) ∧
      (∀ p ∈ r.command.parameters, p.isOptional = false → ¬Received given r.context p →
        r.context.bindings.get? p.name = p.type.traits.zero) ∧
      (t.Orderly r.command →
        ∀ p ∈ r.command.parameters, p.isOptional = false → Received given r.context p) := by
  obtain ⟨given, hpassed⟩ := h.exists_passed hparse
  -- Required arguments are always received, since every way to the command's end passes them.
  have hall (hflags : ∀ p ∈ r.command.flags, p.isOptional = false →
      ∃ g ∈ given, g.parameter.name = p.name) (p : Parameter α)
      (hp : p ∈ r.command.parameters) (hrequired : p.isOptional = false) :
      Received given r.context p := by
    refine hpassed.received ?_
    rcases Command.mem_parameters.mp hp with hplace | hflag
    · exact hpassed.exists_argument h hp hrequired
        ((hpassed.sound h).unnamed_of_mem_positionals hplace)
    · exact hflags p hflag hrequired
  refine ⟨given, hpassed.accepts, ⟨?_, hall⟩, ?_, ?_⟩
  · intro hreceived p hp hrequired
    obtain ⟨g, ⟨hg, hname, _⟩, _⟩ :=
      hreceived p (Command.mem_parameters.mpr (.inr hp)) hrequired
    exact ⟨g, hg, hname⟩
  · intro p hp hrequired hmissing
    apply hpassed.get?_eq_zero h hp hrequired
    intro g hg hname
    exact hmissing (hpassed.received ⟨g, hg, hname⟩)
  · intro ho
    exact hall fun p hp hrequired => hpassed.exists_flag h ho hp hrequired

/-- A tree with a command that requires one flag. -/
def limitTree : Tree Unit Unit :=
  (Growth.register limit).after (empty {})
where
  limit : Declaration Unit Unit := { name := "go", steps := [.parameter max] }
  max : Parameter Unit := (Parameter.ofBuiltin "max" (.integer none none)).asFlag

/-- The flag is received where it is given. -/
theorem required_received_limitTree :
    limitTree.Populated ∧ ∃ r given, limitTree.parse () "go --max 5" = .ok r ∧
      limitTree.max ∈ r.command.parameters ∧ Received given r.context limitTree.max ∧
      r.context.bindings.get? "max" = some (.integer 5) := by
  have hpopulated : limitTree.Populated := by
    unfold limitTree
    exact .register_after (.empty {} (by decide)) (by decide +kernel)
  have hcommands : limitTree.commands = #[limitTree.limit.command 0 "go"] := rfl
  have honly {c : Command Unit Unit} (hc : c ∈ limitTree.commands) :
      c = limitTree.limit.command 0 "go" := by simpa [hcommands] using hc
  have horderly {c : Command Unit Unit} (hc : c ∈ limitTree.commands) : limitTree.Orderly c := by
    refine ⟨fun c' hc' _ => .inl ((honly hc').trans (honly hc).symm), ?_⟩
    intro c' hc' _ q hq p hp _
    obtain rfl := honly hc
    obtain rfl := honly hc'
    rw [List.mem_singleton.mp hq, List.mem_singleton.mp hp]
  have hparse : ∃ r, limitTree.parse () "go --max 5" = .ok r ∧
      r.context.bindings.get? "max" = some (.integer 5) := by decide +kernel
  obtain ⟨r, hr, hvalue⟩ := hparse
  obtain ⟨given, haccepts, _, _, hreceived⟩ := required_received_iff hpopulated hr
  obtain ⟨_, hpassed⟩ := hpopulated.exists_passed hr
  have hmem := hpassed.mem_commands
  have hmax : limitTree.max ∈ r.command.parameters := honly hmem ▸ List.mem_singleton.mpr rfl
  exact ⟨hpopulated, r, given, hr, hmax, hreceived (horderly hmem) _ hmax rfl, hvalue⟩

/-- A line resolves to a command with a required parameter for which no value was read, so that
filling in supplied a zero. -/
def Omits (t : Tree Unit Unit) (line : String) : Prop :=
  ∃ r, t.parse () line = .ok r ∧ ∃ p ∈ r.command.parameters, p.isOptional = false ∧
    (t.search (start () line)).context.bindings.get? p.name = none ∧
      r.context.bindings.get? p.name = some (.integer 0)

instance (t : Tree Unit Unit) (line : String) : Decidable (Omits t line) :=
  decidableExistsOk ..

/-- Two commands that name the flag `--limit` differently, the second of which requires it. -/
def sharedFlagTree : Tree Unit Unit :=
  (Growth.register requiring).after ((Growth.register omitting).after (empty {}))
where
  max : Parameter Unit :=
    { name := "max", type := BuiltinType.toValueType (.integer none none),
      form := .flag "limit" none }
  requiring : Declaration Unit Unit :=
    { name := "a", steps := [.parameter max], action := some (fun _ state => state) }
  omitting : Declaration Unit Unit :=
    { name := "a", steps := [.parameter { max with name := "n", omissible := true }] }

/-- Two commands whose flags are linked: the first may omit both, the second requires `--r`. -/
def linkedFlagTree : Tree Unit Unit :=
  (Growth.register requiring).after ((Growth.register omitting).after (empty { threshold := 1 }))
where
  r : Parameter Unit :=
    { name := "r", type := BuiltinType.toValueType (.integer none none), form := .flag "r" none }
  requiring : Declaration Unit Unit :=
    { name := "a", steps := [.parameter r, .parameter (.switch "o")]
      action := some (fun _ state => state) }
  omitting : Declaration Unit Unit :=
    { name := "a", steps := [.parameter r.asOptional, .parameter (.switch "o")] }

/-- A shared flag node and a linked one each let a required flag go missing. -/
theorem required_flag_omitted :
    (sharedFlagTree.Populated ∧ Omits sharedFlagTree "a --limit 5") ∧
      linkedFlagTree.Populated ∧ Omits linkedFlagTree "a --o" := by
  refine ⟨⟨?_, by decide +kernel⟩, ?_, by decide +kernel⟩
  · unfold sharedFlagTree
    exact .register_after (.register_after (.empty {} (by decide)) (by decide +kernel))
      (by decide +kernel)
  · unfold linkedFlagTree
    exact .register_after (.register_after (.empty { threshold := 1 } (by decide))
      (by decide +kernel)) (by decide +kernel)

end Tree

end CommandLine
