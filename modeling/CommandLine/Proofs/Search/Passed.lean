import CommandLine.Proofs.Search.Refinement
import CommandLine.Proofs.Tree.Separate

/-!
# What an accepted reading passes

A reading passes the nodes on a route to where it is accepted, and gives a value to the parameter of
each: the parameters on the route are those given, in order (`Reads.exists_route`). What a line
resolves to keeps the last value given to each name; filling in touches other names only.

* `Populated.exists_passed` — the reading behind a line that resolved, and what it passed;
* `Passed.exists_passes`, `Passed.exists_fits` — which steps of the command it passed.
-/

set_option autoImplicit false

namespace CommandLine

variable {α σ : Type}

/-- The parameters on a way. -/
def Step.parameters (way : List (Step α)) : List (Parameter α) := way.filterMap Step.parameter?

@[simp] theorem Step.parameters_literal (w : String) (way : List (Step α)) :
    Step.parameters (.literal w :: way) = Step.parameters way := rfl

@[simp] theorem Step.parameters_parameter (p : Parameter α) (way : List (Step α)) :
    Step.parameters (.parameter p :: way) = p :: Step.parameters way := rfl

/-- The parameters of two parts of a way come one after the other. -/
@[simp] theorem Step.parameters_append (way way' : List (Step α)) :
    Step.parameters (way ++ way') = Step.parameters way ++ Step.parameters way' :=
  List.filterMap_append

/-- They are the steps of the way that are parameters. -/
theorem Step.mem_parameters {way : List (Step α)} {p : Parameter α} :
    p ∈ Step.parameters way ↔ .parameter p ∈ way := by
  simp only [parameters, List.mem_filterMap]
  constructor
  · rintro ⟨step, hstep, hp⟩
    cases step with
    | literal w => cases hp
    | parameter q => exact Option.some.inj hp ▸ hstep
  · exact fun h => ⟨_, h, rfl⟩

/-- Without the flags of a way its arguments are left. -/
theorem Step.parameters_filter_isFlag (steps : List (Step α)) :
    Step.parameters (steps.filter (!·.isFlag)) = (Step.parameters steps).filter (!·.isNamed) := by
  induction steps with
  | nil => rfl
  | cons step steps ih =>
    cases step with
    | literal w => simpa using ih
    | parameter p => cases hp : p.isNamed <;> simp [hp, ih]

/-- Each parameter on a way stands for one of the steps that the way fits. -/
theorem Step.exists_mem_left_of_fits {way steps : List (Step α)}
    (h : List.Forall₂ Step.Fits way steps) {q : Parameter α} (hq : q ∈ Step.parameters way) :
    ∃ p, .parameter p ∈ steps ∧ q.longName = p.longName ∧ q.interchangeable p = true := by
  obtain ⟨step, hstep, hfit⟩ := (exists_of_mem_forall₂ h).1 _ (Step.mem_parameters.mp hq)
  cases step with
  | literal w => exact hfit.elim
  | parameter p => exact ⟨p, hstep, hfit⟩

/-- And each parameter among the steps has one on the way standing for it. -/
theorem Step.exists_mem_right_of_fits {way steps : List (Step α)}
    (h : List.Forall₂ Step.Fits way steps) {p : Parameter α} (hp : .parameter p ∈ steps) :
    ∃ q ∈ Step.parameters way, q.longName = p.longName ∧ q.interchangeable p = true := by
  obtain ⟨s, hs, hfit⟩ := (exists_of_mem_forall₂ h).2 _ hp
  cases s with
  | literal w => exact hfit.elim
  | parameter q => exact ⟨q, Step.mem_parameters.mpr hs, hfit⟩

/-! ## Values given on a reading -/

/-- Values given to other names do not matter to a name. -/
theorem Context.get?_given_of_ne {given : List (Given α)} {name : String}
    (h : ∀ g ∈ given, g.parameter.name ≠ name) (ctx : Context α) :
    (ctx.given given).bindings.get? name = ctx.bindings.get? name := by
  induction given generalizing ctx with
  | nil => rfl
  | cons g given ih =>
    have hne : name ≠ g.parameter.name := (h g List.mem_cons_self).symm
    rw [Context.given, List.foldl_cons]
    exact (ih (fun g' hg' => h g' (List.mem_cons_of_mem g hg')) _).trans
      (Bindings.get?_insert_of_ne _ _ hne)

/-- What a name has after some values were given is the last of them that is its own. -/
theorem Context.exists_get?_given {given : List (Given α)} {name : String}
    (h : ∃ g ∈ given, g.parameter.name = name) (ctx : Context α) :
    ∃ g ∈ given, g.parameter.name = name ∧ (ctx.given given).bindings.get? name = some g.value := by
  induction given generalizing ctx with
  | nil => simp at h
  | cons g given ih =>
    by_cases hlater : ∃ g' ∈ given, g'.parameter.name = name
    · obtain ⟨g', hg', hname, hvalue⟩ := ih hlater (ctx.bind g.parameter.name g.value)
      exact ⟨g', List.mem_cons_of_mem g hg', hname, hvalue⟩
    · obtain ⟨g', hg', hname⟩ := h
      rcases List.mem_cons.mp hg' with rfl | hg'
      · refine ⟨g', List.mem_cons_self, hname, ?_⟩
        rw [Context.given, List.foldl_cons]
        exact (get?_given_of_ne (fun x hx hxname => hlater ⟨x, hx, hxname⟩) _).trans
          (hname ▸ Bindings.get?_insert_self _ _ _)
      · exact (hlater ⟨g', hg', hname⟩).elim

/-! ## Values filled in -/

/-- Filling in one parameter leaves the values of other names and the values that there are. -/
theorem get?_of_fillParameter {ctx ctx' : Context α} {p : Parameter α} {name : String}
    (h : fillParameter ctx p = .ok ctx')
    (hname : name ≠ p.name ∨ ctx.bindings.contains name = true) :
    ctx'.bindings.get? name = ctx.bindings.get? name := by
  unfold fillParameter at h
  split at h
  · exact Except.ok.inj h ▸ rfl
  · rename_i hcontains
    have hne : name ≠ p.name := hname.elim id fun hc heq => hcontains (heq ▸ hc)
    split at h
    · obtain rfl := Except.ok.inj h
      exact Bindings.get?_insert_of_ne _ _ hne
    · exact Except.ok.inj h ▸ rfl
    · cases h

/-- Filling in leaves a name alone that has a value or is none of the parameters'. -/
theorem get?_of_fillParameters {ctx ctx' : Context α} {ps : List (Parameter α)} {name : String}
    (h : fillParameters ctx ps = .ok ctx')
    (hname : (∀ p ∈ ps, name ≠ p.name) ∨ ctx.bindings.contains name = true) :
    ctx'.bindings.get? name = ctx.bindings.get? name := by
  induction ps generalizing ctx with
  | nil => exact Except.ok.inj h ▸ rfl
  | cons p ps ih =>
    unfold fillParameters at h
    split at h
    · rename_i ctx₁ hfill
      have hstep := get?_of_fillParameter hfill
        (hname.imp (fun hne => hne p List.mem_cons_self) id)
      have hlater : (∀ q ∈ ps, name ≠ q.name) ∨ ctx₁.bindings.contains name = true := by
        rcases hname with hne | hc
        · exact .inl fun q hq => hne q (List.mem_cons_of_mem p hq)
        · right
          rw [← Bindings.isSome_get?, hstep, Bindings.isSome_get?, hc]
      exact (ih h hlater).trans hstep
    · cases h

/-- A required parameter that was not given gets the zero of its type, if there is one. -/
theorem get?_of_fillParameters_required {ctx ctx' : Context α} {ps : List (Parameter α)}
    {p : Parameter α} (h : fillParameters ctx ps = .ok ctx') (hp : p ∈ ps)
    (hnodup : (ps.map Parameter.name).Nodup) (hrequired : p.isOptional = false)
    (hnone : ctx.bindings.contains p.name = false) :
    ctx'.bindings.get? p.name = p.type.traits.zero := by
  induction ps generalizing ctx with
  | nil => cases hp
  | cons q ps ih =>
    rw [List.map_cons, List.nodup_cons] at hnodup
    unfold fillParameters at h
    split at h
    · rename_i ctx₁ hfill
      rcases List.mem_cons.mp hp with rfl | hp
      · obtain ⟨⟨_, hdefault⟩, hswitch⟩ : (p.omissible = false ∧ p.default = none) ∧
            p.isSwitch = false := by simpa [Parameter.isOptional] using hrequired
        -- No later parameter has its name, so what is filled in here stays.
        have hother : ∀ q ∈ ps, p.name ≠ q.name := by
          intro q hq heq
          exact hnodup.1 (heq ▸ List.mem_map_of_mem hq)
        rw [get?_of_fillParameters h (.inl hother)]
        rw [fillParameter, hnone, omittedValue?, hdefault, hswitch] at hfill
        cases hzero : p.type.traits.zero with
        | none =>
          simp only [hzero, Bool.false_eq_true, if_false] at hfill
          obtain rfl := Except.ok.inj hfill
          rw [← Option.isNone_iff_eq_none, ← Option.not_isSome, Bindings.isSome_get?, hnone]
          rfl
        | some value =>
          simp only [hzero, Bool.false_eq_true, if_false] at hfill
          obtain rfl := Except.ok.inj hfill
          exact Bindings.get?_insert_self _ _ _
      · have hne : p.name ≠ q.name := by
          intro heq
          exact hnodup.1 (heq ▸ List.mem_map_of_mem hp)
        have hstep := get?_of_fillParameter hfill (.inl hne)
        refine ih h hp hnodup.2 ?_
        rw [← Bindings.isSome_get?, hstep, Bindings.isSome_get?, hnone]
    · cases h

/-! ## Readings as routes -/

/-- What a move from a visit passes: the parameter to which it gives a value, or the next word. -/
def Visit.passed (v : Visit α) : Option (Given α) → Step α
  | none => .literal v.cursor.word
  | some given => .parameter given.parameter

/-- What a move passes are the parameters that were given on it. -/
theorem Visit.parameters_passed (v : Visit α) (given : Option (Given α)) :
    Step.parameters [v.passed given] = given.toList.map Given.parameter := by
  cases given <;> rfl

namespace Tree

variable {t : Tree α σ} {v w u : Visit α} {turn : Turn α}

/-- A move goes to a child, past the step that it stands for. -/
theorem Moves.edge {given : Option (Given α)} (hturn : turn ∈ t.turns v)
    (hmove : t.Moves v turn given w) : t.Edge v.node (v.passed given) w.node := by
  cases hmove with
  | literal hchild => exact Node.mem_literals_of_literal? hchild
  | argument => exact .of_argument (mem_argumentsOf_of_mem_turns hturn)
  | switch hspells | bundle hspells | value hspells => exact .of_flag hspells.mem_flagsOf

/-- It gives a value to its parameter. -/
theorem Moves.exists_edge {given : Option (Given α)} (hturn : turn ∈ t.turns v)
    (hmove : t.Moves v turn given w) : ∃ step, t.Edge v.node step w.node ∧
      Step.parameters [step] = given.toList.map Given.parameter :=
  ⟨_, hmove.edge hturn, v.parameters_passed given⟩

/-- A reading follows a route and gives values to the parameters on it. -/
theorem Reads.exists_route {given : List (Given α)} (h : t.Reads v given u) :
    ∃ steps, t.Route v.node steps u.node ∧ Step.parameters steps = given.map Given.parameter := by
  induction h with
  | refl v => exact ⟨[], rfl, rfl⟩
  | step hturn hmove _ ih =>
    obtain ⟨step, hedge, hstep⟩ := hmove.exists_edge hturn
    obtain ⟨steps, hroute, hsteps⟩ := ih
    refine ⟨[step] ++ steps, ⟨_, hedge, hroute⟩, ?_⟩
    rw [Step.parameters_append, hstep, hsteps, List.map_append]

/-- The names in the context of an accepted reading are those to which it gave a value. -/
theorem Accepts.contains_iff {given : List (Given α)} {a : Arrival α σ} {principal : α}
    {line name : String} (h : t.Accepts (start principal line) given a) :
    a.context.bindings.contains name = true ↔ ∃ g ∈ given, g.parameter.name = name := by
  rw [h.context_eq, ← Bindings.isSome_get?]
  constructor
  · intro hsome
    by_contra hnone
    rw [Context.get?_given_of_ne fun g hg hname => hnone ⟨g, hg, hname⟩] at hsome
    cases hsome
  · intro hgiven
    obtain ⟨_, _, _, hvalue⟩ := Context.exists_get?_given hgiven (Context.ofLine principal line)
    exact Option.isSome_of_eq_some hvalue

/-! ## Lines that resolve -/

/-- The value that was read for a name is the one that the name has in the end. -/
def Stored (given : List (Given α)) (ctx : Context α) (name : String) (g : Given α) : Prop :=
  g ∈ given ∧ g.parameter.name = name ∧ ctx.bindings.get? name = some g.value

/-- What stands behind a line that resolved on a populated tree. -/
structure Passed (t : Tree α σ) (principal : α) (line : String) (r : Resolved α σ)
    (given : List (Given α)) : Prop where
  /-- It is the reading that the search took, and it is accepted with the command. -/
  accepts : t.Accepts (start principal line) given ⟨r.command,
    (t.search (start principal line)).cursor, (t.search (start principal line)).context⟩
  mem_commands : r.command ∈ t.commands
  /-- The values are those given, and those filled in after them. -/
  filled : ∃ ctx, fillParameters ((Context.ofLine principal line).given given)
    r.command.parameters = .ok ctx ∧ r.context.bindings = ctx.bindings
  /-- Every value was read for a parameter of some command. -/
  registered : ∀ g ∈ given, ∃ c ∈ t.commands, g.parameter ∈ c.parameters
  /-- The parameters on the route to an end of the command are those given. -/
  route : ∃ steps i, t.Route root steps i ∧ (t.node i).command = some r.command ∧
    Step.parameters steps = given.map Given.parameter

/-- The reading behind a line that resolved. -/
theorem Populated.exists_passed (h : t.Populated) {principal : α} {line : String}
    {r : Resolved α σ} (hparse : t.parse principal line = .ok r) :
    ∃ given, t.Passed principal line r given := by
  obtain ⟨hout, ctx, hfill, hcontext⟩ := exists_of_parse_eq_ok hparse
  obtain ⟨given, haccepts⟩ := h.grown.exists_accepts hout
  obtain ⟨u, hreads, _, _, hcommand, _⟩ := haccepts.accepted
  obtain ⟨steps, hroute, hsteps⟩ := hreads.exists_route
  obtain ⟨m⟩ := h.charted.chart
  have hregistered (g : Given α) (hg : g ∈ given) :
      ∃ c ∈ t.commands, g.parameter ∈ c.parameters := by
    have hmem : g.parameter ∈ Step.parameters steps := hsteps ▸ List.mem_map_of_mem hg
    exact m.exists_command_of_route hroute (Step.mem_parameters.mp hmem)
  refine ⟨given, ⟨haccepts, (m.passes_of_bound hroute hcommand).1, ⟨ctx, ?_, by rw [hcontext]⟩,
    hregistered, steps, u.node, hroute, hcommand, hsteps⟩⟩
  have hvalues := haccepts.context_eq
  rw [show (start principal line).context = Context.ofLine principal line from rfl] at hvalues
  rw [← hvalues]
  exact hfill

namespace Passed

variable {principal : α} {line : String} {r : Resolved α σ} {given : List (Given α)}

theorem sound (h : t.Passed principal line r given) (ht : t.Populated) : r.command.Sound :=
  (ht.charted.built r.command h.mem_commands).sound

/-- The arguments given are those that the command has up to a place where it may end. -/
theorem exists_passes (h : t.Passed principal line r given) (ht : t.Populated) :
    ∃ k way, r.command.Grafts k ∧ r.command.Passes k way ∧
      Step.parameters way = (given.map Given.parameter).filter (!·.isNamed) := by
  obtain ⟨steps, i, hroute, hcommand, hsteps⟩ := h.route
  obtain ⟨m⟩ := ht.charted.chart
  obtain ⟨_, k, hk, hpasses⟩ := m.passes_of_bound hroute hcommand
  exact ⟨k, _, hk, hpasses, by rw [Step.parameters_filter_isFlag, hsteps]⟩

/-- The flags given are a section that the plan of the command allows, if it is separate. -/
theorem exists_fits (h : t.Passed principal line r given) (ht : t.Populated)
    (hsep : t.Separate r.command) :
    ∃ k flags steps, r.command.Grafts k ∧ (t.plan r.command).Allows flags ∧
      List.Forall₂ Step.Fits steps (r.command.positionals.take k ++ flags.map .parameter) ∧
      Step.parameters steps = given.map Given.parameter := by
  obtain ⟨steps, i, hroute, hcommand, hsteps⟩ := h.route
  obtain ⟨m⟩ := ht.charted.chart
  obtain ⟨k, flags, hk, hallows, hfits⟩ := m.exists_fits_of_bound
    (fun c hc => (ht.charted.built c hc).sound) hsep hroute hcommand
  exact ⟨k, flags, steps, hk, hallows, hfits, hsteps⟩

/-- A flag given is one of a registered command. -/
theorem exists_mem_flags {g : Given α} (h : t.Passed principal line r given) (ht : t.Populated)
    (hg : g ∈ given) (hnamed : g.parameter.isNamed = true) :
    ∃ c ∈ t.commands, g.parameter ∈ c.flags := by
  obtain ⟨c, hc, hmem⟩ := h.registered g hg
  exact ⟨c, hc, (ht.charted.built c hc).sound.mem_flags hmem hnamed⟩

/-- If the command has a flag of its long name, it is one of a command that meets it. -/
theorem exists_meets {g : Given α} {p : Parameter α} (h : t.Passed principal line r given)
    (ht : t.Populated) (hg : g ∈ given) (hnamed : g.parameter.isNamed = true)
    (hp : p ∈ r.command.flags) (hlong : g.parameter.longName = p.longName) :
    ∃ c ∈ t.commands, c.Meets r.command ∧ g.parameter ∈ c.flags := by
  obtain ⟨steps, i, hroute, hcommand, hsteps⟩ := h.route
  obtain ⟨m⟩ := ht.charted.chart
  have hmem : .parameter g.parameter ∈ steps :=
    Step.mem_parameters.mp (hsteps ▸ List.mem_map_of_mem hg)
  exact m.exists_meets_of_bound (fun c hc => (ht.charted.built c hc).sound) hroute hcommand hmem
    hnamed hp hlong

/-- On an orderly command's line it then has that flag's name. -/
theorem name_eq_of_orderly {g : Given α} {p : Parameter α} (h : t.Passed principal line r given)
    (ht : t.Populated) (ho : t.Orderly r.command) (hg : g ∈ given)
    (hnamed : g.parameter.isNamed = true) (hp : p ∈ r.command.flags)
    (hlong : g.parameter.longName = p.longName) : g.parameter.name = p.name := by
  obtain ⟨c, hc, hmeets, hflag⟩ := h.exists_meets ht hg hnamed hp hlong
  exact ho.names_eq c hc hmeets _ hflag p hp hlong

/-- An argument given stands for a parameter of the command, and so does a flag if the command is
separate. -/
theorem exists_parameter {g : Given α} (h : t.Passed principal line r given) (ht : t.Populated)
    (hg : g ∈ given) (hplace : g.parameter.isNamed = false ∨ t.Separate r.command) :
    ∃ p ∈ r.command.parameters, g.parameter.longName = p.longName ∧
      g.parameter.interchangeable p = true := by
  by_cases hnamed : g.parameter.isNamed = true
  · obtain ⟨k, flags, steps, _, hallows, hfits, hsteps⟩ :=
      h.exists_fits ht (hplace.resolve_left (by rw [hnamed]; simp))
    have hmem : g.parameter ∈ Step.parameters steps := hsteps ▸ List.mem_map_of_mem hg
    obtain ⟨p, hp, hfit⟩ := Step.exists_mem_left_of_fits hfits hmem
    exact ⟨p, Command.mem_parameters_of_mem_append hallows.subset hp, hfit⟩
  · obtain ⟨k, way, _, hpasses, hway⟩ := h.exists_passes ht
    have hmem : g.parameter ∈ Step.parameters way := by
      rw [hway]
      exact List.mem_filter.mpr ⟨List.mem_map_of_mem hg, by simp [hnamed]⟩
    obtain ⟨p, hp, hfit⟩ := Step.exists_mem_left_of_fits hpasses hmem
    exact ⟨p, Command.mem_parameters.mpr (.inl (List.mem_of_mem_take hp)), hfit⟩

end Passed

end Tree

end CommandLine
