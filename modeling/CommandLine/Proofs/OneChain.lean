import CommandLine.Proofs.OneCommand
import CommandLine.Proofs.Tree.Fresh

/-!
# The chain of one command

Beyond the threshold the flags of a command form a chain. The paths from the root to the ends of the
only command of a tree are then known exactly, too: its words and arguments up to a place behind
which all others are optional, all its required flags in the order of the declaration, and any of
its optional flags, again in that order (`Command.ChainShape`). Since flags are linked to later ones
only, no path comes back to a node.

* `Chart.exists_steps_of_bound` — no other path leads to an end;
* `Chart.not_cycle` — no path leads from a node back to it;
* `exact_shape_of_one_chain` — the paths into the ends of the command.
-/

set_option autoImplicit false

namespace CommandLine

variable {α σ : Type}

/-- The labels on a path of a command whose flags form a chain: its first words and arguments, of
which the others are optional, then its required flags and some of its optional flags in order. -/
def Command.ChainShape (c : Command α σ) (labels : List (Tree.Label α)) : Prop :=
  ∃ k last, c.Grafts k ∧ last.Sublist (Parameter.optionals c.flags) ∧
    labels = (c.positionals.take k ++
      (Parameter.required c.flags ++ last).map Step.parameter).map Step.label

theorem Step.parameter_injective : Function.Injective (@Step.parameter α) :=
  fun _ _ => Step.parameter.inj

/-- Neither a word nor an argument of a command is a flag. -/
theorem Command.Sound.isFlag_of_mem_positionals {c : Command α σ} {step : Step α} (hs : c.Sound)
    (h : step ∈ c.positionals) : step.isFlag = false := by
  cases step with
  | literal w => rfl
  | parameter p => exact hs.unnamed_of_mem_positionals h

namespace Tree

variable {t : Tree α σ} {i j : NodeIndex} {c : Command α σ} {k : Nat} {steps : List (Step α)}
  {flags : List (Parameter α)}

namespace Chart

/-- Where there is one command only, steps that stand for its steps are its steps. -/
theorem eq_of_fits_of_route (m : Chart (· = c) t) (hs : c.Sound) (hroute : t.Route root steps i)
    (hflags : flags ⊆ c.flags)
    (hfits : List.Forall₂ Step.Fits steps (c.positionals.take k ++ flags.map .parameter)) :
    steps = c.positionals.take k ++ flags.map .parameter := by
  refine hs.eq_of_forall₂_fits hfits ?_ fun p hp => Command.mem_parameters_of_mem_append hflags hp
  intro p hp
  obtain ⟨_, rfl, hmem⟩ := m.exists_command_of_route hroute hp
  exact hmem

/-- A route into an end of the only command goes past an allowed flag section. -/
theorem exists_steps_of_bound (m : Chart (· = c) t) (hs : c.Sound) (hroute : t.Route root steps i)
    (hcommand : (t.node i).command = some c) :
    ∃ k flags, c.Grafts k ∧ (t.plan c).Allows flags ∧
      steps = c.positionals.take k ++ flags.map .parameter := by
  have hseparate : c.Separate (· = c) t.settings.threshold := fun _ hc' _ => .inl hc'
  obtain ⟨k, flags, hk, hflags, hfits⟩ :=
    m.exists_fits_of_bound (fun _ h => h ▸ hs) hseparate hroute hcommand
  exact ⟨k, flags, hk, hflags, m.eq_of_fits_of_route hs hroute hflags.subset hfits⟩

/-- No route leads from a node of the only command back to it. Words and arguments would make the
way longer, and a section has no flag twice. -/
theorem not_cycle (m : Chart (· = c) t) (hs : c.Sound) (hi : i < t.nodes.size)
    (hroute : t.Route i steps i) : steps = [] := by
  cases steps using List.reverseRecOn with
  | nil => rfl
  | append_singleton steps step =>
    exfalso
    obtain ⟨l, hbefore, hedge⟩ := exists_route_snoc hroute
    have hl := (m.way_append_of_route hi hbefore).1
    have hnone : (steps ++ [step]).filter (!·.isFlag) = [] := by
      have hway := (m.way_append_of_route hi hroute).2
      exact List.append_right_eq_self.mp hway.symm
    have hflag : step.isFlag = true := by
      simpa using List.filter_eq_nil_iff.mp hnone step (List.mem_append_right _ List.mem_cons_self)
    obtain ⟨q, rfl, hq⟩ :=
      m.exists_mem_flagsOf_of_edge hl hedge ((m.flagNode_iff_of_edge hl hedge).mpr hflag)
    -- A command comes past the flag once, and round the cycle once more.
    obtain ⟨c', k, flags, p, hc', hserves⟩ := m.exists_serves hl hq
    obtain rfl : c = c' := hc'.symm
    obtain ⟨first, hfirst, _⟩ := hserves.visits.trail
    have hround : t.Route root ((first ++ [.parameter q]) ++ (steps ++ [.parameter q])) i :=
      (hfirst.snoc hedge).append hroute
    have hvisits : t.Visits m.way c k (flags ++ [p]) i :=
      ⟨m.way_of_mem_flagsOf hl hq ▸ hserves.visits.passes,
        hserves.visits.trail.flag hedge hserves.fits⟩
    obtain ⟨given, hfits, hgiven⟩ := m.exists_fits_of_route (fun _ h => h ▸ hs)
      (fun _ hc' _ => .inl hc') hround rfl hserves.grafts hvisits hserves.begins
    obtain ⟨rest, hallows⟩ := hserves.begins
    have hsection := hgiven rest hallows
    have hsteps := m.eq_of_fits_of_route hs hround hsection.begins.of_append.subset hfits
    have hnodup : (given.map Step.parameter).Nodup := by
      have hall := hsection.nodup_map hs.longNames_nodup
      rw [List.map_append] at hall
      exact (List.nodup_append.mp hall).1.of_map.map Step.parameter_injective
    have hplain : (c.positionals.take k).filter Step.isFlag = [] := by
      rw [List.filter_eq_nil_iff]
      intro step hstep
      simpa using hs.isFlag_of_mem_positionals (List.mem_of_mem_take hstep)
    have hflags : ((first ++ [Step.parameter q]) ++ (steps ++ [Step.parameter q])).filter
        Step.isFlag = (given.map Step.parameter).filter Step.isFlag := by
      rw [hsteps, List.filter_append, hplain, List.nil_append]
    have hapart := hnodup.filter Step.isFlag
    rw [← hflags, List.filter_append, List.nodup_append] at hapart
    have htwice (steps : List (Step α)) :
        Step.parameter q ∈ (steps ++ [Step.parameter q]).filter Step.isFlag :=
      List.mem_filter.mpr ⟨List.mem_append_right _ List.mem_cons_self, hflag⟩
    exact hapart.2.2 _ (htwice first) _ (htwice steps) rfl

end Chart

/-- **The paths of one chain.** A built command with more flags than the threshold can be inserted
into an empty tree. The labels on the paths from the root to the nodes where it is bound are then
exactly those of its shape, and no path leads from a node back to it. -/
theorem exact_shape_of_one_chain {s : Settings} (hc : c.Built)
    (hthreshold : s.threshold < c.flags.length) :
    ∃ t : Tree α σ, Growth.insert c (empty s) = .ok () t ∧
      (∀ labels, (∃ path, t.Path root path ∧ t.labels path = labels ∧
          (t.node (path.getLastD root)).command = some c) ↔ c.ChainShape labels) ∧
      ∀ i path, path ≠ [] → t.Path i path → path.getLastD i ≠ i := by
  obtain ⟨t, m, hrun, rfl, _⟩ := exists_insert_empty hc s
  have hs : c.Sound := hc.sound
  have hplan : t.plan c = .chain (Parameter.required c.flags) (Parameter.optionals c.flags) :=
    if_pos hthreshold
  refine ⟨t, hrun, fun labels => ⟨?_, ?_⟩, ?_⟩
  · rintro ⟨path, hpath, rfl, hcommand⟩
    obtain ⟨steps, hroute, hlabels⟩ := m.exists_route_of_path m.size_pos hpath
    obtain ⟨k, flags, hk, hallows, rfl⟩ := m.exists_steps_of_bound hs hroute hcommand
    rw [hplan] at hallows
    obtain ⟨last, rfl, hlast⟩ := hallows
    exact ⟨k, last, hk, hlast, hlabels⟩
  · -- One command was inserted, so whatever is bound at the end of the route is that command.
    rintro ⟨k, last, hk, hlast, rfl⟩
    obtain ⟨i, hroute, hcommand⟩ := exists_route_of_insert_empty hs hthreshold hrun hk hlast
    obtain ⟨path, hpath, hend, hlabels⟩ := m.exists_path_of_route m.size_pos hroute
    obtain ⟨c', hc'⟩ := Option.isSome_iff_exists.mp hcommand
    obtain rfl : c' = c := m.known_of_command hc'
    exact ⟨path, hpath, hlabels, hend ▸ hc'⟩
  · intro i path hne hpath hend
    have hi : i < t.nodes.size := by
      cases path with
      | nil => exact (hne rfl).elim
      | cons j path => exact hpath.1.parent_lt
    obtain ⟨steps, hroute, hlabels⟩ := m.exists_route_of_path hi hpath
    obtain rfl := m.not_cycle hs hi (hend ▸ hroute)
    exact hne (List.map_eq_nil_iff.mp hlabels)

/-- A command with a required flag, an optional flag and a switch. -/
def fetching : Command Unit Unit := declaration.command 0 "fetch"
where
  declaration : Declaration Unit Unit :=
    { name := "fetch", steps := [.parameter tag, .parameter depth, .parameter force] }
  tag : Parameter Unit := (Parameter.ofBuiltin "tag" (.word none none)).asFlag.asOptional
  depth : Parameter Unit := (Parameter.ofBuiltin "depth" (.integer none none)).asFlag
  force : Parameter Unit := .switch "force"

theorem built_fetching : fetching.Built := by
  have hvalid : fetching.declaration.validate = .ok () := by decide +kernel
  exact Declaration.built_command hvalid 0 List.mem_cons_self

/-- Beyond a threshold of two, the optional flag may be left out before the switch but does not
follow it. -/
theorem exact_shape_of_one_chain_fetching :
    fetching.Built ∧ ({ threshold := 2 } : Settings).threshold < fetching.flags.length ∧
      ∃ t : Tree Unit Unit, Growth.insert fetching (empty { threshold := 2 }) = .ok () t ∧
        (∃ path, t.Path root path ∧
          t.labels path = [.literal "fetch", .parameter fetching.depth, .parameter fetching.force] ∧
          (t.node (path.getLastD root)).command = some fetching) ∧
        ¬∃ path, t.Path root path ∧
          t.labels path = [.literal "fetch", .parameter fetching.depth, .parameter fetching.force,
            .parameter fetching.tag] ∧
          (t.node (path.getLastD root)).command = some fetching := by
  have hthreshold : ({ threshold := 2 } : Settings).threshold < fetching.flags.length := by decide
  obtain ⟨t, hrun, hiff, _⟩ := exact_shape_of_one_chain built_fetching hthreshold
  refine ⟨built_fetching, hthreshold, t, hrun, ?_, ?_⟩
  · rw [hiff]
    exact ⟨1, [fetching.force], fetching.grafts_length,
      .cons fetching.tag (.refl [fetching.force]), rfl⟩
  · rw [hiff]
    rintro ⟨k, last, hk, hlast, hlabels⟩
    obtain rfl : k = 1 := Nat.le_antisymm hk.le hk.pos
    -- Labels determine steps and steps their parameters, so the path fixes the flags given.
    obtain rfl : last = [fetching.force, fetching.tag] := by
      obtain ⟨_, hrest⟩ := List.cons.inj hlabels
      obtain ⟨_, hrest⟩ := List.cons.inj hrest
      have hmap : ([fetching.force, fetching.tag].map Step.parameter).map Step.label =
          (last.map Step.parameter).map Step.label := hrest
      have hsteps := List.map_injective_iff.mpr Step.label_injective hmap
      exact (List.map_injective_iff.mpr Step.parameter_injective hsteps).symm
    have hnames := hlast.map Parameter.name
    exact absurd hnames (by decide)

end Tree

end CommandLine
