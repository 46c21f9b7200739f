import CommandLine.Proofs.Tree.Separate

/-!
# The tree of one command

A command that is inserted into an empty tree is never refused, since only commands that clash are.
Within the threshold the paths from the root to where it is bound are then known exactly: the
command's words and arguments up to a place behind which all others are optional, then all required
flags in any order, then some of the optional ones, each at most once (`Command.Shape`). Each such
sequence is the labels of one path.

* `Command.Sound.not_clashes` — a command does not clash with itself;
* `Chart.path_unique` — a path is given by its labels;
* `exact_shape_of_one_command` — the paths into the ends of the command.
-/

set_option autoImplicit false

namespace CommandLine

variable {α σ : Type}

/-- The labels on a path of a command: its first words and arguments, of which the others are
optional, then its required flags in some order and some of its optional flags. -/
def Command.Shape (c : Command α σ) (labels : List (Tree.Label α)) : Prop :=
  ∃ k flags, c.Grafts k ∧ Parameter.Admits c.flags flags ∧
    labels = (c.positionals.take k ++ flags.map Step.parameter).map Step.label

namespace Command.Sound

variable {c : Command α σ} {p q : Parameter α}

/-- Parameters of one command that could share a node are the same. -/
theorem eq_of_fits (hs : c.Sound) (hq : q ∈ c.parameters) (hp : p ∈ c.parameters)
    (hfit : (Step.parameter q).Fits (.parameter p)) : q = p := by
  obtain ⟨hlong, hshape⟩ := hfit
  have hnamed := Parameter.isNamed_eq_of_interchangeable hshape
  cases hplace : p.isNamed with
  | true =>
    exact List.inj_on_of_nodup_map hs.longNames_nodup (hs.mem_flags hq (hnamed.trans hplace))
      (hs.mem_flags hp hplace) hlong
  | false =>
    exact List.inj_on_of_nodup_map hs.names_nodup hq hp
      (Parameter.name_eq_of_longName_eq (hnamed.trans hplace) hplace hlong)

/-- Steps that stand for those of a command are the command's own if their parameters are. -/
theorem eq_of_forall₂_fits (hs : c.Sound) {steps steps' : List (Step α)}
    (hfits : List.Forall₂ Step.Fits steps steps')
    (hsteps : ∀ p, .parameter p ∈ steps → p ∈ c.parameters)
    (hsteps' : ∀ p, .parameter p ∈ steps' → p ∈ c.parameters) : steps = steps' := by
  induction hfits with
  | nil => rfl
  | @cons s step steps steps' hfit _ ih =>
    have hrest := ih (fun p hp => hsteps p (List.mem_cons_of_mem s hp))
      fun p hp => hsteps' p (List.mem_cons_of_mem step hp)
    have hhead : s = step := by
      cases s with
      | literal w => exact hfit.of_literal.symm
      | parameter q =>
        cases step with
        | literal w => exact hfit.elim
        | parameter p =>
          exact congrArg Step.parameter
            (hs.eq_of_fits (hsteps q List.mem_cons_self) (hsteps' p List.mem_cons_self) hfit)
    rw [hhead, hrest]

/-- A command does not clash with itself. -/
theorem not_clashes (hs : c.Sound) : ¬c.Clashes c := by
  rintro (⟨p, hp, hplace, hword⟩ | ⟨p, hp, hplace, hword⟩ | ⟨p, hp, q, hq, hpn, hqn, hlong, hshape⟩)
  · exact hs.name_ne_word p hp hplace hword
  · exact hs.name_ne_word p hp hplace hword
  · have heq : q = p := List.inj_on_of_nodup_map hs.longNames_nodup (hs.mem_flags hq hqn)
      (hs.mem_flags hp hpn) hlong
    rw [heq, Parameter.interchangeable_self] at hshape
    cases hshape

end Command.Sound

namespace Tree

/-! ## Paths -/

/-- The nodes on a way down from a node, each one a child of the one before. -/
def Path (t : Tree α σ) : NodeIndex → List NodeIndex → Prop
  | _, [] => True
  | i, j :: path => t.Child i j ∧ t.Path j path

/-- The labels of some nodes. -/
def labels (t : Tree α σ) (path : List NodeIndex) : List (Tree.Label α) :=
  path.map fun i => (t.node i).label

variable {t : Tree α σ} {i j : NodeIndex} {c : Command α σ} {known : Command α σ → Prop}

namespace Chart

/-- A path is a route, whose steps are the labels of its nodes. -/
theorem exists_route_of_path (m : Chart known t) {path : List NodeIndex} (hi : i < t.nodes.size)
    (h : t.Path i path) :
    ∃ steps, t.Route i steps (path.getLastD i) ∧ t.labels path = steps.map Step.label := by
  induction path generalizing i with
  | nil => exact ⟨[], rfl, rfl⟩
  | cons j path ih =>
    obtain ⟨hchild, hpath⟩ := h
    obtain ⟨step, hedge, hlabel⟩ := m.exists_edge_of_child hchild
    obtain ⟨steps, hroute, hlabels⟩ := ih (m.lt_of_child hchild) hpath
    refine ⟨step :: steps, ⟨j, hedge, ?_⟩, ?_⟩
    · rw [List.getLastD_cons]
      exact hroute
    · rw [List.map_cons, ← hlabels, ← hlabel]
      rfl

/-- And the other way round. -/
theorem exists_path_of_route (m : Chart known t) {steps : List (Step α)} (hi : i < t.nodes.size)
    (h : t.Route i steps j) :
    ∃ path, t.Path i path ∧ path.getLastD i = j ∧ t.labels path = steps.map Step.label := by
  induction steps generalizing i with
  | nil => exact ⟨[], trivial, h, rfl⟩
  | cons step steps ih =>
    obtain ⟨l, hedge, hroute⟩ := h
    have hleads := m.leads_of_edge hi hedge
    obtain ⟨path, hpath, hlast, hlabels⟩ := ih hleads.lt hroute
    refine ⟨l :: path, ⟨hedge.child, hpath⟩, ?_, ?_⟩
    · rw [List.getLastD_cons, hlast]
    · rw [List.map_cons, ← hlabels, ← hleads.label_eq]
      rfl

/-- A path is given by its labels. -/
theorem path_unique (m : Chart known t) {path path' : List NodeIndex} (hi : i < t.nodes.size)
    (h : t.Path i path) (h' : t.Path i path') (heq : t.labels path = t.labels path') :
    path = path' := by
  induction path generalizing i path' with
  | nil =>
    cases path' with
    | nil => rfl
    | cons j path' => cases heq
  | cons j path ih =>
    cases path' with
    | nil => cases heq
    | cons l path' =>
      obtain ⟨hlabel, hlabels⟩ := List.cons.inj heq
      obtain ⟨step, hedge, hstep⟩ := m.exists_edge_of_child h.1
      obtain ⟨step', hedge', hstep'⟩ := m.exists_edge_of_child h'.1
      obtain rfl : step = step' := Step.label_injective (hstep.symm.trans (hlabel.trans hstep'))
      obtain rfl := m.edge_unique hi hedge hedge' (.refl step)
      rw [ih (m.lt_of_child h.1) h.2 h'.2 hlabels]

end Chart

/-! ## One insertion -/

/-- Nothing is in the way of the first insertion, after which the tree knows that command only. -/
theorem exists_insert_empty (hc : c.Built) (s : Settings) :
    ∃ (t : Tree α σ) (_ : Chart (· = c) t), Growth.insert c (empty s) = .ok () t ∧
      t.settings = s ∧ ∀ k, c.Grafts k → t.Laid c k := by
  let m : Chart (· = c) (empty s : Tree α σ) := .empty _ s
  cases hrun : Growth.insert c (empty s) with
  | error e t' =>
    obtain ⟨_, _, _, rfl, hclash⟩ := m.exists_of_insert_error rfl hc.sound hrun
    exact (hc.sound.not_clashes hclash).elim
  | ok b t' =>
    obtain ⟨t'', m', hext, hlaid, rfl⟩ := m.exists_of_insert_ok rfl hc.sound hrun
    exact ⟨{ t'' with commands := t''.commands.push c }, m'.congr rfl rfl, rfl, hext.settings_eq,
      fun k hk => (hlaid k hk).grow (.of_nodes_eq rfl rfl)⟩

/-- **The paths of one command.** A built command whose flags are within the threshold can be
inserted into an empty tree. The labels on the paths from the root to the nodes where it is bound
are then exactly those of its shape, and each such sequence is the labels of one path. -/
theorem exact_shape_of_one_command {s : Settings} (hc : c.Built)
    (hthreshold : c.flags.length ≤ s.threshold) :
    ∃ t : Tree α σ, Growth.insert c (empty s) = .ok () t ∧
      (∀ labels, (∃ path, t.Path root path ∧ t.labels path = labels ∧
          (t.node (path.getLastD root)).command = some c) ↔ c.Shape labels) ∧
      ∀ labels, c.Shape labels → ∃! path, t.Path root path ∧ t.labels path = labels := by
  obtain ⟨t, m, hrun, rfl, hlaid⟩ := exists_insert_empty hc s
  have hs : c.Sound := hc.sound
  have hsound (c' : Command α σ) (hc' : c' = c) : c'.Sound := hc' ▸ hs
  have hallows {flags : List (Parameter α)} :
      (t.plan c).Allows flags ↔ Parameter.Admits c.flags flags :=
    FlagPlan.allows_ofFlags_iff (.of_map _ hs.longNames_nodup) hthreshold
  -- Every parameter on a route is the command's own, so steps that fit are the same.
  have hsteps {steps : List (Step α)} {i : NodeIndex} {k : Nat} {flags : List (Parameter α)}
      (hroute : t.Route root steps i) (hflags : (t.plan c).Allows flags)
      (hfits : List.Forall₂ Step.Fits steps (c.positionals.take k ++ flags.map .parameter)) :
      steps = c.positionals.take k ++ flags.map .parameter := by
    refine hs.eq_of_forall₂_fits hfits ?_ fun p hp =>
      Command.mem_parameters_of_mem_append hflags.subset hp
    intro p hp
    obtain ⟨_, rfl, hmem⟩ := m.exists_command_of_route hroute hp
    exact hmem
  have hpath (labels : List (Label α)) (hshape : c.Shape labels) :
      ∃ path, t.Path root path ∧ t.labels path = labels ∧
        (t.node (path.getLastD root)).command = some c := by
    obtain ⟨k, flags, hk, hadmits, rfl⟩ := hshape
    obtain ⟨i, ⟨steps, hroute, hfits⟩, hcommand⟩ :=
      (hlaid k hk).sections hthreshold flags (hallows.mpr hadmits)
    obtain rfl := hsteps hroute (hallows.mpr hadmits) hfits
    obtain ⟨path, hpath, hlast, hlabels⟩ := m.exists_path_of_route m.size_pos hroute
    refine ⟨path, hpath, hlabels, ?_⟩
    obtain ⟨c', hc'⟩ := Option.isSome_iff_exists.mp hcommand
    obtain ⟨rfl, _⟩ := m.passes_of_bound hroute hc'
    exact hlast ▸ hc'
  refine ⟨t, hrun, fun labels => ⟨?_, hpath labels⟩, ?_⟩
  · rintro ⟨path, hpath, rfl, hcommand⟩
    obtain ⟨steps, hroute, hlabels⟩ := m.exists_route_of_path m.size_pos hpath
    have hseparate : c.Separate (· = c) t.settings.threshold := fun _ hc' _ => .inl hc'
    obtain ⟨k, flags, hk, hflags, hfits⟩ :=
      m.exists_fits_of_bound hsound hseparate hroute hcommand
    exact ⟨k, flags, hk, hallows.mp hflags, by rw [hlabels, hsteps hroute hflags hfits]⟩
  · intro labels hshape
    obtain ⟨path, hpath, hlabels, _⟩ := hpath labels hshape
    refine ⟨path, ⟨hpath, hlabels⟩, ?_⟩
    rintro path' ⟨hpath', hlabels'⟩
    exact m.path_unique m.size_pos hpath' hpath (hlabels'.trans hlabels.symm)

/-- A command with a required flag and a switch. -/
def going : Command Unit Unit := declaration.command 0 "go"
where
  declaration : Declaration Unit Unit :=
    { name := "go", steps := [.parameter max, .parameter fast] }
  max : Parameter Unit := (Parameter.ofBuiltin "max" (.integer none none)).asFlag
  fast : Parameter Unit := .switch "fast"

theorem built_going : going.Built := by
  have hvalid : going.declaration.validate = .ok () := by decide +kernel
  exact Declaration.built_command hvalid 0 List.mem_cons_self

/-- The required flag comes first and the switch may follow it, on one path. -/
theorem exact_shape_of_one_command_going :
    going.Built ∧ going.flags.length ≤ ({} : Settings).threshold ∧
      ∃ t : Tree Unit Unit, Growth.insert going (empty {}) = .ok () t ∧
        (∃! path, t.Path root path ∧
          t.labels path = [.literal "go", .parameter going.max, .parameter going.fast]) ∧
        ¬∃ path, t.Path root path ∧
          t.labels path = [.literal "go", .parameter going.fast, .parameter going.max] ∧
          (t.node (path.getLastD root)).command = some going := by
  have hthreshold : going.flags.length ≤ ({} : Settings).threshold := by decide
  obtain ⟨t, hrun, hiff, hunique⟩ := exact_shape_of_one_command built_going hthreshold
  refine ⟨built_going, hthreshold, t, hrun, hunique _ ?_, ?_⟩
  · exact ⟨1, [going.max, going.fast], going.grafts_length,
      ⟨[going.max], [going.fast], rfl, .refl _, List.nodup_singleton _, List.Subset.refl _⟩, rfl⟩
  · rw [hiff]
    rintro ⟨k, flags, hk, ⟨first, last, rfl, hfirst, _, _⟩, hlabels⟩
    obtain rfl : k = 1 := Nat.le_antisymm hk.le hk.pos
    obtain rfl : first = [going.max] := List.perm_singleton.mp hfirst
    obtain ⟨_, hrest⟩ := List.cons.inj hlabels
    obtain ⟨hnext, _⟩ := List.cons.inj hrest
    have hname : going.fast.name = going.max.name :=
      congrArg Parameter.name (Label.parameter.inj hnext)
    exact absurd hname (by decide)

end Tree

end CommandLine
