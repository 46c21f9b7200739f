import CommandLine.Proofs.Tree.Chart

/-!
# Names on a way

Commands take pairwise distinct names for their parameters, and nodes are shared only between
parameters of one long name. So no name occurs twice on the way to a node, and
the name of a flag occurs on no way to the flag's node. A search depends on this when it undoes
values by cutting them off.

* `Chart.names_nodup` — no name occurs twice on a way;
* `Chart.name_notMem_of_flag` — a flag's name is new where the flag is.
-/

set_option autoImplicit false

namespace CommandLine

variable {α σ : Type}

/-- The names of the parameters on a way. -/
def Step.names (way : List (Step α)) : List String :=
  (way.filterMap Step.parameter?).map Parameter.name

/-- Steps that fit arguments have their names. -/
theorem Step.names_eq_of_fits {way steps : List (Step α)} (h : List.Forall₂ Step.Fits way steps)
    (hplace : ∀ p, .parameter p ∈ steps → p.isNamed = false) :
    Step.names way = Step.names steps := by
  induction h with
  | nil => rfl
  | @cons s step way steps hfit _ ih =>
    have hnames := ih fun p hp => hplace p (List.mem_cons_of_mem step hp)
    cases step with
    | literal w =>
      cases s with
      | literal v => exact hnames
      | parameter q => exact hfit.elim
    | parameter p =>
      cases s with
      | literal v => exact hfit.elim
      | parameter q =>
        obtain ⟨hlong, hshape⟩ := hfit
        have hp : p.isNamed = false := hplace p List.mem_cons_self
        have hq : q.isNamed = false :=
          (Parameter.isNamed_eq_of_interchangeable hshape).trans hp
        -- A fit compares long names, and an argument's long name is its name.
        have hname : q.name = p.name := Parameter.name_eq_of_longName_eq hq hp hlong
        unfold Step.names at hnames ⊢
        simp [Step.parameter?, hname, hnames]

namespace Command

variable {c : Command α σ} {k : Nat} {way : List (Step α)}

theorem names_parameters (c : Command α σ) :
    c.parameters.map Parameter.name = Step.names c.positionals ++ c.flags.map Parameter.name := by
  have hflags : (c.flags.map Step.parameter).filterMap Step.parameter? = c.flags := by
    rw [List.filterMap_map, show Step.parameter? ∘ Step.parameter = @some (Parameter α) from rfl,
      List.filterMap_some]
  rw [parameters, steps, List.filterMap_append, hflags, List.map_append, Step.names]

theorem Sound.unnamed_of_mem_positionals {p : Parameter α} (hs : c.Sound)
    (hp : .parameter p ∈ c.positionals) : p.isNamed = false := by
  rw [positionals, List.mem_cons] at hp
  exact hs.unnamed p (hp.resolve_left (by simp))

/-- The parameters on the first steps of a command and among its flags are its own. -/
theorem mem_parameters_of_mem_append {k : Nat} {flags : List (Parameter α)}
    {p : Parameter α} (hflags : flags ⊆ c.flags)
    (hp : .parameter p ∈ c.positionals.take k ++ flags.map Step.parameter) : p ∈ c.parameters := by
  refine Command.mem_parameters.mpr ((List.mem_append.mp hp).imp List.mem_of_mem_take ?_)
  intro hmem
  obtain ⟨q, hq, heq⟩ := List.mem_map.mp hmem
  exact Step.parameter.inj heq ▸ hflags hq

/-- What is named is a flag. -/
theorem Sound.mem_flags {p : Parameter α} (hs : c.Sound) (hp : p ∈ c.parameters)
    (hnamed : p.isNamed = true) : p ∈ c.flags := by
  -- Parameters on the path are arguments, whatever the flags are called.
  rcases mem_parameters.mp hp with hp | hp
  · rw [hs.unnamed_of_mem_positionals hp] at hnamed
    cases hnamed
  · exact hp

/-- A way has the first argument names of the command that it passes. -/
theorem Passes.names_eq (h : c.Passes k way) (hs : c.Sound) :
    Step.names way = Step.names (c.positionals.take k) :=
  Step.names_eq_of_fits h fun _ hp => hs.unnamed_of_mem_positionals (List.mem_of_mem_take hp)

theorem names_take_sublist (c : Command α σ) (k : Nat) :
    (Step.names (c.positionals.take k)).Sublist (Step.names c.positionals) :=
  ((List.take_sublist k c.positionals).filterMap _).map _

end Command

namespace Tree

variable {t : Tree α σ} {i j : NodeIndex} {p : Parameter α}

/-- A node that stands for a flag or a switch. -/
def FlagNode (t : Tree α σ) (i : NodeIndex) : Prop :=
  ∃ p : Parameter α, (t.node i).label = .parameter p ∧ p.isNamed = true

namespace Chart

variable {known : Command α σ → Prop}

/-- Flag nodes have no children but flags. -/
theorem childless_of_flagNode (m : Chart known t) (hi : i < t.nodes.size)
    (h : t.FlagNode i) : (t.node i).literals = [] ∧ (t.node i).arguments = [] := by
  obtain ⟨p, hlabel, hnamed⟩ := h
  exact (m.stands i hi).leaf p hlabel hnamed

variable (m : Chart known t) (hsound : ∀ c, known c → c.Sound)
include hsound

/-- No name occurs twice on a way. -/
theorem names_nodup (hi : i < t.nodes.size) : (Step.names (m.way i)).Nodup := by
  -- The root was made by no command, so it has no origin to ask.
  by_cases hne : i = root
  · subst hne
    rw [m.way_root]
    exact List.nodup_nil
  · obtain ⟨c, hc, _, _, ⟨k, _, hpasses⟩, _⟩ := m.origin i hi hne
    have hnodup := (hsound c hc).names_nodup
    rw [c.names_parameters] at hnodup
    -- The node may be shared by now: its way is read off the command that made it.
    rw [hpasses.names_eq (hsound c hc)]
    exact (c.names_take_sublist k).nodup (List.nodup_append.mp hnodup).1

/-- The name of a flag is on no way to the flag's node. -/
theorem name_notMem_of_flag (hlabel : (t.node i).label = .parameter p)
    (hnamed : p.isNamed = true) : p.name ∉ Step.names (m.way i) := by
  obtain ⟨c, hc, _, hmem, ⟨k, _, hpasses⟩, _⟩ := m.exists_made hlabel (by simp)
  have hs := hsound c hc
  have hflag : p ∈ c.flags := hs.mem_flags (hmem p rfl) hnamed
  have hnodup := hs.names_nodup
  rw [c.names_parameters, List.nodup_append] at hnodup
  rw [hpasses.names_eq hs]
  intro hname
  -- The flag and the arguments above it are parameters of one command.
  exact hnodup.2.2 p.name ((c.names_take_sublist k).subset hname) p.name
    (List.mem_map_of_mem hflag) rfl

end Chart

end Tree

end CommandLine
