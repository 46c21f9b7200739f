import Mathlib.Data.List.Induction
import Mathlib.Data.List.Pairwise
import CommandLine.Proofs.Tree.Charted
import CommandLine.Proofs.Tree.Names

/-!
# Steps on a chart

What a chart says of the edges and routes of its tree: which nodes they lead to, what of a route is
on the way to its end, and that no two children of a node stand for the same step. So a route is
given by its steps, and routes whose steps stand for the same come to the same node.

* `Chart.leads_of_edge`, `Chart.way_of_route` — where edges and routes lead;
* `Chart.edge_unique`, `Chart.route_unique`, `Chart.steps_unique` — that they lead to one node
  only, by the same steps.
-/

set_option autoImplicit false

namespace CommandLine

variable {α σ : Type}

/-- What a node that a step leads to stands for. -/
def Step.label : Step α → Tree.Label α
  | .literal w => .literal w
  | .parameter p => .parameter p

theorem Step.label_ne_root (step : Step α) : step.label ≠ .root := by
  cases step <;> simp [Step.label]

/-- Steps that lead to nodes of one label are the same. -/
theorem Step.label_injective : Function.Injective (@Step.label α) := by
  intro step step' h
  cases step <;> cases step' <;> simp_all [Step.label]

/-- What a node adds to the way is its step, unless that is a flag. -/
theorem Step.shown_label (step : Step α) : step.label.shown = [step].filter (!·.isFlag) := by
  cases step with
  | literal w => rfl
  | parameter p =>
    cases hnamed : p.isNamed <;> simp [Step.label, Tree.Label.shown, hnamed]

/-- Steps that fit each other are both flags or neither. -/
theorem Step.isFlag_eq_of_fits {s step : Step α} (h : s.Fits step) : s.isFlag = step.isFlag := by
  cases s with
  | literal v =>
    obtain rfl := h.of_literal
    rfl
  | parameter q =>
    cases step with
    | literal w => exact h.elim
    | parameter p => exact Parameter.isNamed_eq_of_interchangeable h.2

/-- Fitting goes both ways. -/
theorem Step.Fits.symm {s step : Step α} (h : s.Fits step) : step.Fits s := by
  cases s with
  | literal v =>
    obtain rfl := h.of_literal
    exact .refl _
  | parameter q =>
    cases step with
    | literal w => exact h.elim
    | parameter p => exact ⟨h.1.symm, by rw [Parameter.interchangeable_comm, h.2]⟩

theorem Step.Fits.trans {s step step' : Step α} (h : s.Fits step) (h' : step.Fits step') :
    s.Fits step' := by
  cases s with
  | literal v =>
    obtain rfl := h.of_literal
    exact h'
  | parameter q =>
    cases step with
    | literal w => exact h.elim
    | parameter p =>
      cases step' with
      | literal w => exact h'.elim
      | parameter r => exact ⟨h.1.trans h'.1, Parameter.interchangeable_trans h.2 h'.2⟩

/-- Steps that stand for the same steps stand for each other. -/
theorem Step.forall₂_fits_trans {steps steps' way : List (Step α)}
    (h : List.Forall₂ Step.Fits steps way) (h' : List.Forall₂ Step.Fits steps' way) :
    List.Forall₂ Step.Fits steps steps' := by
  induction h generalizing steps' with
  | nil =>
    cases h'
    exact .nil
  | cons hfit _ ih =>
    cases h' with
    | cons hfit' h' => exact .cons (hfit.trans hfit'.symm) (ih h')

namespace Tree.Chart

variable {known : Command α σ → Prop} {t : Tree α σ} {i j : NodeIndex} {c : Command α σ} {k : Nat}
  {flags : List (Parameter α)} {p q : Parameter α} {steps : List (Step α)} {step : Step α}

/-! ## Nodes -/

/-- Only commands in the tree are at nodes. -/
theorem known_of_command (m : Chart known t) (h : (t.node i).command = some c) : known c := by
  rcases Nat.lt_or_ge i t.nodes.size with hi | hi
  · exact ((m.stands i hi).bound c h).1
  · rw [node_of_size_le hi] at h
    cases h

/-- Where everyone may use every command, everyone may pass every node. -/
theorem allows_node (m : Chart known t) (hopen : ∀ c, known c → c.Open) (i : NodeIndex)
    (principal : α) : (t.node i).permission.allows principal = true := by
  rcases Nat.lt_or_ge i t.nodes.size with hi | hi
  · exact (m.stands i hi).opened hopen principal
  · rw [node_of_size_le hi]
    rfl

/-! ## Edges -/

/-- In a chart an edge leads to a node that stands for its step. -/
theorem leads_of_edge (m : Chart known t) (hi : i < t.nodes.size) (h : t.Edge i step j) :
    t.Leads m.way i j step.label := by
  cases step with
  | literal w => exact (m.stands i hi).literal w j h
  | parameter p =>
    rcases h with h | h
    · exact (m.leads_of_mem_flagsOf hi h).2
    · exact (m.leads_of_mem_argumentsOf hi h).2

/-- Each child of a node is reached by a step, and it is labelled with that step. -/
theorem exists_edge_of_child (m : Chart known t) (h : t.Child i j) :
    ∃ step, t.Edge i step j ∧ (t.node j).label = step.label := by
  have hi := h.parent_lt
  have hedge : ∃ step, t.Edge i step j := by
    rcases h with ⟨w, hj⟩ | hj | hj
    · exact ⟨.literal w, hj⟩
    · obtain ⟨q, _, hleads, _⟩ := (m.stands i hi).flag j hj
      exact ⟨.parameter q, .of_flag (mem_flagsOf.mpr ⟨hj, hleads.label_eq⟩)⟩
    · obtain ⟨q, _, hleads⟩ := (m.stands i hi).argument j hj
      exact ⟨.parameter q, .of_argument (mem_argumentsOf.mpr ⟨hj, hleads.label_eq⟩)⟩
  exact hedge.imp fun _ h => ⟨h, (m.leads_of_edge hi h).label_eq⟩

/-- A parameter that leads to a node is one of some command. -/
theorem exists_command_of_edge (m : Chart known t) (hi : i < t.nodes.size)
    (h : t.Edge i (.parameter p) j) : ∃ c, known c ∧ p ∈ c.parameters := by
  obtain ⟨c, hc, hmade⟩ := m.exists_made (m.leads_of_edge hi h).label_eq (Step.label_ne_root _)
  exact ⟨c, hc, hmade.mem p rfl⟩

/-- A flag is listed among the flags. -/
theorem mem_flagsOf_of_edge (m : Chart known t) (hi : i < t.nodes.size)
    (h : t.Edge i (.parameter p) j) (hnamed : p.isNamed = true) : (j, p) ∈ t.flagsOf i := by
  refine h.resolve_right fun hargument => ?_
  rw [(m.leads_of_mem_argumentsOf hi hargument).1] at hnamed
  cases hnamed

/-- An argument is listed among the arguments. -/
theorem mem_argumentsOf_of_edge (m : Chart known t) (hi : i < t.nodes.size)
    (h : t.Edge i (.parameter p) j) (hplace : p.isNamed = false) : (j, p) ∈ t.argumentsOf i := by
  refine h.resolve_left fun hflag => ?_
  rw [(m.leads_of_mem_flagsOf hi hflag).1] at hplace
  cases hplace

/-- The way to the end of a route is the way to its start and then its words and arguments. -/
theorem way_append_of_route (m : Chart known t) (hi : i < t.nodes.size) (h : t.Route i steps j) :
    j < t.nodes.size ∧ m.way j = m.way i ++ steps.filter (!·.isFlag) := by
  induction steps generalizing i with
  | nil =>
    obtain rfl : i = j := h
    exact ⟨hi, by simp⟩
  | cons step steps ih =>
    obtain ⟨l, hedge, hroute⟩ := h
    have hleads := m.leads_of_edge hi hedge
    obtain ⟨hj, hway⟩ := ih hleads.lt hroute
    refine ⟨hj, ?_⟩
    rw [hway, hleads.way_eq, step.shown_label, List.append_assoc, ← List.filter_append]
    rfl

/-- The way to a node has the words and arguments of every route to it. -/
theorem way_of_route (m : Chart known t) (h : t.Route root steps i) :
    i < t.nodes.size ∧ m.way i = steps.filter (!·.isFlag) := by
  obtain ⟨hi, hway⟩ := m.way_append_of_route (i := root) m.size_pos h
  rw [m.way_root, List.nil_append] at hway
  exact ⟨hi, hway⟩

/-- A step leads to a flag node exactly if it is a flag. -/
theorem flagNode_iff_of_edge (m : Chart known t) (hi : i < t.nodes.size) (h : t.Edge i step j) :
    t.FlagNode j ↔ step.isFlag = true := by
  have hlabel := (m.leads_of_edge hi h).label_eq
  unfold FlagNode
  cases step with
  | literal w => simp [hlabel, Step.label]
  | parameter p => simp [hlabel, Step.label]

/-- Only flags are below a flag. -/
theorem isFlag_of_edge (m : Chart known t) (hi : i < t.nodes.size) (hflag : t.FlagNode i)
    (h : t.Edge i step j) : step.isFlag = true := by
  obtain ⟨hliterals, harguments⟩ := m.childless_of_flagNode hi hflag
  cases step with
  | literal w => simp [Edge, hliterals] at h
  | parameter p =>
    rcases h with h | h
    · exact (m.leads_of_mem_flagsOf hi h).1
    · simp [mem_argumentsOf, harguments] at h

/-- So every node behind a flag node has the way of that node. -/
theorem way_eq_of_flagNode (m : Chart known t) (hi : i < t.nodes.size) (hflag : t.FlagNode i)
    (h : t.Route i steps j) : m.way j = m.way i := by
  induction steps generalizing i with
  | nil => exact congrArg m.way (show i = j from h).symm
  | cons step steps ih =>
    obtain ⟨l, hedge, hroute⟩ := h
    have hstep := m.isFlag_of_edge hi hflag hedge
    have hleads := m.leads_of_edge hi hedge
    rw [ih hleads.lt ((m.flagNode_iff_of_edge hi hedge).mpr hstep) hroute, hleads.way_eq,
      step.shown_label, List.filter_cons_of_neg (by simp [hstep]), List.filter_nil, List.append_nil]

/-- No flag is before a word or an argument. -/
theorem filter_isFlag_of_route (m : Chart known t) (h : t.Route root steps i)
    (hi : ¬t.FlagNode i) : steps.filter (!·.isFlag) = steps := by
  induction steps using List.reverseRecOn generalizing i with
  | nil => rfl
  | append_singleton steps step ih =>
    obtain ⟨l, hroute, hedge⟩ := exists_route_snoc h
    have hl : l < t.nodes.size := (m.way_of_route hroute).1
    have hplain : step.isFlag = false := by
      simpa [m.flagNode_iff_of_edge hl hedge] using hi
    have hparent : ¬t.FlagNode l := by
      intro hflag
      rw [m.isFlag_of_edge hl hflag hedge] at hplain
      cases hplain
    rw [List.filter_append, ih hroute hparent, List.filter_cons_of_pos (by simp [hplain]),
      List.filter_nil]

/-- A command that comes past a flag comes to a flag node. -/
theorem flagNode_of_trail (m : Chart known t) (hs : c.Sound) (hp : p ∈ c.flags)
    (h : t.Trail c k (flags ++ [p]) i) : t.FlagNode i := by
  obtain ⟨l, q, ⟨steps, hroute, _⟩, hedge, hfit⟩ := h.exists_flag
  have hl := (m.way_of_route hroute).1
  rw [m.flagNode_iff_of_edge hl hedge, Step.isFlag_eq_of_fits hfit]
  exact hs.named p hp

/-- One that comes past none comes to no flag node. -/
theorem not_flagNode_of_trail (m : Chart known t) (hs : c.Sound) (h : t.Trail c k [] i) :
    ¬t.FlagNode i := by
  obtain ⟨steps, hroute, hfits⟩ := h
  rw [List.map_nil, List.append_nil] at hfits
  cases steps using List.reverseRecOn with
  | nil =>
    obtain rfl : root = i := hroute
    rintro ⟨p, hp, _⟩
    rw [m.root_label] at hp
    cases hp
  | append_singleton steps step =>
    obtain ⟨l, hroute, hedge⟩ := exists_route_snoc hroute
    rw [m.flagNode_iff_of_edge (m.way_of_route hroute).1 hedge]
    obtain ⟨step', hstep', hfit⟩ :=
      (exists_of_mem_forall₂ hfits).1 step (List.mem_append_right _ List.mem_cons_self)
    rw [Step.isFlag_eq_of_fits hfit]
    cases step' with
    | literal w => simp
    | parameter p => simp [hs.unnamed_of_mem_positionals (List.mem_of_mem_take hstep')]

/-- Only a flag leads to a flag node. -/
theorem exists_mem_flagsOf_of_edge (m : Chart known t) (hi : i < t.nodes.size)
    (h : t.Edge i step j) (hj : t.FlagNode j) :
    ∃ q, step = .parameter q ∧ (j, q) ∈ t.flagsOf i := by
  have hflag := (m.flagNode_iff_of_edge hi h).mp hj
  cases step with
  | literal w => cases hflag
  | parameter q => exact ⟨q, rfl, m.mem_flagsOf_of_edge hi h hflag⟩

/-- A node has the way of its flag children. -/
theorem way_of_mem_flagsOf (m : Chart known t) (hi : i < t.nodes.size)
    (h : (j, q) ∈ t.flagsOf i) : m.way j = m.way i := by
  obtain ⟨hq, hleads⟩ := m.leads_of_mem_flagsOf hi h
  rw [hleads.way_eq, Label.shown, if_pos hq, List.append_nil]

/-- No two children of a node stand for the same step. -/
theorem edge_unique (m : Chart known t) (hi : i < t.nodes.size) {s : Step α} {l : NodeIndex}
    (h : t.Edge i step j) (h' : t.Edge i s l) (hfit : step.Fits s) : j = l := by
  have hstands := m.stands i hi
  have hlabel := (m.leads_of_edge hi h).label_eq
  have hlabel' := (m.leads_of_edge hi h').label_eq
  cases step with
  | literal v =>
    obtain rfl := hfit.of_literal
    have hnode := (Node.literal?_eq_some_iff hstands.words_nodup).mpr h
    exact Option.some.inj
      (hnode.symm.trans ((Node.literal?_eq_some_iff hstands.words_nodup).mpr h'))
  | parameter q =>
    cases s with
    | literal v => exact hfit.elim
    | parameter r =>
      have hnamed := Parameter.isNamed_eq_of_interchangeable hfit.2
      by_contra hne
      -- Flags of a node are told apart by long name alone, arguments by name and shape.
      rcases h with h | h
      · have hr := hnamed.symm.trans (m.leads_of_mem_flagsOf hi h).1
        have hl := (mem_flagsOf.mp (m.mem_flagsOf_of_edge hi h' hr)).1
        exact hstands.flags_apart.forall (mem_flagsOf.mp h).1 hl hne q r hlabel hlabel' hfit.1
      · have hq := (m.leads_of_mem_argumentsOf hi h).1
        have hr := hnamed.symm.trans hq
        have hl := (mem_argumentsOf.mp (m.mem_argumentsOf_of_edge hi h' hr)).1
        have hname := Parameter.name_eq_of_longName_eq hq hr hfit.1
        exact hstands.arguments_apart.forall (mem_argumentsOf.mp h).1 hl hne q r hlabel hlabel'
          ⟨hname, hfit.2⟩

/-- A long name leads to the only flag child that has it. -/
theorem flagNamed?_of_mem_flagsOf (m : Chart known t) (hi : i < t.nodes.size)
    (h : (j, q) ∈ t.flagsOf i) : t.flagNamed? i q.longName = some (j, q) := by
  cases hfind : t.flagNamed? i q.longName with
  | none =>
    rw [flagNamed?, List.find?_eq_none] at hfind
    exact (hfind _ h (by simp)).elim
  | some child =>
    obtain ⟨j', q'⟩ := child
    obtain ⟨h', hlong⟩ := of_flagNamed?_eq_some hfind
    obtain ⟨hj, hq⟩ := mem_flagsOf.mp h
    obtain ⟨hj', hq'⟩ := mem_flagsOf.mp h'
    obtain rfl : j' = j := by
      by_contra hne
      exact (m.stands i hi).flags_apart.forall hj' hj hne q' q hq' hq hlong
    obtain rfl := Label.parameter.inj (hq'.symm.trans hq)
    rfl

/-! ## Routes -/

/-- The parameters on a route are parameters of commands. -/
theorem exists_command_of_route (m : Chart known t) (hroute : t.Route root steps i)
    (hp : .parameter p ∈ steps) : ∃ c, known c ∧ p ∈ c.parameters := by
  obtain ⟨before, after, rfl⟩ := List.append_of_mem hp
  obtain ⟨l, hbefore, j, hedge, _⟩ := exists_route_append hroute
  exact m.exists_command_of_edge (m.way_of_route hbefore).1 hedge

/-- Routes whose steps stand for the same come to the same node. -/
theorem route_unique (m : Chart known t) (hi : i < t.nodes.size) {steps' : List (Step α)}
    {l : NodeIndex} (h : t.Route i steps j) (h' : t.Route i steps' l)
    (hfits : List.Forall₂ Step.Fits steps steps') : j = l := by
  induction hfits generalizing i with
  | nil => exact (show i = j from h).symm.trans h'
  | cons hfit _ ih =>
    obtain ⟨n, hedge, hroute⟩ := h
    obtain ⟨n', hedge', hroute'⟩ := h'
    obtain rfl := m.edge_unique hi hedge hedge' hfit
    exact ih (m.leads_of_edge hi hedge).lt hroute hroute'

/-- They even take the same steps, since a node has one label. -/
theorem steps_unique (m : Chart known t) (hi : i < t.nodes.size) {steps' : List (Step α)}
    {l : NodeIndex} (h : t.Route i steps j) (h' : t.Route i steps' l)
    (hfits : List.Forall₂ Step.Fits steps steps') : steps = steps' := by
  induction hfits generalizing i with
  | nil => rfl
  | cons hfit _ ih =>
    obtain ⟨n, hedge, hroute⟩ := h
    obtain ⟨n', hedge', hroute'⟩ := h'
    obtain rfl := m.edge_unique hi hedge hedge' hfit
    have hleads := m.leads_of_edge hi hedge
    have hstep := hleads.label_eq.symm.trans (m.leads_of_edge hi hedge').label_eq
    rw [Step.label_injective hstep, ih hleads.lt hroute hroute']

end Tree.Chart

end CommandLine
