import CommandLine.Proofs.Tree.Grown
import CommandLine.Proofs.Tree.Routes
import CommandLine.Proofs.Tree.Sections

/-!
# Charts

A chart writes at every node of a tree the way from the root to it: the words and arguments passed.
A way leaves flags out, so that a flag node stands at the place of the argument or literal below
which its command attached it, however many parents it has. The chart also remembers the parent for
which a node was made, since only the links of a chain give a flag node another one.

The chart ties every node to commands: a node was made on the way of some command (`origin`), a flag
is a child where the plan of some command has it (`Serves`), and a command is bound only where a
line of it may end (`Stands.bound`). Ways follow a command up to interchangeable parameters of one
long name (`Step.Fits`), because that is how nodes are shared; so no two children of a node can
stand for the same step.

* `Chart.push`, `Chart.alter` — the chart after the two changes of which growth consists;
* `Chart.Extends` — what they leave as it was: in particular every node whose way starts with
  another word than the one that a growth is about.
-/

set_option autoImplicit false

namespace CommandLine

variable {α σ : Type}

/-! ## Ways -/

/-- What a node adds to the way of its parent. -/
def Tree.Label.shown : Tree.Label α → List (Step α)
  | .root => []
  | .literal w => [.literal w]
  | .parameter p => if p.isNamed then [] else [.parameter p]

/-- A way leads past the first `k` words and arguments of a command. -/
def Command.Passes (c : Command α σ) (k : Nat) (way : List (Step α)) : Prop :=
  List.Forall₂ Step.Fits way (c.positionals.take k)

/-- A node on the way of a command, which made it or could have. -/
structure Command.Made (c : Command α σ) (way : List (Step α)) (label : Tree.Label α) :
    Prop where
  label_ne : label ≠ .root
  mem : ∀ p, label = .parameter p → p ∈ c.parameters
  passes : ∃ k, 0 < k ∧ c.Passes k way
  /-- A flag is where the flag section of the command may begin. -/
  grafts : ∀ p, label = .parameter p → p.isNamed = true → ∃ k, c.Grafts k ∧ c.Passes k way

/-- A command whose flag section links no node below another one: every order of its flags has a
path of its own, or at most one flag may be left out. -/
def Command.Unlinked (c : Command α σ) (threshold : Nat) : Prop :=
  c.flags.length ≤ threshold ∨ (Parameter.optionals c.flags).length ≤ 1

/-- Two flags between which a line could not choose. -/
def Parameter.SameFlag (p q : Parameter α) : Prop := p.longName = q.longName

/-- Two arguments that one node stands for. -/
def Parameter.SameArgument (p q : Parameter α) : Prop :=
  p.name = q.name ∧ p.interchangeable q = true

instance : Std.Symm (@Parameter.SameFlag α) := ⟨fun _ _ h => h.symm⟩

instance : Std.Symm (@Parameter.SameArgument α) :=
  ⟨fun p q h => ⟨h.1.symm, Parameter.interchangeable_comm p q ▸ h.2⟩⟩

/-- A command that everyone may use, with every parameter. -/
structure Command.Open (c : Command α σ) : Prop where
  command : ∀ principal, c.permission.allows principal = true
  parameter : ∀ p ∈ c.parameters, ∀ principal, p.permission.allows principal = true

namespace Command.Passes

variable {c : Command α σ} {k : Nat} {way : List (Step α)}

/-- A way starts with the first word of the command that it passes. -/
theorem head?_eq (h : c.Passes k way) (hk : 0 < k) : way.head? = some (.literal c.name) := by
  obtain ⟨k, rfl⟩ := Nat.exists_eq_add_one.mpr hk
  unfold Command.Passes Command.positionals at h
  rw [List.take_succ_cons] at h
  cases h with
  | @cons step _ way _ hfit _ =>
    cases step with
    | literal w => exact congrArg (some <| Step.literal ·) hfit
    | parameter q => exact hfit.elim

/-- One more word or argument. -/
theorem step {s step : Step α} (h : c.Passes k way) (hk : c.positionals[k]? = some step)
    (hfit : s.Fits step) : c.Passes (k + 1) (way ++ [s]) := by
  unfold Command.Passes at h ⊢
  rw [List.take_add_one, hk]
  exact List.rel_append h (.cons hfit .nil)

end Command.Passes

/-- The way to a node that a command made begins with its first word. -/
theorem Command.Made.head?_eq {c : Command α σ} {way : List (Step α)} {label : Tree.Label α}
    (h : c.Made way label) : way.head? = some (.literal c.name) := by
  obtain ⟨_, hk, hpasses⟩ := h.passes
  exact hpasses.head?_eq hk

/-! ## The chart -/

namespace Tree

/-- One node leads to another, which has a certain label. -/
structure Leads (t : Tree α σ) (way : NodeIndex → List (Step α)) (i j : NodeIndex)
    (label : Tree.Label α) : Prop where
  lt : j < t.nodes.size
  label_eq : (t.node j).label = label
  way_eq : way j = way i ++ label.shown

/-- A command comes past its first `k` words and arguments and then past some flags to a node. -/
structure Visits (t : Tree α σ) (way : NodeIndex → List (Step α)) (c : Command α σ) (k : Nat)
    (flags : List (Parameter α)) (i : NodeIndex) : Prop where
  passes : c.Passes k (way i)
  trail : t.Trail c k flags i

/-- A flag child where the plan of a command has a flag for which it stands. The node was made for
this parent, or the command links flag nodes. -/
structure Serves (t : Tree α σ) (way : NodeIndex → List (Step α)) (above : NodeIndex → NodeIndex)
    (c : Command α σ) (k : Nat) (flags : List (Parameter α)) (p : Parameter α) (i j : NodeIndex)
    (q : Parameter α) : Prop where
  grafts : c.Grafts k
  visits : t.Visits way c k flags i
  begins : (t.plan c).Begins (flags ++ [p])
  fits : (Step.parameter q).Fits (.parameter p)
  above : above j = i ∨ ¬c.Unlinked t.settings.threshold

/-- The parameters of two nodes are not alike. -/
def Apart (t : Tree α σ) (alike : Parameter α → Parameter α → Prop) (i j : NodeIndex) : Prop :=
  ∀ p q, (t.node i).label = .parameter p → (t.node j).label = .parameter q → ¬alike p q

/-- A node may stand at an index: its children are what they are listed as and no two of them are
alike, flags have flags only below them, and a line of its command may end there. -/
structure Stands (known : Command α σ → Prop) (t : Tree α σ) (way : NodeIndex → List (Step α))
    (above : NodeIndex → NodeIndex) (i : NodeIndex) (n : Tree.Node α σ) : Prop where
  literal : ∀ w j, (w, j) ∈ n.literals → t.Leads way i j (.literal w)
  flag : ∀ j ∈ n.flags, ∃ q : Parameter α, q.isNamed = true ∧ t.Leads way i j (.parameter q) ∧
    ∃ c k flags p, known c ∧ t.Serves way above c k flags p i j q
  argument : ∀ j ∈ n.arguments,
    ∃ p : Parameter α, p.isNamed = false ∧ t.Leads way i j (.parameter p)
  words_nodup : n.literalNames.Nodup
  flags_apart : n.flags.Pairwise (t.Apart Parameter.SameFlag)
  arguments_apart : n.arguments.Pairwise (t.Apart Parameter.SameArgument)
  leaf : ∀ p, n.label = .parameter p → p.isNamed = true → n.literals = [] ∧ n.arguments = []
  top : n.label = .root → n.flags = [] ∧ n.arguments = []
  opened : (∀ c, known c → c.Open) → ∀ principal, n.permission.allows principal = true
  bound : ∀ c, n.command = some c → known c ∧
    ∃ k flags, c.Grafts k ∧ t.Visits way c k flags i ∧ (t.plan c).Allows flags

/-- The way to every node of a tree, with what the nodes are and which commands they serve. -/
structure Chart (known : Command α σ → Prop) (t : Tree α σ) where
  way : NodeIndex → List (Step α)
  /-- The node for which a node was made. -/
  above : NodeIndex → NodeIndex
  size_pos : 0 < t.nodes.size
  way_root : way root = []
  root_label : (t.node root).label = .root
  stands : ∀ i < t.nodes.size, t.Stands known way above i (t.node i)
  origin : ∀ i < t.nodes.size, i ≠ root → ∃ c, known c ∧ c.Made (way i) (t.node i).label

variable {known : Command α σ → Prop} {t t' t'' : Tree α σ} {i j : NodeIndex}
  {way way' : NodeIndex → List (Step α)} {above above' : NodeIndex → NodeIndex}
  {c : Command α σ} {k : Nat} {flags : List (Parameter α)} {p q : Parameter α}

/-! ### What growth keeps -/

/-- What leads to a node leads there when the tree has grown. -/
theorem Leads.grow {label : Tree.Label α} (h : t.Leads way i j label) (hgrows : t.Grows t')
    (hway : ∀ l < t.nodes.size, way' l = way l) (hi : i < t.nodes.size) :
    t'.Leads way' i j label where
  lt := Nat.lt_of_lt_of_le h.lt hgrows.size_le
  label_eq := (hgrows.label_eq j h.lt).trans h.label_eq
  way_eq := by rw [hway j h.lt, hway i hi, h.way_eq]

/-- A node that a command visits is still visited. -/
theorem Visits.grow (h : t.Visits way c k flags i) (hgrows : t.Grows t') (hway : way' i = way i) :
    t'.Visits way' c k flags i :=
  ⟨hway ▸ h.passes, hgrows.trail h.trail⟩

/-- A flag node still serves the flag that it served. -/
theorem Serves.grow (h : t.Serves way above c k flags p i j q) (hgrows : t.Grows t')
    (hway : way' i = way i) (habove : above' j = above j) :
    t'.Serves way' above' c k flags p i j q where
  grafts := h.grafts
  visits := h.visits.grow hgrows hway
  begins := by rw [hgrows.plan_eq]; exact h.begins
  fits := h.fits
  above := by rw [habove, hgrows.settings_eq]; exact h.above

instance {alike : Parameter α → Parameter α → Prop} [Std.Symm alike] : Std.Symm (t.Apart alike) :=
  ⟨fun _ _ h p q hp hq halike => h q p hq hp (Std.Symm.symm p q halike)⟩

/-- Children that were apart stay apart. -/
theorem Apart.grow {alike : Parameter α → Parameter α → Prop} (h : t.Apart alike i j)
    (hgrows : t.Grows t') (hi : i < t.nodes.size) (hj : j < t.nodes.size) : t'.Apart alike i j := by
  intro p q hp hq
  exact h p q ((hgrows.label_eq i hi).symm.trans hp) ((hgrows.label_eq j hj).symm.trans hq)

/-- A node without children and without a command may stand anywhere. -/
theorem Stands.of_fresh (label : Tree.Label α) (permission : Permission α)
    (hopened : (∀ c, known c → c.Open) → ∀ principal, permission.allows principal = true) :
    t.Stands known way above i { label, permission } where
  literal _ _ h := by cases h
  flag _ h := by cases h
  argument _ h := by cases h
  words_nodup := .nil
  flags_apart := .nil
  arguments_apart := .nil
  leaf _ _ _ := ⟨rfl, rfl⟩
  top _ := ⟨rfl, rfl⟩
  opened := hopened
  bound _ h := by cases h

/-- A node goes on standing where it is while the tree grows and ways stay. -/
theorem Stands.grow {n : Tree.Node α σ} (h : t.Stands known way above i n) (hgrows : t.Grows t')
    (hway : ∀ l < t.nodes.size, way' l = way l) (habove : ∀ l < t.nodes.size, above' l = above l)
    (hi : i < t.nodes.size) : t'.Stands known way' above' i n where
  literal w j hj := (h.literal w j hj).grow hgrows hway hi
  flag j hj := by
    obtain ⟨q, hq, hleads, c, k, flags, p, hc, hserves⟩ := h.flag j hj
    exact ⟨q, hq, hleads.grow hgrows hway hi, c, k, flags, p, hc,
      hserves.grow hgrows (hway i hi) (habove j hleads.lt)⟩
  argument j hj := (h.argument j hj).imp fun p hp => ⟨hp.1, hp.2.grow hgrows hway hi⟩
  words_nodup := h.words_nodup
  -- Labels of listed children are read in the old tree, where they are all in range.
  flags_apart := by
    refine h.flags_apart.imp_of_mem ?_
    intro l l' hl hl' hapart
    obtain ⟨_, _, hleads, _⟩ := h.flag l hl
    obtain ⟨_, _, hleads', _⟩ := h.flag l' hl'
    exact hapart.grow hgrows hleads.lt hleads'.lt
  arguments_apart := by
    refine h.arguments_apart.imp_of_mem ?_
    intro l l' hl hl' hapart
    obtain ⟨_, _, hleads⟩ := h.argument l hl
    obtain ⟨_, _, hleads'⟩ := h.argument l' hl'
    exact hapart.grow hgrows hleads.lt hleads'.lt
  leaf := h.leaf
  top := h.top
  opened := h.opened
  bound c hc := by
    obtain ⟨hknown, k, flags, hgrafts, hvisits, hallows⟩ := h.bound c hc
    rw [← hgrows.plan_eq] at hallows
    exact ⟨hknown, k, flags, hgrafts, hvisits.grow hgrows (hway i hi), hallows⟩

namespace Chart

/-- The chart of a tree without commands. -/
def empty (known : Command α σ → Prop) (s : Settings) :
    Chart known (Tree.empty s : Tree α σ) where
  way _ := []
  above _ := root
  size_pos := Nat.one_pos
  way_root := rfl
  root_label := rfl
  stands i hi := by
    obtain rfl := Nat.lt_one_iff.mp hi
    exact .of_fresh .root .always fun _ _ => rfl
  origin i hi hne := (hne (Nat.lt_one_iff.mp hi)).elim

/-- A chart is about nodes and settings only. -/
def congr (m : Chart known t) (hnodes : t'.nodes = t.nodes) (hsettings : t'.settings = t.settings) :
    Chart known t' where
  way := m.way
  above := m.above
  size_pos := hnodes ▸ m.size_pos
  way_root := m.way_root
  root_label := by simpa only [node, hnodes] using m.root_label
  stands i hi := by
    rw [show t'.node i = t.node i by simp only [node, hnodes]]
    exact (m.stands i (hnodes ▸ hi)).grow (.of_nodes_eq hnodes hsettings) (fun _ _ => rfl)
      (fun _ _ => rfl) (hnodes ▸ hi)
  origin i hi hne := by
    simpa only [node, hnodes] using m.origin i (hnodes ▸ hi) hne

/-- A chart over some commands is one over more. -/
def mono {known' : Command α σ → Prop} (m : Chart known t) (h : ∀ c, known c → known' c) :
    Chart known' t where
  way := m.way
  above := m.above
  size_pos := m.size_pos
  way_root := m.way_root
  root_label := m.root_label
  stands i hi :=
    { m.stands i hi with
      flag := by
        intro j hj
        obtain ⟨q, hq, hleads, c, k, flags, p, hc, hserves⟩ := (m.stands i hi).flag j hj
        exact ⟨q, hq, hleads, c, k, flags, p, h c hc, hserves⟩
      opened := fun hopen => (m.stands i hi).opened fun c hc => hopen c (h c hc)
      bound := fun c hc => ((m.stands i hi).bound c hc).imp (h c) id }
  origin i hi hne := (m.origin i hi hne).imp fun c hc => ⟨h c hc.1, hc.2⟩

/-- The children of a node are nodes. -/
theorem lt_of_child (m : Chart known t) (h : t.Child i j) : j < t.nodes.size := by
  have hi := h.parent_lt
  rcases h with ⟨w, hj⟩ | hj | hj
  · exact ((m.stands i hi).literal w j hj).lt
  · obtain ⟨_, _, hleads, _⟩ := (m.stands i hi).flag j hj
    exact hleads.lt
  · obtain ⟨_, _, hleads⟩ := (m.stands i hi).argument j hj
    exact hleads.lt

/-- A word that is found leads to its node. -/
theorem leads_of_literal? (m : Chart known t) (hi : i < t.nodes.size) {w : String}
    (h : (t.node i).literal? w = some j) : t.Leads m.way i j (.literal w) :=
  (m.stands i hi).literal w j (Node.mem_literals_of_literal? h)

theorem leads_of_mem_flagsOf (m : Chart known t) (hi : i < t.nodes.size)
    (h : (j, p) ∈ t.flagsOf i) : p.isNamed = true ∧ t.Leads m.way i j (.parameter p) := by
  obtain ⟨hmem, hlabel⟩ := mem_flagsOf.mp h
  obtain ⟨q, hq, hleads, _⟩ := (m.stands i hi).flag j hmem
  obtain rfl := Label.parameter.inj (hlabel.symm.trans hleads.label_eq)
  exact ⟨hq, hleads⟩

theorem leads_of_mem_argumentsOf (m : Chart known t) (hi : i < t.nodes.size)
    (h : (j, p) ∈ t.argumentsOf i) :
    p.isNamed = false ∧ t.Leads m.way i j (.parameter p) := by
  obtain ⟨hmem, hlabel⟩ := mem_argumentsOf.mp h
  obtain ⟨q, hq, hleads⟩ := (m.stands i hi).argument j hmem
  obtain rfl := Label.parameter.inj (hlabel.symm.trans hleads.label_eq)
  exact ⟨hq, hleads⟩

/-- A node that stands for something is not the root. -/
theorem ne_root (m : Chart known t) {label : Tree.Label α} (h : (t.node i).label = label)
    (hne : label ≠ .root) : i ≠ root := by
  rintro rfl
  exact hne (h.symm.trans m.root_label)

/-- It was made for a command. -/
theorem exists_made (m : Chart known t) {label : Tree.Label α} (h : (t.node i).label = label)
    (hne : label ≠ .root) : ∃ c, known c ∧ c.Made (m.way i) label := by
  obtain ⟨c, hc, hmade⟩ := m.origin i (lt_of_label_ne_root (h ▸ hne)) (m.ne_root h hne)
  exact ⟨c, hc, h ▸ hmade⟩

/-- The chart with one more node, made for `parent` but not yet its child. -/
def push (m : Chart known t) (label : Tree.Label α) (permission : Permission α)
    (way : List (Step α)) (parent : NodeIndex)
    (hmade : ∃ c, known c ∧ c.Made way label)
    (hopened : (∀ c, known c → c.Open) → ∀ principal, permission.allows principal = true) :
    Chart known (t.pushNode { label, permission }) where
  way i := if i = t.nodes.size then way else m.way i
  above i := if i = t.nodes.size then parent else m.above i
  size_pos := by simp
  way_root := (if_neg (Nat.ne_of_lt m.size_pos)).trans m.way_root
  root_label := by
    rw [node_pushNode_of_ne (i := root) _ (Nat.ne_of_lt m.size_pos), m.root_label]
  stands i hi := by
    by_cases h : i = t.nodes.size
    · subst h
      rw [node_pushNode_size]
      exact .of_fresh label permission hopened
    · have hlt : i < t.nodes.size := by simp at hi; omega
      rw [node_pushNode_of_ne _ h]
      exact (m.stands i hlt).grow (t.grows_pushNode _) (fun j hj => if_neg (Nat.ne_of_lt hj))
        (fun j hj => if_neg (Nat.ne_of_lt hj)) hlt
  origin i hi hne := by
    by_cases h : i = t.nodes.size
    · subst h
      simpa using hmade
    · have hlt : i < t.nodes.size := by simp at hi; omega
      rw [node_pushNode_of_ne _ h, if_neg h]
      exact m.origin i hlt hne

/-- The chart with another node at an index, which has to keep what the node had and stand there. -/
def alter (m : Chart known t) (i : NodeIndex) (f : Tree.Node α σ → Tree.Node α σ)
    (hlabel : ∀ n, (f n).label = n.label)
    (hkeeps : i < t.nodes.size → (t.node i).Keeps (f (t.node i)))
    (hstands : i < t.nodes.size → t.Stands known m.way m.above i (f (t.node i))) :
    Chart known (t.modifyNode i f) where
  way := m.way
  above := m.above
  size_pos := by simpa using m.size_pos
  way_root := m.way_root
  root_label := by rw [label_modifyNode hlabel, m.root_label]
  stands j hj := by
    rw [size_modifyNode] at hj
    have hgrows := t.grows_modifyNode hlabel hkeeps
    by_cases h : j = i
    · subst h
      rw [node_modifyNode_self hj]
      exact (hstands hj).grow hgrows (fun _ _ => rfl) (fun _ _ => rfl) hj
    · rw [node_modifyNode_of_ne h]
      exact (m.stands j hj).grow hgrows (fun _ _ => rfl) (fun _ _ => rfl) hj
  origin j hj hne := by
    rw [label_modifyNode hlabel]
    exact m.origin j (by simpa using hj) hne

/-! ## What redrawing leaves as it was -/

/-- What a chart keeps while commands named `name` grow: the ways and labels of all nodes and all
that they have, every node whose way starts with another word, the other words at the root, and all
of the tree but its nodes. The ways to new nodes start with the name. -/
structure Extends (name : String) (m : Chart known t) (m' : Chart known t') : Prop
    extends Grows t t' where
  way_eq : ∀ i < t.nodes.size, m'.way i = m.way i
  above_eq : ∀ i < t.nodes.size, m'.above i = m.above i
  fresh : ∀ i < t'.nodes.size, t.nodes.size ≤ i → (m'.way i).head? = some (.literal name)
  aside : ∀ i < t.nodes.size, i ≠ root → (m.way i).head? ≠ some (.literal name) →
    t'.node i = t.node i
  root_literal : ∀ w, w ≠ name → (t'.node root).literal? w = (t.node root).literal? w
  rest : t' = { t with nodes := t'.nodes }

variable {name : String} {m : Chart known t} {m' : Chart known t'} {m'' : Chart known t''}

theorem Extends.refl (name : String) (m : Chart known t) : m.Extends name m :=
  ⟨.refl t, fun _ _ => rfl, fun _ _ => rfl, fun _ hlt hge => (Nat.not_lt.mpr hge hlt).elim,
    fun _ _ _ _ => rfl, fun _ _ => rfl, rfl⟩

/-- Extending a chart twice extends it. -/
theorem Extends.trans (h : m.Extends name m') (h' : m'.Extends name m'') :
    m.Extends name m'' where
  toGrows := h.toGrows.trans h'.toGrows
  way_eq i hi := by rw [h'.way_eq i (Nat.lt_of_lt_of_le hi h.size_le), h.way_eq i hi]
  above_eq i hi := by rw [h'.above_eq i (Nat.lt_of_lt_of_le hi h.size_le), h.above_eq i hi]
  fresh i hi hge := by
    rcases Nat.lt_or_ge i t'.nodes.size with hlt | hge'
    · rw [h'.way_eq i hlt, h.fresh i hlt hge]
    · exact h'.fresh i hi hge'
  aside i hi hne hway := by
    rw [h'.aside i (Nat.lt_of_lt_of_le hi h.size_le) hne (h.way_eq i hi ▸ hway),
      h.aside i hi hne hway]
  root_literal w hw := by rw [h'.root_literal w hw, h.root_literal w hw]
  rest := by rw [h'.rest, h.rest]

/-- What a node leads to it goes on leading to. -/
theorem Extends.leads {label : Tree.Label α} (h : m.Extends name m') (hi : i < t.nodes.size)
    (hl : t.Leads m.way i j label) : t'.Leads m'.way i j label :=
  hl.grow h.toGrows h.way_eq hi

/-- A new node leaves everything else as it was. -/
theorem push_extends (name : String) (m : Chart known t) (label : Tree.Label α)
    (permission : Permission α) {way : List (Step α)} (parent : NodeIndex)
    (hmade : ∃ c, known c ∧ c.Made way label)
    (hopened : (∀ c, known c → c.Open) → ∀ principal, permission.allows principal = true)
    (hway : way.head? = some (.literal name)) :
    m.Extends name (m.push label permission way parent hmade hopened) where
  toGrows := t.grows_pushNode _
  way_eq i hi := if_neg (Nat.ne_of_lt hi)
  above_eq i hi := if_neg (Nat.ne_of_lt hi)
  fresh i hi hge := by
    obtain rfl : i = t.nodes.size := by rw [size_pushNode] at hi; omega
    exact (congrArg List.head? (if_pos rfl)).trans hway
  aside i hi _ _ := node_pushNode_of_ne _ (Nat.ne_of_lt hi)
  root_literal w _ := by rw [node_pushNode_of_ne (i := root) _ (Nat.ne_of_lt m.size_pos)]
  rest := rfl

/-- A node of a command may change, and so may what the root knows of the command's first word. -/
theorem alter_extends (name : String) (m : Chart known t) {f : Tree.Node α σ → Tree.Node α σ}
    (hlabel : ∀ n, (f n).label = n.label)
    (hkeeps : i < t.nodes.size → (t.node i).Keeps (f (t.node i)))
    (hstands : i < t.nodes.size → t.Stands known m.way m.above i (f (t.node i)))
    (hway : i = root ∨ (m.way i).head? = some (.literal name))
    (hroot : i = root → ∀ w, w ≠ name → (f (t.node root)).literal? w = (t.node root).literal? w) :
    m.Extends name (m.alter i f hlabel hkeeps hstands) where
  toGrows := t.grows_modifyNode hlabel hkeeps
  way_eq _ _ := rfl
  above_eq _ _ := rfl
  fresh j hj hge := by
    rw [size_modifyNode] at hj
    exact (Nat.not_lt.mpr hge hj).elim
  aside j _ hne hj := by
    have hother : j ≠ i := by
      rintro rfl
      exact hway.elim hne hj
    exact node_modifyNode_of_ne hother f
  root_literal w hw := by
    by_cases h : root = i
    · subst h
      rw [node_modifyNode_self (i := root) m.size_pos, hroot rfl w hw]
    · rw [node_modifyNode_of_ne h]
  rest := rfl

/-- A new node of a command below another one. -/
theorem attach (m : Chart known t) (hc : known c) (label : Tree.Label α)
    (permission : Permission α) {f : Tree.Node α σ → Tree.Node α σ} (hlt : i < t.nodes.size)
    (hlabel : ∀ n, (f n).label = n.label) (hkeeps : (t.node i).Keeps (f (t.node i)))
    (hmade : c.Made (m.way i ++ label.shown) label)
    (hopened : (∀ c, known c → c.Open) → ∀ principal, permission.allows principal = true)
    (hstands : ∀ {t₁ : Tree α σ} {way₁ above₁}, t.Grows t₁ → way₁ i = m.way i →
      t₁.Leads way₁ i t.nodes.size label → above₁ t.nodes.size = i →
      t₁.Stands known way₁ above₁ i (t.node i) → t₁.Stands known way₁ above₁ i (f (t.node i)))
    (hway : i = root ∨ (m.way i).head? = some (.literal c.name))
    (hroot : i = root → ∀ w, w ≠ c.name → (f (t.node root)).literal? w = (t.node root).literal? w) :
    ∃ m' : Chart known ((t.pushNode { label, permission }).modifyNode i f),
      m.Extends c.name m' ∧
        ((t.pushNode { label, permission }).modifyNode i f).Leads m'.way i t.nodes.size label ∧
        ((t.pushNode { label, permission }).modifyNode i f).node i = f (t.node i) := by
  have hne : i ≠ t.nodes.size := Nat.ne_of_lt hlt
  -- The chart is extended twice: by the node, which nothing leads to yet, and then by the edge.
  obtain ⟨m₁, hpush, hnew, habove⟩ : ∃ m₁ : Chart known (t.pushNode { label, permission }),
      m.Extends c.name m₁ ∧ m₁.way t.nodes.size = m.way i ++ label.shown ∧
        m₁.above t.nodes.size = i :=
    ⟨m.push label permission _ i ⟨c, hc, hmade⟩ hopened,
      m.push_extends c.name label permission i _ _ hmade.head?_eq, if_pos rfl, if_pos rfl⟩
  have hleads : (t.pushNode { label, permission }).Leads m₁.way i t.nodes.size label :=
    ⟨by simp, by simp, by rw [hnew, hpush.way_eq i hlt]⟩
  have hkeeps' (_ : i < (t.pushNode { label, permission }).nodes.size) :
      ((t.pushNode { label, permission }).node i).Keeps
        (f ((t.pushNode { label, permission }).node i)) := by
    rw [node_pushNode_of_ne _ hne]
    exact hkeeps
  have hstands' (_ : i < (t.pushNode { label, permission }).nodes.size) :
      (t.pushNode { label, permission }).Stands known m₁.way m₁.above i
        (f ((t.pushNode { label, permission }).node i)) := by
    rw [node_pushNode_of_ne _ hne]
    exact hstands hpush.toGrows (hpush.way_eq i hlt) hleads habove
      ((m.stands i hlt).grow hpush.toGrows hpush.way_eq hpush.above_eq hlt)
  have hmodify := m₁.alter_extends c.name hlabel hkeeps' hstands'
    (hway.imp id fun h => (hpush.way_eq i hlt).symm ▸ h)
    (by
      intro h
      rw [node_pushNode_of_ne (i := root) _ (Nat.ne_of_lt m.size_pos)]
      exact hroot h)
  have hlt' : i < (t.pushNode { label, permission }).nodes.size :=
    Nat.lt_of_lt_of_le hlt hpush.size_le
  exact ⟨_, hpush.trans hmodify, hmodify.leads hlt' hleads,
    by rw [node_modifyNode_self hlt', node_pushNode_of_ne _ hne]⟩

end Chart

end Tree

end CommandLine
