import CommandLine.Proofs.Tree.Rooted

/-!
# The shape of trees

The nodes of a tree stand in one array and name their children by index, so much could be wrong
with them. Nothing is wrong in a tree that calls reach, also if some were refused on the way: the
tree is **well-formed** (`WellFormed`). The children of a node are what they are listed as and can
be told apart, the root has words only, and below flags there are flags only.

The nodes form a tree but for the flags: a chain lists a flag node below several others, while a
word or an argument is listed once (`Listed`). It has a parent since every node is reached from the
root, and no other one, since the words and arguments on the way to it are those of its chart.

* `Chart.eq_of_child` — a word or an argument has one parent;
* `Grown.wellFormed` — the trees that calls reach.
-/

set_option autoImplicit false

namespace CommandLine.Tree

variable {α σ : Type} {known : Command α σ → Prop} {t : Tree α σ} {i j : NodeIndex}

/-- The children of a node, each as often as the node lists it. -/
def Node.children (n : Tree.Node α σ) : List NodeIndex :=
  n.literals.map Prod.snd ++ n.flags ++ n.arguments

theorem mem_children : j ∈ (t.node i).children ↔ t.Child i j := by
  simp [Node.children, Child]

/-- One node lists another one as a child, once, and no other node does. -/
def Listed (t : Tree α σ) (i j : NodeIndex) : Prop :=
  (t.node i).children.count j = 1 ∧ ∀ l, j ∈ (t.node l).children → l = i

/-- The nodes of a tree are where they belong. -/
structure WellFormed (t : Tree α σ) : Prop where
  child : ∀ i, ∀ j ∈ (t.node i).children, j < t.nodes.size ∧ j ≠ root
  literal : ∀ i w j, (w, j) ∈ (t.node i).literals → (t.node j).label = .literal w
  words_nodup : ∀ i, (t.node i).literalNames.Nodup
  flag : ∀ i, ∀ j ∈ (t.node i).flags,
    ∃ p : Parameter α, (t.node j).label = .parameter p ∧ p.isNamed = true
  longNames_nodup : ∀ i, ((t.flagsOf i).map fun child => child.2.longName).Nodup
  argument : ∀ i, ∀ j ∈ (t.node i).arguments,
    ∃ p : Parameter α, (t.node j).label = .parameter p ∧ p.isNamed = false
  name_ne_word : ∀ i, ∀ j ∈ (t.node i).arguments, ∀ w l, (w, l) ∈ (t.node i).literals →
    (t.node j).name ≠ w
  arguments_apart : ∀ i, (t.argumentsOf i).Pairwise fun child child' =>
    child.2.name = child'.2.name → child.2.interchangeable child'.2 = false
  top : (t.node root).flags = [] ∧ (t.node root).arguments = []
  leaf : ∀ i p, (t.node i).label = .parameter p → p.isNamed = true →
    (t.node i).literals = [] ∧ (t.node i).arguments = []
  literal_listed : ∀ j w, (t.node j).label = .literal w → ∃ i, t.Listed i j
  argument_listed : ∀ j p, (t.node j).label = .parameter p → p.isNamed = false →
    ∃ i, t.Listed i j

namespace Chart

/-! ## Parents -/

/-- A node that stands for a word or an argument has only one parent: the routes to it through two
parents would take the same steps. -/
theorem eq_of_child (m : Chart known t) (ht : t.Grown) {l : NodeIndex} (hj : ¬t.FlagNode j)
    (h : t.Child i j) (h' : t.Child l j) : i = l := by
  obtain ⟨step, hedge, -⟩ := m.exists_edge_of_child h
  obtain ⟨step', hedge', -⟩ := m.exists_edge_of_child h'
  obtain ⟨steps, hroute⟩ := ht.exists_route h.parent_lt
  obtain ⟨steps', hroute'⟩ := ht.exists_route h'.parent_lt
  have hway (ss : List (Step α)) (hss : t.Route root ss j) : m.way j = ss := by
    rw [(m.way_of_route hss).2, m.filter_isFlag_of_route hss hj]
  have hsteps := (hway _ (hroute.snoc hedge)).symm.trans (hway _ (hroute'.snoc hedge'))
  obtain rfl := (List.append_inj' hsteps rfl).1
  exact m.route_unique m.size_pos hroute hroute' (List.forall₂_same.mpr fun s _ => .refl s)

/-- Also what is read where there is no node may stand there. -/
theorem stands_node (m : Chart known t) (i : NodeIndex) :
    t.Stands known m.way m.above i (t.node i) := by
  rcases Nat.lt_or_ge i t.nodes.size with hi | hi
  · exact m.stands i hi
  · rw [node_of_size_le hi]
    exact .of_fresh .root .always fun _ _ => rfl

/-- No node is listed twice among the children of another. -/
theorem children_nodup (m : Chart known t) (i : NodeIndex) : (t.node i).children.Nodup := by
  have hstands := m.stands_node i
  have hliteral {w : String} {j : NodeIndex} (hj : (w, j) ∈ (t.node i).literals) :
      (t.node j).label = .literal w := (hstands.literal w j hj).label_eq
  have hliterals : ((t.node i).literals.map Prod.snd).Nodup := by
    refine List.pairwise_map.mpr ((List.pairwise_map.mp hstands.words_nodup).imp_of_mem ?_)
    rintro ⟨w, j⟩ ⟨w', _⟩ hj hj' hne rfl
    exact hne (Label.literal.inj ((hliteral hj).symm.trans (hliteral hj')))
  have hflags : (t.node i).flags.Nodup := by
    refine hstands.flags_apart.imp_of_mem ?_
    rintro j _ hj - hapart rfl
    obtain ⟨p, -, hleads, -⟩ := hstands.flag j hj
    exact hapart p p hleads.label_eq hleads.label_eq rfl
  have harguments : (t.node i).arguments.Nodup := by
    refine hstands.arguments_apart.imp_of_mem ?_
    rintro j _ hj - hapart rfl
    obtain ⟨p, -, hleads⟩ := hstands.argument j hj
    exact hapart p p hleads.label_eq hleads.label_eq ⟨rfl, p.interchangeable_self⟩
  -- Nodes of different lists carry labels of different kinds.
  refine (hliterals.append hflags ?_).append harguments ?_
  · intro j hj hflag
    obtain ⟨⟨w, l⟩, hl, rfl⟩ := List.mem_map.mp hj
    obtain ⟨p, -, hleads, -⟩ := hstands.flag l hflag
    cases (hliteral hl).symm.trans hleads.label_eq
  · intro j hj hargument
    obtain ⟨q, hq, hleads⟩ := hstands.argument j hargument
    rcases List.mem_append.mp hj with hj | hj
    · obtain ⟨⟨w, l⟩, hl, rfl⟩ := List.mem_map.mp hj
      cases (hliteral hl).symm.trans hleads.label_eq
    · obtain ⟨p, hp, hleads', -⟩ := hstands.flag j hj
      obtain rfl := Label.parameter.inj (hleads.label_eq.symm.trans hleads'.label_eq)
      rw [hp] at hq
      cases hq

/-- A node that is neither the root nor a flag is listed once. -/
theorem exists_listed (m : Chart known t) (ht : t.Grown) (hj : (t.node j).label ≠ .root)
    (hflag : ¬t.FlagNode j) : ∃ i, t.Listed i j := by
  obtain ⟨steps, hroute⟩ := ht.exists_route (lt_of_label_ne_root hj)
  cases steps using List.reverseRecOn with
  | nil =>
    obtain rfl : root = j := hroute
    exact absurd m.root_label hj
  | append_singleton steps step =>
    obtain ⟨i, -, hedge⟩ := exists_route_snoc hroute
    refine ⟨i, ?_, fun l hl => m.eq_of_child ht hflag (mem_children.mp hl) hedge.child⟩
    exact List.count_eq_one_of_mem (m.children_nodup i) (mem_children.mpr hedge.child)

end Chart

/-! ## Well-formedness -/

/-- What tells the parameters of two nodes apart tells those that are read there apart. -/
theorem pairwise_parametersAt {alike : Parameter α → Parameter α → Prop} {ids : List NodeIndex}
    (h : ids.Pairwise (t.Apart alike)) :
    (t.parametersAt ids).Pairwise fun child child' => ¬alike child.2 child'.2 := by
  refine List.pairwise_filterMap.mpr (h.imp ?_)
  intro j j' hapart child hchild child' hchild'
  obtain ⟨p, hp, rfl⟩ := Option.map_eq_some_iff.mp hchild
  obtain ⟨q, hq, rfl⟩ := Option.map_eq_some_iff.mp hchild'
  exact hapart p q (Node.parameter?_eq_some.mp hp) (Node.parameter?_eq_some.mp hq)

/-- Every tree that calls reach is well-formed, also after calls that were refused. -/
theorem Grown.wellFormed (h : t.Grown) : t.WellFormed := by
  obtain ⟨m⟩ := h.chart
  have hargument (i j : NodeIndex) (hj : j ∈ (t.node i).arguments) :
      ∃ p : Parameter α, (t.node j).label = .parameter p ∧ p.isNamed = false := by
    obtain ⟨p, hp, hleads⟩ := (m.stands_node i).argument j hj
    -- Each clause is read off the chart at one node. Only the two `listed` clauses say that a node
    -- has a parent, for which the growth itself is needed.
    exact ⟨p, hleads.label_eq, hp⟩
  exact
    { child := by
        intro i j hj
        have hchild := mem_children.mp hj
        obtain ⟨step, -, hlabel⟩ := m.exists_edge_of_child hchild
        exact ⟨m.lt_of_child hchild, m.ne_root hlabel step.label_ne_root⟩
      literal := fun i w j hj => ((m.stands_node i).literal w j hj).label_eq
      words_nodup := fun i => (m.stands_node i).words_nodup
      flag := by
        intro i j hj
        obtain ⟨p, hp, hleads, -⟩ := (m.stands_node i).flag j hj
        exact ⟨p, hleads.label_eq, hp⟩
      longNames_nodup := fun i =>
        List.pairwise_map.mpr (pairwise_parametersAt (m.stands_node i).flags_apart)
      argument := hargument
      name_ne_word := by
        intro i j hj w l hl
        obtain ⟨p, hp, -⟩ := hargument i j hj
        have hne := h.tidy.apart i w l j p hl (mem_argumentsOf.mpr ⟨hj, hp⟩)
        rwa [Node.name, hp]
      arguments_apart := by
        intro i
        refine (pairwise_parametersAt (m.stands_node i).arguments_apart).imp ?_
        intro child child' hapart hname
        simpa using fun hshape => hapart ⟨hname, hshape⟩
      top := (m.stands_node root).top m.root_label
      leaf := fun i => (m.stands_node i).leaf
      literal_listed := by
        intro j w hj
        refine m.exists_listed h (by simp [hj]) ?_
        rintro ⟨p, hp, -⟩
        cases hj.symm.trans hp
      argument_listed := by
        intro j p hj hplace
        refine m.exists_listed h (by simp [hj]) ?_
        rintro ⟨q, hq, hnamed⟩
        obtain rfl := Label.parameter.inj (hj.symm.trans hq)
        rw [hnamed] at hplace
        cases hplace }

/-- A command that takes the word `value`. -/
def takingWord : Declaration Unit Unit := (Declaration.ofName "set").literal "value"

/-- A command that takes an argument of that name, and a switch where it is left out. -/
def takingArgument : Declaration Unit Unit :=
  ((Declaration.ofName "set").argument (.switch "all")).argument
    (Parameter.ofBuiltin "value" .greedy).asOptional

/-- The second one is refused when its switch is already there. -/
theorem wellFormed_takingArgument :
    (∃ e t', Growth.register takingArgument ((Growth.register takingWord).after (empty {})) =
      .error e t' ∧ t'.nodes.size = 4) ∧
      ((Growth.register takingArgument).after
        ((Growth.register takingWord).after (empty {}))).WellFormed :=
  ⟨by decide,
    Grown.wellFormed (.register takingArgument (.register takingWord (.empty {} (by decide))))⟩

end CommandLine.Tree
