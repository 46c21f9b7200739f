import CommandLine.Proofs.Tree.Changes

/-!
# Tidy trees

A word is looked up before it is added, and so is an argument. So in every tree that growth reaches,
no word at a node is the name of an argument there, and the children of nodes are nodes. Whoever
looks for a word or an argument that is there therefore finds it and is not refused.

* `SameLayout` — trees that differ in permissions and commands only;
* `stepChanges_tidy`, `Grown.tidy` — growth keeps a tree tidy.
-/

set_option autoImplicit false

namespace CommandLine.Tree

open CommandLine.Growth

variable {α σ : Type} {t t' t'' : Tree α σ} {i j : NodeIndex} {p : Parameter α}

/-! ## Layout -/

/-- Two trees have the same nodes with the same children, under the same settings. -/
structure SameLayout (t t' : Tree α σ) : Prop where
  settings_eq : t'.settings = t.settings
  size_eq : t'.nodes.size = t.nodes.size
  label_eq : ∀ i, (t'.node i).label = (t.node i).label
  literals_eq : ∀ i, (t'.node i).literals = (t.node i).literals
  flags_eq : ∀ i, (t'.node i).flags = (t.node i).flags
  arguments_eq : ∀ i, (t'.node i).arguments = (t.node i).arguments

namespace SameLayout

theorem refl (t : Tree α σ) : t.SameLayout t :=
  ⟨rfl, rfl, fun _ => rfl, fun _ => rfl, fun _ => rfl, fun _ => rfl⟩

/-- The layout stays from change to change. -/
theorem trans (h : t.SameLayout t') (h' : t'.SameLayout t'') : t.SameLayout t'' where
  settings_eq := h'.settings_eq.trans h.settings_eq
  size_eq := h'.size_eq.trans h.size_eq
  label_eq i := (h'.label_eq i).trans (h.label_eq i)
  literals_eq i := (h'.literals_eq i).trans (h.literals_eq i)
  flags_eq i := (h'.flags_eq i).trans (h.flags_eq i)
  arguments_eq i := (h'.arguments_eq i).trans (h.arguments_eq i)

/-- It stays where neither the label nor the children of a node change. -/
theorem of_modifyNode {f : Tree.Node α σ → Tree.Node α σ} (hlabel : ∀ n, (f n).label = n.label)
    (hliterals : ∀ n, (f n).literals = n.literals) (hflags : ∀ n, (f n).flags = n.flags)
    (harguments : ∀ n, (f n).arguments = n.arguments) (t : Tree α σ) (i : NodeIndex) :
    t.SameLayout (t.modifyNode i f) where
  settings_eq := rfl
  size_eq := size_modifyNode t i f
  label_eq j := label_modifyNode hlabel t i j
  literals_eq j := by
    rw [node_modifyNode]
    split
    · exact hliterals _
    · rfl
  flags_eq j := by
    rw [node_modifyNode]
    split
    · exact hflags _
    · rfl
  arguments_eq j := by
    rw [node_modifyNode]
    split
    · exact harguments _
    · rfl

theorem joinPermission (t : Tree α σ) (i : NodeIndex) (permission : Permission α) :
    t.SameLayout (t.joinPermission i permission) :=
  of_modifyNode (f := fun n => { n with permission := n.permission.or permission })
    (fun _ => rfl) (fun _ => rfl) (fun _ => rfl) (fun _ => rfl) t i

theorem bindCommand (t : Tree α σ) (i : NodeIndex) (c : Command α σ) :
    t.SameLayout (t.bindCommand i c) := by
  refine of_modifyNode ?_ ?_ ?_ ?_ t i <;>
    · intro n
      split <;> rfl

variable (h : t.SameLayout t')
include h

/-- Nodes stand for the same parameters. -/
theorem parametersAt_eq (ids : List NodeIndex) : t'.parametersAt ids = t.parametersAt ids := by
  unfold parametersAt Node.parameter?
  simp only [h.label_eq]

theorem flagsOf_eq (i : NodeIndex) : t'.flagsOf i = t.flagsOf i := by
  rw [flagsOf, h.flags_eq, h.parametersAt_eq, flagsOf]

theorem argumentsOf_eq (i : NodeIndex) : t'.argumentsOf i = t.argumentsOf i := by
  rw [argumentsOf, h.arguments_eq, h.parametersAt_eq, argumentsOf]

/-- A long name leads to the same flag. -/
theorem flagNamed?_eq (i : NodeIndex) (name : String) :
    t'.flagNamed? i name = t.flagNamed? i name := by
  rw [flagNamed?, h.flagsOf_eq, flagNamed?]

theorem literal?_eq (i : NodeIndex) (w : String) :
    (t'.node i).literal? w = (t.node i).literal? w := by
  rw [Node.literal?, h.literals_eq, Node.literal?]

end SameLayout

/-! ## Tidiness -/

/-- The children of nodes are nodes, and no word at a node is the name of an argument there. -/
structure Tidy (t : Tree α σ) : Prop where
  closed : ∀ i j, t.Child i j → j < t.nodes.size
  apart : ∀ i w l j p, (w, l) ∈ (t.node i).literals → (j, p) ∈ t.argumentsOf i → p.name ≠ w

namespace Tidy

/-- An empty tree is tidy. -/
theorem of_empty (s : Settings) : (empty s : Tree α σ).Tidy := by
  have hnode (i : NodeIndex) : ((empty s : Tree α σ).node i) = { label := .root } := by
    cases i <;> rfl
  refine ⟨fun i j h => ?_, fun i w l j p h => ?_⟩
  · simp [Child, hnode] at h
  · simp [hnode] at h

/-- So is every tree with the layout of a tidy one. -/
theorem congr (ht : t.Tidy) (h : t.SameLayout t') : t'.Tidy where
  closed i j hchild := by
    rw [Child, h.literals_eq, h.flags_eq, h.arguments_eq] at hchild
    exact h.size_eq ▸ ht.closed i j hchild
  apart i w l j p hl hj := by
    rw [h.literals_eq] at hl
    rw [h.argumentsOf_eq] at hj
    exact ht.apart i w l j p hl hj

/-- A node without a parent is nobody's argument. -/
theorem mem_argumentsOf_of_pushNode (ht : t.Tidy) {label : Tree.Label α}
    {permission : Permission α} (h : (j, p) ∈ (t.pushNode { label, permission }).argumentsOf i) :
    (j, p) ∈ t.argumentsOf i := by
  obtain ⟨hj, hp⟩ := mem_argumentsOf.mp h
  by_cases hi : i = t.nodes.size
  · subst hi
    simp at hj
  · rw [node_pushNode_of_ne _ hi] at hj
    have hlt : j < t.nodes.size := ht.closed i j (.inr (.inr hj))
    rw [node_pushNode_of_ne _ (Nat.ne_of_lt hlt)] at hp
    exact mem_argumentsOf.mpr ⟨hj, hp⟩

/-- Nor has it words. -/
theorem mem_literals_of_pushNode {label : Tree.Label α} {permission : Permission α} {w : String}
    (h : (w, j) ∈ ((t.pushNode { label, permission }).node i).literals) :
    (w, j) ∈ (t.node i).literals := by
  by_cases hi : i = t.nodes.size
  · subst hi
    simp at h
  · rwa [node_pushNode_of_ne _ hi] at h

/-- A node without children may be added. -/
theorem pushNode (ht : t.Tidy) (label : Tree.Label α) (permission : Permission α) :
    (t.pushNode { label, permission }).Tidy where
  closed i j hchild := by
    rw [size_pushNode]
    by_cases hi : i = t.nodes.size
    · subst hi
      simp [Child] at hchild
    · rw [Child, node_pushNode_of_ne _ hi] at hchild
      exact Nat.lt_succ_of_lt (ht.closed i j hchild)
  apart i w l j p hl hj :=
    ht.apart i w l j p (mem_literals_of_pushNode hl) (ht.mem_argumentsOf_of_pushNode hj)

/-- A node may change if all that it lists are nodes and no word that it lists is the name of an
argument that it lists. -/
theorem modifyNode (ht : t.Tidy) {f : Tree.Node α σ → Tree.Node α σ}
    (hlabel : ∀ n, (f n).label = n.label)
    (hliterals : ∀ w j, (w, j) ∈ (f (t.node i)).literals → j < t.nodes.size)
    (hflags : ∀ j ∈ (f (t.node i)).flags, j < t.nodes.size)
    (harguments : ∀ j ∈ (f (t.node i)).arguments, j < t.nodes.size)
    (hapart : ∀ w l j p, (w, l) ∈ (f (t.node i)).literals → j ∈ (f (t.node i)).arguments →
      (t.node j).label = .parameter p → p.name ≠ w) : (t.modifyNode i f).Tidy where
  closed k j hchild := by
    rw [size_modifyNode]
    rw [Child, node_modifyNode] at hchild
    split at hchild
    · rename_i hk
      obtain ⟨rfl, _⟩ := hk
      rcases hchild with ⟨w, hj⟩ | hj | hj
      · exact hliterals w j hj
      · exact hflags j hj
      · exact harguments j hj
    · exact ht.closed k j hchild
  apart k w l j p hl hj := by
    rw [mem_argumentsOf, label_modifyNode hlabel] at hj
    rw [node_modifyNode] at hl hj
    split at hl
    · rename_i hk
      obtain ⟨rfl, _⟩ := hk
      rw [if_pos ⟨rfl, by assumption⟩] at hj
      exact hapart w l j p hl hj.1 hj.2
    · rename_i hk
      rw [if_neg hk] at hj
      exact ht.apart k w l j p hl (mem_argumentsOf.mpr hj)

/-- It may become a flag, for words and arguments do not change. -/
theorem addFlag (ht : t.Tidy) (i : NodeIndex) (p : Parameter α) : (t.addFlag i p).Tidy := by
  have hpushed := ht.pushNode (.parameter p) p.permission
  refine hpushed.modifyNode (fun _ => rfl) (fun w j hj => hpushed.closed i j (.inl ⟨w, hj⟩))
    (fun j hj => ?_) (fun j hj => hpushed.closed i j (.inr (.inr hj)))
    fun w l j q hl hj hq => hpushed.apart i w l j q hl (mem_argumentsOf.mpr ⟨hj, hq⟩)
  rcases List.mem_append.mp hj with hj | hj
  · exact hpushed.closed i j (.inr (.inl hj))
  · obtain rfl := List.mem_singleton.mp hj
    rw [size_pushNode]
    exact Nat.lt_succ_self _

theorem shareFlag (ht : t.Tidy) (child i : NodeIndex) : (t.shareFlag child i).Tidy := by
  unfold Tree.shareFlag
  split
  · exact ht
  · rename_i p hp
    split
    · exact ht
    · refine ht.modifyNode (fun _ => rfl) (fun w j hj => ht.closed i j (.inl ⟨w, hj⟩))
        (fun j hj => ?_) (fun j hj => ht.closed i j (.inr (.inr hj)))
        fun w l j q hl hj hq => ht.apart i w l j q hl (mem_argumentsOf.mpr ⟨hj, hq⟩)
      rcases List.mem_append.mp hj with hj | hj
      · exact ht.closed i j (.inr (.inl hj))
      · obtain rfl := List.mem_singleton.mp hj
        exact lt_of_label_ne_root (by simp [Node.parameter?_eq_some.mp hp])

/-- A word may be added where no argument has it as its name. -/
theorem addLiteral (ht : t.Tidy) {w : String} (permission : Permission α)
    (hnew : ∀ j q, (j, q) ∈ t.argumentsOf i → q.name ≠ w) :
    (t.addLiteral i w permission).Tidy := by
  have hpushed := ht.pushNode (.literal w) permission
  refine hpushed.modifyNode (fun _ => rfl) (fun v j hj => ?_)
    (fun j hj => hpushed.closed i j (.inr (.inl hj)))
    (fun j hj => hpushed.closed i j (.inr (.inr hj))) fun v l j q hl hj hq => ?_
  · rcases List.mem_append.mp hj with hj | hj
    · exact hpushed.closed i j (.inl ⟨v, hj⟩)
    · obtain ⟨rfl, rfl⟩ := Prod.mk.inj (List.mem_singleton.mp hj)
      rw [size_pushNode]
      exact Nat.lt_succ_self _
  · have hargument := mem_argumentsOf.mpr ⟨hj, hq⟩
    rcases List.mem_append.mp hl with hl | hl
    · exact hpushed.apart i v l j q hl hargument
    · obtain ⟨rfl, rfl⟩ := Prod.mk.inj (List.mem_singleton.mp hl)
      exact hnew j q (ht.mem_argumentsOf_of_pushNode hargument)

/-- An argument may be added where its name is not a word. -/
theorem addArgument (ht : t.Tidy) (hnew : (t.node i).literal? p.name = none) :
    (t.addArgument i p).Tidy := by
  have hpushed := ht.pushNode (.parameter p) p.permission
  have hplaced {j : NodeIndex} (hj : j ∈ placeArgument p t.nodes.size (t.argumentsOf i)) :
      j = t.nodes.size ∨ ∃ q, (j, q) ∈ t.argumentsOf i := by
    rcases List.mem_cons.mp ((placeArgument_perm p t.nodes.size _).mem_iff.mp hj) with hj | hj
    · exact .inl hj
    · obtain ⟨⟨l, q⟩, hq, rfl⟩ := List.mem_map.mp hj
      exact .inr ⟨q, hq⟩
  refine hpushed.modifyNode (fun _ => rfl) (fun w j hj => hpushed.closed i j (.inl ⟨w, hj⟩))
    (fun j hj => hpushed.closed i j (.inr (.inl hj))) (fun j hj => ?_) fun w l j q hl hj hq => ?_
  · rw [size_pushNode]
    rcases hplaced hj with rfl | ⟨q, hq⟩
    · exact Nat.lt_succ_self _
    · exact Nat.lt_succ_of_lt (ht.closed i j (child_of_mem_argumentsOf hq))
  · -- The new argument is kept apart by the hypothesis, the old ones by their own invariant.
    have hl' := mem_literals_of_pushNode hl
    rcases hplaced hj with rfl | ⟨q', hq'⟩
    · rw [node_pushNode_size] at hq
      obtain rfl := Label.parameter.inj hq
      rintro rfl
      exact Node.literal?_eq_none_iff.mp hnew (List.mem_map_of_mem hl')
    · have hlt : j < t.nodes.size := ht.closed i j (child_of_mem_argumentsOf hq')
      rw [node_pushNode_of_ne _ (Nat.ne_of_lt hlt)] at hq
      obtain ⟨hmem, _⟩ := mem_argumentsOf.mp hq'
      exact ht.apart i w l j q hl' (mem_argumentsOf.mpr ⟨hmem, hq⟩)

end Tidy

/-- Growth keeps a tree tidy. -/
theorem stepChanges_tidy : StepChanges fun t t' : Tree α σ => t.Tidy → t'.Tidy where
  refl _ := id
  trans h h' ht := h' (h ht)
  joinPermission t i permission ht := ht.congr (.joinPermission t i permission)
  addFlag _ i p ht := ht.addFlag i p
  shareFlag child _ i ht := ht.shareFlag child i
  bindCommand t i c ht := ht.congr (.bindCommand t i c)
  ensureLiteral _ _ permission t ht :=
    ensureLiteral_after ht (fun j => ht.congr (.joinPermission t j permission))
      (ht.addLiteral permission)
  ensureArgument _ p t ht :=
    ensureArgument_after ht (fun j => ht.congr (.joinPermission t j p.permission)) ht.addArgument
  same hnodes _ ht := by
    refine ⟨fun i j h => ?_, fun i w l j p hl hj => ?_⟩
    · rw [hnodes]
      exact ht.closed i j (by simpa only [Child, node, hnodes] using h)
    · rw [node, hnodes] at hl
      rw [mem_argumentsOf, node, node, hnodes] at hj
      exact ht.apart i w l j p hl (mem_argumentsOf.mpr hj)

/-- So every tree that a host can hold is tidy. -/
theorem Grown.tidy (h : t.Grown) : t.Tidy :=
  stepChanges_tidy.commands.grown (P := Tidy) (fun s _ => .of_empty s) h

end CommandLine.Tree
