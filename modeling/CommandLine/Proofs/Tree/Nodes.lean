import Mathlib.Data.List.Nodup
import CommandLine.Tree.Growth

/-!
# Nodes of a tree by index

What reading a node sees after the two changes from which all growth is made, changing a node in
place and adding one at the end, and what the look-ups of a node answer. A child of a node is one
that its literals, its flags or its arguments name.
-/

set_option autoImplicit false

namespace CommandLine.Tree

variable {α σ : Type} {t : Tree α σ} {i j : NodeIndex}

/-- One node is a child of another. -/
def Child (t : Tree α σ) (i j : NodeIndex) : Prop :=
  (∃ w, (w, j) ∈ (t.node i).literals) ∨ j ∈ (t.node i).flags ∨ j ∈ (t.node i).arguments

/-! ## Changes -/

/-- Behind the last node an index answers a blank root. -/
theorem node_of_size_le (h : t.nodes.size ≤ i) : t.node i = { label := .root } := by
  simp [node, h]

/-- A node that stands for something is one of the tree. -/
theorem lt_of_label_ne_root (h : (t.node i).label ≠ .root) : i < t.nodes.size := by
  apply Nat.lt_of_not_le
  intro hge
  rw [node_of_size_le hge] at h
  exact h rfl

/-- A node with a child is one of the tree. -/
theorem Child.parent_lt (h : t.Child i j) : i < t.nodes.size := by
  apply Nat.lt_of_not_le
  intro hge
  simp [Child, node_of_size_le hge] at h

/-- No node is added where one is changed. -/
@[simp] theorem size_modifyNode (t : Tree α σ) (i : NodeIndex)
    (f : Tree.Node α σ → Tree.Node α σ) : (t.modifyNode i f).nodes.size = t.nodes.size := by
  simp [modifyNode]

/-- The changed node is as the change says. -/
theorem node_modifyNode_self (h : i < t.nodes.size) (f : Tree.Node α σ → Tree.Node α σ) :
    (t.modifyNode i f).node i = f (t.node i) := by
  simp [modifyNode, node, Array.getElem_modify, h]

theorem node_modifyNode_of_ne (h : j ≠ i) (f : Tree.Node α σ → Tree.Node α σ) :
    (t.modifyNode i f).node j = t.node j := by
  simp [modifyNode, node, Array.getElem?_modify, h.symm]

/-- What a change of one node leaves at any index. -/
theorem node_modifyNode (t : Tree α σ) (i j : NodeIndex) (f : Tree.Node α σ → Tree.Node α σ) :
    (t.modifyNode i f).node j = if j = i ∧ j < t.nodes.size then f (t.node j) else t.node j := by
  by_cases h : j = i
  · subst h
    rcases Nat.lt_or_ge j t.nodes.size with hlt | hge
    · rw [node_modifyNode_self hlt, if_pos ⟨rfl, hlt⟩]
    · have hout : ¬(j = j ∧ j < t.nodes.size) := fun h => Nat.not_lt.mpr hge h.2
      rw [if_neg hout]
      simp [modifyNode, node, Nat.not_lt.mpr hge]
  · rw [node_modifyNode_of_ne h, if_neg fun hboth => h hboth.1]

/-- A change that keeps the label of a node keeps all labels. -/
theorem label_modifyNode {f : Tree.Node α σ → Tree.Node α σ} (hf : ∀ n, (f n).label = n.label)
    (t : Tree α σ) (i j : NodeIndex) : ((t.modifyNode i f).node j).label = (t.node j).label := by
  rw [node_modifyNode]
  split
  · exact hf _
  · rfl

@[simp] theorem size_pushNode (t : Tree α σ) (n : Tree.Node α σ) :
    (t.pushNode n).nodes.size = t.nodes.size + 1 := by
  simp [pushNode]

@[simp] theorem node_pushNode_size (t : Tree α σ) (n : Tree.Node α σ) :
    (t.pushNode n).node t.nodes.size = n := by
  simp [pushNode, node]

@[simp] theorem size_shareFlag (child : NodeIndex) (t : Tree α σ) (i : NodeIndex) :
    (t.shareFlag child i).nodes.size = t.nodes.size := by
  unfold shareFlag
  split
  · rfl
  · split
    · rfl
    · exact size_modifyNode ..

theorem node_pushNode_of_ne (n : Tree.Node α σ) (h : i ≠ t.nodes.size) :
    (t.pushNode n).node i = t.node i := by
  simp [pushNode, node, Array.getElem?_push, h]

/-- A new node keeps its label when it becomes a child. -/
theorem label_add {f : Tree.Node α σ → Tree.Node α σ} (hf : ∀ n, (f n).label = n.label)
    (t : Tree α σ) (n : Tree.Node α σ) (i : NodeIndex) :
    (((t.pushNode n).modifyNode i f).node t.nodes.size).label = n.label := by
  rw [label_modifyNode hf, node_pushNode_size]

/-- What a node is after it got a new child. -/
theorem node_add (h : i < t.nodes.size) (n : Tree.Node α σ) (f : Tree.Node α σ → Tree.Node α σ) :
    ((t.pushNode n).modifyNode i f).node i = f (t.node i) := by
  rw [node_modifyNode_self (by rw [size_pushNode]; exact Nat.lt_succ_of_lt h),
    node_pushNode_of_ne n (Nat.ne_of_lt h)]

/-! ## Look-ups -/

/-- A node stands for a parameter if that is its label. -/
theorem Node.parameter?_eq_some {n : Tree.Node α σ} {p : Parameter α} :
    n.parameter? = some p ↔ n.label = .parameter p := by
  unfold Node.parameter?
  split
  · rename_i q h
    simp [h]
  · rename_i h
    simpa using fun hp => h p hp

/-- A word that is found is one of the words below the node. -/
theorem Node.mem_literals_of_literal? {n : Tree.Node α σ} {w : String}
    (h : n.literal? w = some j) : (w, j) ∈ n.literals := by
  obtain ⟨⟨v, k⟩, hfind, rfl⟩ := Option.map_eq_some_iff.mp h
  have hv : v = w := by simpa using List.find?_some hfind
  exact hv ▸ List.mem_of_find?_eq_some hfind

/-- A word that leads nowhere names no literal child. -/
theorem Node.literal?_eq_none_iff {n : Tree.Node α σ} {w : String} :
    n.literal? w = none ↔ w ∉ n.literalNames := by
  simp only [literal?, Option.map_eq_none_iff, List.find?_eq_none, decide_eq_true_eq, literalNames,
    List.mem_map, not_exists, not_and]

/-- Where every word names one literal child, it leads to that child. -/
theorem Node.literal?_eq_some_iff {n : Tree.Node α σ} (hnodup : n.literalNames.Nodup) {w : String} :
    n.literal? w = some j ↔ (w, j) ∈ n.literals := by
  refine ⟨mem_literals_of_literal?, ?_⟩
  intro hmem
  cases hfind : n.literal? w with
  | none =>
    exact absurd (List.mem_map_of_mem hmem) (literal?_eq_none_iff.mp hfind)
  | some l =>
    have hsame := List.inj_on_of_nodup_map hnodup (mem_literals_of_literal? hfind) hmem rfl
    rw [(Prod.mk.inj hsame).2]

/-- The parameters of some nodes are those for which they stand. -/
theorem mem_parametersAt {ids : List NodeIndex} {p : Parameter α} :
    (j, p) ∈ t.parametersAt ids ↔ j ∈ ids ∧ (t.node j).label = .parameter p := by
  simp only [parametersAt, List.mem_filterMap, Option.map_eq_some_iff, Prod.mk.injEq,
    Node.parameter?_eq_some]
  constructor
  · rintro ⟨k, hk, q, hq, rfl, rfl⟩
    exact ⟨hk, hq⟩
  · rintro ⟨hj, hp⟩
    exact ⟨j, hj, p, hp, rfl, rfl⟩

/-- Where all nodes are parameters, all are listed. -/
theorem map_fst_parametersAt {ids : List NodeIndex}
    (h : ∀ j ∈ ids, ∃ p : Parameter α, (t.node j).label = .parameter p) :
    (t.parametersAt ids).map Prod.fst = ids := by
  induction ids with
  | nil => rfl
  | cons j ids ih =>
    obtain ⟨p, hp⟩ := h j List.mem_cons_self
    have hrest := ih fun l hl => h l (List.mem_cons_of_mem j hl)
    unfold parametersAt at hrest ⊢
    simp [Node.parameter?_eq_some.mpr hp, hrest]

/-- The flags below a node are listed there. -/
theorem mem_flagsOf {p : Parameter α} :
    (j, p) ∈ t.flagsOf i ↔ j ∈ (t.node i).flags ∧ (t.node j).label = .parameter p :=
  mem_parametersAt

theorem mem_argumentsOf {p : Parameter α} :
    (j, p) ∈ t.argumentsOf i ↔ j ∈ (t.node i).arguments ∧ (t.node j).label = .parameter p :=
  mem_parametersAt

/-- A flag that is found by its long name has it. -/
theorem of_flagNamed?_eq_some {name : String} {p : Parameter α}
    (h : t.flagNamed? i name = some (j, p)) : (j, p) ∈ t.flagsOf i ∧ p.longName = name :=
  ⟨List.mem_of_find?_eq_some h, by simpa using List.find?_some h⟩

/-- A flag that is found by its shorthand is one of the flags. -/
theorem mem_flagsOf_of_flagShort? {c : Char} {p : Parameter α}
    (h : t.flagShort? i c = some (j, p)) : (j, p) ∈ t.flagsOf i :=
  List.mem_of_find?_eq_some h

theorem shorthand?_of_flagShort? {c : Char} {p : Parameter α}
    (h : t.flagShort? i c = some (j, p)) : p.shorthand? = some c := by
  simpa using List.find?_some h

theorem child_of_mem_flagsOf {p : Parameter α} (h : (j, p) ∈ t.flagsOf i) : t.Child i j :=
  .inr (.inl (mem_flagsOf.mp h).1)

theorem child_of_mem_argumentsOf {p : Parameter α} (h : (j, p) ∈ t.argumentsOf i) :
    t.Child i j :=
  .inr (.inr (mem_argumentsOf.mp h).1)

/-- The arguments with a new one at its place are the arguments and the new one. -/
theorem placeArgument_perm (p : Parameter α) (k : NodeIndex)
    (siblings : List (NodeIndex × Parameter α)) :
    (placeArgument p k siblings).Perm (k :: siblings.map Prod.fst) := by
  induction siblings with
  | nil => exact .refl _
  | cons sibling siblings ih =>
    unfold placeArgument
    split
    · exact .refl _
    · exact (ih.cons sibling.1).trans (.swap ..)

end CommandLine.Tree
