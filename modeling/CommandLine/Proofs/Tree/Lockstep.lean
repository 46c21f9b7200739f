import Mathlib.Logic.Function.Basic
import CommandLine.Proofs.Search.FirstWord

/-!
# Growth in two trees at once

A tree may be alike another one below a word and have other words as well, with the nodes under
other indices. If a command of that word grows in both, they stay alike below it, node by node: each
step of growth looks up the same children, creates the same child and is refused for the same cause
(`Lockstep`). A new node of the one tree corresponds to a new node of the other.

* `Mirrors` — what the two trees have in common, with the indices of the nodes as a function;
* `lockstep_bind` — steps in lockstep compose like the growth itself;
* `lockstep_growCommand`, `lockstep_insert` — one lemma for each layer of a command.
-/

set_option autoImplicit false

namespace CommandLine.Tree

open Growth

variable {α σ : Type}

/-! ## Mirrored trees -/

/-- A node that is not the root. -/
def Below (t : Tree α σ) (i : NodeIndex) : Prop := i < t.nodes.size ∧ i ≠ root

/-- The nodes of a tree are also, under other indices, the nodes below one word of another tree. -/
structure Mirrors (word : String) (f : NodeIndex → NodeIndex) (t t' : Tree α σ) : Prop
    extends AlikeBelow word f t t' t.Below where
  size_pos : 0 < t.nodes.size
  size_pos' : 0 < t'.nodes.size
  below : ∀ i, t.Below i → t'.Below (f i)
  injective : ∀ i j, t.Below i → t.Below j → f i = f j → i = j
  root_arguments : (t.node root).arguments = [] ∧ (t'.node root).arguments = []

/-- The mirrored trees after some growth: old nodes keep their indices, and new nodes correspond to
new ones. -/
structure Follows (word : String) (f f' : NodeIndex → NodeIndex) (t t' u u' : Tree α σ) : Prop
    extends Mirrors word f' u u' where
  size_le : t.nodes.size ≤ u.nodes.size
  size_le' : t'.nodes.size ≤ u'.nodes.size
  old : ∀ i, t.Below i → f' i = f i
  new : ∀ i, u.Below i → t.nodes.size ≤ i → t'.nodes.size ≤ f' i

variable {word : String} {f f' f'' : NodeIndex → NodeIndex} {t t' u u' s s' : Tree α σ}
  {i j : NodeIndex} {c : Command α σ} {p : Parameter α}

/-- A node that is not the root stays one while the tree gets larger. -/
theorem Below.mono (h : t.Below i) (hle : t.nodes.size ≤ u.nodes.size) : u.Below i :=
  ⟨Nat.lt_of_lt_of_le h.1 hle, h.2⟩

/-- Where no node is new, the indices stay as they are. -/
theorem Mirrors.follows_of_size (h : Mirrors word f u u') (hsize : u.nodes.size = t.nodes.size)
    (hsize' : u'.nodes.size = t'.nodes.size) : Follows word f f t t' u u' where
  toMirrors := h
  size_le := Nat.le_of_eq hsize.symm
  size_le' := Nat.le_of_eq hsize'.symm
  old _ _ := rfl
  new _ hi hle := (Nat.not_lt.mpr hle (hsize ▸ hi.1)).elim

/-- Mirrored trees follow themselves. -/
theorem Mirrors.follows (h : Mirrors word f t t') : Follows word f f t t' t t' :=
  h.follows_of_size rfl rfl

/-- An old node is still below the root. -/
theorem Follows.below_of (h : Follows word f f' t t' u u') (hi : t.Below i) : u.Below i :=
  hi.mono h.size_le

/-- Growth goes on from mirrored trees that it left; a node is new if it is new to the first ones.
-/
theorem Follows.trans (h : Follows word f f' t t' u u') (h' : Follows word f' f'' u u' s s') :
    Follows word f f'' t t' s s' where
  toMirrors := h'.toMirrors
  size_le := Nat.le_trans h.size_le h'.size_le
  size_le' := Nat.le_trans h.size_le' h'.size_le'
  old i hi := (h'.old i (h.below_of hi)).trans (h.old i hi)
  new i hi hle := by
    rcases Nat.lt_or_ge i u.nodes.size with hlt | hge
    · have hu : u.Below i := ⟨hlt, hi.2⟩
      rw [h'.old i hu]
      exact h.new i hu hle
    · exact Nat.le_trans h.size_le' (h'.new i hi hge)

/-- Recording a command changes no node. -/
theorem Mirrors.follows_record (h : Mirrors word f t t') (c : Command α σ) :
    Follows word f f t t' { t with commands := t.commands.push c }
      { t' with commands := t'.commands.push c } := by
  refine Mirrors.follows_of_size ?_ rfl rfl
  exact
    { settings := h.settings
      node := h.node
      closed := h.closed
      word_eq := h.word_eq
      word_mem := h.word_mem
      size_pos := h.size_pos
      size_pos' := h.size_pos'
      below := h.below
      injective := h.injective
      root_arguments := h.root_arguments }

/-! ## One node at a time -/

/-- A node lists another one among its children. -/
def Node.Lists (n : Tree.Node α σ) (j : NodeIndex) : Prop :=
  (∃ w, (w, j) ∈ n.literals) ∨ j ∈ n.flags ∨ j ∈ n.arguments

/-- Only where the children are matters when a node is renamed. -/
theorem Node.rename_congr {n : Tree.Node α σ} (h : ∀ j, n.Lists j → f j = f' j) :
    n.rename f = n.rename f' := by
  have hliterals : n.literals.map (fun child => (child.1, f child.2)) =
      n.literals.map fun child => (child.1, f' child.2) :=
    List.map_congr_left fun child hchild => by rw [h child.2 (.inl ⟨child.1, hchild⟩)]
  have hflags : n.flags.map f = n.flags.map f' :=
    List.map_congr_left fun j hj => h j (.inr (.inl hj))
  have harguments : n.arguments.map f = n.arguments.map f' :=
    List.map_congr_left fun j hj => h j (.inr (.inr hj))
  rw [rename, rename, hliterals, hflags, harguments]

theorem below_modifyNode {g : Tree.Node α σ → Tree.Node α σ} :
    (t.modifyNode i g).Below j ↔ t.Below j := by
  rw [Below, Below, size_modifyNode]

/-- The node that is added is the only one that comes below the root. -/
theorem below_pushNode (hpos : 0 < t.nodes.size) {n : Tree.Node α σ} :
    (t.pushNode n).Below j ↔ t.Below j ∨ j = t.nodes.size := by
  constructor
  · rintro ⟨hlt, hne⟩
    rw [size_pushNode] at hlt
    exact (Nat.lt_succ_iff_lt_or_eq.mp hlt).imp (⟨·, hne⟩) id
  · rintro (hj | rfl)
    · exact hj.mono (by simp)
    · exact ⟨by simp, Nat.ne_of_gt hpos⟩

/-- The same change of a node and of the one that corresponds to it. -/
theorem Mirrors.follows_modify (h : Mirrors word f t t') (hi : t.Below i)
    {g g' : Tree.Node α σ → Tree.Node α σ}
    (hrename : g' ((t.node i).rename f) = (g (t.node i)).rename f)
    (hchild : ∀ j, (g (t.node i)).Lists j → t.Below j) :
    Follows word f f t t' (t.modifyNode i g) (t'.modifyNode (f i) g') := by
  have hroot : (t.modifyNode i g).node root = t.node root := node_modifyNode_of_ne hi.2.symm g
  have hroot' : (t'.modifyNode (f i) g').node root = t'.node root :=
    node_modifyNode_of_ne (h.below i hi).2.symm g'
  refine Mirrors.follows_of_size ?_ (size_modifyNode ..) (size_modifyNode ..)
  exact
    { settings := h.settings
      node := by
        intro j hj
        have hlt : t.Below j := below_modifyNode.mp hj
        by_cases hij : j = i
        · subst hij
          rw [node_modifyNode_self (h.below j hlt).1, node_modifyNode_self hlt.1, h.node j hlt,
            hrename]
        · -- Two nodes of the one tree never have one counterpart, so no other node changes.
          have hne : f j ≠ f i := fun heq => hij (h.injective j i hlt hi heq)
          rw [node_modifyNode_of_ne hne, node_modifyNode_of_ne hij, h.node j hlt]
      closed := by
        intro j l hj hl
        refine below_modifyNode.mpr ?_
        by_cases hij : j = i
        · subst hij
          rw [Child, node_modifyNode_self hi.1] at hl
          exact hchild l hl
        · rw [Child, node_modifyNode_of_ne hij] at hl
          exact h.closed j l (below_modifyNode.mp hj) hl
      word_eq := by rw [hroot, hroot', h.word_eq]
      word_mem := fun j hj => below_modifyNode.mpr (h.word_mem j (hroot ▸ hj))
      size_pos := by simpa using h.size_pos
      size_pos' := by simpa using h.size_pos'
      below := fun j hj => below_modifyNode.mpr (h.below j (below_modifyNode.mp hj))
      injective := fun j l hj hl =>
        h.injective j l (below_modifyNode.mp hj) (below_modifyNode.mp hl)
      root_arguments := by rw [hroot, hroot']; exact h.root_arguments }

/-- The roots may change as long as the word leads to the same place. -/
theorem Mirrors.follows_modify_root (h : Mirrors word f t t')
    {g g' : Tree.Node α σ → Tree.Node α σ}
    (hword : (g' (t'.node root)).literal? word = ((g (t.node root)).literal? word).map f)
    (hmem : ∀ j, (g (t.node root)).literal? word = some j → t.Below j)
    (harguments : (g (t.node root)).arguments = [] ∧ (g' (t'.node root)).arguments = []) :
    Follows word f f t t' (t.modifyNode root g) (t'.modifyNode root g') := by
  have hroot : (t.modifyNode root g).node root = g (t.node root) :=
    node_modifyNode_self (i := root) h.size_pos g
  have hroot' : (t'.modifyNode root g').node root = g' (t'.node root) :=
    node_modifyNode_self (i := root) h.size_pos' g'
  refine Mirrors.follows_of_size ?_ (size_modifyNode ..) (size_modifyNode ..)
  exact
    { settings := h.settings
      node := by
        intro j hj
        have hlt : t.Below j := below_modifyNode.mp hj
        rw [node_modifyNode_of_ne (h.below j hlt).2, node_modifyNode_of_ne hj.2, h.node j hlt]
      closed := by
        intro j l hj hl
        rw [Child, node_modifyNode_of_ne hj.2] at hl
        exact below_modifyNode.mpr (h.closed j l (below_modifyNode.mp hj) hl)
      word_eq := by rw [hroot, hroot', hword]
      word_mem := fun j hj => below_modifyNode.mpr (hmem j (hroot ▸ hj))
      size_pos := by simpa using h.size_pos
      size_pos' := by simpa using h.size_pos'
      below := fun j hj => below_modifyNode.mpr (h.below j (below_modifyNode.mp hj))
      injective := fun j l hj hl =>
        h.injective j l (below_modifyNode.mp hj) (below_modifyNode.mp hl)
      root_arguments := by rw [hroot, hroot']; exact harguments }

/-- The node that is new in one tree corresponds to the one that is new in the other. -/
def extend (f : NodeIndex → NodeIndex) (t t' : Tree α σ) : NodeIndex → NodeIndex :=
  Function.update f t.nodes.size t'.nodes.size

/-- The two new nodes correspond to each other. -/
@[simp] theorem extend_size (f : NodeIndex → NodeIndex) (t t' : Tree α σ) :
    extend f t t' t.nodes.size = t'.nodes.size :=
  Function.update_self ..

/-- Old nodes correspond as before. -/
theorem extend_of_lt (h : i < t.nodes.size) : extend f t t' i = f i :=
  Function.update_of_ne (Nat.ne_of_lt h) ..

/-- The children that a node has keep their indices. -/
theorem Mirrors.rename_extend (h : Mirrors word f t t') (hi : t.Below i) :
    (t.node i).rename (extend f t t') = (t.node i).rename f :=
  Node.rename_congr fun j hj => extend_of_lt (h.closed i j hi hj).1

/-- The same new node without children in both trees. -/
theorem Mirrors.follows_push (h : Mirrors word f t t') (label : Tree.Label α)
    (permission : Permission α) :
    Follows word f (extend f t t') t t' (t.pushNode { label, permission })
      (t'.pushNode { label, permission }) := by
  have hroot : (t.pushNode { label, permission }).node root = t.node root :=
    node_pushNode_of_ne _ (Nat.ne_of_lt h.size_pos)
  have hroot' : (t'.pushNode { label, permission }).node root = t'.node root :=
    node_pushNode_of_ne _ (Nat.ne_of_lt h.size_pos')
  have hcases {j : NodeIndex} (hj : (t.pushNode { label, permission }).Below j) :
      t.Below j ∨ j = t.nodes.size := (below_pushNode h.size_pos).mp hj
  have hold {j : NodeIndex} (hj : t.Below j) : (t.pushNode { label, permission }).Below j :=
    (below_pushNode h.size_pos).mpr (.inl hj)
  exact
    { settings := h.settings
      node := by
        intro j hj
        rcases hcases hj with hj | rfl
        · rw [extend_of_lt hj.1, node_pushNode_of_ne _ (Nat.ne_of_lt (h.below j hj).1),
            node_pushNode_of_ne _ (Nat.ne_of_lt hj.1), h.node j hj, h.rename_extend hj]
        · rw [extend_size, node_pushNode_size, node_pushNode_size]
          rfl
      closed := by
        intro j l hj hl
        rcases hcases hj with hj | rfl
        · rw [Child, node_pushNode_of_ne _ (Nat.ne_of_lt hj.1)] at hl
          exact hold (h.closed j l hj hl)
        · simp [Child] at hl
      word_eq := by
        rw [hroot, hroot', h.word_eq]
        exact Option.map_congr fun j hj => (extend_of_lt (h.word_mem j hj).1).symm
      word_mem := fun j hj => hold (h.word_mem j (hroot ▸ hj))
      size_pos := by simp
      size_pos' := by simp
      below := by
        intro j hj
        refine (below_pushNode h.size_pos').mpr ?_
        rcases hcases hj with hj | rfl
        · exact .inl (extend_of_lt hj.1 ▸ h.below j hj)
        · exact .inr (extend_size f t t')
      injective := by
        intro j l hj hl heq
        -- The counterpart of an old node is old, so it is not that of the new one.
        rcases hcases hj with hj | rfl <;> rcases hcases hl with hl | rfl
        · rw [extend_of_lt hj.1, extend_of_lt hl.1] at heq
          exact h.injective j l hj hl heq
        · rw [extend_of_lt hj.1, extend_size] at heq
          exact (Nat.ne_of_lt (h.below j hj).1 heq).elim
        · rw [extend_size, extend_of_lt hl.1] at heq
          exact (Nat.ne_of_gt (h.below l hl).1 heq).elim
        · rfl
      root_arguments := by rw [hroot, hroot']; exact h.root_arguments
      size_le := by simp
      size_le' := by simp
      old := fun j hj => extend_of_lt hj.1
      new := by
        intro j hj hle
        rcases hcases hj with hj | rfl
        · exact (Nat.not_lt.mpr hle hj.1).elim
        · exact Nat.le_of_eq (extend_size f t t').symm }

/-- The same new node below a node and below the one that corresponds to it. -/
theorem Mirrors.follows_attach (h : Mirrors word f t t') (hi : t.Below i) (label : Tree.Label α)
    (permission : Permission α) {g g' : Tree.Node α σ → Tree.Node α σ}
    (hrename : g' ((t.node i).rename f) = (g (t.node i)).rename (extend f t t'))
    (hchild : ∀ j, (g (t.node i)).Lists j → (t.node i).Lists j ∨ j = t.nodes.size) :
    Follows word f (extend f t t') t t' ((t.pushNode { label, permission }).modifyNode i g)
      ((t'.pushNode { label, permission }).modifyNode (f i) g') := by
  have hpush := h.follows_push label permission
  have hnode : (t.pushNode { label, permission }).node i = t.node i :=
    node_pushNode_of_ne _ (Nat.ne_of_lt hi.1)
  have hi' : extend f t t' i = f i := extend_of_lt hi.1
  refine hpush.trans ?_
  rw [← hi']
  refine hpush.follows_modify (hpush.below_of hi) ?_ fun j hj => ?_
  · rw [hnode, h.rename_extend hi, hrename]
  · rw [hnode] at hj
    exact (below_pushNode h.size_pos).mpr ((hchild j hj).imp_left (h.closed i j hi))

/-! ## Single changes -/

/-- Nodes that correspond are opened alike. -/
theorem Mirrors.joinPermission (h : Mirrors word f t t') (hi : t.Below i)
    (permission : Permission α) :
    Follows word f f t t' (t.joinPermission i permission) (t'.joinPermission (f i) permission) :=
  h.follows_modify hi rfl fun j hj => h.closed i j hi hj

theorem Mirrors.bindCommand (h : Mirrors word f t t') (hi : t.Below i) (c : Command α σ) :
    Follows word f f t t' (t.bindCommand i c) (t'.bindCommand (f i) c) := by
  refine h.follows_modify hi ?_ fun j hj => h.closed i j hi ?_
  · rw [Node.command_rename]
    split <;> rfl
  · split at hj <;> exact hj

theorem Mirrors.addLiteral (h : Mirrors word f t t') (hi : t.Below i) (w : String)
    (permission : Permission α) : Follows word f (extend f t t') t t'
      (t.addLiteral i w permission) (t'.addLiteral (f i) w permission) := by
  refine h.follows_attach hi (.literal w) permission ?_ fun j hj => ?_
  · rw [← h.rename_extend hi]
    simp [Node.rename]
  · rcases hj with ⟨v, hj⟩ | hj
    · rcases List.mem_append.mp hj with hj | hj
      · exact .inl (.inl ⟨v, hj⟩)
      · exact .inr (Prod.mk.inj (List.mem_singleton.mp hj)).2
    · exact .inl (.inr hj)

theorem Mirrors.addFlag (h : Mirrors word f t t') (hi : t.Below i) (p : Parameter α) :
    Follows word f (extend f t t') t t' (t.addFlag i p) (t'.addFlag (f i) p) := by
  refine h.follows_attach hi (.parameter p) p.permission ?_ fun j hj => ?_
  · rw [← h.rename_extend hi]
    simp [Node.rename]
  · rcases hj with hj | hj | hj
    · exact .inl (.inl hj)
    · exact (List.mem_append.mp hj).imp (.inr <| .inl ·) List.mem_singleton.mp
    · exact .inl (.inr (.inr hj))

/-- A word that a node does not know is its newest one when it is added. -/
theorem Node.literal?_append {n : Tree.Node α σ} (h : n.literal? word = none) (j : NodeIndex) :
    ({ n with literals := n.literals ++ [(word, j)] } : Tree.Node α σ).literal? word = some j := by
  have hnone := Option.map_eq_none_iff.mp h
  simp [Node.literal?, List.find?_append, hnone]

/-- The root gets the word in both trees. -/
theorem Mirrors.addWord (h : Mirrors word f t t') (hnone : (t.node root).literal? word = none)
    (permission : Permission α) : Follows word f (extend f t t') t t'
      (t.addLiteral root word permission) (t'.addLiteral root word permission) := by
  have hpush := h.follows_push (.literal word) permission
  have hnone' : (t'.node root).literal? word = none := by rw [h.word_eq, hnone]; rfl
  have hroot : (t.pushNode { label := .literal word, permission }).node root = t.node root :=
    node_pushNode_of_ne _ (Nat.ne_of_lt h.size_pos)
  have hroot' : (t'.pushNode { label := .literal word, permission }).node root = t'.node root :=
    node_pushNode_of_ne _ (Nat.ne_of_lt h.size_pos')
  refine hpush.trans (hpush.follows_modify_root ?_ (fun j hj => ?_) ?_)
  · rw [hroot, hroot', Node.literal?_append hnone, Node.literal?_append hnone', Option.map_some,
      extend_size]
  · rw [hroot, Node.literal?_append hnone] at hj
    exact (below_pushNode h.size_pos).mpr (.inr (Option.some.inj hj).symm)
  · exact ⟨hpush.root_arguments.1, hpush.root_arguments.2⟩

/-- A new argument is put at the same place among copies of the siblings. -/
theorem placeArgument_map {k : NodeIndex} {siblings : List (NodeIndex × Parameter α)} :
    placeArgument p (f k) (siblings.map (Prod.map f id)) = (placeArgument p k siblings).map f := by
  induction siblings with
  | nil => rfl
  | cons sibling siblings ih =>
    obtain ⟨child, q⟩ := sibling
    rw [List.map_cons, placeArgument]
    by_cases horder : q.order p = .gt
    · simp [placeArgument, horder, Function.comp_def]
    · simp [placeArgument, horder, ih]

/-- They get the same argument, which is tried between the same other ones. -/
theorem Mirrors.addArgument (h : Mirrors word f t t') (hi : t.Below i) (p : Parameter α) :
    Follows word f (extend f t t') t t' (t.addArgument i p) (t'.addArgument (f i) p) := by
  refine h.follows_attach hi (.parameter p) p.permission ?_ fun j hj => ?_
  · have hsiblings : t'.argumentsOf (f i) =
        (t.argumentsOf i).map (Prod.map (extend f t t') id) := by
      rw [h.argumentsOf_eq hi]
      refine List.map_congr_left fun child hchild => ?_
      have hlt := (h.closed i child.1 hi (child_of_mem_argumentsOf hchild)).1
      rw [Prod.map, Prod.map, extend_of_lt hlt]
    rw [← h.rename_extend hi, hsiblings, ← extend_size f t t',
      placeArgument_map]
    rfl
  · rcases hj with hj | hj | hj
    · exact .inl (.inl hj)
    · exact .inl (.inr (.inl hj))
    · have hplaced := (placeArgument_perm p t.nodes.size (t.argumentsOf i)).mem_iff.mp hj
      refine (List.mem_cons.mp hplaced).symm.imp_left fun hold => ?_
      obtain ⟨child, hchild, rfl⟩ := List.mem_map.mp hold
      exact .inr (.inr (mem_argumentsOf.mp hchild).1)

/-- They list the same flag once more, unless there is one of that name below both. -/
theorem Mirrors.shareFlag (h : Mirrors word f t t') (hi : t.Below i) (hj : t.Below j) :
    Follows word f f t t' (t.shareFlag j i) (t'.shareFlag (f j) (f i)) := by
  unfold Tree.shareFlag
  rw [h.node j hj, Node.parameter?_rename]
  cases (t.node j).parameter? with
  | none => exact h.follows
  | some p =>
    simp only [h.flagNamed?_eq hi, Option.isSome_map]
    split
    · exact h.follows
    · refine h.follows_modify hi ?_ fun l hl => ?_
      · simp [Node.rename]
      · rcases hl with hl | hl | hl
        · exact h.closed i l hi (.inl hl)
        · rcases List.mem_append.mp hl with hl | hl
          · exact h.closed i l hi (.inr (.inl hl))
          · exact List.mem_singleton.mp hl ▸ hj
        · exact h.closed i l hi (.inr (.inr hl))

/-! ## Steps in lockstep -/

/-- A step of growth on each of two mirrored trees: both are refused, for one cause, or both go on
with answers that are as `Q` says. The trees that they leave are mirrored again. -/
inductive Concur {β β' : Type} (word : String) (f : NodeIndex → NodeIndex) (t t' : Tree α σ)
    (Q : (NodeIndex → NodeIndex) → Tree α σ → β → β' → Prop) :
    EStateM.Result Refusal (Tree α σ) β → EStateM.Result Refusal (Tree α σ) β' → Prop
  | ok {f' u u' b b'} : Follows word f f' t t' u u' → Q f' u b b' →
      Concur word f t t' Q (.ok b u) (.ok b' u')
  | error {f' u u' e} : Follows word f f' t t' u u' →
      Concur word f t t' Q (.error e u) (.error e u')

/-- Two growths do the same in mirrored trees. -/
def Lockstep {β β' : Type} (word : String) (f : NodeIndex → NodeIndex) (t t' : Tree α σ)
    (g : Growth α σ β) (g' : Growth α σ β')
    (Q : (NodeIndex → NodeIndex) → Tree α σ → β → β' → Prop) : Prop :=
  Concur word f t t' Q (g t) (g' t')

/-- An answer that is a node below the root, under its index in each tree. -/
def Twins (f : NodeIndex → NodeIndex) (t : Tree α σ) (i i' : NodeIndex) : Prop :=
  t.Below i ∧ i' = f i

/-- An answer that says nothing. -/
def Done (_ : NodeIndex → NodeIndex) (_ : Tree α σ) (_ _ : Unit) : Prop := True

section

variable {β β' γ γ' : Type} {g : Growth α σ β} {g' : Growth α σ β'} {k : β → Growth α σ γ}
  {k' : β' → Growth α σ γ'} {Q : (NodeIndex → NodeIndex) → Tree α σ → β → β' → Prop}
  {R : (NodeIndex → NodeIndex) → Tree α σ → γ → γ' → Prop}

/-- Two growths that concur from trees that follow others concur from those. -/
theorem Concur.of_follows {r : EStateM.Result Refusal (Tree α σ) β}
    {r' : EStateM.Result Refusal (Tree α σ) β'} (h : Concur word f' u u' Q r r')
    (hfollows : Follows word f f' t t' u u') : Concur word f t t' Q r r' := by
  cases h with
  | ok hrest hQ => exact .ok (hfollows.trans hrest) hQ
  | error hrest => exact .error (hfollows.trans hrest)

/-- Two answers that are related are in lockstep. -/
theorem lockstep_pure (h : Mirrors word f t t') {b : β} {b' : β'} (hb : Q f t b b') :
    Lockstep word f t t' (pure b) (pure b') Q :=
  .ok h.follows hb

/-- So are two changes that leave mirrored trees. -/
theorem lockstep_modify {g g' : Tree α σ → Tree α σ} (h : Follows word f f' t t' (g t) (g' t')) :
    Lockstep word f t t' (modify g) (modify g') Done :=
  .ok h trivial

/-- Growths in lockstep compose: if the first parts go on, so do the second ones, from the trees
that these leave. -/
theorem lockstep_bind (hg : Lockstep word f t t' g g' Q)
    (hk : ∀ {f₁ u u' b b'}, Follows word f f₁ t t' u u' → Q f₁ u b b' →
      Lockstep word f₁ u u' (k b) (k' b') R) :
    Lockstep word f t t' (g >>= k) (g' >>= k') R := by
  unfold Lockstep at hg ⊢
  rw [Growth.bind_apply, Growth.bind_apply]
  generalize g t = r at hg
  generalize g' t' = r' at hg
  cases hg with
  | ok hfollows hQ => exact (hk hfollows hQ).of_follows hfollows
  | error hfollows => exact .error hfollows

end

/-- Wherever two growths in lockstep stop, they leave mirrored trees. -/
theorem Lockstep.exists_follows {β β' : Type} {g : Growth α σ β} {g' : Growth α σ β'}
    {Q : (NodeIndex → NodeIndex) → Tree α σ → β → β' → Prop} (h : Lockstep word f t t' g g' Q) :
    ∃ f', Follows word f f' t t' (g.after t) (g'.after t') := by
  unfold Lockstep at h
  unfold Growth.after
  generalize g t = r at h
  generalize g' t' = r' at h
  cases h with
  | ok hfollows _ => exact ⟨_, hfollows⟩
  | error hfollows => exact ⟨_, hfollows⟩

/-- A node below the root keeps its twin. -/
theorem Follows.twins (h : Follows word f f' t t' u u') (hi : t.Below i) : Twins f' u i (f i) :=
  ⟨h.below_of hi, (h.old i hi).symm⟩

/-- The new nodes are twins. -/
theorem Mirrors.twins_new (h : Mirrors word f t t') (hlt : t.nodes.size < u.nodes.size) :
    Twins (extend f t t') u t.nodes.size t'.nodes.size :=
  ⟨⟨hlt, Nat.ne_of_gt h.size_pos⟩, (extend_size f t t').symm⟩

/-! ## Children -/

/-- A word is found in both trees, added to both or refused in both. -/
theorem lockstep_ensureLiteral (h : Mirrors word f t t') (hi : t.Below i) (w : String)
    (permission : Permission α) :
    Lockstep word f t t' (ensureLiteral i w permission) (ensureLiteral (f i) w permission)
      Twins := by
  unfold Lockstep ensureLiteral
  rw [h.node i hi, Node.literal?_rename, h.argumentsOf_eq hi]
  cases hfind : (t.node i).literal? w with
  | some existing =>
    have hexisting := h.closed i existing hi (.inl ⟨w, Node.mem_literals_of_literal? hfind⟩)
    have hjoin := h.joinPermission hexisting permission
    exact .ok hjoin (hjoin.twins hexisting)
  | none =>
    simp only [Option.map_none, List.any_map, Function.comp_def, Prod.map, id_eq]
    split
    · exact .error h.follows
    · have hadd := h.addLiteral hi w permission
      exact .ok hadd (h.twins_new (by simp [Tree.addLiteral]))

theorem lockstep_ensureFlag (h : Mirrors word f t t') (hi : t.Below i) (p : Parameter α) :
    Lockstep word f t t' (ensureFlag i p) (ensureFlag (f i) p) Twins := by
  unfold Lockstep ensureFlag
  rw [h.flagNamed?_eq hi]
  cases hfind : t.flagNamed? i p.longName with
  | some found =>
    obtain ⟨existing, q⟩ := found
    have hexisting := h.closed i existing hi (child_of_mem_flagsOf (of_flagNamed?_eq_some hfind).1)
    simp only [Option.map_some, Prod.map, id_eq]
    split
    · have hjoin := h.joinPermission hexisting p.permission
      exact .ok hjoin (hjoin.twins hexisting)
    · exact .error h.follows
  | none =>
    have hadd := h.addFlag hi p
    exact .ok hadd (h.twins_new (by simp [Tree.addFlag]))

theorem lockstep_ensureArgument (h : Mirrors word f t t') (hi : t.Below i) (p : Parameter α) :
    Lockstep word f t t' (ensureArgument i p) (ensureArgument (f i) p) Twins := by
  unfold Lockstep ensureArgument
  rw [h.node i hi, Node.literal?_rename, h.argumentsOf_eq hi, Option.isSome_map]
  split
  · exact .error h.follows
  · simp only [List.find?_map, Function.comp_def, Prod.map, id_eq]
    cases hfind : (t.argumentsOf i).find? fun child =>
        child.2.name = p.name && child.2.interchangeable p with
    | some found =>
      obtain ⟨existing, q⟩ := found
      have hexisting := h.closed i existing hi
        (child_of_mem_argumentsOf (List.mem_of_find?_eq_some hfind))
      have hjoin := h.joinPermission hexisting p.permission
      exact .ok hjoin (hjoin.twins hexisting)
    | none =>
      have hadd := h.addArgument hi p
      exact .ok hadd (h.twins_new (by simp [Tree.addArgument]))

/-- A parameter of either form is found, added or refused in both trees. -/
theorem lockstep_ensureParameter (h : Mirrors word f t t') (hi : t.Below i) (p : Parameter α) :
    Lockstep word f t t' (ensureParameter i p) (ensureParameter (f i) p) Twins := by
  unfold ensureParameter
  split
  · exact lockstep_ensureFlag h hi p
  · exact lockstep_ensureArgument h hi p

/-- So a step of a path is taken in both trees or in none. -/
theorem lockstep_ensureStep (h : Mirrors word f t t') (hi : t.Below i) (c : Command α σ)
    (step : Step α) :
    Lockstep word f t t' (ensureStep c i step) (ensureStep c (f i) step) Twins := by
  cases step with
  | literal w => exact lockstep_ensureLiteral h hi w c.permission
  | parameter p => exact lockstep_ensureParameter h hi p

/-! ## The flag section -/

/-- The end of a command is marked in both. -/
theorem lockstep_markEnd (h : Mirrors word f t t') (hi : t.Below i) (c : Command α σ) :
    Lockstep word f t t' (markEnd c i) (markEnd c (f i)) Done :=
  lockstep_modify (h.bindCommand hi c)

/-- Both wait for the same flags before they mark it. -/
theorem lockstep_markEndBefore (h : Mirrors word f t t') (hi : t.Below i) (c : Command α σ)
    (left : List (Parameter α)) :
    Lockstep word f t t' (markEndBefore c i left) (markEndBefore c (f i) left) Done := by
  unfold markEndBefore
  split
  · exact lockstep_markEnd h hi c
  · exact lockstep_pure h trivial

/-- Rows of flags go on to nodes that correspond. -/
theorem lockstep_growRow (h : Mirrors word f t t') (hi : t.Below i) (ps : List (Parameter α)) :
    Lockstep word f t t' (growRow i ps) (growRow (f i) ps) Twins := by
  induction ps generalizing f t t' i with
  | nil => exact lockstep_pure h ⟨hi, rfl⟩
  | cons p ps ih =>
    apply lockstep_bind (lockstep_ensureParameter h hi p)
    rintro f₁ u u' child _ hfollows ⟨hchild, rfl⟩
    exact ih hfollows.toMirrors hchild

/-- One order of flags is grown in lockstep. -/
theorem lockstep_growOrder (h : Mirrors word f t t') (hi : t.Below i) (c : Command α σ)
    (ps : List (Parameter α)) :
    Lockstep word f t t' (growOrder c i ps) (growOrder c (f i) ps) Done := by
  induction ps generalizing f t t' i with
  | nil => exact lockstep_markEnd h hi c
  | cons p ps ih =>
    apply lockstep_bind (lockstep_markEndBefore h hi c (p :: ps))
    intro f₁ u u' _ _ hfollows _
    have hi₁ := hfollows.below_of hi
    rw [← hfollows.old i hi]
    apply lockstep_bind (lockstep_ensureParameter hfollows.toMirrors hi₁ p)
    rintro f₂ s s' child _ hfollows' ⟨hchild, rfl⟩
    exact ih hfollows'.toMirrors hchild

/-- So are all orders, one after the other from the same node. -/
theorem lockstep_growOrders (h : Mirrors word f t t') (hi : t.Below i) (c : Command α σ)
    (orders : List (List (Parameter α))) :
    Lockstep word f t t' (growOrders c i orders) (growOrders c (f i) orders) Done := by
  induction orders generalizing f t t' with
  | nil => exact lockstep_pure h trivial
  | cons order orders ih =>
    apply lockstep_bind (lockstep_growOrder h hi c order)
    intro f₁ u u' _ _ hfollows _
    rw [← hfollows.old i hi]
    exact ih hfollows.toMirrors (hfollows.below_of hi)

/-- A node is shared with the same earlier ones. -/
theorem Mirrors.shareFlags (h : Mirrors word f t t') {earlier : List NodeIndex}
    (hearlier : ∀ e ∈ earlier, t.Below e) (hj : t.Below j) :
    Follows word f f t t' (earlier.foldl (Tree.shareFlag j) t)
      ((earlier.map f).foldl (Tree.shareFlag (f j)) t') := by
  induction earlier generalizing t t' with
  | nil => exact h.follows
  | cons e earlier ih =>
    have hshare := h.shareFlag (hearlier e List.mem_cons_self) hj
    refine hshare.trans (ih hshare.toMirrors (fun e' he' => ?_) (hshare.below_of hj))
    exact hshare.below_of (hearlier e' (List.mem_cons_of_mem e he'))

/-- Nodes that were there before growth correspond as they did then. -/
theorem Follows.map_eq (h : Follows word f f' t t' u u') {ids : List NodeIndex}
    (hids : ∀ e ∈ ids, t.Below e) : ids.map f' = ids.map f :=
  List.map_congr_left fun e he => h.old e (hids e he)

/-- A chain is grown in lockstep; the nodes that are shared correspond too. -/
theorem lockstep_growChain (h : Mirrors word f t t') (hi : t.Below i) (c : Command α σ)
    {earlier : List NodeIndex} (hearlier : ∀ e ∈ earlier, t.Below e) (ps : List (Parameter α)) :
    Lockstep word f t t' (growChain c i earlier ps) (growChain c (f i) (earlier.map f) ps)
      Done := by
  induction ps generalizing f t t' earlier with
  | nil => exact lockstep_pure h trivial
  | cons p ps ih =>
    apply lockstep_bind (lockstep_ensureParameter h hi p)
    rintro f₁ t₁ t₁' child _ hfollows ⟨hchild, rfl⟩
    apply lockstep_bind (lockstep_markEnd hfollows.toMirrors hchild c)
    intro f₂ t₂ t₂' _ _ hmark _
    have hfollows₂ := hfollows.trans hmark
    have hearlier₂ (e : NodeIndex) (he : e ∈ earlier) : t₂.Below e :=
      hfollows₂.below_of (hearlier e he)
    have hchild₂ := hmark.below_of hchild
    rw [← hfollows₂.map_eq hearlier, ← hmark.old child hchild]
    apply lockstep_bind (lockstep_modify (hmark.shareFlags hearlier₂ hchild₂))
    intro f₃ t₃ t₃' _ _ hshare _
    have hfollows₃ := hfollows₂.trans hshare
    have hlast (e : NodeIndex) (he : e ∈ earlier ++ [child]) : t₂.Below e := by
      rcases List.mem_append.mp he with he | he
      · exact hearlier₂ e he
      · exact List.mem_singleton.mp he ▸ hchild₂
    -- Both trees link the same earlier nodes, up to the map as it stands after the sharing.
    have hlinked : earlier.map f₂ ++ [f₂ child] = (earlier ++ [child]).map f₃ := by
      rw [hshare.map_eq hlast, List.map_append]
      rfl
    rw [hlinked, ← hfollows₃.old i hi]
    exact ih hshare.toMirrors (hfollows₃.below_of hi) fun e he => hshare.below_of (hlast e he)

/-- The flag section is grown in lockstep, in either layout. -/
theorem lockstep_growFlags (h : Mirrors word f t t') (hi : t.Below i) (c : Command α σ)
    (plan : FlagPlan α) :
    Lockstep word f t t' (growFlags c i plan) (growFlags c (f i) plan) Done := by
  cases plan with
  | orders paths => exact lockstep_growOrders h hi c paths
  | chain required optionals =>
    apply lockstep_bind (lockstep_growRow h hi required)
    rintro f₁ u u' base _ hfollows ⟨hbase, rfl⟩
    apply lockstep_bind (lockstep_markEnd hfollows.toMirrors hbase c)
    intro f₂ s s' _ _ hmark _
    rw [← hmark.old base hbase]
    exact lockstep_growChain hmark.toMirrors (hmark.below_of hbase) c (by simp) optionals

/-- And wherever it may begin before the steps that are left. -/
theorem lockstep_growFlagsBefore (h : Mirrors word f t t') (hi : t.Below i) (c : Command α σ)
    (plan : FlagPlan α) (left : List (Step α)) :
    Lockstep word f t t' (growFlagsBefore c i plan left) (growFlagsBefore c (f i) plan left)
      Done := by
  unfold growFlagsBefore
  split
  · exact lockstep_growFlags h hi c plan
  · exact lockstep_pure h trivial

/-! ## Commands -/

/-- A path is grown in lockstep, by induction on its steps. -/
theorem lockstep_growPath (h : Mirrors word f t t') (hi : t.Below i) (c : Command α σ)
    (plan : FlagPlan α) (steps : List (Step α)) :
    Lockstep word f t t' (growPath c plan i steps) (growPath c plan (f i) steps) Done := by
  induction steps generalizing f t t' i with
  | nil => exact lockstep_growFlags h hi c plan
  | cons step steps ih =>
    apply lockstep_bind (lockstep_growFlagsBefore h hi c plan (step :: steps))
    intro f₁ u u' _ _ hfollows _
    rw [← hfollows.old i hi]
    apply lockstep_bind (lockstep_ensureStep hfollows.toMirrors (hfollows.below_of hi) c step)
    rintro f₂ s s' child _ hfollows' ⟨hchild, rfl⟩
    exact ih hfollows'.toMirrors hchild

/-- The first word of a command, which the other tree may have among others. -/
theorem lockstep_ensureLiteral_root (h : Mirrors word f t t') (permission : Permission α) :
    Lockstep word f t t' (ensureLiteral root word permission) (ensureLiteral root word permission)
      Twins := by
  have hnone {u : Tree α σ} (hu : (u.node root).arguments = []) : u.argumentsOf root = [] := by
    rw [argumentsOf, hu]
    rfl
  unfold Lockstep ensureLiteral
  rw [h.word_eq, hnone h.root_arguments.1, hnone h.root_arguments.2]
  cases hfind : (t.node root).literal? word with
  | some existing =>
    have hexisting := h.word_mem existing hfind
    have hjoin := h.joinPermission hexisting permission
    exact .ok hjoin (hjoin.twins hexisting)
  | none =>
    have hadd := h.addWord hfind permission
    exact .ok hadd (h.twins_new (by simp [Tree.addLiteral]))

/-- At the root only the first word is looked up, and below it the rest of the command is grown in
lockstep. -/
theorem lockstep_growCommand (h : Mirrors c.name f t t') :
    Lockstep c.name f t t' (growCommand c) (growCommand c) Done := by
  have hgrow : Lockstep c.name f t t'
      (ensureLiteral root c.name c.permission >>= fun first =>
        growPath c (.ofFlags t.settings.threshold c.flags) first c.path)
      (ensureLiteral root c.name c.permission >>= fun first =>
        growPath c (.ofFlags t'.settings.threshold c.flags) first c.path) Done := by
    apply lockstep_bind (lockstep_ensureLiteral_root h c.permission)
    rintro f₁ u u' first _ hfollows ⟨hfirst, rfl⟩
    rw [h.settings]
    exact lockstep_growPath hfollows.toMirrors hfirst c _ c.path
  exact hgrow

/-- A command whose name is the word is inserted into both trees alike, or refused by both. -/
theorem lockstep_insert (h : Mirrors c.name f t t') :
    Lockstep c.name f t t' (insert c) (insert c) Done := by
  apply lockstep_bind (lockstep_growCommand h)
  intro f₁ u u' _ _ hfollows _
  exact lockstep_modify (hfollows.follows_record c)

end CommandLine.Tree
