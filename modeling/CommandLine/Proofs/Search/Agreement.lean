import Mathlib.Data.List.Basic
import CommandLine.Proofs.Search.Readings

/-!
# Trees that agree below a node

A search from a visit looks at the node of the visit, at its children and at what is below them, and
at the settings. Which indices the nodes have does not show in what it finds. So if one tree has a
copy of a set of nodes of another one, under other indices, and no edge leaves the set, the two are
searched alike from every visit to one of these nodes.

* `Node.rename` — a node whose children have other indices;
* `Copies.search_eq` — the same cursor, values, rejections and outcome.
-/

set_option autoImplicit false

namespace CommandLine

variable {α σ : Type}

/-- A visit to the copy of a node. -/
def Visit.rename (f : NodeIndex → NodeIndex) (v : Visit α) : Visit α := { v with node := f v.node }

/-- The turn of the copy of an argument child. -/
def Turn.rename (f : NodeIndex → NodeIndex) : Turn α → Turn α
  | .argument child p => .argument (f child) p
  | turn => turn

/-- A branch that leads on to the copy of a node. -/
def Branch.rename (f : NodeIndex → NodeIndex) : Branch α σ → Branch α σ
  | .enter v => .enter (v.rename f)
  | b => b

/-- A turn at a copy binds what it binds at the original. -/
theorem Turn.binds_rename (f : NodeIndex → NodeIndex) (turn : Turn α) :
    (turn.rename f).binds = turn.binds := by
  cases turn <;> rfl

namespace Tree

/-! ## Copies of nodes -/

namespace Node

variable {n : Tree.Node α σ} {f g : NodeIndex → NodeIndex}

/-- The same node with children under other indices. -/
def rename (f : NodeIndex → NodeIndex) (n : Tree.Node α σ) : Tree.Node α σ :=
  { n with
    literals := n.literals.map fun child => (child.1, f child.2)
    flags := n.flags.map f
    arguments := n.arguments.map f }

@[simp] theorem label_rename : (n.rename f).label = n.label := rfl

@[simp] theorem permission_rename : (n.rename f).permission = n.permission := rfl

@[simp] theorem command_rename : (n.rename f).command = n.command := rfl

@[simp] theorem name_rename : (n.rename f).name = n.name := rfl

@[simp] theorem isRoot_rename : (n.rename f).isRoot = n.isRoot := rfl

@[simp] theorem parameter?_rename : (n.rename f).parameter? = n.parameter? := rfl

/-- The words below a copy are the same. -/
@[simp] theorem literalNames_rename : (n.rename f).literalNames = n.literalNames := by
  simp [literalNames, rename]

/-- A word leads to the copy of the node to which it leads. -/
@[simp] theorem literal?_rename (word : String) :
    (n.rename f).literal? word = (n.literal? word).map f := by
  unfold literal? rename
  rw [List.find?_map, Option.map_map, Option.map_map]
  rfl

@[simp] theorem isEmpty_literals_rename : (n.rename f).literals.isEmpty = n.literals.isEmpty := by
  simp [rename]

@[simp] theorem isEmpty_flags_rename : (n.rename f).flags.isEmpty = n.flags.isEmpty := by
  simp [rename]

@[simp] theorem isEmpty_arguments_rename :
    (n.rename f).arguments.isEmpty = n.arguments.isEmpty := by
  simp [rename]

/-- Under its own indices a node is itself. -/
theorem rename_id (n : Tree.Node α σ) : n.rename id = n := by
  simp [rename]

end Node

/-- One tree has, under other indices, a copy of a set of nodes of another tree that no edge
leaves. -/
structure Copies (f : NodeIndex → NodeIndex) (t t' : Tree α σ) (S : NodeIndex → Prop) : Prop where
  settings : t'.settings = t.settings
  node : ∀ i, S i → t'.node (f i) = (t.node i).rename f
  closed : ∀ i j, S i → t.Child i j → S j

/-- A move leads to a child. -/
theorem Moves.child {t : Tree α σ} {v w : Visit α} {turn : Turn α} {given : Option (Given α)}
    (h : t.Moves v turn given w) (hturn : turn ∈ t.turns v) : t.Child v.node w.node := by
  cases h with
  | literal hchild => exact .inl ⟨_, Node.mem_literals_of_literal? hchild⟩
  | argument => exact child_of_mem_argumentsOf (mem_argumentsOf_of_mem_turns hturn)
  | switch hspells | bundle hspells | value hspells =>
    exact child_of_mem_flagsOf hspells.mem_flagsOf

/-- A turn that leads on leads to a child, whatever has been found so far. -/
theorem child_of_attempt {t : Tree α σ} {v w : Visit α} {turn : Turn α} {ctx : Context α}
    (hturn : turn ∈ t.turns v) (h : t.attempt v.node v.cursor ctx turn = some (.enter w)) :
    t.Child v.node w.node := by
  have h' : t.attempt { v with context := ctx }.node { v with context := ctx }.cursor
      { v with context := ctx }.context turn = some (.enter w) := h
  obtain ⟨_, hmove⟩ := attempt_eq_enter_iff.mp h'
  exact hmove.child hturn

namespace Copies

variable {f : NodeIndex → NodeIndex} {t t' : Tree α σ} {S : NodeIndex → Prop} {i j : NodeIndex}
  {p : Parameter α} {c : Cursor} {ctx : Context α}

/-- Copies of nodes have their parameters. -/
theorem parametersAt_eq (h : Copies f t t' S) {ids : List NodeIndex} (hids : ∀ j ∈ ids, S j) :
    t'.parametersAt (ids.map f) = (t.parametersAt ids).map (Prod.map f id) := by
  unfold parametersAt
  rw [List.filterMap_map, List.map_filterMap]
  refine List.filterMap_congr fun j hj => ?_
  rw [Function.comp_apply, h.node j (hids j hj), Node.parameter?_rename, Option.map_map]
  rfl

/-- The flags below a copy are the copies of the flags. -/
theorem flagsOf_eq (h : Copies f t t' S) (hi : S i) :
    t'.flagsOf (f i) = (t.flagsOf i).map (Prod.map f id) := by
  rw [flagsOf, h.node i hi]
  exact h.parametersAt_eq fun j hj => h.closed i j hi (.inr (.inl hj))

/-- And the arguments those of the arguments, in the same order. -/
theorem argumentsOf_eq (h : Copies f t t' S) (hi : S i) :
    t'.argumentsOf (f i) = (t.argumentsOf i).map (Prod.map f id) := by
  rw [argumentsOf, h.node i hi]
  exact h.parametersAt_eq fun j hj => h.closed i j hi (.inr (.inr hj))

/-- A long name leads to the copy of the flag that it leads to. -/
theorem flagNamed?_eq (h : Copies f t t' S) (hi : S i) (name : String) :
    t'.flagNamed? (f i) name = (t.flagNamed? i name).map (Prod.map f id) := by
  rw [flagNamed?, h.flagsOf_eq hi, List.find?_map]
  rfl

theorem flagShort?_eq (h : Copies f t t' S) (hi : S i) (ch : Char) :
    t'.flagShort? (f i) ch = (t.flagShort? i ch).map (Prod.map f id) := by
  rw [flagShort?, h.flagsOf_eq hi, List.find?_map]
  rfl

/-! ## What comes of a turn -/

/-- Whom a node lets in its copy lets in. -/
theorem permitted_eq (h : Copies f t t' S) (hj : S j) (position : Nat) (b : Branch α σ) :
    t'.permitted ctx (f j) position (b.rename f) = (t.permitted ctx j position b).rename f := by
  rw [permitted, permitted, h.node j hj, Node.permission_rename, Node.name_rename]
  split <;> rfl

/-- Going to a copy is going to the node. -/
theorem enter_eq (h : Copies f t t' S) (hj : S j) :
    t'.enter (f j) c ctx = (t.enter j c ctx).rename f := by
  rw [enter, enter, h.node j hj, Node.name_rename]
  split <;> rfl

/-- The value is read alike, and then the copy is entered. -/
theorem enterValue_eq (h : Copies f t t' S) (hj : S j) :
    t'.enterValue (f j) p c ctx = (t.enterValue j p c ctx).rename f := by
  unfold enterValue
  split
  · exact h.enter_eq hj
  · rfl

theorem flagValue_eq (h : Copies f t t' S) (hj : S j) :
    t'.flagValue (f j) p c ctx = (t.flagValue j p c ctx).rename f := by
  rw [flagValue, flagValue, h.enterValue_eq hj]
  split <;> rfl

/-- What follows the name of a flag is read alike. -/
theorem afterFlag_eq (h : Copies f t t' S) (hj : S j) (attached : Bool) :
    t'.afterFlag (f j) p c ctx attached = (t.afterFlag j p c ctx attached).rename f := by
  unfold afterFlag
  split
  · rfl
  · exact h.enter_eq hj
  · exact h.flagValue_eq hj
  · exact h.flagValue_eq hj

/-- A bundle of shorthands is read alike. -/
theorem shorthandBranch?_eq (h : Copies f t t' S) (hi : S i) :
    t'.shorthandBranch? (f i) c ctx = (t.shorthandBranch? i c ctx).map (Branch.rename f) := by
  unfold shorthandBranch?
  cases c.rest with
  | nil => rfl
  | cons ch rest =>
    simp only
    rw [h.flagShort?_eq hi]
    cases hfind : t.flagShort? i ch with
    | none => rfl
    | some found =>
      have hj := h.closed i found.1 hi (child_of_mem_flagsOf (mem_flagsOf_of_flagShort? hfind))
      simp only [Option.map_some, Prod.map, id_eq, h.afterFlag_eq hj, h.permitted_eq hj]

/-- So is a word that names a flag. -/
theorem flagBranch?_eq (h : Copies f t t' S) (hi : S i) :
    t'.flagBranch? (f i) c ctx = (t.flagBranch? i c ctx).map (Branch.rename f) := by
  unfold flagBranch?
  rw [h.node i hi, h.settings, Node.isEmpty_flags_rename]
  split
  · rfl
  · split
    · rfl
    · rename_i name _
      rw [h.flagNamed?_eq hi]
      cases hfind : t.flagNamed? i name with
      | none => rfl
      | some found =>
        have hj := h.closed i found.1 hi (child_of_mem_flagsOf (of_flagNamed?_eq_some hfind).1)
        simp only [Option.map_some, Prod.map, id_eq, h.afterFlag_eq hj, h.permitted_eq hj]
    · exact h.shorthandBranch?_eq hi

theorem literalBranch?_eq (h : Copies f t t' S) (hi : S i) :
    t'.literalBranch? (f i) c ctx = (t.literalBranch? i c ctx).map (Branch.rename f) := by
  unfold literalBranch?
  rw [h.node i hi, Node.literal?_rename]
  cases hfind : (t.node i).literal? c.word with
  | none => rfl
  | some j =>
    have hj := h.closed i j hi (.inl ⟨_, Node.mem_literals_of_literal? hfind⟩)
    simp only [Option.map_some, h.enter_eq hj, h.permitted_eq hj]

/-- At the end of the line the same is missing. -/
theorem missing_eq (h : Copies f t t' S) (hi : S i) : t'.missing (f i) = t.missing i := by
  have hflags : (t'.flagsOf (f i)).map Prod.snd = (t.flagsOf i).map Prod.snd := by
    rw [h.flagsOf_eq hi, List.map_map]
    rfl
  have hhead : ((t.node i).rename f).arguments.head? = (t.node i).arguments.head?.map f :=
    List.head?_map
  simp only [missing, hflags, h.node i hi, Node.isRoot_rename, Node.isEmpty_literals_rename,
    Node.literalNames_rename, hhead]
  cases hchild : (t.node i).arguments.head? with
  | none =>
    generalize (List.find? _ _ <|> _) = flag
    cases flag <;> rfl
  | some j =>
    have hj := h.closed i j hi (.inr (.inr (List.mem_of_head? hchild)))
    simp only [Option.map_some, h.node j hj, Node.name_rename]

/-- Every turn at a copy comes to the same. -/
theorem attempt_eq (h : Copies f t t' S) {v : Visit α} (hv : S v.node) {turn : Turn α}
    (hturn : turn ∈ t.turns v) (ctx : Context α) :
    t'.attempt (f v.node) v.cursor ctx (turn.rename f) =
      (t.attempt v.node v.cursor ctx turn).map (Branch.rename f) := by
  cases turn with
  | shorthand => exact h.shorthandBranch?_eq hv
  | finish =>
    have hend : t'.endBranch (f v.node) v.cursor ctx =
        (t.endBranch v.node v.cursor ctx).rename f := by
      rw [endBranch, endBranch, h.node v.node hv, h.missing_eq hv, Node.command_rename,
        Node.name_rename]
      split
      · split <;> rfl
      · rfl
    exact congrArg some hend
  | literal => exact h.literalBranch?_eq hv
  | flag => exact h.flagBranch?_eq hv
  -- The only turn that names a node; the others find their child by what the line says.
  | argument child p =>
    have hchild := h.closed v.node child hv
      (child_of_mem_argumentsOf (mem_argumentsOf_of_mem_turns hturn))
    show some (t'.argumentBranch (f child) p v.cursor ctx) =
      some ((t.argumentBranch child p v.cursor ctx).rename f)
    rw [argumentBranch, argumentBranch, h.enterValue_eq hchild, h.permitted_eq hchild]
  | mismatch =>
    have hcause : t'.mismatch? (f v.node) v.cursor.word = t.mismatch? v.node v.cursor.word := by
      simp [mismatch?, h.node v.node hv, h.settings]
    show t'.mismatchBranch? (f v.node) v.cursor =
      (t.mismatchBranch? v.node v.cursor).map (Branch.rename f)
    rw [mismatchBranch?, mismatchBranch?, hcause, h.node v.node hv, Node.name_rename,
      Option.map_map]
    rfl

/-- So a visit to a copy has the turns of the original, at the copies. -/
theorem turns_eq (h : Copies f t t' S) {v : Visit α} (hv : S v.node) :
    t'.turns (v.rename f) = (t.turns v).map (Turn.rename f) := by
  have harguments : t'.argumentsOf (v.rename f).node = (t.argumentsOf v.node).map (Prod.map f id) :=
    h.argumentsOf_eq hv
  unfold turns
  rw [harguments]
  show (if v.bundled then _ else if v.cursor.atEnd then _ else _) = _
  by_cases hbundled : v.bundled = true
  · simp [hbundled, Turn.rename]
  · by_cases hend : v.cursor.atEnd = true
    · simp [hbundled, hend, Turn.rename]
    · simp [hbundled, hend, Turn.rename, Function.comp_def]

/-- A copy is searched like the original. -/
theorem search_eq (h : Copies f t t' S) {v : Visit α} (hv : S v.node) (recorded : List Rejection) :
    t'.search (v.rename f) recorded = t.search v recorded := by
  induction hn : v.left using Nat.strongRecOn generalizing v recorded with
  | ind n ih =>
    rw [Tree.search_eq, Tree.search_eq, h.turns_eq hv, List.foldl_map]
    apply List.foldl_ext
    intro s turn hturn
    congr 1
    funext s
    show t'.takeTurn (v.rename f) s (turn.rename f) = t.takeTurn v s turn
    have hattempt : t'.attempt (v.rename f).node (v.rename f).cursor s.context (turn.rename f) =
        (t.attempt v.node v.cursor s.context turn).map (Branch.rename f) :=
      h.attempt_eq hv hturn s.context
    unfold takeTurn
    rw [hattempt, Turn.binds_rename]
    cases hb : t.attempt v.node v.cursor s.context turn with
    | none => rfl
    | some b =>
      cases b with
      | rejected r | denied r | bound c => rfl
      | enter w =>
        have hw := h.closed v.node w.node hv (child_of_attempt hturn hb)
        simp only [Option.map_some, Branch.rename]
        rw [ih w.left (hn ▸ left_lt_of_attempt hturn hb) hw s.rejections rfl]

end Copies

end Tree

end CommandLine
