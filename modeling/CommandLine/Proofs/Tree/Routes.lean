import Mathlib.Data.List.Forall2
import CommandLine.Proofs.Tree.Nodes

/-!
# Routes

A route goes from a node to one of its children, from there to one of its children, and so on. It is
told by its steps: the word or the parameter of every node that it comes to. A route is a **trail**
of a command if its steps stand for the command's words and arguments up to some place and then for
some of its flags.

Growth only adds children and commands, so it keeps all routes and where they end (`Grows`).

* `Route.append`, `exists_route_snoc` — routes one after the other, and the last step of one;
* `Grows.route`, `Grows.trail`, `Grows.ends` — what growth keeps.
-/

set_option autoImplicit false

namespace CommandLine

variable {α σ : Type}

/-- A step of a tree stands for a step of a command. -/
def Step.Fits : Step α → Step α → Prop
  | .literal v, .literal w => v = w
  | .parameter q, .parameter p => q.longName = p.longName ∧ q.interchangeable p = true
  | _, _ => False

theorem Step.Fits.refl (step : Step α) : step.Fits step := by
  cases step with
  | literal w => rfl
  | parameter p => exact ⟨rfl, p.interchangeable_self⟩

/-- A word of a tree stands for a word only. -/
theorem Step.Fits.of_literal {w : String} {step : Step α} (h : (Step.literal w).Fits step) :
    step = .literal w := by
  cases step with
  | literal v => exact congrArg Step.literal (show w = v from h).symm
  | parameter p => exact h.elim

/-- Elements of related lists go together one by one. -/
theorem exists_of_mem_forall₂ {β γ : Type} {R : β → γ → Prop} {xs : List β} {ys : List γ}
    (h : List.Forall₂ R xs ys) : (∀ x ∈ xs, ∃ y ∈ ys, R x y) ∧ ∀ y ∈ ys, ∃ x ∈ xs, R x y := by
  induction h with
  | nil => simp
  | @cons x y xs ys hxy _ ih =>
    constructor
    · intro x' hx'
      rcases List.mem_cons.mp hx' with rfl | hx'
      · exact ⟨y, List.mem_cons_self, hxy⟩
      · obtain ⟨y', hy', hxy'⟩ := ih.1 x' hx'
        exact ⟨y', List.mem_cons_of_mem y hy', hxy'⟩
    · intro y' hy'
      rcases List.mem_cons.mp hy' with rfl | hy'
      · exact ⟨x, List.mem_cons_self, hxy⟩
      · obtain ⟨x', hx', hxy'⟩ := ih.2 y' hy'
        exact ⟨x', List.mem_cons_of_mem x hx', hxy'⟩

/-- A relation may be changed for the elements of the lists only. -/
theorem forall₂_imp_of_mem {β γ : Type} {R S : β → γ → Prop} {xs : List β} {ys : List γ}
    (h : List.Forall₂ R xs ys) (himp : ∀ x ∈ xs, ∀ y ∈ ys, R x y → S x y) :
    List.Forall₂ S xs ys := by
  induction h with
  | nil => exact .nil
  | @cons x y xs ys hxy _ ih =>
    refine .cons (himp x List.mem_cons_self y List.mem_cons_self hxy) (ih ?_)
    exact fun x' hx' y' hy' =>
      himp x' (List.mem_cons_of_mem x hx') y' (List.mem_cons_of_mem y hy')

/-- Where one of two related lists is cut, so is the other one. -/
theorem exists_append_of_forall₂ {β γ : Type} {R : β → γ → Prop} {xs : List β} {ys ys' : List γ}
    (h : List.Forall₂ R xs (ys ++ ys')) :
    ∃ before after, xs = before ++ after ∧ List.Forall₂ R before ys ∧ List.Forall₂ R after ys' :=
  ⟨_, _, (List.take_append_drop ys.length xs).symm, List.forall₂_take_append _ _ _ h,
    List.forall₂_drop_append _ _ _ h⟩

/-- A flag section may begin behind the first `k` words and arguments: the others are optional. -/
structure Command.Grafts (c : Command α σ) (k : Nat) : Prop where
  pos : 0 < k
  le : k ≤ c.positionals.length
  rest : ∀ step ∈ c.positionals.drop k, step.isOptional = true

/-- Behind all words and arguments a flag section may begin. -/
theorem Command.grafts_length (c : Command α σ) : c.Grafts c.positionals.length where
  pos := Nat.succ_pos _
  le := Nat.le_refl _
  rest step h := by simp at h

namespace Tree

variable {t t' t'' : Tree α σ} {i j : NodeIndex}

/-- One node is a child of another, to which a step leads. -/
def Edge (t : Tree α σ) (i : NodeIndex) : Step α → NodeIndex → Prop
  | .literal w, j => (w, j) ∈ (t.node i).literals
  | .parameter p, j => (j, p) ∈ t.flagsOf i ∨ (j, p) ∈ t.argumentsOf i

theorem Edge.of_flag {p : Parameter α} (h : (j, p) ∈ t.flagsOf i) : t.Edge i (.parameter p) j :=
  .inl h

theorem Edge.of_argument {p : Parameter α} (h : (j, p) ∈ t.argumentsOf i) :
    t.Edge i (.parameter p) j :=
  .inr h

theorem Edge.child {step : Step α} (h : t.Edge i step j) : t.Child i j := by
  cases step with
  | literal w => exact .inl ⟨w, h⟩
  | parameter p => exact h.elim child_of_mem_flagsOf child_of_mem_argumentsOf

/-- A way from one node to another along the children, with the steps that it takes. -/
def Route (t : Tree α σ) : NodeIndex → List (Step α) → NodeIndex → Prop
  | i, [], j => i = j
  | i, step :: steps, j => ∃ l, t.Edge i step l ∧ t.Route l steps j

theorem Route.append {steps steps' : List (Step α)} {l : NodeIndex} (h : t.Route i steps l)
    (h' : t.Route l steps' j) : t.Route i (steps ++ steps') j := by
  induction steps generalizing i with
  | nil => exact (show i = l from h) ▸ h'
  | cons step steps ih =>
    obtain ⟨k, hedge, hroute⟩ := h
    exact ⟨k, hedge, ih hroute⟩

/-- One more step makes a longer route. -/
theorem Route.snoc {steps : List (Step α)} {step : Step α} {l : NodeIndex}
    (h : t.Route i steps l) (hedge : t.Edge l step j) : t.Route i (steps ++ [step]) j :=
  h.append ⟨j, hedge, rfl⟩

/-- A route can be left at any of its steps. -/
theorem exists_route_append {steps steps' : List (Step α)} (h : t.Route i (steps ++ steps') j) :
    ∃ l, t.Route i steps l ∧ t.Route l steps' j := by
  induction steps generalizing i with
  | nil => exact ⟨i, rfl, h⟩
  | cons step steps ih =>
    obtain ⟨k, hedge, hroute⟩ := h
    obtain ⟨l, hbefore, hafter⟩ := ih hroute
    exact ⟨l, ⟨k, hedge, hbefore⟩, hafter⟩

/-- The last step of a route. -/
theorem exists_route_snoc {steps : List (Step α)} {step : Step α}
    (h : t.Route i (steps ++ [step]) j) : ∃ l, t.Route i steps l ∧ t.Edge l step j := by
  obtain ⟨l, hroute, _, hedge, rfl⟩ := exists_route_append h
  exact ⟨l, hroute, hedge⟩

/-! ## Trails -/

/-- A route leads past the first `k` words and arguments of a command and then past some flags. -/
def Trail (t : Tree α σ) (c : Command α σ) (k : Nat) (flags : List (Parameter α))
    (i : NodeIndex) : Prop :=
  ∃ steps, t.Route root steps i ∧
    List.Forall₂ Step.Fits steps (c.positionals.take k ++ flags.map .parameter)

/-- A trail of a command leads to a node at which lines may end. -/
def Ends (t : Tree α σ) (c : Command α σ) (k : Nat) (flags : List (Parameter α)) : Prop :=
  ∃ i, t.Trail c k flags i ∧ (t.node i).command.isSome = true

/-- The plan for the flags of a command. -/
def plan (t : Tree α σ) (c : Command α σ) : FlagPlan α := .ofFlags t.settings.threshold c.flags

variable {c : Command α σ} {k : Nat} {flags : List (Parameter α)} {p q : Parameter α}

/-- The trail of a command begins at the root. -/
theorem Trail.of_root (t : Tree α σ) (c : Command α σ) : t.Trail c 0 [] root :=
  ⟨[], rfl, .nil⟩

/-- One more word or argument. -/
theorem Trail.step {s step : Step α} (h : t.Trail c k [] i) (hk : c.positionals[k]? = some step)
    (hedge : t.Edge i s j) (hfit : s.Fits step) : t.Trail c (k + 1) [] j := by
  obtain ⟨steps, hroute, hfits⟩ := h
  refine ⟨steps ++ [s], hroute.snoc hedge, ?_⟩
  rw [List.map_nil, List.append_nil] at hfits ⊢
  rw [List.take_add_one, hk]
  exact List.rel_append hfits (.cons hfit .nil)

/-- One more flag. -/
theorem Trail.flag (h : t.Trail c k flags i) (hedge : t.Edge i (.parameter q) j)
    (hfit : (Step.parameter q).Fits (.parameter p)) : t.Trail c k (flags ++ [p]) j := by
  obtain ⟨steps, hroute, hfits⟩ := h
  refine ⟨steps ++ [.parameter q], hroute.snoc hedge, ?_⟩
  rw [List.map_append, ← List.append_assoc]
  exact List.rel_append hfits (.cons hfit .nil)

/-- The last flag of a trail. -/
theorem Trail.exists_flag (h : t.Trail c k (flags ++ [p]) i) :
    ∃ l q, t.Trail c k flags l ∧ t.Edge l (.parameter q) i ∧
      (Step.parameter q).Fits (.parameter p) := by
  obtain ⟨steps, hroute, hfits⟩ := h
  rw [List.map_append, ← List.append_assoc] at hfits
  obtain ⟨before, last, rfl, hbefore, hlast⟩ := exists_append_of_forall₂ hfits
  cases hlast with
  | @cons s _ _ _ hfit hnil =>
    cases hnil
    obtain ⟨l, hfirst, hedge⟩ := exists_route_snoc hroute
    cases s with
    | literal w => exact hfit.elim
    | parameter q => exact ⟨l, q, ⟨before, hfirst, hbefore⟩, hedge, hfit⟩

/-! ## Growth keeps routes -/

/-- A tree has grown: settings and labels are the same, and every child and every place at which
lines may end is still there. -/
structure Grows (t t' : Tree α σ) : Prop where
  settings_eq : t'.settings = t.settings
  size_le : t.nodes.size ≤ t'.nodes.size
  label_eq : ∀ i < t.nodes.size, (t'.node i).label = (t.node i).label
  edge : ∀ {i step j}, t.Edge i step j → t'.Edge i step j
  command : ∀ {i}, (t.node i).command.isSome = true → (t'.node i).command.isSome = true

/-- A tree that is left as it is has grown. -/
theorem Grows.refl (t : Tree α σ) : t.Grows t :=
  ⟨rfl, Nat.le_refl _, fun _ _ => rfl, id, id⟩

theorem Grows.trans (h : t.Grows t') (h' : t'.Grows t'') : t.Grows t'' where
  settings_eq := h'.settings_eq.trans h.settings_eq
  size_le := Nat.le_trans h.size_le h'.size_le
  label_eq i hi := (h'.label_eq i (Nat.lt_of_lt_of_le hi h.size_le)).trans (h.label_eq i hi)
  edge hedge := h'.edge (h.edge hedge)
  command hcommand := h'.command (h.command hcommand)

/-- Nothing grows while the nodes and the settings stay. -/
theorem Grows.of_nodes_eq (hnodes : t'.nodes = t.nodes) (hsettings : t'.settings = t.settings) :
    t.Grows t' := by
  have hnode (i : NodeIndex) : t'.node i = t.node i := by simp only [node, hnodes]
  refine ⟨hsettings, Nat.le_of_eq (congrArg Array.size hnodes.symm), fun i _ => by rw [hnode], ?_,
    fun h => by rwa [hnode]⟩
  intro i step j hedge
  cases step with
  | literal w => simpa only [Edge, hnode] using hedge
  | parameter p => simpa only [Edge, flagsOf, argumentsOf, parametersAt, hnode] using hedge

/-- The threshold stays, and with it the plan for the flags of a command. -/
theorem Grows.plan_eq (h : t.Grows t') (c : Command α σ) : t'.plan c = t.plan c := by
  rw [plan, plan, h.settings_eq]

theorem Grows.route {steps : List (Step α)} (h : t.Grows t') (hroute : t.Route i steps j) :
    t'.Route i steps j := by
  induction steps generalizing i with
  | nil => exact hroute
  | cons step steps ih =>
    obtain ⟨l, hedge, hroute⟩ := hroute
    exact ⟨l, h.edge hedge, ih hroute⟩

theorem Grows.trail (h : t.Grows t') (htrail : t.Trail c k flags i) : t'.Trail c k flags i := by
  obtain ⟨steps, hroute, hfits⟩ := htrail
  exact ⟨steps, h.route hroute, hfits⟩

theorem Grows.ends (h : t.Grows t') (hends : t.Ends c k flags) : t'.Ends c k flags := by
  obtain ⟨i, htrail, hcommand⟩ := hends
  exact ⟨i, h.trail htrail, h.command hcommand⟩

/-- Another node in the place of one has all that it had. -/
structure Node.Keeps (n n' : Tree.Node α σ) : Prop where
  literals : n.literals ⊆ n'.literals
  flags : n.flags ⊆ n'.flags
  arguments : n.arguments ⊆ n'.arguments
  command : n.command.isSome = true → n'.command.isSome = true

/-- Every node keeps what it has. -/
theorem Node.Keeps.refl (n : Tree.Node α σ) : n.Keeps n :=
  ⟨List.Subset.refl _, List.Subset.refl _, List.Subset.refl _, id⟩

/-- A tree grows when the children of every node go on being listed. -/
theorem Grows.of_children (hsettings : t'.settings = t.settings)
    (hsize : t.nodes.size ≤ t'.nodes.size)
    (hlabel : ∀ i < t.nodes.size, (t'.node i).label = (t.node i).label)
    (hliterals : ∀ i, (t.node i).literals ⊆ (t'.node i).literals)
    (hflags : ∀ i j p, (j, p) ∈ t.flagsOf i → j ∈ (t'.node i).flags)
    (harguments : ∀ i j p, (j, p) ∈ t.argumentsOf i → j ∈ (t'.node i).arguments)
    (hcommand : ∀ i, (t.node i).command.isSome = true → (t'.node i).command.isSome = true) :
    t.Grows t' := by
  -- A node that stands for a parameter is one of the tree, so it keeps its label.
  have hparameter {j : NodeIndex} {p : Parameter α} (hp : (t.node j).label = .parameter p) :
      (t'.node j).label = .parameter p :=
    (hlabel j (lt_of_label_ne_root (by simp [hp]))).trans hp
  refine ⟨hsettings, hsize, hlabel, ?_, fun {i} h => hcommand i h⟩
  intro i step j hedge
  cases step with
  | literal w => exact hliterals i hedge
  | parameter p =>
    refine hedge.imp (fun h => ?_) (fun h => ?_)
    · exact mem_flagsOf.mpr ⟨hflags i j p h, hparameter (mem_flagsOf.mp h).2⟩
    · exact mem_argumentsOf.mpr ⟨harguments i j p h, hparameter (mem_argumentsOf.mp h).2⟩

/-- A tree grows when every node keeps what it has. -/
theorem Grows.of_keeps (hsettings : t'.settings = t.settings)
    (hsize : t.nodes.size ≤ t'.nodes.size)
    (hlabel : ∀ i < t.nodes.size, (t'.node i).label = (t.node i).label)
    (hkeeps : ∀ i < t.nodes.size, (t.node i).Keeps (t'.node i)) : t.Grows t' := by
  have hall (i : NodeIndex) : (t.node i).Keeps (t'.node i) := by
    rcases Nat.lt_or_ge i t.nodes.size with hi | hi
    · exact hkeeps i hi
    · rw [node_of_size_le hi]
      exact ⟨List.nil_subset _, List.nil_subset _, List.nil_subset _, nofun⟩
  exact .of_children hsettings hsize hlabel (fun i => (hall i).literals)
    (fun i _ _ h => (hall i).flags (mem_flagsOf.mp h).1)
    (fun i _ _ h => (hall i).arguments (mem_argumentsOf.mp h).1) fun i => (hall i).command

/-- A tree grows by a new node. -/
theorem grows_pushNode (t : Tree α σ) (n : Tree.Node α σ) : t.Grows (t.pushNode n) := by
  have hnode (i : NodeIndex) (hi : i < t.nodes.size) : (t.pushNode n).node i = t.node i :=
    node_pushNode_of_ne n (Nat.ne_of_lt hi)
  refine .of_keeps rfl (by simp) (fun i hi => by rw [hnode i hi]) ?_
  intro i hi
  rw [hnode i hi]
  exact .refl _

/-- It grows by a change of a node that keeps what the node has. -/
theorem grows_modifyNode (t : Tree α σ) {f : Tree.Node α σ → Tree.Node α σ}
    (hlabel : ∀ n, (f n).label = n.label)
    (hkeeps : i < t.nodes.size → (t.node i).Keeps (f (t.node i))) : t.Grows (t.modifyNode i f) := by
  refine .of_keeps rfl (by simp) (fun j _ => label_modifyNode hlabel ..) ?_
  intro j hj
  by_cases h : j = i
  · subst h
    rw [node_modifyNode_self hj]
    exact hkeeps hj
  · rw [node_modifyNode_of_ne h]
    exact .refl _

end Tree

end CommandLine
