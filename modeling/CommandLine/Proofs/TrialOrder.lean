import Mathlib.Logic.Relation
import CommandLine.Proofs.ParameterOrder
import CommandLine.Proofs.ReportedRejections
import CommandLine.Proofs.TreeShape

/-!
# The order in which arguments are tried

The arguments of a node are tried in the order in which the node lists them. A new one is put in
front of the first that has to be tried after it, and nothing is ever moved. So the list is sorted
if it was sorted before and the order is a strict weak order on the parameters in it, which it is
where types go by priority (`Parameter.ByPriority`).

A tree grows edit by edit (`Edits`), and calls are made of edits (`Becomes`), refused ones too. A
new node has the greatest index, so the index of an argument says when it was attached: an argument
with a smaller index was there when the other one was not (`AttachedBefore`).

* `Changes.of_becomes` — what holds for each change holds from any tree to a later one;
* `changes_keepsArguments` — the arguments of a node keep their order, whatever is done;
* `changes_inTrialOrder` — and are sorted, equal ones by age, if the order is a weak one;
* `Becomes.attachedBefore` — of two arguments the one with the smaller index came first;
* `GrownOver.arguments_in_trial_order` — all of this for the trees that calls reach.
-/

set_option autoImplicit false

namespace CommandLine

variable {α σ : Type}

namespace Parameter

variable {p q : Parameter α} {ps : List (Parameter α)}

/-- The type of a parameter compares itself with others by priority, as types do that have no
opinion of their own. -/
def ByPriority (p : Parameter α) : Prop :=
  ∀ other, p.type.compareTo other = compare p.type.traits.priority other.priority

/-- Types that go by priority follow it. -/
theorem weaklyOrdered_of_byPriority (h : ∀ p ∈ ps, p.ByPriority) : WeaklyOrdered ps :=
  weaklyOrdered_of_priority fun p hp q _ => h p hp q.type.traits

/-- Required parameters come before optional ones, and then lower priorities before higher ones. -/
theorem order_of_byPriority (hp : p.ByPriority) (hq : q.ByPriority) :
    p.order q = (compare p.isOptional q.isOptional).then
      (compare p.type.traits.priority q.type.traits.priority) := by
  have hswap : (compare q.type.traits.priority p.type.traits.priority).swap =
      compare p.type.traits.priority q.type.traits.priority :=
    Std.OrientedOrd.eq_swap.symm
  rw [order_eq, opinion, opinion, hp, hq, hswap]
  cases compare p.type.traits.priority q.type.traits.priority <;> rfl

end Parameter

namespace Tree

open CommandLine.Growth

variable {s t t' t'' : Tree α σ} {i j l : NodeIndex} {p q : Parameter α}
  {allowed : Parameter α → Prop}

/-! ## Edits -/

/-- What growth does to a tree at once: it attaches a word or a parameter, lists a flag node below
one more node, binds a command, or notes something beside the nodes. What it attaches may be
refused. -/
inductive Edits (t : Tree α σ) : Tree α σ → Prop
  | literal (i : NodeIndex) (w : String) (permission : Permission α) :
      Edits t ((ensureLiteral i w permission).after t)
  | parameter (i : NodeIndex) (p : Parameter α) : Edits t ((ensureParameter i p).after t)
  | share (child i : NodeIndex) : Edits t (t.shareFlag child i)
  | bind (i : NodeIndex) (c : Command α σ) : Edits t (t.bindCommand i c)
  | note {t' : Tree α σ} : t'.nodes = t.nodes → t'.settings = t.settings → Edits t t'

/-- One tree becomes another one edit by edit. -/
def Becomes : Tree α σ → Tree α σ → Prop := Relation.ReflTransGen Edits

/-- Growth walks edit by edit. -/
theorem pathWalk_becomes : PathWalk (fun _ _ => True) (@Becomes α σ) where
  refl _ := .refl
  trans := .trans
  keep _ _ := trivial
  place _ _ _ := trivial
  ensureParameter {_ i p} _ _ := .single (.parameter i p)
  shareFlag child _ i := .single (.share child i)
  bindCommand _ i c := .single (.bind i c)
  stepPlace _ _ _ _ := trivial
  ensureStep {_ i} c step _ := by
    cases step with
    | literal w => exact .single (.literal i w c.permission)
    | parameter p => exact .single (.parameter i p)

/-- Whatever a command does to a tree is done edit by edit. -/
theorem commandChanges_becomes : CommandChanges (@Becomes α σ) where
  refl _ := .refl
  trans := .trans
  growCommand hs _ := pathWalk_becomes.growCommand hs trivial
  same hnodes hsettings := .single (.note hnodes hsettings)

/-- So an empty tree becomes every tree that calls reach. -/
theorem GrownOver.becomes (h : t.GrownOver allowed) :
    ∃ settings, (Tree.empty settings).Becomes t := by
  induction h with
  | empty settings _ => exact ⟨settings, .refl⟩
  | withHook hook _ ih => exact ih.imp fun _ h => h.tail (.note rfl rfl)
  | @register d t _ _ ih => exact ih.imp fun _ h => h.trans (commandChanges_becomes.register d t)
  | @insert c t hc _ _ ih =>
    exact ih.imp fun _ h => h.trans (commandChanges_becomes.insert hc.sound t)

/-- What holds for each change holds for an edit. -/
theorem Changes.of_edits {R : Tree α σ → Tree α σ → Prop} (h : Changes R) (hedit : t.Edits t') :
    R t t' := by
  cases hedit with
  | literal i w permission => exact h.ensureLiteral i w permission t
  | parameter i p =>
    rw [ensureParameter_eq]
    split
    · exact ensureFlag_after (h.refl t) (h.joinPermission t · p.permission) (h.addFlag t i p)
    · exact h.ensureArgument i p t
  | share child i => exact h.shareFlag child t i
  | bind i c => exact h.bindCommand t i c
  | note hnodes hsettings => exact h.same hnodes hsettings

/-- And from edit to edit. -/
theorem Changes.of_becomes {R : Tree α σ → Tree α σ → Prop} (h : Changes R)
    (hbecomes : t.Becomes t') : R t t' := by
  induction hbecomes with
  | refl => exact h.refl t
  | tail _ hedit ih => exact h.trans ih (h.of_edits hedit)

/-- An edit adds one node at most. -/
theorem Edits.size_le_succ (h : t.Edits t') : t'.nodes.size ≤ t.nodes.size + 1 := by
  let P (t' : Tree α σ) : Prop := t'.nodes.size ≤ t.nodes.size + 1
  have hkeep : P t := Nat.le_succ _
  have hjoin (permission : Permission α) (j : NodeIndex) : P (t.joinPermission j permission) := by
    simp [P, joinPermission]
  cases h with
  | literal i w permission =>
    exact ensureLiteral_after (P := P) hkeep (hjoin permission) fun _ => by simp [P, addLiteral]
  | parameter i p =>
    rw [ensureParameter_eq]
    split
    · exact ensureFlag_after (P := P) hkeep (hjoin p.permission) (by simp [P])
    · exact ensureArgument_after (P := P) hkeep (hjoin p.permission) fun _ => by
        simp [P, addArgument]
  | share child i => simp
  | bind i c => simp [bindCommand]
  | note hnodes _ => simp [hnodes]

/-! ## Arguments keep their order -/

/-- Nodes that stand for some parameters are listed with these. -/
theorem parametersAt_map_fst {children : List (NodeIndex × Parameter α)}
    (h : ∀ a ∈ children, (t.node a.1).label = .parameter a.2) :
    t.parametersAt (children.map Prod.fst) = children := by
  induction children with
  | nil => rfl
  | cons a children ih =>
    have hrest := ih fun b hb => h b (List.mem_cons_of_mem a hb)
    unfold parametersAt at hrest ⊢
    simp [Node.parameter?_eq_some.mpr (h a List.mem_cons_self), hrest]

/-- What is read at some nodes of a tree is what is read there later, newer nodes apart. -/
theorem filter_parametersAt (h : ∀ j < t.nodes.size, (t'.node j).label = (t.node j).label)
    (ids : List NodeIndex) :
    (t'.parametersAt ids).filter (·.1 < t.nodes.size) = t.parametersAt ids := by
  unfold parametersAt
  rw [List.filter_filterMap]
  refine List.filterMap_congr fun j _ => ?_
  rcases Nat.lt_or_ge j t.nodes.size with hj | hj
  · have hsame : (t'.node j).parameter? = (t.node j).parameter? := by
      rw [Node.parameter?, h j hj, Node.parameter?]
    cases hp : (t.node j).parameter? <;> simp [hsame, hp, hj]
  · have hnone : (t.node j).parameter? = none := by
      rw [node_of_size_le hj]
      rfl
    cases hp : (t'.node j).parameter? <;> simp [hnone, hj]

theorem lt_of_mem_argumentsOf (h : (j, p) ∈ t.argumentsOf i) : j < t.nodes.size :=
  lt_of_label_ne_root (by simp [(mem_argumentsOf.mp h).2])

/-- No node is lost, and every node has the arguments that it had, in their order, arguments at
newer nodes apart. -/
structure KeepsArguments (t t' : Tree α σ) : Prop where
  size_le : t.nodes.size ≤ t'.nodes.size
  older : ∀ i, (t'.argumentsOf i).filter (·.1 < t.nodes.size) = t.argumentsOf i

namespace KeepsArguments

/-- Where no arguments change they are kept. -/
theorem of_arguments_eq (hgrows : t.Grows t')
    (h : ∀ i, (t'.node i).arguments = (t.node i).arguments) : t.KeepsArguments t' where
  size_le := hgrows.size_le
  older i := by rw [argumentsOf, h, filter_parametersAt hgrows.label_eq, argumentsOf]

/-- What is kept twice is kept: the arguments at the newest nodes are left out first. -/
theorem trans (h : t.KeepsArguments t') (h' : t'.KeepsArguments t'') : t.KeepsArguments t'' where
  size_le := Nat.le_trans h.size_le h'.size_le
  older i := by
    rw [← h.older i, ← h'.older i, List.filter_filter]
    refine List.filter_congr fun a _ => ?_
    have hle := h.size_le
    rw [Bool.eq_iff_iff, Bool.and_eq_true, decide_eq_true_eq, decide_eq_true_eq]
    omega

variable (h : t.KeepsArguments t')
include h

/-- So the old arguments of a node are among its new ones, in their order. -/
theorem sublist (i : NodeIndex) : (t.argumentsOf i).Sublist (t'.argumentsOf i) := by
  rw [← h.older i]
  exact List.filter_sublist

/-- An argument at an old node was one before. -/
theorem mem_of_lt (hj : j < t.nodes.size) (hmem : (j, p) ∈ t'.argumentsOf i) :
    (j, p) ∈ t.argumentsOf i := by
  rw [← h.older i]
  exact List.mem_filter.mpr ⟨hmem, by simpa using hj⟩

/-- Where only old nodes are listed, nothing is new. -/
theorem argumentsOf_eq (hold : ∀ a ∈ t'.argumentsOf i, a.1 < t.nodes.size) :
    t'.argumentsOf i = t.argumentsOf i := by
  rw [← h.older i, List.filter_eq_self.mpr fun a ha => decide_eq_true (hold a ha)]

end KeepsArguments

/-- A relation holds for all changes if it holds where no list of arguments changes, and where an
argument is added. -/
theorem Changes.of_arguments {R : Tree α σ → Tree α σ → Prop}
    (htrans : ∀ {t t' t''}, R t t' → R t' t'' → R t t'')
    (hsame : ∀ {t t'}, t.Grows t' → (∀ i, (t'.node i).arguments = (t.node i).arguments) → R t t')
    (hadd : ∀ t i p, R t (t.addArgument i p)) : Changes R := by
  have hmodify (t : Tree α σ) (i j : NodeIndex) (f : Tree.Node α σ → Tree.Node α σ)
      (hf : ∀ n, (f n).arguments = n.arguments) :
      ((t.modifyNode i f).node j).arguments = (t.node j).arguments := by
    rw [node_modifyNode]
    split
    · exact hf _
    · rfl
  have hpush (t : Tree α σ) (j : NodeIndex) (n : Tree.Node α σ) (hn : n.arguments = []) :
      ((t.pushNode n).node j).arguments = (t.node j).arguments := by
    by_cases hj : j = t.nodes.size
    · rw [hj, node_pushNode_size, hn, node_of_size_le (Nat.le_refl _)]
    · rw [node_pushNode_of_ne n hj]
  -- Only adding an argument touches the arguments of a node that was there.
  refine
    { refl := fun t => hsame (.refl t) fun _ => rfl
      trans := htrans
      joinPermission := fun t i permission => ?_
      addFlag := fun t i p => ?_
      shareFlag := fun child t i => ?_
      bindCommand := fun t i c => ?_
      addLiteral := fun t i w permission => ?_
      addArgument := hadd
      same := fun hnodes hsettings => ?_ }
  · refine hsame (changes_grows.joinPermission t i permission) fun j => ?_
    rw [joinPermission, hmodify]
    exact fun _ => rfl
  · refine hsame (changes_grows.addFlag t i p) fun j => ?_
    rw [addFlag, hmodify, hpush] <;> simp
  · refine hsame (changes_grows.shareFlag child t i) fun j => ?_
    unfold shareFlag
    split
    · rfl
    · split
      · rfl
      · rw [hmodify]
        exact fun _ => rfl
  · refine hsame (changes_grows.bindCommand t i c) fun j => ?_
    rw [bindCommand, hmodify]
    intro n
    split <;> rfl
  · refine hsame (changes_grows.addLiteral t i w permission) fun j => ?_
    rw [Tree.addLiteral, hmodify, hpush] <;> simp
  · refine hsame (.of_nodes_eq hnodes hsettings) fun i => ?_
    simp only [node, hnodes]

/-- A new argument stands behind siblings that are not tried after it, and in front of the others,
the first of which is. -/
theorem exists_placeArgument (p : Parameter α) (id : NodeIndex)
    (siblings : List (NodeIndex × Parameter α)) : ∃ before after, siblings = before ++ after ∧
      placeArgument p id siblings = (before ++ (id, p) :: after).map Prod.fst ∧
      (∀ a ∈ before, a.2.order p ≠ .gt) ∧ ∀ a ∈ after.head?, a.2.order p = .gt := by
  induction siblings with
  | nil => exact ⟨[], [], rfl, rfl, by simp, by simp⟩
  | cons a siblings ih =>
    obtain ⟨j, q⟩ := a
    by_cases hq : q.order p = .gt
    · refine ⟨[], (j, q) :: siblings, rfl, ?_, by simp, ?_⟩
      · rw [placeArgument, if_pos hq]
        rfl
      · simpa using hq
    · obtain ⟨before, after, rfl, hplaced, hbefore, hafter⟩ := ih
      refine ⟨(j, q) :: before, after, rfl, ?_, ?_, hafter⟩
      · rw [placeArgument, if_neg hq, hplaced]
        rfl
      · intro a ha
        rcases List.mem_cons.mp ha with rfl | ha
        · exact hq
        · exact hbefore a ha

/-- So it stands among the arguments of its parent. -/
theorem exists_argumentsOf_addArgument (hi : i ≤ t.nodes.size) (p : Parameter α) :
    ∃ before after, t.argumentsOf i = before ++ after ∧
      (t.addArgument i p).argumentsOf i = before ++ (t.nodes.size, p) :: after ∧
      ((t.addArgument i p).node i).arguments = ((t.addArgument i p).argumentsOf i).map Prod.fst ∧
      (∀ a ∈ before, a.2.order p ≠ .gt) ∧ ∀ a ∈ after.head?, a.2.order p = .gt := by
  obtain ⟨before, after, hold, hplaced, hbefore, hafter⟩ :=
    exists_placeArgument p t.nodes.size (t.argumentsOf i)
  have hlist : ((t.addArgument i p).node i).arguments =
      (before ++ (t.nodes.size, p) :: after).map Prod.fst := by
    rw [addArgument, node_modifyNode_self (by rw [size_pushNode]; exact Nat.lt_succ_of_le hi)]
    exact hplaced
  suffices hnew : (t.addArgument i p).argumentsOf i = before ++ (t.nodes.size, p) :: after from
    ⟨before, after, hold, hnew, by rw [hlist, hnew], hbefore, hafter⟩
  rw [argumentsOf, hlist]
  refine parametersAt_map_fst fun a ha => ?_
  have hnew : ((t.addArgument i p).node t.nodes.size).label = .parameter p := by
    refine label_add ?_ t _ i
    exact fun _ => rfl
  have hkept (ha : a ∈ t.argumentsOf i) : ((t.addArgument i p).node a.1).label = .parameter a.2 :=
    ((grows_addArgument t i p).label_eq a.1 (lt_of_mem_argumentsOf ha)).trans
      (mem_argumentsOf.mp ha).2
  rcases List.mem_append.mp ha with ha | ha
  · exact hkept (hold ▸ List.mem_append_left after ha)
  · rcases List.mem_cons.mp ha with rfl | ha
    · exact hnew
    · exact hkept (hold ▸ List.mem_append_right before ha)

/-- The lists of other nodes stay. -/
theorem arguments_addArgument_of_ne (hi : ¬(j = i ∧ i ≤ t.nodes.size)) (p : Parameter α) :
    ((t.addArgument i p).node j).arguments = (t.node j).arguments := by
  rw [addArgument, node_modifyNode, if_neg]
  · by_cases hj : j = t.nodes.size
    · rw [hj, node_pushNode_size, node_of_size_le (Nat.le_refl _)]
    · rw [node_pushNode_of_ne _ hj]
  · rintro ⟨rfl, hlt⟩
    rw [size_pushNode] at hlt
    exact hi ⟨rfl, Nat.le_of_lt_succ hlt⟩

/-- Whatever is done to a tree, the arguments of a node keep their order. -/
theorem changes_keepsArguments : Changes (@KeepsArguments α σ) := by
  refine .of_arguments .trans .of_arguments_eq fun t i p => ?_
  have hgrows := grows_addArgument t i p
  refine ⟨hgrows.size_le, fun j => ?_⟩
  by_cases hj : j = i ∧ i ≤ t.nodes.size
  · obtain ⟨rfl, hi⟩ := hj
    obtain ⟨before, after, hold, hnew, -⟩ := exists_argumentsOf_addArgument hi p
    have hlt : ∀ a ∈ before ++ after, decide (a.1 < t.nodes.size) = true := fun a ha =>
      decide_eq_true (lt_of_mem_argumentsOf (hold ▸ ha))
    rw [hnew, hold, ← List.filter_eq_self.mpr hlt]
    simp
  · rw [argumentsOf, arguments_addArgument_of_ne hj, filter_parametersAt hgrows.label_eq,
      argumentsOf]

/-! ## Arguments are sorted -/

/-- One argument goes in front of another: it comes first in the order, or neither does and it is
the older one. -/
def InFront (a b : NodeIndex × Parameter α) : Prop :=
  a.2.order b.2 = .lt ∨ a.2.order b.2 = .eq ∧ a.1 < b.1

/-- A new argument in front of the first one that is tried after it keeps a list sorted. -/
theorem pairwise_inFront_insert {before after : List (NodeIndex × Parameter α)}
    (hweak : Parameter.WeaklyOrdered ((before ++ (i, p) :: after).map Prod.snd))
    (hsorted : (before ++ after).Pairwise InFront) (hnew : ∀ a ∈ before, a.1 < i)
    (hbefore : ∀ a ∈ before, a.2.order p ≠ .gt) (hafter : ∀ a ∈ after.head?, a.2.order p = .gt) :
    (before ++ (i, p) :: after).Pairwise InFront := by
  have hmem {a : NodeIndex × Parameter α} (ha : a ∈ before ++ (i, p) :: after) :
      a.2 ∈ (before ++ (i, p) :: after).map Prod.snd := List.mem_map_of_mem ha
  have hp : p ∈ (before ++ (i, p) :: after).map Prod.snd := hmem (a := (i, p)) (by simp)
  obtain ⟨hfirst, hlast, hacross⟩ := List.pairwise_append.mp hsorted
  -- The new argument is tried before the first one behind it, and by the weak order before all.
  have hbehind : ∀ b ∈ after, p.order b.2 = .lt := by
    cases after with
    | nil => simp
    | cons a after =>
      have ha := hmem (a := a) (by simp)
      have hpa : p.order a.2 = .lt := by
        rw [hweak.swap p hp _ ha, hafter a rfl]
        rfl
      intro b hb
      rcases List.mem_cons.mp hb with rfl | hb
      · exact hpa
      · have hab : a.2.order b.2 ≠ .gt := by
          rcases (List.pairwise_cons.mp hlast).1 b hb with h | h
          · simp [h]
          · simp [h.1]
        exact hweak.order_eq_lt_of_not_gt ha (hmem (by simp [hb])) hp hpa hab
  refine List.pairwise_append.mpr ⟨hfirst, List.pairwise_cons.mpr ⟨?_, hlast⟩, ?_⟩
  · exact fun b hb => .inl (hbehind b hb)
  · intro a ha b hb
    rcases List.mem_cons.mp hb with rfl | hb
    · have hle := hbefore a ha
      cases horder : a.2.order p with
      | lt => exact .inl horder
      | eq => exact .inr ⟨horder, hnew a ha⟩
      | gt => exact absurd horder hle
    · exact hacross a ha b hb

/-- The arguments of every node are nodes and stand in front of each other as they are listed. -/
structure InTrialOrder (t : Tree α σ) : Prop where
  closed : ∀ i, ∀ j ∈ (t.node i).arguments, j < t.nodes.size
  inFront : ∀ i, (t.argumentsOf i).Pairwise InFront

namespace InTrialOrder

/-- An empty tree has no arguments to sort. -/
theorem of_empty (s : Settings) : (empty s : Tree α σ).InTrialOrder := by
  have hnode (i : NodeIndex) : (empty s : Tree α σ).node i = { label := .root } := by
    cases i <;> rfl
  refine ⟨fun i => ?_, fun i => ?_⟩
  · simp [hnode]
  · simp [argumentsOf, parametersAt, hnode]

/-- Where no arguments change they stay sorted. -/
theorem of_arguments_eq (ht : t.InTrialOrder) (hgrows : t.Grows t')
    (h : ∀ i, (t'.node i).arguments = (t.node i).arguments) : t'.InTrialOrder where
  closed i j hj := Nat.lt_of_lt_of_le (ht.closed i j (h i ▸ hj)) hgrows.size_le
  inFront i := by
    rw [(KeepsArguments.of_arguments_eq hgrows h).argumentsOf_eq]
    · exact ht.inFront i
    · exact fun a ha => ht.closed i a.1 (h i ▸ (mem_argumentsOf.mp ha).1)

/-- A new argument is placed among the sorted ones, and its node is the newest. -/
theorem addArgument (ht : t.InTrialOrder) (i : NodeIndex) (p : Parameter α)
    (hweak : Parameter.WeaklyOrdered (((t.addArgument i p).argumentsOf i).map Prod.snd)) :
    (t.addArgument i p).InTrialOrder := by
  have hkeeps := changes_keepsArguments.addArgument t i p
  refine ⟨fun k j hj => ?_, fun k => ?_⟩
  all_goals by_cases hk : k = i ∧ i ≤ t.nodes.size
  · obtain ⟨rfl, hi⟩ := hk
    obtain ⟨before, after, -, -, hlist, -⟩ := exists_argumentsOf_addArgument hi p
    obtain ⟨⟨_, q⟩, ha, rfl⟩ := List.mem_map.mp (hlist ▸ hj)
    exact lt_of_mem_argumentsOf ha
  · rw [arguments_addArgument_of_ne hk] at hj
    exact Nat.lt_of_lt_of_le (ht.closed k j hj) hkeeps.size_le
  · obtain ⟨rfl, hi⟩ := hk
    obtain ⟨before, after, hold, hnew, -, hbefore, hafter⟩ := exists_argumentsOf_addArgument hi p
    rw [hnew] at hweak ⊢
    have hlt : ∀ a ∈ before, a.1 < t.nodes.size := fun a ha =>
      lt_of_mem_argumentsOf (hold ▸ List.mem_append_left after ha)
    exact pairwise_inFront_insert hweak (hold ▸ ht.inFront k) hlt hbefore hafter
  · rw [hkeeps.argumentsOf_eq fun a ha => ?_]
    · exact ht.inFront k
    · have ha := (mem_argumentsOf.mp ha).1
      rw [arguments_addArgument_of_ne hk] at ha
      exact ht.closed k a.1 ha

end InTrialOrder

/-- A tree grows, and if the order is a strict weak one on the parameters that it has come to, its
arguments go on being sorted. -/
theorem changes_inTrialOrder
    (hweak : ∀ ps : List (Parameter α), (∀ p ∈ ps, allowed p) → Parameter.WeaklyOrdered ps) :
    Changes fun t t' : Tree α σ => t.Grows t' ∧
      ((∀ j p, (t'.node j).label = .parameter p → allowed p) → t.InTrialOrder →
        t'.InTrialOrder) := by
  refine .of_arguments ?_ ?_ ?_
  · intro t t' t'' h h'
    refine ⟨h.1.trans h'.1, fun hallowed ht => h'.2 hallowed (h.2 (fun j p hp => ?_) ht)⟩
    exact hallowed j p ((h'.1.label_eq j (lt_of_label_ne_root (by simp [hp]))).trans hp)
  · exact fun hgrows hsame => ⟨hgrows, fun _ ht => ht.of_arguments_eq hgrows hsame⟩
  · refine fun t i p => ⟨grows_addArgument t i p, fun hallowed ht => ht.addArgument i p ?_⟩
    refine hweak _ fun q hq => ?_
    obtain ⟨a, ha, rfl⟩ := List.mem_map.mp hq
    exact hallowed a.1 a.2 (mem_argumentsOf.mp ha).2

/-! ## The first attachment -/

/-- One tree is a stage on the way from an empty tree to another one. -/
def Stage (t s : Tree α σ) : Prop := (∃ settings, (Tree.empty settings).Becomes s) ∧ s.Becomes t

/-- A node is listed among the arguments of another one. -/
def HasArgument (t : Tree α σ) (i j : NodeIndex) : Prop := ∃ p, (j, p) ∈ t.argumentsOf i

/-- One argument of a node was attached before another one: it was there at every stage at which the
other one was, and at one stage it was there without the other one. -/
structure AttachedBefore (t : Tree α σ) (i j l : NodeIndex) : Prop where
  whenever : ∀ s, t.Stage s → s.HasArgument i l → s.HasArgument i j
  without : ∃ s, t.Stage s ∧ s.HasArgument i j ∧ ¬s.HasArgument i l

/-- Between a tree that has not yet come to a node and one that has, there is one that is just about
to. -/
theorem Becomes.exists_between (h : s.Becomes t) (hs : s.nodes.size ≤ l) (ht : l < t.nodes.size) :
    ∃ u, s.Becomes u ∧ u.Becomes t ∧ u.nodes.size = l := by
  induction h with
  | refl => exact absurd hs (Nat.not_le.mpr ht)
  | @tail u t hbefore hedit ih =>
    rcases Nat.lt_or_ge l u.nodes.size with hlt | hge
    · obtain ⟨v, hv, hvu, hsize⟩ := ih hlt
      exact ⟨v, hv, hvu.tail hedit, hsize⟩
    · have hle := Nat.le_of_lt_succ (Nat.lt_of_lt_of_le ht hedit.size_le_succ)
      exact ⟨u, hbefore, .single hedit, Nat.le_antisymm hge hle⟩

/-- Of two arguments of a node the one with the smaller index was attached before the other one. -/
theorem Becomes.attachedBefore {settings : Settings} (h : (Tree.empty settings).Becomes t)
    (hj : t.HasArgument i j) (hl : t.HasArgument i l) (hlt : j < l) : t.AttachedBefore i j l := by
  obtain ⟨p, hp⟩ := hj
  obtain ⟨q, hq⟩ := hl
  refine ⟨?_, ?_⟩
  · rintro s ⟨-, hs⟩ ⟨r, hr⟩
    have hkeeps := changes_keepsArguments.of_becomes hs
    exact ⟨p, hkeeps.mem_of_lt (Nat.lt_trans hlt (lt_of_mem_argumentsOf hr)) hp⟩
  · have hsize : (Tree.empty settings : Tree α σ).nodes.size ≤ l :=
      Nat.succ_le_of_lt (Nat.zero_lt_of_lt hlt)
    obtain ⟨u, hu, hut, rfl⟩ := h.exists_between hsize (lt_of_mem_argumentsOf hq)
    refine ⟨u, ⟨⟨settings, hu⟩, hut⟩, ?_, ?_⟩
    · exact ⟨p, (changes_keepsArguments.of_becomes hut).mem_of_lt hlt hp⟩
    · rintro ⟨r, hr⟩
      exact Nat.lt_irrefl _ (lt_of_mem_argumentsOf hr)

/-- Such a tree has grown by calls. -/
theorem GrownOver.grown (h : t.GrownOver allowed) : t.Grown := by
  induction h with
  | empty settings hsettings => exact .empty settings hsettings
  | withHook hook _ ih => exact .withHook hook ih
  | register _ _ ih => exact .register _ ih
  | insert hc _ _ ih => exact .insert hc ih

/-- **Arguments stay in trial order.** In every tree that calls reach over types that go by
priority, also if some were refused, the arguments of a node, which are all that it lists, are
sorted: required ones come before optional ones, and then lower priorities before higher ones. Of
two that compare equal the first was attached before the other.

Whatever the types, nothing that is attached to a tree moves an argument that is there, nor does
anything else that growth does: each tree has the arguments of its stages in the same order. -/
theorem GrownOver.arguments_in_trial_order (h : t.GrownOver Parameter.ByPriority) :
    t.Stage t ∧
    (∀ i, (t.argumentsOf i).map Prod.fst = (t.node i).arguments ∧
      ((t.argumentsOf i).Pairwise fun a b => a.2.order b.2 ≠ .gt) ∧
      (∀ a ∈ t.argumentsOf i, ∀ b ∈ t.argumentsOf i, a.2.order b.2 =
        (compare a.2.isOptional b.2.isOptional).then
          (compare a.2.type.traits.priority b.2.type.traits.priority)) ∧
      (t.argumentsOf i).Pairwise fun a b => a.2.order b.2 = .eq → t.AttachedBefore i a.1 b.1) ∧
    ∀ s u : Tree α σ, s.Becomes u → ∀ i, (s.argumentsOf i).Sublist (u.argumentsOf i) := by
  obtain ⟨settings, hbecomes⟩ := h.becomes
  have hbypriority {i j : NodeIndex} {p : Parameter α} (hp : (j, p) ∈ t.argumentsOf i) :
      p.ByPriority := h.allowed_of_label (mem_argumentsOf.mp hp).2
  -- Sortedness holds in the empty tree and is kept by every change to a tree.
  have hsorted : t.InTrialOrder :=
    ((changes_inTrialOrder fun _ => Parameter.weaklyOrdered_of_byPriority).of_becomes hbecomes).2
      (fun _ _ => h.allowed_of_label) (.of_empty settings)
  refine ⟨⟨⟨settings, hbecomes⟩, .refl⟩, fun i => ⟨?_, ?_, ?_, ?_⟩, ?_⟩
  · refine map_fst_parametersAt fun j hj => ?_
    obtain ⟨p, hp, -⟩ := h.grown.wellFormed.argument i j hj
    exact ⟨p, hp⟩
  · refine (hsorted.inFront i).imp fun {a b} hfront => ?_
    rcases hfront with hlt | ⟨heq, -⟩
    · simp [hlt]
    · simp [heq]
  · exact fun a ha b hb => Parameter.order_of_byPriority (hbypriority ha) (hbypriority hb)
  · refine (hsorted.inFront i).imp_of_mem fun {a b} ha hb hfront heq => ?_
    rcases hfront with hlt | ⟨-, hlt⟩
    · rw [heq] at hlt
      cases hlt
    · exact hbecomes.attachedBefore ⟨a.2, ha⟩ ⟨b.2, hb⟩ hlt
  · exact fun s u hsu => (changes_keepsArguments.of_becomes hsu).sublist

/-- Registrations one after the other, each of which may be refused. -/
theorem GrownOver.registerEach {ds : List (Declaration α σ)} (h : t.GrownOver allowed)
    (hds : ∀ d ∈ ds, ∀ p ∈ d.parameters, allowed p) :
    (ds.foldl (fun t d => (Growth.register d).after t) t).GrownOver allowed := by
  induction ds generalizing t with
  | nil => exact h
  | cons d ds ih =>
    exact ih (.register (hds d List.mem_cons_self) h) fun d' hd' =>
      hds d' (List.mem_cons_of_mem d hd')

/-- Calls that give a word arguments, in no order. One is refused, since its second word is the name
of an argument, and one comes with an argument that is there. -/
def sayings : List (Declaration Unit Unit) :=
  [saying (.ofBuiltin "text" .greedy), saying mode,
    saying (.ofBuiltin "count" (.integer none none)), (Declaration.ofName "say").literal "text",
    saying (.ofBuiltin "tone" (.choice ["dry"] false)), saying mode,
    saying (Parameter.ofBuiltin "loud" .truth).asOptional]
where
  saying (p : Parameter Unit) : Declaration Unit Unit := (Declaration.ofName "say").argument p
  mode : Parameter Unit := .ofBuiltin "mode" (.choice ["loud"] false)

/-- The tree that they leave. -/
def speechTree : Tree Unit Unit := sayings.foldl (fun t d => (Growth.register d).after t) (empty {})

/-- The two choices are tried first, in the order in which they were attached. -/
theorem arguments_in_trial_order_speechTree :
    speechTree.GrownOver Parameter.ByPriority ∧
      (speechTree.argumentsOf 1).map
          (fun a => (a.1, a.2.name, a.2.isOptional, a.2.type.traits.priority)) =
        [(3, "mode", false, 0), (5, "tone", false, 0), (4, "count", false, 20),
          (2, "text", false, 100), (6, "loud", true, 10)] ∧
      speechTree.AttachedBefore 1 3 5 := by
  have hgrown : speechTree.GrownOver Parameter.ByPriority := by
    refine .registerEach (.empty {} (by decide)) fun d hd p hp => ?_
    simp only [sayings, List.mem_cons, List.not_mem_nil, or_false] at hd
    rcases hd with rfl | rfl | rfl | rfl | rfl | rfl | rfl
    case inr.inr.inr.inl => cases hp
    all_goals
      obtain rfl := List.mem_singleton.mp hp
      exact fun _ => rfl
  have hlist : (speechTree.argumentsOf 1).map
        (fun a => (a.1, a.2.name, a.2.isOptional, a.2.type.traits.priority)) =
      [(3, "mode", false, 0), (5, "tone", false, 0), (4, "count", false, 20),
        (2, "text", false, 100), (6, "loud", true, 10)] := by
    decide +kernel
  refine ⟨hgrown, hlist, ?_⟩
  -- That `mode` was attached before `tone` is read off the theorem: the two compare as equal.
  obtain ⟨-, harguments, -⟩ := hgrown.arguments_in_trial_order
  obtain ⟨-, -, horder, hequal⟩ := harguments 1
  obtain ⟨a, _, hsplit, ha, hrest⟩ := List.map_eq_cons_iff.mp hlist
  obtain ⟨b, rest, rfl, hb, -⟩ := List.map_eq_cons_iff.mp hrest
  rw [hsplit] at horder hequal
  have heq : a.2.order b.2 = .eq := by
    rw [horder a (by simp) b (by simp)]
    simp_all
  have hbefore := (List.pairwise_cons.mp hequal).1 b List.mem_cons_self heq
  simp only [Prod.mk.injEq] at ha hb
  rwa [ha.1, hb.1] at hbefore

end Tree

end CommandLine
