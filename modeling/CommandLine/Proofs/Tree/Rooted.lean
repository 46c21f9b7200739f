import CommandLine.Proofs.Tree.Fresh
import CommandLine.Proofs.Tree.Regrown

/-!
# Every node has a route from the root

Growth starts at the root and goes on only at nodes that it was answered, so it adds nodes only
below nodes of the tree. A relation that depends on this is one for the changes at nodes
(`NodeChanges`), and holds on the walk of growth over nodes. So every node of a tree is reached from
its root.

* `NodeChanges.growCommand` — from the changes at nodes to whole commands;
* `nodeChanges_reached`, `Grown.exists_route` — every node of a grown tree is reached.
-/

set_option autoImplicit false

namespace CommandLine

variable {α σ : Type} {R : Tree α σ → Tree α σ → Prop} {t t' : Tree α σ} {i j : NodeIndex}

namespace Tree

open CommandLine.Growth

/-! ## Changes at nodes -/

/-- A relation that holds for each change made at a node, and from change to change, and does not
depend on more than the nodes and the settings. -/
structure NodeChanges (R : Tree α σ → Tree α σ → Prop) : Prop where
  refl : ∀ t, R t t
  trans : ∀ {t t' t''}, R t t' → R t' t'' → R t t''
  joinPermission : ∀ t i permission, R t (t.joinPermission i permission)
  shareFlag : ∀ child t i, R t (t.shareFlag child i)
  bindCommand : ∀ t i c, R t (t.bindCommand i c)
  addLiteral : ∀ {t i}, i < t.nodes.size → ∀ w permission, R t (t.addLiteral i w permission)
  addFlag : ∀ {t i}, i < t.nodes.size → ∀ p, R t (t.addFlag i p)
  addArgument : ∀ {t i}, i < t.nodes.size → ∀ p, R t (t.addArgument i p)
  same : ∀ {t t'}, t'.nodes = t.nodes → t'.settings = t.settings → R t t'

namespace NodeChanges

variable {c : Command α σ} (h : NodeChanges R)
include h

theorem ensureLiteral (hi : i < t.nodes.size) (w : String) (permission : Permission α) :
    R t ((ensureLiteral i w permission).after t) :=
  ensureLiteral_after (h.refl t) (h.joinPermission t · permission) fun _ =>
    h.addLiteral hi w permission

theorem ensureParameter (hi : i < t.nodes.size) (p : Parameter α) :
    R t ((ensureParameter i p).after t) := by
  have hjoin (j : NodeIndex) := h.joinPermission t j p.permission
  rw [ensureParameter_eq]
  split
  · exact ensureFlag_after (h.refl t) hjoin (h.addFlag hi p)
  · exact ensureArgument_after (h.refl t) hjoin fun _ => h.addArgument hi p

theorem ensureStep (c : Command α σ) (hi : i < t.nodes.size) (step : Step α) :
    R t ((ensureStep c i step).after t) := by
  cases step with
  | literal w => exact h.ensureLiteral hi w c.permission
  | parameter p => exact h.ensureParameter hi p

/-- A relation for the changes at nodes holds along a walk over nodes, on which the tree stays tidy
and keeps its nodes. -/
theorem walk : PathWalk Ground fun t t' => R t t' ∧ (t.Tidy → t'.Tidy) ∧ t.Grows t' where
  refl t := ⟨h.refl t, pathWalk_ground.refl t⟩
  trans hR hR' := ⟨h.trans hR.1 hR'.1, pathWalk_ground.trans hR.2 hR'.2⟩
  keep hi hR := pathWalk_ground.keep hi hR.2
  place := pathWalk_ground.place
  ensureParameter hi hnamed :=
    ⟨h.ensureParameter hi.lt _, pathWalk_ground.ensureParameter hi hnamed⟩
  shareFlag child t i := ⟨h.shareFlag child t i, pathWalk_ground.shareFlag child t i⟩
  bindCommand t i c := ⟨h.bindCommand t i c, pathWalk_ground.bindCommand t i c⟩
  stepPlace := pathWalk_ground.stepPlace
  ensureStep c step hi := ⟨h.ensureStep c hi.lt step, pathWalk_ground.ensureStep c step hi⟩

/-- The growth of a command is within a relation if each change at a node is. -/
theorem growCommand (hs : c.Sound) (hroot : t.Ground root) : R t ((growCommand c).after t) :=
  (h.walk.growCommand hs hroot).1

end NodeChanges

/-! ## Routes from the root -/

/-- Every node has a route from the root. -/
def Reached (t : Tree α σ) : Prop := ∀ i < t.nodes.size, ∃ steps, t.Route root steps i

theorem Reached.of_size_eq (ht : t.Reached) (hgrows : t.Grows t')
    (hsize : t'.nodes.size = t.nodes.size) : t'.Reached := by
  intro i hi
  obtain ⟨steps, hroute⟩ := ht i (hsize ▸ hi)
  exact ⟨steps, hgrows.route hroute⟩

/-- A new node is reached through the node below which it is added. -/
theorem Reached.of_child {step : Step α} (ht : t.Reached) (hgrows : t.Grows t')
    (hsize : t'.nodes.size = t.nodes.size + 1) (hi : i < t.nodes.size)
    (hedge : t'.Edge i step t.nodes.size) : t'.Reached := by
  intro j hj
  rcases Nat.lt_succ_iff_lt_or_eq.mp (hsize ▸ hj) with hj | rfl
  · obtain ⟨steps, hroute⟩ := ht j hj
    exact ⟨steps, hgrows.route hroute⟩
  · obtain ⟨steps, hroute⟩ := ht i hi
    exact ⟨steps ++ [step], (hgrows.route hroute).snoc hedge⟩

/-- Changes at nodes leave every node reached. -/
theorem nodeChanges_reached : NodeChanges fun t t' : Tree α σ => t.Reached → t'.Reached where
  refl _ := id
  trans h h' ht := h' (h ht)
  joinPermission t i permission ht :=
    ht.of_size_eq (changes_grows.joinPermission t i permission) (size_modifyNode ..)
  shareFlag child t i ht :=
    ht.of_size_eq (changes_grows.shareFlag child t i) (size_shareFlag child t i)
  bindCommand t i c ht := ht.of_size_eq (changes_grows.bindCommand t i c) (size_modifyNode ..)
  addLiteral {t i} hi w permission ht := by
    have hedge : (t.addLiteral i w permission).Edge i (.literal w) t.nodes.size := by
      rw [Edge, addLiteral, node_add hi]
      exact List.mem_append_right _ List.mem_cons_self
    exact ht.of_child (changes_grows.addLiteral t i w permission) (by simp [addLiteral]) hi hedge
  addFlag {t i} hi p ht :=
    ht.of_child (changes_grows.addFlag t i p) (size_addFlag t i p) hi (edge_addFlag hi p)
  addArgument {t i} hi p ht := by
    have hlabel : ((t.addArgument i p).node t.nodes.size).label = .parameter p := by
      refine label_add ?_ t _ i
      exact fun _ => rfl
    have hedge : (t.addArgument i p).Edge i (.parameter p) t.nodes.size := by
      refine .of_argument (mem_argumentsOf.mpr ⟨?_, hlabel⟩)
      rw [addArgument, node_add hi]
      exact (placeArgument_perm p _ _).mem_iff.mpr List.mem_cons_self
    exact ht.of_child (changes_grows.addArgument t i p) (by simp [addArgument]) hi hedge
  same hnodes hsettings ht :=
    ht.of_size_eq (changes_grows.same hnodes hsettings) (congrArg Array.size hnodes)

/-- Every node of a tree that a host can hold has a route from the root. -/
theorem Grown.exists_route (h : t.Grown) (hi : i < t.nodes.size) :
    ∃ steps, t.Route root steps i := by
  let P (t : Tree α σ) : Prop := t.Ground root ∧ t.Reached
  have hchanges : CommandChanges fun t t' : Tree α σ => P t → P t' :=
    { refl := fun _ => id
      trans := fun h h' ht => h' (h ht)
      growCommand := fun hs t ht =>
        ⟨pathWalk_ground.keep ht.1 (pathWalk_ground.growCommand hs ht.1),
          nodeChanges_reached.growCommand hs ht.1 ht.2⟩
      same := fun hnodes hsettings ht =>
        ⟨pathWalk_ground.keep ht.1 (stepChanges_tidy_and_grows.same hnodes hsettings),
          nodeChanges_reached.same hnodes hsettings ht.2⟩ }
  have hempty (s : Settings) (_ : s.validate = .ok ()) : P (Tree.empty s) := by
    refine ⟨⟨.of_empty s, Nat.one_pos⟩, fun i hi => ⟨[], ?_⟩⟩
    exact (Nat.lt_one_iff.mp hi).symm
  exact (hchanges.grown hempty h).2 i hi

end Tree

end CommandLine
