import CommandLine.Proofs.Tree.Steps
import CommandLine.Proofs.Tree.Tidy

/-!
# Growing a command again

Where a command has been grown, growing it again finds every child that the first run looked for.
The run goes the same way, is refused where the first one was, and does no more than bind the
command where the first one bound it. In between the tree may have grown by other commands: what
there was has stayed (`Widens`), and no two children of a node stand for the same step.

The second run may be that of a command with another identity. It also sees what it has bound
itself, so it is followed on all trees that have the nodes and children of the grown one
(`Matches`).

* `pathWalk_ground` — from a node of a tidy tree, growth comes to nodes only;
* `Retraces` — what the second run does, given what the first one did;
* `Chart.retraces_growCommand` — growing a command is retraced.
-/

set_option autoImplicit false

namespace CommandLine

variable {α σ : Type}

namespace Growth

variable {β γ : Type} {g : Growth α σ β} {f : β → Growth α σ γ} {t t' : Tree α σ}

/-- The same outcome with another tree. -/
def leaving (r : EStateM.Result Refusal (Tree α σ) β) (u : Tree α σ) :
    EStateM.Result Refusal (Tree α σ) β :=
  match r with
  | .ok b _ => .ok b u
  | .error e _ => .error e u

/-- The tree that an outcome leaves is the one that is put in its place. -/
theorem after_of_leaving {r : EStateM.Result Refusal (Tree α σ) β} (h : g t = leaving r t') :
    g.after t = t' := by
  rw [after, h]
  cases r <;> rfl

/-- A refused growth leaves the tree that its outcome has. -/
theorem after_of_error {e : Refusal} (h : g t = .error e t') : g.after t = t' := by
  simp only [after, h]

/-- A growth goes on where its first part is not refused. -/
theorem bind_of_ok {b : β} (h : g t = .ok b t') : (g >>= f) t = f b t' := by
  rw [bind_apply, h]

/-- It is refused where its first part is. -/
theorem bind_of_error {e : Refusal} (h : g t = .error e t') : (g >>= f) t = .error e t' := by
  rw [bind_apply, h]

end Growth

namespace Tree

open CommandLine.Growth

variable {s t t₁ u : Tree α σ} {i j : NodeIndex} {p q : Parameter α} {c : Command α σ}
  {permission : Permission α} {w : String}

/-! ## Trees that match -/

/-- Two trees have the same nodes with the same children, and everyone may pass the same nodes.
Which commands are bound may differ. -/
structure Matches (t u : Tree α σ) : Prop extends t.SameLayout u where
  allows_eq : ∀ i principal,
    (u.node i).permission.allows principal = (t.node i).permission.allows principal

namespace Matches

theorem refl (t : Tree α σ) : t.Matches t := ⟨.refl t, fun _ _ => rfl⟩

/-- A node may be opened to those to whom it is open anyway. -/
theorem joinPermission (h : s.Matches u) (hallows : ∀ principal,
    permission.allows principal = true → (s.node j).permission.allows principal = true) :
    s.Matches (u.joinPermission j permission) where
  toSameLayout := h.toSameLayout.trans (.joinPermission u j permission)
  allows_eq i principal := by
    rw [Tree.joinPermission, node_modifyNode]
    split
    · rename_i hi
      obtain ⟨rfl, _⟩ := hi
      rw [Permission.allows_or, h.allows_eq, Bool.or_eq_left_iff_imp]
      exact hallows principal
    · exact h.allows_eq i principal

/-- Binding a command keeps the match. -/
theorem bindCommand (h : s.Matches u) (i : NodeIndex) (c : Command α σ) :
    s.Matches (u.bindCommand i c) where
  toSameLayout := h.toSameLayout.trans (.bindCommand u i c)
  allows_eq j principal := by
    rw [Tree.bindCommand, node_modifyNode]
    split
    · split <;> exact h.allows_eq j principal
    · exact h.allows_eq j principal

end Matches

/-! ## Commands that are bound -/

/-- From one tree to the other a command is bound at some nodes, where there was none or if it has
an action. Elsewhere the commands stay. -/
def Binds (c : Command α σ) (bound : List NodeIndex) (t t' : Tree α σ) : Prop :=
  ∀ i, (t'.node i).command =
    if i ∈ bound ∧ ((t.node i).command.isNone || c.action.isSome) = true then some c
    else (t.node i).command

/-- Where commands stay, none is bound. -/
theorem Binds.of_same (h : SameCommands t t₁) (c : Command α σ) : Binds c [] t t₁ := by
  intro i
  rw [h.node, if_neg fun hboth => List.not_mem_nil hboth.1]

/-- Binding a command at a node binds it there and nowhere else. -/
theorem Binds.bindCommand (hi : i < t.nodes.size) (c : Command α σ) :
    Binds c [i] t (t.bindCommand i c) := by
  intro j
  simp only [Tree.bindCommand, node_modifyNode, List.mem_singleton]
  by_cases hj : j = i
  · subst hj
    by_cases hfree : ((t.node j).command.isNone || c.action.isSome) = true
    · rw [if_pos ⟨rfl, hi⟩, if_pos hfree, if_pos ⟨rfl, hfree⟩]
    · rw [if_pos ⟨rfl, hi⟩, if_neg hfree, if_neg fun hboth => hfree hboth.2]
  · rw [if_neg fun hboth => hj hboth.1, if_neg fun hboth => hj hboth.1]

/-- One run after the other binds at the nodes of both. -/
theorem Binds.trans {bound bound' : List NodeIndex} {t' : Tree α σ} (h : Binds c bound t t₁)
    (h' : Binds c bound' t₁ t') : Binds c (bound ++ bound') t t' := by
  intro i
  rw [h' i, h i]
  by_cases hfirst : i ∈ bound <;> by_cases hlater : i ∈ bound' <;>
    cases hcommand : (t.node i).command <;> cases haction : c.action <;> simp_all

/-- A run that binds at the same nodes changes no other command than the one that was bound
there. -/
theorem Binds.eq_of_ne {c' : Command α σ} {bound : List NodeIndex} {t' : Tree α σ}
    (h : Binds c bound t t₁) (h' : Binds c' bound t₁ t') (haction : c'.action = c.action)
    (hne : (t₁.node i).command ≠ some c) : (t'.node i).command = (t₁.node i).command := by
  have hfirst := h i
  rw [h' i, if_neg]
  rintro ⟨hi, hfree⟩
  rw [haction] at hfree
  split at hfirst
  · exact hne hfirst
  · rename_i hkept
    exact hkept ⟨hi, by rwa [← hfirst]⟩

/-! ## What a second run does -/

/-- A growth for one command leaves a tree from which all later growth may lead to `s`. Then, in
every tree that matches `s`, another growth comes out as this one did and binds its own command
where this one did. It does nothing else. -/
structure Retraces {β : Type} (s : Tree α σ) (c c' : Command α σ) (t : Tree α σ)
    (g g' : Growth α σ β) : Prop where
  tidy : (g.after t).Tidy
  widens : t.Widens (g.after t)
  again : (g.after t).Widens s → ∃ bound, Binds c bound t (g.after t) ∧ ∀ u, s.Matches u →
    ∃ u', g' u = leaving (g t) u' ∧ s.Matches u' ∧ Binds c' bound u u'

section

variable {β γ : Type} {g g' : Growth α σ β} {f f' : β → Growth α σ γ} {c' : Command α σ}

theorem retraces_pure (ht : t.Tidy) (b : β) : s.Retraces c c' t (pure b) (pure b) where
  tidy := ht
  widens := .refl t
  again _ := ⟨[], .of_same (.refl t) c, fun u hu => ⟨u, rfl, hu, .of_same (.refl u) c'⟩⟩

/-- Runs that are retraced one after the other are retraced together. -/
theorem retraces_bind (hg : s.Retraces c c' t g g')
    (hf : ∀ {b t₁}, g t = .ok b t₁ → t₁.Tidy → t.Widens t₁ →
      s.Retraces c c' t₁ (f b) (f' b)) : s.Retraces c c' t (g >>= f) (g' >>= f') := by
  cases hrun : g t with
  | error e t₁ =>
    have hbind : (g >>= f) t = .error e t₁ := bind_of_error hrun
    have hafter : (g >>= f).after t = g.after t := by
      rw [after_of_error hbind, after_of_error hrun]
    refine ⟨hafter ▸ hg.tidy, hafter ▸ hg.widens, fun hs => ?_⟩
    rw [hafter] at hs ⊢
    obtain ⟨bound, hbound, hagain⟩ := hg.again hs
    refine ⟨bound, hbound, fun u hu => ?_⟩
    obtain ⟨u', hrun', hu', hbound'⟩ := hagain u hu
    rw [hrun] at hrun'
    exact ⟨u', hbind ▸ bind_of_error hrun', hu', hbound'⟩
  | ok b t₁ =>
    have hbind : (g >>= f) t = f b t₁ := bind_of_ok hrun
    have hafter : (g >>= f).after t = (f b).after t₁ := by rw [after, after, hbind]
    have hfirst : g.after t = t₁ := after_of_ok hrun
    have hrest : s.Retraces c c' t₁ (f b) (f' b) :=
      hf hrun (hfirst ▸ hg.tidy) (hfirst ▸ hg.widens)
    refine ⟨hafter ▸ hrest.tidy, hafter ▸ (hfirst ▸ hg.widens).trans hrest.widens, fun hs => ?_⟩
    rw [hafter] at hs ⊢
    obtain ⟨bound, hbound, hagain⟩ := hg.again (hfirst ▸ hrest.widens.trans hs)
    -- The second part finds the tree the first left, so what each binds anew adds up.
    obtain ⟨bound', hbound', hagain'⟩ := hrest.again hs
    refine ⟨bound ++ bound', (hfirst ▸ hbound).trans hbound', fun u hu => ?_⟩
    obtain ⟨u₁, hrun₁, hu₁, hbound₁⟩ := hagain u hu
    obtain ⟨u', hrun', hu', hbound'⟩ := hagain' u₁ hu₁
    rw [hrun] at hrun₁
    exact ⟨u', by rw [hbind, bind_of_ok hrun₁, hrun'], hu', hbound₁.trans hbound'⟩

end

/-! ## Looking for a child -/

/-- A child is found or added: it is a node, open to all whom a permission allows. No command
moves. -/
structure Places (t : Tree α σ) (permission : Permission α) (j : NodeIndex) (t₁ : Tree α σ) :
    Prop where
  lt : j < t₁.nodes.size
  allows : ∀ principal, permission.allows principal = true →
    (t₁.node j).permission.allows principal = true
  commands : SameCommands t t₁

/-- A child that is found is opened. -/
theorem Places.of_join (hj : j < t.nodes.size) (permission : Permission α) :
    t.Places permission j (t.joinPermission j permission) where
  lt := by rwa [joinPermission, size_modifyNode]
  allows principal h := by
    rw [joinPermission, node_modifyNode_self hj, Permission.allows_or, h, Bool.or_true]
  commands := .joinPermission t j permission

/-- A child that is added is as open as it is asked to be, and has no command. -/
theorem Places.of_add {f : Tree.Node α σ → Tree.Node α σ}
    (hpermission : ∀ n, (f n).permission = n.permission) (hcommand : ∀ n, (f n).command = n.command)
    (label : Tree.Label α) (permission : Permission α) (i : NodeIndex) :
    t.Places permission t.nodes.size ((t.pushNode { label, permission }).modifyNode i f) where
  lt := by rw [size_modifyNode, size_pushNode]; exact Nat.lt_succ_self _
  allows principal h := by
    rw [node_modifyNode, node_pushNode_size]
    split
    · rwa [hpermission]
    · exact h
  commands := .add rfl hcommand t i

/-- A word leads to a child, unless an argument has it as its name. -/
theorem ensureLiteral_cases (ht : t.Tidy) (hi : i < t.nodes.size) (w : String)
    (permission : Permission α) :
    (∃ j t₁, ensureLiteral i w permission t = .ok j t₁ ∧ t.Places permission j t₁ ∧
      (w, j) ∈ (t₁.node i).literals) ∨
    ∃ j q, (j, q) ∈ t.argumentsOf i ∧ q.name = w ∧
      ensureLiteral i w permission t = .error (.conflict w) t := by
  unfold ensureLiteral
  cases hfind : (t.node i).literal? w with
  | some j =>
    have hmem := Node.mem_literals_of_literal? hfind
    refine .inl ⟨j, _, rfl, .of_join (ht.closed i j (.inl ⟨w, hmem⟩)) permission, ?_⟩
    rwa [(SameLayout.joinPermission t j permission).literals_eq]
  | none =>
    simp only
    by_cases hclash : ((t.argumentsOf i).any fun child => child.2.name = w) = true
    · rw [if_pos hclash]
      obtain ⟨⟨j, q⟩, hq, hname⟩ := List.any_eq_true.mp hclash
      exact .inr ⟨j, q, hq, of_decide_eq_true hname, rfl⟩
    · rw [if_neg hclash]
      refine .inl ⟨_, _, rfl, ?_, ?_⟩
      · refine .of_add ?_ ?_ _ permission i <;> exact fun _ => rfl
      · rw [addLiteral, node_add hi]
        exact List.mem_append_right _ List.mem_cons_self

/-- A flag leads to a child with its long name, unless one with another shape has it. -/
theorem ensureFlag_cases (ht : t.Tidy) (hi : i < t.nodes.size) (p : Parameter α) :
    (∃ j q t₁, ensureFlag i p t = .ok j t₁ ∧ t.Places p.permission j t₁ ∧
      (j, q) ∈ t₁.flagsOf i ∧ q.longName = p.longName ∧ q.interchangeable p = true) ∨
    ∃ j q, (j, q) ∈ t.flagsOf i ∧ q.longName = p.longName ∧ ¬q.interchangeable p = true ∧
      ensureFlag i p t = .error (.conflict p.longName) t := by
  unfold ensureFlag
  cases hfind : t.flagNamed? i p.longName with
  | some found =>
    obtain ⟨j, q⟩ := found
    obtain ⟨hq, hlong⟩ := of_flagNamed?_eq_some hfind
    simp only
    by_cases hshape : q.interchangeable p = true
    · rw [if_pos hshape]
      have hplaces := Places.of_join (ht.closed i j (child_of_mem_flagsOf hq)) p.permission
      refine .inl ⟨j, q, _, rfl, hplaces, ?_, hlong, hshape⟩
      rwa [(SameLayout.joinPermission t j p.permission).flagsOf_eq]
    · rw [if_neg hshape]
      exact .inr ⟨j, q, hq, hlong, hshape, rfl⟩
  | none =>
    refine .inl ⟨_, p, _, rfl, ?_, ?_, rfl, p.interchangeable_self⟩
    · refine .of_add ?_ ?_ _ p.permission i <;> exact fun _ => rfl
    · refine mem_flagsOf.mpr ⟨?_, ?_⟩
      · rw [addFlag, node_add hi]
        exact List.mem_append_right _ List.mem_cons_self
      · refine label_add ?_ t _ i
        exact fun _ => rfl

/-- An argument leads to a child with its name and shape, unless its name is a word. -/
theorem ensureArgument_cases (ht : t.Tidy) (hi : i < t.nodes.size) (p : Parameter α) :
    (∃ j q t₁, ensureArgument i p t = .ok j t₁ ∧ t.Places p.permission j t₁ ∧
      (j, q) ∈ t₁.argumentsOf i ∧ q.name = p.name ∧ q.interchangeable p = true) ∨
    ∃ j, (p.name, j) ∈ (t.node i).literals ∧
      ensureArgument i p t = .error (.conflict p.name) t := by
  unfold ensureArgument
  -- A literal of the same word at this node is the only reason for a refusal.
  by_cases hclash : ((t.node i).literal? p.name).isSome = true
  · rw [if_pos hclash]
    obtain ⟨j, hj⟩ := Option.isSome_iff_exists.mp hclash
    exact .inr ⟨j, Node.mem_literals_of_literal? hj, rfl⟩
  · rw [if_neg hclash]
    simp only
    cases hfind : (t.argumentsOf i).find? fun child =>
        child.2.name = p.name && child.2.interchangeable p with
    | some found =>
      obtain ⟨j, q⟩ := found
      have hq := List.mem_of_find?_eq_some hfind
      obtain ⟨hname, hshape⟩ : q.name = p.name ∧ q.interchangeable p = true := by
        simpa using List.find?_some hfind
      have hplaces := Places.of_join (ht.closed i j (child_of_mem_argumentsOf hq)) p.permission
      refine .inl ⟨j, q, _, rfl, hplaces, ?_, hname, hshape⟩
      rwa [(SameLayout.joinPermission t j p.permission).argumentsOf_eq]
    | none =>
      refine .inl ⟨_, p, _, rfl, ?_, ?_, rfl, p.interchangeable_self⟩
      · refine .of_add ?_ ?_ _ p.permission i <;> exact fun _ => rfl
      · refine mem_argumentsOf.mpr ⟨?_, ?_⟩
        · rw [addArgument, node_add hi]
          exact (placeArgument_perm p _ _).mem_iff.mpr List.mem_cons_self
        · refine label_add ?_ t _ i
          exact fun _ => rfl

/-- A parameter is looked for among the flags or among the arguments. -/
theorem ensureParameter_eq (i : NodeIndex) (p : Parameter α) :
    (ensureParameter i p : Growth α σ NodeIndex) =
      if p.isNamed then ensureFlag i p else ensureArgument i p := rfl

/-- The child for a parameter is a node. -/
theorem lt_of_ensureParameter (ht : t.Tidy) (hi : i < t.nodes.size)
    (h : ensureParameter i p t = .ok j t₁) : j < t₁.nodes.size := by
  rw [ensureParameter_eq] at h
  split at h
  · rcases ensureFlag_cases ht hi p with ⟨l, q, t', hrun, hplaces, _⟩ | ⟨l, q, _, _, _, hrun⟩
    · obtain ⟨rfl, rfl⟩ := EStateM.Result.ok.inj (hrun.symm.trans h)
      exact hplaces.lt
    · cases hrun.symm.trans h
  · rcases ensureArgument_cases ht hi p with ⟨l, q, t', hrun, hplaces, _⟩ | ⟨l, _, hrun⟩
    · obtain ⟨rfl, rfl⟩ := EStateM.Result.ok.inj (hrun.symm.trans h)
      exact hplaces.lt
    · cases hrun.symm.trans h

/-- So is the child for any step. -/
theorem lt_of_ensureStep {step : Step α} (ht : t.Tidy) (hi : i < t.nodes.size)
    (h : ensureStep c i step t = .ok j t₁) : j < t₁.nodes.size := by
  cases step with
  | literal w =>
    rcases ensureLiteral_cases ht hi w c.permission with
      ⟨l, t', hrun, hplaces, _⟩ | ⟨l, q, _, _, hrun⟩
    · obtain ⟨rfl, rfl⟩ := EStateM.Result.ok.inj (hrun.symm.trans h)
      exact hplaces.lt
    · cases hrun.symm.trans h
  | parameter p => exact lt_of_ensureParameter ht hi h

/-- A node of a tidy tree. -/
structure Ground (t : Tree α σ) (i : NodeIndex) : Prop where
  tidy : t.Tidy
  lt : i < t.nodes.size

/-- Growth leaves a tidy tree tidy, with its nodes. -/
theorem stepChanges_tidy_and_grows :
    StepChanges fun t t' : Tree α σ => (t.Tidy → t'.Tidy) ∧ t.Grows t' :=
  stepChanges_tidy.and changes_grows.steps

/-- From a node of a tidy tree, growth walks over nodes only. -/
theorem pathWalk_ground :
    PathWalk Ground fun t t' : Tree α σ => (t.Tidy → t'.Tidy) ∧ t.Grows t' where
  refl := stepChanges_tidy_and_grows.refl
  trans := stepChanges_tidy_and_grows.trans
  keep hi h := ⟨h.1 hi.tidy, Nat.lt_of_lt_of_le hi.lt h.2.size_le⟩
  place hi hnamed hrun :=
    ⟨(stepChanges_tidy.toFlagChanges.ensureParameter _ hnamed).of_ok hrun hi.tidy,
      lt_of_ensureParameter hi.tidy hi.lt hrun⟩
  ensureParameter _ hnamed :=
    stepChanges_tidy_and_grows.toFlagChanges.ensureParameter _ hnamed _
  shareFlag := stepChanges_tidy_and_grows.shareFlag
  bindCommand := stepChanges_tidy_and_grows.bindCommand
  stepPlace c step hi hrun := ⟨(stepChanges_tidy.ensureStep c _ step).of_ok hrun hi.tidy,
    lt_of_ensureStep hi.tidy hi.lt hrun⟩
  ensureStep c step _ := stepChanges_tidy_and_grows.ensureStep c _ step _

/-! ## Finding it again -/

section

variable {c' : Command α σ} {known : Command α σ → Prop}

/-- A child that is found again is only opened to those to whom it is open anyway. -/
theorem retraces_of_places {g g' : Growth α σ NodeIndex} (hrun : g t = .ok j t₁)
    (hplaces : t.Places permission j t₁) (htidy : t₁.Tidy) (hwidens : t.Widens t₁)
    (hagain : t₁.Widens s → ∀ u, s.Matches u → g' u = .ok j (u.joinPermission j permission)) :
    s.Retraces c c' t g g' := by
  have hafter : g.after t = t₁ := after_of_ok hrun
  refine ⟨hafter ▸ htidy, hafter ▸ hwidens, fun hs => ?_⟩
  rw [hafter] at hs ⊢
  refine ⟨[], .of_same hplaces.commands c, fun u hu => ?_⟩
  refine ⟨_, by rw [hagain hs u hu, hrun, leaving], hu.joinPermission fun principal h => ?_,
    .of_same (.joinPermission u j permission) c'⟩
  exact hs.allows hplaces.lt (hplaces.allows principal h)

/-- What is refused again changes nothing. -/
theorem retraces_of_refused {β : Type} {g g' : Growth α σ β} {e : Refusal} (ht : t.Tidy)
    (hrun : g t = .error e t) (hagain : t.Widens s → ∀ u, s.Matches u → g' u = .error e u) :
    s.Retraces c c' t g g' := by
  have hafter : g.after t = t := after_of_error hrun
  refine ⟨hafter.symm ▸ ht, hafter.symm ▸ .refl t, fun hs => ?_⟩
  rw [hafter] at hs ⊢
  exact ⟨[], .of_same (.refl t) c, fun u hu =>
    ⟨u, by rw [hagain hs u hu, hrun, leaving], hu, .of_same (.refl u) c'⟩⟩

namespace Chart

/-- An argument leads to the only child that has its name and shape. -/
theorem exists_find?_of_mem_argumentsOf (m : Chart known s) (h : (j, q) ∈ s.argumentsOf i)
    (hname : q.name = p.name) (hshape : q.interchangeable p = true) :
    ∃ r, (s.argumentsOf i).find? (fun child =>
      child.2.name = p.name && child.2.interchangeable p) = some (j, r) := by
  cases hfind : (s.argumentsOf i).find? fun child =>
      child.2.name = p.name && child.2.interchangeable p with
  | none =>
    rw [List.find?_eq_none] at hfind
    exact (hfind (j, q) h (by simp [hname, hshape])).elim
  | some found =>
    obtain ⟨l, r⟩ := found
    obtain ⟨hname', hshape'⟩ : r.name = p.name ∧ r.interchangeable p = true := by
      simpa using List.find?_some hfind
    obtain ⟨hl, hr⟩ := mem_argumentsOf.mp (List.mem_of_find?_eq_some hfind)
    obtain ⟨hj, hq⟩ := mem_argumentsOf.mp h
    have hi := (child_of_mem_argumentsOf h).parent_lt
    have hsame : Parameter.SameArgument r q := by
      rw [Parameter.interchangeable_comm] at hshape
      exact ⟨hname'.trans hname.symm, Parameter.interchangeable_trans hshape' hshape⟩
    obtain rfl : l = j := by
      by_contra hne
      exact (m.stands i hi).arguments_apart.forall hl hj hne r q hr hq hsame
    exact ⟨r, rfl⟩

section

variable (m : Chart known s) (ht : t.Tidy) (hi : i < t.nodes.size)
include m ht hi

/-- The word that was looked for is there the second time. -/
theorem retraces_ensureLiteral (hs : s.Tidy) (w : String) (permission : Permission α) :
    s.Retraces c c' t (ensureLiteral i w permission) (ensureLiteral i w permission) := by
  rcases ensureLiteral_cases ht hi w permission with
    ⟨j, t₁, hrun, hplaces, hmem⟩ | ⟨j, q, hq, rfl, hrun⟩
  · have htidy := (stepChanges_tidy.ensureLiteral i w permission).of_ok hrun ht
    have hwidens := (changes_widens.ensureLiteral i w permission).of_ok hrun
    -- A later tree still has the literal, and two literals of one word never leave one node.
    refine retraces_of_places hrun hplaces htidy hwidens fun hlater u hu => ?_
    have hmem' : (w, j) ∈ (s.node i).literals := hlater.literal hmem
    have hparent : i < s.nodes.size := Child.parent_lt (.inl ⟨w, hmem'⟩)
    have hfind : (u.node i).literal? w = some j := by
      rw [hu.literal?_eq]
      exact (Node.literal?_eq_some_iff (m.stands i hparent).words_nodup).mpr hmem'
    rw [ensureLiteral, hfind]
  · refine retraces_of_refused ht hrun fun hlater u hu => ?_
    have hq' : (j, q) ∈ s.argumentsOf i := hlater.argument hq
    have hnone : (u.node i).literal? q.name = none := by
      rw [hu.literal?_eq]
      cases hfind : (s.node i).literal? q.name with
      | none => rfl
      | some l => exact (hs.apart i _ l j q (Node.mem_literals_of_literal? hfind) hq' rfl).elim
    have hclash : ((u.argumentsOf i).any fun child => child.2.name = q.name) = true := by
      rw [hu.argumentsOf_eq]
      exact List.any_eq_true.mpr ⟨(j, q), hq', decide_eq_true rfl⟩
    rw [ensureLiteral, hnone]
    exact if_pos hclash

/-- So is the flag, and no other one has its long name. -/
theorem retraces_ensureFlag (p : Parameter α) (hnamed : p.isNamed = true) :
    s.Retraces c c' t (ensureParameter i p) (ensureParameter i p) := by
  have hflag : (ensureParameter i p : Growth α σ NodeIndex) = ensureFlag i p := if_pos hnamed
  -- The flag that has the long name in the grown tree has it in every tree that matches.
  have hfound {u : Tree α σ} {j : NodeIndex} {q : Parameter α} (hu : s.Matches u)
      (hq : (j, q) ∈ s.flagsOf i) (hlong : q.longName = p.longName) :
      u.flagNamed? i p.longName = some (j, q) := by
    rw [hu.flagNamed?_eq, ← hlong]
    exact m.flagNamed?_of_mem_flagsOf (child_of_mem_flagsOf hq).parent_lt hq
  rcases ensureFlag_cases ht hi p with
    ⟨j, q, t₁, hrun, hplaces, hq, hlong, hshape⟩ | ⟨j, q, hq, hlong, hshape, hrun⟩
  · rw [← hflag] at hrun
    have htidy := (stepChanges_tidy.toFlagChanges.ensureParameter i hnamed).of_ok hrun ht
    have hwidens := (changes_widens.toFlagChanges.ensureParameter i hnamed).of_ok hrun
    refine retraces_of_places hrun hplaces htidy hwidens fun hlater u hu => ?_
    rw [hflag, ensureFlag, hfound hu (hlater.flag hq) hlong]
    exact if_pos hshape
  · rw [← hflag] at hrun
    refine retraces_of_refused ht hrun fun hlater u hu => ?_
    rw [hflag, ensureFlag, hfound hu (hlater.flag hq) hlong]
    exact if_neg hshape

/-- So is the argument, and no other one is interchangeable with it. -/
theorem retraces_ensureArgument (hs : s.Tidy) (p : Parameter α) :
    s.Retraces c c' t (ensureArgument i p) (ensureArgument i p) := by
  rcases ensureArgument_cases ht hi p with
    ⟨j, q, t₁, hrun, hplaces, hq, hname, hshape⟩ | ⟨j, hj, hrun⟩
  · have htidy := (stepChanges_tidy.ensureArgument i p).of_ok hrun ht
    have hwidens := (changes_widens.ensureArgument i p).of_ok hrun
    refine retraces_of_places hrun hplaces htidy hwidens fun hlater u hu => ?_
    have hq' : (j, q) ∈ s.argumentsOf i := hlater.argument hq
    have hword : ¬((u.node i).literal? p.name).isSome = true := by
      rw [hu.literal?_eq, Option.isSome_iff_exists]
      rintro ⟨l, hl⟩
      exact hs.apart i _ l j q (Node.mem_literals_of_literal? hl) hq' hname
    obtain ⟨r, hfind⟩ := m.exists_find?_of_mem_argumentsOf hq' hname hshape
    rw [ensureArgument, if_neg hword, hu.argumentsOf_eq]
    simp only [hfind]
  · refine retraces_of_refused ht hrun fun hlater u hu => ?_
    have hj' : (p.name, j) ∈ (s.node i).literals := hlater.literal hj
    have hword : ((u.node i).literal? p.name).isSome = true := by
      rw [hu.literal?_eq, ← Option.not_isNone, Bool.not_eq_true', Option.isNone_eq_false_iff,
        Option.isSome_iff_ne_none]
      intro hnone
      exact Node.literal?_eq_none_iff.mp hnone (List.mem_map_of_mem hj')
    rw [ensureArgument]
    exact if_pos hword

/-- So a step of a path is retraced. -/
theorem retraces_ensureStep (hs : s.Tidy) (hpermission : c'.permission = c.permission)
    (step : Step α) :
    s.Retraces c c' t (ensureStep c i step) (ensureStep c' i step) := by
  cases step with
  | literal w =>
    rw [ensureStep, ensureStep, hpermission]
    exact m.retraces_ensureLiteral ht hi hs w c.permission
  | parameter p =>
    show s.Retraces c c' t (ensureParameter i p) (ensureParameter i p)
    by_cases hnamed : p.isNamed = true
    · exact m.retraces_ensureFlag ht hi p hnamed
    · rw [ensureParameter_eq, if_neg hnamed]
      exact m.retraces_ensureArgument ht hi hs p

end

end Chart

/-! ## Binding it again -/

omit c' in
/-- A node that is no parameter is not shared. -/
theorem shareFlag_of_unlabelled {child : NodeIndex} (h : (t.node child).parameter? = none)
    (e : NodeIndex) : t.shareFlag child e = t := by
  unfold shareFlag
  rw [h]

/-- Marking the end binds the second command where the first one was bound. -/
theorem retraces_markEnd (ht : t.Tidy) (hi : i < t.nodes.size) (c c' : Command α σ) :
    s.Retraces c c' t (markEnd c i) (markEnd c' i) where
  tidy := stepChanges_tidy.bindCommand t i c ht
  widens := changes_widens.bindCommand t i c
  again hs := by
    refine ⟨[i], .bindCommand hi c, fun u hu => ⟨_, rfl, hu.bindCommand i c', ?_⟩⟩
    refine .bindCommand ?_ c'
    rw [hu.size_eq]
    exact Nat.lt_of_lt_of_le (Nat.lt_of_lt_of_le hi (changes_widens.bindCommand t i c).size_le)
      hs.size_le

/-- And it waits for the same flags. -/
theorem retraces_markEndBefore (ht : t.Tidy) (hi : i < t.nodes.size) (c c' : Command α σ)
    (left : List (Parameter α)) :
    s.Retraces c c' t (markEndBefore c i left) (markEndBefore c' i left) := by
  unfold markEndBefore
  split
  · exact retraces_markEnd ht hi c c'
  · exact retraces_pure ht ()

/-- A node to which a flag is linked has a flag of that long name. -/
theorem exists_flag_of_shareFlag {child e : NodeIndex}
    (hlabel : (t.node child).label = .parameter p) (he : e < t.nodes.size) :
    ∃ l q, (l, q) ∈ (t.shareFlag child e).flagsOf e ∧ q.longName = p.longName := by
  unfold shareFlag
  rw [Node.parameter?_eq_some.mpr hlabel]
  simp only
  split
  · rename_i htaken
    obtain ⟨⟨l, q⟩, hfind⟩ := Option.isSome_iff_exists.mp htaken
    exact ⟨l, q, of_flagNamed?_eq_some hfind⟩
  · refine ⟨child, p, mem_flagsOf.mpr ⟨?_, ?_⟩, rfl⟩
    · rw [node_modifyNode_self he]
      exact List.mem_append_right _ List.mem_cons_self
    · rw [label_modifyNode (f := fun n => { n with flags := n.flags ++ [child] }) fun _ => rfl]
      exact hlabel

/-- After sharing, each earlier node has a flag of the shared one's long name. -/
theorem exists_flag_of_shareFlags {child e : NodeIndex} {earlier : List NodeIndex}
    (hlabel : (t.node child).label = .parameter p) (hlt : ∀ e ∈ earlier, e < t.nodes.size)
    (he : e ∈ earlier) : ∃ l q, (l, q) ∈ (earlier.foldl (shareFlag child) t).flagsOf e ∧
      q.longName = p.longName := by
  induction earlier generalizing t with
  | nil => cases he
  | cons e' earlier ih =>
    have hwidens := changes_widens.shareFlag child t e'
    have hchild : child < t.nodes.size := lt_of_label_ne_root (by simp [hlabel])
    rcases List.mem_cons.mp he with rfl | he
    · obtain ⟨l, q, hq, hlong⟩ := exists_flag_of_shareFlag hlabel (hlt e List.mem_cons_self)
      exact ⟨l, q, (changes_widens.shareFlags child _ earlier).flag hq, hlong⟩
    · exact ih ((hwidens.label_eq child hchild).trans hlabel) (fun e' he' =>
        Nat.lt_of_lt_of_le (hlt e' (List.mem_cons_of_mem _ he')) hwidens.size_le) he

/-- A flag is not linked where its long name is taken. -/
theorem shareFlag_of_taken {child e : NodeIndex} (hlabel : (t.node child).label = .parameter p)
    (h : ∃ l q, (l, q) ∈ t.flagsOf e ∧ q.longName = p.longName) : t.shareFlag child e = t := by
  obtain ⟨l, q, hq, hlong⟩ := h
  have htaken : (t.flagNamed? e p.longName).isSome = true :=
    List.find?_isSome.mpr ⟨(l, q), hq, decide_eq_true hlong⟩
  unfold shareFlag
  rw [Node.parameter?_eq_some.mpr hlabel]
  exact if_pos htaken

theorem sameCommands_shareFlag (child : NodeIndex) (t : Tree α σ) (e : NodeIndex) :
    SameCommands t (t.shareFlag child e) := by
  unfold shareFlag
  split
  · exact .refl t
  · split
    · exact .refl t
    · refine .modifyNode ?_ t e
      exact fun _ => rfl

theorem sameCommands_shareFlags (child : NodeIndex) (t : Tree α σ) (earlier : List NodeIndex) :
    SameCommands t (earlier.foldl (shareFlag child) t) := by
  induction earlier generalizing t with
  | nil => exact .refl t
  | cons e earlier ih => exact (sameCommands_shareFlag child t e).trans (ih _)

/-- Sharing with nodes that have the flag changes nothing. -/
theorem shareFlags_of_idle {child : NodeIndex} {earlier : List NodeIndex}
    (h : ∀ e ∈ earlier, t.shareFlag child e = t) : earlier.foldl (shareFlag child) t = t := by
  induction earlier with
  | nil => rfl
  | cons e earlier ih =>
    rw [List.foldl_cons, h e List.mem_cons_self]
    exact ih fun e' he' => h e' (List.mem_cons_of_mem e he')

/-- Links that were made are not made again. -/
theorem retraces_shareFlags {child : NodeIndex} {earlier : List NodeIndex} (ht : t.Tidy)
    (hlt : ∀ e ∈ child :: earlier, e < t.nodes.size) :
    s.Retraces c c' t (modify fun t => earlier.foldl (shareFlag child) t)
      (modify fun t => earlier.foldl (shareFlag child) t) := by
  have hwidens : t.Widens (earlier.foldl (shareFlag child) t) :=
    changes_widens.shareFlags child t earlier
  refine ⟨stepChanges_tidy.shareFlags child t earlier ht, hwidens, fun hs => ?_⟩
  refine ⟨[], .of_same (sameCommands_shareFlags child t earlier) c, fun u hu => ?_⟩
  refine ⟨u, ?_, hu, .of_same (.refl u) c'⟩
  have hchild : child < t.nodes.size := hlt child List.mem_cons_self
  have hlabel : (u.node child).label = (t.node child).label := by
    rw [hu.label_eq]
    exact (hwidens.trans hs).label_eq child hchild
  have hidle (e : NodeIndex) (he : e ∈ earlier) : u.shareFlag child e = u := by
    cases hparameter : (t.node child).parameter? with
    | none =>
      refine shareFlag_of_unlabelled ?_ e
      rw [Node.parameter?, hlabel, ← Node.parameter?, hparameter]
    | some p =>
      have hp := Node.parameter?_eq_some.mp hparameter
      obtain ⟨l, q, hq, hlong⟩ := exists_flag_of_shareFlags hp
        (fun e he => hlt e (List.mem_cons_of_mem child he)) he
      refine shareFlag_of_taken (hlabel.trans hp) ⟨l, q, ?_, hlong⟩
      rw [hu.flagsOf_eq]
      exact hs.flag hq
  rw [modify_apply, shareFlags_of_idle hidle, modify_apply, leaving]

/-! ## Sections, paths and commands -/

namespace Chart

variable {ps flags : List (Parameter α)} {threshold : Nat}

theorem retraces_growRow (m : Chart known s) (ht : t.Tidy) (hi : i < t.nodes.size)
    (hnamed : ∀ p ∈ ps, p.isNamed = true) : s.Retraces c c' t (growRow i ps) (growRow i ps) := by
  induction ps generalizing t i with
  | nil => exact retraces_pure ht i
  | cons p ps ih =>
    refine retraces_bind (m.retraces_ensureFlag ht hi p (hnamed p List.mem_cons_self)) ?_
    intro child t₁ hrun ht₁ _
    exact ih ht₁ (lt_of_ensureParameter ht hi hrun) fun q hq => hnamed q (List.mem_cons_of_mem p hq)

theorem retraces_growOrder (m : Chart known s) (ht : t.Tidy) (hi : i < t.nodes.size)
    (hnamed : ∀ p ∈ ps, p.isNamed = true) :
    s.Retraces c c' t (growOrder c i ps) (growOrder c' i ps) := by
  induction ps generalizing t i with
  | nil => exact retraces_markEnd ht hi c c'
  | cons p ps ih =>
    refine retraces_bind (retraces_markEndBefore ht hi c c' (p :: ps)) ?_
    intro _ t₁ _ ht₁ hwidens₁
    have hi₁ : i < t₁.nodes.size := Nat.lt_of_lt_of_le hi hwidens₁.size_le
    refine retraces_bind (m.retraces_ensureFlag ht₁ hi₁ p (hnamed p List.mem_cons_self)) ?_
    intro child t₂ hrun ht₂ _
    exact ih ht₂ (lt_of_ensureParameter ht₁ hi₁ hrun) fun q hq =>
      hnamed q (List.mem_cons_of_mem p hq)

theorem retraces_growOrders {orders : List (List (Parameter α))} (m : Chart known s) (ht : t.Tidy)
    (hi : i < t.nodes.size) (hnamed : ∀ order ∈ orders, ∀ p ∈ order, p.isNamed = true) :
    s.Retraces c c' t (growOrders c i orders) (growOrders c' i orders) := by
  induction orders generalizing t with
  | nil => exact retraces_pure ht ()
  | cons order orders ih =>
    refine retraces_bind (m.retraces_growOrder ht hi (hnamed order List.mem_cons_self)) ?_
    intro _ t₁ _ ht₁ hwidens
    exact ih ht₁ (Nat.lt_of_lt_of_le hi hwidens.size_le) fun o ho =>
      hnamed o (List.mem_cons_of_mem order ho)

/-- A chain is retraced: what was shared the first time is not shared again. -/
theorem retraces_growChain {base : NodeIndex} {earlier : List NodeIndex} (m : Chart known s)
    (ht : t.Tidy) (hlt : ∀ e ∈ base :: earlier, e < t.nodes.size)
    (hnamed : ∀ p ∈ ps, p.isNamed = true) :
    s.Retraces c c' t (growChain c base earlier ps) (growChain c' base earlier ps) := by
  induction ps generalizing t earlier with
  | nil => exact retraces_pure ht ()
  | cons p ps ih =>
    have hbase := hlt base List.mem_cons_self
    refine retraces_bind (m.retraces_ensureFlag ht hbase p (hnamed p List.mem_cons_self)) ?_
    intro child t₁ hrun ht₁ hwidens₁
    have hchild := lt_of_ensureParameter ht hbase hrun
    refine retraces_bind (retraces_markEnd ht₁ hchild c c') ?_
    intro _ t₂ _ ht₂ hwidens₂
    -- The base, the earlier flags and the new one are nodes of every later tree.
    have hnodes {t' : Tree α σ} (h : t₁.Widens t') :
        ∀ e ∈ base :: (earlier ++ [child]), e < t'.nodes.size := by
      intro e he
      rw [← List.cons_append, List.mem_append, List.mem_singleton] at he
      refine Nat.lt_of_lt_of_le ?_ h.size_le
      rcases he with he | rfl
      · exact Nat.lt_of_lt_of_le (hlt e he) hwidens₁.size_le
      · exact hchild
    refine retraces_bind (retraces_shareFlags ht₂ fun e he => ?_) ?_
    · refine hnodes hwidens₂ e ?_
      rcases List.mem_cons.mp he with rfl | he <;> simp [*]
    · intro _ t₃ _ ht₃ hwidens₃
      exact ih ht₃ (hnodes (hwidens₂.trans hwidens₃)) fun q hq =>
        hnamed q (List.mem_cons_of_mem p hq)

/-- So is the flag section, in either layout. -/
theorem retraces_growFlags (m : Chart known s) (ht : t.Tidy) (hi : i < t.nodes.size)
    (hnamed : ∀ p ∈ flags, p.isNamed = true) :
    s.Retraces c c' t (growFlags c i (.ofFlags threshold flags))
      (growFlags c' i (.ofFlags threshold flags)) := by
  unfold FlagPlan.ofFlags
  split
  · have hrequired (p : Parameter α) (hp : p ∈ Parameter.required flags) : p.isNamed = true :=
      hnamed p (Parameter.mem_required.mp hp).1
    refine retraces_bind (m.retraces_growRow ht hi hrequired) ?_
    intro base t₁ hrun ht₁ _
    have hbase := (pathWalk_ground.place_of_growRow ⟨ht, hi⟩ hrequired hrun).lt
    refine retraces_bind (retraces_markEnd ht₁ hbase c c') ?_
    intro _ t₂ _ ht₂ hwidens
    refine m.retraces_growChain ht₂ (fun e he => ?_) fun p hp =>
      hnamed p (Parameter.mem_optionals.mp hp).1
    obtain rfl := List.mem_singleton.mp he
    exact Nat.lt_of_lt_of_le hbase hwidens.size_le
  · exact m.retraces_growOrders ht hi fun order horder p hp =>
      hnamed p ((Parameter.perm_of_mem_flagOrders horder).mem_iff.mp hp)

/-- And wherever it may begin before the steps that are left. -/
theorem retraces_growFlagsBefore (m : Chart known s) (ht : t.Tidy) (hi : i < t.nodes.size)
    (hnamed : ∀ p ∈ flags, p.isNamed = true) (left : List (Step α)) :
    s.Retraces c c' t (growFlagsBefore c i (.ofFlags threshold flags) left)
      (growFlagsBefore c' i (.ofFlags threshold flags) left) := by
  unfold growFlagsBefore
  split
  · exact m.retraces_growFlags ht hi hnamed
  · exact retraces_pure ht ()

/-- So is a path, by induction on its steps. -/
theorem retraces_growPath {steps : List (Step α)} (m : Chart known s) (hs : s.Tidy) (ht : t.Tidy)
    (hi : i < t.nodes.size) (hnamed : ∀ p ∈ flags, p.isNamed = true)
    (hpermission : c'.permission = c.permission) :
    s.Retraces c c' t (growPath c (.ofFlags threshold flags) i steps)
      (growPath c' (.ofFlags threshold flags) i steps) := by
  induction steps generalizing t i with
  | nil => exact m.retraces_growFlags ht hi hnamed
  | cons step steps ih =>
    refine retraces_bind (m.retraces_growFlagsBefore ht hi hnamed (step :: steps)) ?_
    intro _ t₁ _ ht₁ hwidens
    have hi₁ : i < t₁.nodes.size := Nat.lt_of_lt_of_le hi hwidens.size_le
    refine retraces_bind (m.retraces_ensureStep ht₁ hi₁ hs hpermission step) ?_
    intro child t₂ hrun ht₂ _
    exact ih ht₂ (lt_of_ensureStep ht₁ hi₁ hrun)

/-- The growth of a command is retraced by that of the same command with any identity. -/
theorem retraces_growCommand (m : Chart known s) (hs : s.Tidy) (ht : t.Tidy)
    (hsize : 0 < t.nodes.size) (hc : c.Sound) (id : Nat) :
    s.Retraces c { c with id } t (growCommand c) (growCommand { c with id }) := by
  let grow (c : Command α σ) : Growth α σ Unit := ensureLiteral root c.name c.permission >>=
    fun first => growPath c (.ofFlags t.settings.threshold c.flags) first c.path
  -- The layout of the flags follows from the settings, which all these trees have in common.
  have hgrow (c : Command α σ) {u : Tree α σ} (hu : u.settings = t.settings) :
      growCommand c u = grow c u := by
    have hplan : growCommand c u = (ensureLiteral root c.name c.permission >>= fun first =>
        growPath c (.ofFlags u.settings.threshold c.flags) first c.path) u := rfl
    rw [hplan, hu]
  have hword : s.Retraces c { c with id } t (ensureLiteral root c.name c.permission)
      (ensureLiteral root c.name c.permission) :=
    m.retraces_ensureLiteral ht hsize hs c.name c.permission
  obtain ⟨htidy, hwidens, hagain⟩ : s.Retraces c { c with id } t (grow c) (grow { c with id }) := by
    refine retraces_bind hword ?_
    intro first t₁ hrun ht₁ _
    have hstep : ensureStep c root (.literal c.name) t = .ok first t₁ := hrun
    exact m.retraces_growPath hs ht₁ (lt_of_ensureStep ht hsize hstep) hc.named rfl
  have hafter : (growCommand c).after t = (grow c).after t := by rw [after, hgrow c rfl, after]
  refine ⟨hafter ▸ htidy, hafter ▸ hwidens, fun hlater => ?_⟩
  rw [hafter] at hlater ⊢
  obtain ⟨bound, hbound, hsecond⟩ := hagain hlater
  refine ⟨bound, hbound, fun u hu => ?_⟩
  have hsettings : u.settings = t.settings := by
    rw [hu.settings_eq, hlater.settings_eq, hwidens.settings_eq]
  rw [hgrow _ hsettings, hgrow c rfl]
  exact hsecond u hu

end Chart

end

end Tree

end CommandLine
