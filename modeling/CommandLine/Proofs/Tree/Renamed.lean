import CommandLine.Proofs.Tree.Lockstep

/-!
# One command under two names

A command that is inserted alone makes one tree for each name that it may have. Both trees have the
same nodes under the same indices: below the first word a node of the one differs from that of the
other in nothing but the name of the command that ends there, and the roots know one word each
(`Renames`). Growth looks at none of this once it is past the first word, so the two insertions go
in step, to the same answers or the same refusal.

* `Renames` — what two trees have in common whose only word is another one in each;
* `InStep.bind` — growths in step compose;
* `inStep_growPath` — one lemma for each layer of a command;
* `renames_insert` — a command inserted under two names.
-/

set_option autoImplicit false

namespace CommandLine

open Growth

variable {α σ : Type}

/-- Two commands that differ at most in their first word. -/
def Command.Renames (c c' : Command α σ) : Prop := c' = { c with name := c'.name }

namespace Tree

/-- Two nodes that differ at most in a word and in the name of the command. -/
structure Node.Renames (n n' : Tree.Node α σ) : Prop where
  parameter?_eq : n.parameter? = n'.parameter?
  isRoot_eq : n.isRoot = n'.isRoot
  permission_eq : n.permission = n'.permission
  literals_eq : n.literals = n'.literals
  flags_eq : n.flags = n'.flags
  arguments_eq : n.arguments = n'.arguments
  command : Option.Rel Command.Renames n.command n'.command

/-- Two trees that have the same nodes below one word each. -/
structure Renames (w w' : String) (t t' : Tree α σ) : Prop where
  settings_eq : t.settings = t'.settings
  size_eq : t.nodes.size = t'.nodes.size
  /-- The root leads to one node, by the word of the tree. -/
  exists_word : ∃ first, first ≠ root ∧ t.node root = { label := .root, literals := [(w, first)] } ∧
    t'.node root = { label := .root, literals := [(w', first)] }
  node : ∀ i, i ≠ root → (t.node i).Renames (t'.node i)
  ne_root : ∀ i j, i ≠ root → t.Child i j → j ≠ root

variable {w w' : String} {t t' : Tree α σ} {c c' : Command α σ} {i j : NodeIndex}
  {n n' : Tree.Node α σ} {p : Parameter α}

/-! ## Looking up -/

/-- The two nodes have the same words below them. -/
theorem Node.Renames.literal?_eq (h : n.Renames n') (v : String) :
    n.literal? v = n'.literal? v := by
  rw [Node.literal?, Node.literal?, h.literals_eq]

/-- A command ends at both or at neither. -/
theorem Node.Renames.isNone_command (h : n.Renames n') :
    n.command.isNone = n'.command.isNone := by
  have hcommand := h.command
  generalize n.command = found at hcommand
  generalize n'.command = found' at hcommand
  cases hcommand <;> rfl

namespace Renames

theorem size_pos (h : Renames w w' t t') : 0 < t.nodes.size := by
  obtain ⟨first, _, hroot, _⟩ := h.exists_word
  have hchild : t.Child root first := .inl ⟨w, by simp [hroot]⟩
  exact hchild.parent_lt

/-- A node is the same parameter in both trees; the roots are none. -/
theorem parameter?_eq (h : Renames w w' t t') (i : NodeIndex) :
    (t.node i).parameter? = (t'.node i).parameter? := by
  by_cases hi : i = root
  · obtain ⟨_, _, hroot, hroot'⟩ := h.exists_word
    rw [hi, hroot, hroot']
    rfl
  · exact (h.node i hi).parameter?_eq

/-- So the same parameters stand at the same nodes. -/
theorem parametersAt_eq (h : Renames w w' t t') (ids : List NodeIndex) :
    t.parametersAt ids = t'.parametersAt ids := by
  simp only [parametersAt, h.parameter?_eq]

/-- Below the roots the nodes have the same flags. -/
theorem flagsOf_eq (h : Renames w w' t t') (hi : i ≠ root) : t.flagsOf i = t'.flagsOf i := by
  rw [flagsOf, flagsOf, (h.node i hi).flags_eq, h.parametersAt_eq]

theorem argumentsOf_eq (h : Renames w w' t t') (hi : i ≠ root) :
    t.argumentsOf i = t'.argumentsOf i := by
  rw [argumentsOf, argumentsOf, (h.node i hi).arguments_eq, h.parametersAt_eq]

/-- A flag is found by the same long name. -/
theorem flagNamed?_eq (h : Renames w w' t t') (hi : i ≠ root) (longName : String) :
    t.flagNamed? i longName = t'.flagNamed? i longName := by
  rw [flagNamed?, flagNamed?, h.flagsOf_eq hi]

theorem flagShort?_eq (h : Renames w w' t t') (hi : i ≠ root) (ch : Char) :
    t.flagShort? i ch = t'.flagShort? i ch := by
  rw [flagShort?, flagShort?, h.flagsOf_eq hi]

/-! ## Changing -/

/-- The same change of one node in both trees. -/
theorem modifyNode (h : Renames w w' t t') (hi : i ≠ root)
    {g g' : Tree.Node α σ → Tree.Node α σ} (hg : ∀ n n', n.Renames n' → (g n).Renames (g' n'))
    (hchild : ∀ n j, (g n).Lists j → n.Lists j ∨ j ≠ root) :
    Renames w w' (t.modifyNode i g) (t'.modifyNode i g') where
  settings_eq := h.settings_eq
  size_eq := by rw [size_modifyNode, size_modifyNode, h.size_eq]
  exists_word := by
    rw [node_modifyNode_of_ne hi.symm, node_modifyNode_of_ne hi.symm]
    exact h.exists_word
  node j hj := by
    rw [node_modifyNode, node_modifyNode, ← h.size_eq]
    split
    · exact hg _ _ (h.node j hj)
    · exact h.node j hj
  ne_root j l hj hl := by
    have hl' : ((t.modifyNode i g).node j).Lists l := hl
    rw [node_modifyNode] at hl'
    split at hl'
    · exact (hchild _ l hl').elim (h.ne_root j l hj) id
    · exact h.ne_root j l hj hl'

/-- The same new node without children in both trees. -/
theorem pushNode (h : Renames w w' t t') (label : Tree.Label α) (permission : Permission α) :
    Renames w w' (t.pushNode { label, permission }) (t'.pushNode { label, permission }) where
  settings_eq := h.settings_eq
  size_eq := by rw [size_pushNode, size_pushNode, h.size_eq]
  exists_word := by
    have hroot : (t.pushNode { label, permission }).node root = t.node root :=
      node_pushNode_of_ne _ (Nat.ne_of_lt h.size_pos)
    have hroot' : (t'.pushNode { label, permission }).node root = t'.node root :=
      node_pushNode_of_ne _ (Nat.ne_of_lt (h.size_eq ▸ h.size_pos))
    rw [hroot, hroot']
    exact h.exists_word
  node j hj := by
    by_cases hnew : j = t.nodes.size
    · have hnew' : j = t'.nodes.size := hnew.trans h.size_eq
      have hleft : (t.pushNode { label, permission }).node j = { label, permission } :=
        hnew ▸ node_pushNode_size t _
      have hright : (t'.pushNode { label, permission }).node j = { label, permission } :=
        hnew' ▸ node_pushNode_size t' _
      rw [hleft, hright]
      exact ⟨rfl, rfl, rfl, rfl, rfl, rfl, .none⟩
    · rw [node_pushNode_of_ne _ hnew, node_pushNode_of_ne _ (h.size_eq ▸ hnew)]
      exact h.node j hj
  ne_root j l hj hl := by
    by_cases hnew : j = t.nodes.size
    · subst hnew
      simp [Child] at hl
    · rw [Child, node_pushNode_of_ne _ hnew] at hl
      exact h.ne_root j l hj hl

theorem size_ne_root (h : Renames w w' t t') : t.nodes.size ≠ root := Nat.ne_of_gt h.size_pos

/-- The same node may be opened in both trees. -/
theorem joinPermission (h : Renames w w' t t') (hi : i ≠ root) (permission : Permission α) :
    Renames w w' (t.joinPermission i permission) (t'.joinPermission i permission) :=
  h.modifyNode hi
    (fun _ _ hn => { hn with permission_eq := congrArg (·.or permission) hn.permission_eq })
    fun _ _ hj => .inl hj

/-- The same word may be added below it. -/
theorem addLiteral (h : Renames w w' t t') (hi : i ≠ root) (v : String)
    (permission : Permission α) :
    Renames w w' (t.addLiteral i v permission) (t'.addLiteral i v permission) := by
  unfold Tree.addLiteral
  rw [← h.size_eq]
  refine (h.pushNode (.literal v) permission).modifyNode hi
    (fun n n' hn => { hn with literals_eq := congrArg (· ++ _) hn.literals_eq }) ?_
  rintro n j (⟨u, hj⟩ | hj)
  · rcases List.mem_append.mp hj with hj | hj
    · exact .inl (.inl ⟨u, hj⟩)
    · obtain ⟨rfl, rfl⟩ := Prod.mk.inj (List.mem_singleton.mp hj)
      exact .inr h.size_ne_root
  · exact .inl (.inr hj)

/-- A node becomes a flag child of another one in both trees. -/
theorem listFlag (h : Renames w w' t t') (hi : i ≠ root) (hj : j ≠ root) :
    Renames w w' (t.modifyNode i fun n => { n with flags := n.flags ++ [j] })
      (t'.modifyNode i fun n => { n with flags := n.flags ++ [j] }) := by
  refine h.modifyNode hi
    (fun n n' hn => { hn with flags_eq := congrArg (· ++ [j]) hn.flags_eq }) ?_
  rintro n l (hl | hl | hl)
  · exact .inl (.inl hl)
  · rcases List.mem_append.mp hl with hl | hl
    · exact .inl (.inr (.inl hl))
    · exact .inr (List.mem_singleton.mp hl ▸ hj)
  · exact .inl (.inr (.inr hl))

theorem addFlag (h : Renames w w' t t') (hi : i ≠ root) (p : Parameter α) :
    Renames w w' (t.addFlag i p) (t'.addFlag i p) := by
  unfold Tree.addFlag
  rw [← h.size_eq]
  exact (h.pushNode (.parameter p) p.permission).listFlag hi h.size_ne_root

theorem addArgument (h : Renames w w' t t') (hi : i ≠ root) (p : Parameter α) :
    Renames w w' (t.addArgument i p) (t'.addArgument i p) := by
  unfold Tree.addArgument
  rw [← h.size_eq, ← h.argumentsOf_eq hi]
  refine (h.pushNode (.parameter p) p.permission).modifyNode hi
    (fun n n' hn => { hn with arguments_eq := rfl }) ?_
  rintro n j (hj | hj | hj)
  · exact .inl (.inl hj)
  · exact .inl (.inr (.inl hj))
  · have hplaced := (placeArgument_perm p t.nodes.size (t.argumentsOf i)).mem_iff.mp hj
    rcases List.mem_cons.mp hplaced with rfl | hold
    · exact .inr h.size_ne_root
    · obtain ⟨child, hchild, rfl⟩ := List.mem_map.mp hold
      exact .inr (h.ne_root i child.1 hi (child_of_mem_argumentsOf hchild))

/-- The same flag may be listed once more. -/
theorem shareFlag (h : Renames w w' t t') (hi : i ≠ root) (hj : j ≠ root) :
    Renames w w' (t.shareFlag j i) (t'.shareFlag j i) := by
  unfold Tree.shareFlag
  rw [← h.parameter?_eq j]
  cases (t.node j).parameter? with
  | none => exact h
  | some p =>
    simp only [← h.flagNamed?_eq hi]
    split
    · exact h
    · exact h.listFlag hi hj

theorem shareFlags (h : Renames w w' t t') {earlier : List NodeIndex}
    (hearlier : ∀ e ∈ earlier, e ≠ root) (hj : j ≠ root) :
    Renames w w' (earlier.foldl (Tree.shareFlag j) t) (earlier.foldl (Tree.shareFlag j) t') := by
  induction earlier generalizing t t' with
  | nil => exact h
  | cons e earlier ih =>
    exact ih (h.shareFlag (hearlier e List.mem_cons_self) hj)
      fun e' he' => hearlier e' (List.mem_cons_of_mem e he')

/-- The node may get a command under its name in each tree. -/
theorem bindCommand (h : Renames w w' t t') (hi : i ≠ root) (hc : c.Renames c') :
    Renames w w' (t.bindCommand i c) (t'.bindCommand i c') := by
  have haction : c'.action = c.action := by rw [hc]
  refine h.modifyNode hi ?_ ?_
  · intro n n' hn
    rw [← hn.isNone_command, haction]
    split
    · exact { hn with command := .some hc }
    · exact hn
  · intro n j hj
    split at hj <;> exact .inl hj

end Renames

/-! ## Growth in step -/

/-- How a step of growth ends on each of two trees: with one answer that is as `Q` says, or with one
refusal. The trees that it leaves have the same below their words again. -/
inductive Coincide {β : Type} (w w' : String) (Q : β → Prop) :
    EStateM.Result Refusal (Tree α σ) β → EStateM.Result Refusal (Tree α σ) β → Prop
  | ok {b u u'} : Renames w w' u u' → Q b → Coincide w w' Q (.ok b u) (.ok b u')
  | error {e u u'} : Renames w w' u u' → Coincide w w' Q (.error e u) (.error e u')

/-- Two growths do the same on trees that have the same below their words. -/
def InStep {β : Type} (w w' : String) (Q : β → Prop) (g g' : Growth α σ β) : Prop :=
  ∀ t t', Renames w w' t t' → Coincide w w' Q (g t) (g' t')

section

variable {β γ : Type} {Q : β → Prop} {R : γ → Prop} {g g' : Growth α σ β}
  {k k' : β → Growth α σ γ}

theorem inStep_pure {b : β} (hb : Q b) : InStep w w' Q (pure b : Growth α σ β) (pure b) :=
  fun _ _ h => .ok h hb

/-- Growths in step compose. -/
theorem InStep.bind (hg : InStep w w' Q g g') (hk : ∀ b, Q b → InStep w w' R (k b) (k' b)) :
    InStep w w' R (g >>= k) (g' >>= k') := by
  intro t t' h
  have hends := hg t t' h
  rw [Growth.bind_apply, Growth.bind_apply]
  generalize g t = r at hends
  generalize g' t' = r' at hends
  cases hends with
  | ok hu hb => exact hk _ hb _ _ hu
  | error hu => exact .error hu

/-- Wherever two growths in step stop, they leave trees that have the same below their words. -/
theorem Coincide.after {t t' : Tree α σ} (h : Coincide w w' Q (g t) (g' t')) :
    Renames w w' (g.after t) (g'.after t') := by
  unfold Growth.after
  generalize g t = r at h
  generalize g' t' = r' at h
  cases h with
  | ok hu _ | error hu => exact hu

end

/-- An answer that is a node below the root. -/
def Inner (i : NodeIndex) : Prop := i ≠ root

/-- A change that keeps the trees related is made in step. -/
theorem inStep_modify {f f' : Tree α σ → Tree α σ}
    (h : ∀ {t t'}, Renames w w' t t' → Renames w w' (f t) (f' t')) :
    InStep w w' (fun _ => True) (modify f : Growth α σ PUnit) (modify f') :=
  fun _ _ ht => .ok (h ht) trivial

/-! ### Children -/

/-- A word below the first one is found, added or refused in both trees. -/
theorem inStep_ensureLiteral (hi : Inner i) (v : String) (permission : Permission α) :
    InStep w w' Inner (ensureLiteral i v permission : Growth α σ NodeIndex)
      (ensureLiteral i v permission) := by
  intro t t' h
  unfold ensureLiteral
  rw [← (h.node i hi).literal?_eq, ← h.argumentsOf_eq hi, ← h.size_eq]
  cases hfind : (t.node i).literal? v with
  | some existing =>
    have hexisting := h.ne_root i existing hi (.inl ⟨v, Node.mem_literals_of_literal? hfind⟩)
    exact .ok (h.joinPermission hexisting permission) hexisting
  | none =>
    simp only
    split
    · exact .error h
    · exact .ok (h.addLiteral hi v permission) h.size_ne_root

theorem inStep_ensureFlag (hi : Inner i) (p : Parameter α) :
    InStep w w' Inner (ensureFlag i p : Growth α σ NodeIndex) (ensureFlag i p) := by
  intro t t' h
  unfold ensureFlag
  rw [← h.flagNamed?_eq hi, ← h.size_eq]
  cases hfind : t.flagNamed? i p.longName with
  | some found =>
    obtain ⟨existing, q⟩ := found
    have hexisting :=
      h.ne_root i existing hi (child_of_mem_flagsOf (of_flagNamed?_eq_some hfind).1)
    simp only
    split
    · exact .ok (h.joinPermission hexisting p.permission) hexisting
    · exact .error h
  | none => exact .ok (h.addFlag hi p) h.size_ne_root

theorem inStep_ensureArgument (hi : Inner i) (p : Parameter α) :
    InStep w w' Inner (ensureArgument i p : Growth α σ NodeIndex) (ensureArgument i p) := by
  intro t t' h
  unfold ensureArgument
  rw [← (h.node i hi).literal?_eq, ← h.argumentsOf_eq hi, ← h.size_eq]
  split
  · exact .error h
  · simp only
    cases hfind : (t.argumentsOf i).find? fun child =>
        child.2.name = p.name && child.2.interchangeable p with
    | some found =>
      obtain ⟨existing, q⟩ := found
      have hexisting :=
        h.ne_root i existing hi (child_of_mem_argumentsOf (List.mem_of_find?_eq_some hfind))
      exact .ok (h.joinPermission hexisting p.permission) hexisting
    | none => exact .ok (h.addArgument hi p) h.size_ne_root

/-- A parameter of either form is found, added or refused in both trees. -/
theorem inStep_ensureParameter (hi : Inner i) (p : Parameter α) :
    InStep w w' Inner (ensureParameter i p : Growth α σ NodeIndex) (ensureParameter i p) := by
  unfold ensureParameter
  split
  · exact inStep_ensureFlag hi p
  · exact inStep_ensureArgument hi p

/-- So a step of a path is taken in both trees or in none: its permission is that of both commands.
-/
theorem inStep_ensureStep (hc : c.Renames c') (hi : Inner i) (step : Step α) :
    InStep w w' Inner (ensureStep c i step) (ensureStep c' i step) := by
  cases step with
  | literal v =>
    have hpermission : c'.permission = c.permission := by rw [hc]
    rw [ensureStep, ensureStep, hpermission]
    exact inStep_ensureLiteral hi v c.permission
  | parameter p => exact inStep_ensureParameter hi p

/-! ### The flag section -/

/-- Each tree gets the command under its own name. -/
theorem inStep_markEnd (hc : c.Renames c') (hi : Inner i) :
    InStep w w' (fun _ => True) (markEnd c i) (markEnd c' i) :=
  inStep_modify fun h => h.bindCommand hi hc

/-- Both wait for the same flags before that. -/
theorem inStep_markEndBefore (hc : c.Renames c') (hi : Inner i) (left : List (Parameter α)) :
    InStep w w' (fun _ => True) (markEndBefore c i left) (markEndBefore c' i left) := by
  unfold markEndBefore
  split
  · exact inStep_markEnd hc hi
  · exact inStep_pure trivial

/-- A row of flags ends at the same node. -/
theorem inStep_growRow (hi : Inner i) (ps : List (Parameter α)) :
    InStep w w' Inner (growRow i ps : Growth α σ NodeIndex) (growRow i ps) := by
  induction ps generalizing i with
  | nil => exact inStep_pure hi
  | cons p ps ih => exact (inStep_ensureParameter hi p).bind fun _ hchild => ih hchild

/-- One order of flags is grown in step. -/
theorem inStep_growOrder (hc : c.Renames c') (hi : Inner i) (ps : List (Parameter α)) :
    InStep w w' (fun _ => True) (growOrder c i ps) (growOrder c' i ps) := by
  induction ps generalizing i with
  | nil => exact inStep_markEnd hc hi
  | cons p ps ih =>
    refine (inStep_markEndBefore hc hi (p :: ps)).bind fun _ _ => ?_
    exact (inStep_ensureParameter hi p).bind fun _ hchild => ih hchild

theorem inStep_growOrders (hc : c.Renames c') (hi : Inner i) (orders : List (List (Parameter α))) :
    InStep w w' (fun _ => True) (growOrders c i orders) (growOrders c' i orders) := by
  induction orders with
  | nil => exact inStep_pure trivial
  | cons order orders ih => exact (inStep_growOrder hc hi order).bind fun _ _ => ih

/-- A chain is grown in step: the same nodes are shared. -/
theorem inStep_growChain (hc : c.Renames c') (hi : Inner i) {earlier : List NodeIndex}
    (hearlier : ∀ e ∈ earlier, Inner e) (ps : List (Parameter α)) :
    InStep w w' (fun _ => True) (growChain c i earlier ps) (growChain c' i earlier ps) := by
  induction ps generalizing earlier with
  | nil => exact inStep_pure trivial
  | cons p ps ih =>
    refine (inStep_ensureParameter hi p).bind fun child hchild => ?_
    refine (inStep_markEnd hc hchild).bind fun _ _ => ?_
    refine (inStep_modify fun h => h.shareFlags hearlier hchild).bind fun _ _ => ih ?_
    intro e he
    rcases List.mem_append.mp he with he | he
    · exact hearlier e he
    · exact List.mem_singleton.mp he ▸ hchild

/-- So is the flag section, in either layout. -/
theorem inStep_growFlags (hc : c.Renames c') (hi : Inner i) (plan : FlagPlan α) :
    InStep w w' (fun _ => True) (growFlags c i plan) (growFlags c' i plan) := by
  cases plan with
  | orders paths => exact inStep_growOrders hc hi paths
  | chain required optionals =>
    refine (inStep_growRow hi required).bind fun base hbase => ?_
    refine (inStep_markEnd hc hbase).bind fun _ _ => ?_
    exact inStep_growChain hc hbase (by simp) optionals

/-- And wherever it may begin before the steps that are left. -/
theorem inStep_growFlagsBefore (hc : c.Renames c') (hi : Inner i) (plan : FlagPlan α)
    (left : List (Step α)) :
    InStep w w' (fun _ => True) (growFlagsBefore c i plan left)
      (growFlagsBefore c' i plan left) := by
  unfold growFlagsBefore
  split
  · exact inStep_growFlags hc hi plan
  · exact inStep_pure trivial

/-! ### Commands -/

/-- So is a path, by induction on its steps. -/
theorem inStep_growPath (hc : c.Renames c') (hi : Inner i) (plan : FlagPlan α)
    (steps : List (Step α)) :
    InStep w w' (fun _ => True) (growPath c plan i steps) (growPath c' plan i steps) := by
  induction steps generalizing i with
  | nil => exact inStep_growFlags hc hi plan
  | cons step steps ih =>
    refine (inStep_growFlagsBefore hc hi plan (step :: steps)).bind fun _ _ => ?_
    exact (inStep_ensureStep hc hi step).bind fun _ hchild => ih hchild

/-- An empty tree with a word at its root. -/
theorem renames_addLiteral (s : Settings) (w w' : String) (permission : Permission α) :
    Renames w w' ((empty s : Tree α σ).addLiteral root w permission)
      ((empty s).addLiteral root w' permission) := by
  have hnode (v : String) (i : NodeIndex) :
      ((empty s : Tree α σ).addLiteral root v permission).node i =
        if i = root then { label := .root, literals := [(v, 1)] }
        else if i = 1 then { label := .literal v, permission }
        else { label := .root } := by
    match i with
    | 0 => rfl
    | 1 => rfl
    | i + 2 => rfl
  exact
    { settings_eq := rfl
      size_eq := rfl
      exists_word := ⟨1, by decide, hnode w 0, hnode w' 0⟩
      node := by
        intro i hi
        rw [hnode, hnode, if_neg hi, if_neg hi]
        split <;> exact ⟨rfl, rfl, rfl, rfl, rfl, rfl, .none⟩
      ne_root := by
        intro i j hi hj
        rw [Child, hnode, if_neg hi] at hj
        split at hj <;> simp at hj }

/-- A command inserted alone under two names makes two trees that have the same below them. -/
theorem renames_insert (s : Settings) (hc : c.Renames c') :
    Renames c.name c'.name ((insert c).after (empty s)) ((insert c').after (empty s)) := by
  have hfields : c'.permission = c.permission ∧ c'.flags = c.flags ∧ c'.path = c.path := by
    rw [hc]
    exact ⟨rfl, rfl, rfl⟩
  obtain ⟨hpermission, hflags, hpath⟩ := hfields
  let plan : FlagPlan α := .ofFlags s.threshold c.flags
  have hrun (c : Command α σ) : insert c (empty s) =
      (growPath c (.ofFlags s.threshold c.flags) 1 c.path >>= fun _ =>
        modify fun t => { t with commands := t.commands.push c })
          ((empty s).addLiteral root c.name c.permission) := rfl
  have hsteps : InStep c.name c'.name (fun _ => True)
      (growPath c plan 1 c.path >>= fun _ =>
        modify fun t => { t with commands := t.commands.push c })
      (growPath c' plan 1 c.path >>= fun _ =>
        modify fun t => { t with commands := t.commands.push c' }) :=
    (inStep_growPath hc (Nat.one_ne_zero : Inner 1) plan c.path).bind fun _ _ =>
      inStep_modify fun h => ⟨h.settings_eq, h.size_eq, h.exists_word, h.node, h.ne_root⟩
  apply Coincide.after (Q := fun _ => True)
  rw [hrun, hrun, hpermission, hflags, hpath]
  exact hsteps _ _ (renames_addLiteral s c.name c'.name c.permission)

end Tree

end CommandLine
