import CommandLine.Proofs.Tree.Changes

/-!
# Recorded growth

Growth attaches the steps of a command one by one: each at a node that is made for it or that was
there already and is opened to whom the step is open. A **recorded** growth does the same and keeps
a record of what it attached where. What was recorded before a refusal stays recorded, as the nodes
stay in the tree.

A record **tallies** with a tree if every node but the root is open to exactly those to whom some
step attached at it is open. Attaching keeps the tally, and everything else that growth does leaves
permissions alone.

* `Follows` — a recorded growth does what the growth does, and its record goes on tallying;
* `follows_insert`, `follows_register` — so it is with whole commands and declarations.
-/

set_option autoImplicit false

namespace CommandLine

variable {α σ : Type}

/-- A step of a command, attached at a node. -/
structure Attachment (α σ : Type) where
  node : NodeIndex
  command : Command α σ
  step : Step α

/-- Whom an attachment lets in: at a word whom the command allows, at a parameter whom that one
allows. -/
def Attachment.permission (a : Attachment α σ) : Permission α :=
  match a.step with
  | .literal _ => a.command.permission
  | .parameter p => p.permission

/-- An attachment of a command, at one of its steps. -/
def Command.Attaches (c : Command α σ) (a : Attachment α σ) : Prop :=
  a.command = c ∧ a.step ∈ c.steps

/-- A growth that keeps a record of its attachments, also where it is refused. -/
abbrev Recorded (α σ : Type) := EStateM Refusal (Tree α σ × List (Attachment α σ))

namespace Recorded

open CommandLine.Tree

variable {β : Type}

/-- A growth that attaches nothing. -/
def plain (g : Growth α σ β) : Recorded α σ β := fun (t, record) =>
  match g t with
  | .ok b t' => .ok b (t', record)
  | .error e t' => .error e (t', record)

/-- Attaches a step of a command below a node and records where. -/
def attach (c : Command α σ) (parent : NodeIndex) (step : Step α) : Recorded α σ NodeIndex :=
  fun (t, record) =>
    match Growth.ensureStep c parent step t with
    | .ok child t' => .ok child (t', record ++ [⟨child, c, step⟩])
    | .error e t' => .error e (t', record)

/-- Attaches flags one below the other and answers the last node. -/
def growRow (c : Command α σ) (parent : NodeIndex) : List (Parameter α) → Recorded α σ NodeIndex
  | [] => pure parent
  | p :: ps => do
    let child ← attach c parent (.parameter p)
    growRow c child ps

/-- Attaches one order of the flags. -/
def growOrder (c : Command α σ) (parent : NodeIndex) : List (Parameter α) → Recorded α σ Unit
  | [] => plain (Growth.markEnd c parent)
  | p :: ps => do
    plain (Growth.markEndBefore c parent (p :: ps))
    let child ← attach c parent (.parameter p)
    growOrder c child ps

/-- Attaches several orders of the flags, one after the other. -/
def growOrders (c : Command α σ) (parent : NodeIndex) :
    List (List (Parameter α)) → Recorded α σ Unit
  | [] => pure ()
  | order :: orders => do
    growOrder c parent order
    growOrders c parent orders

/-- Attaches the optional flags of a chain. A link from an earlier flag attaches nothing. -/
def growChain (c : Command α σ) (base : NodeIndex) (earlier : List NodeIndex) :
    List (Parameter α) → Recorded α σ Unit
  | [] => pure ()
  | p :: ps => do
    let child ← attach c base (.parameter p)
    plain (Growth.markEnd c child)
    plain (modify fun t => earlier.foldl (shareFlag child) t)
    growChain c base (earlier ++ [child]) ps

/-- Attaches the flag section of a command below a node. -/
def growFlags (c : Command α σ) (parent : NodeIndex) : FlagPlan α → Recorded α σ Unit
  | .orders paths => growOrders c parent paths
  | .chain required optionals => do
    let base ← growRow c parent required
    plain (Growth.markEnd c base)
    growChain c base [] optionals

/-- Attaches the flag section where only optional arguments are left. -/
def growFlagsBefore (c : Command α σ) (parent : NodeIndex) (plan : FlagPlan α)
    (left : List (Step α)) : Recorded α σ Unit :=
  if left.all Step.isOptional then growFlags c parent plan else pure ()

/-- Attaches the steps after the first word. -/
def growPath (c : Command α σ) (plan : FlagPlan α) (parent : NodeIndex) :
    List (Step α) → Recorded α σ Unit
  | [] => growFlags c parent plan
  | step :: steps => do
    growFlagsBefore c parent plan (step :: steps)
    let child ← attach c parent step
    growPath c plan child steps

/-- Attaches a command below the root. -/
def growCommand (c : Command α σ) : Recorded α σ Unit := do
  let plan := FlagPlan.ofFlags (← plain get).settings.threshold c.flags
  let first ← attach c root (.literal c.name)
  growPath c plan first c.path

/-- Inserts one command path. -/
def insert (c : Command α σ) : Recorded α σ Unit := do
  growCommand c
  plain (modify fun t => { t with commands := t.commands.push c })

/-- Inserts commands in order until one is refused. -/
def insertAll : List (Command α σ) → Recorded α σ Unit
  | [] => pure ()
  | c :: cs => do
    insert c
    insertAll cs

/-- Builds a declaration and inserts it under every one of its names. -/
def register (d : Declaration α σ) : Recorded α σ Nat := do
  let id := (← plain get).nextId
  match d.build id with
  | .error e => throw e
  | .ok commands =>
    plain (modify fun t => { t with nextId := t.nextId + 1 })
    insertAll commands
    pure id

/-- The tree and the record that a growth leaves, whether it is refused or not. -/
def after (r : Recorded α σ β) (s : Tree α σ × List (Attachment α σ)) :
    Tree α σ × List (Attachment α σ) :=
  match r s with
  | .ok _ s' => s'
  | .error _ s' => s'

/-- The tree and the record after some insertions, each of which may be refused. -/
def insertEach (cs : List (Command α σ)) (s : Tree α σ × List (Attachment α σ)) :
    Tree α σ × List (Attachment α σ) :=
  cs.foldl (fun s c => (insert c).after s) s

/-- A recorded growth goes on only after one that was not refused. -/
theorem bind_apply {γ : Type} (r : Recorded α σ β) (f : β → Recorded α σ γ)
    (s : Tree α σ × List (Attachment α σ)) :
    (r >>= f) s =
      match r s with
      | .ok b s' => f b s'
      | .error e s' => .error e s' := by
  have hbind : (r >>= f) s = EStateM.bind r f s := rfl
  rw [hbind, EStateM.bind]
  cases r s <;> rfl

end Recorded

/-! ## Records that tally with a tree -/

/-- A node may stand for a step of a command. -/
def Tree.Label.Fits : Tree.Label α → Step α → Prop
  | .root, _ => False
  | .literal w, step => (Step.literal w).Fits step
  | .parameter q, step => (Step.parameter q).Fits step

namespace Tree

variable {t t' : Tree α σ} {i j : NodeIndex} {record : List (Attachment α σ)} {a : Attachment α σ}

/-- A record accounts for a tree: its nodes stand for what was attached at them, and each of them
but the root is open to exactly those whom an attachment lets in. -/
structure Tallies (t : Tree α σ) (record : List (Attachment α σ)) : Prop where
  word : ∀ i w j, (w, j) ∈ (t.node i).literals → (t.node j).label = .literal w
  attached : ∀ a ∈ record, (t.node a.node).label.Fits a.step
  allows_iff : ∀ i < t.nodes.size, i ≠ root → ∀ principal,
    (t.node i).permission.allows principal = true ↔
      ∃ a ∈ record, a.node = i ∧ a.permission.allows principal = true

/-- Nothing was attached in an empty tree. -/
theorem tallies_empty (s : Settings) : (empty s : Tree α σ).Tallies [] where
  word i w j hj := by
    rcases Nat.eq_zero_or_pos i with rfl | hi
    · cases hj
    · rw [node_of_size_le (Nat.succ_le_of_lt hi)] at hj
      cases hj
  attached _ ha := by cases ha
  allows_iff i hi hne := (hne (Nat.lt_one_iff.mp hi)).elim

/-- Only a node of the tree stands for a step. -/
theorem lt_of_fits {step : Step α} (h : (t.node i).label.Fits step) : i < t.nodes.size := by
  apply lt_of_label_ne_root
  intro hroot
  rw [hroot] at h
  exact h

/-- Commands, hooks and identities do not matter. -/
theorem Tallies.congr (h : t.Tallies record) (hnodes : t'.nodes = t.nodes) :
    t'.Tallies record := by
  have hnode (i : NodeIndex) : t'.node i = t.node i := by simp only [node, hnodes]
  refine ⟨?_, ?_, ?_⟩
  · intro i w j hj
    rw [hnode] at hj ⊢
    exact h.word i w j hj
  · intro a ha
    rw [hnode]
    exact h.attached a ha
  · intro i hi hne principal
    rw [hnode]
    exact h.allows_iff i (hnodes ▸ hi) hne principal

/-- A change of other things at a node keeps the tally. -/
theorem Tallies.modifyNode {f : Tree.Node α σ → Tree.Node α σ} (h : t.Tallies record)
    (hlabel : ∀ n, (f n).label = n.label) (hpermission : ∀ n, (f n).permission = n.permission)
    (hliterals : ∀ n, (f n).literals = n.literals) (i : NodeIndex) :
    (t.modifyNode i f).Tallies record where
  word k w j hj := by
    rw [label_modifyNode hlabel]
    rw [node_modifyNode] at hj
    split at hj
    · rw [hliterals] at hj
      exact h.word k w j hj
    · exact h.word k w j hj
  attached a ha := by
    rw [label_modifyNode hlabel]
    exact h.attached a ha
  allows_iff k hk hne principal := by
    rw [size_modifyNode] at hk
    have hsame : ((t.modifyNode i f).node k).permission = (t.node k).permission := by
      rw [node_modifyNode]
      split
      · exact hpermission _
      · rfl
    rw [hsame]
    exact h.allows_iff k hk hne principal

/-- Opening a node does not change what it stands for. -/
theorem label_joinPermission (t : Tree α σ) (i j : NodeIndex) (permission : Permission α) :
    ((t.joinPermission i permission).node j).label = (t.node j).label :=
  label_modifyNode (f := fun n => { n with permission := n.permission.or permission })
    (fun _ => rfl) t i j

/-- Opening a node goes with a record of the attachment. -/
theorem Tallies.joinPermission (h : t.Tallies record) (ha : (t.node a.node).label.Fits a.step) :
    (t.joinPermission a.node a.permission).Tallies (record ++ [a]) where
  word k w j hj := by
    rw [label_joinPermission]
    rw [Tree.joinPermission, node_modifyNode] at hj
    split at hj <;> exact h.word k w j hj
  attached b hb := by
    rw [label_joinPermission]
    rcases List.mem_append.mp hb with hb | hb
    · exact h.attached b hb
    · exact List.mem_singleton.mp hb ▸ ha
  allows_iff k hk hne principal := by
    rw [Tree.joinPermission, size_modifyNode] at hk
    rw [Tree.joinPermission, node_modifyNode]
    by_cases hsame : k = a.node
    · subst hsame
      rw [if_pos ⟨rfl, hk⟩, Permission.allows_or, Bool.or_eq_true,
        h.allows_iff _ hk hne principal]
      simp
    · rw [if_neg fun hboth => hsame hboth.1, h.allows_iff k hk hne principal]
      simp [Ne.symm hsame]

/-- A new node goes with a record of the attachment for which it was made. -/
theorem Tallies.pushNode {f : Tree.Node α σ → Tree.Node α σ} (h : t.Tallies record)
    (label : Label α) (parent : NodeIndex) (hnode : a.node = t.nodes.size)
    (hfits : label.Fits a.step) (hlabel : ∀ n, (f n).label = n.label)
    (hpermission : ∀ n, (f n).permission = n.permission)
    (hliterals : ∀ n w j, (w, j) ∈ (f n).literals →
      (w, j) ∈ n.literals ∨ j = t.nodes.size ∧ label = .literal w) :
    ((t.pushNode { label, permission := a.permission }).modifyNode parent f).Tallies
      (record ++ [a]) where
  word k w j hj := by
    rw [label_modifyNode hlabel]
    have hcases : (w, j) ∈ ((t.pushNode { label, permission := a.permission }).node k).literals ∨
        j = t.nodes.size ∧ label = .literal w := by
      rw [node_modifyNode] at hj
      split at hj
      · exact hliterals _ w j hj
      · exact .inl hj
    rcases hcases with hj | ⟨rfl, hword⟩
    · by_cases hk : k = t.nodes.size
      · subst hk
        rw [node_pushNode_size] at hj
        cases hj
      · rw [node_pushNode_of_ne _ hk] at hj
        have hold := h.word k w j hj
        have hlt : j < t.nodes.size := lt_of_label_ne_root (by rw [hold]; nofun)
        rw [node_pushNode_of_ne _ (Nat.ne_of_lt hlt)]
        exact hold
    · rw [node_pushNode_size]
      exact hword
  attached b hb := by
    rw [label_modifyNode hlabel]
    rcases List.mem_append.mp hb with hb | hb
    · have hlt := lt_of_fits (h.attached b hb)
      rw [node_pushNode_of_ne _ (Nat.ne_of_lt hlt)]
      exact h.attached b hb
    · rw [List.mem_singleton.mp hb, hnode, node_pushNode_size]
      exact hfits
  allows_iff k hk hne principal := by
    rw [size_modifyNode, size_pushNode] at hk
    have hsame (n : Tree.Node α σ)
        (hn : (t.pushNode { label, permission := a.permission }).node k = n) :
        (((t.pushNode { label, permission := a.permission }).modifyNode parent f).node
          k).permission = n.permission := by
      rw [node_modifyNode, hn]
      split
      · exact hpermission n
      · rfl
    -- Nothing in the record is about the new node, so only the new attachment lets anyone in there.
    by_cases hnew : k = t.nodes.size
    · subst hnew
      rw [hsame _ (node_pushNode_size t _)]
      have hold (b : Attachment α σ) (hb : b ∈ record) : b.node ≠ t.nodes.size :=
        Nat.ne_of_lt (lt_of_fits (h.attached b hb))
      constructor
      · intro hallows
        exact ⟨a, List.mem_append_right _ List.mem_cons_self, hnode, hallows⟩
      · rintro ⟨b, hb, hat, hallows⟩
        rcases List.mem_append.mp hb with hb | hb
        · exact (hold b hb hat).elim
        · exact List.mem_singleton.mp hb ▸ hallows
    · rw [hsame _ (node_pushNode_of_ne _ hnew), h.allows_iff k (by omega) hne principal]
      have hother : a.node ≠ k := by
        rw [hnode]
        exact Ne.symm hnew
      simp [hother]

end Tree

/-! ## Growth and its record -/

namespace Growth

open CommandLine.Tree CommandLine.Recorded

variable {β γ : Type} {P Q : Attachment α σ → Prop} {c : Command α σ}

/-- A recorded growth does what a growth does. The new attachments in its record have a certain
property, and with them the record goes on tallying. -/
def Follows (P : Attachment α σ → Prop) (r : Recorded α σ β) (g : Growth α σ β) : Prop :=
  ∀ t record, t.Tallies record → ∃ new, (∀ a ∈ new, P a) ∧ (g.after t).Tallies (record ++ new) ∧
    r (t, record) = plain g (t, record ++ new)

/-- A growth that attaches nothing keeps the record as it is. -/
theorem follows_plain {g : Growth α σ β}
    (h : ∀ t record, t.Tallies record → (g.after t).Tallies record) : Follows P (plain g) g := by
  intro t record htallies
  refine ⟨[], by simp, ?_, ?_⟩
  · rw [List.append_nil]
    exact h t record htallies
  · rw [List.append_nil]

theorem follows_pure (b : β) : Follows P (pure b) (pure b : Growth α σ β) := by
  intro t record htallies
  refine ⟨[], by simp, ?_, ?_⟩ <;> rw [List.append_nil]
  · exact htallies
  · rfl

/-- A change that keeps the tally needs no record. -/
theorem follows_modify {f : Tree α σ → Tree α σ}
    (h : ∀ t record, t.Tallies record → (f t).Tallies record) :
    Follows P (plain (modify f)) (modify f) :=
  follows_plain h

/-- What is new in a record may be said less exactly. -/
theorem Follows.mono {r : Recorded α σ β} {g : Growth α σ β} (h : Follows P r g)
    (himp : ∀ a, P a → Q a) : Follows Q r g := by
  intro t record htallies
  obtain ⟨new, hnew, hrest⟩ := h t record htallies
  exact ⟨new, fun a ha => himp a (hnew a ha), hrest⟩

/-- Recorded growths compose: what the second part attaches comes behind what the first one did. -/
theorem Follows.bind {r : Recorded α σ β} {g : Growth α σ β} {r' : β → Recorded α σ γ}
    {g' : β → Growth α σ γ} (h : Follows P r g) (h' : ∀ b, Follows P (r' b) (g' b)) :
    Follows P (r >>= r') (g >>= g') := by
  intro t record htallies
  obtain ⟨new, hnew, hafter, hrun⟩ := h t record htallies
  rw [Recorded.bind_apply, hrun]
  cases hg : g t with
  | error e t₁ =>
    have hstop : (g >>= g') t = .error e t₁ := by rw [Growth.bind_apply, hg]
    simp only [Growth.after, plain, hg, hstop] at hafter ⊢
    exact ⟨new, hnew, hafter, rfl⟩
  | ok b t₁ =>
    have hgo : (g >>= g') t = g' b t₁ := by rw [Growth.bind_apply, hg]
    simp only [Growth.after, plain, hg, hgo] at hafter ⊢
    obtain ⟨new', hnew', hafter', hrun'⟩ := h' b t₁ (record ++ new) hafter
    rw [List.append_assoc] at hafter' hrun'
    refine ⟨new ++ new', ?_, hafter', hrun'⟩
    intro a ha
    exact (List.mem_append.mp ha).elim (hnew a) (hnew' a)

/-- What a recorded growth that is not refused leaves. -/
theorem Follows.of_ok {r : Recorded α σ β} {g : Growth α σ β} {t t' : Tree α σ}
    {record record' : List (Attachment α σ)} {b : β} (h : Follows P r g) (ht : t.Tallies record)
    (hrun : r (t, record) = .ok b (t', record')) :
    g t = .ok b t' ∧ t'.Tallies record' ∧ ∃ new, record' = record ++ new ∧ ∀ a ∈ new, P a := by
  obtain ⟨new, hnew, htallies, hplain⟩ := h t record ht
  rw [hplain, plain] at hrun
  unfold Growth.after at htallies
  cases hg : g t with
  | error e t₁ =>
    rw [hg] at hrun
    cases hrun
  | ok b' t₁ =>
    rw [hg] at hrun htallies
    obtain ⟨rfl, hs⟩ := EStateM.Result.ok.inj hrun
    obtain ⟨rfl, rfl⟩ := Prod.mk.inj hs
    exact ⟨rfl, htallies, new, rfl, hnew⟩

/-! ### One attachment -/

/-- A word that is found or added is open to whom its command allows. -/
theorem tallies_ensureLiteral {t t' : Tree α σ} {record : List (Attachment α σ)} {w : String}
    {i j : NodeIndex} (h : t.Tallies record)
    (hrun : ensureLiteral i w c.permission t = .ok j t') :
    t'.Tallies (record ++ [⟨j, c, .literal w⟩]) := by
  unfold ensureLiteral at hrun
  split at hrun
  · rename_i existing hfind
    obtain ⟨rfl, rfl⟩ := EStateM.Result.ok.inj hrun
    refine h.joinPermission (a := ⟨existing, c, .literal w⟩) ?_
    rw [h.word i w existing (Node.mem_literals_of_literal? hfind)]
    exact rfl
  · split at hrun
    · cases hrun
    · obtain ⟨rfl, rfl⟩ := EStateM.Result.ok.inj hrun
      refine h.pushNode (a := ⟨_, c, .literal w⟩)
        (f := fun n => { n with literals := n.literals ++ [(w, t.nodes.size)] })
        (.literal w) i rfl rfl (fun _ => rfl) (fun _ => rfl) ?_
      intro n v j hj
      rcases List.mem_append.mp hj with hj | hj
      · exact .inl hj
      · obtain ⟨rfl, rfl⟩ := Prod.mk.inj (List.mem_singleton.mp hj)
        exact .inr ⟨rfl, rfl⟩

/-- A flag that is found or added is open to whom it allows. -/
theorem tallies_ensureFlag {t t' : Tree α σ} {record : List (Attachment α σ)} {p : Parameter α}
    {i j : NodeIndex} (h : t.Tallies record) (hrun : ensureFlag i p t = .ok j t') :
    t'.Tallies (record ++ [⟨j, c, .parameter p⟩]) := by
  unfold ensureFlag at hrun
  split at hrun
  · rename_i existing q hfind
    split at hrun
    · rename_i hshape
      obtain ⟨rfl, rfl⟩ := EStateM.Result.ok.inj hrun
      obtain ⟨hmem, hlong⟩ := of_flagNamed?_eq_some hfind
      refine h.joinPermission (a := ⟨existing, c, .parameter p⟩) ?_
      rw [(mem_flagsOf.mp hmem).2]
      exact ⟨hlong, hshape⟩
    · cases hrun
  · obtain ⟨rfl, rfl⟩ := EStateM.Result.ok.inj hrun
    exact h.pushNode (a := ⟨_, c, .parameter p⟩)
      (f := fun n => { n with flags := n.flags ++ [t.nodes.size] })
      (.parameter p) i rfl (Step.Fits.refl (.parameter p)) (fun _ => rfl) (fun _ => rfl)
      fun _ _ _ hj => .inl hj

theorem tallies_ensureArgument {t t' : Tree α σ} {record : List (Attachment α σ)}
    {p : Parameter α} {i j : NodeIndex} (h : t.Tallies record) (hplace : p.isNamed = false)
    (hrun : ensureArgument i p t = .ok j t') : t'.Tallies (record ++ [⟨j, c, .parameter p⟩]) := by
  unfold ensureArgument at hrun
  split at hrun
  · cases hrun
  · simp only at hrun
    split at hrun
    · rename_i existing q hfind
      obtain ⟨rfl, rfl⟩ := EStateM.Result.ok.inj hrun
      obtain ⟨hname, hshape⟩ : q.name = p.name ∧ q.interchangeable p = true := by
        simpa using List.find?_some hfind
      refine h.joinPermission (a := ⟨existing, c, .parameter p⟩) ?_
      rw [(mem_argumentsOf.mp (List.mem_of_find?_eq_some hfind)).2]
      have hq : q.isNamed = false :=
        (Parameter.isNamed_eq_of_interchangeable hshape).trans hplace
      refine ⟨?_, hshape⟩
      rw [Parameter.longName_of_positional hq, Parameter.longName_of_positional hplace, hname]
    · obtain ⟨rfl, rfl⟩ := EStateM.Result.ok.inj hrun
      exact h.pushNode (a := ⟨_, c, .parameter p⟩)
        (f := fun n => { n with arguments := placeArgument p t.nodes.size (t.argumentsOf i) })
        (.parameter p) i rfl (Step.Fits.refl (.parameter p)) (fun _ => rfl) (fun _ => rfl)
        fun _ _ _ hj => .inl hj

/-- A refused attachment leaves the tree as it was. -/
theorem eq_of_ensureStep_error {t t' : Tree α σ} {i : NodeIndex} {step : Step α} {e : Refusal}
    (hrun : ensureStep c i step t = .error e t') : t' = t := by
  cases step with
  | literal w =>
    simp only [ensureStep, ensureLiteral] at hrun
    split at hrun
    · cases hrun
    · split at hrun
      · exact (EStateM.Result.error.inj hrun).2.symm
      · cases hrun
  | parameter p =>
    simp only [ensureStep, ensureParameter] at hrun
    split at hrun
    · unfold ensureFlag at hrun
      split at hrun
      · split at hrun
        · cases hrun
        · exact (EStateM.Result.error.inj hrun).2.symm
      · cases hrun
    · unfold ensureArgument at hrun
      split at hrun
      · exact (EStateM.Result.error.inj hrun).2.symm
      · simp only at hrun
        split at hrun <;> cases hrun

/-- A step that is attached tallies with one more entry in the record. -/
theorem tallies_ensureStep {t t' : Tree α σ} {record : List (Attachment α σ)} {step : Step α}
    {i j : NodeIndex} (h : t.Tallies record) (hrun : ensureStep c i step t = .ok j t') :
    t'.Tallies (record ++ [⟨j, c, step⟩]) := by
  cases step with
  | literal w => exact tallies_ensureLiteral h hrun
  | parameter p =>
    simp only [ensureStep, ensureParameter] at hrun
    split at hrun
    · exact tallies_ensureFlag h hrun
    · rename_i hplace
      exact tallies_ensureArgument h (by simpa using hplace) hrun

/-- So attaching records what it does. -/
theorem follows_attach {step : Step α} (hstep : step ∈ c.steps) (i : NodeIndex) :
    Follows c.Attaches (attach c i step) (ensureStep c i step) := by
  intro t record htallies
  cases hrun : ensureStep c i step t with
  | error e t' =>
    obtain rfl := eq_of_ensureStep_error hrun
    simp only [Growth.after, attach, plain, hrun]
    refine ⟨[], by simp, ?_, ?_⟩ <;> rw [List.append_nil]
    exact htallies
  | ok child t' =>
    simp only [Growth.after, attach, plain, hrun]
    refine ⟨[⟨child, c, step⟩], ?_, tallies_ensureStep htallies hrun, rfl⟩
    intro a ha
    obtain rfl := List.mem_singleton.mp ha
    exact ⟨rfl, hstep⟩

/-! ### What attaches nothing -/

/-- Binding a command opens no node. -/
theorem tallies_bindCommand {t : Tree α σ} {record : List (Attachment α σ)} (h : t.Tallies record)
    (c : Command α σ) (i : NodeIndex) : (t.bindCommand i c).Tallies record := by
  refine h.modifyNode (fun n => ?_) (fun n => ?_) (fun n => ?_) i <;> split <;> rfl

/-- The end of a command is marked without a record. -/
theorem follows_markEnd (c : Command α σ) (i : NodeIndex) :
    Follows P (plain (markEnd c i)) (markEnd c i) :=
  follows_plain fun _ _ h => tallies_bindCommand h c i

theorem follows_markEndBefore (c : Command α σ) (i : NodeIndex) (left : List (Parameter α)) :
    Follows P (plain (markEndBefore c i left)) (markEndBefore c i left) := by
  apply follows_plain
  intro t record h
  unfold markEndBefore
  split
  · exact tallies_bindCommand h c i
  · exact h

/-- A link attaches nothing. -/
theorem tallies_shareFlag {t : Tree α σ} {record : List (Attachment α σ)} (h : t.Tallies record)
    (child i : NodeIndex) : (t.shareFlag child i).Tallies record := by
  unfold shareFlag
  split
  · exact h
  · split
    · exact h
    · exact h.modifyNode (f := fun n => { n with flags := n.flags ++ [child] }) (fun _ => rfl)
        (fun _ => rfl) (fun _ => rfl) i

theorem tallies_shareFlags {t : Tree α σ} {record : List (Attachment α σ)} (h : t.Tallies record)
    (child : NodeIndex) (earlier : List NodeIndex) :
    (earlier.foldl (shareFlag child) t).Tallies record := by
  induction earlier generalizing t with
  | nil => exact h
  | cons e earlier ih => exact ih (tallies_shareFlag h child e)

/-! ### The layers of a command -/

section Layers

variable {ps : List (Parameter α)} {plan : FlagPlan α}

/-- The flags of a row are recorded. -/
theorem follows_growRow (hps : ∀ p ∈ ps, .parameter p ∈ c.steps) (i : NodeIndex) :
    Follows c.Attaches (Recorded.growRow c i ps) (growRow i ps) := by
  induction ps generalizing i with
  | nil => exact follows_pure i
  | cons p ps ih =>
    refine (follows_attach (hps p List.mem_cons_self) i).bind fun child => ?_
    exact ih (fun q hq => hps q (List.mem_cons_of_mem p hq)) child

theorem follows_growOrder (hps : ∀ p ∈ ps, .parameter p ∈ c.steps) (i : NodeIndex) :
    Follows c.Attaches (Recorded.growOrder c i ps) (growOrder c i ps) := by
  induction ps generalizing i with
  | nil => exact follows_markEnd c i
  | cons p ps ih =>
    refine (follows_markEndBefore c i (p :: ps)).bind fun _ => ?_
    refine (follows_attach (hps p List.mem_cons_self) i).bind fun child => ?_
    exact ih (fun q hq => hps q (List.mem_cons_of_mem p hq)) child

theorem follows_growOrders {orders : List (List (Parameter α))}
    (horders : ∀ order ∈ orders, ∀ p ∈ order, .parameter p ∈ c.steps) (i : NodeIndex) :
    Follows c.Attaches (Recorded.growOrders c i orders) (growOrders c i orders) := by
  induction orders with
  | nil => exact follows_pure ()
  | cons order orders ih =>
    refine (follows_growOrder (horders order List.mem_cons_self) i).bind fun _ => ?_
    exact ih fun o ho => horders o (List.mem_cons_of_mem order ho)

theorem follows_growChain (hps : ∀ p ∈ ps, .parameter p ∈ c.steps) (base : NodeIndex)
    (earlier : List NodeIndex) :
    Follows c.Attaches (Recorded.growChain c base earlier ps) (growChain c base earlier ps) := by
  induction ps generalizing earlier with
  | nil => exact follows_pure ()
  | cons p ps ih =>
    refine (follows_attach (hps p List.mem_cons_self) base).bind fun child => ?_
    refine (follows_markEnd c child).bind fun _ => ?_
    refine (follows_modify fun t record h => tallies_shareFlags h child earlier).bind fun _ => ?_
    exact ih (fun q hq => hps q (List.mem_cons_of_mem p hq)) (earlier ++ [child])

/-- The flag section of a command attaches flags of the command. -/
theorem follows_growFlags (c : Command α σ) (threshold : Nat) (i : NodeIndex) :
    Follows c.Attaches (Recorded.growFlags c i (.ofFlags threshold c.flags))
      (growFlags c i (.ofFlags threshold c.flags)) := by
  have hflag (p : Parameter α) (hp : p ∈ c.flags) : .parameter p ∈ c.steps :=
    List.mem_append_right _ (List.mem_map_of_mem hp)
  unfold FlagPlan.ofFlags
  split
  · have hrequired (p : Parameter α) (hp : p ∈ Parameter.required c.flags) :
        .parameter p ∈ c.steps := hflag p (Parameter.mem_required.mp hp).1
    refine (follows_growRow hrequired i).bind fun base => ?_
    refine (follows_markEnd c base).bind fun _ => ?_
    exact follows_growChain (fun p hp => hflag p (Parameter.mem_optionals.mp hp).1) base []
  · exact follows_growOrders (fun order horder p hp =>
      hflag p ((Parameter.perm_of_mem_flagOrders horder).mem_iff.mp hp)) i

/-- And of the flag section wherever it begins. -/
theorem follows_growFlagsBefore (c : Command α σ) (threshold : Nat) (i : NodeIndex)
    (left : List (Step α)) :
    Follows c.Attaches (Recorded.growFlagsBefore c i (.ofFlags threshold c.flags) left)
      (growFlagsBefore c i (.ofFlags threshold c.flags) left) := by
  unfold Recorded.growFlagsBefore growFlagsBefore
  split
  · exact follows_growFlags c threshold i
  · exact follows_pure ()

/-- And the steps of a path, by induction on them. -/
theorem follows_growPath {steps : List (Step α)} (hsteps : ∀ step ∈ steps, step ∈ c.steps)
    (threshold : Nat) (i : NodeIndex) :
    Follows c.Attaches (Recorded.growPath c (.ofFlags threshold c.flags) i steps)
      (growPath c (.ofFlags threshold c.flags) i steps) := by
  induction steps generalizing i with
  | nil => exact follows_growFlags c threshold i
  | cons step steps ih =>
    refine (follows_growFlagsBefore c threshold i (step :: steps)).bind fun _ => ?_
    refine (follows_attach (hsteps step List.mem_cons_self) i).bind fun child => ?_
    exact ih (fun s hs => hsteps s (List.mem_cons_of_mem step hs)) child

/-- The growth of a command records its own steps. -/
theorem follows_growCommand (c : Command α σ) :
    Follows c.Attaches (Recorded.growCommand c) (growCommand c) := by
  have hpositional (step : Step α) (hstep : step ∈ c.positionals) : step ∈ c.steps :=
    List.mem_append_left _ hstep
  have hget : Follows c.Attaches (plain get) (get : Growth α σ (Tree α σ)) :=
    follows_plain fun _ _ h => h
  refine hget.bind fun t => ?_
  refine (follows_attach (hpositional _ List.mem_cons_self) root).bind fun first => ?_
  exact follows_growPath (fun step hstep => hpositional step (List.mem_cons_of_mem _ hstep))
    t.settings.threshold first

end Layers

/-- An insertion attaches steps of its command, and the record tallies with what it leaves. -/
theorem follows_insert (c : Command α σ) : Follows c.Attaches (Recorded.insert c) (insert c) :=
  (follows_growCommand c).bind fun _ => follows_modify fun _ _ h => h.congr rfl

/-- And an insertion of several commands those of each. -/
theorem follows_insertAll (cs : List (Command α σ)) :
    Follows (fun a => a.command ∈ cs ∧ a.step ∈ a.command.steps) (Recorded.insertAll cs)
      (insertAll cs) := by
  induction cs with
  | nil => exact follows_pure ()
  | cons c cs ih =>
    refine Follows.bind ((follows_insert c).mono ?_) fun _ => ih.mono ?_
    · rintro a ⟨rfl, hstep⟩
      exact ⟨List.mem_cons_self, hstep⟩
    · rintro a ⟨hmem, hstep⟩
      exact ⟨List.mem_cons_of_mem c hmem, hstep⟩

end Growth

end CommandLine
