import CommandLine.Proofs.Tree.Changes

/-!
# Growth on fresh ground

Below a node without children nothing is shared: every step of a path makes a node of its own, and
so does every flag. The layout of a command can then be read off its growth. In a chain each flag is
linked behind all earlier ones, because no node has a flag of its long name yet (`Vacant`), so that
the line may go on from any flag to any later one (`Offers`).

* `offers_of_growChain` — the optional flags of a chain;
* `exists_route_of_growFlags` — a flag section;
* `exists_route_of_growPath` — a path with a flag section wherever one belongs.
-/

set_option autoImplicit false

namespace CommandLine.Tree

open CommandLine.Growth

variable {α σ : Type} {t t' t'' : Tree α σ} {i j child base : NodeIndex} {c : Command α σ}
  {p : Parameter α} {ps : List (Parameter α)} {steps : List (Step α)}

/-! ## What flags leave alone -/

/-- The words and arguments below every node are the same in two trees. -/
def SamePaths (t t' : Tree α σ) : Prop :=
  ∀ i, (t'.node i).literals = (t.node i).literals ∧ (t'.node i).arguments = (t.node i).arguments

/-- A node whose words and arguments stay may be changed. -/
theorem SamePaths.of_modifyNode {f : Tree.Node α σ → Tree.Node α σ}
    (hf : ∀ n, (f n).literals = n.literals ∧ (f n).arguments = n.arguments) (t : Tree α σ)
    (i : NodeIndex) : SamePaths t (t.modifyNode i f) := by
  intro j
  rw [node_modifyNode]
  split
  · exact hf (t.node j)
  · exact ⟨rfl, rfl⟩

/-- Growing flags changes neither words nor arguments. -/
theorem flagChanges_samePaths : FlagChanges (@SamePaths α σ) where
  refl _ _ := ⟨rfl, rfl⟩
  trans h h' i := ⟨(h' i).1.trans (h i).1, (h' i).2.trans (h i).2⟩
  joinPermission t i permission := .of_modifyNode
    (f := fun n => { n with permission := n.permission.or permission }) (fun _ => ⟨rfl, rfl⟩) t i
  addFlag t i p := by
    intro j
    have hpush :
        SamePaths t (t.pushNode { label := .parameter p, permission := p.permission }) := by
      intro l
      by_cases h : l = t.nodes.size
      · subst h
        -- The pushed node had no paths before either: out of range a node is the empty one.
        rw [node_pushNode_size, node_of_size_le (Nat.le_refl _)]
        exact ⟨rfl, rfl⟩
      · rw [node_pushNode_of_ne _ h]
        exact ⟨rfl, rfl⟩
    have hlist := SamePaths.of_modifyNode
      (f := fun n => { n with flags := n.flags ++ [t.nodes.size] }) (fun _ => ⟨rfl, rfl⟩)
      (t.pushNode { label := .parameter p, permission := p.permission }) i
    exact ⟨(hlist j).1.trans (hpush j).1, (hlist j).2.trans (hpush j).2⟩
  shareFlag child t i := by
    unfold shareFlag
    split
    · exact fun _ => ⟨rfl, rfl⟩
    · split
      · exact fun _ => ⟨rfl, rfl⟩
      · exact .of_modifyNode (f := fun n => { n with flags := n.flags ++ [child] })
          (fun _ => ⟨rfl, rfl⟩) t i
  bindCommand t i c := .of_modifyNode (fun n => by split <;> exact ⟨rfl, rfl⟩) t i

/-! ## Flags that are gained -/

/-- No flag child of a node has the long name of one of some flags. -/
def Vacant (t : Tree α σ) (i : NodeIndex) (ps : List (Parameter α)) : Prop :=
  ∀ l q, (l, q) ∈ t.flagsOf i → ∀ p ∈ ps, q.longName ≠ p.longName

/-- No node gains a flag child other than one. -/
def Gains (t t' : Tree α σ) (child : NodeIndex) (p : Parameter α) : Prop :=
  ∀ i l q, (l, q) ∈ t'.flagsOf i → (l, q) ∈ t.flagsOf i ∨ l = child ∧ q = p

/-- A node without flags is vacant for all. -/
theorem vacant_of_flags_eq_nil (h : (t.node i).flags = []) (ps : List (Parameter α)) :
    t.Vacant i ps := by
  intro l q hl
  simp [mem_flagsOf, h] at hl

/-- What two changes gain, one after the other, is still only the child. -/
theorem Gains.trans (h : t.Gains t' child p) (h' : t'.Gains t'' child p) : t.Gains t'' child p :=
  fun i l q hl => (h' i l q hl).elim (h i l q) .inr

/-- A flag of another name leaves the places of the later flags vacant. -/
theorem Vacant.of_gains (h : t.Vacant i (p :: ps)) (hgains : t.Gains t' child p)
    (hnodup : ((p :: ps).map Parameter.longName).Nodup) : t'.Vacant i ps := by
  intro l q hl r hr
  rcases hgains i l q hl with hl | ⟨_, rfl⟩
  · exact h l q hl r (List.mem_cons_of_mem p hr)
  · intro hlong
    exact (List.nodup_cons.mp hnodup).1 (hlong ▸ List.mem_map_of_mem hr)

/-- Being listed once more changes no label. -/
theorem label_listed (t : Tree α σ) (i child j : NodeIndex) :
    ((t.modifyNode i fun n => { n with flags := n.flags ++ [child] }).node j).label =
      (t.node j).label :=
  label_modifyNode (f := fun n => { n with flags := n.flags ++ [child] }) (fun _ => rfl) t i j

/-- Listing a node among the flags of another one gives no node any other flag child. -/
theorem gains_of_list (hlabel : (t.node child).label = .parameter p) (i : NodeIndex) :
    t.Gains (t.modifyNode i fun n => { n with flags := n.flags ++ [child] }) child p := by
  intro j l q hl
  obtain ⟨hmem, hq⟩ := mem_flagsOf.mp hl
  rw [label_listed] at hq
  rw [node_modifyNode] at hmem
  split at hmem
  · rcases List.mem_append.mp hmem with hmem | hmem
    · exact .inl (mem_flagsOf.mpr ⟨hmem, hq⟩)
    · obtain rfl := List.mem_singleton.mp hmem
      exact .inr ⟨rfl, Label.parameter.inj (hq.symm.trans hlabel)⟩
  · exact .inl (mem_flagsOf.mpr ⟨hmem, hq⟩)

/-- A flag that is added is gained at its own node. -/
theorem gains_addFlag (t : Tree α σ) (i : NodeIndex) (p : Parameter α) :
    t.Gains (t.addFlag i p) t.nodes.size p := by
  have hnew : ((t.pushNode { label := .parameter p, permission := p.permission }).node
      t.nodes.size).label = .parameter p := by rw [node_pushNode_size]
  refine Gains.trans ?_ (gains_of_list hnew i)
  intro j l q hl
  obtain ⟨hmem, hq⟩ := mem_flagsOf.mp hl
  have hj : j ≠ t.nodes.size := by
    rintro rfl
    simp at hmem
  rw [node_pushNode_of_ne _ hj] at hmem
  by_cases h : l = t.nodes.size
  · subst h
    exact .inr ⟨rfl, Label.parameter.inj (hq.symm.trans hnew)⟩
  · rw [node_pushNode_of_ne _ h] at hq
    exact .inl (mem_flagsOf.mpr ⟨hmem, hq⟩)

/-- Binding a command changes no flags. -/
theorem flags_bindCommand (t : Tree α σ) (i : NodeIndex) (c : Command α σ) (j : NodeIndex) :
    ((t.bindCommand i c).node j).flags = (t.node j).flags := by
  rw [bindCommand, node_modifyNode]
  split
  · split <;> rfl
  · rfl

theorem gains_bindCommand (t : Tree α σ) (i : NodeIndex) (c : Command α σ) (child : NodeIndex)
    (p : Parameter α) : t.Gains (t.bindCommand i c) child p := by
  intro j l q hl
  obtain ⟨hmem, hq⟩ := mem_flagsOf.mp hl
  rw [flags_bindCommand] at hmem
  rw [bindCommand, label_modifyNode (fun n => by split <;> rfl)] at hq
  exact .inl (mem_flagsOf.mpr ⟨hmem, hq⟩)

/-- Sharing a node can only gain that node. -/
theorem gains_shareFlag (hlabel : (t.node child).label = .parameter p) (i : NodeIndex) :
    t.Gains (t.shareFlag child i) child p := by
  unfold shareFlag
  rw [Node.parameter?_eq_some.mpr hlabel]
  simp only
  split
  · exact fun _ _ _ h => .inl h
  · exact gains_of_list hlabel i

/-! ## Flags below a node -/

/-- A flag whose long name is not taken below a node becomes a new child of it. -/
theorem ensureParameter_of_vacant (h : t.Vacant i (p :: ps)) (hnamed : p.isNamed = true) :
    ensureParameter i p t = .ok t.nodes.size (t.addFlag i p) := by
  have hrun : ensureParameter i p = (ensureFlag i p : Growth α σ NodeIndex) := if_pos hnamed
  have hnone : t.flagNamed? i p.longName = none := by
    rw [flagNamed?, List.find?_eq_none]
    rintro ⟨l, q⟩ hl
    simpa using h l q hl p List.mem_cons_self
  rw [hrun, ensureFlag, hnone]

/-- The new node stands for the flag. -/
theorem label_addFlag (t : Tree α σ) (i : NodeIndex) (p : Parameter α) :
    ((t.addFlag i p).node t.nodes.size).label = .parameter p := by
  rw [addFlag, label_listed, node_pushNode_size]

theorem edge_addFlag (hi : i < t.nodes.size) (p : Parameter α) :
    (t.addFlag i p).Edge i (.parameter p) t.nodes.size := by
  let pushed := t.pushNode { label := .parameter p, permission := p.permission }
  have hlt : i < pushed.nodes.size := by
    rw [size_pushNode]
    exact Nat.lt_succ_of_lt hi
  refine .of_flag (mem_flagsOf.mpr ⟨?_, label_addFlag t i p⟩)
  rw [addFlag, node_modifyNode_self hlt]
  exact List.mem_append_right _ List.mem_cons_self

@[simp] theorem size_addFlag (t : Tree α σ) (i : NodeIndex) (p : Parameter α) :
    (t.addFlag i p).nodes.size = t.nodes.size + 1 := by
  simp [addFlag]

/-- The new child has no flags. -/
theorem flags_addFlag (hi : i < t.nodes.size) (p : Parameter α) :
    ((t.addFlag i p).node t.nodes.size).flags = [] := by
  rw [addFlag, node_modifyNode_of_ne (Nat.ne_of_gt hi), node_pushNode_size]

/-- Where no other flag has its long name, a flag node becomes a child. -/
theorem edge_shareFlag (hlabel : (t.node child).label = .parameter p) (hi : i < t.nodes.size)
    (hold : ∀ l q, (l, q) ∈ t.flagsOf i → q.longName = p.longName → l = child) :
    (t.shareFlag child i).Edge i (.parameter p) child := by
  unfold shareFlag
  rw [Node.parameter?_eq_some.mpr hlabel]
  simp only
  split
  · rename_i htaken
    obtain ⟨⟨l, q⟩, hfind⟩ := Option.isSome_iff_exists.mp htaken
    obtain ⟨hl, hlong⟩ := of_flagNamed?_eq_some hfind
    obtain rfl := hold l q hl hlong
    exact .of_flag (mem_flagsOf.mpr ⟨(mem_flagsOf.mp hl).1, hlabel⟩)
  · refine .of_flag (mem_flagsOf.mpr ⟨?_, ?_⟩)
    · rw [node_modifyNode_self hi]
      exact List.mem_append_right _ List.mem_cons_self
    · rw [label_listed]
      exact hlabel

/-- So it becomes a child of several nodes, none of which gains another one. -/
theorem edge_shareFlags (earlier : List NodeIndex) (hlabel : (t.node child).label = .parameter p)
    (hlt : ∀ e ∈ earlier, e < t.nodes.size) (hold : ∀ e ∈ earlier, ∀ l q, (l, q) ∈ t.flagsOf e →
      q.longName = p.longName → l = child) :
    t.Gains (earlier.foldl (shareFlag child) t) child p ∧
      ∀ e ∈ earlier, (earlier.foldl (shareFlag child) t).Edge e (.parameter p) child := by
  induction earlier generalizing t with
  | nil => exact ⟨fun _ _ _ h => .inl h, nofun⟩
  | cons e earlier ih =>
    have hgrows := changes_grows.shareFlag child t e
    have hgains := gains_shareFlag hlabel e
    have hchild : child < t.nodes.size := lt_of_label_ne_root (by simp [hlabel])
    obtain ⟨hrest, hedges⟩ := ih ((hgrows.label_eq child hchild).trans hlabel)
      (fun e' he' => Nat.lt_of_lt_of_le (hlt e' (List.mem_cons_of_mem e he')) hgrows.size_le)
      (by
        intro e' he' l q hl hlong
        rcases hgains e' l q hl with hl | ⟨rfl, _⟩
        · exact hold e' (List.mem_cons_of_mem e he') l q hl hlong
        · rfl)
    refine ⟨hgains.trans hrest, ?_⟩
    intro e' he'
    rcases List.mem_cons.mp he' with rfl | he'
    · have hedge := edge_shareFlag hlabel (hlt e' List.mem_cons_self) (hold e' List.mem_cons_self)
      exact (changes_grows.shareFlags child _ earlier).edge hedge
    · exact hedges e' he'

/-- Where a command is bound, lines may end. -/
theorem command_bindCommand (hi : i < t.nodes.size) (c : Command α σ) :
    ((t.bindCommand i c).node i).command.isSome = true := by
  rw [bindCommand, node_modifyNode_self hi]
  split
  · rfl
  · rename_i hkept
    rw [Bool.or_eq_true, not_or, Bool.not_eq_true, Option.isNone_eq_false_iff] at hkept
    exact hkept.1

/-! ## Chains -/

/-- From a node a line may give any of some flags, in their order, and end behind each. -/
def Offers (t : Tree α σ) (i : NodeIndex) : List (Parameter α) → Prop
  | [] => True
  | p :: ps => t.Offers i ps ∧
      ∃ j, t.Edge i (.parameter p) j ∧ (t.node j).command.isSome = true ∧ t.Offers j ps

/-- So it may give any of them that keep the order. -/
theorem Offers.exists_route {last : List (Parameter α)} (h : t.Offers i ps)
    (hcommand : (t.node i).command.isSome = true) (hlast : last.Sublist ps) :
    ∃ j, t.Route i (last.map .parameter) j ∧ (t.node j).command.isSome = true := by
  induction hlast generalizing i with
  | slnil => exact ⟨i, rfl, hcommand⟩
  | cons p _ ih => exact ih h.1 hcommand
  | cons_cons p _ ih =>
    obtain ⟨_, l, hedge, hl, hoffers⟩ := h
    obtain ⟨j, hroute, hj⟩ := ih hoffers hl
    exact ⟨j, ⟨l, hedge, hroute⟩, hj⟩

/-- A new flag of a chain, bound and linked behind the earlier ones. -/
theorem link_of_vacant {earlier : List NodeIndex} (hlt : ∀ e ∈ base :: earlier, e < t.nodes.size)
    (hvacant : ∀ e ∈ base :: earlier, t.Vacant e (p :: ps))
    (h : earlier.foldl (shareFlag t.nodes.size)
      ((t.addFlag base p).bindCommand t.nodes.size c) = t') :
    t.nodes.size < t'.nodes.size ∧ (t'.node t.nodes.size).command.isSome = true ∧
      t.Gains t' t.nodes.size p ∧
      ∀ e ∈ base :: earlier, e < t'.nodes.size ∧ t'.Edge e (.parameter p) t.nodes.size := by
  subst h
  have hbase : base < t.nodes.size := hlt base List.mem_cons_self
  -- The tree grows in three steps: the child is added, bound, and shared with the earlier nodes.
  have hgrows₁ : t.Grows (t.addFlag base p) := changes_grows.addFlag t base p
  have hgrows₂ := changes_grows.bindCommand (t.addFlag base p) t.nodes.size c
  have hgrows₃ := changes_grows.shareFlags t.nodes.size
    ((t.addFlag base p).bindCommand t.nodes.size c) earlier
  have hgrows := (hgrows₁.trans hgrows₂).trans hgrows₃
  have hchild : t.nodes.size < (t.addFlag base p).nodes.size := by
    rw [size_addFlag]
    exact Nat.lt_succ_self _
  have hgains : t.Gains ((t.addFlag base p).bindCommand t.nodes.size c) t.nodes.size p :=
    (gains_addFlag t base p).trans (gains_bindCommand _ t.nodes.size c t.nodes.size p)
  obtain ⟨hgains', hedges⟩ := edge_shareFlags earlier
    ((hgrows₂.label_eq t.nodes.size hchild).trans (label_addFlag t base p))
    (fun e he => Nat.lt_of_lt_of_le (hlt e (List.mem_cons_of_mem base he))
      (hgrows₁.trans hgrows₂).size_le)
    (by
      intro e he l q hl hlong
      refine (hgains e l q hl).elim (fun hold => ?_) And.left
      exact absurd hlong (hvacant e (List.mem_cons_of_mem base he) l q hold p List.mem_cons_self))
  refine ⟨Nat.lt_of_lt_of_le hchild (hgrows₂.trans hgrows₃).size_le,
    hgrows₃.command (command_bindCommand hchild c), hgains.trans hgains', ?_⟩
  intro e he
  refine ⟨Nat.lt_of_lt_of_le (hlt e he) hgrows.size_le, ?_⟩
  rcases List.mem_cons.mp he with rfl | he
  · exact hgrows₃.edge (hgrows₂.edge (edge_addFlag hbase p))
  · exact hedges e he

/-- One round of growing a chain where its flags are not taken: a new flag, and vacant places for
the later ones at the base, at every earlier flag and at the new one. -/
theorem exists_of_growChain_cons {earlier : List NodeIndex}
    (h : growChain c base earlier (p :: ps) t = .ok () t') (hnamed : p.isNamed = true)
    (hnodup : ((p :: ps).map Parameter.longName).Nodup)
    (hlt : ∀ e ∈ base :: earlier, e < t.nodes.size)
    (hvacant : ∀ e ∈ base :: earlier, t.Vacant e (p :: ps)) :
    ∃ t₁ : Tree α σ, earlier.foldl (shareFlag t.nodes.size)
        ((t.addFlag base p).bindCommand t.nodes.size c) = t₁ ∧
      growChain c base (earlier ++ [t.nodes.size]) ps t₁ = .ok () t' ∧
      ∀ e ∈ base :: (earlier ++ [t.nodes.size]), e < t₁.nodes.size ∧ t₁.Vacant e ps := by
  obtain ⟨child, t₁, hchild, h⟩ := exists_of_bind_eq_ok h
  rw [ensureParameter_of_vacant (hvacant base List.mem_cons_self) hnamed] at hchild
  obtain ⟨rfl, rfl⟩ := EStateM.Result.ok.inj hchild
  obtain ⟨_, t₂, hmark, h⟩ := exists_of_bind_eq_ok h
  obtain ⟨_, rfl⟩ := EStateM.Result.ok.inj hmark
  obtain ⟨_, t₃, hshare, h⟩ := exists_of_bind_eq_ok h
  have hlinked := (EStateM.Result.ok.inj hshare).2
  obtain ⟨hlt₃, _, hgains, hlinks⟩ := link_of_vacant hlt hvacant hlinked
  refine ⟨t₃, hlinked, h, fun e he => ?_⟩
  -- The new node has no flags, so all the places at which the chain goes on are vacant.
  rcases List.mem_append.mp (show e ∈ (base :: earlier) ++ [t.nodes.size] from he) with he | he
  · exact ⟨(hlinks e he).1, (hvacant e he).of_gains hgains hnodup⟩
  · obtain rfl := List.mem_singleton.mp he
    have hfresh : (t.node t.nodes.size).flags = [] := by rw [node_of_size_le (Nat.le_refl _)]
    exact ⟨hlt₃, (vacant_of_flags_eq_nil hfresh (p :: ps)).of_gains hgains hnodup⟩

/-- Growing a chain offers its flags at its base and behind every earlier flag. -/
theorem offers_of_growChain {earlier : List NodeIndex}
    (h : growChain c base earlier ps t = .ok () t') (hnamed : ∀ p ∈ ps, p.isNamed = true)
    (hnodup : (ps.map Parameter.longName).Nodup)
    (hlt : ∀ e ∈ base :: earlier, e < t.nodes.size)
    (hvacant : ∀ e ∈ base :: earlier, t.Vacant e ps) : ∀ e ∈ base :: earlier, t'.Offers e ps := by
  induction ps generalizing t earlier with
  | nil => exact fun _ _ => trivial
  | cons p ps ih =>
    have hps (q : Parameter α) (hq : q ∈ ps) : q.isNamed = true :=
      hnamed q (List.mem_cons_of_mem p hq)
    obtain ⟨t₁, hlinked, h, hnext⟩ :=
      exists_of_growChain_cons h (hnamed p List.mem_cons_self) hnodup hlt hvacant
    obtain ⟨_, hcommand, _, hlinks⟩ := link_of_vacant hlt hvacant hlinked
    have hrest := (changes_grows.growChain c base (earlier ++ [t.nodes.size]) hps).of_ok h
    have hoffers := ih h hps (List.nodup_cons.mp hnodup).2 (fun e he => (hnext e he).1)
      (fun e he => (hnext e he).2)
    intro e he
    exact ⟨hoffers e (List.mem_append_left [t.nodes.size] he), t.nodes.size,
      hrest.edge (hlinks e he).2, hrest.command hcommand,
      hoffers _ (List.mem_append_right (base :: earlier) List.mem_cons_self)⟩

/-! ## Flag sections -/

/-- Required flags below a node without flags stand in one row. -/
theorem route_of_growRow {last : NodeIndex} (h : growRow i ps t = .ok last t')
    (hnamed : ∀ p ∈ ps, p.isNamed = true) (hi : i < t.nodes.size) (hflags : (t.node i).flags = []) :
    t'.Route i (ps.map .parameter) last ∧ last < t'.nodes.size ∧ (t'.node last).flags = [] := by
  induction ps generalizing t i with
  | nil =>
    obtain ⟨rfl, rfl⟩ := EStateM.Result.ok.inj h
    exact ⟨rfl, hi, hflags⟩
  | cons p ps ih =>
    have hps (q : Parameter α) (hq : q ∈ ps) : q.isNamed = true :=
      hnamed q (List.mem_cons_of_mem p hq)
    obtain ⟨child, t₁, hchild, h⟩ := exists_of_bind_eq_ok h
    rw [ensureParameter_of_vacant (vacant_of_flags_eq_nil hflags (p :: ps))
      (hnamed p List.mem_cons_self)] at hchild
    obtain ⟨rfl, rfl⟩ := EStateM.Result.ok.inj hchild
    have hrest := (changes_grows.growRow t.nodes.size hps).of_ok h
    obtain ⟨hroute, hlast⟩ := ih h hps (by rw [size_addFlag]; exact Nat.lt_succ_self _)
      (flags_addFlag hi p)
    exact ⟨⟨t.nodes.size, hrest.edge (edge_addFlag hi p), hroute⟩, hlast⟩

/-- A chain below a node without flags: every required flag, then any optional ones in order. -/
theorem exists_route_of_growFlags {required optionals last : List (Parameter α)}
    (h : growFlags c i (.chain required optionals) t = .ok () t')
    (hrequired : ∀ p ∈ required, p.isNamed = true) (hoptionals : ∀ p ∈ optionals, p.isNamed = true)
    (hnodup : (optionals.map Parameter.longName).Nodup) (hi : i < t.nodes.size)
    (hflags : (t.node i).flags = []) (hlast : last.Sublist optionals) :
    ∃ j, t'.Route i ((required ++ last).map .parameter) j ∧
      (t'.node j).command.isSome = true := by
  obtain ⟨base, t₁, hrow, h⟩ := exists_of_bind_eq_ok h
  obtain ⟨hroute, hbase, hvacant⟩ := route_of_growRow hrow hrequired hi hflags
  obtain ⟨_, t₂, hmark, h⟩ := exists_of_bind_eq_ok h
  obtain ⟨_, rfl⟩ := EStateM.Result.ok.inj hmark
  have hgrows := changes_grows.bindCommand t₁ base c
  have hrest := (changes_grows.growChain c base [] hoptionals).of_ok h
  have hlt : base < (t₁.bindCommand base c).nodes.size := Nat.lt_of_lt_of_le hbase hgrows.size_le
  have hfresh : ((t₁.bindCommand base c).node base).flags = [] := by
    rw [flags_bindCommand, hvacant]
  have hoffers := offers_of_growChain h hoptionals hnodup
    (fun e he => List.mem_singleton.mp he ▸ hlt)
    (fun e he => List.mem_singleton.mp he ▸ vacant_of_flags_eq_nil hfresh optionals)
    base List.mem_cons_self
  obtain ⟨j, hsection, hj⟩ :=
    hoffers.exists_route (hrest.command (command_bindCommand hbase c)) hlast
  rw [List.map_append]
  exact ⟨j, (hrest.route (hgrows.route hroute)).append hsection, hj⟩

/-! ## Paths -/

/-- A node without children. -/
structure Node.Bare (n : Tree.Node α σ) : Prop where
  literals : n.literals = []
  flags : n.flags = []
  arguments : n.arguments = []

/-- Below a node without words and arguments the next step of a path makes a new node. -/
theorem ensureStep_of_bare {step : Step α} (hliterals : (t.node i).literals = [])
    (harguments : (t.node i).arguments = []) (hi : i < t.nodes.size)
    (hplace : ∀ p, step = .parameter p → p.isNamed = false)
    (h : ensureStep c i step t = .ok child t') :
    t'.Edge i step child ∧ child < t'.nodes.size ∧ (t'.node child).Bare ∧
      t'.nodes.size = t.nodes.size + 1 := by
  have hnone (w : String) : (t.node i).literal? w = none := by
    simp [Node.literal?, hliterals]
  have hargumentsOf : t.argumentsOf i = [] := by
    simp [argumentsOf, parametersAt, harguments]
  have hne : t.nodes.size ≠ i := Nat.ne_of_gt hi
  -- Without children nothing is found and nothing clashes, so either step adds its node.
  cases step with
  | literal w =>
    have hrun : ensureLiteral i w c.permission t = .ok child t' := h
    rw [ensureLiteral, hnone w, hargumentsOf] at hrun
    obtain ⟨rfl, rfl⟩ := EStateM.Result.ok.inj hrun
    refine ⟨?_, by simp [addLiteral], ?_, by simp [addLiteral]⟩
    · show (w, t.nodes.size) ∈ ((t.addLiteral i w c.permission).node i).literals
      rw [addLiteral, node_modifyNode_self (by rw [size_pushNode]; exact Nat.lt_succ_of_lt hi)]
      exact List.mem_append_right _ List.mem_cons_self
    · rw [addLiteral, node_modifyNode_of_ne hne, node_pushNode_size]
      exact ⟨rfl, rfl, rfl⟩
  | parameter p =>
    have hnamed : p.isNamed = false := hplace p rfl
    have hrun : ensureArgument i p t = .ok child t' := by
      have harg : ensureStep c i (.parameter p) = ensureArgument i p := by
        simp [ensureStep, ensureParameter, hnamed]
      exact harg ▸ h
    rw [ensureArgument, hnone p.name, hargumentsOf] at hrun
    obtain ⟨rfl, rfl⟩ := EStateM.Result.ok.inj hrun
    refine ⟨.of_argument (mem_argumentsOf.mpr ⟨?_, ?_⟩), by simp [addArgument], ?_,
      by simp [addArgument]⟩
    · rw [addArgument, node_modifyNode_self (by rw [size_pushNode]; exact Nat.lt_succ_of_lt hi),
        hargumentsOf]
      exact List.mem_cons_self
    · rw [addArgument, node_modifyNode_of_ne hne, node_pushNode_size]
    · rw [addArgument, node_modifyNode_of_ne hne, node_pushNode_size]
      exact ⟨rfl, rfl, rfl⟩

/-- A path below a bare node, with its flag section in a chain wherever one belongs. -/
theorem exists_route_of_growPath {flags last : List (Parameter α)} {before after : List (Step α)}
    {threshold : Nat}
    (h : growPath c (.ofFlags threshold flags) i steps t = .ok () t')
    (hthreshold : threshold < flags.length) (hflags : ∀ p ∈ flags, p.isNamed = true)
    (hnodup : (flags.map Parameter.longName).Nodup)
    (hplace : ∀ p, .parameter p ∈ steps → p.isNamed = false) (hi : i < t.nodes.size)
    (hbare : (t.node i).Bare) (hsteps : steps = before ++ after)
    (hafter : ∀ step ∈ after, step.isOptional = true)
    (hlast : last.Sublist (Parameter.optionals flags)) :
    ∃ j, t'.Route i (before ++ (Parameter.required flags ++ last).map .parameter) j ∧
      (t'.node j).command.isSome = true := by
  have hplan : FlagPlan.ofFlags threshold flags =
      .chain (Parameter.required flags) (Parameter.optionals flags) := if_pos hthreshold
  have hsection {t t' : Tree α σ} {i : NodeIndex}
      (h : growFlags c i (.ofFlags threshold flags) t = .ok () t') (hi : i < t.nodes.size)
      (hbare : (t.node i).Bare) :
      ∃ j, t'.Route i ((Parameter.required flags ++ last).map .parameter) j ∧
        (t'.node j).command.isSome = true := by
    refine exists_route_of_growFlags (hplan ▸ h)
      (fun p hp => hflags p (Parameter.mem_required.mp hp).1)
      (fun p hp => hflags p (Parameter.mem_optionals.mp hp).1) ?_ hi hbare.flags hlast
    exact (List.filter_sublist.map Parameter.longName).nodup hnodup
  induction steps generalizing t i before with
  | nil =>
    obtain ⟨rfl, rfl⟩ := List.append_eq_nil_iff.mp hsteps.symm
    exact hsection h hi hbare
  | cons step steps ih =>
    obtain ⟨_, t₁, hflagged, h⟩ := exists_of_bind_eq_ok h
    obtain ⟨child, t₂, hstep, h⟩ := exists_of_bind_eq_ok h
    have hgrows :=
      (changes_grows.growFlagsBefore c i threshold (step :: steps) hflags).of_ok hflagged
    have hsame :=
      (flagChanges_samePaths.growFlagsBefore c i threshold (step :: steps) hflags).of_ok hflagged
    have hrest := ((changes_grows.steps.ensureStep c i step).of_ok hstep).trans
      ((changes_grows.steps.growPath c child threshold hflags).of_ok h)
    cases before with
    | nil =>
      -- Here the flag section belongs, since only optional arguments are left.
      have hall : (step :: steps).all Step.isOptional = true :=
        List.all_eq_true.mpr (hsteps ▸ hafter)
      rw [growFlagsBefore, if_pos hall] at hflagged
      obtain ⟨j, hroute, hj⟩ := hsection hflagged hi hbare
      exact ⟨j, hrest.route hroute, hrest.command hj⟩
    | cons step' before =>
      obtain ⟨rfl, hrest'⟩ := List.cons.inj hsteps
      obtain ⟨hedge, hchild, hnext, _⟩ := ensureStep_of_bare ((hsame i).1.trans hbare.literals)
        ((hsame i).2.trans hbare.arguments) (Nat.lt_of_lt_of_le hi hgrows.size_le)
        (fun p hp => hplace p (hp ▸ List.mem_cons_self)) hstep
      obtain ⟨j, hroute, hj⟩ := ih h (fun p hp => hplace p (List.mem_cons_of_mem step hp)) hchild
        hnext hrest'
      have hgrown := (changes_grows.steps.growPath c child threshold hflags).of_ok h
      exact ⟨j, ⟨child, hgrown.edge hedge, hroute⟩, hj⟩

/-- The first command of a tree whose flags form a chain: its first words and arguments, of which
the others are optional, then its required flags and any of its optional flags in order. -/
theorem exists_route_of_insert_empty {s : Settings} {k : Nat} {last : List (Parameter α)}
    (hs : c.Sound) (hthreshold : s.threshold < c.flags.length)
    (h : Growth.insert c (empty s) = .ok () t) (hk : c.Grafts k)
    (hlast : last.Sublist (Parameter.optionals c.flags)) :
    ∃ j, t.Route root
        (c.positionals.take k ++ (Parameter.required c.flags ++ last).map .parameter) j ∧
      (t.node j).command.isSome = true := by
  obtain ⟨t', hgrow, rfl⟩ := growCommand_of_insert_ok h
  obtain ⟨_, _, hget, hgrow⟩ := exists_of_bind_eq_ok hgrow
  obtain ⟨rfl, rfl⟩ := EStateM.Result.ok.inj hget
  obtain ⟨first, t₁, hfirst, hgrow⟩ := exists_of_bind_eq_ok hgrow
  have hbare : ((empty s : Tree α σ).node root).Bare := ⟨rfl, rfl, rfl⟩
  have hstep : ensureStep c root (.literal c.name) (empty s) = .ok first t₁ := hfirst
  obtain ⟨hedge, hlt, hnext, _⟩ := ensureStep_of_bare hbare.literals hbare.arguments Nat.one_pos
    (fun p hp => by cases hp) hstep
  obtain ⟨k, rfl⟩ := Nat.exists_eq_add_one.mpr hk.pos
  obtain ⟨j, hroute, hj⟩ := exists_route_of_growPath hgrow hthreshold hs.named hs.longNames_nodup
    hs.unnamed hlt hnext (List.take_append_drop k c.path).symm hk.rest hlast
  have hgrown := (changes_grows.steps.growPath c first s.threshold hs.named).of_ok hgrow
  have hrecord : t'.Grows { t' with commands := t'.commands.push c } := .of_nodes_eq rfl rfl
  exact ⟨j, ⟨first, hrecord.edge (hgrown.edge hedge), hrecord.route hroute⟩, hj⟩

end CommandLine.Tree
