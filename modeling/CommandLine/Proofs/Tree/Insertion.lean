import CommandLine.Proofs.Tree.Chart

/-!
# What growth does to a chart

Every step of growth redraws the chart of its tree, also a step that is refused: `Chart.Draws` says
so of a growth, and what its answer is like when there is one. The steps compose like the growth
itself (`draws_bind`), so there is one lemma for each function of `Growth`. A step is refused only
where its command clashes with one that the chart knows.

* `draws_ensureStep`, `draws_growFlags`, `draws_growPath` — the layers of a command;
* `draws_growCommand` — a command as a whole: the required flags lead to an end behind every place
  where the flag section may begin, and within the threshold so does every order of the flags.
-/

set_option autoImplicit false

namespace CommandLine

variable {α σ : Type}

/-- Two commands that cannot be in one tree at one place: an argument of one is named like a word of
the other, or their flags of one long name differ in shape. -/
def Command.Clashes (c c' : Command α σ) : Prop :=
  (∃ p ∈ c.parameters, p.isNamed = false ∧ .literal p.name ∈ c'.positionals) ∨
    (∃ p ∈ c'.parameters, p.isNamed = false ∧ .literal p.name ∈ c.positionals) ∨
    ∃ p ∈ c.parameters, ∃ q ∈ c'.parameters, p.isNamed = true ∧ q.isNamed = true ∧
      q.longName = p.longName ∧ q.interchangeable p = false

/-- The flag section of a command behind its first `k` words and arguments is in a tree: the
required flags in the order of their declaration lead to an end, and within the threshold so does
every section that the plan allows. -/
structure Tree.Laid (t : Tree α σ) (c : Command α σ) (k : Nat) : Prop where
  required : t.Ends c k (Parameter.required c.flags)
  sections : c.flags.length ≤ t.settings.threshold →
    ∀ flags, (t.plan c).Allows flags → t.Ends c k flags

/-- What was laid is there in a tree that has grown. -/
theorem Tree.Laid.grow {t t' : Tree α σ} {c : Command α σ} {k : Nat} (h : t.Laid c k)
    (hgrows : t.Grows t') : t'.Laid c k where
  required := hgrows.ends h.required
  sections hlength flags hallows := by
    rw [hgrows.settings_eq] at hlength
    rw [hgrows.plan_eq] at hallows
    exact hgrows.ends (h.sections hlength flags hallows)

namespace Tree.Chart

open CommandLine.Growth

variable {known : Command α σ → Prop} {t t' : Tree α σ} {i j : NodeIndex} {m : Chart known t}
  {m' : Chart known t'} {name : String} {c : Command α σ} {k : Nat} {flags : List (Parameter α)}
  {p q : Parameter α}

/-! ## Places -/

/-- A node past the first `k` words and arguments of a command and past some flags. -/
structure At (m : Chart known t) (c : Command α σ) (k : Nat) (flags : List (Parameter α))
    (i : NodeIndex) : Prop extends t.Visits m.way c k flags i where
  lt : i < t.nodes.size
  below : i ≠ root → 0 < k
  plain : flags = [] → ∀ p, (t.node i).label = .parameter p → p.isNamed = false

/-- The root is the place before the first word. -/
theorem At.of_root (m : Chart known t) (c : Command α σ) : m.At c 0 [] root where
  lt := m.size_pos
  passes := by
    unfold Command.Passes
    rw [m.way_root]
    exact .nil
  trail := .of_root t c
  below h := (h rfl).elim
  plain _ p hp := by rw [m.root_label] at hp; cases hp

/-- A place is one in a chart that extends the one before. -/
theorem At.extend (h : m.At c k flags i) (hm : m.Extends name m') : m'.At c k flags i where
  toVisits := h.toVisits.grow hm.toGrows (hm.way_eq i h.lt)
  lt := Nat.lt_of_lt_of_le h.lt hm.size_le
  below := h.below
  plain hf p hp := h.plain hf p (hm.label_eq i h.lt ▸ hp)

/-- Behind its first word a command is not at the root. -/
theorem At.ne_root (h : m.At c k flags i) (hk : 0 < k) : i ≠ root := by
  rintro rfl
  have hhead := h.passes.head?_eq hk
  rw [m.way_root] at hhead
  cases hhead

/-- Only nodes below the first word of a command, or the root, are places on its way. -/
theorem At.touches (h : m.At c k flags i) :
    i = root ∨ (m.way i).head? = some (.literal c.name) :=
  (Classical.em (i = root)).imp id fun hne => h.passes.head?_eq (h.below hne)

/-- So it is at a node that stands for something. -/
theorem At.label_ne_root (h : m.At c k flags i) (hk : 0 < k) : (t.node i).label ≠ .root := by
  obtain ⟨_, _, hmade⟩ := m.origin i h.lt (h.ne_root hk)
  exact hmade.label_ne

/-- At the root nothing but the first word of a command comes next. -/
theorem At.first_word {w : String} (h : m.At c k flags root)
    (hw : c.positionals[k]? = some (.literal w)) : w = c.name := by
  rcases Nat.eq_zero_or_pos k with rfl | hk
  · exact (Step.literal.inj (Option.some.inj hw)).symm
  · exact (h.ne_root hk rfl).elim

/-- A child for the next word or argument is one place further. -/
theorem At.step {s step : Step α} {label : Tree.Label α} (h : m.At c k [] i)
    (hk : c.positionals[k]? = some step) (hl : t.Leads m.way i j label) (hedge : t.Edge i s j)
    (hshown : label.shown = [s]) (hfit : s.Fits step)
    (hplain : ∀ p, label = .parameter p → p.isNamed = false) : m.At c (k + 1) [] j where
  lt := hl.lt
  passes := by
    rw [hl.way_eq, hshown]
    exact h.passes.step hk hfit
  trail := h.trail.step hk hedge hfit
  below _ := Nat.succ_pos k
  plain _ p hp := hplain p (hl.label_eq ▸ hp)

/-- A child for a flag is past that flag. -/
theorem At.flag (h : m.At c k flags i) (hk : 0 < k) (hl : t.Leads m.way i j (.parameter q))
    (hedge : t.Edge i (.parameter q) j) (hq : q.isNamed = true)
    (hfit : (Step.parameter q).Fits (.parameter p)) : m.At c k (flags ++ [p]) j where
  lt := hl.lt
  passes := by
    rw [hl.way_eq, Label.shown, if_pos hq, List.append_nil]
    exact h.passes
  trail := h.trail.flag hedge hfit
  below _ := hk
  plain hf := by simp at hf

/-! ## Growth over charts -/

/-- Wherever the growth of a command stops, it leaves a tree whose chart extends the one before. If
it is refused, the command clashes with a known one; if not, its answer is as `Q` says. -/
def Draws {β : Type} (m : Chart known t) (c : Command α σ) (g : Growth α σ β)
    (Q : {t' : Tree α σ} → Chart known t' → β → Prop) : Prop :=
  match g t with
  | .ok b t' => ∃ m' : Chart known t', m.Extends c.name m' ∧ Q m' b
  | .error _ t' => ∃ m' : Chart known t', m.Extends c.name m' ∧ ∃ c', known c' ∧ c.Clashes c'

section

variable {β γ : Type} {Q : {t' : Tree α σ} → Chart known t' → β → Prop}
  {R : {t' : Tree α σ} → Chart known t' → γ → Prop}

/-- An answer leaves the chart as it is. -/
theorem draws_pure {b : β} (h : Q m b) : m.Draws c (pure b) Q :=
  ⟨m, .refl c.name m, h⟩

/-- A change is drawn if the chart can be extended for it. -/
theorem draws_modify {f : Tree α σ → Tree α σ}
    {S : {t' : Tree α σ} → Chart known t' → Unit → Prop}
    (h : ∃ m' : Chart known (f t), m.Extends c.name m' ∧ S m' ()) :
    m.Draws c (modify f) S := h

/-- Growths that are drawn compose. -/
theorem draws_bind {g : Growth α σ β} {f : β → Growth α σ γ} (hg : m.Draws c g Q)
    (hf : ∀ {t' : Tree α σ} {m' : Chart known t'} {b : β}, m.Extends c.name m' → Q m' b →
      m'.Draws c (f b) R) : m.Draws c (g >>= f) R := by
  unfold Draws at hg ⊢
  rw [Growth.bind_apply]
  cases hrun : g t with
  | error e t' =>
    rw [hrun] at hg
    exact hg
  | ok b t' =>
    rw [hrun] at hg
    obtain ⟨m', hext, hQ⟩ := hg
    have hrest := hf hext hQ
    unfold Draws at hrest
    simp only
    cases hrun' : f b t' with
    | error e t'' =>
      rw [hrun'] at hrest
      obtain ⟨m'', hext', hclash⟩ := hrest
      exact ⟨m'', hext.trans hext', hclash⟩
    | ok b' t'' =>
      rw [hrun'] at hrest
      obtain ⟨m'', hext', hR⟩ := hrest
      exact ⟨m'', hext.trans hext', hR⟩

/-- What a growth answers is also what follows from it on a chart that extends the one before. -/
theorem Draws.imp {g : Growth α σ β} {S : {t' : Tree α σ} → Chart known t' → β → Prop}
    (hg : m.Draws c g Q) (h : ∀ {t' : Tree α σ} {m' : Chart known t'} {b : β},
      m.Extends c.name m' → Q m' b → S m' b) : m.Draws c g S := by
  unfold Draws at hg ⊢
  cases hrun : g t with
  | error e t' =>
    rw [hrun] at hg
    exact hg
  | ok b t' =>
    rw [hrun] at hg
    obtain ⟨m', hext, hQ⟩ := hg
    exact ⟨m', hext, h hext hQ⟩

end

/-! ## One node at a time -/

/-- Opening a node to more principals keeps the chart. -/
theorem exists_joinPermission (h : m.At c k flags j) (permission : Permission α) :
    ∃ m' : Chart known (t.joinPermission j permission), m.Extends c.name m' := by
  have hstands (hlt : j < t.nodes.size) : t.Stands known m.way m.above j
      { t.node j with permission := (t.node j).permission.or permission } :=
    { m.stands j hlt with
      opened := by
        intro hopen principal
        rw [Permission.allows_or, (m.stands j hlt).opened hopen principal, Bool.true_or] }
  exact ⟨_, m.alter_extends c.name
    (f := fun n => { n with permission := n.permission.or permission }) (fun _ => rfl)
    (fun _ => ⟨List.Subset.refl _, List.Subset.refl _, List.Subset.refl _, id⟩) hstands
    h.touches (fun _ _ _ => rfl)⟩

/-- A word that is attached is the next place of its command. It is refused only if a known command
has an argument of that name there. -/
theorem draws_ensureLiteral {w : String} (hc : known c) (h : m.At c k [] i)
    (hw : c.positionals[k]? = some (.literal w)) :
    m.Draws c (ensureLiteral i w c.permission) fun m' child => m'.At c (k + 1) [] child := by
  have hplain (p : Parameter α) (hp : (Label.literal w : Label α) = .parameter p) :
      p.isNamed = false := by cases hp
  have hstands := m.stands i h.lt
  unfold Draws ensureLiteral
  -- Found, the word is opened to more; new, it extends the chart by a node; and the third case is
  -- that of an argument with the name of the word.
  cases hfind : (t.node i).literal? w with
  | some existing =>
    have hedge : t.Edge i (.literal w) existing := Node.mem_literals_of_literal? hfind
    have hat : m.At c (k + 1) [] existing :=
      h.step hw (hstands.literal w existing hedge) hedge rfl (Step.Fits.refl _) hplain
    obtain ⟨m', hext⟩ := exists_joinPermission hat c.permission
    exact ⟨m', hext, hat.extend hext⟩
  | none =>
    simp only
    split
    · rename_i hrun
      split at hrun
      · cases hrun
      · obtain ⟨rfl, rfl⟩ := EStateM.Result.ok.inj hrun
        obtain ⟨m', hext, hleads, hnode⟩ := m.attach hc (.literal w)
          (f := fun n => { n with literals := n.literals ++ [(w, t.nodes.size)] }) c.permission h.lt
          (fun _ => rfl)
          ⟨List.subset_append_left .., List.Subset.refl _, List.Subset.refl _, id⟩
          ⟨by simp, by simp, ⟨k + 1, Nat.succ_pos k, h.passes.step hw (Step.Fits.refl _)⟩, by simp⟩
          (fun hopen => (hopen c hc).command)
          (fun _ _ hl _ hs =>
            { hs with
              literal := by
                intro v j hj
                rcases List.mem_append.mp hj with hj | hj
                · exact hs.literal v j hj
                · obtain ⟨rfl, rfl⟩ := Prod.mk.inj (List.mem_singleton.mp hj)
                  exact hl
              words_nodup := by
                have hnew : w ∉ (t.node i).literalNames := Node.literal?_eq_none_iff.mp hfind
                rw [Node.literalNames, List.map_append]
                exact hs.words_nodup.append (List.nodup_singleton w)
                  (List.disjoint_singleton.mpr hnew)
              leaf := by
                intro p hp hnamed
                have hplain := h.plain rfl p hp
                rw [hnamed] at hplain
                cases hplain })
          h.touches
          (by
            intro hroot v hv
            subst hroot
            have hne : w ≠ v := h.first_word hw ▸ hv.symm
            simp [Node.literal?, hne])
        exact ⟨m', hext, (h.extend hext).step hw hleads (by rw [Edge, hnode]; simp) rfl
          (Step.Fits.refl _) hplain⟩
    · rename_i hrun
      split at hrun
      · rename_i hany
        obtain ⟨rfl, rfl⟩ := EStateM.Result.error.inj hrun
        obtain ⟨⟨l, q⟩, hl, hname⟩ := List.any_eq_true.mp hany
        obtain ⟨hplace, hleads⟩ := m.leads_of_mem_argumentsOf h.lt hl
        obtain ⟨c', hc', hmade⟩ := m.exists_made hleads.label_eq (by simp)
        obtain rfl : q.name = w := by simpa using hname
        exact ⟨m, .refl _ m, c', hc', .inr (.inl ⟨q, hmade.mem q rfl, hplace,
          List.mem_of_getElem? hw⟩)⟩
      · cases hrun

/-- A flag node for `p` below another node. -/
structure Flagged (m : Chart known t) (c : Command α σ) (k : Nat) (flags : List (Parameter α))
    (p : Parameter α) (i j : NodeIndex) : Prop extends m.At c k (flags ++ [p]) j where
  child : ∃ q : Parameter α, q.isNamed = true ∧ (Step.parameter q).Fits (.parameter p) ∧
    t.Leads m.way i j (.parameter q)

theorem Flagged.extend (h : m.Flagged c k flags p i j) (hm : m.Extends name m')
    (hi : i < t.nodes.size) : m'.Flagged c k flags p i j where
  toAt := h.toAt.extend hm
  child := by
    obtain ⟨q, hq, hfit, hleads⟩ := h.child
    exact ⟨q, hq, hfit, hm.leads hi hleads⟩

/-- A flag with which a section may go on is one of the command. -/
theorem mem_flags_of_begins (h : (t.plan c).Begins (flags ++ [p])) : p ∈ c.flags :=
  h.subset (List.mem_append_right _ List.mem_cons_self)

/-- A flag that is attached is the next place. It is refused only if a known command has a flag of
that long name there in another shape. -/
theorem draws_ensureFlag (hc : known c) (hs : c.Sound) (h : m.At c k flags i) (hk : c.Grafts k)
    (hp : (t.plan c).Begins (flags ++ [p])) :
    m.Draws c (ensureFlag i p) fun m' child => m'.Flagged c k flags p i child := by
  have hflag : p ∈ c.flags := mem_flags_of_begins hp
  have hnamed : p.isNamed = true := hs.named p hflag
  have hmem : p ∈ c.parameters := Command.mem_parameters.mpr (.inr hflag)
  unfold Draws ensureFlag
  cases hfind : t.flagNamed? i p.longName with
  | some found =>
    obtain ⟨existing, q⟩ := found
    obtain ⟨hedge, hlong⟩ := of_flagNamed?_eq_some hfind
    obtain ⟨hq, hleads⟩ := m.leads_of_mem_flagsOf h.lt hedge
    simp only
    -- One of the shape is shared. One of another shape was made by a known command, with which this
    -- one clashes.
    by_cases hshape : q.interchangeable p = true
    · have hat : m.At c k (flags ++ [p]) existing :=
        h.flag hk.pos hleads (.of_flag hedge) hq ⟨hlong, hshape⟩
      rw [if_pos hshape]
      obtain ⟨m', hext⟩ := exists_joinPermission hat p.permission
      exact ⟨m', hext, hat.extend hext, q, hq, ⟨hlong, hshape⟩, hext.leads h.lt hleads⟩
    · rw [if_neg hshape]
      obtain ⟨c', hc', hmade⟩ := m.exists_made hleads.label_eq (by simp)
      exact ⟨m, .refl _ m, c', hc', .inr (.inr ⟨p, hmem, q, hmade.mem q rfl, hnamed, hq,
        hlong, by simpa using hshape⟩)⟩
  | none =>
    have hnew (j : NodeIndex) (r : Parameter α) (hj : (j, r) ∈ t.flagsOf i) :
        r.longName ≠ p.longName := by
      simpa using List.find?_eq_none.mp hfind (j, r) hj
    have hshown : (Label.parameter p).shown = [] := by simp [Label.shown, hnamed]
    have hmade : c.Made (m.way i ++ (Label.parameter p).shown) (.parameter p) := by
      have hpasses : c.Passes k (m.way i ++ (Label.parameter p).shown) := by
        rw [hshown, List.append_nil]
        exact h.passes
      exact ⟨by simp, fun q hq => Label.parameter.inj hq ▸ hmem, ⟨k, hk.pos, hpasses⟩,
        fun _ _ _ => ⟨k, hk, hpasses⟩⟩
    obtain ⟨m', hext, hleads, hnode⟩ := m.attach hc (.parameter p)
      (f := fun n => { n with flags := n.flags ++ [t.nodes.size] }) p.permission h.lt
      (fun _ => rfl) ⟨List.Subset.refl _, List.subset_append_left .., List.Subset.refl _, id⟩
      hmade (fun hopen => (hopen c hc).parameter p hmem)
      (fun hgrows hway hl habove hstands =>
        { hstands with
          flag := by
            intro j hj
            rcases List.mem_append.mp hj with hj | hj
            · exact hstands.flag j hj
            · obtain rfl := List.mem_singleton.mp hj
              exact ⟨p, hnamed, hl, c, k, flags, p, hc, hk, h.toVisits.grow hgrows hway,
                by rw [hgrows.plan_eq]; exact hp, Step.Fits.refl _, .inl habove⟩
          flags_apart := by
            refine List.pairwise_append.mpr ⟨hstands.flags_apart, List.pairwise_singleton .., ?_⟩
            intro j hj l hl' r r' hr hr' hlong
            obtain rfl := List.mem_singleton.mp hl'
            obtain rfl := Label.parameter.inj (hl.label_eq.symm.trans hr')
            have hlt := m.lt_of_child (.inr (.inl hj))
            exact hnew j r (mem_flagsOf.mpr ⟨hj, (hgrows.label_eq j hlt).symm.trans hr⟩) hlong
          top := fun hroot => (h.label_ne_root hk.pos hroot).elim })
      h.touches (fun hroot => (h.ne_root hk.pos hroot).elim)
    have hat := (h.extend hext).flag hk.pos hleads
      (.of_flag (mem_flagsOf.mpr ⟨by rw [hnode]; simp, hleads.label_eq⟩)) hnamed (Step.Fits.refl _)
    exact ⟨m', hext, hat, p, hnamed, Step.Fits.refl _, hleads⟩

/-- An argument that is attached is the next place. It is refused only if a known command has a word
of that name there. -/
theorem draws_ensureArgument (hc : known c) (h : m.At c k [] i) (hk : 0 < k)
    (hp : c.positionals[k]? = some (.parameter p)) (hplace : p.isNamed = false) :
    m.Draws c (ensureArgument i p) fun m' child => m'.At c (k + 1) [] child := by
  have hmem : p ∈ c.parameters := Command.mem_parameters.mpr (.inl (List.mem_of_getElem? hp))
  have hstands := m.stands i h.lt
  unfold Draws ensureArgument
  by_cases hconflict : ((t.node i).literal? p.name).isSome = true
  · rw [if_pos hconflict]
    obtain ⟨l, hl⟩ := Option.isSome_iff_exists.mp hconflict
    have hleads := m.leads_of_literal? h.lt hl
    obtain ⟨c', hc', _, _, ⟨k', _, hpasses⟩, _⟩ := m.exists_made hleads.label_eq (by simp)
    have hword : .literal p.name ∈ m.way l := by
      rw [hleads.way_eq]
      exact List.mem_append_right _ List.mem_cons_self
    obtain ⟨step, hstep, hfit⟩ := (exists_of_mem_forall₂ hpasses).1 _ hword
    obtain rfl := hfit.of_literal
    exact ⟨m, .refl _ m, c', hc', .inl ⟨p, hmem, hplace, List.mem_of_mem_take hstep⟩⟩
  · rw [if_neg hconflict]
    simp only
    cases hfind : (t.argumentsOf i).find? fun child =>
        child.2.name = p.name && child.2.interchangeable p with
    | some found =>
      obtain ⟨existing, q⟩ := found
      have hedge := List.mem_of_find?_eq_some hfind
      obtain ⟨hq', hleads⟩ := m.leads_of_mem_argumentsOf h.lt hedge
      obtain ⟨hname, hshape⟩ : q.name = p.name ∧ q.interchangeable p = true := by
        simpa using List.find?_some hfind
      have hlong : q.longName = p.longName := by
        rw [Parameter.longName_of_positional hq', Parameter.longName_of_positional hplace, hname]
      have hfit : (Step.parameter q).Fits (.parameter p) := ⟨hlong, hshape⟩
      have hat : m.At c (k + 1) [] existing :=
        h.step hp hleads (.of_argument hedge) (by simp [Label.shown, hq']) hfit
          (fun r hr => Label.parameter.inj hr ▸ hq')
      obtain ⟨m', hext⟩ := exists_joinPermission hat p.permission
      exact ⟨m', hext, hat.extend hext⟩
    | none =>
      have hnew (j : NodeIndex) (r : Parameter α) (hj : (j, r) ∈ t.argumentsOf i) :
          ¬(r.name = p.name ∧ r.interchangeable p = true) := by
        simpa using List.find?_eq_none.mp hfind (j, r) hj
      have hshown : (Label.parameter p).shown = [.parameter p] := by simp [Label.shown, hplace]
      have hmade : c.Made (m.way i ++ (Label.parameter p).shown) (.parameter p) := by
        refine ⟨by simp, fun q hq => Label.parameter.inj hq ▸ hmem, ⟨k + 1, Nat.succ_pos k, ?_⟩, ?_⟩
        · rw [hshown]
          exact h.passes.step hp (Step.Fits.refl _)
        · intro q hq hnamed
          rw [← Label.parameter.inj hq, hplace] at hnamed
          cases hnamed
      have hsiblings : (t.argumentsOf i).map Prod.fst = (t.node i).arguments :=
        map_fst_parametersAt fun j hj => (hstands.argument j hj).imp fun r hr => hr.2.label_eq
      have hplaced := placeArgument_perm p t.nodes.size (t.argumentsOf i)
      rw [hsiblings] at hplaced
      obtain ⟨m', hext, hleads, hnode⟩ := m.attach hc (.parameter p)
        (f := fun n =>
          { n with arguments := placeArgument p t.nodes.size (t.argumentsOf i) }) p.permission h.lt
        (fun _ => rfl)
        ⟨List.Subset.refl _, List.Subset.refl _,
          fun j hj => hplaced.mem_iff.mpr (List.mem_cons_of_mem _ hj), id⟩
        hmade (fun hopen => (hopen c hc).parameter p hmem)
        (fun hgrows _ hl _ hs =>
          { hs with
            argument := by
              intro j hj
              rcases List.mem_cons.mp (hplaced.mem_iff.mp hj) with rfl | hj
              · exact ⟨p, hplace, hl⟩
              · exact hs.argument j hj
            arguments_apart := by
              -- The order of siblings does not matter, so the new one may stand in front.
              refine (hplaced.pairwise_iff (Std.Symm.symm _ _)).mpr
                (List.pairwise_cons.mpr ⟨?_, hs.arguments_apart⟩)
              intro j hj q r hq hr halike
              obtain rfl := Label.parameter.inj (hl.label_eq.symm.trans hq)
              have hlt := m.lt_of_child (.inr (.inr hj))
              exact hnew j r (mem_argumentsOf.mpr ⟨hj, (hgrows.label_eq j hlt).symm.trans hr⟩)
                (Std.Symm.symm (r := Parameter.SameArgument) _ _ halike)
            leaf := by
              intro q hq hnamed
              have hplain := h.plain rfl q hq
              rw [hnamed] at hplain
              cases hplain
            top := fun hroot => (h.label_ne_root hk hroot).elim })
        h.touches (fun hroot => (h.ne_root hk hroot).elim)
      have hedge := mem_argumentsOf.mpr
        ⟨by rw [hnode]; exact hplaced.mem_iff.mpr List.mem_cons_self, hleads.label_eq⟩
      exact ⟨m', hext, (h.extend hext).step hp hleads (.of_argument hedge) hshown (Step.Fits.refl _)
        fun r hr => Label.parameter.inj hr ▸ hplace⟩

/-- The next step of a path leads one place further. -/
theorem draws_ensureStep {step : Step α} (hc : known c) (h : m.At c k [] i)
    (hk : c.positionals[k]? = some step) (hplace : ∀ p, step = .parameter p → p.isNamed = false) :
    m.Draws c (ensureStep c i step) fun m' child => m'.At c (k + 1) [] child := by
  cases step with
  | literal w => exact draws_ensureLiteral hc h hk
  | parameter p =>
    have hnamed : p.isNamed = false := hplace p rfl
    have hpos : 0 < k := by
      rcases Nat.eq_zero_or_pos k with rfl | hpos
      · cases hk
      · exact hpos
    have hrun : ensureStep c i (.parameter p) = ensureArgument i p := by
      simp [ensureStep, ensureParameter, hnamed]
    rw [hrun]
    exact draws_ensureArgument hc h hpos hk hnamed

/-- So it is with a parameter at the place of a flag. -/
theorem draws_ensureParameter (hc : known c) (hs : c.Sound) (h : m.At c k flags i)
    (hk : c.Grafts k) (hp : (t.plan c).Begins (flags ++ [p])) :
    m.Draws c (ensureParameter i p) fun m' child => m'.Flagged c k flags p i child := by
  unfold ensureParameter
  rw [if_pos (hs.named p (mem_flags_of_begins hp))]
  exact draws_ensureFlag hc hs h hk hp

/-! ## The flag section -/

/-- A place with a whole flag section behind it is one where a line of the command may end. -/
theorem draws_markEnd (hc : known c) (h : m.At c k flags i) (hk : c.Grafts k)
    (hflags : (t.plan c).Allows flags) :
    m.Draws c (markEnd c i) fun {t'} _ _ => t'.Ends c k flags := by
  -- The node is bound anew only if it is free or the command has an action.
  have hstands (hlt : i < t.nodes.size) : t.Stands known m.way m.above i
      (if (t.node i).command.isNone || c.action.isSome then
        { t.node i with command := some c } else t.node i) := by
    have hs := m.stands i hlt
    split
    · exact
        { hs with
          bound := by
            intro c' hc'
            obtain rfl := Option.some.inj hc'
            exact ⟨hc, k, flags, hk, h.toVisits, hflags⟩ }
    · exact hs
  have hkeeps (n : Tree.Node α σ) : n.Keeps
      (if n.command.isNone || c.action.isSome then { n with command := some c } else n) := by
    split
    · exact ⟨List.Subset.refl _, List.Subset.refl _, List.Subset.refl _, fun _ => rfl⟩
    · exact ⟨List.Subset.refl _, List.Subset.refl _, List.Subset.refl _, id⟩
  have hlabel (n : Tree.Node α σ) :
      (if n.command.isNone || c.action.isSome then { n with command := some c } else n).label =
        n.label := by
    split <;> rfl
  have hext := m.alter_extends c.name hlabel (fun _ => hkeeps _) hstands h.touches
    (fun hroot => (h.ne_root hk.pos hroot).elim)
  refine draws_modify ⟨_, hext, i, hext.trail h.trail, ?_⟩
  show ((t.modifyNode i _).node i).command.isSome = true
  rw [node_modifyNode_self h.lt]
  split
  · rfl
  · rename_i hkept
    rw [Bool.or_eq_true, not_or, Bool.not_eq_true, Option.isNone_eq_false_iff] at hkept
    exact hkept.1

/-- In front of the last optional flags of an order the line may end. -/
theorem draws_markEndBefore {left : List (Parameter α)} {orders : List (List (Parameter α))}
    (hc : known c) (h : m.At c k flags i) (hk : c.Grafts k) (hplan : t.plan c = .orders orders)
    (horder : flags ++ left ∈ orders) :
    m.Draws c (markEndBefore c i left) fun {t'} _ _ =>
      (∀ p ∈ left, p.isOptional = true) → t'.Ends c k flags := by
  unfold markEndBefore
  split
  · rename_i hleft
    have hallows : (t.plan c).Allows flags := by
      rw [hplan]
      exact ⟨left, horder, List.all_eq_true.mp hleft⟩
    exact (draws_markEnd hc h hk hallows).imp fun _ hends _ => hends
  · rename_i hleft
    exact draws_pure fun hall => (hleft (List.all_eq_true.mpr hall)).elim

/-- A row of flags leads to the place behind all of them. -/
theorem draws_growRow {ps : List (Parameter α)} (hc : known c) (hs : c.Sound)
    (h : m.At c k flags i) (hk : c.Grafts k) (hps : (t.plan c).Begins (flags ++ ps)) :
    m.Draws c (growRow i ps) fun m' last => m'.At c k (flags ++ ps) last := by
  induction ps generalizing t flags i with
  | nil => exact draws_pure (by simpa using h)
  | cons p ps ih =>
    rw [List.append_cons] at hps ⊢
    apply draws_bind (draws_ensureParameter hc hs h hk hps.of_append)
    intro t₁ m₁ child hext hchild
    exact ih hchild.toAt (hext.plan_eq c ▸ hps)

/-- One order of the flags: every section that it starts with is laid out. -/
theorem draws_growOrder {ps : List (Parameter α)} {orders : List (List (Parameter α))}
    (hc : known c) (hs : c.Sound) (h : m.At c k flags i) (hk : c.Grafts k)
    (hplan : t.plan c = .orders orders) (horder : flags ++ ps ∈ orders) :
    m.Draws c (growOrder c i ps) fun {t'} _ _ => ∀ given left, ps = given ++ left →
      (∀ p ∈ left, p.isOptional = true) → t'.Ends c k (flags ++ given) := by
  have hallows : (t.plan c).Allows (flags ++ ps) := by
    rw [hplan]
    exact ⟨[], by simpa using horder, by simp⟩
  induction ps generalizing t flags i with
  | nil =>
    refine (draws_markEnd hc h hk (by simpa using hallows)).imp ?_
    intro t' m' _ _ hends given left heq _
    obtain ⟨rfl, _⟩ := List.append_eq_nil_iff.mp heq.symm
    simpa using hends
  | cons p ps ih =>
    rw [List.append_cons] at hallows
    apply draws_bind (draws_markEndBefore hc h hk hplan horder)
    intro t₁ m₁ _ hext hends
    have hplan₁ : t₁.plan c = t.plan c := hext.plan_eq c
    have hbegins : (t₁.plan c).Begins (flags ++ [p]) := hplan₁ ▸ hallows.begins.of_append
    apply draws_bind (draws_ensureParameter hc hs (h.extend hext) hk hbegins)
    intro t₂ m₂ child hext' hchild
    have hplan₂ : t₂.plan c = t.plan c := (hext'.plan_eq c).trans hplan₁
    refine (ih hchild.toAt (hplan₂.trans hplan) (by simpa using horder) (hplan₂ ▸ hallows)).imp ?_
    intro t₃ m₃ _ hext'' hrest given left heq hleft
    -- With no flag given the command ends at this node, which `markEndBefore` has bound.
    cases given with
    | nil =>
      rw [List.nil_append] at heq
      rw [List.append_nil]
      exact hext''.ends (hext'.ends (hends (heq ▸ hleft)))
    | cons q given =>
      obtain ⟨rfl, hps⟩ := List.cons.inj heq
      rw [List.append_cons]
      exact hrest given left hps hleft

/-- Once orders are grown, lines may end behind any flags that they allow. -/
theorem draws_growOrders {orders all : List (List (Parameter α))} (hc : known c) (hs : c.Sound)
    (h : m.At c k [] i) (hk : c.Grafts k) (hplan : t.plan c = .orders all) (hsub : orders ⊆ all) :
    m.Draws c (growOrders c i orders) fun {t'} _ _ =>
      ∀ given, (FlagPlan.orders orders).Allows given → t'.Ends c k given := by
  induction orders generalizing t with
  | nil =>
    refine draws_pure ?_
    rintro given ⟨left, hmem, _⟩
    cases hmem
  | cons order orders ih =>
    apply draws_bind (draws_growOrder hc hs h hk hplan
      (by simpa using hsub List.mem_cons_self))
    intro t₁ m₁ _ hext horder
    refine (ih (h.extend hext) ((hext.plan_eq c).trans hplan)
      fun o ho => hsub (List.mem_cons_of_mem order ho)).imp ?_
    rintro t₂ m₂ _ hext' horders given ⟨left, hmem, hleft⟩
    rcases List.mem_cons.mp hmem with heq | hmem
    · exact hext'.ends (by simpa using horder given left heq.symm hleft)
    · exact horders given ⟨left, hmem, hleft⟩

/-! ## Chains -/

/-- A flag node directly behind the required flags of a chain. -/
structure Link (m : Chart known t) (c : Command α σ) (k : Nat) (required : List (Parameter α))
    (base e : NodeIndex) (p : Parameter α) : Prop extends m.At c k (required ++ [p]) e where
  way_eq : m.way e = m.way base

/-- The flags of a chain stay at their places. -/
theorem Link.extend {required : List (Parameter α)} {base e : NodeIndex}
    (h : m.Link c k required base e p) (hbase : base < t.nodes.size) (hm : m.Extends name m') :
    m'.Link c k required base e p where
  toAt := h.toAt.extend hm
  way_eq := by rw [hm.way_eq e h.lt, hm.way_eq base hbase, h.way_eq]

/-- A flag node stands at the same place as its parent. -/
theorem Flagged.link {required : List (Parameter α)} {base : NodeIndex}
    (h : m.Flagged c k required p base j) : m.Link c k required base j p where
  toAt := h.toAt
  way_eq := by
    obtain ⟨q, hq, _, hleads⟩ := h.child
    rw [hleads.way_eq, Label.shown, if_pos hq, List.append_nil]

/-- A flag node is linked where its long name is not taken. -/
theorem shareFlag_eq {e : NodeIndex} (hlabel : (t.node j).label = .parameter q) :
    t.shareFlag j e = t ∨
      (∀ l r, (l, r) ∈ t.flagsOf e → r.longName ≠ q.longName) ∧
        t.shareFlag j e = t.modifyNode e fun n => { n with flags := n.flags ++ [j] } := by
  unfold shareFlag
  rw [Node.parameter?_eq_some.mpr hlabel]
  simp only
  split
  · exact .inl rfl
  · rename_i hnone
    refine .inr ⟨?_, rfl⟩
    intro l r hl
    rw [flagNamed?, Option.not_isSome_iff_eq_none, List.find?_eq_none] at hnone
    simpa using hnone (l, r) hl

/-- A link from one optional flag of a chain to a later one. -/
theorem exists_shareFlag {required : List (Parameter α)} {base e : NodeIndex} {r : Parameter α}
    (hc : known c) (hk : c.Grafts k) (he : m.Link c k required base e r)
    (hchild : m.Flagged c k required p base j)
    (hp : (t.plan c).Begins (required ++ [r] ++ [p]))
    (hlinked : ¬c.Unlinked t.settings.threshold) :
    ∃ m' : Chart known (t.shareFlag j e), m.Extends c.name m' := by
  obtain ⟨q, hq, hfit, hleads⟩ := hchild.child
  rcases shareFlag_eq (e := e) hleads.label_eq with heq | ⟨hnew, heq⟩ <;> rw [heq]
  · exact ⟨m, .refl c.name m⟩
  · have hl : t.Leads m.way e j (.parameter q) :=
      ⟨hleads.lt, hleads.label_eq, by rw [hleads.way_eq, he.way_eq]⟩
    have hstands (hlt : e < t.nodes.size) : t.Stands known m.way m.above e
        { t.node e with flags := (t.node e).flags ++ [j] } :=
      { m.stands e hlt with
        flag := by
          intro l hmem
          rcases List.mem_append.mp hmem with hmem | hmem
          · exact (m.stands e hlt).flag l hmem
          · obtain rfl := List.mem_singleton.mp hmem
            exact ⟨q, hq, hl, c, k, _, p, hc, hk, he.toVisits, hp, hfit, .inr hlinked⟩
        -- The new child is the only one of its long name: otherwise nothing would have been shared.
        flags_apart := by
          refine List.pairwise_append.mpr
            ⟨(m.stands e hlt).flags_apart, List.pairwise_singleton .., ?_⟩
          intro l hmem l' hmem' s s' hs hs' hlong
          obtain rfl := List.mem_singleton.mp hmem'
          obtain rfl := Label.parameter.inj (hl.label_eq.symm.trans hs')
          exact hnew l s (mem_flagsOf.mpr ⟨hmem, hs⟩) hlong
        top := fun hroot => (he.label_ne_root hk.pos hroot).elim }
    exact ⟨_, m.alter_extends c.name (f := fun n => { n with flags := n.flags ++ [j] })
      (fun _ => rfl)
      (fun _ => ⟨List.Subset.refl _, List.subset_append_left .., List.Subset.refl _, id⟩) hstands
      he.touches (fun hroot => (he.ne_root hk.pos hroot).elim)⟩

/-- Links from earlier flags can be drawn one after the other. -/
theorem exists_shareFlags {required : List (Parameter α)} {base : NodeIndex}
    {earlier : List NodeIndex} {done : List (Parameter α)} (hc : known c) (hk : c.Grafts k)
    (hbase : base < t.nodes.size) (hearlier : List.Forall₂ (m.Link c k required base) earlier done)
    (hchild : m.Flagged c k required p base j)
    (hp : ∀ r ∈ done, (t.plan c).Begins (required ++ [r] ++ [p]))
    (hlinked : done ≠ [] → ¬c.Unlinked t.settings.threshold) :
    ∃ m' : Chart known (earlier.foldl (shareFlag j) t), m.Extends c.name m' := by
  induction earlier generalizing t done with
  | nil => exact ⟨m, .refl c.name m⟩
  | cons e earlier ih =>
    cases hearlier with
    | @cons _ r _ done he hearlier =>
      have hne : ¬c.Unlinked t.settings.threshold := hlinked (List.cons_ne_nil r done)
      obtain ⟨m₁, hext⟩ := exists_shareFlag hc hk he hchild (hp r List.mem_cons_self) hne
      have hlt : base < (t.shareFlag j e).nodes.size := Nat.lt_of_lt_of_le hbase hext.size_le
      obtain ⟨m₂, hext'⟩ := ih (m := m₁) hlt
        (hearlier.imp fun _ _ hlink => hlink.extend hbase hext) (hchild.extend hext hbase)
        (fun r' hr' => hext.plan_eq c ▸ hp r' (List.mem_cons_of_mem r hr'))
        (fun _ => hext.settings_eq ▸ hne)
      exact ⟨m₂, hext.trans hext'⟩

/-- A chain links each of its optional flags behind every earlier one. -/
theorem draws_growChain {required optionals done ps : List (Parameter α)} {base : NodeIndex}
    {earlier : List NodeIndex} (hc : known c) (hs : c.Sound) (h : m.At c k required base)
    (hk : c.Grafts k) (hplan : t.plan c = .chain required optionals)
    (hoptionals : optionals = done ++ ps)
    (hearlier : List.Forall₂ (m.Link c k required base) earlier done)
    (hlinked : c.Unlinked t.settings.threshold → optionals.length ≤ 1) :
    m.Draws c (growChain c base earlier ps) fun _ _ => True := by
  induction ps generalizing t earlier done with
  | nil => exact draws_pure trivial
  | cons p ps ih =>
    have hallows {given : List (Parameter α)} (hgiven : given.Sublist optionals) :
        (t.plan c).Allows (required ++ given) := by
      rw [hplan]
      exact ⟨given, rfl, hgiven⟩
    have hp : [p].Sublist optionals := by simp [hoptionals]
    -- An earlier flag and this one may be given together, which is what a link between them stands
    -- for.
    have hafter (r : Parameter α) (hr : r ∈ done) : [r, p].Sublist optionals := by
      rw [hoptionals]
      exact (List.singleton_sublist.mpr hr).append
        (List.singleton_sublist.mpr (List.mem_cons_self (a := p)))
    apply draws_bind (draws_ensureParameter hc hs h hk (hallows hp).begins)
    intro t₁ m₁ child hext hchild
    apply draws_bind (draws_markEnd hc hchild.toAt hk (hext.plan_eq c ▸ hallows hp))
    intro t₂ m₂ _ hext' _
    have hext₂ := hext.trans hext'
    have hchild₂ := hchild.extend hext' (h.extend hext).lt
    have hbase₂ := h.extend hext₂
    have hearlier₂ : List.Forall₂ (m₂.Link c k required base) earlier done :=
      hearlier.imp fun _ _ hlink => hlink.extend h.lt hext₂
    -- A second flag in the chain means that the command does make links.
    have hne (hdone : done ≠ []) : ¬c.Unlinked t₂.settings.threshold := by
      rw [hext₂.settings_eq]
      intro hunlinked
      have hlength := hlinked hunlinked
      have hpos := List.length_pos_iff.mpr hdone
      rw [hoptionals, List.length_append, List.length_cons] at hlength
      omega
    apply draws_bind (Q := fun {t'} m' _ => m₂.Extends c.name m')
    · obtain ⟨m₃, hext''⟩ := exists_shareFlags hc hk hbase₂.lt hearlier₂ hchild₂
        (fun r hr => by
          rw [hext₂.plan_eq, List.append_assoc]
          exact (hallows (hafter r hr)).begins)
        hne
      exact draws_modify ⟨m₃, hext'', hext''⟩
    · intro t₃ m₃ _ hext'' _
      have hext₃ := hext₂.trans hext''
      have hoptionals₃ : optionals = (done ++ [p]) ++ ps := by simpa using hoptionals
      apply ih (hbase₂.extend hext'') ((hext₃.plan_eq c).trans hplan) hoptionals₃
      · refine List.rel_append (hearlier₂.imp fun _ _ hlink => hlink.extend hbase₂.lt hext'') ?_
        exact .cons (hchild₂.link.extend hbase₂.lt hext'') .nil
      · rw [hext₃.settings_eq]
        exact hlinked

/-! ## The path -/

/-- The flag section below a node that has only optional arguments after it. -/
theorem draws_growFlags (hc : known c) (hs : c.Sound) (h : m.At c k [] i) (hk : c.Grafts k) :
    m.Draws c (growFlags c i (t.plan c)) fun {t'} _ _ => t'.Laid c k := by
  have hrequired : (t.plan c).Allows (Parameter.required c.flags) :=
    FlagPlan.allows_required t.settings.threshold c.flags
  cases hplan : t.plan c with
  | orders orders =>
    refine (draws_growOrders hc hs h hk hplan (List.Subset.refl _)).imp ?_
    intro t' m' _ hext hends
    rw [hplan] at hrequired
    refine ⟨hends _ hrequired, ?_⟩
    intro _ given hgiven
    rw [hext.plan_eq, hplan] at hgiven
    exact hends given hgiven
  | chain required optionals =>
    -- A chain is only planned beyond the threshold, so nothing is owed to the sections within it.
    obtain ⟨hthreshold, rfl, rfl⟩ : t.settings.threshold < c.flags.length ∧
        Parameter.required c.flags = required ∧ Parameter.optionals c.flags = optionals := by
      unfold plan FlagPlan.ofFlags at hplan
      split at hplan
      · rename_i hthreshold
        exact ⟨hthreshold, FlagPlan.chain.inj hplan⟩
      · cases hplan
    apply draws_bind (draws_growRow hc hs h hk (by simpa using hrequired.begins))
    intro t₁ m₁ base hext hbase
    rw [List.nil_append] at hbase
    apply draws_bind (draws_markEnd hc hbase hk (hext.plan_eq c ▸ hrequired))
    intro t₂ m₂ _ hext' hends
    have hext₂ := hext.trans hext'
    have hlinked (hunlinked : c.Unlinked t₂.settings.threshold) :
        (Parameter.optionals c.flags).length ≤ 1 := by
      rw [hext₂.settings_eq] at hunlinked
      exact hunlinked.resolve_left (by omega)
    refine (draws_growChain hc hs (hbase.extend hext') hk ((hext₂.plan_eq c).trans hplan)
      (List.nil_append _).symm .nil hlinked).imp ?_
    intro t₃ m₃ _ hext'' _
    refine ⟨hext''.ends hends, ?_⟩
    intro hlength
    rw [(hext₂.trans hext'').settings_eq] at hlength
    omega

/-- Where the flag section is grown, it is laid. -/
theorem draws_growFlagsBefore (hc : known c) (hs : c.Sound) (h : m.At c k [] i)
    (hpos : 0 < k) (hle : k ≤ c.positionals.length) :
    m.Draws c (growFlagsBefore c i (t.plan c) (c.positionals.drop k)) fun {t'} _ _ =>
      c.Grafts k → t'.Laid c k := by
  unfold growFlagsBefore
  split
  · rename_i hrest
    exact (draws_growFlags hc hs h ⟨hpos, hle, List.all_eq_true.mp hrest⟩).imp
      fun _ hlaid _ => hlaid
  · rename_i hrest
    exact draws_pure fun hk => (hrest (List.all_eq_true.mpr hk.rest)).elim

/-- The rest of a path, with the flag section wherever it belongs. -/
theorem draws_growPath {plan : FlagPlan α} {steps : List (Step α)} (hc : known c) (hs : c.Sound)
    (h : m.At c k [] i) (hpos : 0 < k) (hle : k ≤ c.positionals.length)
    (hsteps : c.positionals.drop k = steps) (hplan : t.plan c = plan) :
    m.Draws c (growPath c plan i steps) fun {t'} _ _ => ∀ l, k ≤ l → c.Grafts l → t'.Laid c l := by
  induction steps generalizing t k i with
  | nil =>
    subst hplan
    refine (draws_growFlags hc hs h ⟨hpos, hle, by simp [hsteps]⟩).imp ?_
    intro t' m' _ _ hlaid l hkl hl
    have hlength : c.positionals.length ≤ k := List.drop_eq_nil_iff.mp hsteps
    obtain rfl : k = l := Nat.le_antisymm hkl (Nat.le_trans hl.le hlength)
    exact hlaid
  | cons step steps ih =>
    have hstep : c.positionals[k]? = some step := by
      rw [← Nat.add_zero k, ← List.getElem?_drop, hsteps, List.getElem?_cons_zero]
    have hplace (p : Parameter α) (hp : step = .parameter p) : p.isNamed = false := by
      have hmem : step ∈ c.positionals := List.mem_of_getElem? hstep
      rw [hp, Command.positionals, List.mem_cons] at hmem
      exact hs.unnamed p (hmem.resolve_left (by simp))
    have hlt : k < c.positionals.length := (List.getElem?_eq_some_iff.mp hstep).1
    apply draws_bind (hsteps ▸ hplan ▸ draws_growFlagsBefore hc hs h hpos hle)
    intro t₁ m₁ _ hext hlaid
    apply draws_bind (draws_ensureStep hc (h.extend hext) hstep hplace)
    intro t₂ m₂ child hext' hchild
    have hext₂ := hext.trans hext'
    refine (ih hchild (Nat.succ_pos k) hlt ?_ ((hext₂.plan_eq c).trans hplan)).imp ?_
    · rw [← List.drop_drop, hsteps, List.drop_one, List.tail_cons]
    · -- The end in front of this step was laid before it; the later ends are the rest's.
      intro t₃ m₃ _ hext'' hrest l hkl hl
      rcases Nat.eq_or_lt_of_le hkl with rfl | hlt
      · exact (hlaid hl).grow (hext'.trans hext'').toGrows
      · exact hrest l hlt hl

/-- A command below the root: its flag section is wherever only optional arguments are left. -/
theorem draws_growCommand (hc : known c) (hs : c.Sound) :
    m.Draws c (growCommand c) fun {t'} _ _ => ∀ k, c.Grafts k → t'.Laid c k := by
  have hgrow : m.Draws c
      (ensureLiteral root c.name c.permission >>= fun first =>
        growPath c (.ofFlags t.settings.threshold c.flags) first c.path)
      fun {t'} _ _ => ∀ k, c.Grafts k → t'.Laid c k := by
    apply draws_bind (draws_ensureLiteral hc (.of_root m c) rfl)
    intro t₁ m₁ first hext hfirst
    refine (draws_growPath hc hs hfirst (Nat.succ_pos 0) (Nat.succ_pos _) rfl
      (hext.plan_eq c)).imp ?_
    intro t₂ m₂ _ _ hlaid k hk
    exact hlaid k hk.pos hk
  exact hgrow

end Tree.Chart

end CommandLine
