import CommandLine.Proofs.Search.OneWay
import CommandLine.Proofs.Search.Passed

/-!
# Shorthands at shared nodes

The flags of one command have shorthands of their own, but flags of different commands meet at the
nodes that the commands share, and there only their long names are compared. So two flag children of
a node may have one shorthand. It then selects the child that came first, and the other one can only
be spelled by its long name.

* `shorthand_selects` — whose flags have one shorthand at a node, and which of them it selects;
* `shorthand_shared` — two switches with one shorthand.
-/

set_option autoImplicit false

namespace CommandLine

variable {α σ : Type}

/-- Two flags have one shorthand, but different long names. -/
structure Parameter.Blurs (p p' : Parameter α) : Prop where
  longName_ne : p.longName ≠ p'.longName
  shorthand_eq : ∃ ch, p.shorthand? = some ch ∧ p'.shorthand? = some ch

/-- Two commands have such flags at a place to which both come. -/
def Command.Blurs (c c' : Command α σ) : Prop :=
  ∃ k way, c.Grafts k ∧ c'.Grafts k ∧ c.Passes k way ∧ c'.Passes k way ∧
    ∃ p ∈ c.flags, ∃ p' ∈ c'.flags, p.Blurs p'

namespace Tree

variable {t : Tree α σ} {i j j' : NodeIndex} {p p' : Parameter α} {ch : Char}

namespace Chart

variable {known : Command α σ → Prop} (m : Chart known t) (hs : ∀ c, known c → c.Sound)

include m in
/-- No flag is listed twice at a node. -/
theorem nodup_flagsOf (hi : i < t.nodes.size) : (t.flagsOf i).Nodup := by
  have hflags : (t.node i).flags.Nodup := by
    refine (m.stands i hi).flags_apart.imp_of_mem ?_
    rintro j l hj - hapart rfl
    obtain ⟨q, _, hleads, _⟩ := (m.stands i hi).flag j hj
    exact hapart q q hleads.label_eq hleads.label_eq rfl
  refine hflags.filterMap ?_
  intro j l x hj hl
  obtain ⟨_, _, rfl⟩ := Option.map_eq_some_iff.mp hj
  obtain ⟨_, _, hx⟩ := Option.map_eq_some_iff.mp hl
  exact (congrArg Prod.fst hx).symm

include m in
/-- Different flags of a node have different long names. -/
theorem longName_ne_of_mem_flagsOf (hi : i < t.nodes.size) (h : (j, p) ∈ t.flagsOf i)
    (h' : (j', p') ∈ t.flagsOf i) (hne : j ≠ j') : p.longName ≠ p'.longName := by
  obtain ⟨hj, hp⟩ := mem_flagsOf.mp h
  obtain ⟨hj', hp'⟩ := mem_flagsOf.mp h'
  exact (m.stands i hi).flags_apart.forall hj hj' hne p p' hp hp'

include m hs in
/-- A flag of a node is one of a command whose flag section may begin at the node's place. -/
theorem exists_grafts_of_mem_flagsOf (hi : i < t.nodes.size) (h : (j, p) ∈ t.flagsOf i) :
    ∃ c k, known c ∧ p ∈ c.flags ∧ c.Grafts k ∧ c.Passes k (m.way i) := by
  obtain ⟨hnamed, hleads⟩ := m.leads_of_mem_flagsOf hi h
  obtain ⟨c, hc, hmade⟩ := m.exists_made hleads.label_eq (by simp)
  obtain ⟨k, hk, hpasses⟩ := hmade.grafts p rfl hnamed
  rw [m.way_of_mem_flagsOf hi h] at hpasses
  exact ⟨c, k, hc, (hs c hc).mem_flags (hmade.mem p rfl) hnamed, hk, hpasses⟩

end Chart

/-- A shorthand selects the first child that has it. -/
theorem exists_flagShort?_eq (h : (j, p) ∈ t.flagsOf i) (hch : p.shorthand? = some ch) :
    ∃ before x after, t.flagsOf i = before ++ x :: after ∧ t.flagShort? i ch = some x ∧
      x.2.shorthand? = some ch ∧ ∀ y ∈ before, y.2.shorthand? ≠ some ch := by
  have hsome : (t.flagShort? i ch).isSome = true :=
    List.find?_isSome.mpr ⟨(j, p), h, by simpa using hch⟩
  obtain ⟨x, hx⟩ := Option.isSome_iff_exists.mp hsome
  obtain ⟨hshort, before, after, hflags, hbefore⟩ := List.find?_eq_some_iff_append.mp hx
  exact ⟨before, x, after, hflags, hx, by simpa using hshort, by simpa using hbefore⟩

namespace Populated

variable (h : t.Populated)

include h in
/-- Flag children with one shorthand have different long names, and different commands have such
flags at a place to which both come. -/
theorem exists_blurs (hj : (j, p) ∈ t.flagsOf i) (hj' : (j', p') ∈ t.flagsOf i) (hne : j ≠ j')
    (hch : p.shorthand? = some ch) (hch' : p'.shorthand? = some ch) :
    p.longName ≠ p'.longName ∧ ∃ c ∈ t.commands, ∃ c' ∈ t.commands,
      c ≠ c' ∧ p ∈ c.flags ∧ p' ∈ c'.flags ∧ c.Blurs c' := by
  obtain ⟨m⟩ := h.charted.chart
  have hbuilt := h.charted.built
  have hi : i < t.nodes.size := Child.parent_lt (.inr (.inl (mem_flagsOf.mp hj).1))
  have hlong := m.longName_ne_of_mem_flagsOf hi hj hj' hne
  obtain ⟨c, k, hc, hp, hk, hpasses⟩ :=
    m.exists_grafts_of_mem_flagsOf (fun c hc => (hbuilt c hc).sound) hi hj
  obtain ⟨c', k', hc', hp', hk', hpasses'⟩ :=
    m.exists_grafts_of_mem_flagsOf (fun c hc => (hbuilt c hc).sound) hi hj'
  obtain rfl : k = k' := (hpasses.length_eq hk.le).symm.trans (hpasses'.length_eq hk'.le)
  refine ⟨hlong, c, hc, c', hc', ?_, hp, hp',
    k, m.way i, hk, hk', hpasses, hpasses', p, hp, p', hp', hlong, ch, hch, hch'⟩
  rintro rfl
  obtain rfl := (hbuilt c hc).eq_of_shorthand?_eq hp hp' hch hch'
  exact hlong rfl

variable (hblurs : ∀ c ∈ t.commands, ∀ c' ∈ t.commands, ¬c.Blurs c')

include h hblurs in
/-- Where no two commands have such flags, a shorthand is that of one child. -/
theorem eq_of_shorthand?_eq {x y : NodeIndex × Parameter α} (hx : x ∈ t.flagsOf i)
    (hy : y ∈ t.flagsOf i) (hch : x.2.shorthand? = some ch) (hch' : y.2.shorthand? = some ch) :
    x = y := by
  have hnode : x.1 = y.1 := by
    by_contra hne
    obtain ⟨_, c, hc, c', hc', _, _, _, hblur⟩ := h.exists_blurs hx hy hne hch hch'
    exact hblurs c hc c' hc' hblur
  have hlabel := (mem_flagsOf.mp hx).2
  rw [hnode, (mem_flagsOf.mp hy).2] at hlabel
  exact Prod.ext hnode (Label.parameter.inj hlabel).symm

include h hblurs in
/-- So no two children have one shorthand. -/
theorem nodup_shorthands (i : NodeIndex) :
    ((t.flagsOf i).filterMap fun x => x.2.shorthand?).Nodup := by
  rcases Nat.lt_or_ge i t.nodes.size with hi | hi
  · obtain ⟨m⟩ := h.charted.chart
    refine List.pairwise_filterMap.mpr ((m.nodup_flagsOf hi).pairwise_of_forall_ne ?_)
    rintro x hx y hy hne ch hch ch' hch' rfl
    exact hne (h.eq_of_shorthand?_eq hblurs hx hy hch hch')
  · rw [flagsOf, node_of_size_le hi]
    exact .nil

end Populated

/-- **Which flag a shorthand selects.** At every node of a populated tree:

* flag children with one shorthand have different long names, and are flags of different commands
  that have such flags at a place to which both come;
* a shorthand selects the first of the children that have it;
* so if no two commands have such flags, no two flag children have one shorthand, and the shorthand
  of every flag child selects it. -/
theorem shorthand_selects (h : t.Populated) (i : NodeIndex) :
    (∀ j p j' p' ch, (j, p) ∈ t.flagsOf i → (j', p') ∈ t.flagsOf i → j ≠ j' →
        p.shorthand? = some ch → p'.shorthand? = some ch →
        p.longName ≠ p'.longName ∧ ∃ c ∈ t.commands, ∃ c' ∈ t.commands,
          c ≠ c' ∧ p ∈ c.flags ∧ p' ∈ c'.flags ∧ c.Blurs c') ∧
      (∀ j p ch, (j, p) ∈ t.flagsOf i → p.shorthand? = some ch →
        ∃ before x after, t.flagsOf i = before ++ x :: after ∧ t.flagShort? i ch = some x ∧
          x.2.shorthand? = some ch ∧ ∀ y ∈ before, y.2.shorthand? ≠ some ch) ∧
      ((∀ c ∈ t.commands, ∀ c' ∈ t.commands, ¬c.Blurs c') →
        ((t.flagsOf i).filterMap fun x => x.2.shorthand?).Nodup ∧
          ∀ j p ch, (j, p) ∈ t.flagsOf i → p.shorthand? = some ch →
            t.flagShort? i ch = some (j, p)) := by
  refine ⟨fun j p j' p' ch => h.exists_blurs, fun j p ch => exists_flagShort?_eq,
    fun hblurs => ⟨h.nodup_shorthands hblurs i, ?_⟩⟩
  intro j p ch hj hch
  obtain ⟨before, x, after, hflags, hfind, hshort, _⟩ := exists_flagShort?_eq hj hch
  have hx : x ∈ t.flagsOf i := hflags ▸ List.mem_append_right _ List.mem_cons_self
  rw [hfind, h.eq_of_shorthand?_eq hblurs hx hj hshort hch]

/-- Two commands of one name, the first with a switch and the second with a flag. -/
def blurTree : Tree Unit Unit :=
  (Growth.register loud).after ((Growth.register chatty).after (empty {}))
where
  verbose : Parameter Unit := .switch "verbose"
  volume : Parameter Unit := (Parameter.ofBuiltin "volume" (.integer none none)).asOptional.asFlag
  chatty : Declaration Unit Unit := { name := "log", steps := [.parameter verbose] }
  loud : Declaration Unit Unit :=
    { name := "log", steps := [.parameter volume], action := some fun _ state => state }

theorem populated_blurTree : blurTree.Populated := by
  unfold blurTree
  exact .register_after (.register_after (.empty {} (by decide)) (by decide +kernel))
    (by decide +kernel)

theorem flagsOf_blurTree :
    blurTree.flagsOf 1 = [(2, blurTree.verbose), (3, blurTree.volume)] := rfl

/-- Two flags of a node have one shorthand, and only the first one can be given by it. -/
theorem shorthand_shared :
    blurTree.Populated ∧ ∃ j p j' p', (j, p) ∈ blurTree.flagsOf 1 ∧
      (j', p') ∈ blurTree.flagsOf 1 ∧ j ≠ j' ∧ p.shorthand? = some 'v' ∧
      p'.shorthand? = some 'v' ∧ blurTree.flagShort? 1 'v' ≠ some (j', p') ∧
      (∃ r, blurTree.parse () "log --volume 5" = .ok r ∧
        r.context.bindings.get? p'.name = some (.integer 5)) ∧
      ∃ e, blurTree.parse () "log -v 5" = .error e ∧ e.cause = .trailingInput "5" := by
  refine ⟨populated_blurTree, 2, _, 3, _, flagsOf_blurTree ▸ List.mem_cons_self,
    flagsOf_blurTree ▸ List.mem_cons_of_mem _ List.mem_cons_self, by decide, rfl, rfl, ?_,
    by decide +kernel, by decide +kernel⟩
  intro hshort
  rw [flagShort?, flagsOf_blurTree] at hshort
  cases congrArg (Option.map Prod.fst) hshort

/-- They are flags of different commands. -/
theorem shorthand_selects_blurTree :
    blurTree.Populated ∧ ∃ c ∈ blurTree.commands, ∃ c' ∈ blurTree.commands,
      c ≠ c' ∧ blurTree.verbose ∈ c.flags ∧ blurTree.volume ∈ c'.flags ∧ c.Blurs c' := by
  obtain ⟨hshared, _⟩ := shorthand_selects populated_blurTree 1
  obtain ⟨_, hcommands⟩ := hshared 2 _ 3 _ 'v' (flagsOf_blurTree ▸ List.mem_cons_self)
    (flagsOf_blurTree ▸ List.mem_cons_of_mem _ List.mem_cons_self) (by decide) rfl rfl
  exact ⟨populated_blurTree, hcommands⟩

end Tree

end CommandLine
