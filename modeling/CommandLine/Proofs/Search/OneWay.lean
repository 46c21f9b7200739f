import CommandLine.Proofs.OneChain
import CommandLine.Proofs.Search.Onward

/-!
# Readings without a choice

On the tree of one command that has no arguments, a visit from which a reading goes on has no other
way on: its node has literals or flags below it, but not both, and each is told by the next word. So
the events of all the visits of a reading are the same (`Walks.events_eq`), and where the reading
stops they are what comes of the line.

* `Chart.exists_positional_of_edge` — a node has one word or argument behind it;
* `Chart.literals_eq_nil_of_mem_flagsOf` — no literal is next to a flag;
* `OneWay.branches_eq` — the only branch;
* `Walks.events_eq` — the events along a reading;
* `Chart.exists_mem_flagsOf` — a flag that may be given next is a child.
-/

set_option autoImplicit false

namespace CommandLine

open Text

variable {α σ : Type}

/-- Words cannot be left out, so behind a command without arguments there is one flag section. -/
theorem Command.Grafts.eq_length {c : Command α σ} {k : Nat} (hk : c.Grafts k)
    (hplain : ∀ p, .parameter p ∉ c.path) : k = c.positionals.length := by
  have hnone : c.positionals.drop k = [] := by
    rw [List.eq_nil_iff_forall_not_mem]
    intro step hstep
    cases step with
    | literal w => simpa [Step.isOptional] using hk.rest _ hstep
    | parameter p => exact hplain p (by simpa [positionals] using List.mem_of_mem_drop hstep)
  exact Nat.le_antisymm hk.le (List.drop_eq_nil_iff.mp hnone)

namespace Tree

variable {t : Tree α σ} {c : Command α σ} {i j : NodeIndex} {v w u : Visit α} {turn : Turn α}
  {given : Option (Given α)} {steps : List (Step α)} {q p : Parameter α} {k : Nat}
  {flags : List (Parameter α)}

namespace Chart

/-- A command without arguments has a tree without them. -/
theorem arguments_eq_nil (m : Chart (· = c) t) (hs : c.Sound) (hi : i < t.nodes.size)
    (hplain : ∀ p, .parameter p ∉ c.path) : (t.node i).arguments = [] := by
  rw [List.eq_nil_iff_forall_not_mem]
  intro j hj
  obtain ⟨p, hplace, hleads⟩ := (m.stands i hi).argument j hj
  obtain ⟨_, rfl, hp⟩ := m.exists_command_of_edge hi
    (.of_argument (mem_argumentsOf.mpr ⟨hj, hleads.label_eq⟩))
  rcases Command.mem_parameters.mp hp with hp | hp
  · exact hplain p (by simpa [Command.positionals] using hp)
  · rw [hs.named p hp] at hplace
    cases hplace

/-- A word or an argument behind a node stands for the next one of the command. -/
theorem exists_positional_of_edge (m : Chart (· = c) t) (hi : i < t.nodes.size) {s : Step α}
    (h : t.Edge i s j) (hs : s.isFlag = false) :
    ∃ step, c.positionals[(m.way i).length]? = some step ∧ s.Fits step := by
  have hleads := m.leads_of_edge hi h
  obtain ⟨c', hc', hmade⟩ := m.exists_made hleads.label_eq s.label_ne_root
  obtain rfl : c = c' := hc'.symm
  obtain ⟨k, _, hpasses⟩ := hmade.passes
  have hway : m.way j = m.way i ++ [s] := by
    rw [hleads.way_eq, s.shown_label, List.filter_cons_of_pos (by simp [hs]), List.filter_nil]
  rw [Command.Passes, hway, List.forall₂_iff_get] at hpasses
  obtain ⟨hlength, hfits⟩ := hpasses
  have hlast : (m.way i).length < (m.way i ++ [s]).length := by simp
  have hfit := hfits _ hlast (hlength ▸ hlast)
  exact ⟨_, List.getElem?_eq_getElem _, by simpa using hfit⟩

/-- So what is behind a node, other than flags, stands for one step only. -/
theorem fits_of_edge (m : Chart (· = c) t) (hi : i < t.nodes.size) {s s' : Step α}
    (h : t.Edge i s j) (hs : s.isFlag = false) {l : NodeIndex} (h' : t.Edge i s' l)
    (hs' : s'.isFlag = false) : s.Fits s' := by
  obtain ⟨step, hstep, hfit⟩ := m.exists_positional_of_edge hi h hs
  obtain ⟨step', hstep', hfit'⟩ := m.exists_positional_of_edge hi h' hs'
  obtain rfl := Option.some.inj (hstep.symm.trans hstep')
  exact hfit.trans hfit'.symm

/-- Where a flag section begins no literal may follow, for literals cannot be left out. -/
theorem literals_eq_nil_of_mem_flagsOf (m : Chart (· = c) t) (hi : i < t.nodes.size)
    (h : (j, q) ∈ t.flagsOf i) : (t.node i).literals = [] := by
  rw [List.eq_nil_iff_forall_not_mem]
  rintro ⟨w, l⟩ hl
  obtain ⟨c', k, flags, p, hc', hserves⟩ := m.exists_serves hi h
  obtain rfl : c = c' := hc'.symm
  obtain ⟨step, hstep, hfit⟩ := m.exists_positional_of_edge hi (s := .literal w) hl rfl
  obtain rfl := hfit.of_literal
  rw [hserves.visits.passes.length_eq hserves.grafts.le] at hstep
  have hrest : .literal w ∈ c.positionals.drop k :=
    List.mem_of_getElem? (i := 0) (by rw [List.getElem?_drop, Nat.add_zero, hstep])
  simpa [Step.isOptional] using hserves.grafts.rest _ hrest

/-- A shorthand leads to the only flag child that has it. -/
theorem flagShort?_of_mem_flagsOf (m : Chart (· = c) t) (hc : c.Built) (hi : i < t.nodes.size)
    (h : (j, q) ∈ t.flagsOf i) {ch : Char} (hch : q.shorthand? = some ch) :
    t.flagShort? i ch = some (j, q) := by
  have hflag {l : NodeIndex} {p : Parameter α} (hp : (l, p) ∈ t.flagsOf i) : p ∈ c.flags := by
    obtain ⟨_, rfl, hmem⟩ := m.exists_command_of_edge hi (.of_flag hp)
    exact hc.sound.mem_flags hmem (m.leads_of_mem_flagsOf hi hp).1
  cases hfind : t.flagShort? i ch with
  | none =>
    rw [flagShort?, List.find?_eq_none] at hfind
    exact (hfind _ h (by simpa using hch)).elim
  | some child =>
    obtain ⟨l, p⟩ := child
    have hp := mem_flagsOf_of_flagShort? hfind
    obtain rfl := hc.eq_of_shorthand?_eq (hflag hp) (hflag h) (shorthand?_of_flagShort? hfind) hch
    obtain rfl := m.edge_unique hi (.of_flag hp) (.of_flag h) (.refl _)
    rfl

/-- Behind a flag section that may go on with a flag that flag is a child, and if the section may
end there a line may end at the child. -/
theorem exists_mem_flagsOf (m : Chart (· = c) t) (hs : c.Sound) (hlaid : t.Laid c k)
    (hthreshold : c.flags.length ≤ t.settings.threshold) (hp : p ∈ c.flags)
    (hallows : (t.plan c).Allows (flags ++ [p]))
    (hroute : t.Route root (c.positionals.take k ++ flags.map .parameter) i) :
    ∃ j, (j, p) ∈ t.flagsOf i ∧ (t.node j).command = some c := by
  obtain ⟨j, htrail, hcommand⟩ := hlaid.sections hthreshold _ hallows
  obtain ⟨l, q, ⟨steps, hroute', hfits⟩, hedge, hfit⟩ := htrail.exists_flag
  have hl := (m.way_of_route hroute').1
  have hflags : flags ⊆ c.flags := fun x hx => hallows.subset (List.mem_append_left _ hx)
  obtain rfl := m.eq_of_fits_of_route hs hroute' hflags hfits
  obtain rfl : l = i :=
    m.route_unique m.size_pos hroute' hroute (List.forall₂_same.mpr fun step _ => .refl step)
  obtain ⟨_, rfl, hq⟩ := m.exists_command_of_edge hl hedge
  obtain rfl := hs.eq_of_fits hq (Command.mem_parameters.mpr (.inr hp)) hfit
  obtain ⟨c', hc'⟩ := Option.isSome_iff_exists.mp hcommand
  obtain rfl := m.known_of_command hc'
  exact ⟨j, m.mem_flagsOf_of_edge hl hedge (hs.named q hp), hc'⟩

end Chart

/-! ## Branches -/

/-- What comes of the flag that a word spells, where everyone may use it. -/
theorem attempt_flag_eq_of_spells {e : Cursor} {attached : Bool}
    (hspells : t.Spells v .flag j p e attached)
    (hallows : (t.node j).permission.allows v.context.principal = true) :
    t.attempt v.node v.cursor v.context .flag = some (t.afterFlag j p e v.context attached) := by
  show t.flagBranch? v.node v.cursor v.context = _
  have hsome := flags_isEmpty_of_mem_flagsOf hspells.mem_flagsOf
  cases hspells with
  | long hspelling hchild =>
    simp [flagBranch?, hsome, hspelling, hchild, permitted, hallows]
  | short hspelling he hrest hchild =>
    subst he
    simp [flagBranch?, hsome, hspelling, shorthandBranch?, hrest, hchild, permitted, hallows]

/-- A node has one way on. It has no arguments, and literals or flags below it, but not both. -/
structure OneWay (n : Tree.Node α σ) : Prop where
  arguments : n.arguments = []
  one : n.literals = [] ∨ n.flags = []
  root : n.isRoot = true → n.flags = []

theorem Chart.oneWay (m : Chart (· = c) t) (hs : c.Sound) (hplain : ∀ p, .parameter p ∉ c.path)
    (hi : i < t.nodes.size) : OneWay (t.node i) where
  arguments := m.arguments_eq_nil hs hi hplain
  one := by
    rw [or_iff_not_imp_right]
    intro hne
    obtain ⟨j, hj⟩ := List.exists_mem_of_ne_nil _ hne
    obtain ⟨q, _, hleads, _⟩ := (m.stands i hi).flag j hj
    exact m.literals_eq_nil_of_mem_flagsOf hi (mem_flagsOf.mpr ⟨hj, hleads.label_eq⟩)
  root hroot := by
    refine ((m.stands i hi).top ?_).1
    cases hlabel : (t.node i).label with
    | root => rfl
    | literal | parameter =>
      rw [Node.isRoot, hlabel] at hroot
      cases hroot

/-- Where there is one way on, what comes of it is all. -/
theorem OneWay.branches_eq (h : OneWay (t.node v.node)) (hturn : turn ∈ t.turns v)
    (hne : turn ≠ .mismatch) {b : Branch α σ}
    (hattempt : t.attempt v.node v.cursor v.context turn = some b) : t.branches v = [b] := by
  have hsingle (hturns : t.turns v = [turn]) : t.branches v = [b] := by
    rw [branches, hturns, List.filterMap_cons, hattempt]
    rfl
  cases hv : v.bundled with
  | true =>
    have hturns : t.turns v = [.shorthand] := by simp [turns, hv]
    rw [hturns, List.mem_singleton] at hturn
    exact hsingle (hturn ▸ hturns)
  | false =>
    cases hend : v.cursor.atEnd with
    | true =>
      have hturns : t.turns v = [.finish] := by simp [turns, hv, hend]
      rw [hturns, List.mem_singleton] at hturn
      exact hsingle (hturn ▸ hturns)
    | false =>
      have hturns : t.turns v = [.literal, .flag, .mismatch] := by
        rw [turns_eq hv hend, argumentsOf, h.arguments]
        rfl
      have hbranches : t.branches v =
          [t.literalBranch? v.node v.cursor v.context, t.flagBranch? v.node v.cursor v.context,
            t.mismatchBranch? v.node v.cursor].filterMap id := by
        rw [branches, hturns]
        rfl
      rw [hturns] at hturn
      simp only [List.mem_cons, hne, List.not_mem_nil, or_false] at hturn
      rcases hturn with rfl | rfl
      · -- The word is a literal, so there are no flags, and nothing is amiss.
        obtain ⟨child, hchild, -⟩ := Option.map_eq_some_iff.mp hattempt
        have hflags : (t.node v.node).flags = [] := by
          refine h.one.resolve_left fun hnil => ?_
          rw [Node.literal?, hnil] at hchild
          cases hchild
        have hflag : t.flagBranch? v.node v.cursor v.context = none := by
          simp [flagBranch?, hflags]
        have hmismatch : t.mismatchBranch? v.node v.cursor = none := by
          simp [mismatchBranch?, mismatch?, hchild]
        rw [hbranches, hflag, hmismatch, show t.literalBranch? _ _ _ = _ from hattempt]
        rfl
      · -- The word spells a flag, so there are no literals, and nothing is amiss.
        have hflag : t.flagBranch? v.node v.cursor v.context = some b := hattempt
        have hflags : (t.node v.node).flags ≠ [] := by
          intro hnil
          simp [flagBranch?, hnil] at hflag
        have hspelled : (t.settings.flagSpelling? v.cursor.word).isSome = true := by
          cases hspelling : t.settings.flagSpelling? v.cursor.word with
          | none => simp [flagBranch?, hspelling] at hflag
          | some spelling => rfl
        have hliterals := h.one.resolve_right hflags
        have hnode : (t.node v.node).isRoot = false :=
          Bool.eq_false_iff.mpr fun hroot => hflags (h.root hroot)
        have hliteral : t.literalBranch? v.node v.cursor v.context = none := by
          simp [literalBranch?, Node.literal?, hliterals]
        have hmismatch : t.mismatchBranch? v.node v.cursor = none := by
          simp [mismatchBranch?, mismatch?, Node.literal?, hliterals, hnode, h.arguments, hflags,
            hspelled]
        rw [hbranches, hliteral, hmismatch, hflag]
        rfl

/-- The events of a visit with one way on are those behind it. -/
theorem events_eq_of_branches (h : t.branches v = [.enter w]) : t.events v = t.events w := by
  rw [events_eq, h]
  exact List.append_nil _

/-- Along a reading without a choice the events stay the same. -/
theorem Walks.events_eq (h : t.Walks v steps u) (m : Chart (· = c) t) (hs : c.Sound)
    (hplain : ∀ p, .parameter p ∉ c.path) (hi : v.node < t.nodes.size) :
    t.events v = t.events u := by
  induction h with
  | refl v => rfl
  | @step v w u turn given steps hturn hmove _ ih =>
    have hattempt : t.attempt v.node v.cursor v.context turn = some (.enter w) :=
      attempt_eq_enter_iff.mpr ⟨given, hmove⟩
    have hne : turn ≠ .mismatch := by
      rintro rfl
      simp [attempt, mismatchBranch?] at hattempt
    rw [events_eq_of_branches ((m.oneWay hs hplain hi).branches_eq hturn hne hattempt)]
    exact ih (m.leads_of_edge hi (hmove.edge hturn)).lt

end Tree

end CommandLine
