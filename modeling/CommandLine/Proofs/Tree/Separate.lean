import CommandLine.Proofs.Tree.Steps

/-!
# Ways into the ends of a command

Every route into a node where a command is bound goes past the words and arguments of the command.
Of the flags on it that much cannot be said: the links of a chain lead from flag node to flag node,
and where another command shares these nodes, its lines may follow them too. Where no other command
shares them (`Separate`), every route into an end goes past a flag section that the plan of the
command allows.

A route is compared with the trail on which its command came to the node. Two parents of one flag
node mean that a chain was linked there, and what may follow a flag of a chain does not depend on
what came before it.

* `Chart.passes_of_bound` — the words and arguments on a route into an end;
* `Chart.exists_fits_of_bound` — the flags, if the command is separate;
* `Chart.exists_meets_of_bound` — whose flags they are;
* `Tree.Orderly` — when they are the command's own, also by name.
-/

set_option autoImplicit false

namespace CommandLine

variable {α σ : Type}

/-- Two commands have flags of one long name at a place to which both come. -/
def Command.Meets (c c' : Command α σ) : Prop :=
  ∃ k way, c.Grafts k ∧ c'.Grafts k ∧ c.Passes k way ∧ c'.Passes k way ∧
    ∃ p ∈ c.flags, ∃ p' ∈ c'.flags, p.longName = p'.longName

/-- No other command meets the command, unless neither of the two links flag nodes. -/
def Command.Separate (known : Command α σ → Prop) (threshold : Nat) (c : Command α σ) : Prop :=
  ∀ c', known c' → c'.Meets c → c' = c ∨ c'.Unlinked threshold ∧ c.Unlinked threshold

/-- A way past the first words and arguments is as long. -/
theorem Command.Passes.length_eq {c : Command α σ} {k : Nat} {way : List (Step α)}
    (h : c.Passes k way) (hk : k ≤ c.positionals.length) : way.length = k := by
  rw [List.Forall₂.length_eq h, List.length_take, Nat.min_eq_left hk]

namespace Tree.Chart

variable {known : Command α σ → Prop} {t : Tree α σ} {i j : NodeIndex} {c c' : Command α σ}
  {k k' : Nat} {flags : List (Parameter α)} {p q : Parameter α} {steps : List (Step α)}
  {step : Step α}

/-! ## Routes and trails -/

/-- The words and arguments on a route into an end are those of its command. -/
theorem passes_of_bound (m : Chart known t) (hroute : t.Route root steps i)
    (hcommand : (t.node i).command = some c) :
    known c ∧ ∃ k, c.Grafts k ∧ c.Passes k (steps.filter (!·.isFlag)) := by
  obtain ⟨hi, hway⟩ := m.way_of_route hroute
  obtain ⟨hc, k, _, hk, hvisits, _⟩ := (m.stands i hi).bound c hcommand
  exact ⟨hc, k, hk, hway ▸ hvisits.passes⟩

/-- A flag child belongs to the chart's commands. -/
theorem exists_serves (m : Chart known t) (hi : i < t.nodes.size) (h : (j, q) ∈ t.flagsOf i) :
    ∃ c k flags p, known c ∧ t.Serves m.way m.above c k flags p i j q := by
  obtain ⟨hmem, hlabel⟩ := mem_flagsOf.mp h
  obtain ⟨q', _, hleads, c, k, flags, p, hc, hserves⟩ := (m.stands i hi).flag j hmem
  obtain rfl := Label.parameter.inj (hlabel.symm.trans hleads.label_eq)
  exact ⟨c, k, flags, p, hc, hserves⟩

/-- A flag node with a second parent belongs to one chain, on which the first parent is too. -/
theorem exists_serves_of_ne (m : Chart known t) (hs : c.Sound)
    (hsep : c.Separate known t.settings.threshold) (hk : c.Grafts k)
    (hpasses : c.Passes k (m.way j)) (hp : p ∈ c.flags) (hlong : q.longName = p.longName)
    (hi : i < t.nodes.size) (hq : (j, q) ∈ t.flagsOf i) {i' : NodeIndex} (hi' : i' < t.nodes.size)
    (hq' : (j, q) ∈ t.flagsOf i') (hne : i ≠ i') :
    ¬c.Unlinked t.settings.threshold ∧ ∃ flags, t.Serves m.way m.above c k flags p i j q := by
  -- Whatever command the child belongs to below one of its parents meets `c` at the node.
  have hmeets {l : NodeIndex} (hl : l < t.nodes.size) (hql : (j, q) ∈ t.flagsOf l)
      {c' : Command α σ} {k' : Nat} {flags : List (Parameter α)} {p' : Parameter α}
      (hserves : t.Serves m.way m.above c' k' flags p' l j q) :
      k' = k ∧ p'.longName = p.longName ∧ p' ∈ c'.flags ∧ c'.Meets c := by
    have hpasses' := hserves.visits.passes
    rw [← m.way_of_mem_flagsOf hl hql] at hpasses'
    have hlength := (hpasses'.length_eq hserves.grafts.le).symm.trans (hpasses.length_eq hk.le)
    have hp' := mem_flags_of_begins hserves.begins
    have hlong' : p'.longName = p.longName := hserves.fits.1.symm.trans hlong
    exact ⟨hlength, hlong', hp', k, m.way j, hlength ▸ hserves.grafts, hk, hlength ▸ hpasses',
      hpasses, p', hp', p, hp, hlong'⟩
  obtain ⟨c₁, k₁, flags, p₁, hc₁, hserves⟩ := m.exists_serves hi hq
  obtain ⟨c₂, _, _, _, hc₂, hserves'⟩ := m.exists_serves hi' hq'
  obtain ⟨rfl, hlong₁, hp₁, hmeets₁⟩ := hmeets hi hq hserves
  obtain ⟨_, _, _, hmeets₂⟩ := hmeets hi' hq' hserves'
  obtain ⟨rfl, hlinked⟩ : c₁ = c ∧ ¬c.Unlinked t.settings.threshold := by
    rcases hserves.above with habove | hlinked
    · -- The node was made for one parent only, so the other one has it by a link.
      have hlinked := hserves'.above.resolve_left fun habove' => hne (habove.symm.trans habove')
      obtain rfl := (hsep c₂ hc₂ hmeets₂).resolve_right fun h => hlinked h.1
      exact ⟨(hsep c₁ hc₁ hmeets₁).resolve_right fun h => hlinked h.2, hlinked⟩
    · obtain rfl := (hsep c₁ hc₁ hmeets₁).resolve_right fun h => hlinked h.1
      exact ⟨rfl, hlinked⟩
  obtain rfl : p₁ = p := List.inj_on_of_nodup_map hs.longNames_nodup hp₁ hp hlong₁
  exact ⟨hlinked, flags, hserves⟩

/-- What may follow a flag of a linked command does not depend on what came before it. -/
theorem allows_exchange_of_linked (hs : c.Sound) (hlinked : ¬c.Unlinked t.settings.threshold)
    {us us' vs : List (Parameter α)} (h : (t.plan c).Allows (us ++ p :: vs))
    (h' : (t.plan c).Begins (us' ++ [p])) : (t.plan c).Allows (us' ++ p :: vs) := by
  have hthreshold : t.settings.threshold < c.flags.length :=
    Nat.lt_of_not_le fun hle => hlinked (.inl hle)
  have hplan : t.plan c =
      .chain (Parameter.required c.flags) (Parameter.optionals c.flags) := by
    rw [plan, FlagPlan.ofFlags, if_pos hthreshold]
  have hnodup : (Parameter.required c.flags ++ Parameter.optionals c.flags).Nodup :=
    (Parameter.required_append_optionals_perm c.flags).nodup_iff.mpr (.of_map _ hs.longNames_nodup)
  obtain ⟨vs', h'⟩ := h'
  rw [List.append_assoc] at h'
  rw [hplan] at h h' ⊢
  exact FlagPlan.allows_exchange hnodup h h'

/-- A route to a node to which a command comes goes past flags of the command, after which it may go
on as after those of its own trail. -/
theorem exists_fits_of_route (m : Chart known t) (hs : ∀ c, known c → c.Sound)
    (hsep : c.Separate known t.settings.threshold) (hroute : t.Route root steps i)
    (hc : known c) (hk : c.Grafts k) (hvisits : t.Visits m.way c k flags i)
    (hbegins : (t.plan c).Begins flags) :
    ∃ given, List.Forall₂ Step.Fits steps (c.positionals.take k ++ given.map .parameter) ∧
      ∀ rest, (t.plan c).Allows (flags ++ rest) → (t.plan c).Allows (given ++ rest) := by
  induction steps using List.reverseRecOn generalizing i flags with
  | nil =>
    obtain rfl : root = i := hroute
    have hhead := hvisits.passes.head?_eq hk.pos
    rw [m.way_root] at hhead
    cases hhead
  | append_singleton steps step ih =>
    obtain ⟨hi, hway⟩ := m.way_of_route hroute
    by_cases hflag : t.FlagNode i
    · -- The node is a flag's, so its parent on the trail is compared with that on the route.
      cases flags using List.reverseRecOn with
      | nil => exact (m.not_flagNode_of_trail (hs c hc) hvisits.trail hflag).elim
      | append_singleton flags p =>
        have hp : p ∈ c.flags := mem_flags_of_begins hbegins
        obtain ⟨l, hbefore, hedge⟩ := exists_route_snoc hroute
        obtain ⟨l', q, htrail, hedge', hfit⟩ := hvisits.trail.exists_flag
        have hl := (m.way_of_route hbefore).1
        have hl' : l' < t.nodes.size := by
          obtain ⟨_, hroute', _⟩ := htrail
          exact (m.way_of_route hroute').1
        obtain ⟨q₁, rfl, hq⟩ := m.exists_mem_flagsOf_of_edge hl hedge hflag
        obtain ⟨q₂, hq₂, hq'⟩ := m.exists_mem_flagsOf_of_edge hl' hedge' hflag
        obtain rfl := Step.parameter.inj hq₂
        obtain rfl := Label.parameter.inj
          ((mem_flagsOf.mp hq).2.symm.trans (mem_flagsOf.mp hq').2)
        have hwayl := m.way_of_mem_flagsOf hl hq
        obtain ⟨before, hvisits', hbegins', hallows'⟩ : ∃ before, t.Visits m.way c k before l ∧
            (t.plan c).Begins (before ++ [p]) ∧ ∀ rest, (t.plan c).Allows (flags ++ p :: rest) →
              (t.plan c).Allows (before ++ p :: rest) := by
          by_cases hparent : l = l'
          · subst hparent
            exact ⟨flags, ⟨hwayl ▸ hvisits.passes, htrail⟩, hbegins, fun _ h => h⟩
          · obtain ⟨hlinked, before, hserves⟩ := m.exists_serves_of_ne (hs c hc) hsep hk
              hvisits.passes hp hfit.1 hl hq hl' hq' hparent
            exact ⟨before, hserves.visits, hserves.begins,
              fun rest h => allows_exchange_of_linked (hs c hc) hlinked h hserves.begins⟩
        obtain ⟨given, hfits, hallows⟩ := ih hbefore hvisits' hbegins'.of_append
        refine ⟨given ++ [p], ?_, ?_⟩
        · rw [List.map_append, ← List.append_assoc]
          exact List.rel_append hfits (.cons hfit .nil)
        · intro rest h
          rw [List.append_assoc] at h ⊢
          exact hallows (p :: rest) (hallows' rest h)
    · -- Only words and arguments lead here, and both have them on the way.
      have hnone : flags = [] := by
        cases flags using List.reverseRecOn with
        | nil => rfl
        | append_singleton flags p =>
          exact (hflag (m.flagNode_of_trail (hs c hc) (mem_flags_of_begins hbegins)
            hvisits.trail)).elim
      subst hnone
      refine ⟨[], ?_, fun rest h => h⟩
      have hpasses := hvisits.passes
      rw [hway, m.filter_isFlag_of_route hroute hflag] at hpasses
      rw [List.map_nil, List.append_nil]
      exact hpasses

/-- A route into an end of a separate command goes past a flag section that the plan of the command
allows. -/
theorem exists_fits_of_bound (m : Chart known t) (hs : ∀ c, known c → c.Sound)
    (hsep : c.Separate known t.settings.threshold) (hroute : t.Route root steps i)
    (hcommand : (t.node i).command = some c) :
    ∃ k flags, c.Grafts k ∧ (t.plan c).Allows flags ∧
      List.Forall₂ Step.Fits steps (c.positionals.take k ++ flags.map .parameter) := by
  obtain ⟨hc, k, flags, hk, hvisits, hallows⟩ :=
    (m.stands i (m.way_of_route hroute).1).bound c hcommand
  obtain ⟨given, hfits, hgiven⟩ :=
    m.exists_fits_of_route hs hsep hroute hc hk hvisits hallows.begins
  refine ⟨k, given, hk, ?_, hfits⟩
  simpa using hgiven [] (by simpa using hallows)

/-- A flag on a route into an end of a command is one of a command that meets it, if the command has
a flag of that long name. -/
theorem exists_meets_of_bound (m : Chart known t) (hs : ∀ c, known c → c.Sound)
    (hroute : t.Route root steps i) (hcommand : (t.node i).command = some c)
    (hq : .parameter q ∈ steps) (hnamed : q.isNamed = true) (hp : p ∈ c.flags)
    (hlong : q.longName = p.longName) : ∃ c', known c' ∧ c'.Meets c ∧ q ∈ c'.flags := by
  obtain ⟨before, after, rfl⟩ := List.append_of_mem hq
  obtain ⟨l, hbefore, j, hedge, hafter⟩ := exists_route_append hroute
  have hl := (m.way_of_route hbefore).1
  have hleads := m.leads_of_edge hl hedge
  -- Only flags follow a flag, so the command comes to its end by the way to the flag's node.
  have hway : m.way i = m.way j :=
    m.way_eq_of_flagNode hleads.lt ((m.flagNode_iff_of_edge hl hedge).mpr hnamed) hafter
  obtain ⟨_, k, hk, hpasses⟩ := m.passes_of_bound hroute hcommand
  rw [← (m.way_of_route hroute).2, hway] at hpasses
  obtain ⟨c', hc', hmade⟩ := m.exists_made hleads.label_eq (Step.label_ne_root _)
  obtain ⟨k', hk', hpasses'⟩ := hmade.grafts q rfl hnamed
  obtain rfl : k' = k := (hpasses'.length_eq hk'.le).symm.trans (hpasses.length_eq hk.le)
  have hflag : q ∈ c'.flags := (hs c' hc').mem_flags (hmade.mem q rfl) hnamed
  exact ⟨c', hc', ⟨k', m.way j, hk', hk, hpasses', hpasses, q, hflag, p, hp, hlong⟩, hflag⟩

end Tree.Chart

/-- No other command of the tree meets the command, unless neither of the two links flag nodes. -/
def Tree.Separate (t : Tree α σ) (c : Command α σ) : Prop :=
  c.Separate (· ∈ t.commands) t.settings.threshold

/-- A line of the command gives no flags but its own, and under its own names: the command is
separate, and the commands that meet it name flags of one long name as it does. -/
structure Tree.Orderly (t : Tree α σ) (c : Command α σ) : Prop where
  separate : t.Separate c
  names_eq : ∀ c' ∈ t.commands, c'.Meets c → ∀ q ∈ c'.flags, ∀ p ∈ c.flags,
    q.longName = p.longName → q.name = p.name

/-- A command without flags meets no other one. -/
theorem Tree.orderly_of_flags_eq_nil {t : Tree α σ} {c : Command α σ} (h : c.flags = []) :
    t.Orderly c where
  separate := by
    rintro _ _ ⟨_, _, _, _, _, _, _, _, p, hp, _⟩
    simp [h] at hp
  names_eq := by
    intro _ _ _ _ _ p hp
    simp [h] at hp

end CommandLine
