import CommandLine.Proofs.Tree.Regrown

/-!
# Inserting a command again

Once a command has been inserted, the same declaration can be inserted again under another identity,
and it adds nothing: the second run goes where the first one went. It is not refused, it opens no
node to anyone new, and all that it changes is the list of commands and, if the command has an
action, the nodes at which the first command is bound.

These may be more nodes than the first run has bound, since the same command may have been inserted
before. Each of them was bound in some run of its growth (`Traced`), and from that run on the tree
has only widened, so the new run passes it too.

* `insert_again` — the second insertion of a declaration.
-/

set_option autoImplicit false

namespace CommandLine.Tree

open CommandLine.Growth

variable {α σ : Type} {s t t₁ : Tree α σ} {i : NodeIndex} {c : Command α σ}

/-- A run of the growth of a command has bound it at a node, and from there the tree has widened. -/
structure Marked (t : Tree α σ) (c : Command α σ) (i : NodeIndex) (t₀ : Tree α σ) : Prop where
  tidy : t₀.Tidy
  size_pos : 0 < t₀.nodes.size
  fresh : (t₀.node i).command ≠ some c
  bound : (((growCommand c).after t₀).node i).command = some c
  widens : ((growCommand c).after t₀).Widens t

/-- Every command at a node was bound there by a run of its growth. -/
structure Traced (t : Tree α σ) : Prop where
  tidy : t.Tidy
  chart : Nonempty (Chart Command.Sound t)
  marked : ∀ i c, (t.node i).command = some c → ∃ t₀, t.Marked c i t₀

theorem Traced.of_empty (s : Settings) : (empty s : Tree α σ).Traced where
  tidy := .of_empty s
  chart := ⟨.empty _ s⟩
  marked i c h := by
    have hnone : ((empty s : Tree α σ).node i).command = none := by cases i <;> rfl
    rw [hnone] at h
    cases h

/-- What was bound before was bound in an earlier run, and anything else in this one. -/
theorem Traced.growCommand (ht : t.Traced) (hs : c.Sound) :
    ((growCommand c).after t).Traced := by
  have hwidens := changes_widens.steps.growCommand hs t
  have htidy := stepChanges_tidy.growCommand hs t ht.tidy
  obtain ⟨m⟩ := ht.chart
  have hchart := m.nonempty_growCommand_after hs hs
  refine ⟨htidy, hchart, fun i c' hc' => ?_⟩
  by_cases hold : (t.node i).command = some c'
  · obtain ⟨t₀, hmarked⟩ := ht.marked i c' hold
    exact ⟨t₀, { hmarked with widens := hmarked.widens.trans hwidens }⟩
  · obtain ⟨m'⟩ := hchart
    obtain ⟨bound, hbound, _⟩ :=
      (m'.retraces_growCommand htidy ht.tidy m.size_pos hs c.id).again (.refl _)
    obtain rfl : c = c' := by
      have hcommand := hbound i
      rw [hc'] at hcommand
      split at hcommand
      · exact (Option.some.inj hcommand).symm
      · exact absurd hcommand.symm hold
    exact ⟨t, ht.tidy, m.size_pos, hold, hc', .refl _⟩

theorem commandChanges_traced : CommandChanges fun t t' : Tree α σ => t.Traced → t'.Traced where
  refl _ := id
  trans h h' ht := h' (h ht)
  growCommand hs _ ht := ht.growCommand hs
  same {t t'} hnodes hsettings ht := by
    obtain ⟨m⟩ := ht.chart
    have hnode (i : NodeIndex) : t'.node i = t.node i := by simp only [node, hnodes]
    refine ⟨stepChanges_tidy.same hnodes hsettings ht.tidy, ⟨m.congr hnodes hsettings⟩, ?_⟩
    intro i c hc
    rw [hnode] at hc
    obtain ⟨t₀, hmarked⟩ := ht.marked i c hc
    exact ⟨t₀, { hmarked with widens := hmarked.widens.trans (.of_nodes_eq hnodes hsettings) }⟩

/-- So it is in every tree that a host can hold. -/
theorem Grown.traced (h : t.Grown) : t.Traced :=
  commandChanges_traced.grown (P := Traced) (fun s _ => .of_empty s) h

/-- Where a command is bound, a later run of its growth binds it again if it has an action. -/
theorem Marked.command_eq {t₀ : Tree α σ} {known : Command α σ → Prop} (h : t.Marked c i t₀)
    (m : Chart known t) (ht : t.Tidy) (hs : c.Sound) (haction : c.action.isSome = true) (id : Nat) :
    (((growCommand { c with id }).after t).node i).command = some { c with id } := by
  obtain ⟨bound, hbound, hagain⟩ :=
    (m.retraces_growCommand ht h.tidy h.size_pos hs id).again h.widens
  have hi : i ∈ bound := by
    by_contra hi
    have hcommand := hbound i
    rw [if_neg fun hboth => hi hboth.1, h.bound] at hcommand
    exact h.fresh hcommand.symm
  obtain ⟨u, hrun, _, hbinds⟩ := hagain t (.refl t)
  rw [after_of_leaving hrun, hbinds i, if_pos ⟨hi, by simp [haction]⟩]

/-- Inserting a declaration again, under any identity, adds nothing: it changes the list of commands
and, if there is an action, the command of the nodes at which the first one is bound. -/
theorem insert_again {d : Declaration α σ} {id id' : Nat} {cs cs' : List (Command α σ)}
    {c c' : Command α σ} (ht : t.Grown) (hbuild : d.build id = .ok cs) (hc : c ∈ cs)
    (hbuild' : d.build id' = .ok cs') (hc' : c' ∈ cs') (hname : c'.name = c.name)
    (h : insert c t = .ok () t₁) :
    ∃ t₂, insert c' t₁ = .ok () t₂ ∧ t₁.Matches t₂ ∧
      t₂ = { t₁ with nodes := t₂.nodes, commands := t₁.commands.push c' } ∧
      ∀ i, ((t₁.node i).command ≠ some c → (t₂.node i).command = (t₁.node i).command) ∧
        ((t₁.node i).command = some c →
          (t₂.node i).command = if c.action.isSome then some c' else some c) := by
  have hbuilt : c.Built := ⟨d, id, cs, hbuild, hc⟩
  have hbuilt' : c'.Built := ⟨d, id', cs', hbuild', hc'⟩
  obtain rfl : c' = { c with id := id' } := by
    obtain ⟨_, rfl⟩ := Declaration.build_eq_ok_iff.mp hbuild
    obtain ⟨_, rfl⟩ := Declaration.build_eq_ok_iff.mp hbuild'
    obtain ⟨name, _, rfl⟩ := List.mem_map.mp hc
    obtain ⟨name', _, rfl⟩ := List.mem_map.mp hc'
    obtain rfl : name' = name := hname
    rfl
  have hs := hbuilt.sound
  have ht₁ : t₁.Grown := by
    have hafter := Grown.insert hbuilt ht
    rwa [after_of_ok h] at hafter
  obtain ⟨m⟩ := ht₁.chart
  obtain ⟨m₀⟩ := ht.chart
  -- The second run retraces the first one.
  obtain ⟨t', hgrow, heq⟩ := growCommand_of_insert_ok h
  have hlater : t'.Widens t₁ := by
    rw [heq]
    exact .of_nodes_eq rfl rfl
  have hnode (i : NodeIndex) : t'.node i = t₁.node i := by
    rw [heq]
    rfl
  obtain ⟨bound, hbound, hagain⟩ :=
    (m.retraces_growCommand ht₁.tidy ht.tidy m₀.size_pos hs id').again
      (by rwa [after_of_ok hgrow])
  obtain ⟨u, hrun, hmatches, hbinds⟩ := hagain t₁ (.refl t₁)
  rw [after_of_ok hgrow] at hbound
  rw [hgrow, leaving] at hrun
  have hinsert : insert { c with id := id' } t₁ =
      .ok () { u with commands := u.commands.push { c with id := id' } } := by
    rw [insert_eq, hrun]
  refine ⟨_, hinsert, ?_, m.eq_of_insert hbuilt' hbuilt'.sound hinsert, fun i => ⟨?_, ?_⟩⟩
  · exact ⟨⟨hmatches.settings_eq, hmatches.size_eq, hmatches.label_eq, hmatches.literals_eq,
      hmatches.flags_eq, hmatches.arguments_eq⟩, hmatches.allows_eq⟩
  · intro hne
    show (u.node i).command = _
    have hbound' : Binds c bound t t₁ := by
      intro j
      rw [← hnode]
      exact hbound j
    exact hbound'.eq_of_ne hbinds rfl hne
  · intro hc
    show (u.node i).command = _
    split
    · rename_i haction
      obtain ⟨t₀, hmarked⟩ := ht₁.traced.marked i c hc
      rw [← after_of_ok hrun]
      exact hmarked.command_eq m ht₁.tidy hs haction id'
    · rename_i haction
      rw [hbinds i, if_neg, hc]
      rw [hc]
      simpa using fun _ => haction

/-- A command with an action, which shares two words with one that is in the tree before. -/
def gate : Declaration Unit Nat :=
  { name := "gate", steps := [.literal "open", .parameter (.switch "fast")]
    action := some fun _ count => count + 1 }

def gateTree : Tree Unit Nat := (register { name := "gate", steps := [.literal "open"] }).after
  (empty {})

/-- Under another identity it takes the place of the first one behind its words. -/
theorem insert_again_gate :
    ∃ t₁ t₂, gateTree.Grown ∧ insert (gate.command 1 "gate") gateTree = .ok () t₁ ∧
      (t₁.node 2).command = some (gate.command 1 "gate") ∧
      insert (gate.command 2 "gate") t₁ = .ok () t₂ ∧ t₁.Matches t₂ ∧
      (t₂.node 2).command = some (gate.command 2 "gate") := by
  have hgrown : gateTree.Grown := .register _ (.empty {} (by decide))
  have hbuild (id : Nat) : gate.build id = .ok (gate.names.map (gate.command id)) :=
    Declaration.build_eq_ok_iff.mpr ⟨by decide +kernel, rfl⟩
  have hmem (id : Nat) : gate.command id "gate" ∈ gate.names.map (gate.command id) :=
    List.mem_cons_self
  have hfirst : insert (gate.command 1 "gate") gateTree =
      .ok () ((insert (gate.command 1 "gate")).after gateTree) :=
    eq_ok_of_succeeds (by decide +kernel)
  have hbound : (((insert (gate.command 1 "gate")).after gateTree).node 2).command =
      some (gate.command 1 "gate") := by rfl
  obtain ⟨t₂, hsecond, hmatches, _, hcommands⟩ :=
    insert_again hgrown (hbuild 1) (hmem 1) (hbuild 2) (hmem 2) rfl hfirst
  exact ⟨_, t₂, hgrown, hfirst, hbound, hsecond, hmatches, (hcommands 2).2 hbound⟩

end CommandLine.Tree
