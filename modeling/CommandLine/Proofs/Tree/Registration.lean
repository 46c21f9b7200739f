import CommandLine.Proofs.Tree.Charted

/-!
# Registrations that go through

A registration is refused only if its declaration is faulty, or if one of its commands clashes with
another one. So good declarations that are in accord can all be registered, in any order, and the
tree then has their commands and no others.

* `Declaration.Accords.not_clashes` — commands of declarations in accord do not clash;
* `Charted.exists_insertAll` — commands that do not clash are inserted;
* `Stocked.exists_register` — a good declaration in accord with the others is registered.
-/

set_option autoImplicit false

namespace CommandLine

variable {α σ : Type}

/-! ## Declarations in accord -/

namespace Declaration

variable {d d' : Declaration α σ}

/-- Two declarations fit into one tree: no argument of one is named like a word of the other, and
their flags of one long name are of one shape. -/
def Accords (d d' : Declaration α σ) : Prop :=
  (∀ p ∈ d.parameters, p.isNamed = false → p.name ∉ d'.literals) ∧
    (∀ p ∈ d'.parameters, p.isNamed = false → p.name ∉ d.literals) ∧
    ∀ p ∈ d.parameters, ∀ q ∈ d'.parameters, p.isNamed = true → q.isNamed = true →
      q.longName = p.longName → q.interchangeable p = true

instance (d d' : Declaration α σ) : Decidable (d.Accords d') :=
  inferInstanceAs (Decidable (_ ∧ _ ∧ _))

/-- A good declaration is in accord with itself. -/
theorem accords_self (h : d.validate = .ok ()) : d.Accords d := by
  have hd := validate_eq_ok_iff_wellFormed.mp h
  refine ⟨hd.name_ne_word, hd.name_ne_word, fun p hp q hq hpn hqn hlong => ?_⟩
  obtain rfl : q = p := List.inj_on_of_nodup_map hd.longNames_nodup
    (List.mem_filter.mpr ⟨hq, hqn⟩) (List.mem_filter.mpr ⟨hp, hpn⟩) hlong
  exact q.interchangeable_self

/-- Commands of declarations in accord do not clash. -/
theorem Accords.not_clashes (h : d.Accords d') {id id' : Nat} {name name' : String}
    (hname : name ∈ d.names) (hname' : name' ∈ d'.names) :
    ¬(d.command id name).Clashes (d'.command id' name') := by
  obtain ⟨hwords, hwords', hflags⟩ := h
  have hmem {d : Declaration α σ} {id : Nat} {name : String} {p : Parameter α}
      (hp : p ∈ (d.command id name).parameters) : p ∈ d.parameters :=
    (d.parameters_command_perm id name).mem_iff.mp hp
  rintro (⟨p, hp, hplace, hword⟩ | ⟨p, hp, hplace, hword⟩ | ⟨p, hp, q, hq, hpn, hqn, hlong, hshape⟩)
  · exact hwords p (hmem hp) hplace (mem_literals_of_mem_positionals hname' hword)
  · exact hwords' p (hmem hp) hplace (mem_literals_of_mem_positionals hname hword)
  · rw [hflags p (hmem hp) q (hmem hq) hpn hqn hlong] at hshape
    cases hshape

end Declaration

namespace Tree

variable {t t' : Tree α σ}

/-- Commands that clash with none of the tree's and with none of each other are inserted. -/
theorem Charted.exists_insertAll {cs : List (Command α σ)} (h : t.Charted)
    (hcs : ∀ c ∈ cs, c.Built)
    (hclashes : ∀ c ∈ cs, ∀ c', c' ∈ t.commands ∨ c' ∈ cs → ¬c.Clashes c') :
    ∃ nodes, Growth.insertAll cs t =
      .ok () { t with nodes, commands := t.commands ++ cs.toArray } := by
  induction cs generalizing t with
  | nil => exact ⟨t.nodes, by simp [Growth.insertAll]; rfl⟩
  | cons c cs ih =>
    have hc : c.Built := hcs c List.mem_cons_self
    rw [Growth.insertAll_cons]
    cases hrun : Growth.insert c t with
    | error e t' =>
      -- An insertion is refused only for a clash, with an earlier command or within this one.
      let known (c' : Command α σ) : Prop := c' ∈ t.commands ∨ c' = c
      obtain ⟨m⟩ := h.chart
      have m₀ : Chart known t := m.mono fun c' hc' => .inl hc'
      obtain ⟨_, _, c', hc', hclash⟩ := m₀.exists_of_insert_error (.inr rfl) hc.sound hrun
      have hknown : c' ∈ t.commands ∨ c' ∈ c :: cs :=
        hc'.imp_right fun (heq : c' = c) => heq ▸ List.mem_cons_self
      exact (hclashes c List.mem_cons_self c' hknown hclash).elim
    | ok b t' =>
      have heq := h.eq_of_insert hc hrun
      have hcommands : t'.commands = t.commands.push c := by rw [heq]
      obtain ⟨nodes, hall⟩ := ih (h.insert hc hrun)
        (fun c' hc' => hcs c' (List.mem_cons_of_mem c hc')) (by
          intro c₁ hc₁ c₂ hc₂
          refine hclashes c₁ (List.mem_cons_of_mem c hc₁) c₂ ?_
          rw [hcommands, Array.mem_push] at hc₂
          rcases hc₂ with (hc₂ | rfl) | hc₂
          · exact .inl hc₂
          · exact .inr List.mem_cons_self
          · exact .inr (List.mem_cons_of_mem c hc₂))
      refine ⟨nodes, ?_⟩
      simp only [hall]
      rw [heq]
      simp

/-- A tree of declarations: nobody put anything else into it, and no hooks. -/
structure Stocked (t : Tree α σ) (ds : List (Declaration α σ)) : Prop where
  populated : t.Populated
  hooks_eq : t.hooks = []
  exists_declaration : ∀ c ∈ t.commands, ∃ d ∈ ds, ∃ id, ∃ name ∈ d.names, c = d.command id name

theorem Stocked.empty {s : Settings} (h : s.validate = .ok ()) :
    (Tree.empty s : Tree α σ).Stocked [] where
  populated := .empty s h
  hooks_eq := rfl
  exists_declaration c hc := by simp [Tree.empty] at hc

/-- A good declaration in accord with those of a tree is registered. -/
theorem Stocked.exists_register {ds : List (Declaration α σ)} {d : Declaration α σ}
    (h : t.Stocked ds) (hvalid : d.validate = .ok ()) (haccords : ∀ d' ∈ ds, d.Accords d') :
    ∃ t', Growth.register d t = .ok t.nextId t' ∧ t'.Stocked (ds ++ [d]) := by
  have hbuild : d.build t.nextId = .ok (d.names.map (d.command t.nextId)) :=
    Declaration.build_eq_ok_iff.mpr ⟨hvalid, rfl⟩
  -- No name of the declaration clashes with an earlier one, nor with another name of its own.
  have hclashes (c : Command α σ) (hc : c ∈ d.names.map (d.command t.nextId)) (c' : Command α σ)
      (hc' : c' ∈ t.commands ∨ c' ∈ d.names.map (d.command t.nextId)) : ¬c.Clashes c' := by
    obtain ⟨name, hname, rfl⟩ := List.mem_map.mp hc
    rcases hc' with hc' | hc'
    · obtain ⟨d', hd', id, name', hname', rfl⟩ := h.exists_declaration c' hc'
      exact (haccords d' hd').not_clashes hname hname'
    · obtain ⟨name', hname', rfl⟩ := List.mem_map.mp hc'
      exact (Declaration.accords_self hvalid).not_clashes hname hname'
  have hnext : Charted { t with nextId := t.nextId + 1 } := h.populated.charted.congr rfl rfl rfl
  obtain ⟨nodes, hall⟩ := hnext.exists_insertAll (fun c hc => ⟨d, _, _, hbuild, hc⟩) hclashes
  let t' : Tree α σ :=
    { t with
      nodes
      commands := t.commands ++ (d.names.map (d.command t.nextId)).toArray
      nextId := t.nextId + 1 }
  have hrun : Growth.register d t = .ok t.nextId t' := by
    rw [Growth.register_eq, hbuild]
    simp only [hall, t']
  refine ⟨t', hrun, .register h.populated hrun, h.hooks_eq, fun c hc => ?_⟩
  have hfrom : c ∈ t.commands ∨ ∃ name ∈ d.names, d.command t.nextId name = c := by
    simpa [t'] using hc
  rcases hfrom with hc | ⟨name, hname, rfl⟩
  · obtain ⟨d', hd', hfrom⟩ := h.exists_declaration c hc
    exact ⟨d', List.mem_append_left _ hd', hfrom⟩
  · exact ⟨d, by simp, t.nextId, name, hname, rfl⟩

end Tree

end CommandLine
