import CommandLine.Proofs.SharedNodes
import CommandLine.Proofs.Tree.Registration
import CommandLine.Shell.Session

/-!
# The shell's command set

The declarations of the shell are good and in accord, so that under all usable settings its tree has
their commands, the list of commands, and nothing else. What a line can do to the team is then read
off the declarations: two of them are about who is on it.

* `exists_commandTree` — the tree;
* `spares_of_mem_declarations`, `spares_help` — the actions that leave the team alone;
* `length_of_teamAdd` — whom `team add` adds;
* `permission_of_admin` — who may use what is named `admin`.
-/

set_option autoImplicit false

namespace CommandLine.Shell

variable {t : Tree User Session}

/-! ## The tree -/

/-- The declarations are good and in accord. -/
theorem accords_of_mem_declarations : ∀ d ∈ declarations,
    d.validate = .ok () ∧ ∀ d' ∈ declarations, d.Accords d' := by
  decide +kernel

/-- An answer that is left out changes no tree. -/
theorem discard_apply {β : Type} (g : Growth User Session β) (t : Tree User Session) :
    (discard g) t =
      match g t with
      | .ok _ t' => .ok () t'
      | .error e t' => .error e t' := by
  have hdiscard : (discard g) t = EStateM.map (fun _ => PUnit.unit) g t := rfl
  rw [hdiscard, EStateM.map]
  cases g t <;> rfl

/-- Good declarations in accord with each other and with those of a tree are registered. -/
theorem exists_registerAll {ds news : List (Declaration User Session)} (h : t.Stocked ds)
    (hvalid : ∀ d ∈ news, d.validate = .ok ())
    (haccords : ∀ d ∈ news, ∀ d' ∈ ds ++ news, d.Accords d') :
    ∃ t', registerAll news t = .ok () t' ∧ t'.Stocked (ds ++ news) := by
  induction news generalizing t ds with
  | nil => exact ⟨t, rfl, by simpa using h⟩
  | cons d news ih =>
    rw [List.forall_mem_cons] at hvalid haccords
    obtain ⟨t₁, hrun, h₁⟩ := h.exists_register hvalid.1
      fun d' hd' => haccords.1 d' (List.mem_append_left _ hd')
    obtain ⟨t', hall, h'⟩ := ih h₁ hvalid.2 (by simpa using haccords.2)
    refine ⟨t', ?_, by simpa using h'⟩
    rw [registerAll, Growth.bind_apply, discard_apply, hrun]
    exact hall

/-- **The command set.** Under usable settings all commands of the shell are registered. -/
theorem exists_commandTree {s : Settings} (h : s.validate = .ok ()) :
    ∃ t before, commandTree s = .ok t ∧ t.Stocked (declarations ++ [help before]) := by
  obtain ⟨before, hall, hbefore⟩ := exists_registerAll (.empty h)
    (fun d hd => (accords_of_mem_declarations d hd).1)
    (fun d hd => (accords_of_mem_declarations d hd).2)
  rw [List.nil_append] at hbefore
  have hwords : ∀ d ∈ declarations, ∀ p ∈ d.parameters, p.isNamed = false → p.name ∉ ["help"] := by
    decide +kernel
  have haccords (d : Declaration User Session) (hd : d ∈ declarations) : (help before).Accords d :=
    ⟨fun _ hp => absurd hp List.not_mem_nil, hwords d hd, fun _ hp => absurd hp List.not_mem_nil⟩
  have hblank : ["help"].any Text.isBlankText = false := by decide +kernel
  have hvalid : (help before).validate = .ok () := if_neg (Bool.eq_false_iff.mp hblank)
  obtain ⟨t, hrun, ht⟩ := hbefore.exists_register hvalid haccords
  refine ⟨t, before, ?_, ht⟩
  have hcommands : registerCommands (Tree.empty s) = .ok () t := by
    rw [registerCommands, Growth.bind_apply, hall]
    simp only [Growth.bind_apply, Growth.get_apply, discard_apply, hrun]
  simp only [commandTree, Tree.ofSettings, h, EStateM.run, hcommands]

/-! ## What commands do to the team -/

namespace Session

variable (s : Session) (name : String)

/-- Who is on the team already does not join again. -/
theorem team_join : (s.join name).team = if name ∈ s.team then s.team else s.team ++ [name] := by
  unfold join
  split <;> rfl

/-- Only who is on the team leaves it. -/
theorem team_leave : (s.leave name).team =
    if name ∈ s.team then s.team.filter (· ≠ name) else s.team := by
  unfold leave
  split <;> rfl

end Session

/-- The action of a declaration leaves the team alone. -/
structure Spares (d : Declaration User Session) : Prop where
  team_eq : ∀ action, d.action = some action → ∀ ctx s, (action ctx s).team = s.team

/-- An action that leaves the team alone spares it. -/
theorem spares_of_action {d : Declaration User Session} {action : SessionAction}
    (h : d.action = some action) (haction : ∀ ctx s, (action ctx s).team = s.team) : Spares d where
  team_eq action' heq := by
    obtain rfl := Option.some.inj (h.symm.trans heq)
    exact haction

/-- The list of commands only writes lines. -/
theorem spares_help (t : Tree User Session) : Spares (help t) := by
  refine spares_of_action rfl fun ctx s => ?_
  dsimp only
  generalize (t.commands.toList.filter (!·.secret)).map _ = listed
  induction listed generalizing s with
  | nil => rfl
  | cons entry listed ih =>
    rw [List.foldl_cons, ih]
    split <;> rfl

theorem spares_give : Spares give := by
  refine spares_of_action rfl fun ctx s => ?_
  dsimp only
  split <;> rfl

theorem spares_adminBan : Spares adminBan := by
  refine spares_of_action rfl fun ctx s => ?_
  dsimp only
  split
  · rfl
  · split <;> rfl

/-- All declarations but two leave the team alone. -/
theorem spares_of_mem_declarations {d : Declaration User Session} (h : d ∈ declarations) :
    d = teamAdd ∨ d = teamRemove ∨ Spares d := by
  simp only [declarations, List.mem_cons, List.not_mem_nil, or_false] at h
  rcases h with rfl | rfl | rfl | rfl | rfl | rfl | rfl | rfl | rfl
  · exact .inr (.inr (spares_of_action rfl fun _ _ => rfl))
  · exact .inr (.inr spares_give)
  · exact .inr (.inr (spares_of_action rfl fun _ _ => rfl))
  · exact .inr (.inr (spares_of_action rfl fun _ _ => rfl))
  · exact .inl rfl
  · exact .inr (.inl rfl)
  · exact .inr (.inr (spares_of_action rfl fun _ _ => rfl))
  · exact .inr (.inr spares_adminBan)
  · exact .inr (.inr (spares_of_action rfl fun _ _ => rfl))

/-! ## What the commands demand -/

section

variable {before : Tree User Session} {d : Declaration User Session}

/-- What is named `admin` is for administrators. -/
theorem permission_of_admin (h : d ∈ declarations ++ [help before]) (hname : "admin" ∈ d.names) :
    d.permission = .requires User.admin := by
  have hothers : ∀ d ∈ declarations.take 7, "admin" ∉ d.names := by decide +kernel
  have hsplit : declarations ++ [help before] =
      declarations.take 7 ++ [adminBan, adminDebug, help before] := rfl
  rcases List.mem_append.mp (hsplit ▸ h) with hd | hd
  · exact absurd hname (hothers d hd)
  · simp only [List.mem_cons, List.not_mem_nil, or_false] at hd
    rcases hd with rfl | rfl | rfl
    · rfl
    · rfl
    · exact absurd hname (by decide : "admin" ∉ ["help"])

/-- Only one declaration goes on with `add`. -/
theorem eq_teamAdd_of_path (h : d ∈ declarations ++ [help before])
    (hpath : d.path.head? = some (.literal "add")) : d = teamAdd := by
  have hothers : ∀ d ∈ declarations.take 4 ++ declarations.drop 5,
      d.path.head?.bind Step.literal? ≠ some "add" := by decide +kernel
  have hsplit : declarations ++ [help before] =
      declarations.take 4 ++ teamAdd :: declarations.drop 5 ++ [help before] := rfl
  rw [hsplit, List.mem_append, List.mem_append, List.mem_cons] at h
  rcases h with (hd | rfl | hd) | hd
  · exact absurd (congrArg (Option.bind · Step.literal?) hpath)
      (hothers d (List.mem_append_left _ hd))
  · rfl
  · exact absurd (congrArg (Option.bind · Step.literal?) hpath)
      (hothers d (List.mem_append_right _ hd))
  · obtain rfl := List.mem_singleton.mp hd
    cases hpath

/-- No flag goes by the name of a member. -/
theorem name_ne_of_isNamed (h : d ∈ declarations ++ [help before]) {p : Parameter User}
    (hp : p ∈ d.parameters) (hnamed : p.isNamed = true) : p.name ≠ "name" := by
  have hothers : ∀ d ∈ declarations, ∀ p ∈ d.parameters, p.isNamed = true → p.name ≠ "name" := by
    decide +kernel
  rcases List.mem_append.mp h with hd | hd
  · exact hothers d hd p hp hnamed
  · obtain rfl := List.mem_singleton.mp hd
    cases hp

variable {user : User} {line : String} {r : Resolved User Session} {id : Nat} {name : String}

/-- Whom `team add` adds. -/
def newMember : Parameter User := .ofBuiltin "name" (.word (some 3) (some 16))

/-- A member is named behind two words. -/
theorem positionals_teamAdd : (teamAdd.command id name).positionals =
    [.literal name, .literal "add", .parameter newMember] := by
  rfl

/-- Where a line resolves to `team add`, the name has 3 to 16 characters. Another command could have
made the node at which it was read, but none has the same words before it. -/
theorem length_of_teamAdd (h : t.Stocked (declarations ++ [help before]))
    (hparse : t.parse user line = .ok r) (hcommand : r.command = teamAdd.command id name) :
    3 ≤ (textOf r.context "name").length ∧ (textOf r.context "name").length ≤ 16 := by
  obtain ⟨given, hpassed⟩ := h.populated.exists_passed hparse
  have hmem : newMember ∈ r.command.parameters := by
    rw [Command.mem_parameters, hcommand, positionals_teamAdd]
    simp
  -- The value may have been read at the node of another command, so it is shown which commands can
  -- have one there.
  obtain ⟨g, ⟨hg, hname, hvalue⟩, hread⟩ :=
    hpassed.received (hpassed.exists_argument h.populated hmem rfl rfl)
  have hmade {c : Command User Session} (hc : c ∈ t.commands) (hp : g.parameter ∈ c.parameters) :
      ∃ d ∈ declarations ++ [help before], g.parameter ∈ d.parameters ∧ c.path = d.path := by
    obtain ⟨d, hd, id, name, _, rfl⟩ := h.exists_declaration c hc
    exact ⟨d, hd, (d.parameters_command_perm id name).mem_iff.mp hp, rfl⟩
  have hplace : g.parameter.isNamed = false := by
    rw [← Bool.not_eq_true]
    intro hnamed
    obtain ⟨c, hc, hp⟩ := hpassed.registered g hg
    obtain ⟨d, hd, hp, _⟩ := hmade hc hp
    exact name_ne_of_isNamed hd hp hnamed hname
  obtain ⟨c, hc, hp, way, p, hpasses, hpasses', hat⟩ :=
    hpassed.exists_maker h.populated hg hplace
  obtain ⟨d, hd, hp, hpath⟩ := hmade hc hp
  rw [hcommand, positionals_teamAdd] at hat
  have hlength : way.length = 2 := by
    rcases hk : way.length with _ | _ | _ | k <;> simp_all
  -- Whose argument stands behind these two words has them in its own path.
  have hadd : d.path.head? = some (.literal "add") := by
    have hword : r.command.positionals[1]? = some (.literal "add") := by
      rw [hcommand, positionals_teamAdd]
      rfl
    have hsame := hpasses.word_eq hpasses' (by omega) hword
    rwa [Command.positionals, List.getElem?_cons_succ, hpath, ← List.head?_eq_getElem?] at hsame
  obtain rfl := eq_teamAdd_of_path hd hadd
  have hparameter : g.parameter = newMember := List.mem_singleton.mp hp
  have hvalued : g.parameter.isSwitch = false := by rw [hparameter]; rfl
  obtain ⟨after, hparse⟩ := hread.resolve_right (by simp [hvalued])
  rw [hparameter] at hparse
  obtain ⟨w, hw, hbounds⟩ := BuiltinType.length_of_parse hparse
  have htext : textOf r.context "name" = w := by
    have hget : r.context.bindings.get? "name" = some (.text w) := hw ▸ hvalue
    rw [textOf, Bindings.text?, hget]
    rfl
  rw [htext]
  exact hbounds

end

end CommandLine.Shell
