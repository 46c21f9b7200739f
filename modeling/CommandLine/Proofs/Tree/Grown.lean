import CommandLine.Proofs.WellFormed
import CommandLine.Tree.Growth

/-!
# Grown trees

The trees that a host can hold: everything that calls reach from an empty tree with usable settings.
A tree is **grown** whether or not calls were refused on the way; it is **populated** if none was.
Commands that are inserted one by one come from a declaration, like those that are registered.

A declaration is checked before it yields commands, so the commands of grown trees are **sound**:
no two parameters have one name, and the flags stand behind the path (`Command.Built.sound`).
-/

set_option autoImplicit false

namespace CommandLine

variable {α σ : Type}

/-- A command that a declaration yields under some identity. -/
def Command.Built (c : Command α σ) : Prop :=
  ∃ (d : Declaration α σ) (id : Nat) (cs : List (Command α σ)), d.build id = .ok cs ∧ c ∈ cs

/-- A growth goes on only after one that was not refused. -/
theorem Growth.bind_apply {β γ : Type} (g : Growth α σ β) (f : β → Growth α σ γ) (t : Tree α σ) :
    (g >>= f) t =
      match g t with
      | .ok b t' => f b t'
      | .error e t' => .error e t' := by
  have hbind : (g >>= f) t = EStateM.bind g f t := rfl
  rw [hbind, EStateM.bind]
  cases g t <;> rfl

/-- Looking at the tree changes nothing. -/
theorem Growth.get_apply (t : Tree α σ) : (get : Growth α σ (Tree α σ)) t = .ok t t := rfl

/-- A change is made to the tree and is never refused. -/
theorem Growth.modify_apply (f : Tree α σ → Tree α σ) (t : Tree α σ) :
    (modify f : Growth α σ PUnit) t = .ok () (f t) := rfl

/-! ## Insertions and registrations -/

namespace Growth

variable {c : Command α σ} {t t' : Tree α σ} {e : Refusal}

/-- An insertion grows its command and then lists it. -/
theorem insert_eq (c : Command α σ) (t : Tree α σ) :
    insert c t =
      match growCommand c t with
      | .ok _ t' => .ok () { t' with commands := t'.commands.push c }
      | .error e t' => .error e t' := by
  unfold insert
  rw [bind_apply]
  cases growCommand c t <;> rfl

/-- An insertion is refused where the growth of its command is. -/
theorem growCommand_of_insert_error (h : insert c t = .error e t') :
    growCommand c t = .error e t' := by
  rw [insert_eq] at h
  cases hrun : growCommand c t with
  | error e' t'' => rw [hrun] at h; exact h
  | ok b t'' => rw [hrun] at h; cases h

/-- An insertion that is not refused records its command in the end. -/
theorem growCommand_of_insert_ok (h : insert c t = .ok () t') :
    ∃ t'', growCommand c t = .ok () t'' ∧ t' = { t'' with commands := t''.commands.push c } := by
  rw [insert_eq] at h
  cases hrun : growCommand c t with
  | error e' t'' => rw [hrun] at h; cases h
  | ok b t'' =>
    rw [hrun] at h
    exact ⟨t'', rfl, (EStateM.Result.ok.inj h).2.symm⟩

/-- Commands are inserted in order until one is refused. -/
theorem insertAll_cons (c : Command α σ) (cs : List (Command α σ)) (t : Tree α σ) :
    insertAll (c :: cs) t =
      match insert c t with
      | .ok _ t' => insertAll cs t'
      | .error e t' => .error e t' := by
  rw [insertAll, bind_apply]
  cases insert c t <;> rfl

/-- A registration is refused before it changes anything, or it takes an id and inserts. -/
theorem register_eq (d : Declaration α σ) (t : Tree α σ) :
    register d t =
      match d.build t.nextId with
      | .error e => .error e t
      | .ok cs =>
        match insertAll cs { t with nextId := t.nextId + 1 } with
        | .ok _ t' => .ok t.nextId t'
        | .error e t' => .error e t' := by
  unfold register
  rw [bind_apply, get_apply]
  simp only
  cases hbuild : d.build t.nextId with
  | error e => rfl
  | ok cs =>
    simp only [bind_apply, modify_apply]
    cases insertAll cs { t with nextId := t.nextId + 1 } <;> rfl

end Growth

/-! ## Trees that a host can hold -/

/-- The tree that a growth leaves, whether it is refused or not. -/
def Growth.after {β : Type} (g : Growth α σ β) (t : Tree α σ) : Tree α σ :=
  match g t with
  | .ok _ t' => t'
  | .error _ t' => t'

/-- The trees reached from an empty one by calls that may be refused. -/
inductive Tree.Grown : Tree α σ → Prop
  | empty (s : Settings) : s.validate = .ok () → Grown (Tree.empty s)
  | withHook (hook : Hook α σ) {t : Tree α σ} : Grown t → Grown (t.withHook hook)
  | register (d : Declaration α σ) {t : Tree α σ} : Grown t → Grown ((Growth.register d).after t)
  | insert {c : Command α σ} {t : Tree α σ} : c.Built → Grown t → Grown ((Growth.insert c).after t)

/-- The trees reached from an empty one by calls none of which is refused. -/
inductive Tree.Populated : Tree α σ → Prop
  | empty (s : Settings) : s.validate = .ok () → Populated (Tree.empty s)
  | withHook (hook : Hook α σ) {t : Tree α σ} : Populated t → Populated (t.withHook hook)
  | register {d : Declaration α σ} {t t' : Tree α σ} {id : Nat} :
      Populated t → Growth.register d t = .ok id t' → Populated t'
  | insert {c : Command α σ} {t t' : Tree α σ} :
      c.Built → Populated t → Growth.insert c t = .ok () t' → Populated t'

/-- A growth that is not refused leaves the tree of its outcome. -/
theorem Growth.after_of_ok {β : Type} {g : Growth α σ β} {t t' : Tree α σ} {b : β}
    (h : g t = .ok b t') : g.after t = t' := by
  simp only [after, h]

/-- Whether a growth is not refused. -/
def Growth.succeeds {β : Type} (g : Growth α σ β) (t : Tree α σ) : Bool :=
  match g t with
  | .ok _ _ => true
  | .error _ _ => false

/-- Where it is known not to be refused it answers. -/
theorem Growth.eq_ok_of_succeeds {g : Growth α σ Unit} {t : Tree α σ}
    (h : g.succeeds t = true) : g t = .ok () (g.after t) := by
  unfold succeeds at h
  unfold after
  cases hrun : g t with
  | ok b t' => rfl
  | error e t' =>
    rw [hrun] at h
    cases h

/-- A populated tree is grown. -/
theorem Tree.Populated.grown {t : Tree α σ} (h : t.Populated) : t.Grown := by
  induction h with
  | empty s hs => exact .empty s hs
  | withHook hook _ ih => exact .withHook hook ih
  | register _ hg ih => exact Growth.after_of_ok hg ▸ .register _ ih
  | insert hc _ hg ih => exact Growth.after_of_ok hg ▸ .insert hc ih

/-- A registration that is not refused goes on populating a tree. -/
theorem Tree.Populated.register_after {d : Declaration α σ} {t : Tree α σ} (h : t.Populated)
    (hs : (Growth.register d).succeeds t = true) : ((Growth.register d).after t).Populated := by
  unfold Growth.succeeds at hs
  split at hs
  · rename_i id t' hrun
    rw [Growth.after_of_ok hrun]
    exact .register h hrun
  · cases hs

/-! ## Outcomes that can be tested -/

section Outcomes

variable {ε τ β : Type}

instance decidableExistsOk (x : Except ε β) (P : β → Prop) [DecidablePred P] :
    Decidable (∃ b, x = .ok b ∧ P b) :=
  match x with
  | .ok b => decidable_of_iff (P b) ⟨fun h => ⟨b, rfl, h⟩, fun ⟨_, hb, h⟩ => Except.ok.inj hb ▸ h⟩
  | .error _ => isFalse fun ⟨_, hb, _⟩ => nomatch hb

instance decidableExistsError (x : Except ε β) (P : ε → Prop) [DecidablePred P] :
    Decidable (∃ e, x = .error e ∧ P e) :=
  match x with
  | .ok _ => isFalse fun ⟨_, he, _⟩ => nomatch he
  | .error e => decidable_of_iff (P e)
      ⟨fun h => ⟨e, rfl, h⟩, fun ⟨_, he, h⟩ => Except.error.inj he ▸ h⟩

instance decidableExistsRefused (x : EStateM.Result ε τ β) (P : ε → τ → Prop)
    [∀ e t, Decidable (P e t)] : Decidable (∃ e t, x = .error e t ∧ P e t) :=
  match x with
  | .ok _ _ => isFalse fun ⟨_, _, he, _⟩ => nomatch he
  | .error e t => decidable_of_iff (P e t)
      ⟨fun h => ⟨e, t, rfl, h⟩, fun ⟨_, _, he, h⟩ => by cases he; exact h⟩

end Outcomes

/-! ## What a declaration promises of its commands -/

/-- No two parameters of the command have one name and no two flags one long name, no argument is
named like a word, and the flags stand behind the path. -/
structure Command.Sound (c : Command α σ) : Prop where
  names_nodup : (c.parameters.map Parameter.name).Nodup
  longNames_nodup : (c.flags.map Parameter.longName).Nodup
  name_ne_word : ∀ p ∈ c.parameters, p.isNamed = false → .literal p.name ∉ c.positionals
  named : ∀ p ∈ c.flags, p.isNamed = true
  unnamed : ∀ p, .parameter p ∈ c.path → p.isNamed = false

namespace Declaration

/-- The parameters on the path are those that are not flags. -/
theorem filterMap_parameter?_path (d : Declaration α σ) :
    d.path.filterMap Step.parameter? = d.parameters.filter (!·.isNamed) := by
  unfold path parameters
  induction d.steps with
  | nil => rfl
  | cons step steps ih =>
    cases step with
    | literal w =>
      simpa only [List.filter_cons, List.filterMap_cons, Step.parameter?, Option.any_none,
        Bool.not_false, if_true] using ih
    | parameter p =>
      by_cases h : p.isNamed <;> simpa [Step.parameter?, h] using ih

/-- A command has the parameters of its declaration, in another order. -/
theorem parameters_command_perm (d : Declaration α σ) (id : Nat) (name : String) :
    (d.command id name).parameters.Perm d.parameters := by
  have hflags (ps : List (Parameter α)) : ps.filterMap (Step.parameter? ∘ Step.parameter) = ps := by
    rw [show (Step.parameter? ∘ Step.parameter : Parameter α → _) = some from rfl,
      List.filterMap_some]
  have hparts : (d.command id name).parameters =
      d.parameters.filter (!·.isNamed) ++ d.parameters.filter (·.isNamed) := by
    simp only [Command.parameters, Command.steps, Command.positionals, command, List.cons_append,
      List.filterMap_cons, Step.parameter?, List.filterMap_append, filterMap_parameter?_path,
      List.filterMap_map, hflags, flags]
  rw [hparts]
  exact List.perm_append_comm.trans (List.filter_append_perm _ _)

/-- The commands of a good declaration are built. -/
theorem built_command {d : Declaration α σ} (h : d.validate = .ok ()) (id : Nat) {name : String}
    (hname : name ∈ d.names) : (d.command id name).Built :=
  ⟨d, id, _, build_eq_ok_iff.mpr ⟨h, rfl⟩, List.mem_map_of_mem hname⟩

/-- A command has the parameters of its declaration. -/
theorem mem_parameters_of_build {d : Declaration α σ} {id : Nat}
    {cs : List (Command α σ)} {c : Command α σ} {p : Parameter α} (hbuild : d.build id = .ok cs)
    (hc : c ∈ cs) (hp : p ∈ c.parameters) : p ∈ d.parameters := by
  obtain ⟨_, rfl⟩ := build_eq_ok_iff.mp hbuild
  obtain ⟨name, _, rfl⟩ := List.mem_map.mp hc
  exact (d.parameters_command_perm id name).mem_iff.mp hp

/-- The words of a command are words of its declaration. -/
theorem mem_literals_of_mem_positionals {d : Declaration α σ} {id : Nat} {name w : String}
    (hname : name ∈ d.names) (h : .literal w ∈ (d.command id name).positionals) :
    w ∈ d.literals := by
  rw [literals, List.mem_append]
  rcases List.mem_cons.mp h with h | h
  · obtain rfl := Step.literal.inj h
    exact .inl hname
  · exact .inr (List.mem_filterMap.mpr ⟨_, (List.mem_filter.mp h).1, rfl⟩)

end Declaration

/-- A built command is what a declaration that passes its check yields under one of its names. -/
theorem Command.Built.exists_declaration {c : Command α σ} (h : c.Built) :
    ∃ (d : Declaration α σ) (id : Nat) (name : String), c = d.command id name ∧ name ∈ d.names ∧
      d.WellFormed := by
  obtain ⟨d, id, cs, hbuild, hmem⟩ := h
  obtain ⟨hvalid, rfl⟩ := Declaration.build_eq_ok_iff.mp hbuild
  obtain ⟨name, hname, rfl⟩ := List.mem_map.mp hmem
  exact ⟨d, id, name, rfl, hname, Declaration.validate_eq_ok_iff_wellFormed.mp hvalid⟩

/-- No built command has an empty name. -/
theorem Command.Built.name_ne_empty {c : Command α σ} (h : c.Built) : c.name ≠ "" := by
  obtain ⟨d, id, name, rfl, hname, hd⟩ := h.exists_declaration
  rintro rfl
  obtain ⟨ch, hch, -⟩ := hd.not_blank "" hname
  cases hch

/-- Built commands are sound. -/
theorem Command.Built.sound {c : Command α σ} (h : c.Built) : c.Sound := by
  obtain ⟨d, id, name, rfl, hname, hd⟩ := h.exists_declaration
  have hparameters := d.parameters_command_perm id name
  refine ⟨?_, hd.longNames_nodup, ?_, ?_, ?_⟩
  · exact (hparameters.map Parameter.name).nodup_iff.mpr hd.names_nodup
  · intro p hp hplace hword
    exact hd.name_ne_word p (hparameters.mem_iff.mp hp) hplace
      (Declaration.mem_literals_of_mem_positionals hname hword)
  · intro p hp
    exact (List.mem_filter.mp hp).2
  · intro p hp
    simpa [Step.parameter?] using (List.mem_filter.mp hp).2

/-- No two flags of a built command have one shorthand. -/
theorem Command.Built.shorthands_nodup {c : Command α σ} (h : c.Built) :
    (c.flags.filterMap Parameter.shorthand?).Nodup := by
  obtain ⟨d, id, name, rfl, -, hd⟩ := h.exists_declaration
  exact hd.shorthands_nodup

end CommandLine
