import CommandLine.Proofs.Tree.Changes

/-!
# Commands made of words

A command without arguments and flags is a list of words. Its insertion follows these words from the
root, creating the nodes that are missing, and then binds the command at the last one. All other
nodes keep the command that they have.

* `Growth.growCommand_literal` — the insertion of such a command;
* `Growth.exists_of_growWords` — what following the words leaves as it was;
* `Growth.commands_of_insertAll` — which commands the tree lists in the end.
-/

set_option autoImplicit false

namespace CommandLine

variable {α σ : Type}

/-- A command all of whose steps are words. -/
def Command.Literal (c : Command α σ) : Prop := ∀ step ∈ c.steps, step.isLiteral = true

instance (c : Command α σ) : Decidable c.Literal := inferInstanceAs (Decidable (∀ _ ∈ _, _))

/-- The words of a command, from the first one on. -/
def Command.words (c : Command α σ) : List String := c.positionals.filterMap Step.literal?

namespace Command

variable {c : Command α σ}

theorem Literal.flags_eq (h : c.Literal) : c.flags = [] := by
  rw [List.eq_nil_iff_forall_not_mem]
  intro p hp
  cases h (.parameter p) (List.mem_append_right _ (List.mem_map_of_mem hp))

/-- The positions of such a command are its words. -/
theorem Literal.positionals_eq (h : c.Literal) : c.positionals = c.words.map .literal := by
  have hall (steps : List (Step α)) (hsteps : ∀ step ∈ steps, step.isLiteral = true) :
      steps = (steps.filterMap Step.literal?).map .literal := by
    induction steps with
    | nil => rfl
    | cons step steps ih =>
      have hrest := ih fun s hs => hsteps s (List.mem_cons_of_mem step hs)
      cases step with
      | literal w => exact congrArg (Step.literal w :: ·) hrest
      | parameter p => cases hsteps (.parameter p) List.mem_cons_self
  exact hall c.positionals fun step hstep => h step (List.mem_append_left _ hstep)

theorem Literal.parameters_eq (h : c.Literal) : c.parameters = [] := by
  rw [List.eq_nil_iff_forall_not_mem]
  intro p hp
  rw [mem_parameters, h.flags_eq, h.positionals_eq] at hp
  simp at hp

/-- Behind the first word the path has the others. -/
theorem Literal.words_eq (h : c.Literal) : ∃ ws, c.words = c.name :: ws ∧
    c.path = ws.map .literal := by
  have hpositionals := h.positionals_eq
  exact ⟨c.path.filterMap Step.literal?, rfl, (List.cons.inj hpositionals).2⟩

end Command

namespace Growth

open CommandLine.Tree

/-- Follows words from a node, creating the literals that are missing. -/
def growWords (permission : Permission α) (parent : NodeIndex) :
    List String → Growth α σ NodeIndex
  | [] => pure parent
  | w :: ws => do
    let child ← ensureLiteral parent w permission
    growWords permission child ws

variable {c : Command α σ} {t t' : Tree α σ} {i j : NodeIndex} {ws : List String}
  {permission : Permission α}

/-- Without flags there is one order of them, and the line may end right there. -/
theorem growFlags_nil (c : Command α σ) (threshold : Nat) (i : NodeIndex) :
    growFlags c i (.ofFlags threshold []) = markEnd c i := by
  have hplan : FlagPlan.ofFlags threshold ([] : List (Parameter α)) = .orders [[]] := by
    simp [FlagPlan.ofFlags, Parameter.flagOrders, Parameter.required, Parameter.optionals,
      arrangements_eq, arrange]
  rw [hplan]
  rfl

/-- Words cannot be left out, so a path of words is followed to its end. -/
theorem growPath_literal (c : Command α σ) (threshold : Nat) (i : NodeIndex) (ws : List String) :
    growPath c (.ofFlags threshold []) i (ws.map .literal) =
      growWords c.permission i ws >>= markEnd c := by
  induction ws generalizing i with
  | nil => exact growFlags_nil c threshold i
  | cons w ws ih =>
    have hskip : growFlagsBefore c i (.ofFlags threshold []) (.literal w :: ws.map .literal) =
        pure () := if_neg (by simp [Step.isOptional])
    rw [List.map_cons, growPath, hskip, pure_bind, growWords, bind_assoc, ensureStep]
    simp only [ih]

/-- A command made of words is bound behind the last of them. -/
theorem growCommand_literal (hc : c.Literal) (t : Tree α σ) :
    growCommand c t = (growWords c.permission root c.words >>= markEnd c) t := by
  obtain ⟨ws, hwords, hpath⟩ := hc.words_eq
  rw [growCommand, bind_apply, get_apply, hwords, growWords, bind_assoc]
  simp only [hc.flags_eq, hpath, growPath_literal]

/-! ## What following words leaves as it was -/

theorem within_ensureLiteral (i : NodeIndex) (w : String) (permission : Permission α) :
    Within (@SameCommands α σ) (ensureLiteral i w permission) := fun t =>
  ensureLiteral_after (.refl t) (.joinPermission t · permission) fun _ =>
    .addLiteral t i w permission

/-- Following words leaves every command where it is. -/
theorem within_growWords (permission : Permission α) (i : NodeIndex) (ws : List String) :
    Within (@SameCommands α σ) (growWords permission i ws) := by
  induction ws generalizing i with
  | nil => exact SameCommands.refl
  | cons w ws ih => exact .bind .trans (within_ensureLiteral i w permission) fun child => ih child

/-- A command made of words is bound behind them, and then listed. -/
theorem exists_of_insert_literal (hc : c.Literal) (h : insert c t = .ok () t') :
    ∃ t₁ j, growWords c.permission root c.words t = .ok j t₁ ∧ SameCommands t t₁ ∧
      t' = { t₁.bindCommand j c with commands := t.commands.push c } := by
  obtain ⟨t₂, hgrow, rfl⟩ := growCommand_of_insert_ok h
  rw [growCommand_literal hc] at hgrow
  obtain ⟨j, t₁, hwords, hmark⟩ := exists_of_bind_eq_ok hgrow
  have hsame := (within_growWords c.permission root c.words).of_ok hwords
  obtain rfl : t₁.bindCommand j c = t₂ := (EStateM.Result.ok.inj hmark).2
  refine ⟨t₁, j, hwords, hsame, ?_⟩
  rw [show (t₁.bindCommand j c).commands = t₁.commands from rfl, hsame.listed]

/-- The tree lists the commands in the order of their insertion. -/
theorem commands_of_insertAll {cs : List (Command α σ)} (hcs : ∀ c ∈ cs, c.Literal)
    (h : insertAll cs t = .ok () t') : t'.commands.toList = t.commands.toList ++ cs := by
  induction cs generalizing t with
  | nil => rw [← (EStateM.Result.ok.inj h).2, List.append_nil]
  | cons c cs ih =>
    obtain ⟨_, t₁, hc, hrest⟩ := exists_of_bind_eq_ok h
    obtain ⟨_, _, _, _, rfl⟩ := exists_of_insert_literal (hcs c List.mem_cons_self) hc
    rw [ih (fun c' hc' => hcs c' (List.mem_cons_of_mem c hc')) hrest]
    simp

end Growth

end CommandLine
