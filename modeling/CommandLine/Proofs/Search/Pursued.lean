import CommandLine.Proofs.Search.OneWay
import CommandLine.Proofs.Search.Resolved

/-!
# Readings that the search pursues

A search follows the first turn that leads on, so it pursues a reading on which nothing comes of the
turns before those that the reading takes. It need not be the only reading of the line: an argument
that may be left out could take the word that spells a flag. But no other one is tried before the
pursued one has failed, and if that ends at a command, the line resolves to it with the values given
on the way (`Chart.exists_parse_of_pursues`).

* `Pursues.firstEnding?` — what ends a search at the end of a pursued reading ends it;
* `Chart.chooses_argument`, `Chart.chooses_spelled` — the turns that are chosen on the tree of one
  command.
-/

set_option autoImplicit false

namespace CommandLine

variable {α σ : Type}

namespace Tree

/-- A turn leads on from a visit, and nothing comes of the turns before it. -/
structure Chooses (t : Tree α σ) (v : Visit α) (turn : Turn α) (given : Option (Given α))
    (w : Visit α) : Prop where
  moves : t.Moves v turn given w
  first : ∃ before after, t.turns v = before ++ turn :: after ∧
    ∀ x ∈ before, t.attempt v.node v.cursor v.context x = none

/-- A reading on which every turn is the first that comes to anything. -/
inductive Pursues (t : Tree α σ) : Visit α → List (Given α) → Visit α → Prop
  | refl (v : Visit α) : Pursues t v [] v
  | step {v w u : Visit α} {turn : Turn α} {given : Option (Given α)} {later : List (Given α)} :
      t.Chooses v turn given w → Pursues t w later u → Pursues t v (given.toList ++ later) u

variable {t : Tree α σ} {c : Command α σ} {v w u : Visit α} {i j : NodeIndex} {p q : Parameter α}
  {turn : Turn α} {given : Option (Given α)} {gave later : List (Given α)}

namespace Chooses

theorem mem_turns (h : t.Chooses v turn given w) : turn ∈ t.turns v := by
  obtain ⟨before, after, hturns, _⟩ := h.first
  rw [hturns]
  exact List.mem_append_right _ List.mem_cons_self

/-- A turn that comes first is chosen. -/
theorem of_turns_eq_cons {turns : List (Turn α)} (hturns : t.turns v = turn :: turns)
    (h : t.Moves v turn given w) : t.Chooses v turn given w :=
  ⟨h, [], turns, hturns, by simp⟩

/-- What ends a search behind a chosen turn ends it. -/
theorem firstEnding? (h : t.Chooses v turn given w) {o : Except Rejection (Arrival α σ)}
    (hw : Event.firstEnding? (t.events w) = some o) :
    Event.firstEnding? (t.events v) = some o := by
  obtain ⟨before, after, hturns, hnone⟩ := h.first
  have hbefore : before.flatMap (t.turnEvents v) = [] := by
    rw [List.flatMap_eq_nil_iff]
    intro x hx
    rw [turnEvents, hnone x hx]
  have hturn : t.turnEvents v turn = t.events w := by
    rw [turnEvents, attempt_eq_enter_iff.mpr ⟨given, h.moves⟩]
    rfl
  rw [events_eq_flatMap_turns, hturns, List.flatMap_append, hbefore, List.nil_append,
    List.flatMap_cons, hturn, Event.firstEnding?_append, hw, Option.some_or]

end Chooses

namespace Pursues

theorem single (h : t.Chooses v turn given w) : t.Pursues v given.toList w := by
  have hstep := Pursues.step h (.refl w)
  rwa [List.append_nil] at hstep

theorem append (h : t.Pursues v gave w) (h' : t.Pursues w later u) :
    t.Pursues v (gave ++ later) u := by
  induction h with
  | refl v => exact h'
  | step hchooses _ ih =>
    rw [List.append_assoc]
    exact .step hchooses (ih h')

theorem reads (h : t.Pursues v gave u) : t.Reads v gave u := by
  induction h with
  | refl v => exact .refl v
  | step hchooses _ ih => exact .step hchooses.mem_turns hchooses.moves ih

/-- What ends a search at the end of a pursued reading ends it. -/
theorem firstEnding? (h : t.Pursues v gave u) {o : Except Rejection (Arrival α σ)}
    (hu : Event.firstEnding? (t.events u) = some o) :
    Event.firstEnding? (t.events v) = some o := by
  induction h with
  | refl v => exact hu
  | step hchooses _ ih => exact hchooses.firstEnding? (ih hu)

end Pursues

/-- At the end of the line the command of a node ends a search. -/
theorem firstEnding?_of_atEnd (hbundled : u.bundled = false) (hend : u.cursor.atEnd = true)
    (hcommand : (t.node u.node).command = some c)
    (hallows : c.permission.allows u.context.principal = true) :
    Event.firstEnding? (t.events u) = some (.ok ⟨c, u.cursor, u.context⟩) := by
  have hbranches : t.branches u = [.bound c] := by
    simp [branches, turns, hbundled, hend, attempt, endBranch, hcommand, hallows]
  rw [events_eq, hbranches]
  rfl

namespace Chart

/-- A line with a pursued reading to a command resolves to the command, with the values given on the
reading and those filled in. -/
theorem exists_parse_of_pursues (m : Chart (· = c) t) (hc : c.Built) (hopen : c.Open)
    (hreadable : c.Readable) {principal : α} {line : String}
    (h : t.Pursues (start principal line) gave u) (hbundled : u.bundled = false)
    (hend : u.cursor.atEnd = true) (hcommand : (t.node u.node).command = some c) :
    ∃ r ctx, t.parse principal line = .ok r ∧ r.command = c ∧
      fillParameters ((Context.ofLine principal line).given gave) c.parameters = .ok ctx ∧
      r.context.bindings = ctx.bindings := by
  have hfirst := h.firstEnding? (firstEnding?_of_atEnd hbundled hend hcommand
    (hopen.command u.context.principal))
  rw [← ((m.mono fun _ hc' => hc' ▸ hc).took principal line).ending] at hfirst
  obtain ⟨hout, _, hcontext⟩ := Searched.outcome_eq_ok hfirst
  obtain ⟨ctx, hfill⟩ := exists_fillParameters hreadable
    (t.search (start principal line)).context
  refine ⟨_, ctx, by rw [parse_of_found hout, hfill], rfl, ?_, rfl⟩
  rw [← hfill, ← hcontext]
  exact congrArg (fillParameters · c.parameters) h.reads.context_eq.symm

/-! ## What is chosen -/

/-- Where everyone may use the command, everyone may pass every node. -/
theorem allows_of_open (m : Chart (· = c) t) (hopen : c.Open) (i : NodeIndex) (principal : α) :
    (t.node i).permission.allows principal = true :=
  m.allows_node (fun _ hc' => hc' ▸ hopen) i principal

/-- There is one argument behind a node. -/
theorem exists_argumentsOf_eq (m : Chart (· = c) t) (hi : i < t.nodes.size)
    (h : (j, q) ∈ t.argumentsOf i) : ∃ children, t.argumentsOf i = (j, q) :: children := by
  obtain ⟨⟨l, p⟩, children, hchildren⟩ := List.exists_cons_of_ne_nil (List.ne_nil_of_mem h)
  have hp : (l, p) ∈ t.argumentsOf i := hchildren ▸ List.mem_cons_self
  have hfit := m.fits_of_edge hi (.of_argument hp) (m.leads_of_mem_argumentsOf hi hp).1
    (.of_argument h) (m.leads_of_mem_argumentsOf hi h).1
  obtain rfl := m.edge_unique hi (.of_argument hp) (.of_argument h) hfit
  obtain rfl := Label.parameter.inj
    ((mem_argumentsOf.mp hp).2.symm.trans (mem_argumentsOf.mp h).2)
  exact ⟨children, hchildren⟩

/-- Next to an argument there is no literal. -/
theorem literals_eq_nil_of_mem_argumentsOf (m : Chart (· = c) t) (hi : i < t.nodes.size)
    (h : (j, q) ∈ t.argumentsOf i) : (t.node i).literals = [] := by
  rw [List.eq_nil_iff_forall_not_mem]
  rintro ⟨w, l⟩ hl
  exact m.fits_of_edge hi (s := .literal w) hl rfl (.of_argument h)
    (m.leads_of_mem_argumentsOf hi h).1

/-- An argument is chosen where the word spells no flag. -/
theorem chooses_argument (m : Chart (· = c) t) (hi : v.node < t.nodes.size)
    (hword : t.settings.flagSpelling? v.cursor.word = none)
    (hturn : .argument j q ∈ t.turns v) (h : t.Moves v (.argument j q) given w) :
    t.Chooses v (.argument j q) given w := by
  have hchild := mem_argumentsOf_of_mem_turns hturn
  obtain ⟨children, hchildren⟩ := m.exists_argumentsOf_eq hi hchild
  have hliterals := m.literals_eq_nil_of_mem_argumentsOf hi hchild
  have hv : v.bundled = false ∧ v.cursor.atEnd = false := by
    cases hbundled : v.bundled <;> cases hend : v.cursor.atEnd <;> simp [turns, hbundled, hend] at *
  refine ⟨h, [.literal, .flag], _, by rw [turns_eq hv.1 hv.2, hchildren]; rfl, ?_⟩
  intro x hx
  rcases List.mem_pair.mp hx with rfl | rfl
  · simp [attempt, literalBranch?, Node.literal?, hliterals]
  · simp [attempt, flagBranch?, hword]

/-- A flag is chosen where the line spells it. -/
theorem chooses_spelled (m : Chart (· = c) t) (hi : v.node < t.nodes.size) {e : Cursor}
    {attached : Bool} (hturn : turn ∈ t.turns v) (hspells : t.Spells v turn j p e attached)
    (h : t.Moves v turn given w) : t.Chooses v turn given w := by
  rcases hspells.turn_eq with rfl | rfl
  · have hliterals := m.literals_eq_nil_of_mem_flagsOf hi hspells.mem_flagsOf
    have hv := bundled_of_flag_mem_turns hturn
    have hend : v.cursor.atEnd = false := by
      rw [← Bool.not_eq_true]
      intro hend
      simp [turns, hv, hend] at hturn
    refine ⟨h, [.literal], _, turns_eq hv hend, ?_⟩
    simp [attempt, literalBranch?, Node.literal?, hliterals]
  · have hv := bundled_of_shorthand_mem_turns hturn
    have hturns : t.turns v = [.shorthand] := by simp [turns, hv]
    exact .of_turns_eq_cons hturns h

end Chart

end Tree

end CommandLine
