import CommandLine.Proofs.Search.OneWay
import CommandLine.Proofs.Tree.Literals
import CommandLine.Proofs.Tree.Steps

/-!
# The command behind some words

Commands made of words may be inserted behind the same words again and again. The node there keeps
the command that it got first, until one with an action is inserted, and from then on it has the
last one with an action (`Command.prevailing?`). Commands behind other words do not touch it,
however many of these words they share.

* `Command.prevailing?_concat` — what one more command makes of the choice;
* `Chart.exists_of_insert_words` — what the insertion of one command does;
* `Standing.insert`, `standing_insertAll` — in a tree of commands made of words every route has
  behind it the prevailing one of those with its words.
-/

set_option autoImplicit false

namespace CommandLine

variable {α σ : Type}

namespace Step

theorem words_injective : Function.Injective (List.map (@Step.literal α)) :=
  List.map_injective_iff.mpr fun _ _ h => Step.literal.inj h

/-- What stands for words is these words. -/
theorem eq_words_of_fits {steps : List (Step α)} {ws : List String}
    (h : List.Forall₂ Fits steps (ws.map .literal)) : steps = ws.map .literal := by
  induction ws generalizing steps with
  | nil => exact List.forall₂_nil_right_iff.mp h
  | cons w ws ih =>
    cases h with
    | cons hfit h => rw [ih h, hfit.symm.of_literal, List.map_cons]

theorem filter_isFlag_words (ws : List String) :
    (ws.map .literal : List (Step α)).filter (!·.isFlag) = ws.map .literal := by
  simp

end Step

/-- Of commands that were inserted behind the same words, in order, the last one with an action, or
else the first one. -/
def Command.prevailing? (cs : List (Command α σ)) : Option (Command α σ) :=
  (cs.filter (·.action.isSome)).getLast? <|> cs.head?

namespace Command

/-- One more command prevails if it is the only one or has an action. -/
theorem prevailing?_concat (cs : List (Command α σ)) (c : Command α σ) :
    prevailing? (cs ++ [c]) =
      if (prevailing? cs).isNone || c.action.isSome then some c else prevailing? cs := by
  unfold prevailing?
  rw [List.filter_append, List.head?_append]
  cases haction : c.action.isSome with
  | true => simp [haction]
  | false =>
    cases cs with
    | nil => simp [haction]
    | cons first cs => cases hlast : ((first :: cs).filter (·.action.isSome)).getLast? <;>
        simp [haction, hlast]

theorem prevailing?_eq_none_iff {cs : List (Command α σ)} : prevailing? cs = none ↔ cs = [] := by
  cases cs with
  | nil => simp [prevailing?]
  | cons c cs => simp [prevailing?]

/-- All words of such a command are on a way past it. -/
theorem Literal.words_eq_of_passes {c : Command α σ} (hc : c.Literal) {k : Nat} (hk : c.Grafts k)
    {ws : List String} (h : c.Passes k (ws.map .literal)) : ws = c.words := by
  have hplain (p : Parameter α) : .parameter p ∉ c.path := by
    intro hp
    cases hc (.parameter p) (List.mem_append_left _ (List.mem_cons_of_mem _ hp))
  unfold Command.Passes at h
  rw [hk.eq_length hplain, List.take_length, hc.positionals_eq] at h
  exact Step.words_injective (Step.eq_words_of_fits h)

end Command

namespace Tree

variable {t t' : Tree α σ} {i j : NodeIndex} {c : Command α σ} {cs : List (Command α σ)}

/-- No node has a child that is a flag or an argument. -/
def OnlyWords (t : Tree α σ) : Prop := ∀ i, (t.node i).flags = [] ∧ (t.node i).arguments = []

namespace Chart

open CommandLine.Growth

variable {known : Command α σ → Prop} {m : Chart known t}

/-- Following the words of a command leads to the place behind them. -/
theorem draws_growWords {k : Nat} {ws : List String} (hc : known c) (h : m.At c k [] i)
    (hws : c.positionals.drop k = ws.map .literal) :
    m.Draws c (growWords c.permission i ws) fun m' j => m'.At c (k + ws.length) [] j := by
  induction ws generalizing t k i with
  | nil => exact draws_pure h
  | cons w ws ih =>
    have hw : c.positionals[k]? = some (.literal w) := by
      rw [← Nat.add_zero k, ← List.getElem?_drop, hws]
      rfl
    apply draws_bind (draws_ensureLiteral hc h hw)
    intro t₁ m₁ child _ hchild
    rw [List.length_cons, Nat.add_comm ws.length, ← Nat.add_assoc]
    refine ih hchild ?_
    rw [← List.drop_drop, hws]
    rfl

/-- In a tree of commands made of words all children are words. -/
theorem onlyWords (m : Chart known t) (hknown : ∀ c, known c → c.Literal) : t.OnlyWords := by
  intro i
  have hnone {l : NodeIndex} {p : Parameter α} : ¬t.Leads m.way i l (.parameter p) := by
    intro hleads
    obtain ⟨c, hc, hmade⟩ := m.exists_made hleads.label_eq (by simp)
    have hp := hmade.mem p rfl
    rw [(hknown c hc).parameters_eq] at hp
    cases hp
  rcases Nat.lt_or_ge i t.nodes.size with hi | hi
  · have hstands := m.stands i hi
    refine ⟨List.eq_nil_iff_forall_not_mem.mpr fun l hl => ?_,
      List.eq_nil_iff_forall_not_mem.mpr fun l hl => ?_⟩
    · obtain ⟨_, _, hleads, _⟩ := hstands.flag l hl
      exact hnone hleads
    · obtain ⟨_, _, hleads⟩ := hstands.argument l hl
      exact hnone hleads
  · rw [node_of_size_le hi]
    exact ⟨rfl, rfl⟩

/-- Routes of the same words come to the same node. -/
theorem words_unique (m : Chart known t) {ws : List String}
    (h : t.Route root (ws.map .literal) i) (h' : t.Route root (ws.map .literal) j) : i = j := by
  refine m.route_unique (i := root) m.size_pos h h' ?_
  exact List.forall₂_same.mpr fun step _ => .refl step

theorem way_of_words (m : Chart known t) {ws : List String}
    (h : t.Route root (ws.map .literal) i) : m.way i = ws.map .literal := by
  rw [(m.way_of_route h).2, Step.filter_isFlag_words]

/-- An insertion of a command made of words: they lead to a node behind them, and only there the
command may be another one than before. -/
theorem exists_of_insert_words (m : Chart known t) (hc : known c) (hliteral : c.Literal)
    (hrun : Growth.insert c t = .ok () t') : ∃ (m' : Chart known t') (j : NodeIndex),
      t.Grows t' ∧ (∀ l < t.nodes.size, m'.way l = m.way l) ∧
        t'.Route root (c.words.map .literal) j ∧ ∀ i, (t'.node i).command =
          if i = j then
            if (t.node i).command.isNone || c.action.isSome then some c else (t.node i).command
          else (t.node i).command := by
  obtain ⟨t₁, j, hwords, hsame, rfl⟩ := Growth.exists_of_insert_literal hliteral hrun
  -- The chart is redrawn while the words are followed and again when the command is bound.
  have hdraws := draws_growWords hc (.of_root m c) hliteral.positionals_eq
  rw [Draws, hwords] at hdraws
  obtain ⟨m₁, hext, hat⟩ := hdraws
  have hlength : 0 + c.words.length = c.positionals.length := by
    rw [hliteral.positionals_eq, List.length_map, Nat.zero_add]
  have hallows : (t₁.plan c).Allows [] := by
    rw [plan, hliteral.flags_eq]
    exact FlagPlan.allows_required t₁.settings.threshold []
  obtain ⟨m₂, hext', _⟩ : ∃ m₂ : Chart known (t₁.bindCommand j c), m₁.Extends c.name m₂ ∧
      (t₁.bindCommand j c).Ends c (0 + c.words.length) [] :=
    draws_markEnd hc hat (hlength ▸ c.grafts_length) hallows
  let t₂ : Tree α σ := { t₁.bindCommand j c with commands := t.commands.push c }
  have hgrows : t₁.Grows t₂ := hext'.toGrows.trans (.of_nodes_eq rfl rfl)
  refine ⟨m₂.congr rfl rfl, j, hext.toGrows.trans hgrows, (hext.trans hext').way_eq, ?_, ?_⟩
  · obtain ⟨steps, hroute, hfits⟩ := hat.trail
    rw [List.map_nil, List.append_nil, hlength, List.take_length, hliteral.positionals_eq] at hfits
    exact hgrows.route (Step.eq_words_of_fits hfits ▸ hroute)
  · intro i
    show ((t₁.modifyNode j _).node i).command = _
    rw [← hsame.node i]
    by_cases hi : i = j
    · rw [if_pos hi, hi, node_modifyNode_self hat.lt]
      split <;> rfl
    · rw [if_neg hi, node_modifyNode_of_ne hi]

end Chart

/-! ## What stands behind words -/

/-- A tree in which some commands made of words were inserted: it has a chart over them, the words
of each of them lead somewhere, and wherever words lead, the prevailing one of the commands with
these words stands. -/
structure Standing (t : Tree α σ) (cs : List (Command α σ)) : Prop where
  chart : Nonempty (Chart (· ∈ cs) t)
  reached : ∀ c ∈ cs, ∃ i, t.Route root (c.words.map .literal) i
  command : ∀ ws i, t.Route root (ws.map .literal) i →
    (t.node i).command = Command.prevailing? (cs.filter (·.words = ws))

/-- Without commands there is the root alone. -/
theorem Standing.empty (s : Settings) : Standing (Tree.empty s : Tree α σ) [] := by
  refine ⟨⟨.empty _ s⟩, by simp, ?_⟩
  intro ws i hroute
  cases ws with
  | nil =>
    obtain rfl : root = i := hroute
    rfl
  | cons w ws =>
    obtain ⟨_, hedge, _⟩ := hroute
    cases hedge

/-- Before an insertion the same stood where words lead after it: the prevailing one of the commands
before. -/
theorem Standing.command_of_route (h : t.Standing cs) (hcs : ∀ c ∈ cs, c.Literal)
    {m : Chart (· ∈ cs) t} {known : Command α σ → Prop} {m' : Chart known t'}
    (hgrows : t.Grows t') (hway : ∀ l < t.nodes.size, m'.way l = m.way l) {ws : List String}
    (hroute : t'.Route root (ws.map .literal) i) :
    (t.node i).command = Command.prevailing? (cs.filter (·.words = ws)) := by
  by_cases hex : ∃ c ∈ cs, c.words = ws
  · obtain ⟨c, hc, rfl⟩ := hex
    obtain ⟨j, hj⟩ := h.reached c hc
    obtain rfl := m'.words_unique hroute (hgrows.route hj)
    exact h.command _ _ hj
  · -- No command had these words, and only one that has them stands behind them.
    have hnone : cs.filter (·.words = ws) = [] := by
      rw [List.filter_eq_nil_iff]
      intro c hc hwords
      exact hex ⟨c, hc, by simpa using hwords⟩
    rw [hnone]
    cases hcommand : (t.node i).command with
    | none => rfl
    | some c =>
      have hi : i < t.nodes.size := by
        rcases Nat.lt_or_ge i t.nodes.size with hi | hi
        · exact hi
        · rw [node_of_size_le hi] at hcommand
          cases hcommand
      obtain ⟨hc, k, flags, hk, hvisits, _⟩ := (m.stands i hi).bound c hcommand
      have hpasses := hvisits.passes
      rw [← hway i hi, m'.way_of_words hroute] at hpasses
      exact (hex ⟨c, hc, ((hcs c hc).words_eq_of_passes hk hpasses).symm⟩).elim

/-- One more command: its words lead to the node of which the command changes. -/
theorem Standing.insert (h : t.Standing cs) (hcs : ∀ c ∈ cs, c.Literal) (hc : c.Literal)
    (hrun : Growth.insert c t = .ok () t') : t'.Standing (cs ++ [c]) := by
  obtain ⟨m⟩ := h.chart
  let m₀ : Chart (· ∈ cs ++ [c]) t := m.mono fun c' hc' => List.mem_append_left _ hc'
  obtain ⟨m', j, hgrows, hway, hj, hcommand⟩ :=
    m₀.exists_of_insert_words (List.mem_append_right _ List.mem_cons_self) hc hrun
  refine ⟨⟨m'⟩, ?_, ?_⟩
  · intro c' hc'
    rcases List.mem_append.mp hc' with hc' | hc'
    · exact (h.reached c' hc').imp fun _ hroute => hgrows.route hroute
    · obtain rfl := List.mem_singleton.mp hc'
      exact ⟨j, hj⟩
  · intro ws i hroute
    have hbefore := h.command_of_route hcs (m := m) hgrows hway hroute
    rw [hcommand i, hbefore, List.filter_append]
    by_cases hws : c.words = ws
    · obtain rfl : i = j := m'.words_unique hroute (hws ▸ hj)
      rw [if_pos rfl, List.filter_cons_of_pos (by simpa using hws), List.filter_nil,
        Command.prevailing?_concat]
    · have hne : i ≠ j := by
        rintro rfl
        exact hws (Step.words_injective ((m'.way_of_words hj).symm.trans (m'.way_of_words hroute)))
      rw [if_neg hne, List.filter_cons_of_neg (by simpa using hws), List.filter_nil,
        List.append_nil]

/-- In a tree of commands made of words the prevailing ones stand behind their words. -/
theorem standing_insertAll {known : List (Command α σ)} (h : t.Standing known)
    (hknown : ∀ c ∈ known, c.Literal) (hcs : ∀ c ∈ cs, c.Literal)
    (hrun : Growth.insertAll cs t = .ok () t') : t'.Standing (known ++ cs) := by
  induction cs generalizing t known with
  | nil =>
    obtain rfl := (EStateM.Result.ok.inj hrun).2
    simpa using h
  | cons c cs ih =>
    obtain ⟨_, t₁, hc, hrest⟩ := Growth.exists_of_bind_eq_ok hrun
    have hliteral := hcs c List.mem_cons_self
    have hnext := h.insert hknown hliteral hc
    rw [List.append_cons]
    refine ih hnext ?_ (fun c' hc' => hcs c' (List.mem_cons_of_mem c hc')) hrest
    intro c' hc'
    rcases List.mem_append.mp hc' with hc' | hc'
    · exact hknown c' hc'
    · exact List.mem_singleton.mp hc' ▸ hliteral

end Tree

end CommandLine
