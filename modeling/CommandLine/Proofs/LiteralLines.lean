import CommandLine.Proofs.Search.FirstWord
import CommandLine.Proofs.Search.Respaced
import CommandLine.Proofs.Tree.Prevailing

/-!
# Lines of words

In a tree of commands that are made of words a search has no choice: every word names at most one
child, and nothing else is tried. So a line resolves to what stands behind its words, unless the
principal is stopped at one of them or at their end.

* `firstEnding?_events_words` — how a search ends along words that lead to a command;
* `exists_route_of_firstEnding?` — a search that finds a command followed all words of the line;
* `Chart.parse_of_words`, `Chart.exists_route_of_parse` — the same of whole lines;
* `parse_words` — which command the words of a line resolve to.
-/

set_option autoImplicit false

namespace CommandLine

open Text

variable {α σ : Type}

namespace Tree

variable {t : Tree α σ} {v : Visit α} {i j l : NodeIndex} {w : String} {ws : List String}
  {c : Command α σ} {principal : α}

/-- Every node to which some of the words lead, taken from the first one on, is open to a
principal. -/
def OpenAlong (t : Tree α σ) (principal : α) (i : NodeIndex) (ws : List String) : Prop :=
  ∀ front l, front <+: ws → front ≠ [] → t.Route i (front.map .literal) l →
    (t.node l).permission.allows principal = true

theorem openAlong_nil (t : Tree α σ) (principal : α) (i : NodeIndex) : t.OpenAlong principal i [] :=
  fun _ _ hfront hne => (hne (List.prefix_nil.mp hfront)).elim

/-- One word further the others are left. -/
theorem openAlong_cons_iff (hnodup : (t.node i).literalNames.Nodup)
    (h : (t.node i).literal? w = some l) : t.OpenAlong principal i (w :: ws) ↔
      (t.node l).permission.allows principal = true ∧ t.OpenAlong principal l ws := by
  have hedge : t.Edge i (.literal w) l := Node.mem_literals_of_literal? h
  constructor
  · intro hopen
    refine ⟨hopen [w] l (by simp) (by simp) ⟨l, hedge, rfl⟩, ?_⟩
    intro front l' hfront _ hroute
    exact hopen (w :: front) l' (List.cons_prefix_cons.mpr ⟨rfl, hfront⟩) (by simp)
      ⟨l, hedge, hroute⟩
  · rintro ⟨hl, hopen⟩ front l' hfront hne hroute
    obtain ⟨v, front, rfl⟩ := List.exists_cons_of_ne_nil hne
    obtain ⟨rfl, hlater⟩ := List.cons_prefix_cons.mp hfront
    obtain ⟨k, hedge', hroute⟩ := hroute
    obtain rfl : k = l :=
      Option.some.inj (((Node.literal?_eq_some_iff hnodup).mpr hedge').symm.trans h)
    cases front with
    | nil =>
      obtain rfl : k = l' := hroute
      exact hl
    | cons u front => exact hopen (u :: front) l' hlater (by simp) hroute

/-! ## The events along words -/

/-- At the end of the line the command of the node is found or denied. -/
theorem firstEnding?_events_end (hv : v.bundled = false) (hend : v.cursor.atEnd = true) :
    Event.firstEnding? (t.events v) = (t.node v.node).command.map fun c =>
      if c.permission.allows v.context.principal then .ok ⟨c, v.cursor, v.context⟩
      else .error ⟨.noPermission, v.cursor.position, some c.name⟩ := by
  rw [events_eq_flatMap_turns, turns, hv, hend]
  simp only [Bool.false_eq_true, if_false, if_true, List.flatMap_cons, List.flatMap_nil,
    List.append_nil, turnEvents, attempt, endBranch]
  cases (t.node v.node).command with
  | none => rfl
  | some c =>
    simp only [Option.map_some]
    split <;> rfl

/-- At a word only the child that it names matters. -/
theorem firstEnding?_events_word (ht : t.OnlyWords) (hv : v.bundled = false)
    (hword : v.cursor.atBreak = false) :
    Event.firstEnding? (t.events v) = ((t.node v.node).literal? v.cursor.word).bind fun child =>
      if (t.node child).permission.allows v.context.principal then
        Event.firstEnding? (t.events ⟨child, v.cursor.skipWord.skipBlank, v.context, false⟩)
      else some (.error ⟨.noPermission, v.cursor.position, some (t.node child).name⟩) := by
  have hne : v.cursor.word ≠ "" := by
    rw [Ne, Cursor.word_eq_empty_iff, hword]
    exact Bool.false_ne_true
  have harguments : t.argumentsOf v.node = [] := by
    rw [argumentsOf, (ht v.node).2]
    rfl
  have hflag : t.turnEvents v .flag = [] := by
    simp [turnEvents, attempt, flagBranch?, (ht v.node).1]
  have hmismatch : Event.firstEnding? (t.turnEvents v .mismatch) = none := by
    simp only [turnEvents, attempt, mismatchBranch?]
    cases t.mismatch? v.node v.cursor.word <;> rfl
  -- At a word the tree offers nothing but literals, so the literal turn alone decides.
  have hliteral : Event.firstEnding? (t.events v) =
      Event.firstEnding? (t.turnEvents v .literal) := by
    rw [events_eq_flatMap_turns, turns_of_word hv hne, harguments]
    simp only [List.map_nil, List.append_nil, List.cons_append, List.nil_append,
      List.flatMap_cons, List.flatMap_nil, hflag, Event.firstEnding?_append, hmismatch,
      Option.or_none]
  rw [hliteral]
  simp only [turnEvents, attempt, literalBranch?]
  cases (t.node v.node).literal? v.cursor.word with
  | none => rfl
  | some child =>
    simp only [Option.map_some, Option.bind_some, permitted, enter, Cursor.atBreak_skipWord,
      if_true]
    split <;> rfl

/-- Where the words of the line lead to a command, the search ends with it or with a denial. -/
theorem firstEnding?_events_words {known : Command α σ → Prop} (m : Chart known t)
    (ht : t.OnlyWords) (hi : v.node < t.nodes.size) (hv : v.bundled = false)
    (hblank : v.cursor.atBlank = false) (hwords : v.cursor.words = ws.map String.toList)
    (hroute : t.Route v.node (ws.map .literal) j) (hc : (t.node j).command = some c) :
    (c.permission.allows v.context.principal = true ∧
        t.OpenAlong v.context.principal v.node ws →
      ∃ a, Event.firstEnding? (t.events v) = some (.ok a) ∧ a.command = c ∧
        a.context = v.context) ∧
      (¬(c.permission.allows v.context.principal = true ∧
          t.OpenAlong v.context.principal v.node ws) →
        ∃ r, Event.firstEnding? (t.events v) = some (.error r) ∧ r.cause = .noPermission) := by
  induction ws generalizing v with
  | nil =>
    obtain rfl : v.node = j := hroute
    rw [firstEnding?_events_end hv (Cursor.atEnd_of_words_eq_nil hblank hwords), hc,
      Option.map_some]
    constructor
    · rintro ⟨hallows, _⟩
      exact ⟨_, by rw [if_pos hallows], rfl, rfl⟩
    · intro hclosed
      exact ⟨_, by rw [if_neg fun hallows => hclosed ⟨hallows, t.openAlong_nil _ _⟩], rfl⟩
  | cons w ws ih =>
    obtain ⟨hbreak, hword, hlater⟩ := Cursor.of_words_eq_cons hblank hwords
    obtain ⟨l, hedge, hroute⟩ := hroute
    have hnodup := (m.stands v.node hi).words_nodup
    have hliteral := (Node.literal?_eq_some_iff hnodup).mpr hedge
    rw [openAlong_cons_iff hnodup hliteral, firstEnding?_events_word ht hv hbreak, hword, hliteral,
      Option.bind_some]
    by_cases hl : (t.node l).permission.allows v.context.principal = true
    · have hrest := ih (v := ⟨l, v.cursor.skipWord.skipBlank, v.context, false⟩)
        ((m.stands v.node hi).literal w l hedge).lt rfl (Cursor.atBlank_skipBlank _) hlater hroute
      simpa only [hl, if_true, true_and] using hrest
    · -- The walk is denied at the first closed node, whatever words follow.
      rw [if_neg hl]
      exact ⟨fun h => (hl h.2.1).elim, fun _ => ⟨_, rfl, rfl⟩⟩

/-- A search that finds a command has followed all words of the line to it. -/
theorem exists_route_of_firstEnding? (ht : t.OnlyWords) {a : Arrival α σ}
    (hv : v.bundled = false) (hblank : v.cursor.atBlank = false)
    (hwords : v.cursor.words = ws.map String.toList)
    (h : Event.firstEnding? (t.events v) = some (.ok a)) :
    ∃ j, t.Route v.node (ws.map .literal) j ∧ (t.node j).command = some a.command := by
  induction ws generalizing v with
  | nil =>
    rw [firstEnding?_events_end hv (Cursor.atEnd_of_words_eq_nil hblank hwords)] at h
    obtain ⟨c, hc, harrival⟩ := Option.map_eq_some_iff.mp h
    split at harrival
    · obtain rfl := Except.ok.inj harrival
      exact ⟨v.node, rfl, hc⟩
    · cases harrival
  | cons w ws ih =>
    obtain ⟨hbreak, hword, hlater⟩ := Cursor.of_words_eq_cons hblank hwords
    rw [firstEnding?_events_word ht hv hbreak, hword] at h
    obtain ⟨l, hliteral, h⟩ := Option.bind_eq_some_iff.mp h
    split at h
    · obtain ⟨j, hroute, hc⟩ := ih (v := ⟨l, v.cursor.skipWord.skipBlank, v.context, false⟩) rfl
        (Cursor.atBlank_skipBlank _) hlater h
      exact ⟨j, ⟨l, Node.mem_literals_of_literal? hliteral, hroute⟩, hc⟩
    · cases h

/-! ## Lines -/

namespace Chart

variable {known : Command α σ → Prop} (m : Chart known t)
  (hknown : ∀ c, known c → c.Built ∧ c.Literal)
include m hknown

/-- The line of words that lead to a command resolves to it without values, or is denied. -/
theorem parse_of_words (hws : ∀ w ∈ ws, IsWord w) (hroute : t.Route root (ws.map .literal) j)
    (hc : (t.node j).command = some c) (principal : α) :
    (c.permission.allows principal = true ∧ t.OpenAlong principal root ws →
      ∃ r, t.parse principal (" ".intercalate ws) = .ok r ∧ r.command = c ∧
        r.context.bindings = .empty) ∧
      (¬(c.permission.allows principal = true ∧ t.OpenAlong principal root ws) →
        ∃ r, t.parse principal (" ".intercalate ws) = .error r ∧ r.cause = .noPermission) := by
  let line : String := " ".intercalate ws
  have hwords : (start principal line).cursor.words = ws.map String.toList :=
    (Cursor.words_skipBlank _).trans (words_intercalate hws)
  obtain ⟨hfound, hdenied⟩ := firstEnding?_events_words m (m.onlyWords fun c hc => (hknown c hc).2)
    (v := start principal line) m.size_pos rfl (Cursor.atBlank_skipBlank _) hwords hroute hc
  have htook := (m.mono fun c hc => (hknown c hc).1).took principal line
  rw [← htook.ending] at hfound hdenied
  constructor
  · intro hopen
    obtain ⟨a, ha, rfl, hcontext⟩ := hfound hopen
    obtain ⟨hout, _, hsame⟩ := Searched.outcome_eq_ok ha
    have hfill : fillParameters (t.search (start principal line)).context a.command.parameters =
        .ok (.ofLine principal line) := by
      rw [(hknown a.command (m.known_of_command hc)).2.parameters_eq, ← hsame, hcontext]
      rfl
    rw [parse_of_found hout, hfill]
    exact ⟨_, rfl, rfl, rfl⟩
  · intro hclosed
    obtain ⟨r, hr, hcause⟩ := hdenied hclosed
    exact ⟨r, parse_of_denied (Searched.outcome_eq_error hr), hcause⟩

/-- The words of a line that resolves lead to its command. -/
theorem exists_route_of_parse {line : String} {r : Resolved α σ}
    (h : t.parse principal line = .ok r) :
    ∃ j, t.Route root (((words line.toList).map String.ofList).map .literal) j ∧
      (t.node j).command = some r.command := by
  have hwords : (start principal line).cursor.words =
      ((words line.toList).map String.ofList).map String.toList := by
    have hline : (start principal line).cursor.words = words line.toList :=
      Cursor.words_skipBlank _
    simpa [Function.comp_def] using hline
  have htook := (m.mono fun c hc => (hknown c hc).1).took principal line
  exact exists_route_of_firstEnding? (m.onlyWords fun c hc => (hknown c hc).2) rfl
    (Cursor.atBlank_skipBlank _) hwords (htook.firstEnding?_eq_ok (exists_of_parse_eq_ok h).1)

end Chart

/-- **Words resolve to the command that prevails behind them.** Take commands made of words, all of
which were inserted into an empty tree without a refusal.

* Among the commands with the words of one of them the last one with an action prevails, or else the
  first one. The line of these words, with single spaces between them, resolves to it without values
  if it and every node on the way is open to the principal, and is denied otherwise.
* No line with other words resolves. -/
theorem parse_words {cs : List (Command α σ)} {s : Settings}
    (hcs : ∀ c ∈ cs, c.Built ∧ c.Literal ∧ ∀ w ∈ c.words, IsWord w)
    (hgrown : Growth.insertAll cs (empty s) = .ok () t) (principal : α) :
    (∀ ws ∈ cs.map Command.words, ∃ c,
      Command.prevailing? (cs.filter (·.words = ws)) = some c ∧
        (c.permission.allows principal = true ∧ t.OpenAlong principal root ws →
          ∃ r, t.parse principal (" ".intercalate ws) = .ok r ∧ r.command = c ∧
            r.context.bindings = .empty) ∧
        (¬(c.permission.allows principal = true ∧ t.OpenAlong principal root ws) →
          ∃ r, t.parse principal (" ".intercalate ws) = .error r ∧ r.cause = .noPermission)) ∧
      ∀ line, (words line.toList).map String.ofList ∉ cs.map Command.words →
        ∀ r, t.parse principal line ≠ .ok r := by
  have hstanding : t.Standing cs :=
    standing_insertAll (.empty s) (by simp) (fun c hc => (hcs c hc).2.1) hgrown
  obtain ⟨m⟩ := hstanding.chart
  have hknown : ∀ c ∈ cs, c.Built ∧ c.Literal := fun c hc => ⟨(hcs c hc).1, (hcs c hc).2.1⟩
  constructor
  · intro ws hws
    obtain ⟨c₀, hc₀, rfl⟩ := List.mem_map.mp hws
    obtain ⟨j, hroute⟩ := hstanding.reached c₀ hc₀
    obtain ⟨c, hprevailing⟩ :
        ∃ c, Command.prevailing? (cs.filter (·.words = c₀.words)) = some c := by
      rw [← Option.ne_none_iff_exists', Ne, Command.prevailing?_eq_none_iff]
      exact List.ne_nil_of_mem (List.mem_filter.mpr ⟨hc₀, by simp⟩)
    have hcommand := (hstanding.command _ j hroute).trans hprevailing
    exact ⟨c, hprevailing, m.parse_of_words hknown (hcs c₀ hc₀).2.2 hroute hcommand principal⟩
  · intro line hline r hparse
    -- The words lead to a command, so one with these words was inserted.
    obtain ⟨j, hroute, hcommand⟩ := m.exists_route_of_parse hknown hparse
    have hnone : cs.filter (·.words = (words line.toList).map String.ofList) = [] := by
      rw [List.filter_eq_nil_iff]
      intro c hc heq
      exact hline (List.mem_map.mpr ⟨c, hc, by simpa using heq⟩)
    rw [hstanding.command _ j hroute, hnone] at hcommand
    cases hcommand

/-- A listing of teams, inserted again for players of some level and with an action, and then
without one. -/
def listings : List (Command Nat Unit) :=
  [listing.command 0 "team", guarded.command 1 "team", listing.command 2 "team"]
where
  listing : Declaration Nat Unit := { name := "team", steps := [.literal "list"] }
  guarded : Declaration Nat Unit :=
    { listing with permission := .requires fun level => 2 ≤ level, action := some fun _ s => s }

theorem parse_words_listings :
    (∀ c ∈ listings, c.Built ∧ c.Literal ∧ ∀ w ∈ c.words, IsWord w) ∧
      Growth.insertAll listings (empty {}) =
        .ok () ((Growth.insertAll listings).after (empty {})) ∧
      (∃ r, ((Growth.insertAll listings).after (empty {})).parse 2 "team list" = .ok r ∧
        r.command = listings.guarded.command 1 "team" ∧ r.context.bindings = .empty) ∧
      (∃ r, ((Growth.insertAll listings).after (empty {})).parse 1 "team list" = .error r ∧
        r.cause = .noPermission) ∧
      ∀ r, ((Growth.insertAll listings).after (empty {})).parse 2 "team" ≠ .ok r := by
  -- The two runnable conditions are computed; `Built` is not, and is given by the declarations.
  have hwords : ∀ c ∈ listings, c.Literal ∧ ∀ w ∈ c.words, IsWord w := by decide +kernel
  have hcs : ∀ c ∈ listings, c.Built ∧ c.Literal ∧ ∀ w ∈ c.words, IsWord w := by
    intro c hc
    refine ⟨?_, hwords c hc⟩
    simp only [listings, List.mem_cons, List.not_mem_nil, or_false] at hc
    rcases hc with rfl | rfl | rfl
    · exact ⟨listings.listing, 0, _, rfl, List.mem_cons_self⟩
    · exact ⟨listings.guarded, 1, _, rfl, List.mem_cons_self⟩
    · exact ⟨listings.listing, 2, _, rfl, List.mem_cons_self⟩
  have hgrown := Growth.eq_ok_of_succeeds
    (show (Growth.insertAll listings).succeeds (empty {}) = true by decide +kernel)
  have hmem : ["team", "list"] ∈ listings.map Command.words := by decide +kernel
  have hprevailing : Command.prevailing? (listings.filter (·.words = ["team", "list"])) =
      some (listings.guarded.command 1 "team") := rfl
  refine ⟨hcs, hgrown, ?_, ?_, ?_⟩
  · obtain ⟨c, hc, hresolves, _⟩ := (parse_words hcs hgrown 2).1 _ hmem
    obtain rfl := Option.some.inj (hprevailing.symm.trans hc)
    refine hresolves ⟨rfl, ?_⟩
    rw [openAlong_cons_iff (l := 1) (by decide +kernel) (by decide +kernel),
      openAlong_cons_iff (l := 2) (by decide +kernel) (by decide +kernel)]
    exact ⟨by decide +kernel, by decide +kernel, openAlong_nil _ _ _⟩
  · obtain ⟨c, hc, _, hdenied⟩ := (parse_words hcs hgrown 1).1 _ hmem
    obtain rfl := Option.some.inj (hprevailing.symm.trans hc)
    exact hdenied fun h => nomatch h.1
  · exact (parse_words hcs hgrown 2).2 "team" (by decide +kernel)

end Tree

end CommandLine
