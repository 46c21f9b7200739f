import CommandLine.Proofs.Search.Enumeration
import CommandLine.Proofs.Tree.Steps
import CommandLine.Tree.Dispatch

/-!
# The search refines the enumeration

A search shares one cursor and one set of values between its branches, and cuts the values after a
branch that failed. The enumeration shares nothing. They agree on grown trees: a search ends as the
first event that can end it, with that event's own cursor and values, and records the rejections
before it.

Cutting does not bring back a value that was replaced. That this does no harm rests on the names of
ways. A visit has the names on the way to its node, followed by others only at a flag node
(`Chart.Follows`). What a failed branch replaces is behind the names on the way, so the front of the
values survives (`Chart.Kept`). At a node that is not a flag's the front is everything, and at a
flag node nothing reads the values after its only flag has failed.

* `Chart.Follows.moves` — undoing a failed branch leaves the values of the visit, as far as they
  matter;
* `search_took` — a search agrees with the enumeration;
* `search_refines_events` — so the first ending of the enumeration is found on every line.
-/

set_option autoImplicit false

namespace CommandLine

variable {α σ : Type}

/-- How a search ended, with its cursor and values if it found a command. -/
def Searched.ending? (s : Searched α σ) : Option (Except Rejection (Arrival α σ)) :=
  s.outcome.map fun
    | .error r => .error r
    | .ok c => .ok ⟨c, s.cursor, s.context⟩

namespace Searched

variable {s : Searched α σ}

/-- A search that has not ended has no outcome. -/
theorem outcome_eq_none (h : s.ending? = none) : s.outcome = none :=
  Option.map_eq_none_iff.mp h

/-- One that ended in a rejection was rejected. -/
theorem outcome_eq_error {r : Rejection} (h : s.ending? = some (.error r)) :
    s.outcome = some (.error r) := by
  obtain ⟨o, hout, ho⟩ := Option.map_eq_some_iff.mp h
  cases o with
  | error r' => rw [hout, Except.error.inj ho]
  | ok c => cases ho

/-- One that ended at a command has that command, and its own cursor and values. -/
theorem outcome_eq_ok {a : Arrival α σ} (h : s.ending? = some (.ok a)) :
    s.outcome = some (.ok a.command) ∧ a.cursor = s.cursor ∧ a.context = s.context := by
  obtain ⟨o, hout, ho⟩ := Option.map_eq_some_iff.mp h
  cases o with
  | error r' => cases ho
  | ok c =>
    obtain rfl := Except.ok.inj ho
    exact ⟨hout, rfl, rfl⟩

end Searched

namespace Tree

variable {t : Tree α σ} {v w : Visit α} {turn : Turn α} {given : Option (Given α)}

/-! ## What backtracking keeps -/

namespace Chart

/-- The values of a visit are those on the way to its node, and more only at a flag node. -/
structure Follows (m : Chart Command.Built t) (v : Visit α) : Prop where
  lt : v.node < t.nodes.size
  keys : ∃ extra, v.context.bindings.keys = Step.names (m.way v.node) ++ extra ∧
    (extra = [] ∨ t.FlagNode v.node)
  bundled : v.bundled = true → t.FlagNode v.node

/-- What is left of the values of a visit after a branch from it has failed: those on the way to its
node, which are all of them unless the node is a flag's. -/
structure Kept (m : Chart Command.Built t) (v : Visit α) (ctx : Context α) : Prop where
  front : ctx.truncate (Step.names (m.way v.node)).length =
    v.context.truncate (Step.names (m.way v.node)).length
  eq : ¬t.FlagNode v.node → ctx = v.context

variable {m : Chart Command.Built t} {ctx : Context α}

/-- The values of a visit are left as they are. -/
theorem Kept.refl (m : Chart Command.Built t) (v : Visit α) : m.Kept v v.context :=
  ⟨rfl, fun _ => rfl⟩

/-- A search starts at the root without values. -/
theorem Follows.of_start (m : Chart Command.Built t) (principal : α) (line : String) :
    m.Follows (start principal line) where
  lt := m.size_pos
  keys := by
    refine ⟨[], ?_, .inl rfl⟩
    simp [start, Context.ofLine, m.way_root, Bindings.keys, Bindings.empty, Step.names]
  bundled h := by cases h

/-- Above a word or an argument there is no flag, so the values are those on the way. -/
theorem Follows.keys_eq (h : m.Follows v) (hv : ¬t.FlagNode v.node) :
    v.context.bindings.keys = Step.names (m.way v.node) := by
  obtain ⟨extra, hkeys, hextra⟩ := h.keys
  rw [hkeys, hextra.resolve_right hv, List.append_nil]

/-- At a node that is no flag's there are as many values as names on the way. -/
theorem Follows.length_names_eq (h : m.Follows v) (hv : ¬t.FlagNode v.node) :
    (Step.names (m.way v.node)).length = v.context.bindings.size := by
  rw [← h.keys_eq hv, Bindings.length_keys]

/-- At a flag node there may be more. -/
theorem Follows.length_names_le (h : m.Follows v) :
    (Step.names (m.way v.node)).length ≤ v.context.bindings.size := by
  obtain ⟨extra, hkeys, _⟩ := h.keys
  rw [← Bindings.length_keys, hkeys, List.length_append]
  exact Nat.le_add_right _ _

/-- A move to a word's node keeps the values. -/
theorem Follows.literal (h : m.Follows v) {word : String} {j : NodeIndex} {c : Cursor}
    (hj : (t.node v.node).literal? word = some j) :
    ¬t.FlagNode v.node ∧ ¬t.FlagNode j ∧ m.Follows ⟨j, c, v.context, false⟩ := by
  have hleads := m.leads_of_literal? h.lt hj
  have hv : ¬t.FlagNode v.node := by
    intro hflag
    have hmem := Node.mem_literals_of_literal? hj
    rw [(m.childless_of_flagNode h.lt hflag).1] at hmem
    cases hmem
  refine ⟨hv, ?_, hleads.lt, ⟨[], ?_, .inl rfl⟩, by simp⟩
  · rintro ⟨p, hlabel, _⟩
    rw [hleads.label_eq] at hlabel
    cases hlabel
  · rw [h.keys_eq hv, hleads.way_eq]
    simp [Label.shown, Step.names, Step.parameter?]

/-- A move to an argument's node gives a value to a new name. -/
theorem Follows.argument (h : m.Follows v) {p : Parameter α} {j : NodeIndex} {c : Cursor}
    (hj : (j, p) ∈ t.argumentsOf v.node) (value : Value) :
    ¬t.FlagNode v.node ∧ ¬t.FlagNode j ∧ p.name ∉ Step.names (m.way v.node) ∧
      m.Follows ⟨j, c, v.context.bind p.name value, false⟩ := by
  obtain ⟨hplace, hleads⟩ := m.leads_of_mem_argumentsOf h.lt hj
  have hv : ¬t.FlagNode v.node := by
    intro hflag
    have hmem := (mem_argumentsOf.mp hj).1
    rw [(m.childless_of_flagNode h.lt hflag).2] at hmem
    cases hmem
  have hnames : Step.names (m.way j) = Step.names (m.way v.node) ++ [p.name] := by
    rw [hleads.way_eq]
    simp [Label.shown, hplace, Step.names, Step.parameter?]
  -- Names along a way are distinct, so the argument's is not among those above it.
  have hnew : p.name ∉ Step.names (m.way v.node) := by
    have hnodup := m.names_nodup (fun _ hc => hc.sound) hleads.lt
    rw [hnames, List.nodup_append] at hnodup
    intro hmem
    exact hnodup.2.2 _ hmem _ (List.mem_singleton.mpr rfl) rfl
  refine ⟨hv, ?_, hnew, hleads.lt, ⟨[], ?_, .inl rfl⟩, by simp⟩
  · rintro ⟨q, hlabel, hnamed⟩
    obtain rfl := Label.parameter.inj (hleads.label_eq.symm.trans hlabel)
    rw [hplace] at hnamed
    cases hnamed
  · have hcontains : v.context.bindings.contains p.name = false := by
      rw [← Bool.not_eq_true, Bindings.contains_iff, h.keys_eq hv]
      exact hnew
    rw [List.append_nil, hnames, Context.bind, Bindings.keys_insert_of_not_contains _ _ hcontains,
      h.keys_eq hv]

/-- A move to a flag's node gives a value to a name that is not on the way. -/
theorem Follows.flag (h : m.Follows v) {p : Parameter α} {j : NodeIndex} {c : Cursor}
    (hj : (j, p) ∈ t.flagsOf v.node) (value : Value) (bundled : Bool) :
    m.way j = m.way v.node ∧ p.name ∉ Step.names (m.way v.node) ∧
      m.Follows ⟨j, c, v.context.bind p.name value, bundled⟩ := by
  obtain ⟨hnamed, hleads⟩ := m.leads_of_mem_flagsOf h.lt hj
  have hway : m.way j = m.way v.node := by
    rw [hleads.way_eq, Label.shown, if_pos hnamed]
    exact List.append_nil _
  have hflag : t.FlagNode j := ⟨p, hleads.label_eq, hnamed⟩
  have hnew := m.name_notMem_of_flag (fun _ hc => hc.sound) hleads.label_eq hnamed
  rw [hway] at hnew
  obtain ⟨extra, hkeys, _⟩ := h.keys
  obtain ⟨extra', hkeys'⟩ := Bindings.exists_keys_insert p.name value hkeys
  exact ⟨hway, hnew, hleads.lt, ⟨extra', hway.symm ▸ hkeys', .inr hflag⟩, fun _ => hflag⟩

/-- Values that were not touched are kept. -/
theorem Kept.of_eq (h : ctx = v.context) : m.Kept v ctx :=
  h ▸ .refl m v

/-- After a flag's branch has failed the cut leaves at least what is on the way. -/
theorem Kept.undo_flag {p : Parameter α} {j : NodeIndex} {c : Cursor} {value : Value}
    {bundled : Bool} (h : m.Follows v) (hway : m.way j = m.way v.node)
    (hnew : p.name ∉ Step.names (m.way v.node))
    (hkept : m.Kept ⟨j, c, v.context.bind p.name value, bundled⟩ ctx) :
    m.Kept v (ctx.truncate v.context.bindings.size) := by
  obtain ⟨extra, hkeys, _⟩ := h.keys
  have hfront : ctx.truncate (Step.names (m.way v.node)).length =
      v.context.truncate (Step.names (m.way v.node)).length := by
    have hfront := hkept.front
    rw [hway] at hfront
    rw [hfront, Context.truncate_bind hkeys hnew]
  constructor
  · rw [Context.truncate_truncate, Nat.min_eq_left h.length_names_le, hfront]
  · intro hv
    rw [← h.length_names_eq hv, hfront, h.length_names_eq hv, Context.truncate_size]

/-- A move leads to a visit that follows the chart too. When everything from there has failed,
undoing the move keeps what matters, and a move that gave no value has nothing to undo. -/
theorem Follows.moves (h : m.Follows v) (hturn : turn ∈ t.turns v)
    (hmove : t.Moves v turn given w) : m.Follows w ∧ ∀ ctx, m.Kept w ctx →
      if turn.binds then m.Kept v (ctx.truncate v.context.bindings.size) else ctx = v.context := by
  cases hmove with
  | literal hj =>
    obtain ⟨_, hchild, hw⟩ := h.literal hj
    exact ⟨hw, fun ctx hkept => hkept.eq hchild⟩
  | @argument child p value after _ hparse _ =>
    obtain ⟨hv, hchild, hnew, hw⟩ := h.argument (mem_argumentsOf_of_mem_turns hturn) value
    refine ⟨hw, ?_⟩
    -- An argument adds one name behind those already bound, and truncating takes exactly it away.
    intro ctx hkept
    apply Kept.of_eq
    rw [hkept.eq hchild, ← h.length_names_eq hv,
      Context.truncate_bind ((h.keys_eq hv).trans (List.append_nil _).symm) hnew,
      h.length_names_eq hv, Context.truncate_size]
  | @switch turn child p c hspells =>
    obtain ⟨hway, hnew, hw⟩ := h.flag hspells.mem_flagsOf (.truth true) false
    refine ⟨hw, ?_⟩
    intro ctx hkept
    rw [hspells.binds, if_pos rfl]
    exact hkept.undo_flag h hway hnew
  | @bundle turn child p c hspells =>
    obtain ⟨hway, hnew, hw⟩ := h.flag hspells.mem_flagsOf (.truth true) true
    refine ⟨hw, ?_⟩
    intro ctx hkept
    rw [hspells.binds, if_pos rfl]
    exact hkept.undo_flag h hway hnew
  | @value turn child p c d after attached value hspells =>
    obtain ⟨hway, hnew, hw⟩ := h.flag hspells.mem_flagsOf value false
    refine ⟨hw, ?_⟩
    intro ctx hkept
    rw [hspells.binds, if_pos rfl]
    exact hkept.undo_flag h hway hnew

end Chart

/-! ## The refinement -/

/-- A search that began with some rejections recorded went through some events. -/
structure Took (recorded : List Rejection) (s : Searched α σ) (events : List (Event α σ)) :
    Prop where
  ending : s.ending? = Event.firstEnding? events
  rejections : s.rejections = recorded ++ Event.rejectionsBefore events

/-- A search that has not begun took no events. -/
theorem Took.nil {s : Searched α σ} (h : s.outcome = none) : Took s.rejections s [] :=
  ⟨by simp [Searched.ending?, h, Event.firstEnding?], by simp [Event.rejectionsBefore]⟩

/-- Recording a rejection takes one event. -/
theorem Took.rejected {s : Searched α σ} (h : s.outcome = none) (c : Cursor) (ctx : Context α)
    (r : Rejection) : Took s.rejections
      { s with cursor := c, context := ctx, rejections := s.rejections ++ [r] } [.rejected r] :=
  ⟨by simp [Searched.ending?, h, Event.firstEnding?, Event.ending?],
    by simp [Event.rejectionsBefore]⟩

/-- A search that ends with a denial or a command went through that event and no rejection. -/
theorem Took.ended {recorded : List Rejection} {s : Searched α σ} {event : Event α σ}
    (h : s.ending? = event.ending?) (hsome : s.outcome.isSome = true)
    (hrecorded : s.rejections = recorded) : Took recorded s [event] := by
  cases event with
  | rejected r =>
    rw [Event.ending?, Searched.ending?, Option.map_eq_none_iff] at h
    rw [h] at hsome
    cases hsome
  | denied r | bound a =>
    exact ⟨by simp [h, Event.firstEnding?, Event.ending?],
      by simp [hrecorded, Event.rejectionsBefore]⟩

/-- A search that found a command went through the arrival there. -/
theorem Took.firstEnding?_eq_ok {recorded : List Rejection} {s : Searched α σ}
    {events : List (Event α σ)} {c : Command α σ} (h : Took recorded s events)
    (hout : s.outcome = some (.ok c)) :
    Event.firstEnding? events = some (.ok ⟨c, s.cursor, s.context⟩) := by
  rw [← h.ending, Searched.ending?, hout]
  rfl

/-- A search has ended where it has an outcome. -/
theorem isSome_ending? (s : Searched α σ) : s.ending?.isSome = s.outcome.isSome := by
  simp [Searched.ending?]

/-- A search that has not ended goes on with the next events. -/
theorem Took.append {recorded : List Rejection} {s s' : Searched α σ}
    {first later : List (Event α σ)} (h : Took recorded s first) (hgo : s.outcome = none)
    (h' : Took s.rejections s' later) : Took recorded s' (first ++ later) := by
  have hnone : Event.firstEnding? first = none := by
    rw [← h.ending, ← Option.isNone_iff_eq_none, ← Option.not_isSome, isSome_ending?, hgo]
    rfl
  constructor
  · rw [Event.firstEnding?_append, hnone, h'.ending, Option.none_or]
  · rw [Event.rejectionsBefore_append, hnone, h'.rejections, h.rejections, List.append_assoc]
    rfl

/-- A search that has ended leaves the next events out. -/
theorem Took.stop {recorded : List Rejection} {s : Searched α σ} {first : List (Event α σ)}
    (h : Took recorded s first) (hend : s.outcome.isSome = true) (later : List (Event α σ)) :
    Took recorded s (first ++ later) := by
  have hsome : (Event.firstEnding? first).isSome = true := by
    rw [← h.ending, isSome_ending?, hend]
  constructor
  · rw [Event.firstEnding?_append, h.ending, Option.or_of_isSome hsome]
  · rw [Event.rejectionsBefore_append, hsome, if_pos rfl, List.append_nil, h.rejections]

/-- The events of one turn. -/
def turnEvents (t : Tree α σ) (v : Visit α) (turn : Turn α) : List (Event α σ) :=
  match t.attempt v.node v.cursor v.context turn with
  | none => []
  | some b => t.branchEvents v b

/-- The events of a visit are those of its turns, in order. -/
theorem events_eq_flatMap_turns (t : Tree α σ) (v : Visit α) :
    t.events v = (t.turns v).flatMap (t.turnEvents v) := by
  rw [events_eq, branches]
  induction t.turns v with
  | nil => rfl
  | cons turn turns ih =>
    rw [List.filterMap_cons, List.flatMap_cons, ← ih]
    unfold turnEvents
    cases t.attempt v.node v.cursor v.context turn <;> simp

/-- The complaint that no child accepted a word does not look at the values. -/
theorem takeTurn_mismatch (t : Tree α σ) (v : Visit α) {s : Searched α σ} (hs : s.outcome = none) :
    Took s.rejections (t.takeTurn v s .mismatch) (t.turnEvents v .mismatch) ∧
      (t.takeTurn v s .mismatch).outcome = none ∧
      (t.takeTurn v s .mismatch).context = s.context := by
  have hattempt (ctx : Context α) : t.attempt v.node v.cursor ctx .mismatch =
      (t.mismatch? v.node v.cursor.word).map fun cause =>
        .rejected ⟨cause, v.cursor.position, some (t.node v.node).name⟩ := rfl
  unfold takeTurn turnEvents
  rw [hattempt, hattempt]
  cases t.mismatch? v.node v.cursor.word with
  | none => exact ⟨.nil (s := { s with cursor := v.cursor }) hs, hs, rfl⟩
  | some cause => exact ⟨.rejected hs v.cursor s.context _, hs, rfl⟩

variable {m : Chart Command.Built t}

/-- A turn that finds the values of its visit goes through the events of the turn, if the searches
that it leads to do. -/
theorem takeTurn_took (hv : m.Follows v) (hturn : turn ∈ t.turns v) {s : Searched α σ}
    (hs : s.outcome = none) (hctx : s.context = v.context)
    (ih : ∀ w : Visit α, w.left < v.left → m.Follows w → ∀ recorded,
      Took recorded (t.search w recorded) (t.events w) ∧
        ((t.search w recorded).outcome = none → m.Kept w (t.search w recorded).context)) :
    Took s.rejections (t.takeTurn v s turn) (t.turnEvents v turn) ∧
      ((t.takeTurn v s turn).outcome = none → m.Kept v (t.takeTurn v s turn).context ∧
        (turn.binds = false → (t.takeTurn v s turn).context = v.context)) := by
  unfold takeTurn turnEvents
  rw [hctx]
  cases hattempt : t.attempt v.node v.cursor v.context turn with
  | none =>
    exact ⟨.nil (s := { s with cursor := v.cursor, context := v.context }) hs,
      fun _ => ⟨.refl m v, fun _ => rfl⟩⟩
  | some b =>
    cases b with
    | rejected r =>
      exact ⟨.rejected hs v.cursor v.context r, fun _ => ⟨.refl m v, fun _ => rfl⟩⟩
    | denied r =>
      let stopped : Searched α σ :=
        { s with cursor := v.cursor, context := v.context, outcome := some (.error r) }
      have hended : Took s.rejections stopped [.denied r] := .ended rfl rfl rfl
      refine ⟨hended, ?_⟩
      intro h
      cases h
    | bound c =>
      let stopped : Searched α σ :=
        { s with cursor := v.cursor, context := v.context, outcome := some (.ok c) }
      have hended : Took s.rejections stopped [.bound ⟨c, v.cursor, v.context⟩] :=
        .ended rfl rfl rfl
      refine ⟨hended, ?_⟩
      intro h
      cases h
    | enter w =>
      -- Only a turn that leads on can fail with values left over, and these are what is undone.
      obtain ⟨given, hmove⟩ := attempt_eq_enter_iff.mp hattempt
      obtain ⟨hw, hundo⟩ := hv.moves hturn hmove
      obtain ⟨htook, hkept⟩ := ih w (left_lt_of_attempt hturn hattempt) hw s.rejections
      simp only [branchEvents]
      -- An outcome is final: what was bound on the way to it stays.
      cases hout : (t.search w s.rejections).outcome with
      | some o =>
        have hstay : (if turn.binds then (t.search w s.rejections).undo v.context.bindings.size
            else t.search w s.rejections) = t.search w s.rejections := by
          simp [Searched.undo, hout]
        rw [hstay]
        refine ⟨htook, ?_⟩
        intro h
        rw [hout] at h
        cases h
      | none =>
        have hback := hundo _ (hkept hout)
        cases hbinds : turn.binds with
        | true =>
          rw [hbinds, if_pos rfl] at hback
          refine ⟨⟨?_, ?_⟩, fun _ => ⟨?_, fun h => by cases h⟩⟩
          · simpa [Searched.undo, hout, Searched.ending?] using htook.ending
          · simpa [Searched.undo, hout] using htook.rejections
          · simpa [Searched.undo, hout] using hback
        | false =>
          rw [hbinds, if_neg (by simp)] at hback
          exact ⟨htook, fun _ => ⟨.of_eq hback, fun _ => hback⟩⟩

/-- Turns that are left out leave a search as it is. -/
theorem foldl_takeTurn_of_isSome {s : Searched α σ} (h : s.outcome.isSome = true)
    (turns : List (Turn α)) :
    turns.foldl (fun s turn => s.andThen (t.takeTurn v · turn)) s = s := by
  induction turns with
  | nil => rfl
  | cons turn turns ih => rw [List.foldl_cons, Searched.andThen, if_pos h, ih]

/-- Turns go through their events one after the other. Every turn finds the values of the visit,
unless only the last complaint is left: what a flag's turn leaves at a flag node is not read. -/
theorem foldl_takeTurn_took (hv : m.Follows v) {turns : List (Turn α)} {s : Searched α σ}
    (hturns : ∀ turn ∈ turns, turn ∈ t.turns v)
    (hlast : ¬t.FlagNode v.node ∨ turns.Pairwise fun a b => a.binds = true → b = .mismatch)
    (hs : s.outcome = none) (hkept : m.Kept v s.context)
    (hctx : s.context = v.context ∨ ∀ turn ∈ turns, turn = .mismatch)
    (ih : ∀ w : Visit α, w.left < v.left → m.Follows w → ∀ recorded,
      Took recorded (t.search w recorded) (t.events w) ∧
        ((t.search w recorded).outcome = none → m.Kept w (t.search w recorded).context)) :
    Took s.rejections (turns.foldl (fun s turn => s.andThen (t.takeTurn v · turn)) s)
        (turns.flatMap (t.turnEvents v)) ∧
      ((turns.foldl (fun s turn => s.andThen (t.takeTurn v · turn)) s).outcome = none →
        m.Kept v (turns.foldl (fun s turn => s.andThen (t.takeTurn v · turn)) s).context) := by
  induction turns generalizing s with
  | nil => exact ⟨.nil hs, fun _ => hkept⟩
  | cons turn turns ihturns =>
    have hgo : s.andThen (t.takeTurn v · turn) = t.takeTurn v s turn := by
      simp [Searched.andThen, hs]
    rw [List.foldl_cons, hgo, List.flatMap_cons]
    have hlast' : ¬t.FlagNode v.node ∨ turns.Pairwise fun a b => a.binds = true → b = .mismatch :=
      hlast.imp id fun h => (List.pairwise_cons.mp h).2
    have hturns' (x : Turn α) (hx : x ∈ turns) : x ∈ t.turns v :=
      hturns x (List.mem_cons_of_mem turn hx)
    -- What the turn leaves, and why the next turn may go on from there.
    have hstep : Took s.rejections (t.takeTurn v s turn) (t.turnEvents v turn) ∧
        ((t.takeTurn v s turn).outcome = none → m.Kept v (t.takeTurn v s turn).context ∧
          ((t.takeTurn v s turn).context = v.context ∨ ∀ x ∈ turns, x = .mismatch)) := by
      rcases hctx with hctx | hctx
      · obtain ⟨htook, hleft⟩ := takeTurn_took hv (hturns turn List.mem_cons_self) hs hctx ih
        refine ⟨htook, ?_⟩
        intro hout
        refine ⟨(hleft hout).1, ?_⟩
        cases hbinds : turn.binds with
        | false => exact .inl ((hleft hout).2 hbinds)
        | true =>
          rcases hlast with hflag | hlast
          · exact .inl ((hleft hout).1.eq hflag)
          · right
            intro x hx
            exact (List.pairwise_cons.mp hlast).1 x hx hbinds
      · obtain rfl := hctx turn List.mem_cons_self
        obtain ⟨htook, _, hsame⟩ := takeTurn_mismatch t v hs
        have hrest (x : Turn α) (hx : x ∈ turns) : x = .mismatch :=
          hctx x (List.mem_cons_of_mem _ hx)
        exact ⟨htook, fun _ => ⟨hsame ▸ hkept, .inr hrest⟩⟩
    obtain ⟨htook, hleft⟩ := hstep
    cases hout : (t.takeTurn v s turn).outcome with
    | some o =>
      have hend : (t.takeTurn v s turn).outcome.isSome = true := by rw [hout]; rfl
      rw [foldl_takeTurn_of_isSome hend]
      refine ⟨htook.stop hend _, ?_⟩
      intro h
      rw [hout] at h
      cases h
    | none =>
      obtain ⟨hkept', hctx'⟩ := hleft hout
      obtain ⟨hrest, hrest'⟩ := ihturns hturns' hlast' hout hkept' hctx'
      exact ⟨htook.append hout hrest, hrest'⟩

/-- At a flag node nothing but the last complaint follows a turn that gives a value. -/
theorem pairwise_turns (hv : m.Follows v) :
    ¬t.FlagNode v.node ∨ (t.turns v).Pairwise fun a b => a.binds = true → b = .mismatch := by
  by_cases hflag : t.FlagNode v.node
  swap
  · exact .inl hflag
  right
  have harguments : t.argumentsOf v.node = [] := by
    rw [argumentsOf, (m.childless_of_flagNode hv.lt hflag).2]
    rfl
  unfold turns
  rw [harguments]
  split
  · simp
  · split <;> simp [Turn.binds]

/-- A search goes through the events of its visit, and if none ends it, keeps the values that
matter. -/
theorem search_took (m : Chart Command.Built t) (hv : m.Follows v)
    (recorded : List Rejection) :
    Took recorded (t.search v recorded) (t.events v) ∧
      ((t.search v recorded).outcome = none → m.Kept v (t.search v recorded).context) := by
  induction hn : v.left using Nat.strongRecOn generalizing v recorded with
  | ind n ih =>
    rw [search_eq, events_eq_flatMap_turns]
    exact foldl_takeTurn_took
      (s := { cursor := v.cursor, context := v.context, rejections := recorded }) hv
      (fun _ h => h) (pairwise_turns hv) rfl (.refl m v) (.inl rfl)
      fun w hw hfollows recorded' => ih w.left (hn ▸ hw) hfollows recorded' rfl

/-- A turn that leads on goes forward, whatever has been found so far. -/
theorem reached_of_attempt {ctx : Context α}
    (h : t.attempt v.node v.cursor ctx turn = some (.enter w)) : v.cursor.Reaches w.cursor := by
  have h' : t.attempt { v with context := ctx }.node { v with context := ctx }.cursor
      { v with context := ctx }.context turn = some (.enter w) := h
  obtain ⟨_, hmove⟩ := attempt_eq_enter_iff.mp h'
  exact hmove.reached

/-- A search leaves its cursor on the line, not before its visit. -/
theorem search_reached (t : Tree α σ) (v : Visit α) (recorded : List Rejection) :
    v.cursor.Reaches (t.search v recorded).cursor := by
  induction hn : v.left using Nat.strongRecOn generalizing v recorded with
  | ind n ih =>
    -- A turn may reset the cursor, but only to where it stood when the turn was taken.
    have hturn {turn : Turn α} (hmem : turn ∈ t.turns v) (s : Searched α σ) :
        v.cursor.Reaches (t.takeTurn v s turn).cursor := by
      unfold takeTurn
      cases hattempt : t.attempt v.node v.cursor s.context turn with
      | none => exact .refl _
      | some b =>
        cases b with
        | rejected r | denied r | bound c => exact .refl _
        | enter w =>
          have hlt := left_lt_of_attempt hmem hattempt
          have hreached := (reached_of_attempt hattempt).trans
            (ih w.left (hn ▸ hlt) w s.rejections rfl)
          simp only [Searched.undo]
          split
          · split <;> exact hreached
          · exact hreached
    have hfold (turns : List (Turn α)) (hturns : ∀ turn ∈ turns, turn ∈ t.turns v)
        {s : Searched α σ} (hs : v.cursor.Reaches s.cursor) : v.cursor.Reaches
          (turns.foldl (fun s turn => s.andThen (t.takeTurn v · turn)) s).cursor := by
      induction turns generalizing s with
      | nil => exact hs
      | cons turn turns ihturns =>
        refine ihturns (fun x hx => hturns x (List.mem_cons_of_mem turn hx)) ?_
        simp only [Searched.andThen]
        split
        · exact hs
        · exact hturn (hturns turn List.mem_cons_self) s
    rw [search_eq]
    exact hfold _ (fun _ h => h) (.refl _)

/-- An ending that is a command is an accepted reading. -/
theorem exists_accepts_of_firstEnding? {a : Arrival α σ}
    (h : Event.firstEnding? (t.events v) = some (.ok a)) : ∃ given, t.Accepts v given a := by
  obtain ⟨event, hevent, hending⟩ := List.exists_of_findSome?_eq_some h
  cases event with
  | rejected r | denied r => cases hending
  | bound a' =>
    obtain rfl := Except.ok.inj (Option.some.inj hending)
    exact bound_mem_events_iff.mp hevent

/-- With no denial before an arrival the first ending is an arrival. -/
theorem exists_firstEnding? {first later : List (Event α σ)} {a : Arrival α σ}
    (hfirst : ∀ r, .denied r ∉ first) :
    ∃ a', Event.firstEnding? (first ++ .bound a :: later) = some (.ok a') := by
  induction first with
  | nil => exact ⟨a, rfl⟩
  | cons event first ih =>
    cases event with
    | rejected r => exact ih fun r' hr' => hfirst r' (List.mem_cons_of_mem _ hr')
    | denied r => exact (hfirst r List.mem_cons_self).elim
    | bound a' => exact ⟨a', rfl⟩

/-- On a tree with a chart the search over a line agrees with the enumeration of its readings. -/
theorem Chart.took (m : Chart Command.Built t) (principal : α) (line : String) :
    Took [] (t.search (start principal line)) (t.events (start principal line)) :=
  (Tree.search_took m (.of_start m principal line) []).1

/-- The command that a search finds is that of an accepted reading, with the cursor and the values
of that reading. -/
theorem Chart.exists_reading (m : Chart Command.Built t) {principal : α} {line : String}
    {c : Command α σ}
    (hout : (t.search (start principal line)).outcome = some (.ok c)) :
    ∃ given, t.Accepts (start principal line) given ⟨c, (t.search (start principal line)).cursor,
      (t.search (start principal line)).context⟩ :=
  exists_accepts_of_firstEnding? ((m.took principal line).firstEnding?_eq_ok hout)

/-- A reading is accepted at a command that is in the tree. -/
theorem Chart.known_of_accepts {known : Command α σ → Prop} (m : Chart known t)
    {given : List (Given α)} {a : Arrival α σ} (h : t.Accepts v given a) : known a.command := by
  obtain ⟨_, _, _, _, hcommand, _⟩ := h.accepted
  exact m.known_of_command hcommand

/-- Every search on a grown tree takes the events of its visit. -/
theorem Grown.search_took (h : t.Grown) (principal : α) (line : String) :
    Took [] (t.search (start principal line)) (t.events (start principal line)) := by
  obtain ⟨m⟩ := h.chart
  exact m.took principal line

/-- So a command that is found was accepted with some values. -/
theorem Grown.exists_accepts (h : t.Grown) {principal : α} {line : String} {c : Command α σ}
    (hout : (t.search (start principal line)).outcome = some (.ok c)) :
    ∃ given, t.Accepts (start principal line) given ⟨c, (t.search (start principal line)).cursor,
      (t.search (start principal line)).context⟩ := by
  obtain ⟨m⟩ := h.chart
  exact m.exists_reading hout

/-- **The search refines the enumeration of all readings.** On every grown tree, for every principal
and every line:

* the search ends as the first event that can end it, with the cursor and the values of that event's
  own branch, and it has recorded the rejections before that event;
* the arrivals among the events are exactly the accepted readings;
* so a command is found whenever a reading is accepted and no denial comes before it;
* what is found has the values given on an accepted reading, in order, and no others, and each of
  them is what the line says;
* going back by position, as the search does between branches, restores the cursor of a visit. -/
theorem search_refines_events (h : t.Grown) (principal : α) (line : String) :
    (t.search (start principal line)).ending? =
        Event.firstEnding? (t.events (start principal line)) ∧
      (t.search (start principal line)).rejections =
        Event.rejectionsBefore (t.events (start principal line)) ∧
      (∀ a, .bound a ∈ t.events (start principal line) ↔
        ∃ given, t.Accepts (start principal line) given a) ∧
      (∀ before a after, t.events (start principal line) = before ++ .bound a :: after →
        (∀ r, .denied r ∉ before) →
        ∃ a', (t.search (start principal line)).ending? = some (.ok a')) ∧
      (∀ a, (t.search (start principal line)).ending? = some (.ok a) →
        ∃ given, t.Accepts (start principal line) given a ∧
          a.context = (Context.ofLine principal line).given given ∧ ∀ g ∈ given, g.Read) ∧
      ∀ v recorded, (t.search v recorded).cursor.seek v.cursor.position = v.cursor := by
  obtain ⟨hending, hrejections⟩ := h.search_took principal line
  refine ⟨hending, hrejections, fun a => bound_mem_events_iff, ?_, ?_,
    fun v recorded => (search_reached t v recorded).seek_position⟩
  · intro before a after hevents hbefore
    rw [hending, hevents]
    exact exists_firstEnding? hbefore
  · intro a ha
    obtain ⟨given, haccepts⟩ := exists_accepts_of_firstEnding? (hending.symm.trans ha)
    exact ⟨given, haccepts, haccepts.context_eq, haccepts.read⟩

/-- A tree in which a word after `a` may be a count or a name. -/
def countOrName : Tree Unit Unit :=
  (Growth.register ((Declaration.ofName "a").argument name |>.literal "y")).after
    ((Growth.register ((Declaration.ofName "a").argument count |>.literal "x")).after (empty {}))
where
  count : Parameter Unit := .ofBuiltin "count" (.integer none none)
  name : Parameter Unit := .ofBuiltin "name" (.word none none)

/-- The branch of the count reads `5` and then fails; what is found has the name alone. -/
theorem search_refines_events_countOrName :
    countOrName.Grown ∧ ∃ given a,
      (countOrName.search (start () "a 5 y")).ending? = some (.ok a) ∧
        countOrName.Accepts (start () "a 5 y") given a ∧ a.context.bindings.keys = ["name"] := by
  have hgrown : countOrName.Grown := by
    unfold countOrName
    exact .register _ (.register _ (.empty {} (by decide)))
  have hfound : ∃ e ∈ (countOrName.search (start () "a 5 y")).ending?,
      ∃ a, e = .ok a ∧ a.context.bindings.keys = ["name"] := by decide +kernel
  obtain ⟨_, hending, a, rfl, hkeys⟩ := hfound
  obtain ⟨_, _, _, _, hvalues, _⟩ := search_refines_events hgrown () "a 5 y"
  obtain ⟨given, haccepts, _⟩ := hvalues a hending
  exact ⟨hgrown, given, a, hending, haccepts, hkeys⟩

end Tree

end CommandLine
