import CommandLine.Proofs.Search.Readings

/-!
# The enumeration of all readings

The events of a visit are what comes of following every branch from it, depth first and in order:
rejections, denials and arrivals. Nothing is shared between branches and nothing ends the
enumeration early, so every branch starts from the cursor and the values of its own visit.

* `bound_mem_events_iff` — the arrivals among the events are exactly the accepted readings;
* `denied_notMem_events` — when nothing is denied.
-/

set_option autoImplicit false

namespace CommandLine

variable {α σ : Type}

/-- What following a branch comes to. -/
inductive Event (α σ : Type) where
  | rejected (r : Rejection)
  | denied (r : Rejection)
  | bound (a : Arrival α σ)

namespace Event

/-- How an event ends a search. A rejection does not. -/
def ending? : Event α σ → Option (Except Rejection (Arrival α σ))
  | rejected _ => none
  | denied r => some (.error r)
  | bound a => some (.ok a)

/-- The first event that ends a search. -/
def firstEnding? (events : List (Event α σ)) : Option (Except Rejection (Arrival α σ)) :=
  events.findSome? ending?

/-- The rejections up to the first event that ends a search. -/
def rejectionsBefore : List (Event α σ) → List Rejection
  | rejected r :: events => r :: rejectionsBefore events
  | _ => []

/-- Later events count only if no earlier one ends the search. -/
theorem firstEnding?_append (first later : List (Event α σ)) :
    firstEnding? (first ++ later) = (firstEnding? first).or (firstEnding? later) :=
  List.findSome?_append

theorem rejectionsBefore_append (first later : List (Event α σ)) :
    rejectionsBefore (first ++ later) =
      rejectionsBefore first ++
        if (firstEnding? first).isSome then [] else rejectionsBefore later := by
  induction first with
  | nil => rfl
  | cons event first ih =>
    cases event with
    | rejected r => simpa [rejectionsBefore, firstEnding?, ending?] using ih
    | denied r => simp [rejectionsBefore, firstEnding?, ending?]
    | bound a => simp [rejectionsBefore, firstEnding?, ending?]

end Event

namespace Tree

/-- The events of a visit. -/
def events (t : Tree α σ) (v : Visit α) : List (Event α σ) :=
  (t.branches v).attach.flatMap fun b =>
    match _ : b.1 with
    | .rejected r => [.rejected r]
    | .denied r => [.denied r]
    | .bound c => [.bound ⟨c, v.cursor, v.context⟩]
    | .enter w => t.events w
termination_by v.left
decreasing_by exact left_lt_of_mem_branches (‹_ = Branch.enter w› ▸ b.2)

/-- The events of one branch from a visit. -/
def branchEvents (t : Tree α σ) (v : Visit α) : Branch α σ → List (Event α σ)
  | .rejected r => [.rejected r]
  | .denied r => [.denied r]
  | .bound c => [.bound ⟨c, v.cursor, v.context⟩]
  | .enter w => t.events w

/-- The events of a visit are those of its branches, in order. -/
theorem events_eq (t : Tree α σ) (v : Visit α) :
    t.events v = (t.branches v).flatMap (t.branchEvents v) := by
  have hattach : (t.branches v).flatMap (t.branchEvents v) =
      (t.branches v).attach.flatMap fun b => t.branchEvents v b.1 := by
    rw [← List.flatMap_map Subtype.val, List.attach_map_subtype_val]
  rw [events, hattach]
  congr 1
  funext b
  split <;> rename_i h <;> simp only [h, branchEvents]

variable {t : Tree α σ} {v w : Visit α} {turn : Turn α} {id child : NodeIndex} {p : Parameter α}
  {c : Cursor} {ctx : Context α} {attached : Bool} {command : Command α σ}

/-! ## Arrivals and readings -/

/-- A branch that does not end a search: it leads on or is rejected. -/
def Continues : Branch α σ → Prop
  | .rejected _ | .enter _ => True
  | .denied _ | .bound _ => False

/-- A branch that does not end a search, or the denial at a node that is closed to the principal. -/
def ContinuesUnlessDenied (t : Tree α σ) (ctx : Context α) (b : Branch α σ) : Prop :=
  Continues b ∨ ∃ child r, b = .denied r ∧ (t.node child).permission.allows ctx.principal = false

/-- Entering a node ends no search. -/
theorem continues_enter : Continues (t.enter child c ctx) := by
  unfold enter
  split <;> trivial

theorem continues_enterValue : Continues (t.enterValue child p c ctx) := by
  unfold enterValue
  split
  · exact continues_enter
  · trivial

/-- What follows the name of a flag ends none either. -/
theorem continues_afterFlag : Continues (t.afterFlag child p c ctx attached) := by
  have hvalue (d : Cursor) : Continues (t.flagValue child p d ctx) := by
    unfold flagValue
    split
    · trivial
    · exact continues_enterValue
  unfold afterFlag
  split
  · trivial
  · exact continues_enter
  · exact hvalue _
  · exact hvalue _

/-- Only a node that does not let the principal in ends it. -/
theorem continuesUnlessDenied_permitted {position : Nat} {b : Branch α σ} (hb : Continues b) :
    t.ContinuesUnlessDenied ctx (t.permitted ctx child position b) := by
  unfold permitted
  split
  · exact .inl hb
  · rename_i hallows
    exact .inr ⟨child, _, rfl, by simpa using hallows⟩

/-- Behind a shorthand only this can end it. -/
theorem continuesUnlessDenied_of_shorthandBranch? {b : Branch α σ}
    (h : t.shorthandBranch? id c ctx = some b) : t.ContinuesUnlessDenied ctx b := by
  unfold shorthandBranch? at h
  split at h
  · cases h
  · split at h
    · obtain rfl := Option.some.inj h
      exact .inl trivial
    · obtain rfl := Option.some.inj h
      exact continuesUnlessDenied_permitted continues_afterFlag

theorem continuesUnlessDenied_of_flagBranch? {b : Branch α σ}
    (h : t.flagBranch? id c ctx = some b) : t.ContinuesUnlessDenied ctx b := by
  unfold flagBranch? at h
  split at h
  · cases h
  · split at h
    · cases h
    · split at h
      · obtain rfl := Option.some.inj h
        exact .inl trivial
      · obtain rfl := Option.some.inj h
        exact continuesUnlessDenied_permitted continues_afterFlag
    · exact continuesUnlessDenied_of_shorthandBranch? h

/-- Only the end of the line and denials end a search. -/
theorem attempt_cases {b : Branch α σ} (h : t.attempt id c ctx turn = some b) :
    t.ContinuesUnlessDenied ctx b ∨ turn = .finish ∧ b = t.endBranch id c ctx := by
  cases turn with
  | shorthand => exact .inl (continuesUnlessDenied_of_shorthandBranch? h)
  | finish => exact .inr ⟨rfl, (Option.some.inj h).symm⟩
  | literal =>
    obtain ⟨_, _, rfl⟩ := Option.map_eq_some_iff.mp h
    exact .inl (continuesUnlessDenied_permitted continues_enter)
  | flag => exact .inl (continuesUnlessDenied_of_flagBranch? h)
  | argument child p =>
    obtain rfl := Option.some.inj h
    exact .inl (continuesUnlessDenied_permitted continues_enterValue)
  | mismatch =>
    obtain ⟨_, _, rfl⟩ := Option.map_eq_some_iff.mp h
    exact .inl (.inl trivial)

/-- A command is found only at the end of the line. -/
theorem attempt_eq_bound_iff :
    t.attempt id c ctx turn = some (.bound command) ↔
      turn = .finish ∧ (t.node id).command = some command ∧
        command.permission.allows ctx.principal = true := by
  constructor
  · intro h
    rcases attempt_cases h with (hcontinues | ⟨_, _, hdenied, _⟩) | ⟨rfl, hend⟩
    · exact hcontinues.elim
    · cases hdenied
    · refine ⟨rfl, ?_⟩
      unfold endBranch at hend
      split at hend
      · rename_i found hfound
        split at hend
        · rename_i hallows
          obtain rfl := Branch.bound.inj hend
          exact ⟨hfound, hallows⟩
        · cases hend
      · cases hend
  · rintro ⟨rfl, hcommand, hallows⟩
    simp [attempt, endBranch, hcommand, hallows]

/-- Only the end of the line outside a bundle is a turn of its own. -/
theorem finish_mem_turns_iff :
    .finish ∈ t.turns v ↔ v.bundled = false ∧ v.cursor.atEnd = true := by
  unfold turns
  cases v.bundled <;> cases v.cursor.atEnd <;> simp

/-- A reading that goes on from a branch goes on from the visit. -/
theorem Accepts.step {given : Option (Given α)} {later : List (Given α)} {a : Arrival α σ}
    (hturn : turn ∈ t.turns v) (hmove : t.Moves v turn given w) (h : t.Accepts w later a) :
    t.Accepts v (given.toList ++ later) a where
  accepted := h.accepted.imp fun _ hu => ⟨.step hturn hmove hu.1, hu.2⟩
  allowed := h.allowed

/-- The arrivals among the events of a visit are where readings from it are accepted. -/
theorem bound_mem_events_iff {a : Arrival α σ} :
    .bound a ∈ t.events v ↔ ∃ given, t.Accepts v given a := by
  constructor
  · intro h
    -- Events are found by going on from visits with less of the line left, so the induction is on
    -- that.
    induction hn : v.left using Nat.strongRecOn generalizing v with
    | ind n ih =>
      rw [events_eq] at h
      obtain ⟨b, hb, hevent⟩ := List.mem_flatMap.mp h
      obtain ⟨turn, hturn, hattempt⟩ := List.mem_filterMap.mp hb
      cases b with
      | rejected r | denied r => simp [branchEvents] at hevent
      | bound command =>
        obtain ⟨rfl, hcommand, hallows⟩ := attempt_eq_bound_iff.mp hattempt
        obtain rfl := Event.bound.inj (List.mem_singleton.mp hevent)
        obtain ⟨hbundled, hend⟩ := finish_mem_turns_iff.mp hturn
        exact ⟨[], ⟨v, .refl v, hbundled, hend, hcommand, rfl⟩, hallows⟩
      | enter w =>
        obtain ⟨given, hmove⟩ := attempt_eq_enter_iff.mp hattempt
        obtain ⟨later, haccepts⟩ :=
          ih w.left (hn ▸ left_lt_of_attempt hturn hattempt) hevent rfl
        exact ⟨_, haccepts.step hturn hmove⟩
  · rintro ⟨given, ⟨u, hreads, hbundled, hend, hcommand, ha⟩, hallows⟩
    -- In the other direction the moves of the reading are followed one by one.
    induction hreads with
    | refl v =>
      rw [events_eq]
      have hallows' : a.command.permission.allows v.context.principal = true := by
        rw [ha] at hallows
        exact hallows
      have hbranch : .bound a.command ∈ t.branches v :=
        List.mem_filterMap.mpr ⟨.finish, finish_mem_turns_iff.mpr ⟨hbundled, hend⟩,
          attempt_eq_bound_iff.mpr ⟨rfl, hcommand, hallows'⟩⟩
      apply List.mem_flatMap.mpr ⟨.bound a.command, hbranch, ?_⟩
      exact List.mem_singleton.mpr (congrArg Event.bound ha)
    | @step v w u turn given later hturn hmove _ ih =>
      rw [events_eq]
      have hbranch : .enter w ∈ t.branches v :=
        List.mem_filterMap.mpr ⟨turn, hturn, attempt_eq_enter_iff.mpr ⟨given, hmove⟩⟩
      exact List.mem_flatMap.mpr ⟨.enter w, hbranch, ih hbundled hend hcommand ha⟩

/-- Where every node and every command is open, nothing is denied. -/
theorem denied_notMem_events
    (hnode : ∀ i principal, (t.node i).permission.allows principal = true)
    (hcommand : ∀ i c, (t.node i).command = some c →
      ∀ principal, c.permission.allows principal = true)
    (v : Visit α) (r : Rejection) : .denied r ∉ t.events v := by
  induction hn : v.left using Nat.strongRecOn generalizing v with
  | ind n ih =>
    rw [events_eq]
    intro h
    obtain ⟨b, hb, hevent⟩ := List.mem_flatMap.mp h
    obtain ⟨turn, hturn, hattempt⟩ := List.mem_filterMap.mp hb
    cases b with
    | rejected r | bound c => simp [branchEvents] at hevent
    | enter w => exact ih w.left (hn ▸ left_lt_of_attempt hturn hattempt) w rfl hevent
    -- A denial comes from a closed child or from a closed command at the end.
    | denied r' =>
      rcases attempt_cases hattempt with (hcontinues | ⟨child, _, _, hclosed⟩) | ⟨_, hend⟩
      · exact hcontinues.elim
      · rw [hnode child] at hclosed
        cases hclosed
      · unfold endBranch at hend
        split at hend
        · rename_i c hc
          rw [if_pos (hcommand v.node c hc _)] at hend
          cases hend
        · cases hend

end Tree

end CommandLine
