import CommandLine.Proofs.OwnFlags
import CommandLine.Proofs.ReportedRejections
import CommandLine.Proofs.Search.Calls

/-!
# Progress

A search can be carried out by calls: each call goes through the turns of its visit and makes a call
for each child that a turn finds. Nothing in the shape of a tree bounds how deep the calls nest, for
flag nodes link back to each other. What bounds it is the line: a call begins further on than the
one it is nested in, so there are no more calls within each other than characters to begin at, and
one for the end of the line.

* `searchWithin` — the search as a procedure that may nest its calls only so deep, with a record of
  the calls that it made;
* `searchWithin_eq` — with a depth greater than what is left of the line it does what the search
  does;
* `nested_calls_advance` — so one call more than characters is deep enough for every line.
-/

set_option autoImplicit false

namespace CommandLine

variable {α σ : Type}

/-- A call and the calls nested in it in the order in which they were made, each with the position
at which it began. -/
inductive CallTree where
  | call (start : Nat) (nested : List CallTree)

namespace CallTree

/-- Where the outermost call began. -/
def start : CallTree → Nat
  | call start _ => start

mutual

/-- How many calls there are at most within each other, the outermost one included. -/
def depth : CallTree → Nat
  | call _ nested => depths nested + 1

/-- The greatest depth of some calls. -/
def depths : List CallTree → Nat
  | [] => 0
  | made :: later => max made.depth (depths later)

end

/-- Every call began at a greater position than the one in which it is nested. -/
inductive Advances : CallTree → Prop
  | call {start : Nat} {nested : List CallTree} : (∀ made ∈ nested, start < made.start) →
      (∀ made ∈ nested, Advances made) → Advances (.call start nested)

/-- A call that may be nested in one that began at a position, with at most some depth. -/
structure Nests (start depth : Nat) (made : CallTree) : Prop where
  lt : start < made.start
  advances : made.Advances
  depth_le : made.depth ≤ depth

theorem depths_le {nested : List CallTree} {n : Nat} (h : ∀ made ∈ nested, made.depth ≤ n) :
    depths nested ≤ n := by
  induction nested with
  | nil => exact Nat.zero_le n
  | cons made later ih =>
    have hlater := ih fun other hother => h other (List.mem_cons_of_mem _ hother)
    rw [depths]
    exact Nat.max_le.mpr ⟨h made List.mem_cons_self, hlater⟩

/-- A call is as deep as what is nested in it, and one deeper. -/
theorem advances_and_depth_le {start n : Nat} {nested : List CallTree}
    (h : ∀ made ∈ nested, made.Nests start n) :
    (call start nested).Advances ∧ (call start nested).depth ≤ n + 1 := by
  refine ⟨.call (fun made hmade => (h made hmade).lt) fun made hmade => (h made hmade).advances, ?_⟩
  simpa [depth] using depths_le fun made hmade => (h made hmade).depth_le

end CallTree

namespace Tree

/-! ## The search with calls -/

/-- What a call answers, with the calls that were made: what it searched, or why it did not come to
its visit. There is no answer where calls would nest too deep. -/
abbrev Answer (α σ : Type) := Option (Except Rejection (Searched α σ) × CallTree)

/-- What a turn makes of a search and of the calls made so far. What a call answers is used as the
search uses what it finds from a visit. -/
def turnWithin (t : Tree α σ) (nested : Call α → List Rejection → Answer α σ) (v : Visit α)
    (state : Searched α σ × List CallTree) (turn : Turn α) :
    Option (Searched α σ × List CallTree) :=
  let (s, calls) := state
  if s.outcome.isSome then some state
  else match t.call? v.node v.cursor s.context turn with
    | some call =>
      match nested call s.rejections with
      | none => none
      | some (.error r, made) =>
        some ({ s with cursor := v.cursor, rejections := s.rejections ++ [r] }, calls ++ [made])
      | some (.ok found, made) =>
        some (if turn.binds then found.undo s.context.bindings.size else found, calls ++ [made])
    | none =>
      match t.attempt v.node v.cursor s.context turn with
      | none => some ({ s with cursor := v.cursor }, calls)
      | some (.rejected r) =>
        some ({ s with cursor := v.cursor, rejections := s.rejections ++ [r] }, calls)
      | some (.denied r) => some ({ s with cursor := v.cursor, outcome := some (.error r) }, calls)
      | some (.bound c) => some ({ s with cursor := v.cursor, outcome := some (.ok c) }, calls)
      | some (.enter _) => none

/-- Searches on from a call, with at most `depth` calls within each other. -/
def searchWithin (t : Tree α σ) : Nat → Call α → List Rejection → Answer α σ
  | 0, _, _ => none
  | depth + 1, call, recorded =>
    match t.arrive call with
    | .error r => some (.error r, .call call.cursor.position [])
    | .ok v =>
      ((t.turns v).foldlM (t.turnWithin (t.searchWithin depth) v)
        ({ cursor := v.cursor, context := v.context, rejections := recorded }, [])).map
          fun (found, made) => (.ok found, .call call.cursor.position made)

/-- What a call answers if its calls nest as deep as they have to. -/
def answer (t : Tree α σ) (call : Call α) (recorded : List Rejection) :
    Except Rejection (Searched α σ) :=
  (t.arrive call).map (t.search · recorded)

variable {t : Tree α σ} {v : Visit α} {turn : Turn α} {start depth : Nat}
  {nested : Call α → List Rejection → Answer α σ}

/-- A call that does not come to its visit leaves its rejection, and one that does is searched from
there. -/
theorem takeTurn_of_calls {call : Call α} {s : Searched α σ}
    (hcall : t.attempt v.node v.cursor s.context turn = some (t.arrival call)) :
    t.takeTurn v s turn = match t.answer call s.rejections with
      | .error r => { s with cursor := v.cursor, rejections := s.rejections ++ [r] }
      | .ok found => if turn.binds then found.undo s.context.bindings.size else found := by
  unfold takeTurn answer
  rw [hcall, arrival]
  cases t.arrive call <;> rfl

/-- A turn does with calls what it does in the search, if the calls that it makes answer what they
should. -/
theorem turnWithin_eq {s : Searched α σ}
    (hcalls : t.Calls v.node v.cursor (t.attempt v.node v.cursor s.context turn)
      (t.call? v.node v.cursor s.context turn))
    (hnested : ∀ call, t.Child v.node call.node → v.cursor.Passes call.cursor → ∀ recorded,
      ∃ made, made.Nests start depth ∧ nested call recorded = some (t.answer call recorded, made))
    (calls : List CallTree) :
    ∃ made, (∀ call ∈ made, call.Nests start depth) ∧
      t.turnWithin nested v (s, calls) turn =
        some (s.andThen (t.takeTurn v · turn), calls ++ made) := by
  unfold turnWithin Searched.andThen
  by_cases hs : s.outcome.isSome = true
  · exact ⟨[], by simp, by simp [hs]⟩
  · simp only [if_neg hs]
    cases hcall : t.call? v.node v.cursor s.context turn with
    | some call =>
      rw [hcall] at hcalls
      obtain ⟨hattempt, hchild, hpasses⟩ := hcalls
      obtain ⟨made, hmade, hanswer⟩ := hnested call hchild hpasses s.rejections
      refine ⟨[made], by simpa using hmade, ?_⟩
      simp only [hanswer, takeTurn_of_calls hattempt]
      cases t.answer call s.rejections <;> rfl
    -- The turn makes no call, so the attempt cannot have entered a child.
    | none =>
      rw [hcall] at hcalls
      refine ⟨[], by simp, ?_⟩
      unfold takeTurn
      cases hattempt : t.attempt v.node v.cursor s.context turn with
      | none => simp
      | some b =>
        cases b with
        | rejected | denied | bound => simp
        | enter w => exact (hcalls w hattempt).elim

/-- So do all turns of a visit. -/
theorem foldlM_turnWithin_eq {turns : List (Turn α)}
    (hcalls : ∀ turn ∈ turns, ∀ ctx, t.Calls v.node v.cursor (t.attempt v.node v.cursor ctx turn)
      (t.call? v.node v.cursor ctx turn))
    (hnested : ∀ call, t.Child v.node call.node → v.cursor.Passes call.cursor → ∀ recorded,
      ∃ made, made.Nests start depth ∧ nested call recorded = some (t.answer call recorded, made))
    (s : Searched α σ) (calls : List CallTree) :
    ∃ made, (∀ call ∈ made, call.Nests start depth) ∧
      turns.foldlM (t.turnWithin nested v) (s, calls) =
        some (turns.foldl (fun s turn => s.andThen (t.takeTurn v · turn)) s, calls ++ made) := by
  induction turns generalizing s calls with
  | nil => exact ⟨[], by simp, by simp⟩
  | cons turn turns ih =>
    obtain ⟨first, hfirst, hturn⟩ :=
      turnWithin_eq (hcalls turn List.mem_cons_self s.context) hnested calls
    obtain ⟨later, hlater, hturns⟩ := ih
      (fun other hother => hcalls other (List.mem_cons_of_mem _ hother))
      (s.andThen (t.takeTurn v · turn)) (calls ++ first)
    refine ⟨first ++ later, ?_, ?_⟩
    · intro call hcall
      exact (List.mem_append.mp hcall).elim (hfirst call) (hlater call)
    · rw [List.foldlM_cons, hturn, List.foldl_cons, ← List.append_assoc]
      exact hturns

/-- A call comes to a visit of its node that stands where something begins, ahead of the call. -/
theorem visit_of_arrive {call : Call α} (hroot : call.node = root → call.cursor.atBlank = false)
    (h : t.arrive call = .ok v) :
    v.node = call.node ∧ call.cursor.Reaches v.cursor ∧ Visit.Ready v := by
  unfold arrive at h
  split at h
  · rename_i hhere
    obtain rfl := Except.ok.inj h
    refine ⟨rfl, .refl _, fun hbundled => ?_⟩
    have hnode : call.node = root := by
      simpa [show call.bundled = false from hbundled] using hhere
    exact hroot hnode
  · split at h
    · obtain rfl := Except.ok.inj h
      exact ⟨rfl, Cursor.skipBlank_reached _, fun _ => Cursor.atBlank_skipBlank _⟩
    · cases h

/-- **A search with calls.** It answers what the search finds if its calls may nest deeper than what
is left of the line, for every call begins further on than the one it is nested in. The induction is
on the depth: each call leaves less than the one before. -/
theorem searchWithin_eq (m : Chart Command.Built t) (ht : t.Consumes) {depth : Nat}
    {call : Call α} (hnode : call.node < t.nodes.size)
    (hroot : call.node = root → call.cursor.atBlank = false)
    (hdepth : call.cursor.rest.length < depth) (recorded : List Rejection) :
    ∃ made, (made.start = call.cursor.position ∧ made.Advances ∧ made.depth ≤ depth) ∧
      t.searchWithin depth call recorded = some (t.answer call recorded, made) := by
  induction depth generalizing call recorded with
  | zero => exact (Nat.not_lt_zero _ hdepth).elim
  | succ depth ih =>
    unfold searchWithin answer
    cases harrive : t.arrive call with
    | error r =>
      have hnone : ∀ made ∈ ([] : List CallTree), made.Nests call.cursor.position depth := by simp
      exact ⟨.call call.cursor.position [], ⟨rfl, CallTree.advances_and_depth_le hnone⟩, rfl⟩
    | ok v =>
      obtain ⟨hv, hreaches, hready⟩ := visit_of_arrive hroot harrive
      have hlt : v.node < t.nodes.size := hv ▸ hnode
      have hchildren : ∀ child, t.Child v.node child → child ≠ root :=
        fun child => m.ne_root_of_child hlt
      -- A nested call has less of the line left, so one level fewer is enough for it.
      have hnested (next : Call α) (hchild : t.Child v.node next.node)
          (hpasses : v.cursor.Passes next.cursor) (recorded : List Rejection) :
          ∃ made, made.Nests call.cursor.position depth ∧
            t.searchWithin depth next recorded = some (t.answer next recorded, made) := by
        have hahead := hreaches.passes hpasses
        obtain ⟨made, ⟨hstart, hadvances, hle⟩, hanswer⟩ := ih (m.lt_of_child hchild)
          (fun hnext => (hchildren _ hchild hnext).elim)
          (Nat.lt_of_lt_of_le hahead.2 (Nat.le_of_lt_succ hdepth)) recorded
        exact ⟨made, ⟨hstart ▸ hahead.position_lt, hadvances, hle⟩, hanswer⟩
      obtain ⟨made, hmade, hturns⟩ := foldlM_turnWithin_eq
        (fun turn hturn ctx => calls_of_turn ht hready hchildren hturn ctx) hnested
        { cursor := v.cursor, context := v.context, rejections := recorded } []
      refine ⟨.call call.cursor.position made, ⟨rfl, CallTree.advances_and_depth_le hmade⟩, ?_⟩
      simp only [hturns, ← search_eq, List.nil_append]
      rfl

/-- **Every call makes progress.** On every tree grown over built-in types, for every principal and
every line, the search over the line is carried out by calls of which each begins at a greater
position than the one that it is nested in, and of which at most one more than the line has
characters are within each other. -/
theorem nested_calls_advance (h : t.GrownOver Parameter.Builtin) (principal : α) (line : String) :
    ∃ calls, t.searchWithin (line.length + 1) (firstCall principal line) [] =
        some (.ok (t.search (Tree.start principal line)), calls) ∧
      calls.Advances ∧ calls.depth ≤ line.length + 1 := by
  obtain ⟨m'⟩ := h.nonempty_chart
  let m : Chart Command.Built t := m'.mono fun _ hc => hc.1
  have hconsumes : t.Consumes := by
    intro i p hlabel
    obtain ⟨b, hb⟩ := h.allowed_of_label hlabel
    exact hb ▸ b.consumes
  have hdepth : (firstCall principal line).cursor.rest.length < line.length + 1 := by
    have hle := (Cursor.skipBlank_reached (Cursor.ofString line)).length_rest_le
    exact Nat.lt_succ_of_le hle
  obtain ⟨calls, ⟨_, hadvances, hle⟩, hanswer⟩ := searchWithin_eq m hconsumes m.size_pos
    (fun _ => Cursor.atBlank_skipBlank _) hdepth []
  exact ⟨calls, hanswer, hadvances, hle⟩

/-- The tree whose flag links lead back and forth is grown over switches. -/
theorem grownOver_reversedTree : reversedTree.GrownOver Parameter.Builtin := by
  have hswitch (names : List String) (p : Parameter Unit) (hp : p ∈ (switches names).parameters) :
      p.Builtin := by
    have hmem := ((switches names).parameters_command_perm 0 "cmd").mem_iff.mpr hp
    obtain ⟨name, rfl⟩ := exists_eq_switch hmem
    exact ⟨.truth, rfl⟩
  exact .register (hswitch _) (.register (hswitch _) (.empty {} (by decide)))

/-- On a line that goes round the links every flag is a call in the call before it. -/
theorem nested_calls_advance_reversedTree :
    reversedTree.GrownOver Parameter.Builtin ∧ reversedTree.Route root backAndForth 2 ∧
      ∃ calls, reversedTree.searchWithin 16 (firstCall () "cmd --a --b --a") [] =
          some (.ok (reversedTree.search (Tree.start () "cmd --a --b --a")), calls) ∧
        calls.Advances ∧ calls.depth ≤ 16 ∧ 5 ≤ calls.depth := by
  obtain ⟨calls, hanswer, hadvances, hdepth⟩ :=
    nested_calls_advance grownOver_reversedTree () "cmd --a --b --a"
  have hfive : (reversedTree.searchWithin 16 (firstCall () "cmd --a --b --a") []).map
      (fun answer => answer.2.depth) = some 5 := by decide +kernel
  have hlength : "cmd --a --b --a".length + 1 = 16 := by decide
  rw [hlength] at hanswer hdepth
  rw [hanswer] at hfive
  exact ⟨grownOver_reversedTree, route_backAndForth.2, calls, hanswer, hadvances, hdepth,
    (Option.some.inj hfive).ge⟩

end Tree

end CommandLine
