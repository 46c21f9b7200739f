import CommandLine.Tree.Branch

/-!
# Searching a command tree

A search gives each turn of a visit its chance, and follows a turn that leads on before it comes to
the next. The first command or denial ends it. All branches share one cursor, one set of values and
one record of rejections: before a turn the cursor goes back to where the visit began, and after a
branch that failed the values are cut to as many as there were before it. Cutting does not bring
back a value that the branch replaced.

Since turns that lead on have read something, a search is defined by recursion on what is left of
the line.

* `search_eq` — a search goes through the turns of its visit, one after the other.
-/

set_option autoImplicit false

namespace CommandLine

variable {α σ : Type}

/-- What the branches of a search share, and how it ended, if it did. -/
structure Searched (α σ : Type) where
  cursor : Cursor
  context : Context α
  rejections : List Rejection := []
  outcome : Option (Except Rejection (Command α σ)) := none

namespace Searched

/-- Goes on with a search that has not ended. -/
def andThen (s : Searched α σ) (next : Searched α σ → Searched α σ) : Searched α σ :=
  if s.outcome.isSome then s else next s

/-- Cuts the values to the first `mark` after a branch that failed. -/
def undo (s : Searched α σ) (mark : Nat) : Searched α σ :=
  if s.outcome.isSome then s else { s with context := s.context.truncate mark }

end Searched

namespace Tree

/-- Searches on from a visit, depth first, with the rejections recorded before it. -/
def search (t : Tree α σ) (v : Visit α) (recorded : List Rejection := []) : Searched α σ :=
  (t.turns v).attach.foldl
    (fun s turn => s.andThen fun s =>
      match _ : t.attempt v.node v.cursor s.context turn.1 with
      | none => { s with cursor := v.cursor }
      | some (.rejected r) =>
        { s with cursor := v.cursor, rejections := s.rejections ++ [r] }
      | some (.denied r) => { s with cursor := v.cursor, outcome := some (.error r) }
      | some (.bound c) => { s with cursor := v.cursor, outcome := some (.ok c) }
      | some (.enter w) =>
        let found := t.search w s.rejections
        if turn.1.binds then found.undo s.context.bindings.size else found)
    { cursor := v.cursor, context := v.context, rejections := recorded }
termination_by v.left
decreasing_by exact left_lt_of_attempt turn.2 ‹_›

/-- What a turn makes of a search. It reads from where the visit began. -/
def takeTurn (t : Tree α σ) (v : Visit α) (s : Searched α σ) (turn : Turn α) : Searched α σ :=
  match t.attempt v.node v.cursor s.context turn with
  | none => { s with cursor := v.cursor }
  | some (.rejected r) => { s with cursor := v.cursor, rejections := s.rejections ++ [r] }
  | some (.denied r) => { s with cursor := v.cursor, outcome := some (.error r) }
  | some (.bound c) => { s with cursor := v.cursor, outcome := some (.ok c) }
  | some (.enter w) =>
    let found := t.search w s.rejections
    if turn.binds then found.undo s.context.bindings.size else found

/-- A search goes through the turns of its visit, one after the other. -/
theorem search_eq (t : Tree α σ) (v : Visit α) (recorded : List Rejection) :
    t.search v recorded = (t.turns v).foldl (fun s turn => s.andThen (t.takeTurn v · turn))
      { cursor := v.cursor, context := v.context, rejections := recorded } := by
  rw [search, ← List.foldl_attach (l := t.turns v)]
  congr 1
  funext s turn
  congr 1
  funext s
  unfold takeTurn
  split <;> rename_i h <;> simp only [h]

end Tree

end CommandLine
