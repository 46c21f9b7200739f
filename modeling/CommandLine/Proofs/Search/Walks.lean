import CommandLine.Proofs.Search.Passed

/-!
# Walks

A walk is a reading that is told by what it passes on the line: words as well as parameters, in
order. It is a route through the tree that the line takes.

* `Reads.exists_walks`, `Walks.exists_reads` — every reading is a walk, and the other way round;
* `Walks.route` — a walk is a route.
-/

set_option autoImplicit false

namespace CommandLine

variable {α σ : Type}

namespace Tree

/-- A reading from one visit to another, with the steps that it passes in order. -/
inductive Walks (t : Tree α σ) : Visit α → List (Step α) → Visit α → Prop
  | refl (v : Visit α) : Walks t v [] v
  | step {v w u : Visit α} {turn : Turn α} {given : Option (Given α)} {steps : List (Step α)} :
      turn ∈ t.turns v → t.Moves v turn given w → Walks t w steps u →
      Walks t v (v.passed given :: steps) u

variable {t : Tree α σ} {v w u : Visit α} {steps later : List (Step α)}

/-- Every reading is a walk past the parameters to which it gives a value. -/
theorem Reads.exists_walks {given : List (Given α)} (h : t.Reads v given u) :
    ∃ steps, t.Walks v steps u ∧ Step.parameters steps = given.map Given.parameter := by
  induction h with
  | refl v => exact ⟨[], .refl v, rfl⟩
  | @step v w u turn given later hturn hmove _ ih =>
    obtain ⟨steps, hwalks, hsteps⟩ := ih
    refine ⟨_, .step hturn hmove hwalks, ?_⟩
    rw [← List.singleton_append, Step.parameters_append, v.parameters_passed, hsteps,
      List.map_append]

namespace Walks

theorem append (h : t.Walks v steps w) (h' : t.Walks w later u) :
    t.Walks v (steps ++ later) u := by
  induction h with
  | refl v => exact h'
  | step hturn hmove _ ih => exact .step hturn hmove (ih h')

/-- A walk past nothing stays where it is. -/
theorem eq_of_nil (h : t.Walks v [] u) : v = u := by
  generalize hsteps : ([] : List (Step α)) = steps at h
  cases h with
  | refl => rfl
  | step => cases hsteps

/-- A walk past some steps and then others comes to a place between them. -/
theorem exists_of_append (h : t.Walks v (steps ++ later) u) :
    ∃ w, t.Walks v steps w ∧ t.Walks w later u := by
  induction steps generalizing v with
  | nil => exact ⟨v, .refl v, h⟩
  | cons step steps ih =>
    generalize hall : step :: steps ++ later = all at h
    cases h with
    | refl => cases hall
    | step hturn hmove hwalks =>
      obtain ⟨rfl, rfl⟩ := List.cons.inj hall
      obtain ⟨w, hsteps, hlater⟩ := ih hwalks
      exact ⟨w, .step hturn hmove hsteps, hlater⟩

/-- A walk is a reading that gives values to the parameters that it passes. -/
theorem exists_reads (h : t.Walks v steps u) :
    ∃ given, t.Reads v given u ∧ Step.parameters steps = given.map Given.parameter := by
  induction h with
  | refl v => exact ⟨[], .refl v, rfl⟩
  | @step v w u turn given steps hturn hmove _ ih =>
    obtain ⟨later, hreads, hlater⟩ := ih
    refine ⟨_, .step hturn hmove hreads, ?_⟩
    rw [← List.singleton_append, Step.parameters_append, v.parameters_passed, hlater,
      List.map_append]

/-- A walk is a route through the tree. -/
theorem route (h : t.Walks v steps u) : t.Route v.node steps u.node := by
  induction h with
  | refl v => rfl
  | step hturn hmove _ ih => exact ⟨_, hmove.edge hturn, ih⟩

/-- A walk that passes a word starts in front of it. -/
theorem word_eq {word : String} (h : t.Walks v (.literal word :: steps) u) :
    v.cursor.word = word := by
  generalize hpassed : Step.literal word :: steps = passed at h
  cases h with
  | refl => cases hpassed
  | @step _ _ _ _ given =>
    cases given with
    | none => exact (Step.literal.inj (List.cons.inj hpassed).1).symm
    | some g => cases (List.cons.inj hpassed).1

/-- A walk goes forward on the line. -/
theorem reached (h : t.Walks v steps u) : v.cursor.Reaches u.cursor := by
  induction h with
  | refl v => exact .refl _
  | step _ hmove _ ih => exact hmove.reached.trans ih

end Walks

end Tree

end CommandLine
