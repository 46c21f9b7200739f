import CommandLine.Proofs.SuggestionsTaken

/-!
# Indented lines

A line is parsed from its first word on, whatever blanks stand in front of it. It is completed from
its first character on: what a command offers starts with a name, which is not empty, so that
nothing is offered where the line starts with a blank.

* `Grown.startsWord_of_mem_complete` — what is completed starts with a word;
* `complete_indented` — which lines are completed alike with blanks in front of them.
-/

set_option autoImplicit false

namespace CommandLine

open Text

variable {α σ : Type}

namespace Tree

variable {t : Tree α σ}

/-- A line for which something is offered starts with a word. -/
theorem Grown.startsWord_of_mem_complete (h : t.Grown) {principal : α} {line x : String}
    (hx : x ∈ t.complete principal line) : StartsWord line.toList := by
  obtain ⟨hne, c, hc, -, hx⟩ := mem_complete_iff.mp hx
  exact Command.startsWord_of_mem_complete (h.built hc).name_ne_empty hne hx

/-- **Indented lines are not completed.** On a grown tree a line is completed as it is without the
blanks in front of it exactly if there are no blanks in front of it, or nothing is offered for it
anyway. -/
theorem complete_indented (h : t.Grown) (principal : α) {blanks : String}
    (hblanks : ∀ ch ∈ blanks.toList, isBlank ch = true) (line : String) :
    t.complete principal (blanks ++ line) = t.complete principal line ↔
      blanks = "" ∨ t.complete principal line = [] := by
  by_cases hempty : blanks = ""
  · simp [hempty]
  · have hne : blanks.toList ≠ [] := by simpa using hempty
    obtain ⟨ch, rest, hchars⟩ := List.exists_cons_of_ne_nil hne
    have hnone : t.complete principal (blanks ++ line) = [] := by
      rw [List.eq_nil_iff_forall_not_mem]
      intro x hx
      obtain ⟨first, later, hline, hfirst⟩ := h.startsWord_of_mem_complete hx
      rw [String.toList_append, hchars, List.cons_append, List.cons.injEq] at hline
      rw [← hline.1, hblanks ch (hchars ▸ List.mem_cons_self)] at hfirst
      cases hfirst
    simp only [hempty, false_or, hnone]
    exact eq_comm

/-- A command without arguments. -/
def stopping : Declaration Unit Unit := { name := "stop", steps := [] }

/-- The tree of one command without arguments. -/
def stopTree : Tree Unit Unit := (Growth.register stopping).after (empty {})

theorem grown_stopTree : stopTree.Grown := .register stopping (.empty {} (by decide))

theorem complete_stopTree : stopTree.complete () "s" = ["stop"] := by decide +kernel

/-- The part of a name is completed, and with a blank in front of it no longer. -/
theorem complete_indented_stopTree :
    stopTree.Grown ∧ (∀ ch ∈ " ".toList, isBlank ch = true) ∧
      (stopTree.complete () (" " ++ "s") = stopTree.complete () "s" ↔
        " " = "" ∨ stopTree.complete () "s" = []) :=
  have hblanks : ∀ ch ∈ " ".toList, isBlank ch = true := List.all_eq_true.mp (by decide)
  ⟨grown_stopTree, hblanks, complete_indented grown_stopTree () hblanks "s"⟩

/-- The line resolves with a blank in front of it, and a part of it is not completed so. -/
theorem indented_line_not_completed :
    stopTree.Grown ∧ (∃ r, stopTree.parse () (" " ++ "stop") = .ok r ∧ r.command.name = "stop") ∧
      stopTree.complete () "s" = ["stop"] ∧ stopTree.complete () (" " ++ "s") = [] :=
  ⟨grown_stopTree, by decide +kernel, complete_stopTree, by decide +kernel⟩

end Tree

end CommandLine
