import CommandLine.Parameter.Basic

/-!
# Commands

A command is one full way to be invoked: a first word, then literals and arguments in order, then
flags. It may carry an action on the state of the host; commands with one id are the aliases of one
declaration.
-/

set_option autoImplicit false

namespace CommandLine

open Text

/-- One step of a command's path: a fixed word or a typed value. -/
inductive Step (α : Type) where
  | literal (name : String)
  | parameter (p : Parameter α)

namespace Step

variable {α : Type}

/-- The word of a literal, the name of a parameter. -/
def name : Step α → String
  | literal name => name
  | parameter p => p.name

/-- Whether the step is a fixed word. -/
def isLiteral : Step α → Bool
  | literal _ => true
  | parameter _ => false

/-- The parameter of a step. -/
def parameter? : Step α → Option (Parameter α)
  | literal _ => none
  | parameter p => some p

/-- The word of a literal step. -/
def literal? : Step α → Option String
  | literal name => some name
  | parameter _ => none

/-- Whether the input may leave the step out. -/
def isOptional : Step α → Bool
  | literal _ => false
  | parameter p => p.isOptional

/-- The step in a usage line. -/
def usage (step : Step α) (longPrefix shortPrefix : String) : String :=
  match step with
  | literal name => name
  | parameter p => p.usage longPrefix shortPrefix

/-- The step for developers. -/
def inspect : Step α → String
  | literal name => record "Literal" [("name", quoted name)] false
  | parameter p => p.inspect

end Step

/-- What a command does to the state of the host, given everything resolved from the line. -/
abbrev Action (α σ : Type) := Context α → σ → σ

/-- One way to be invoked. -/
structure Command (α σ : Type) where
  /-- The identity that the aliases of one declaration share. -/
  id : Nat
  /-- The first word. -/
  name : String
  /-- The literals and arguments after the first word. -/
  path : List (Step α)
  /-- The flags and switches, in declaration order. -/
  flags : List (Parameter α)
  permission : Permission α
  action : Option (Action α σ)
  description : Option String
  /-- A secret command is dispatched but never completed. -/
  secret : Bool

/-- An identity as text. -/
def idText (id : Nat) : String := "#" ++ toString id

namespace Command

variable {α σ : Type}

/-- The literals and arguments, the first word included. -/
def positionals (c : Command α σ) : List (Step α) := .literal c.name :: c.path

/-- Every step: literals and arguments, then flags. -/
def steps (c : Command α σ) : List (Step α) := c.positionals ++ c.flags.map .parameter

/-- Every parameter, argument or flag. -/
def parameters (c : Command α σ) : List (Parameter α) := c.steps.filterMap Step.parameter?

/-- A parameter is an argument or a flag. -/
theorem mem_parameters {c : Command α σ} {p : Parameter α} :
    p ∈ c.parameters ↔ .parameter p ∈ c.positionals ∨ p ∈ c.flags := by
  have hparameter? (step : Step α) : step.parameter? = some p ↔ step = .parameter p := by
    cases step <;> simp [Step.parameter?]
  simp [parameters, steps, hparameter?]

/-- The usage line with the given prefixes before flag names. -/
def usageWith (c : Command α σ) (longPrefix shortPrefix : String) : String :=
  " ".intercalate (c.steps.map fun step => step.usage longPrefix shortPrefix)

/-- The usage line with the usual prefixes. -/
def usage (c : Command α σ) : String := c.usageWith "--" "-"

/-- The command for developers. -/
def inspect (c : Command α σ) : String :=
  record "ExecutableCommand"
    [("id", "CommandId(" ++ toString c.id ++ ")"), ("usage", quoted c.usage),
      ("secret", if c.secret then "true" else "false")] true

end Command

end CommandLine
