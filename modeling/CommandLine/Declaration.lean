import CommandLine.Command
import CommandLine.Refusal

/-!
# Declaring commands

A declaration is what a host writes down: names, steps in any order, a permission, an action. It is
checked as a whole, and a good one yields one command per name, with the flags moved behind the
positional steps.
-/

set_option autoImplicit false

namespace CommandLine

/-- A command as it is declared. -/
structure Declaration (α σ : Type) where
  name : String
  aliases : List String := []
  /-- The steps after the first word, flags where they were declared. -/
  steps : List (Step α) := []
  permission : Permission α := .always
  action : Option (Action α σ) := none
  description : Option String := none
  secret : Bool := false

namespace Declaration

variable {α σ : Type}

/-- A declaration whose first word is `name`. -/
def ofName (name : String) : Declaration α σ := { name }

/-- A declaration that starts with the words of a path. -/
def ofPath (path : String) : Declaration α σ :=
  match (Text.words path.toList).map String.ofList with
  | [] => ofName ""
  | first :: later => { name := first, steps := later.map .literal }

/-- The declaration under one more first word. -/
def withAlias (d : Declaration α σ) (name : String) : Declaration α σ :=
  { d with aliases := d.aliases ++ [name] }

/-- The declaration with a fixed word at its end. -/
def literal (d : Declaration α σ) (name : String) : Declaration α σ :=
  { d with steps := d.steps ++ [.literal name] }

/-- The declaration with a parameter at its end. -/
def argument (d : Declaration α σ) (p : Parameter α) : Declaration α σ :=
  { d with steps := d.steps ++ [.parameter p] }

/-- The declaration with a permission. -/
def withPermission (d : Declaration α σ) (permission : Permission α) : Declaration α σ :=
  { d with permission }

/-- The declaration open to those who pass a test. -/
def withRequirement (d : Declaration α σ) (test : α → Bool) : Declaration α σ :=
  d.withPermission (.requires test)

/-- The declaration with a description. -/
def withDescription (d : Declaration α σ) (description : String) : Declaration α σ :=
  { d with description := some description }

/-- The declaration of a command that is never completed. -/
def asSecret (d : Declaration α σ) : Declaration α σ := { d with secret := true }

/-- The declaration with an action. -/
def withAction (d : Declaration α σ) (action : Action α σ) : Declaration α σ :=
  { d with action := some action }

/-- Every first word. -/
def names (d : Declaration α σ) : List String := d.name :: d.aliases

/-- The parameters in declaration order. -/
def parameters (d : Declaration α σ) : List (Parameter α) := d.steps.filterMap Step.parameter?

/-- The words that no argument may be named like. -/
def literals (d : Declaration α σ) : List String := d.names ++ d.steps.filterMap Step.literal?

/-- The flags and switches in declaration order. -/
def flags (d : Declaration α σ) : List (Parameter α) := d.parameters.filter (·.isNamed)

/-- The literals and arguments after the first word, in declaration order. -/
def path (d : Declaration α σ) : List (Step α) :=
  d.steps.filter fun step => !step.parameter?.any (·.isNamed)

/-- The names that the parameters checked so far have taken. -/
structure Taken where
  names : List String := []
  longNames : List String := []
  shorthands : List Char := []

/-- Checks the long name and shorthand of a flag or switch against those taken. -/
def checkFlag (taken : Taken) (p : Parameter α) : Except Refusal Taken :=
  if p.isSwitch && p.type.traits.kind ≠ .truth then .error (.invalidSwitch p.name)
  else if p.longName ∈ taken.longNames then .error (.duplicate p.longName)
  else match p.shorthand? with
    | none => .ok { taken with longNames := p.longName :: taken.longNames }
    | some c =>
      if c ∈ taken.shorthands then .error (.duplicate c.toString)
      else .ok { taken with
        longNames := p.longName :: taken.longNames, shorthands := c :: taken.shorthands }

/-- Checks one parameter against the names taken and the literals of its command. -/
def checkParameter (literals : List String) (taken : Taken) (p : Parameter α) :
    Except Refusal Taken :=
  if p.name ∈ taken.names then .error (.duplicate p.name)
  else
    let taken := { taken with names := p.name :: taken.names }
    if p.isNamed then checkFlag taken p
    else if p.name ∈ literals then .error (.conflict p.name)
    else .ok taken

/-- Checks parameters in declaration order; the first fault is the answer. -/
def checkParameters (literals : List String) : Taken → List (Parameter α) →
    Except Refusal Unit
  | _, [] => .ok ()
  | taken, p :: ps =>
    match checkParameter literals taken p with
    | .ok taken => checkParameters literals taken ps
    | .error e => .error e

/-- Refuses a blank first word and then the first faulty parameter. -/
def validate (d : Declaration α σ) : Except Refusal Unit :=
  if d.names.any Text.isBlankText then .error .emptyCommand
  else checkParameters d.literals {} d.parameters

/-- The command that a declaration stands for under one of its names. -/
def command (d : Declaration α σ) (id : Nat) (name : String) : Command α σ :=
  { id, name, path := d.path, flags := d.flags, permission := d.permission, action := d.action,
    description := d.description, secret := d.secret }

/-- One command per name, all with the same id, if the declaration is good. -/
def build (d : Declaration α σ) (id : Nat) : Except Refusal (List (Command α σ)) :=
  match d.validate with
  | .ok () => .ok (d.names.map (d.command id))
  | .error e => .error e

end Declaration

end CommandLine
