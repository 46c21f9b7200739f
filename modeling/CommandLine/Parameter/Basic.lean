import CommandLine.ValueType.Builtin
import CommandLine.Permission

/-!
# Parameters

A parameter has a name, a type and a form: an argument at its place, a switch that is present or
not, or a flag with a value. Switches may always be omitted; a default implies that a parameter may
be.
-/

set_option autoImplicit false

namespace CommandLine

open Text

/-- How a parameter is written in the input. -/
inductive ParameterForm where
  /-- An argument, recognised by its place. -/
  | positional
  /-- A long name or shorthand without a value. -/
  | switch (longName : String) (shorthand : Option Char)
  /-- A long name or shorthand followed by a value. -/
  | flag (longName : String) (shorthand : Option Char)
deriving DecidableEq, Repr

namespace ParameterForm

/-- The long name of a switch or flag. -/
def longName? : ParameterForm → Option String
  | positional => none
  | switch longName _ | flag longName _ => some longName

/-- The shorthand of a switch or flag. -/
def shorthand? : ParameterForm → Option Char
  | positional => none
  | switch _ shorthand | flag _ shorthand => shorthand

/-- The same form under another long name; an argument has none. -/
def withLongName (form : ParameterForm) (longName : String) : ParameterForm :=
  match form with
  | positional => positional
  | switch _ shorthand => switch longName shorthand
  | flag _ shorthand => flag longName shorthand

/-- The same form with another shorthand or none; an argument has none. -/
def withShorthand (form : ParameterForm) (shorthand : Option Char) : ParameterForm :=
  match form with
  | positional => positional
  | switch longName _ => switch longName shorthand
  | flag longName _ => flag longName shorthand

/-- The form for developers. -/
def inspect : ParameterForm → String
  | positional => "Positional"
  | switch longName shorthand => named "Switch" longName shorthand
  | flag longName shorthand => named "Flag" longName shorthand
where
  named (kind longName : String) (shorthand : Option Char) : String :=
    record kind [("long_name", quoted longName), ("shorthand", optional (shorthand.map quotedChar))]
      false

end ParameterForm

/-- A typed parameter of a command. -/
structure Parameter (α : Type) where
  name : String
  type : ValueType α
  /-- Whether the parameter was declared optional. -/
  omissible : Bool := false
  /-- The text that is parsed when the parameter is omitted. -/
  default : Option String := none
  form : ParameterForm := .positional
  permission : Permission α := .always
  description : Option String := none
  /-- What completion offers instead of the type's suggestions. -/
  provider : Option (Context α → List String) := none

namespace Parameter

variable {α : Type}

/-- A required argument. -/
def ofType (name : String) (type : ValueType α) : Parameter α := { name, type }

/-- A required argument of a built-in type. -/
def ofBuiltin (name : String) (type : BuiltinType) : Parameter α := ofType name type.toValueType

/-- The parameter as a flag named after it, with its first letter as shorthand. -/
def asFlag (p : Parameter α) : Parameter α :=
  { p with form := .flag p.name p.name.toList.head? }

/-- The parameter as a switch named after it, with its first letter as shorthand. -/
def asSwitch (p : Parameter α) : Parameter α :=
  { p with form := .switch p.name p.name.toList.head? }

/-- A switch over truth values. -/
def switch (name : String) : Parameter α := (ofBuiltin name .truth).asSwitch

/-- The parameter, now optional. -/
def asOptional (p : Parameter α) : Parameter α := { p with omissible := true }

/-- The parameter with a default, which makes it optional. -/
def withDefault (p : Parameter α) (default : String) : Parameter α :=
  { p with default := some default, omissible := true }

/-- The parameter under another long name, if it is a flag or a switch. -/
def withLongName (p : Parameter α) (longName : String) : Parameter α :=
  { p with form := p.form.withLongName longName }

/-- The parameter with another shorthand or none, if it is a flag or a switch. -/
def withShorthand (p : Parameter α) (shorthand : Option Char) : Parameter α :=
  { p with form := p.form.withShorthand shorthand }

/-- The parameter with a permission. -/
def withPermission (p : Parameter α) (permission : Permission α) : Parameter α :=
  { p with permission }

/-- The parameter with a description. -/
def withDescription (p : Parameter α) (description : String) : Parameter α :=
  { p with description := some description }

/-- The parameter with suggestions that depend on the context. -/
def withProvider (p : Parameter α) (provider : Context α → List String) : Parameter α :=
  { p with provider := some provider }

/-- The parameter with a fixed list of suggestions. -/
def withSuggestions (p : Parameter α) (suggestions : List String) : Parameter α :=
  p.withProvider fun _ => suggestions

/-- Whether the parameter is a switch. -/
def isSwitch (p : Parameter α) : Bool :=
  match p.form with
  | .switch _ _ => true
  | _ => false

/-- Whether the parameter is a flag or a switch. -/
def isNamed (p : Parameter α) : Bool :=
  match p.form with
  | .positional => false
  | _ => true

/-- Whether the input may leave the parameter out. -/
def isOptional (p : Parameter α) : Bool := p.omissible || p.default.isSome || p.isSwitch

/-- The long name of a flag or switch, the name of an argument. -/
def longName (p : Parameter α) : String := p.form.longName?.getD p.name

/-- The shorthand of a flag or switch. -/
def shorthand? (p : Parameter α) : Option Char := p.form.shorthand?

/-- What completion offers for the parameter. -/
def suggestions (p : Parameter α) (ctx : Context α) : List String :=
  match p.provider with
  | some provider => provider ctx
  | none => p.type.traits.suggestions

/-- Whether one parameter can stand at another one's node. -/
def interchangeable (p q : Parameter α) : Bool :=
  p.isSwitch = q.isSwitch && p.isNamed = q.isNamed && p.type.traits.interchangeable q.type.traits

/-- The order in which parameters at one node are tried: required ones before optional ones, then
by the order of their types. When the first type sees no difference the second one is asked. -/
def order (p q : Parameter α) : Ordering :=
  match p.isOptional, q.isOptional with
  | true, false => .gt
  | false, true => .lt
  | _, _ => (p.type.compareTo q.type.traits).then (q.type.compareTo p.type.traits).swap

/-- An argument goes by its name. -/
theorem longName_of_positional {p : Parameter α} (h : p.isNamed = false) : p.longName = p.name := by
  unfold isNamed at h
  split at h
  · rename_i hform
    simp [longName, hform, ParameterForm.longName?]
  · cases h

/-- An argument has no shorthand. -/
theorem shorthand?_of_positional {p : Parameter α} (h : p.isNamed = false) :
    p.shorthand? = none := by
  unfold isNamed at h
  split at h
  · rename_i hform
    simp [shorthand?, hform, ParameterForm.shorthand?]
  · cases h

/-- Arguments of one long name have one name. -/
theorem name_eq_of_longName_eq {p q : Parameter α} (hp : p.isNamed = false)
    (hq : q.isNamed = false) (h : p.longName = q.longName) : p.name = q.name := by
  rw [← longName_of_positional hp, h, longName_of_positional hq]

/-- A parameter can stand for itself. -/
theorem interchangeable_self (p : Parameter α) : p.interchangeable p = true := by
  simp [interchangeable, TypeTraits.interchangeable]

/-- It can stand for another one if that one can stand for it. -/
theorem interchangeable_comm (p q : Parameter α) : p.interchangeable q = q.interchangeable p := by
  simp only [interchangeable, TypeTraits.interchangeable, eq_comm]

/-- What stands for what stands for a parameter stands for it. -/
theorem interchangeable_trans {p q r : Parameter α} (h : p.interchangeable q = true)
    (h' : q.interchangeable r = true) : p.interchangeable r = true := by
  simp only [interchangeable, TypeTraits.interchangeable, Bool.and_eq_true, decide_eq_true_eq]
    at h h' ⊢
  obtain ⟨⟨hswitch, hnamed⟩, ⟨hkind, hpriority⟩, hgreedy⟩ := h
  obtain ⟨⟨hswitch', hnamed'⟩, ⟨hkind', hpriority'⟩, hgreedy'⟩ := h'
  exact ⟨⟨hswitch.trans hswitch', hnamed.trans hnamed'⟩,
    ⟨hkind.trans hkind', hpriority.trans hpriority'⟩, hgreedy.trans hgreedy'⟩

/-- Only a flag stands for a flag. -/
theorem isNamed_eq_of_interchangeable {p q : Parameter α} (h : q.interchangeable p = true) :
    q.isNamed = p.isNamed := by
  simp only [interchangeable, Bool.and_eq_true, decide_eq_true_eq] at h
  exact h.1.2

/-- Only a switch stands for a switch. -/
theorem isSwitch_eq_of_interchangeable {p q : Parameter α} (h : q.interchangeable p = true) :
    q.isSwitch = p.isSwitch := by
  simp only [interchangeable, Bool.and_eq_true, decide_eq_true_eq] at h
  exact h.1.1

/-- Of types that stand for each other both take the rest of the line or neither. -/
theorem greedy_eq_of_interchangeable {p q : Parameter α} (h : q.interchangeable p = true) :
    q.type.traits.greedy = p.type.traits.greedy := by
  simp only [interchangeable, TypeTraits.interchangeable, Bool.and_eq_true, decide_eq_true_eq] at h
  exact h.2.2

theorem isNamed_of_isSwitch {p : Parameter α} (h : p.isSwitch = true) : p.isNamed = true := by
  unfold isSwitch at h
  unfold isNamed
  split at h
  · rename_i hform
    rw [hform]
  · cases h

theorem isSwitch_of_unnamed {p : Parameter α} (h : p.isNamed = false) : p.isSwitch = false := by
  rw [← Bool.not_eq_true]
  intro hswitch
  rw [isNamed_of_isSwitch hswitch] at h
  cases h

/-- The parameter in a usage line, with the given prefixes before flag names. -/
def usage (p : Parameter α) (longPrefix shortPrefix : String) : String :=
  let value := " <" ++ p.name ++ ">"
  match p.form with
  | .positional => if p.isOptional then "[" ++ p.name ++ "]" else "<" ++ p.name ++ ">"
  | .switch longName shorthand =>
    "[" ++ spelled longName shorthand "" ++ "]"
  | .flag longName shorthand =>
    let body := spelled longName shorthand value
    if p.isOptional then "[" ++ body ++ "]" else "<" ++ body ++ ">"
where
  spelled (longName : String) (shorthand : Option Char) (value : String) : String :=
    longPrefix ++ longName ++ value ++
      match shorthand with
      | some c => " | " ++ shortPrefix ++ c.toString ++ value
      | none => ""

/-- The parameter for developers. -/
def inspect (p : Parameter α) : String :=
  record "ParameterNode"
    [("name", quoted p.name), ("priority", toString p.type.traits.priority),
      ("optional", if p.isOptional then "true" else "false"),
      ("default", optional (p.default.map quoted)), ("flag", p.form.inspect)] true

end Parameter

end CommandLine
