/-!
# Refusals

Why a declaration, an insertion or a set of settings was refused. Settings have a closed list of
faults of their own.
-/

set_option autoImplicit false

namespace CommandLine

/-- What makes dispatcher settings unusable. -/
inductive SettingsFault where
  | thresholdTooLarge (threshold greatest : Nat)
  | emptyPrefix
  /-- The short prefix starts with the long one, which is matched first. -/
  | shadowedPrefix (short long : String)
  | blankInPrefix
deriving DecidableEq, Repr

/-- The wording of a fault. -/
def SettingsFault.message : SettingsFault → String
  | thresholdTooLarge threshold greatest =>
    "permutation threshold " ++ toString threshold ++ " exceeds the maximum of " ++
      toString greatest
  | emptyPrefix => "flag prefixes must not be empty"
  | shadowedPrefix short long =>
    "short flag prefix '" ++ short ++ "' is shadowed by long flag prefix '" ++ long ++ "'"
  | blankInPrefix => "flag prefixes must not contain whitespace"

/-- Why a registration was refused. -/
inductive Refusal where
  /-- An argument and a literal share a name on one path, or a long name has two shapes. -/
  | conflict (name : String)
  /-- A switch over a type that does not yield truth values. -/
  | invalidSwitch (name : String)
  /-- A command without a first word. -/
  | emptyCommand
  /-- Two parameters, long names or shorthands of one command are the same. -/
  | duplicate (name : String)
  | invalidSettings (fault : SettingsFault)
deriving DecidableEq, Repr

/-- The wording of a refusal. -/
def Refusal.message : Refusal → String
  | conflict name => "parameter '" ++ name ++ "' collides with a literal on the same path"
  | invalidSwitch name => "switch '" ++ name ++ "' must use a boolean parameter type"
  | emptyCommand => "a command must start with a literal"
  | duplicate name => "duplicate parameter '" ++ name ++ "'"
  | invalidSettings fault => "invalid settings: " ++ fault.message

end CommandLine
