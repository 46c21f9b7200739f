import CommandLine.Refusal
import CommandLine.Text.Blank
import CommandLine.Text.Quoted

/-!
# Dispatcher settings

How flags are spelled, up to how many flags every order gets its own path, and which recorded
rejection is reported. The long prefix is matched first, so the short one must not start with it.
-/

set_option autoImplicit false

namespace CommandLine

/-- Which recorded rejection is reported when no command matches. -/
inductive ReportPolicy where
  /-- The one found furthest into the input; of several the first. -/
  | furthest
  /-- The one recorded last. -/
  | last
deriving DecidableEq, Repr, Inhabited

namespace ReportPolicy

/-- The name of a policy in settings. -/
def name : ReportPolicy → String
  | furthest => "furthest"
  | last => "last"

/-- The policy with a name. -/
def ofName? (s : String) : Option ReportPolicy :=
  [furthest, last].find? fun policy => policy.name = s

/-- The policy for developers. -/
def inspect : ReportPolicy → String
  | furthest => "Furthest"
  | last => "Last"

end ReportPolicy

/-- The greatest threshold: six flags already have 1956 paths. -/
def greatestThreshold : Nat := 6

/-- How a command tree spells flags, orders them and reports rejections. -/
structure Settings where
  /-- What stands before the long name of a flag. -/
  longPrefix : String := "--"
  /-- What stands before the shorthands of flags. -/
  shortPrefix : String := "-"
  /-- The number of flags up to which every order gets its own path. -/
  threshold : Nat := 4
  policy : ReportPolicy := .furthest
deriving DecidableEq, Repr, Inhabited

namespace Settings

/-- The first fault of settings, if any. -/
def fault? (s : Settings) : Option SettingsFault :=
  if greatestThreshold < s.threshold then some (.thresholdTooLarge s.threshold greatestThreshold)
  else if s.longPrefix = "" || s.shortPrefix = "" then some .emptyPrefix
  else if s.longPrefix.toList.isPrefixOf s.shortPrefix.toList then
    some (.shadowedPrefix s.shortPrefix s.longPrefix)
  else if (s.longPrefix.toList ++ s.shortPrefix.toList).any Text.isBlank then some .blankInPrefix
  else none

/-- Refuses settings with a fault. -/
def validate (s : Settings) : Except Refusal Unit :=
  match s.fault? with
  | some fault => .error (.invalidSettings fault)
  | none => .ok ()

/-- The settings for developers. -/
def inspect (s : Settings) : String :=
  Text.record "DispatcherSettings"
    [("long_flag_prefix", Text.quoted s.longPrefix),
      ("short_flag_prefix", Text.quoted s.shortPrefix),
      ("permutation_threshold", toString s.threshold),
      ("failure_policy", s.policy.inspect)] false

end Settings

end CommandLine
