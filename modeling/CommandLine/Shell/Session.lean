import CommandLine.Tree.Growth

/-!
# The shell's commands

The shell acts for a user and keeps a team and the lines that its commands have written. Its command
set is one tree: messages, items, game modes, difficulty, the team, what administrators may do, and
a list of all of it.
-/

set_option autoImplicit false

namespace CommandLine.Shell

/-- Who the shell acts for. -/
structure User where
  name : String
  admin : Bool
deriving DecidableEq, Repr, Inhabited

/-- What lasts from line to line: the team in the order of joining, and the lines written since the
output was last taken. -/
structure Session where
  team : List String := []
  output : List String := []
deriving DecidableEq, Repr, Inhabited

namespace Session

/-- Writes a line. -/
def write (s : Session) (line : String) : Session := { s with output := s.output ++ [line] }

/-- Takes the lines written so far. -/
def drain (s : Session) : List String × Session := (s.output, { s with output := [] })

/-- Adds a member unless the team has it. -/
def join (s : Session) (name : String) : Session :=
  if name ∈ s.team then s.write (name ++ " is already on the team")
  else { s with team := s.team ++ [name] }.write ("Added " ++ name)

/-- Removes a member if the team has it. -/
def leave (s : Session) (name : String) : Session :=
  if name ∈ s.team then
    { s with team := s.team.filter (· ≠ name) }.write ("Removed " ++ name)
  else s.write (name ++ " is not on the team")

/-- Lists the team. -/
def list (s : Session) : Session :=
  s.write (if s.team.isEmpty then "The team is empty" else ", ".intercalate s.team)

end Session

/-- What a command does to the session. -/
abbrev SessionAction := Action User Session

/-- The text bound to a name, empty if there is none. -/
def textOf (ctx : Context User) (name : String) : String := (ctx.bindings.text? name).getD ""

/-- The text bound to a name, if it is not empty. -/
def filledText? (ctx : Context User) (name : String) : Option String :=
  (ctx.bindings.text? name).filter (· ≠ "")

/-- Whether a switch was given. -/
def isOn (ctx : Context User) (name : String) : Bool := (ctx.bindings.truth? name).getD false

/-- Prints a message. -/
def echo : Declaration User Session :=
  (Declaration.ofName "echo").withAlias "say"
    |>.argument (.ofBuiltin "message" .greedy)
    |>.withDescription "Print a message"
    |>.withAction fun ctx s => s.write (textOf ctx "message")

/-- Gives an item to the user. -/
def give : Declaration User Session :=
  Declaration.ofName "give"
    |>.argument ((Parameter.ofBuiltin "item" (.word none none)).withSuggestions
      ["stone", "dirt", "diamond"])
    |>.argument (((Parameter.ofBuiltin "amount" (.integer (some 1) (some 64))).withDefault
      "1").withSuggestions ["1", "16", "32", "64"])
    |>.argument (.switch "silent")
    |>.withDescription "Give an item to yourself"
    |>.withAction fun ctx s =>
      let amount := (ctx.bindings.integer? "amount").getD 1
      if isOn ctx "silent" then s
      else s.write ("Gave " ++ textOf ctx "item" ++ " x" ++ toString amount ++ " to " ++
        ctx.principal.name)

/-- Sets the game mode of the user or of a target. -/
def gamemode : Declaration User Session :=
  Declaration.ofName "gamemode"
    |>.argument (.ofBuiltin "mode"
      (.choice ["survival", "creative", "adventure", "spectator"] false))
    |>.argument (Parameter.ofBuiltin "target" (.word none none)).asOptional
    |>.withDescription "Change game mode"
    |>.withAction fun ctx s =>
      let target := (filledText? ctx "target").getD ctx.principal.name
      s.write ("Set " ++ target ++ "'s game mode to " ++ textOf ctx "mode")

/-- Sets the difficulty. -/
def difficulty : Declaration User Session :=
  Declaration.ofName "difficulty"
    |>.argument ((Parameter.ofBuiltin "level"
      (.choice ["peaceful", "easy", "normal", "hard"] false)).withDefault "normal")
    |>.withDescription "Set the difficulty"
    |>.withAction fun ctx s => s.write ("Difficulty set to " ++ textOf ctx "level")

/-- Adds a member of 3 to 16 characters to the team. -/
def teamAdd : Declaration User Session :=
  Declaration.ofPath "team add"
    |>.argument (.ofBuiltin "name" (.word (some 3) (some 16)))
    |>.withDescription "Add a team member"
    |>.withAction fun ctx s => s.join (textOf ctx "name")

/-- Removes a member from the team. -/
def teamRemove : Declaration User Session :=
  Declaration.ofPath "team remove"
    |>.argument (.ofBuiltin "name" (.word none none))
    |>.withDescription "Remove a team member"
    |>.withAction fun ctx s => s.leave (textOf ctx "name")

/-- Lists the team. -/
def teamList : Declaration User Session :=
  Declaration.ofPath "team list"
    |>.withDescription "List team members"
    |>.withAction fun _ s => s.list

/-- Bans a player for some days, with or without a reason. -/
def adminBan : Declaration User Session :=
  Declaration.ofPath "admin ban"
    |>.argument (.ofBuiltin "player" (.word none none))
    |>.argument (((Parameter.ofBuiltin "days" (.integer (some 1) (some 365))).asFlag.withDefault
      "1").withDescription "Ban length in days")
    |>.argument (Parameter.ofBuiltin "reason" (.word none none)).asFlag.asOptional
    |>.argument (.switch "silent")
    |>.withRequirement User.admin
    |>.withDescription "Ban a player"
    |>.withAction fun ctx s =>
      let days := (ctx.bindings.integer? "days").getD 1
      let line := "Banned " ++ textOf ctx "player" ++ " for " ++ toString days ++ " day(s)"
      if isOn ctx "silent" then s
      else match filledText? ctx "reason" with
        | some reason => s.write (line ++ ": " ++ reason)
        | none => s.write line

/-- Switches debug mode. -/
def adminDebug : Declaration User Session :=
  Declaration.ofPath "admin debug"
    |>.argument (.ofBuiltin "enabled" .truth)
    |>.withRequirement User.admin
    |>.asSecret
    |>.withDescription "Toggle debug mode"
    |>.withAction fun ctx s =>
      s.write ("Debug mode " ++ if isOn ctx "enabled" then "on" else "off")

/-- A text followed by as many spaces as it lacks to a width. -/
def padRight (width : Nat) (s : String) : String :=
  s ++ String.ofList (List.replicate (width - s.length) ' ')

/-- The line that lists a command: its usage and, in a second column, its description. -/
def helpLine (t : Tree User Session) (c : Command User Session) : String :=
  match c.description with
  | some description => padRight 40 (t.usage c) ++ " " ++ description
  | none => t.usage c

/-- Lists the commands of a tree that are not secret and that the user may run. -/
def help (t : Tree User Session) : Declaration User Session :=
  let listed := (t.commands.toList.filter (!·.secret)).map fun c => (c.permission, helpLine t c)
  Declaration.ofName "help"
    |>.withDescription "List available commands"
    |>.withAction fun ctx s =>
      listed.foldl
        (fun s (permission, line) => if permission.allows ctx.principal then s.write line else s) s

/-- The declarations that stand on their own, in order. -/
def declarations : List (Declaration User Session) :=
  [echo, give, gamemode, difficulty, teamAdd, teamRemove, teamList, adminBan, adminDebug]

/-- Registers declarations in order until one is refused. -/
def registerAll : List (Declaration User Session) → Growth User Session Unit
  | [] => pure ()
  | d :: ds => do
    discard (Growth.register d)
    registerAll ds

/-- Registers the whole command set. Help comes last and lists everything before it. -/
def registerCommands : Growth User Session Unit := do
  registerAll declarations
  discard (Growth.register (help (← get)))

/-- The tree of the shell's commands under some settings. -/
def commandTree (settings : Settings) : Except Refusal (Tree User Session) :=
  match Tree.ofSettings settings with
  | .error e => .error e
  | .ok t =>
    match registerCommands.run t with
    | .ok () t => .ok t
    | .error e _ => .error e

end CommandLine.Shell
