import CommandLine.Shell.Config
import CommandLine.Shell.Message
import CommandLine.Shell.Session
import CommandLine.Tree.Completion
import CommandLine.Tree.Dispatch

/-!
# The shell

The shell answers one line at a time for one user. A line that starts with a question mark asks for
completions of what follows it, a blank line is passed over, and any other line is dispatched. After
each line the output is empty again.
-/

set_option autoImplicit false

namespace CommandLine

/-- A tree of commands, the user they act for and the state they act on. -/
structure Shell where
  tree : Tree Shell.User Shell.Session
  user : Shell.User
  prompt : String
  session : Shell.Session := {}

namespace Shell

/-- A shell at its start. -/
def ofConfig (config : Config) (user : User) : Except SetupError Shell :=
  match commandTree config.dispatcher with
  | .ok tree => .ok { tree, user, prompt := config.prompt }
  | .error e => .error (.unregistered e)

/-- A line without the line ends behind it. -/
def chomp (line : List Char) : List Char :=
  (line.reverse.dropWhile fun c => c = '\r' || c = '\n').reverse

/-- Dispatches a line. The answer is what the command wrote, or the message of the rejection. -/
def dispatchLine (shell : Shell) (line : String) : List String × Shell :=
  let (result, session) := shell.tree.dispatch shell.user line shell.session
  let (written, session) := session.drain
  let shell := { shell with session }
  match result with
  | .ok _ => (written, shell)
  | .error f => ([rejectionMessage shell.tree.settings f], shell)

/-- Answers one line. -/
def process (shell : Shell) (line : String) : List String × Shell :=
  match chomp line.toList with
  | '?' :: partialLine =>
    (shell.tree.complete shell.user (String.ofList partialLine), shell)
  | cs => if cs.all Text.isBlank then ([], shell) else shell.dispatchLine (String.ofList cs)

/-- Answers lines in order. -/
def processAll (shell : Shell) : List String → List (List String) × Shell
  | [] => ([], shell)
  | line :: lines =>
    let (answer, shell) := shell.process line
    let (answers, shell) := shell.processAll lines
    (answer :: answers, shell)

end Shell

end CommandLine
