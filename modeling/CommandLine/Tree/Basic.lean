import CommandLine.Command
import CommandLine.Settings

/-!
# Command trees

Commands that start the same way share nodes: literals by name, arguments by name and shape, flags
by long name. Nodes stand in one array and refer to each other by index, so that one flag node can
have several parents. A node that carries a command marks a place where the input may end.

The root is node 0. Reading an index outside the array answers a node without children.
-/

set_option autoImplicit false

namespace CommandLine

/-- The index of a node in its tree. -/
abbrev NodeIndex := Nat

/-- What a node stands for. -/
inductive Tree.Label (α : Type) where
  | root
  | literal (name : String)
  | parameter (p : Parameter α)

/-- A node with its children, in the order in which they are tried. -/
structure Tree.Node (α σ : Type) where
  label : Tree.Label α
  permission : Permission α := .always
  /-- Literal children by name, in order of first insertion. -/
  literals : List (String × NodeIndex) := []
  /-- Flag and switch children. -/
  flags : List NodeIndex := []
  /-- Argument children, in the order in which they are tried. -/
  arguments : List NodeIndex := []
  /-- The command to which a line that ends here resolves. -/
  command : Option (Command α σ) := none

namespace Tree.Node

variable {α σ : Type}

/-- The name by which rejections mention a node. The root has none. -/
def name (n : Tree.Node α σ) : String :=
  match n.label with
  | .root => ""
  | .literal name => name
  | .parameter p => p.name

/-- Whether a node is the root. -/
def isRoot (n : Tree.Node α σ) : Bool :=
  match n.label with
  | .root => true
  | _ => false

/-- The parameter that a node stands for. -/
def parameter? (n : Tree.Node α σ) : Option (Parameter α) :=
  match n.label with
  | .parameter p => some p
  | _ => none

/-- The literal child with a name. -/
def literal? (n : Tree.Node α σ) (word : String) : Option NodeIndex :=
  (n.literals.find? fun child => child.1 = word).map Prod.snd

/-- The names of the literal children, in order. -/
def literalNames (n : Tree.Node α σ) : List String := n.literals.map Prod.fst

end Tree.Node

/-- What runs after the action of a dispatched command. -/
abbrev Hook (α σ : Type) := Command α σ → Context α → σ → σ

/-- Commands merged into one tree. -/
structure Tree (α σ : Type) where
  nodes : Array (Tree.Node α σ)
  /-- The inserted commands in order, one per name. -/
  commands : Array (Command α σ)
  settings : Settings
  hooks : List (Hook α σ)
  /-- The id of the next declaration. -/
  nextId : Nat

namespace Tree

variable {α σ : Type}

/-- The index of the root. -/
def root : NodeIndex := 0

/-- A tree without commands. -/
def empty (settings : Settings) : Tree α σ :=
  { nodes := #[{ label := .root }], commands := #[], settings, hooks := [], nextId := 0 }

/-- A tree without commands, if the settings are usable. -/
def ofSettings (settings : Settings) : Except Refusal (Tree α σ) :=
  match settings.validate with
  | .ok () => .ok (empty settings)
  | .error e => .error e

/-- The node at an index. -/
def node (t : Tree α σ) (id : NodeIndex) : Tree.Node α σ := t.nodes[id]?.getD { label := .root }

/-- The usage line of a command with the tree's prefixes. -/
def usage (t : Tree α σ) (c : Command α σ) : String :=
  c.usageWith t.settings.longPrefix t.settings.shortPrefix

/-- The tree with one more hook, run after the others. -/
def withHook (t : Tree α σ) (hook : Hook α σ) : Tree α σ :=
  { t with hooks := t.hooks ++ [hook] }

/-- The parameters at some nodes, with the index of each. -/
def parametersAt (t : Tree α σ) (ids : List NodeIndex) : List (NodeIndex × Parameter α) :=
  ids.filterMap fun id => (t.node id).parameter?.map fun p => (id, p)

/-- The flag children of a node. -/
def flagsOf (t : Tree α σ) (id : NodeIndex) : List (NodeIndex × Parameter α) :=
  t.parametersAt (t.node id).flags

/-- The argument children of a node. -/
def argumentsOf (t : Tree α σ) (id : NodeIndex) : List (NodeIndex × Parameter α) :=
  t.parametersAt (t.node id).arguments

/-- The flag child with a long name. -/
def flagNamed? (t : Tree α σ) (id : NodeIndex) (longName : String) :
    Option (NodeIndex × Parameter α) :=
  (t.flagsOf id).find? fun child => child.2.longName = longName

/-- The flag child with a shorthand. -/
def flagShort? (t : Tree α σ) (id : NodeIndex) (c : Char) : Option (NodeIndex × Parameter α) :=
  (t.flagsOf id).find? fun child => child.2.shorthand? = some c

/-- The tree for developers. -/
def inspect (t : Tree α σ) : String :=
  Text.record "CommandTree"
    [("commands", Text.bracketed (t.commands.toList.map Command.inspect)),
      ("nodes", toString t.nodes.size), ("settings", t.settings.inspect)] true

end Tree

end CommandLine
