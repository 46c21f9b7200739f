import CommandLine.Declaration
import CommandLine.Parameter.Arrangement
import CommandLine.Tree.Basic

/-!
# Growing a command tree

A command is inserted as a path from the root. Its flag section is attached at every node of the
path after which only optional arguments are left: up to the threshold of the settings every order
of the flags has its own path, beyond it the optional flags form a chain in which each one also
follows every earlier one.

A refused insertion stops where it is; what was attached before stays in the tree.
-/

set_option autoImplicit false

namespace CommandLine

/-- A step of growth: it may be refused, and what it changed before stays. -/
abbrev Growth (α σ : Type) := EStateM Refusal (Tree α σ)

/-- How the flags of a command are laid out below a node. -/
inductive FlagPlan (α : Type) where
  /-- Each order has its own path. -/
  | orders (paths : List (List (Parameter α)))
  /-- The required flags in order, then the optional ones, each after any of those before it. -/
  | chain (required optionals : List (Parameter α))

variable {α σ : Type}

/-- The plan for some flags under a threshold. -/
def FlagPlan.ofFlags (threshold : Nat) (flags : List (Parameter α)) : FlagPlan α :=
  if threshold < flags.length then .chain (Parameter.required flags) (Parameter.optionals flags)
  else .orders (Parameter.flagOrders flags)

namespace Tree

/-- Changes the node at an index. -/
def modifyNode (t : Tree α σ) (id : NodeIndex) (f : Tree.Node α σ → Tree.Node α σ) :
    Tree α σ :=
  { t with nodes := t.nodes.modify id f }

/-- Adds a node without a parent. -/
def pushNode (t : Tree α σ) (node : Tree.Node α σ) : Tree α σ :=
  { t with nodes := t.nodes.push node }

/-- Opens a node to whom a permission allows as well. -/
def joinPermission (t : Tree α σ) (id : NodeIndex) (permission : Permission α) :
    Tree α σ :=
  t.modifyNode id fun n => { n with permission := n.permission.or permission }

/-- Adds a literal child. -/
def addLiteral (t : Tree α σ) (parent : NodeIndex) (name : String)
    (permission : Permission α) : Tree α σ :=
  let id := t.nodes.size
  (t.pushNode { label := .literal name, permission }).modifyNode parent fun n =>
    { n with literals := n.literals ++ [(name, id)] }

/-- Adds a flag child at the end of the flags. -/
def addFlag (t : Tree α σ) (parent : NodeIndex) (p : Parameter α) : Tree α σ :=
  let id := t.nodes.size
  (t.pushNode { label := .parameter p, permission := p.permission }).modifyNode parent fun n =>
    { n with flags := n.flags ++ [id] }

/-- Puts a new argument in front of the first sibling that has to be tried after it. -/
def placeArgument (p : Parameter α) (id : NodeIndex) :
    List (NodeIndex × Parameter α) → List NodeIndex
  | [] => [id]
  | (sibling, q) :: later =>
    if q.order p = .gt then id :: sibling :: later.map Prod.fst
    else sibling :: placeArgument p id later

/-- Adds an argument child at its place among the arguments. -/
def addArgument (t : Tree α σ) (parent : NodeIndex) (p : Parameter α) : Tree α σ :=
  let id := t.nodes.size
  let placed := placeArgument p id (t.argumentsOf parent)
  (t.pushNode { label := .parameter p, permission := p.permission }).modifyNode parent fun n =>
    { n with arguments := placed }

/-- Makes an existing flag node a child of another node too, unless its long name is taken there. -/
def shareFlag (child : NodeIndex) (t : Tree α σ) (parent : NodeIndex) : Tree α σ :=
  match (t.node child).parameter? with
  | none => t
  | some p =>
    if (t.flagNamed? parent p.longName).isSome then t
    else t.modifyNode parent fun n => { n with flags := n.flags ++ [child] }

/-- Marks a node as a place where a line of the command may end. A command that is already there is
replaced only by one with an action. -/
def bindCommand (t : Tree α σ) (id : NodeIndex) (c : Command α σ) : Tree α σ :=
  t.modifyNode id fun n =>
    if n.command.isNone || c.action.isSome then { n with command := some c } else n

end Tree

namespace Growth

open CommandLine.Tree

/-- The literal child of a node, created if need be. -/
def ensureLiteral (parent : NodeIndex) (name : String) (permission : Permission α) :
    Growth α σ NodeIndex := fun t =>
  match (t.node parent).literal? name with
  | some existing => .ok existing (t.joinPermission existing permission)
  | none =>
    if (t.argumentsOf parent).any fun child => child.2.name = name then .error (.conflict name) t
    else
      let id := t.nodes.size
      .ok id (t.addLiteral parent name permission)

/-- The flag child of a node, created if need be. A long name means one shape below a node. -/
def ensureFlag (parent : NodeIndex) (p : Parameter α) : Growth α σ NodeIndex := fun t =>
  match t.flagNamed? parent p.longName with
  | some (existing, q) =>
    if q.interchangeable p then .ok existing (t.joinPermission existing p.permission)
    else .error (.conflict p.longName) t
  | none =>
    let id := t.nodes.size
    .ok id (t.addFlag parent p)

/-- The argument child of a node, created if need be. A name may come with several shapes. -/
def ensureArgument (parent : NodeIndex) (p : Parameter α) : Growth α σ NodeIndex := fun t =>
  if ((t.node parent).literal? p.name).isSome then .error (.conflict p.name) t
  else
    let same (child : NodeIndex × Parameter α) : Bool :=
      child.2.name = p.name && child.2.interchangeable p
    match (t.argumentsOf parent).find? same with
    | some (existing, _) => .ok existing (t.joinPermission existing p.permission)
    | none =>
      let id := t.nodes.size
      .ok id (t.addArgument parent p)

/-- The child of a node that stands for a parameter. -/
def ensureParameter (parent : NodeIndex) (p : Parameter α) : Growth α σ NodeIndex :=
  if p.isNamed then ensureFlag parent p else ensureArgument parent p

/-- The child of a node that stands for a step of a command. -/
def ensureStep (c : Command α σ) (parent : NodeIndex) : Step α → Growth α σ NodeIndex
  | .literal name => ensureLiteral parent name c.permission
  | .parameter p => ensureParameter parent p

/-- Marks a node as an end of the command. -/
def markEnd (c : Command α σ) (id : NodeIndex) : Growth α σ Unit :=
  modify fun t => t.bindCommand id c

/-- Marks a node as an end of the command where only optional flags are left. -/
def markEndBefore (c : Command α σ) (id : NodeIndex) (left : List (Parameter α)) :
    Growth α σ Unit :=
  if left.all Parameter.isOptional then markEnd c id else pure ()

/-- Attaches flags one below the other and answers the last node. -/
def growRow (parent : NodeIndex) : List (Parameter α) → Growth α σ NodeIndex
  | [] => pure parent
  | p :: ps => do
    let child ← ensureParameter parent p
    growRow child ps

/-- Attaches one order of the flags. The line may end wherever only optional flags are left. -/
def growOrder (c : Command α σ) (parent : NodeIndex) : List (Parameter α) → Growth α σ Unit
  | [] => markEnd c parent
  | p :: ps => do
    markEndBefore c parent (p :: ps)
    let child ← ensureParameter parent p
    growOrder c child ps

/-- Attaches several orders of the flags, one after the other. -/
def growOrders (c : Command α σ) (parent : NodeIndex) : List (List (Parameter α)) → Growth α σ Unit
  | [] => pure ()
  | order :: orders => do
    growOrder c parent order
    growOrders c parent orders

/-- Attaches the optional flags of a chain below `base` and links them after `earlier` ones. -/
def growChain (c : Command α σ) (base : NodeIndex) (earlier : List NodeIndex) :
    List (Parameter α) → Growth α σ Unit
  | [] => pure ()
  | p :: ps => do
    let child ← ensureParameter base p
    markEnd c child
    modify fun t => earlier.foldl (shareFlag child) t
    growChain c base (earlier ++ [child]) ps

/-- Attaches the flag section of a command below a node. -/
def growFlags (c : Command α σ) (parent : NodeIndex) : FlagPlan α → Growth α σ Unit
  | .orders paths => growOrders c parent paths
  | .chain required optionals => do
    let base ← growRow parent required
    markEnd c base
    growChain c base [] optionals

/-- Attaches the flag section where only optional arguments are left. -/
def growFlagsBefore (c : Command α σ) (parent : NodeIndex) (plan : FlagPlan α)
    (left : List (Step α)) : Growth α σ Unit :=
  if left.all Step.isOptional then growFlags c parent plan else pure ()

/-- Attaches the steps after the first word, with the flag section wherever only optional arguments
are left. -/
def growPath (c : Command α σ) (plan : FlagPlan α) (parent : NodeIndex) :
    List (Step α) → Growth α σ Unit
  | [] => growFlags c parent plan
  | step :: steps => do
    growFlagsBefore c parent plan (step :: steps)
    let child ← ensureStep c parent step
    growPath c plan child steps

/-- Attaches a command below the root. -/
def growCommand (c : Command α σ) : Growth α σ Unit := do
  let plan := FlagPlan.ofFlags (← get).settings.threshold c.flags
  let first ← ensureLiteral root c.name c.permission
  growPath c plan first c.path

/-- Inserts one command path. -/
def insert (c : Command α σ) : Growth α σ Unit := do
  growCommand c
  modify fun t => { t with commands := t.commands.push c }

/-- Inserts commands in order until one is refused. -/
def insertAll : List (Command α σ) → Growth α σ Unit
  | [] => pure ()
  | c :: cs => do
    insert c
    insertAll cs

/-- Builds a declaration and inserts it under every one of its names. A faulty declaration takes no
id; names inserted before a refusal stay. -/
def register (d : Declaration α σ) : Growth α σ Nat := do
  let id := (← get).nextId
  match d.build id with
  | .error e => throw e
  | .ok commands =>
    modify fun t => { t with nextId := t.nextId + 1 }
    insertAll commands
    pure id

end Growth

end CommandLine
