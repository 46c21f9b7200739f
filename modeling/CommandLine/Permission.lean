/-!
# Permissions

A test that decides whether a principal may use a node or a command. Permissions of commands that
share a node are joined: the node is open to whom any of them is open.

* `allows_or` — a joined permission allows exactly the union.
-/

set_option autoImplicit false

namespace CommandLine

/-- Who may use something: everyone, or those who pass a test. -/
inductive Permission (α : Type) where
  | always
  | requires (test : α → Bool)
deriving Inhabited

namespace Permission

variable {α : Type}

/-- Whether everyone is allowed without a test. -/
def isAlways : Permission α → Bool
  | always => true
  | requires _ => false

/-- Whether a principal is allowed. -/
def allows : Permission α → α → Bool
  | always, _ => true
  | requires test, principal => test principal

/-- The permission that allows whom either side allows. -/
def or : Permission α → Permission α → Permission α
  | always, _ => always
  | _, always => always
  | requires left, requires right => requires fun principal => left principal || right principal

/-- How a permission shows itself to a developer; the test itself stays opaque. -/
def inspect (p : Permission α) : String :=
  if p.isAlways then "CommandPermission(always)" else "CommandPermission(predicate)"

/-- A joined permission allows exactly the union. -/
@[simp] theorem allows_or (p q : Permission α) (principal : α) :
    (p.or q).allows principal = (p.allows principal || q.allows principal) := by
  cases p <;> cases q <;> simp [or, allows]

end Permission

end CommandLine
