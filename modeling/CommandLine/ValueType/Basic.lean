import CommandLine.Context
import CommandLine.Cursor.Read

/-!
# Parameter types

A parameter type turns the next piece of input into a value. Beside its parser it has traits that
the tree looks at: the kind of its values, its priority among competing parameters, whether it takes
the rest of the line, what it suggests and what stands in for an omitted value. A type may order
itself against the traits of a competitor in its own way.

A parser only moves the cursor forward; the type carries the proof.
-/

set_option autoImplicit false

namespace CommandLine

/-- What others can see of a parameter type. -/
structure TypeTraits where
  kind : Value.Kind
  /-- Lower priorities are tried first. -/
  priority : Int := 0
  /-- Whether the type takes everything that is left. -/
  greedy : Bool := false
  /-- What completion offers when a parameter has no provider of its own. -/
  suggestions : List String := []
  /-- The value of an omitted optional parameter without a default. -/
  zero : Option Value := none

/-- Whether a value can stand in for another one's place in the tree: same kind, same priority and
the same appetite. -/
def TypeTraits.interchangeable (a b : TypeTraits) : Bool :=
  a.kind = b.kind && a.priority = b.priority && a.greedy = b.greedy

/-- A typed parser with its traits. -/
structure ValueType (α : Type) where
  traits : TypeTraits
  /-- Reads one value at the cursor. -/
  parse : Context α → Cursor → Reading Value
  /-- The order of this type against a competitor. -/
  compareTo : TypeTraits → Ordering := fun other => compare traits.priority other.priority
  /-- Parsing only moves forward. -/
  parse_reached : ∀ (ctx : Context α) (c : Cursor), c.Reaches (parse ctx c).2

end CommandLine
