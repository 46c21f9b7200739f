import CommandLine.Bindings
import CommandLine.Cursor.Basic

/-!
# Contexts

Everything that is known while one line is being resolved: who acts, the input and the values found
so far. A context belongs to one call and is never shared.
-/

set_option autoImplicit false

namespace CommandLine

open Text

/-- Who acts, on which input, with which values. -/
structure Context (α : Type) where
  principal : α
  input : Cursor
  bindings : Bindings := .empty

namespace Context

variable {α : Type}

/-- The context at the start of a line. -/
def ofLine (principal : α) (line : String) : Context α := ⟨principal, Cursor.ofString line, .empty⟩

/-- The context with one more value. -/
def bind (ctx : Context α) (name : String) (value : Value) : Context α :=
  { ctx with bindings := ctx.bindings.insert name value }

/-- The context without the values found after the first `count`. -/
def truncate (ctx : Context α) (count : Nat) : Context α :=
  { ctx with bindings := ctx.bindings.truncate count }

/-- Cutting the values undoes a value given to a name that is not in front of the cut. -/
theorem truncate_bind {ctx : Context α} {name : String} {value : Value} {front back : List String}
    (h : ctx.bindings.keys = front ++ back) (hname : name ∉ front) :
    (ctx.bind name value).truncate front.length = ctx.truncate front.length := by
  simp only [truncate, bind, Bindings.truncate_insert h hname]

theorem truncate_truncate (ctx : Context α) (i j : Nat) :
    (ctx.truncate i).truncate j = ctx.truncate (min j i) := by
  simp only [truncate, Bindings.truncate_truncate]

theorem truncate_size (ctx : Context α) : ctx.truncate ctx.bindings.size = ctx := by
  simp only [truncate, Bindings.truncate_size]

/-- The context for developers, with the usage line of the command it resolved to, if any. -/
def inspect (ctx : Context α) (usage : Option String) : String :=
  record "ExecutionContext"
    [("input", quoted ctx.input.line),
      ("values", braced (ctx.bindings.entries.map fun e => quoted e.1 ++ ": " ++ e.2.inspect)),
      ("command", optional (usage.map quoted))] false

end Context

end CommandLine
