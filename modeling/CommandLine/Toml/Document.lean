/-!
# Configuration documents

A document holds scalars and tables at paths of keys. A table is opened by its own header, lies on
the way of another table's header, or is opened by a dotted key. No path is given two values, a
value is no table, a header opens its table once, and a dotted key adds only to a table that a
dotted key has opened.

* `entryAt?_put_self`, `entryAt?_put_of_ne` — an addition changes one path and no other.
-/

set_option autoImplicit false

namespace CommandLine.Toml

/-- A value that holds no other values. -/
inductive Scalar where
  | text (s : String)
  | integer (n : Int)
  | truth (b : Bool)
deriving DecidableEq, Repr

/-- What opened a table. -/
inductive Opening where
  /-- The header of a table below it. -/
  | passage
  /-- A dotted key. -/
  | dottedKey
  /-- Its own header. -/
  | header
deriving DecidableEq, Repr

/-- What stands at a path. -/
inductive Entry where
  | scalar (s : Scalar)
  | table (opening : Opening)
deriving DecidableEq, Repr

/-- The keys from the root of a document to a value or a table. -/
abbrev Path := List String

/-- Scalars and tables by path. The root is a table without an entry. -/
structure Document where
  entries : List (Path × Entry) := []
deriving Inhabited

namespace Document

/-- What stands at a path. -/
def entryAt? (d : Document) (path : Path) : Option Entry :=
  (d.entries.find? fun entry => entry.1 = path).map Prod.snd

/-- The document with an entry at a path, in place of the one that stood there. -/
def put (d : Document) (path : Path) (entry : Entry) : Document :=
  ⟨(path, entry) :: d.entries.filter fun other => other.1 ≠ path⟩

/-- The keys of what stands right below a path. -/
def keysBelow (d : Document) (path : Path) : List String :=
  d.entries.filterMap fun entry =>
    if entry.1.dropLast = path then entry.1.getLast? else none

/-- The key of the one thing below a path, if that is an empty table. -/
def loneTable? (d : Document) (path : Path) : Option String :=
  match d.keysBelow path with
  | [key] =>
    match d.entryAt? (path ++ [key]), d.keysBelow (path ++ [key]) with
    | some (.table _), [] => some key
    | _, _ => none
  | _ => none

/-- The paths of the tables between a table and what a key below it names. -/
def between (table : Path) : Path → List Path
  | [] | [_] => []
  | key :: keys => (table ++ [key]) :: between (table ++ [key]) keys

/-- Goes through a table on the way to another entry, and opens it if need be. A dotted key does not
go through a table that has a header. -/
def pass? (opening : Opening) (d : Document) (path : Path) : Option Document :=
  match d.entryAt? path with
  | none => some (d.put path (.table opening))
  | some (.table .header) => if opening = .dottedKey then none else some d
  | some (.table _) => some d
  | some (.scalar _) => none

/-- Whether a dotted key may add to the last of the tables that it went through: the key opened it,
or another dotted key did. -/
def mayAdd (d : Document) (passed : List Path) : Bool :=
  passed.getLast?.all fun path => d.entryAt? path = some (.table .dottedKey)

/-- Gives the scalar of a key below a table. -/
def insert? (d : Document) (table key : Path) (scalar : Scalar) : Option Document := do
  let passed := between table key
  let d ← passed.foldlM (pass? .dottedKey) d
  if d.mayAdd passed && (d.entryAt? (table ++ key)).isNone then
    d.put (table ++ key) (.scalar scalar)
  else none

/-- Opens a table by its header. -/
def open? (d : Document) (path : Path) : Option Document := do
  let d ← (between [] path).foldlM (pass? .passage) d
  match d.entryAt? path with
  | none | some (.table .passage) => d.put path (.table .header)
  | some _ => none

theorem entryAt?_put_self (d : Document) (path : Path) (entry : Entry) :
    (d.put path entry).entryAt? path = some entry := by
  simp [put, entryAt?]

theorem entryAt?_put_of_ne (d : Document) {path other : Path} (entry : Entry) (hne : other ≠ path) :
    (d.put path entry).entryAt? other = d.entryAt? other := by
  have hfilter : d.entries.find? (fun e => e.1 = other) =
      (d.entries.filter fun e => e.1 ≠ path).find? fun e => e.1 = other := by
    induction d.entries with
    | nil => rfl
    | cons e es ih =>
      by_cases he : e.1 = other
      · simp [he, hne]
      · by_cases hp : e.1 = path <;> simp [he, hp, ih, hne.symm]
  simp [put, entryAt?, hne.symm, hfilter]

end Document

end CommandLine.Toml
