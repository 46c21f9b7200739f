import CommandLine.Value

/-!
# Bindings

The values resolved so far, by name, in the order in which the names were first given. Giving a name
again replaces its value and keeps its place.

* `get?_insert_self`, `get?_insert_of_ne` — an insertion changes one name and no other;
* `keys_insert_of_contains`, `keys_insert_of_not_contains` — a known name keeps its place, a new one
  comes last;
* `truncate_insert` — cutting the values undoes an insertion behind the cut.
-/

set_option autoImplicit false

namespace CommandLine

/-- Values by name, in order of first insertion. -/
structure Bindings where
  entries : List (String × Value) := []
deriving DecidableEq, Inhabited

namespace Bindings

/-- No values. -/
def empty : Bindings := ⟨[]⟩

/-- The number of names. -/
def size (b : Bindings) : Nat := b.entries.length

/-- The names, in order. -/
def keys (b : Bindings) : List String := b.entries.map Prod.fst

/-- The value of a name. -/
def get? (b : Bindings) (name : String) : Option Value :=
  (b.entries.find? fun entry => entry.1 = name).map Prod.snd

/-- Whether a name has a value. -/
def contains (b : Bindings) (name : String) : Bool := b.entries.any fun entry => entry.1 = name

/-- The entries with one name's value replaced, or added at the end. -/
def insertEntry (name : String) (value : Value) : List (String × Value) → List (String × Value)
  | [] => [(name, value)]
  | entry :: entries =>
    if entry.1 = name then (name, value) :: entries
    else entry :: insertEntry name value entries

/-- Gives a name its value. -/
def insert (b : Bindings) (name : String) (value : Value) : Bindings :=
  ⟨insertEntry name value b.entries⟩

/-- The values given first, up to a number of names. -/
def truncate (b : Bindings) (count : Nat) : Bindings := ⟨b.entries.take count⟩

/-- The text bound to a name. -/
def text? (b : Bindings) (name : String) : Option String := b.get? name >>= Value.asText?

/-- The whole number bound to a name. -/
def integer? (b : Bindings) (name : String) : Option Int := b.get? name >>= Value.asInteger?

/-- The decimal number bound to a name; whole numbers widen. -/
def decimal? (b : Bindings) (name : String) : Option Float := b.get? name >>= Value.asDecimal?

/-- The truth value bound to a name. -/
def truth? (b : Bindings) (name : String) : Option Bool := b.get? name >>= Value.asTruth?

/-- A name that is given has its new value. -/
theorem get?_insert_self (b : Bindings) (name : String) (value : Value) :
    (b.insert name value).get? name = some value := by
  obtain ⟨entries⟩ := b
  simp only [insert, get?]
  induction entries with
  | nil => simp [insertEntry]
  | cons entry entries ih =>
    by_cases h : entry.1 = name
    · simp [insertEntry, h]
    · simpa [insertEntry, h] using ih

/-- And every other name has the value that it had. -/
theorem get?_insert_of_ne (b : Bindings) {name other : String} (value : Value)
    (hne : other ≠ name) : (b.insert name value).get? other = b.get? other := by
  obtain ⟨entries⟩ := b
  simp only [insert, get?]
  induction entries with
  | nil => simp [insertEntry, hne.symm]
  | cons entry entries ih =>
    by_cases h : entry.1 = name
    · simp [insertEntry, h, hne.symm]
    · by_cases ho : entry.1 = other
      · subst ho
        simp [insertEntry, h]
      · simpa [insertEntry, h, ho] using ih

/-- A known name keeps its place. -/
theorem keys_insert_of_contains (b : Bindings) {name : String} (value : Value)
    (hmem : b.contains name = true) : (b.insert name value).keys = b.keys := by
  obtain ⟨entries⟩ := b
  simp only [insert, keys, contains] at *
  induction entries with
  | nil => simp at hmem
  | cons entry entries ih =>
    by_cases h : entry.1 = name
    · simp [insertEntry, h]
    · simp only [List.any_cons, h, decide_false, Bool.false_or] at hmem
      simp [insertEntry, h, ih hmem]

/-- A new name comes last. -/
theorem keys_insert_of_not_contains (b : Bindings) {name : String} (value : Value)
    (hnew : b.contains name = false) : (b.insert name value).keys = b.keys ++ [name] := by
  obtain ⟨entries⟩ := b
  simp only [insert, keys, contains] at *
  induction entries with
  | nil => rfl
  | cons entry entries ih =>
    simp only [List.any_cons, Bool.or_eq_false_iff, decide_eq_false_iff_not] at hnew
    simp [insertEntry, hnew.1, ih hnew.2]

/-- A name has a value if it is one of the names. -/
theorem contains_iff {b : Bindings} {name : String} : b.contains name = true ↔ name ∈ b.keys := by
  simp [contains, keys]

/-- So it is if a value is found for it. -/
theorem isSome_get? (b : Bindings) (name : String) : (b.get? name).isSome = b.contains name := by
  rw [Bool.eq_iff_iff, get?, Option.isSome_map, contains, List.find?_isSome, List.any_eq_true]

/-- Names at the front stay there. -/
theorem exists_keys_insert {b : Bindings} {front back : List String} (name : String)
    (value : Value) (h : b.keys = front ++ back) :
    ∃ back', (b.insert name value).keys = front ++ back' := by
  by_cases hmem : b.contains name = true
  · exact ⟨back, by rw [keys_insert_of_contains b value hmem, h]⟩
  · refine ⟨back ++ [name], ?_⟩
    rw [keys_insert_of_not_contains b value (by simpa using hmem), h, List.append_assoc]

/-- A name that is not in front is given behind. -/
theorem insertEntry_append {name : String} {value : Value} {front back : List (String × Value)}
    (h : name ∉ front.map Prod.fst) :
    insertEntry name value (front ++ back) = front ++ insertEntry name value back := by
  induction front with
  | nil => rfl
  | cons entry front ih =>
    rw [List.map_cons, List.mem_cons, not_or] at h
    rw [List.cons_append, insertEntry, if_neg (Ne.symm h.1), ih h.2, List.cons_append]

/-- Cutting the values undoes an insertion of a name that is not in front of the cut. -/
theorem truncate_insert {b : Bindings} {name : String} {value : Value} {front back : List String}
    (h : b.keys = front ++ back) (hname : name ∉ front) :
    (b.insert name value).truncate front.length = b.truncate front.length := by
  obtain ⟨first, last, hentries, hfirst, _⟩ := List.map_eq_append_iff.mp h
  have hlen : first.length = front.length := by rw [← hfirst, List.length_map]
  rw [← hfirst] at hname
  unfold truncate insert
  rw [hentries, insertEntry_append hname, ← hlen, List.take_left, List.take_left]

/-- Cutting twice leaves what the shorter cut leaves. -/
theorem truncate_truncate (b : Bindings) (i j : Nat) :
    (b.truncate i).truncate j = b.truncate (min j i) := by
  simp only [truncate, List.take_take]

/-- Nothing is cut behind the last name. -/
theorem truncate_size (b : Bindings) : b.truncate b.size = b := by
  simp only [truncate, size, List.take_length]

/-- There are as many names as values. -/
theorem length_keys (b : Bindings) : b.keys.length = b.size := by
  simp only [keys, size, List.length_map]

end Bindings

end CommandLine
