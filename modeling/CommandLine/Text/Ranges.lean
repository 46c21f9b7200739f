/-!
# Sets of code points

A property of characters is kept as the ascending list of its ranges, both ends included. Membership
stops at the first range that starts beyond the character, so early characters are decided early.

* `has_eq_any` — in an ascending list the early stop loses nothing.
-/

set_option autoImplicit false

namespace CommandLine.Text

/-- Ascending ranges of code points, each with its first and last member. -/
abbrev Ranges := List (Nat × Nat)

/-- Whether a code point lies in one of the ranges, reading them in ascending order. -/
def Ranges.has : Ranges → Nat → Bool
  | [], _ => false
  | (first, last) :: later, n =>
    if n < first then false else n ≤ last || Ranges.has later n

/-- Whether a character lies in one of the ranges. -/
def Ranges.contains (ranges : Ranges) (c : Char) : Bool := ranges.has c.toNat

/-- Whether ranges begin at `least` or later and ascend without touching each other. -/
def Ranges.ascendsFrom (least : Nat) : Ranges → Bool
  | [] => true
  | (first, last) :: later =>
    least ≤ first && first ≤ last && Ranges.ascendsFrom (last + 2) later

theorem Ranges.any_eq_false_of_lt {ranges : Ranges} {least n : Nat}
    (h : ranges.ascendsFrom least = true) (hlt : n < least) :
    (ranges.any fun range => range.1 ≤ n && n ≤ range.2) = false := by
  induction ranges generalizing least with
  | nil => rfl
  | cons range later ih =>
    obtain ⟨first, last⟩ := range
    simp only [Ranges.ascendsFrom, Bool.and_eq_true, decide_eq_true_eq] at h
    have hfirst : ¬ first ≤ n := by omega
    simp [hfirst, ih h.2 (by omega)]

/-- In an ascending list the early stop loses nothing. -/
theorem Ranges.has_eq_any {ranges : Ranges} {least : Nat} (n : Nat)
    (h : ranges.ascendsFrom least = true) :
    ranges.has n = ranges.any fun range => range.1 ≤ n && n ≤ range.2 := by
  induction ranges generalizing least with
  | nil => rfl
  | cons range later ih =>
    obtain ⟨first, last⟩ := range
    simp only [Ranges.ascendsFrom, Bool.and_eq_true, decide_eq_true_eq] at h
    by_cases hn : n < first
    · have hlater := Ranges.any_eq_false_of_lt h.2 (n := n) (by omega)
      have hfirst : ¬ first ≤ n := by omega
      simp [Ranges.has, hn, hfirst, hlater]
    · have hfirst : first ≤ n := by omega
      simp [Ranges.has, hn, hfirst, ih h.2]

end CommandLine.Text
