import CommandLine.Parameter.Basic

/-!
# The order of competing parameters

Parameters at one node are tried in an order that their types may have opinions on: a type is asked
how it stands to its competitor, and the competitor is asked where the first one sees no difference.
The second question is meant to make up for one-sided opinions, and does so (`order_eq_swap_iff`).
But two types that would each go first are each put first (`order_eager`), and nothing keeps
opinions from going round in a circle.

So the order is a strict weak order on some parameters (`WeaklyOrdered`) exactly where the opinions
of their types follow a ranking (`Follows`): no type contradicts it, and of two parameters of
different rank at least one has a type that says so. Types that compare priorities, as the built-in
ones do, have one.

* `weaklyOrdered_iff` — where the order is a strict weak order;
* `weaklyOrdered_of_builtin` — the built-in types.
-/

set_option autoImplicit false

namespace CommandLine

namespace Parameter

variable {α : Type} {p q r : Parameter α} {ps : List (Parameter α)} {rank : Parameter α → Int}

/-- What the type of a parameter thinks of a competitor. -/
def opinion (p q : Parameter α) : Ordering := p.type.compareTo q.type.traits

/-- Required parameters are before optional ones; then the first opinion counts that there is. -/
theorem order_eq (p q : Parameter α) :
    p.order q = (compare p.isOptional q.isOptional).then
      ((p.opinion q).then (q.opinion p).swap) := by
  cases hp : p.isOptional <;> cases hq : q.isOptional <;> simp [order, opinion, hp, hq] <;> rfl

/-- The order of two parameters turns round with them unless their types have the same strict
opinion of each other. -/
theorem order_eq_swap_iff (p q : Parameter α) :
    p.order q = (q.order p).swap ↔
      ¬(p.isOptional = q.isOptional ∧ p.opinion q = q.opinion p ∧ p.opinion q ≠ .eq) := by
  rw [order_eq p q, order_eq q p]
  cases p.isOptional <;> cases q.isOptional <;> cases p.opinion q <;> cases q.opinion p <;> decide

/-- The order is a strict weak order on these parameters: it turns round with its arguments, and
both not being greater and being equal are transitive. -/
structure WeaklyOrdered (ps : List (Parameter α)) : Prop where
  swap : ∀ p ∈ ps, ∀ q ∈ ps, p.order q = (q.order p).swap
  not_gt_trans : ∀ p ∈ ps, ∀ q ∈ ps, ∀ r ∈ ps,
    p.order q ≠ .gt → q.order r ≠ .gt → p.order r ≠ .gt
  eq_trans : ∀ p ∈ ps, ∀ q ∈ ps, ∀ r ∈ ps,
    p.order q = .eq → q.order r = .eq → p.order r = .eq

/-! ## Opinions that follow a ranking -/

/-- The opinion that one type has of another follows a ranking: it does not contradict it, and
there is one on either side if the ranks differ. -/
structure Follows (rank : Parameter α → Int) (p q : Parameter α) : Prop where
  agrees : p.opinion q = .eq ∨ p.opinion q = compare (rank p) (rank q)
  told : p.opinion q = .eq → q.opinion p = .eq → rank p = rank q

/-- Two opinions follow a ranking exactly if either way round the first one there is says what the
ranks say. -/
theorem follows_and_follows_iff : Follows rank p q ∧ Follows rank q p ↔
    (p.opinion q).then (q.opinion p).swap = compare (rank p) (rank q) ∧
      (q.opinion p).then (p.opinion q).swap = compare (rank q) (rank p) := by
  have hparts (p q : Parameter α) : Follows rank p q ↔
      (p.opinion q = .eq ∨ p.opinion q = compare (rank p) (rank q)) ∧
        (p.opinion q = .eq → q.opinion p = .eq → compare (rank p) (rank q) = .eq) := by
    rw [Std.compare_eq_iff_eq]
    exact ⟨fun h => ⟨h.agrees, h.told⟩, fun h => ⟨h.1, h.2⟩⟩
  have hswap : compare (rank q) (rank p) = (compare (rank p) (rank q)).swap :=
    Std.OrientedOrd.eq_swap
  rw [hparts p q, hparts q p, hswap]
  generalize compare (rank p) (rank q) = c
  cases p.opinion q <;> cases q.opinion p <;> cases c <;> decide

/-- Where opinions follow a ranking, the order goes by what is optional and then by the ranks. -/
theorem order_of_follows
    (h : p.isOptional = q.isOptional → Follows rank p q ∧ Follows rank q p) :
    p.order q = compareLex (compareOn isOptional) (compareOn rank) p q := by
  rw [order_eq, compareLex, compareOn, compareOn]
  by_cases hsame : p.isOptional = q.isOptional
  · rw [(follows_and_follows_iff.mp (h hsame)).1]
  · cases hp : p.isOptional <;> cases hq : q.isOptional <;> simp_all <;> rfl

/-- So it is a strict weak order. -/
theorem weaklyOrdered_of_follows
    (h : ∀ p ∈ ps, ∀ q ∈ ps, p.isOptional = q.isOptional → Follows rank p q) :
    WeaklyOrdered ps := by
  have horder {p q : Parameter α} (hp : p ∈ ps) (hq : q ∈ ps) :
      p.order q = compareLex (compareOn isOptional) (compareOn rank) p q :=
    order_of_follows fun hsame => ⟨h p hp q hq hsame, h q hq p hp hsame.symm⟩
  refine ⟨fun p hp q hq => ?_, fun p hp q hq r hr => ?_, fun p hp q hq r hr => ?_⟩
  · rw [horder hp hq, horder hq hp]
    exact Std.OrientedCmp.eq_swap
  · rw [horder hp hq, horder hq hr, horder hp hr]
    simp only [Ordering.ne_gt_iff_isLE]
    exact Std.TransCmp.isLE_trans
  · rw [horder hp hq, horder hq hr, horder hp hr]
    exact Std.TransCmp.eq_trans

/-- Types that compare priorities follow them. -/
theorem weaklyOrdered_of_priority
    (h : ∀ p ∈ ps, ∀ q ∈ ps,
      p.opinion q = compare p.type.traits.priority q.type.traits.priority) :
    WeaklyOrdered ps := by
  have hfollows : ∀ p ∈ ps, ∀ q ∈ ps, p.isOptional = q.isOptional →
      Follows (fun r : Parameter α => r.type.traits.priority) p q := fun p hp q hq _ =>
    ⟨.inr (h p hp q hq), fun hpq _ => Std.compare_eq_iff_eq.mp ((h p hp q hq).symm.trans hpq)⟩
  exact weaklyOrdered_of_follows hfollows

/-- The built-in types compare priorities. -/
theorem weaklyOrdered_of_builtin
    (h : ∀ p ∈ ps, ∃ type : BuiltinType, p.type = type.toValueType) : WeaklyOrdered ps := by
  refine weaklyOrdered_of_priority fun p hp q _ => ?_
  obtain ⟨type, htype⟩ := h p hp
  rw [opinion, htype]
  rfl

/-! ## The ranking of a strict weak order -/

/-- The parameters among these that are before another one. -/
def before (ps : List (Parameter α)) (p : Parameter α) : List (Parameter α) :=
  ps.filter fun r => r.order p = .lt

theorem mem_before : r ∈ before ps p ↔ r ∈ ps ∧ r.order p = .lt := by
  simp [before]

namespace WeaklyOrdered

/-- A parameter is not before itself. -/
theorem order_self (h : WeaklyOrdered ps) (hp : p ∈ ps) : p.order p = .eq := by
  have hswap := h.swap p hp p hp
  cases horder : p.order p <;> simp [horder] at hswap ⊢

/-- What is before a parameter is before every one that is not before that parameter. -/
theorem order_eq_lt_of_not_gt (h : WeaklyOrdered ps) (hp : p ∈ ps) (hq : q ∈ ps) (hr : r ∈ ps)
    (hrp : r.order p = .lt) (hpq : p.order q ≠ .gt) : r.order q = .lt := by
  have hpr : p.order r = .gt := by rw [h.swap p hp r hr, hrp]; rfl
  have hrq : r.order q ≠ .gt := h.not_gt_trans r hr p hp q hq (by simp [hrp]) hpq
  cases horder : r.order q with
  | lt => rfl
  | gt => exact absurd horder hrq
  | eq =>
    -- Otherwise the parameter would not be behind what is before it.
    have hqr : q.order r ≠ .gt := by rw [h.swap q hq r hr, horder]; decide
    exact absurd hpr (h.not_gt_trans p hp q hq r hr hpq hqr)

theorem before_sublist (h : WeaklyOrdered ps) (hp : p ∈ ps) (hq : q ∈ ps)
    (hpq : p.order q ≠ .gt) : (before ps p).Sublist (before ps q) := by
  have hfilter : before ps p = (before ps q).filter fun r => r.order p = .lt := by
    rw [before, before, List.filter_filter]
    refine List.filter_congr fun r hr => ?_
    rw [Bool.eq_iff_iff, Bool.and_eq_true, decide_eq_true_eq, decide_eq_true_eq]
    exact ⟨fun hrp => ⟨hrp, h.order_eq_lt_of_not_gt hp hq hr hrp hpq⟩, And.left⟩
  rw [hfilter]
  exact List.filter_sublist

/-- A parameter is itself among those before a greater one. -/
theorem length_before_lt (h : WeaklyOrdered ps) (hp : p ∈ ps) (hq : q ∈ ps)
    (hpq : p.order q = .lt) : (before ps p).length < (before ps q).length := by
  have hsub := h.before_sublist hp hq (by simp [hpq])
  refine Nat.lt_of_le_of_ne hsub.length_le fun hlength => ?_
  have hself : p ∈ before ps p := by
    rw [hsub.eq_of_length hlength]
    exact mem_before.mpr ⟨hp, hpq⟩
  simpa [h.order_self hp] using (mem_before.mp hself).2

/-- A strict weak order goes by how many parameters are before each. -/
theorem order_eq_compare (h : WeaklyOrdered ps) (hp : p ∈ ps) (hq : q ∈ ps) :
    p.order q = compare ((before ps p).length : Int) (before ps q).length := by
  have hswap := h.swap q hq p hp
  cases hpq : p.order q with
  | lt =>
    symm
    rw [Std.compare_eq_lt]
    exact Int.ofNat_lt.mpr (h.length_before_lt hp hq hpq)
  | gt =>
    symm
    rw [Std.compare_eq_gt]
    exact Int.ofNat_lt.mpr (h.length_before_lt hq hp (by rw [hswap, hpq]; rfl))
  | eq =>
    have hqp : q.order p = .eq := by rw [hswap, hpq]; rfl
    have hle := (h.before_sublist hp hq (by simp [hpq])).length_le
    have hge := (h.before_sublist hq hp (by simp [hqp])).length_le
    symm
    rw [Std.compare_eq_iff_eq]
    omega

end WeaklyOrdered

/-- The order is a strict weak order exactly on parameters with a ranking that the opinions of
their types follow, among the required ones and among the optional ones. -/
theorem weaklyOrdered_iff (ps : List (Parameter α)) :
    WeaklyOrdered ps ↔ ∃ rank : Parameter α → Int,
      ∀ p ∈ ps, ∀ q ∈ ps, p.isOptional = q.isOptional → Follows rank p q := by
  refine ⟨fun h => ⟨fun p => (before ps p).length, fun p hp q hq hsame => ?_⟩,
    fun ⟨rank, h⟩ => weaklyOrdered_of_follows h⟩
  have hfirst {p q : Parameter α} (hsame : p.isOptional = q.isOptional) :
      (p.opinion q).then (q.opinion p).swap = p.order q := by
    rw [order_eq, Std.compare_eq_iff_eq.mpr hsame, Ordering.eq_then]
  refine (follows_and_follows_iff.mpr ⟨?_, ?_⟩).1
  · rw [hfirst hsame, h.order_eq_compare hp hq]
  · rw [hfirst hsame.symm, h.order_eq_compare hq hp]

/-- A word whose type goes before every other one. -/
def eager (name : String) : Parameter α :=
  ofType name { (BuiltinType.word none none).toValueType with compareTo := fun _ => .lt }

/-- Two such parameters are each before the other one. -/
theorem order_eager :
    (eager "a" : Parameter Unit).order (eager "b") = .lt ∧
      (eager "b" : Parameter Unit).order (eager "a") = .lt ∧
      ¬WeaklyOrdered [(eager "a" : Parameter Unit), eager "b"] := by
  refine ⟨rfl, rfl, fun h => ?_⟩
  have hswap := h.swap (eager "a") (by simp) (eager "b") (by simp)
  exact absurd hswap (by decide)

end Parameter

end CommandLine
