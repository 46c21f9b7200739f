import Mathlib.Data.List.Nodup
import Mathlib.Data.Nat.Factorial.Basic
import CommandLine.Parameter.Arrangement

/-!
# Every order, once

The arrangements of a list are grouped by their first element, and each element is the first of one
group. So if no two elements are equal, arrangements of two groups differ in their first elements,
and by induction no arrangement is listed twice. The orders of flags are arrangements of the
required ones, each in front of the same arrangements of the others; since all of the former are
equally long, an order tells where it is to be cut.

* `perm_of_mem_groups`, `map_fst_groups` — what stands behind each first element;
* `length_arrange`, `nodup_arrange` — there are as many arrangements as the factorial says;
* `arrange_map` — the orders of images are the images of the orders;
* `arrangements_listed_once` — the arrangements of a list and the orders of flags.
-/

set_option autoImplicit false

namespace CommandLine

variable {α β γ : Type} {x : β} {xs : List β} {g : β × List β} {count : Nat}

/-! ## Groups -/

/-- Every element is taken out once, in order. -/
theorem map_fst_exchanges (x : β) (xs : List β) : (exchanges x xs).map Prod.fst = xs := by
  induction xs with
  | nil => rfl
  | cons y ys ih => simpa [exchanges, Function.comp_def] using ih

/-- What is taken out of a mapped list is what is taken out of the list, mapped. -/
theorem exchanges_map (f : β → γ) (x : β) (xs : List β) :
    exchanges (f x) (xs.map f) = (exchanges x xs).map fun g => (f g.1, g.2.map f) := by
  induction xs with
  | nil => rfl
  | cons y ys ih => simp [exchanges, ih, Function.comp_def]

/-- The elements of a list in order, each with the others. -/
def groups (x : β) (xs : List β) : List (β × List β) := (x, xs) :: exchanges x xs

/-- The arrangements are listed group by group. -/
theorem arrange_cons (count : Nat) (x : β) (xs : List β) :
    arrange (count + 1) (x :: xs) =
      (groups x xs).flatMap fun g => (arrange count g.2).map (g.1 :: ·) := rfl

/-- Every element has a group, in order. -/
theorem map_fst_groups (x : β) (xs : List β) : (groups x xs).map Prod.fst = x :: xs := by
  rw [groups, List.map_cons, map_fst_exchanges]

/-- So there are as many groups as elements. -/
theorem length_groups (x : β) (xs : List β) : (groups x xs).length = xs.length + 1 := by
  rw [← List.length_map (f := Prod.fst), map_fst_groups, List.length_cons]

theorem perm_of_mem_groups (hg : g ∈ groups x xs) : (g.1 :: g.2).Perm (x :: xs) := by
  rcases List.mem_cons.mp hg with rfl | hg
  · exact .refl _
  · exact perm_of_mem_exchanges hg

/-- Behind each element stand all but one. -/
theorem length_of_mem_groups (hg : g ∈ groups x xs) : g.2.length = xs.length := by
  simpa using (perm_of_mem_groups hg).length_eq

/-- And none of the others twice, if none is. -/
theorem nodup_of_mem_groups (hnodup : (x :: xs).Nodup) (hg : g ∈ groups x xs) : g.2.Nodup :=
  (List.nodup_cons.mp ((perm_of_mem_groups hg).nodup_iff.mpr hnodup)).2

/-- The orders of images are the images of the orders. -/
theorem arrange_map (f : β → γ) (count : Nat) (xs : List β) :
    arrange count (xs.map f) = (arrange count xs).map (List.map f) := by
  induction count generalizing xs with
  | zero => simp [arrange]
  | succ count ih =>
    cases xs with
    | nil => rfl
    | cons x xs =>
      have hgroups : groups (f x) (xs.map f) =
          (groups x xs).map fun g => (f g.1, g.2.map f) := by
        rw [groups, groups, exchanges_map, List.map_cons]
      rw [List.map_cons, arrange_cons, arrange_cons, hgroups, List.flatMap_map, List.map_flatMap]
      simp only [ih, List.map_map, Function.comp_def, List.map_cons]

/-! ## Arrangements -/

/-- With each element in front the others have their arrangements; so the factorial counts them. -/
theorem length_arrange (hlength : xs.length = count) :
    (arrange count xs).length = count.factorial := by
  induction count generalizing xs with
  | zero => simp [arrange]
  | succ count ih =>
    cases xs with
    | nil => cases hlength
    | cons x xs =>
      have hrest : xs.length = count := Nat.succ.inj hlength
      have hbehind : ∀ g ∈ groups x xs,
          ((arrange count g.2).map (g.1 :: ·)).length = count.factorial := by
        intro g hg
        rw [List.length_map, ih ((length_of_mem_groups hg).trans hrest)]
      rw [arrange_cons, List.length_flatMap, List.map_congr_left hbehind, List.map_const',
        List.sum_replicate_nat, length_groups, hrest, Nat.factorial_succ]

/-- Two groups differ in the first element, and in a group the rests do by induction. -/
theorem nodup_arrange (hlength : xs.length = count) (hnodup : xs.Nodup) :
    (arrange count xs).Nodup := by
  induction count generalizing xs with
  | zero => simp [arrange]
  | succ count ih =>
    cases xs with
    | nil => cases hlength
    | cons x xs =>
      have hrest : xs.length = count := Nat.succ.inj hlength
      have hfirsts : ((groups x xs).map Prod.fst).Nodup := by rwa [map_fst_groups]
      rw [arrange_cons, List.nodup_flatMap]
      constructor
      · intro g hg
        exact (ih ((length_of_mem_groups hg).trans hrest) (nodup_of_mem_groups hnodup hg)).map
          List.cons_injective
      · refine (List.pairwise_map.mp hfirsts).imp fun {g g'} hne => List.disjoint_left.mpr ?_
        intro ys hys hys'
        obtain ⟨zs, -, rfl⟩ := List.mem_map.mp hys
        obtain ⟨zs', -, heq⟩ := List.mem_map.mp hys'
        exact hne (List.cons.inj heq).1.symm

/-- The list itself is its first arrangement. -/
theorem head?_arrange (hlength : xs.length = count) : (arrange count xs).head? = some xs := by
  induction count generalizing xs with
  | zero =>
    obtain rfl := List.length_eq_zero_iff.mp hlength
    rfl
  | succ count ih =>
    cases xs with
    | nil => cases hlength
    | cons x xs =>
      rw [arrange_cons, groups, List.flatMap_cons, List.head?_append, List.head?_map,
        ih (Nat.succ.inj hlength)]
      rfl

/-! ## Orders of flags -/

/-- Lists of one length, each in front of the same lists, can be told apart. -/
theorem nodup_flatMap_append {firsts lasts : List (List β)} {length : Nat}
    (hlength : ∀ first ∈ firsts, first.length = length) (hfirsts : firsts.Nodup)
    (hlasts : lasts.Nodup) : (firsts.flatMap fun first => lasts.map (first ++ ·)).Nodup := by
  rw [List.nodup_flatMap]
  constructor
  · exact fun first _ => hlasts.map (List.append_right_injective first)
  · refine hfirsts.imp_of_mem fun {first first'} hfirst hfirst' hne => List.disjoint_left.mpr ?_
    intro ys hys hys'
    obtain ⟨last, -, rfl⟩ := List.mem_map.mp hys
    obtain ⟨last', -, heq⟩ := List.mem_map.mp hys'
    have hsame : first.length = first'.length := by rw [hlength _ hfirst, hlength _ hfirst']
    exact hne (List.append_inj_left heq.symm hsame)

namespace Parameter

/-- The orders of flags seen through a function are the orders of what it shows of the two parts. -/
theorem map_flagOrders (f : Parameter α → β) (flags : List (Parameter α)) :
    (flagOrders flags).map (List.map f) = (arrangements ((required flags).map f)).flatMap
      fun first => (arrangements ((optionals flags).map f)).map (first ++ ·) := by
  simp [flagOrders, arrangements_eq, arrange_map, List.map_flatMap, List.flatMap_map,
    Function.comp_def]

/-- No order of flags with different names is listed twice. -/
theorem nodup_map_flagOrders {f : Parameter α → β} {flags : List (Parameter α)}
    (h : (flags.map f).Nodup) : ((flagOrders flags).map (List.map f)).Nodup := by
  have hlength : ∀ first ∈ arrangements ((required flags).map f),
      first.length = ((required flags).map f).length :=
    fun _ hfirst => (mem_arrangements.mp hfirst).length_eq
  have hnodup {part : List (Parameter α)} (hpart : part.Sublist flags) :
      (arrangements (part.map f)).Nodup := by
    rw [arrangements_eq]
    exact nodup_arrange rfl ((hpart.map f).nodup h)
  rw [map_flagOrders]
  exact nodup_flatMap_append hlength (hnodup List.filter_sublist) (hnodup List.filter_sublist)

end Parameter

/-- **Every order, once.** The arrangements of a list of different elements are all its orders and
nothing else, none of them twice and the list itself first; so there are as many as the factorial of
its length. The orders of flags with different names are an order of the required ones and then an
order of the optional ones, in every combination, and no two of them are the same names in the same
order. -/
theorem arrangements_listed_once :
    (∀ (β : Type) (xs : List β), xs.Nodup →
      (arrangements xs).length = xs.length.factorial ∧ (arrangements xs).Nodup ∧
        (∀ ys, ys ∈ arrangements xs ↔ ys.Perm xs) ∧ (arrangements xs).head? = some xs) ∧
    ∀ (α : Type) (flags : List (Parameter α)), (flags.map Parameter.name).Nodup →
      ((Parameter.flagOrders flags).map (List.map Parameter.name)).Nodup ∧
        ∀ order, order ∈ Parameter.flagOrders flags ↔ ∃ first last, order = first ++ last ∧
          first.Perm (Parameter.required flags) ∧ last.Perm (Parameter.optionals flags) := by
  refine ⟨fun β xs hnodup => ?_, fun α flags hnames => ?_⟩
  · rw [arrangements_eq]
    exact ⟨length_arrange rfl, nodup_arrange rfl hnodup, fun _ => mem_arrange rfl,
      head?_arrange rfl⟩
  · exact ⟨Parameter.nodup_map_flagOrders hnames, fun _ => Parameter.mem_flagOrders⟩

/-- A switch declared before two required flags. -/
def cropping : List (Parameter Unit) := [quiet, width, height]
where
  quiet : Parameter Unit := .switch "quiet"
  width : Parameter Unit := (Parameter.ofBuiltin "width" (.integer none none)).asFlag
  height : Parameter Unit := (Parameter.ofBuiltin "height" (.integer none none)).asFlag

/-- Three elements have six orders, and the required flags come before the switch in either
order. -/
theorem arrangements_listed_once_cropping :
    (arrangements [1, 2, 3]).length = 6 ∧ [3, 1, 2] ∈ arrangements [1, 2, 3] ∧
      (cropping.map Parameter.name).Nodup ∧
      [cropping.height, cropping.width, cropping.quiet] ∈ Parameter.flagOrders cropping := by
  obtain ⟨hlists, hflags⟩ := arrangements_listed_once
  obtain ⟨hlength, -, hmem, -⟩ := hlists Nat [1, 2, 3] (by decide)
  have hnames : (cropping.map Parameter.name).Nodup := by decide
  obtain ⟨-, horders⟩ := hflags Unit cropping hnames
  have hrequired : Parameter.required cropping = [cropping.width, cropping.height] := rfl
  have hoptionals : Parameter.optionals cropping = [cropping.quiet] := rfl
  refine ⟨hlength, (hmem _).mpr (by decide), hnames, (horders _).mpr ?_⟩
  exact ⟨[cropping.height, cropping.width], [cropping.quiet], rfl,
    hrequired ▸ .swap .., hoptionals ▸ .refl _⟩

end CommandLine
