import CommandLine.Parameter.Basic

/-!
# Orders of flags

Flags may come in any order, but a tree accepts concrete paths. The arrangements of a list are all
its orders; those of a command's flags put the required ones first, in every order, and the optional
ones after them, in every order.

Arrangements are found in place: each element in turn changes places with the first one, the rest is
arranged, and the two change back (`permute`). What is listed on the way is told by a recursion that
changes nothing (`arrange`): each element in front of the arrangements of the others.

* `permute_eq` — arranging in place leaves the elements as they were, and lists what `arrange` does;
* `mem_arrangements` — the arrangements of a list are all its orders;
* `Parameter.mem_flagOrders` — and those of flags are the orders of the two parts.
-/

set_option autoImplicit false

namespace CommandLine

variable {β : Type}

/-- Lists every order of the last elements, as many as are left from a place on, behind the others:
each of them changes places with the one at that place and back again, and in between those behind
it are arranged. -/
def permute : Nat → Nat → Array β × Array (List β) → Array β × Array (List β)
  | 0, _, (items, orders) => (items, orders.push items.toList)
  | left + 1, start, state =>
    (List.range' start (left + 1)).foldl (fun (items, orders) i =>
      let (items, orders) := permute left (start + 1) (items.swapIfInBounds start i, orders)
      (items.swapIfInBounds start i, orders)) state

/-- Every order of a list. The empty list has one order. -/
def arrangements (xs : List β) : List (List β) := (permute xs.length 0 (xs.toArray, #[])).2.toList

/-- Each element of a list taken out, `x` put in its place. -/
def exchanges (x : β) : List β → List (β × List β)
  | [] => []
  | y :: ys => (y, x :: ys) :: (exchanges x ys).map fun (z, zs) => (z, y :: zs)

/-- The orders of a list of `count` elements: each element comes first in turn, exchanged with the
one that stood there. -/
def arrange : Nat → List β → List (List β)
  | 0, _ => [[]]
  | _, [] => [[]]
  | count + 1, x :: xs =>
    ((x, xs) :: exchanges x xs).flatMap fun (y, ys) => (arrange count ys).map (y :: ·)

/-! ## Arranging in place -/

section

variable {items : Array β} {orders : Array (List β)} {front xs ys : List β} {x y : β}
  {left start i : Nat}

/-- Two elements that change places twice are back. -/
theorem swapIfInBounds_swapIfInBounds (items : Array β) (start i : Nat) :
    (items.swapIfInBounds start i).swapIfInBounds start i = items := by
  by_cases hstart : start < items.size
  · by_cases hi : i < items.size
    · simp [Array.swapIfInBounds_def, hstart, hi]
    · simp [Array.swapIfInBounds_def, hstart, hi]
  · simp [Array.swapIfInBounds_def, hstart]

/-- The turns of the loop over a list that begins at `start`: the place that is exchanged with the
first one, and what then stands there and behind it. -/
def exchangeTurns (start : Nat) (x : β) (xs : List β) : List (Nat × β × List β) :=
  (start, x, xs) :: (List.range xs.length).map fun j => (start + 1 + j, xs.getD j x, xs.set j x)

/-- The loop goes through the places in order. -/
theorem exchangeTurns_map_fst (start : Nat) (x : β) (xs : List β) :
    (exchangeTurns start x xs).map Prod.fst = List.range' start (xs.length + 1) := by
  rw [List.range'_succ, List.range'_eq_map_range]
  simp [exchangeTurns, Function.comp_def]

/-- What the turns put first is the first element, then each of the others in exchange for it. -/
theorem exchangeTurns_map_snd (start : Nat) (x : β) (xs : List β) :
    (exchangeTurns start x xs).map Prod.snd = (x, xs) :: exchanges x xs := by
  have hexchanges : exchanges x xs =
      (List.range xs.length).map fun j => (xs.getD j x, xs.set j x) := by
    induction xs with
    | nil => rfl
    | cons y ys ih =>
      rw [exchanges, ih, List.length_cons, List.range_succ_eq_map]
      simp [Function.comp_def]
  simp [exchangeTurns, hexchanges, Function.comp_def]

/-- An exchange does what its turn says, and leaves alone what stands in front. -/
theorem toList_of_mem_exchangeTurns (h : items.toList = front ++ x :: xs)
    (hturn : (i, y, ys) ∈ exchangeTurns front.length x xs) :
    (items.swapIfInBounds front.length i).toList = front ++ y :: ys ∧ ys.length = xs.length := by
  obtain ⟨list⟩ := items
  obtain rfl : list = front ++ x :: xs := h
  have hfirst : front.length < (front ++ x :: xs).toArray.size := by simp
  simp only [exchangeTurns, List.mem_cons, Prod.mk.injEq, List.mem_map, List.mem_range] at hturn
  rcases hturn with ⟨rfl, rfl, rfl⟩ | ⟨j, hj, rfl, rfl, rfl⟩
  · simp [Array.swapIfInBounds_def, Array.swap_def]
  · have hlater : front.length + 1 + j < (front ++ x :: xs).toArray.size := by
      simp only [List.size_toArray, List.length_append, List.length_cons]
      omega
    have hplace : front.length + 1 + j = front.length + (j + 1) := by omega
    rw [Array.swapIfInBounds_def, dif_pos hfirst, dif_pos hlater, Array.swap_def,
      Array.toList_set, Array.toList_set]
    simp [hplace, hj]

/-- Turns that leave the elements as they found them, one after the other: each lists its orders
behind those of the turns before. -/
theorem foldl_turns {turns : List (Nat × β × List β)} (lists : β × List β → List (List β))
    (h : ∀ turn ∈ turns, ∀ orders,
      permute left (start + 1) (items.swapIfInBounds start turn.1, orders) =
        (items.swapIfInBounds start turn.1, orders ++ (lists turn.2).toArray))
    (orders : Array (List β)) :
    (turns.map Prod.fst).foldl (fun (items, orders) i =>
        let (items, orders) := permute left (start + 1) (items.swapIfInBounds start i, orders)
        (items.swapIfInBounds start i, orders)) (items, orders) =
      (items, orders ++ ((turns.map Prod.snd).flatMap lists).toArray) := by
  induction turns generalizing orders with
  | nil => simp
  | cons turn turns ih =>
    simp only [List.map_cons, List.foldl_cons, h turn List.mem_cons_self,
      swapIfInBounds_swapIfInBounds]
    rw [ih fun later hlater => h later (List.mem_cons_of_mem turn hlater)]
    simp

/-- Arranging in place leaves the elements as they were, and lists the orders of the last ones, each
behind the others. -/
theorem permute_eq (h : items.toList = front ++ xs) (hlength : xs.length = left) :
    permute left front.length (items, orders) =
      (items, orders ++ ((arrange left xs).map (front ++ ·)).toArray) := by
  induction left generalizing items orders front xs with
  | zero =>
    obtain rfl := List.length_eq_zero_iff.mp hlength
    simp [permute, arrange, h]
  | succ left ih =>
    cases xs with
    | nil => cases hlength
    | cons x xs =>
      obtain rfl : xs.length = left := Nat.succ.inj hlength
      -- In a turn the element that was put first joins those that stay in front.
      have hturn : ∀ turn ∈ exchangeTurns front.length x xs, ∀ orders,
          permute xs.length (front.length + 1)
              (items.swapIfInBounds front.length turn.1, orders) =
            (items.swapIfInBounds front.length turn.1, orders ++
              (((arrange xs.length turn.2.2).map (turn.2.1 :: ·)).map (front ++ ·)).toArray) := by
        rintro ⟨i, y, ys⟩ hmem orders
        obtain ⟨hi, hys⟩ := toList_of_mem_exchangeTurns h hmem
        have hfront : (items.swapIfInBounds front.length i).toList = (front ++ [y]) ++ ys := by
          simpa using hi
        simpa [Function.comp_def] using @ih _ orders _ _ hfront hys
      rw [permute, ← exchangeTurns_map_fst front.length x xs,
        foldl_turns
          (fun turn => ((arrange xs.length turn.2).map (turn.1 :: ·)).map (front ++ ·)) hturn,
        exchangeTurns_map_snd, arrange, List.map_flatMap]

end

/-- So the arrangements of a list are what the recursion lists. -/
theorem arrangements_eq (xs : List β) : arrangements xs = arrange xs.length xs := by
  have hfront : xs.toArray.toList = [] ++ xs := rfl
  simpa [arrangements] using congrArg (·.2.toList) (@permute_eq _ _ #[] _ _ _ hfront rfl)

/-- An element and what is left of the others are all elements. -/
theorem perm_of_mem_exchanges {x y : β} {xs ys : List β}
    (h : (y, ys) ∈ exchanges x xs) : (y :: ys).Perm (x :: xs) := by
  induction xs generalizing y ys with
  | nil => simp [exchanges] at h
  | cons z zs ih =>
    simp only [exchanges, List.mem_cons, Prod.mk.injEq, List.mem_map, Prod.exists] at h
    rcases h with ⟨rfl, rfl⟩ | ⟨w, ws, hmem, rfl, rfl⟩
    · exact .swap ..
    · exact (List.Perm.swap ..).trans (((ih hmem).cons z).trans (.swap ..))

/-- Every element is taken out. -/
theorem exists_mem_exchanges {x y : β} {xs : List β} (h : y ∈ xs) :
    ∃ ys, (y, ys) ∈ exchanges x xs := by
  induction xs with
  | nil => cases h
  | cons z zs ih =>
    rcases List.mem_cons.mp h with rfl | h
    · exact ⟨_, List.mem_cons_self⟩
    · obtain ⟨ys, hys⟩ := ih h
      exact ⟨z :: ys, List.mem_cons_of_mem _ (List.mem_map.mpr ⟨_, hys, rfl⟩)⟩

/-- The orders of a list are all of them: the first element of an order can be taken out, and the
rest is an order of what is left. -/
theorem mem_arrange {count : Nat} {xs ys : List β} (hlen : xs.length = count) :
    ys ∈ arrange count xs ↔ ys.Perm xs := by
  induction count generalizing xs ys with
  | zero =>
    obtain rfl := List.length_eq_zero_iff.mp hlen
    simp [arrange]
  | succ count ih =>
    cases xs with
    | nil => simp at hlen
    | cons x xs =>
      simp only [List.length_cons, Nat.add_right_cancel_iff] at hlen
      -- What is left when an element is taken out is as long as the rest of the list.
      have hrest {y : β} {ws : List β} (hws : (y, ws) ∈ exchanges x xs) : ws.length = count := by
        simpa [hlen] using (perm_of_mem_exchanges hws).length_eq
      simp only [arrange, List.flatMap_cons, List.mem_append, List.mem_map, List.mem_flatMap,
        Prod.exists]
      constructor
      · rintro (⟨zs, hzs, rfl⟩ | ⟨y, ws, hws, zs, hzs, rfl⟩)
        · exact ((ih hlen).mp hzs).cons x
        · exact (((ih (hrest hws)).mp hzs).cons y).trans (perm_of_mem_exchanges hws)
      · intro hperm
        cases ys with
        | nil => simpa using hperm.length_eq
        | cons y zs =>
          rcases List.mem_cons.mp (hperm.mem_iff.mp List.mem_cons_self) with rfl | hy
          · exact .inl ⟨zs, (ih hlen).mpr hperm.cons_inv, rfl⟩
          · obtain ⟨ws, hws⟩ := exists_mem_exchanges (x := x) hy
            have hzs : zs.Perm ws := (hperm.trans (perm_of_mem_exchanges hws).symm).cons_inv
            exact .inr ⟨y, ws, hws, zs, (ih (hrest hws)).mpr hzs, rfl⟩

/-- The arrangements of a list are the lists that are it in another order. -/
theorem mem_arrangements {xs ys : List β} : ys ∈ arrangements xs ↔ ys.Perm xs := by
  rw [arrangements_eq]
  exact mem_arrange rfl

namespace Parameter

variable {α : Type}

/-- The flags that the input must give. -/
def required (flags : List (Parameter α)) : List (Parameter α) := flags.filter (!·.isOptional)

/-- The flags that the input may leave out. -/
def optionals (flags : List (Parameter α)) : List (Parameter α) := flags.filter (·.isOptional)

/-- Every order of flags with a path of its own: the required ones, then the optional ones. -/
def flagOrders (flags : List (Parameter α)) : List (List (Parameter α)) :=
  (arrangements (required flags)).flatMap fun first =>
    (arrangements (optionals flags)).map (first ++ ·)

/-- Required flags come first, in any order, and then optional ones, in any order. -/
theorem mem_flagOrders {flags order : List (Parameter α)} :
    order ∈ flagOrders flags ↔ ∃ first last, order = first ++ last ∧
      first.Perm (required flags) ∧ last.Perm (optionals flags) := by
  simp only [flagOrders, List.mem_flatMap, List.mem_map, mem_arrangements]
  constructor
  · rintro ⟨first, hfirst, last, hlast, rfl⟩
    exact ⟨first, last, rfl, hfirst, hlast⟩
  · rintro ⟨first, last, rfl, hfirst, hlast⟩
    exact ⟨first, hfirst, last, hlast, rfl⟩

/-- A flag is required or optional. -/
theorem required_append_optionals_perm (flags : List (Parameter α)) :
    (required flags ++ optionals flags).Perm flags :=
  List.perm_append_comm.trans (List.filter_append_perm _ flags)

/-- Every order of flags has all of them. -/
theorem perm_of_mem_flagOrders {flags order : List (Parameter α)} (h : order ∈ flagOrders flags) :
    order.Perm flags := by
  obtain ⟨first, last, rfl, hfirst, hlast⟩ := mem_flagOrders.mp h
  exact (hfirst.append hlast).trans (required_append_optionals_perm flags)

end Parameter

end CommandLine
