import Mathlib.Data.Finset.Card
import Mathlib.Data.List.Infix
import Mathlib.Data.Set.Function
import CommandLine.Proofs.Arrangements
import CommandLine.Proofs.Tree.Fresh

/-!
# Orders that share their beginnings

Below a node without flags the orders of a flag section become a tree of their own: two orders share
the nodes of the flags with which both begin, and part where they differ. So there is one node for
each list of long names with which some order begins (`Spans`), and to count the nodes is to count
these beginnings.

* `card_beginnings_flagOrders` — how many beginnings the orders of flags have;
* `size_of_growOrders` — the nodes that they make.
-/

set_option autoImplicit false

namespace CommandLine

/-! ## Beginnings -/

section

variable {β : Type} [DecidableEq β] {x : β} {ws : List β} {lists rest : List (List β)}

/-- The empty list and all beginnings of some lists. -/
def beginnings (lists : List (List β)) : Finset (List β) :=
  insert [] (lists.flatMap List.inits).toFinset

theorem mem_beginnings : ws ∈ beginnings lists ↔ ws = [] ∨ ∃ list ∈ lists, ws <+: list := by
  simp [beginnings]

/-- Lists that begin with one element begin as they do without it, behind that element. -/
theorem beginnings_map_cons_append (hne : lists ≠ []) :
    beginnings (lists.map (x :: ·) ++ rest) =
      (beginnings lists).image (x :: ·) ∪ beginnings rest := by
  obtain ⟨list, hlist⟩ := List.exists_mem_of_ne_nil _ hne
  ext ws
  simp only [mem_beginnings, Finset.mem_union, Finset.mem_image, List.mem_append, List.mem_map]
  cases ws with
  | nil => simp
  | cons w ws =>
    constructor
    · rintro (h | ⟨_, ⟨later, hlater, rfl⟩ | hrest, hbegins⟩)
      · cases h
      · obtain ⟨rfl, hbehind⟩ := List.cons_prefix_cons.mp hbegins
        exact .inl ⟨ws, .inr ⟨later, hlater, hbehind⟩, rfl⟩
      · exact .inr (.inr ⟨_, hrest, hbegins⟩)
    · rintro (⟨later, hlater, heq⟩ | h | ⟨later, hlater, hbegins⟩)
      · obtain ⟨rfl, rfl⟩ := List.cons.inj heq
        rcases hlater with rfl | ⟨more, hmore, hbegins⟩
        · exact .inr ⟨_, .inl ⟨list, hlist, rfl⟩, List.cons_prefix_cons.mpr ⟨rfl, List.nil_prefix⟩⟩
        · exact .inr ⟨_, .inl ⟨more, hmore, rfl⟩, List.cons_prefix_cons.mpr ⟨rfl, hbegins⟩⟩
      · cases h
      · exact .inr ⟨later, .inr hlater, hbegins⟩

/-- If no other list begins with that element, none of these beginnings is shared. -/
theorem card_beginnings_map_cons_append (hne : lists ≠ [])
    (hrest : ∀ list ∈ rest, list.head? ≠ some x) :
    (beginnings (lists.map (x :: ·) ++ rest)).card =
      (beginnings lists).card + (beginnings rest).card := by
  have hdisjoint : Disjoint ((beginnings lists).image (x :: ·)) (beginnings rest) := by
    rw [Finset.disjoint_left]
    intro ws hws hmem
    obtain ⟨later, _, rfl⟩ := Finset.mem_image.mp hws
    rcases mem_beginnings.mp hmem with h | ⟨list, hlist, more, rfl⟩
    · cases h
    · exact hrest _ hlist rfl
  rw [beginnings_map_cons_append hne, Finset.card_union_of_disjoint hdisjoint,
    Finset.card_image_of_injective _ List.cons_injective]

/-- Groups of lists with a first element each, all with as many beginnings behind it. -/
theorem card_beginnings_flatMap {γ : Type} {groups : List (β × γ)} {lists : γ → List (List β)}
    {count : Nat} (hnodup : (groups.map Prod.fst).Nodup) (hne : ∀ g ∈ groups, lists g.2 ≠ [])
    (hcount : ∀ g ∈ groups, (beginnings (lists g.2)).card = count) :
    (beginnings (groups.flatMap fun g => (lists g.2).map (g.1 :: ·))).card =
      groups.length * count + 1 := by
  induction groups with
  | nil => simp [beginnings]
  | cons g groups ih =>
    obtain ⟨hfirst, hnodup⟩ := List.nodup_cons.mp hnodup
    have hothers := ih hnodup (fun g' hg' => hne g' (List.mem_cons_of_mem g hg'))
      fun g' hg' => hcount g' (List.mem_cons_of_mem g hg')
    have hheads : ∀ list ∈ groups.flatMap fun g => (lists g.2).map (g.1 :: ·),
        list.head? ≠ some g.1 := by
      intro list hlist hhead
      obtain ⟨g', hg', hlist⟩ := List.mem_flatMap.mp hlist
      obtain ⟨later, _, rfl⟩ := List.mem_map.mp hlist
      exact hfirst (List.mem_map.mpr ⟨g', hg', Option.some.inj hhead⟩)
    rw [List.flatMap_cons, card_beginnings_map_cons_append (hne g List.mem_cons_self) hheads,
      hcount g List.mem_cons_self, hothers, List.length_cons, Nat.add_one_mul]
    omega

end

/-! ## Beginnings of orders -/

section

variable {β : Type}

/-- How many beginnings the orders of so many elements have, in front of lists with `behind`
ones. -/
def orderBeginnings (behind : Nat) : Nat → Nat
  | 0 => behind
  | length + 1 => (length + 1) * orderBeginnings behind length + 1

/-- All orders of a list, each in front of the same lists. -/
theorem card_beginnings_arrange [DecidableEq β] {tails : List (List β)} (htails : tails ≠ [])
    {count : Nat} {xs : List β} (hlength : xs.length = count) (hnodup : xs.Nodup) :
    (beginnings ((arrange count xs).flatMap fun first => tails.map (first ++ ·))).card =
      orderBeginnings (beginnings tails).card count := by
  induction count generalizing xs with
  | zero => simp [arrange, orderBeginnings]
  | succ count ih =>
    cases xs with
    | nil => cases hlength
    | cons x xs =>
      -- The orders are grouped by their first element, behind which the others come in any order.
      let behind (ys : List β) := (arrange count ys).flatMap fun first => tails.map (first ++ ·)
      have hgrouped :
          ((arrange (count + 1) (x :: xs)).flatMap fun first => tails.map (first ++ ·)) =
            (groups x xs).flatMap fun g => (behind g.2).map (g.1 :: ·) := by
        rw [arrange_cons, List.flatMap_assoc]
        simp [behind, List.flatMap_map, List.map_flatMap, Function.comp_def]
      have hrest : xs.length = count := Nat.succ.inj hlength
      have hothers (g : β × List β) (hg : g ∈ groups x xs) : g.2.length = count :=
        (length_of_mem_groups hg).trans hrest
      have hne (g : β × List β) (hg : g ∈ groups x xs) : behind g.2 ≠ [] := by
        obtain ⟨tail, htail⟩ := List.exists_mem_of_ne_nil _ htails
        have horder : g.2 ∈ arrange count g.2 := (mem_arrange (hothers g hg)).mpr (.refl _)
        exact List.ne_nil_of_mem (List.mem_flatMap.mpr ⟨_, horder, List.mem_map_of_mem htail⟩)
      rw [hgrouped, card_beginnings_flatMap ((map_fst_groups x xs).symm ▸ hnodup) hne
        fun g hg => ih (hothers g hg) (nodup_of_mem_groups hnodup hg), length_groups, hrest,
        orderBeginnings]

/-- The orders of required and optional flags, one after the other. -/
theorem card_beginnings_flagOrders {α : Type} {flags : List (Parameter α)}
    (hnodup : (flags.map Parameter.longName).Nodup) :
    (beginnings ((Parameter.flagOrders flags).map (List.map Parameter.longName))).card =
      orderBeginnings (orderBeginnings 1 (Parameter.optionals flags).length)
        (Parameter.required flags).length := by
  let first := (Parameter.required flags).map Parameter.longName
  let last := (Parameter.optionals flags).map Parameter.longName
  have hfirsts : first.length = (Parameter.required flags).length := List.length_map ..
  have hfirst : first.Nodup := (List.filter_sublist.map Parameter.longName).nodup hnodup
  have hlast : last.Nodup := (List.filter_sublist.map Parameter.longName).nodup hnodup
  have hlasts : last.length = (Parameter.optionals flags).length := List.length_map ..
  have hne : arrangements last ≠ [] := List.ne_nil_of_mem (mem_arrangements.mpr (.refl _))
  have hbehind : (beginnings (arrangements last)).card = orderBeginnings 1 last.length := by
    have hone : [([] : List String)] ≠ [] := by simp
    simpa [beginnings, arrangements_eq] using card_beginnings_arrange hone rfl hlast
  rw [Parameter.map_flagOrders, ← hfirsts, ← hlasts, ← hbehind, arrangements_eq first]
  exact card_beginnings_arrange hne rfl hfirst

end

/-! ## The nodes of orders -/

namespace Tree

open CommandLine.Growth

variable {α σ : Type} {t t' : Tree α σ} {i child : NodeIndex} {c : Command α σ} {p : Parameter α}
  {ps : List (Parameter α)} {S : Finset (List String)} {place : List String → NodeIndex}
  {ws : List String} {w : String}

/-- Only the parent gains a flag. -/
theorem flags_addFlag_of_lt {j : NodeIndex} (hj : j < t.nodes.size) (p : Parameter α) :
    ((t.addFlag i p).node j).flags =
      (t.node j).flags ++ if j = i then [t.nodes.size] else [] := by
  have hne : j ≠ t.nodes.size := Nat.ne_of_lt hj
  rw [addFlag, node_modifyNode, size_pushNode, node_pushNode_of_ne _ hne]
  by_cases h : j = i
  · simp [h, h ▸ Nat.lt_succ_of_lt hj]
  · simp [h]

/-- Flag nodes stand below each other for some lists of long names, one node for each list. -/
structure Spans (t : Tree α σ) (S : Finset (List String)) (place : List String → NodeIndex) :
    Prop where
  nil_mem : [] ∈ S
  closed : ∀ {ws w}, ws ++ [w] ∈ S → ws ∈ S
  injOn : Set.InjOn place S
  lt : ∀ {ws}, ws ∈ S → place ws < t.nodes.size
  label : ∀ {ws w}, ws ++ [w] ∈ S →
    ∃ p, (t.node (place (ws ++ [w]))).label = .parameter p ∧ p.longName = w
  mem_flags : ∀ {ws}, ws ∈ S → ∀ l, l ∈ (t.node (place ws)).flags ↔
    ∃ w, ws ++ [w] ∈ S ∧ place (ws ++ [w]) = l

namespace Spans

/-- A node without flags stands for the empty list. -/
theorem of_flags_eq_nil (hi : i < t.nodes.size) (hflags : (t.node i).flags = []) :
    t.Spans (beginnings []) fun _ => i where
  nil_mem := by simp [beginnings]
  closed h := by simp [beginnings] at h
  injOn ws hws ws' hws' _ := by
    have hws : ws = [] := by simpa [beginnings] using hws
    have hws' : ws' = [] := by simpa [beginnings] using hws'
    rw [hws, hws']
  lt _ := hi
  label h := by simp [beginnings] at h
  mem_flags h l := by simp [beginnings, hflags]

/-- Whatever leaves the labels and the flags of all nodes alone leaves the lists alone. -/
theorem congr (h : t.Spans S place) (hsize : t'.nodes.size = t.nodes.size)
    (hlabel : ∀ j, (t'.node j).label = (t.node j).label)
    (hflags : ∀ j, (t'.node j).flags = (t.node j).flags) : t'.Spans S place where
  nil_mem := h.nil_mem
  closed := h.closed
  injOn := h.injOn
  lt hws := hsize ▸ h.lt hws
  label hws := by rw [hlabel]; exact h.label hws
  mem_flags hws l := by rw [hflags]; exact h.mem_flags hws l

theorem bindCommand (h : t.Spans S place) (i : NodeIndex) (c : Command α σ) :
    (t.bindCommand i c).Spans S place :=
  h.congr (by simp [Tree.bindCommand]) (fun j => label_modifyNode (fun n => by split <;> rfl) t i j)
    (flags_bindCommand t i c)

theorem joinPermission (h : t.Spans S place) (i : NodeIndex) (permission : Permission α) :
    (t.joinPermission i permission).Spans S place := by
  refine h.congr (by simp [Tree.joinPermission])
    (fun j => label_modifyNode (f := fun n => { n with permission := n.permission.or permission })
      (fun _ => rfl) t i j) fun j => ?_
  rw [Tree.joinPermission, node_modifyNode]
  split <;> rfl

/-- The flag of a list's last name is among those of the node for the names before it. -/
theorem mem_flagsOf (h : t.Spans S place) (hmem : ws ++ [w] ∈ S) :
    ∃ p, (place (ws ++ [w]), p) ∈ t.flagsOf (place ws) ∧ p.longName = w := by
  obtain ⟨p, hlabel, hname⟩ := h.label hmem
  have hchild := (h.mem_flags (h.closed hmem) _).mpr ⟨w, hmem, rfl⟩
  exact ⟨p, Tree.mem_flagsOf.mpr ⟨hchild, hlabel⟩, hname⟩

/-- And each of its flags is the last one of a list. -/
theorem of_mem_flagsOf (h : t.Spans S place) (hws : ws ∈ S) {l : NodeIndex}
    (hl : (l, p) ∈ t.flagsOf (place ws)) :
    ws ++ [p.longName] ∈ S ∧ place (ws ++ [p.longName]) = l := by
  obtain ⟨hmem, hlabel⟩ := Tree.mem_flagsOf.mp hl
  obtain ⟨w, hw, rfl⟩ := (h.mem_flags hws l).mp hmem
  obtain ⟨q, hlabel', rfl⟩ := h.label hw
  obtain rfl := Label.parameter.inj (hlabel'.symm.trans hlabel)
  exact ⟨hw, rfl⟩

/-- A new flag stands for a list that is one name longer. -/
theorem addFlag {place' : List String → NodeIndex} (h : t.Spans S place) (hws : ws ∈ S)
    (hnew : ws ++ [p.longName] ∉ S) (hself : place' (ws ++ [p.longName]) = t.nodes.size)
    (hold : ∀ {xs}, xs ∈ S → place' xs = place xs) :
    (t.addFlag (place ws) p).Spans (insert (ws ++ [p.longName]) S) place' := by
  have hgrows : t.Grows (t.addFlag (place ws) p) := changes_grows.addFlag t (place ws) p
  -- A list that goes on does so in `S`, unless it is the one that got longer.
  have hends {xs : List String} {w : String} (hmem : xs ++ [w] ∈ insert (ws ++ [p.longName]) S) :
      (xs = ws ∧ w = p.longName) ∨ xs ++ [w] ∈ S := by
    rcases Finset.mem_insert.mp hmem with heq | hmem
    · obtain ⟨rfl, hw⟩ := List.append_inj' heq rfl
      exact .inl ⟨rfl, List.singleton_inj.mp hw⟩
    · exact .inr hmem
  refine ⟨Finset.mem_insert_of_mem h.nil_mem, ?closed, ?injOn, ?lt, ?label, ?mem_flags⟩
  case closed =>
    intro xs w hmem
    rcases hends hmem with ⟨rfl, _⟩ | hmem
    · exact Finset.mem_insert_of_mem hws
    · exact Finset.mem_insert_of_mem (h.closed hmem)
  case injOn =>
    rw [Finset.coe_insert, Set.injOn_insert (by simpa using hnew)]
    refine ⟨fun xs hxs ys hys heq => ?_, ?_⟩
    · exact h.injOn hxs hys (((hold hxs).symm.trans heq).trans (hold hys))
    · rintro ⟨xs, hxs, heq⟩
      have hplace : place xs = t.nodes.size := ((hold hxs).symm.trans heq).trans hself
      exact (Nat.ne_of_lt (h.lt hxs)) hplace
  case lt =>
    intro xs hxs
    rw [size_addFlag]
    rcases Finset.mem_insert.mp hxs with rfl | hxs
    · rw [hself]
      exact Nat.lt_succ_self _
    · rw [hold hxs]
      exact Nat.lt_succ_of_lt (h.lt hxs)
  case label =>
    intro xs w hmem
    rcases hends hmem with ⟨rfl, rfl⟩ | hmem
    · rw [hself]
      exact ⟨p, label_addFlag t (place xs) p, rfl⟩
    · obtain ⟨q, hlabel, hname⟩ := h.label hmem
      rw [hold hmem]
      exact ⟨q, (hgrows.label_eq _ (h.lt hmem)).trans hlabel, hname⟩
  case mem_flags =>
    intro xs hxs l
    rcases Finset.mem_insert.mp hxs with rfl | hxs
    · rw [hself, flags_addFlag (h.lt hws)]
      refine iff_of_false List.not_mem_nil ?_
      rintro ⟨w, hmem, _⟩
      rcases hends hmem with ⟨heq, _⟩ | hmem
      · simpa using congrArg List.length heq
      · exact hnew (h.closed hmem)
    · rw [hold hxs, flags_addFlag_of_lt (h.lt hxs), List.mem_append, h.mem_flags hxs]
      constructor
      · rintro (⟨w, hmem, rfl⟩ | hl)
        · exact ⟨w, Finset.mem_insert_of_mem hmem, hold hmem⟩
        · by_cases heq : place xs = place ws
          · rw [if_pos heq, List.mem_singleton] at hl
            obtain rfl := h.injOn hxs hws heq
            exact ⟨p.longName, Finset.mem_insert_self .., hself.trans hl.symm⟩
          · rw [if_neg heq] at hl
            cases hl
      · rintro ⟨w, hmem, rfl⟩
        rcases hends hmem with ⟨rfl, rfl⟩ | hmem
        · rw [hself, if_pos rfl]
          exact .inr List.mem_cons_self
        · exact .inl ⟨w, hmem, (hold hmem).symm⟩

/-- A flag of an order is there already, or becomes a new node. -/
theorem exists_of_ensureParameter (h : t.Spans S place) (hws : ws ∈ S)
    (hnamed : p.isNamed = true) (hrun : ensureParameter (place ws) p t = .ok child t') :
    ∃ place', t'.Spans (insert (ws ++ [p.longName]) S) place' ∧
      place' (ws ++ [p.longName]) = child ∧ (∀ {xs}, xs ∈ S → place' xs = place xs) ∧
      t'.nodes.size + S.card = t.nodes.size + (insert (ws ++ [p.longName]) S).card := by
  have hflag : ensureParameter (place ws) p = (ensureFlag (place ws) p : Growth α σ NodeIndex) :=
    if_pos hnamed
  rw [hflag, ensureFlag] at hrun
  cases hfind : t.flagNamed? (place ws) p.longName with
  -- The beginning has its node already, and the flag is found there.
  | some found =>
    obtain ⟨l, q⟩ := found
    obtain ⟨hl, hname⟩ := of_flagNamed?_eq_some hfind
    obtain ⟨hmem, hplace⟩ := h.of_mem_flagsOf hws hl
    rw [hname] at hmem hplace
    simp only [hfind] at hrun
    split at hrun
    · obtain ⟨rfl, rfl⟩ := EStateM.Result.ok.inj hrun
      rw [Finset.insert_eq_of_mem hmem]
      exact ⟨place, h.joinPermission l p.permission, hplace, fun _ => rfl,
        by simp [Tree.joinPermission]⟩
    · cases hrun
  -- No flag of this name leaves the node, so the longer beginning has none yet.
  | none =>
    have hnew : ws ++ [p.longName] ∉ S := by
      intro hmem
      obtain ⟨q, hl, hname⟩ := h.mem_flagsOf hmem
      rw [flagNamed?, List.find?_eq_none] at hfind
      exact hfind _ hl (by simpa using hname)
    simp only [hfind] at hrun
    obtain ⟨rfl, rfl⟩ := EStateM.Result.ok.inj hrun
    have hold {xs : List String} (hxs : xs ∈ S) :
        Function.update place (ws ++ [p.longName]) t.nodes.size xs = place xs :=
      Function.update_of_ne (ne_of_mem_of_not_mem hxs hnew) ..
    refine ⟨_, h.addFlag hws hnew (Function.update_self ..) hold, Function.update_self .., hold, ?_⟩
    rw [size_addFlag, Finset.card_insert_of_notMem hnew]
    omega

theorem of_markEndBefore (h : t.Spans S place) {left : List (Parameter α)} {u : Unit}
    (hrun : markEndBefore c i left t = .ok u t') :
    t'.Spans S place ∧ t'.nodes.size = t.nodes.size := by
  unfold markEndBefore at hrun
  split at hrun
  · obtain ⟨_, rfl⟩ := EStateM.Result.ok.inj hrun
    exact ⟨h.bindCommand i c, by simp [Tree.bindCommand]⟩
  · obtain ⟨_, rfl⟩ := EStateM.Result.ok.inj hrun
    exact ⟨h, rfl⟩

/-- Behind the flags of a list an order adds its beginnings. -/
theorem exists_of_growOrder (h : t.Spans S place) (hws : ws ∈ S)
    (hnamed : ∀ p ∈ ps, p.isNamed = true) (hrun : growOrder c (place ws) ps t = .ok () t') :
    ∃ S' place', t'.Spans S' place' ∧ (∀ {xs}, xs ∈ S → place' xs = place xs) ∧
      (∀ xs, xs ∈ S' ↔ xs ∈ S ∨ ∃ front, front <+: ps.map Parameter.longName ∧ ws ++ front = xs) ∧
      t'.nodes.size + S.card = t.nodes.size + S'.card := by
  induction ps generalizing t S place ws with
  | nil =>
    obtain ⟨_, rfl⟩ := EStateM.Result.ok.inj hrun
    refine ⟨S, place, h.bindCommand _ c, fun _ => rfl, fun xs => ?_, by simp [Tree.bindCommand]⟩
    refine (or_iff_left_of_imp ?_).symm
    rintro ⟨front, hfront, rfl⟩
    rwa [List.prefix_nil.mp hfront, List.append_nil]
  | cons p ps ih =>
    obtain ⟨_, t₁, hmark, hrun⟩ := exists_of_bind_eq_ok hrun
    obtain ⟨child, t₂, hchild, hrun⟩ := exists_of_bind_eq_ok hrun
    obtain ⟨hspans₁, hsize₁⟩ := h.of_markEndBefore hmark
    obtain ⟨place₂, hspans₂, rfl, hold₂, hsize₂⟩ :=
      hspans₁.exists_of_ensureParameter hws (hnamed p List.mem_cons_self) hchild
    obtain ⟨S', place', hspans', hold', hmem', hsize'⟩ := ih hspans₂ (Finset.mem_insert_self ..)
      (fun q hq => hnamed q (List.mem_cons_of_mem p hq)) hrun
    refine ⟨S', place', hspans', fun hxs => ?_, fun xs => ?_, by omega⟩
    · rw [hold' (Finset.mem_insert_of_mem hxs), hold₂ hxs]
    · -- The beginnings of `p :: ps` are the empty one and those of `ps` behind `p`.
      rw [hmem', Finset.mem_insert, List.map_cons]
      constructor
      · rintro ((rfl | hxs) | ⟨front, hfront, rfl⟩)
        · exact .inr ⟨[p.longName], by simp, rfl⟩
        · exact .inl hxs
        · exact .inr ⟨p.longName :: front, List.cons_prefix_cons.mpr ⟨rfl, hfront⟩, by simp⟩
      · rintro (hxs | ⟨front, hfront, rfl⟩)
        · exact .inl (.inr hxs)
        · cases front with
          | nil => exact .inl (.inr (by simpa using hws))
          | cons w front =>
            obtain ⟨rfl, hbehind⟩ := List.cons_prefix_cons.mp hfront
            exact .inr ⟨front, hbehind, by simp⟩

/-- Several orders add all of their beginnings. -/
theorem exists_of_growOrders {orders : List (List (Parameter α))} (h : t.Spans S place)
    (hnamed : ∀ order ∈ orders, ∀ p ∈ order, p.isNamed = true)
    (hrun : growOrders c (place []) orders t = .ok () t') :
    ∃ S' place', t'.Spans S' place' ∧
      (∀ xs, xs ∈ S' ↔ xs ∈ S ∨ ∃ order ∈ orders, xs <+: order.map Parameter.longName) ∧
      t'.nodes.size + S.card = t.nodes.size + S'.card := by
  induction orders generalizing t S place with
  | nil =>
    obtain ⟨_, rfl⟩ := EStateM.Result.ok.inj hrun
    exact ⟨S, place, h, by simp, rfl⟩
  | cons order orders ih =>
    obtain ⟨_, t₁, horder, hrun⟩ := exists_of_bind_eq_ok hrun
    obtain ⟨S₁, place₁, hspans₁, hold₁, hmem₁, hsize₁⟩ :=
      h.exists_of_growOrder h.nil_mem (hnamed order List.mem_cons_self) horder
    rw [← hold₁ h.nil_mem] at hrun
    obtain ⟨S', place', hspans', hmem', hsize'⟩ := ih hspans₁
      (fun o ho => hnamed o (List.mem_cons_of_mem order ho)) hrun
    refine ⟨S', place', hspans', fun xs => ?_, by omega⟩
    rw [hmem', hmem₁]
    simp [or_assoc]

end Spans

/-- Below a node without flags, orders make one node for each of their beginnings. -/
theorem size_of_growOrders {orders : List (List (Parameter α))} (hi : i < t.nodes.size)
    (hflags : (t.node i).flags = []) (hnamed : ∀ order ∈ orders, ∀ p ∈ order, p.isNamed = true)
    (hrun : growOrders c i orders t = .ok () t') :
    t'.nodes.size + 1 =
      t.nodes.size + (beginnings (orders.map (List.map Parameter.longName))).card := by
  have hspans := Spans.of_flags_eq_nil hi hflags
  obtain ⟨S', place', _, hmem, hsize⟩ := hspans.exists_of_growOrders hnamed hrun
  have hS' : S' = beginnings (orders.map (List.map Parameter.longName)) := by
    ext xs
    simp [hmem, mem_beginnings]
  have hone : (beginnings ([] : List (List String))).card = 1 := by simp [beginnings]
  rw [← hS', ← hsize, hone]

end Tree

end CommandLine
