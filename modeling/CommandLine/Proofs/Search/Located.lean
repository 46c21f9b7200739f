import CommandLine.Proofs.Search.Passed
import CommandLine.Proofs.Search.Suggested

/-!
# Where rejections are found

Whatever a turn has to say against a line, it says at a place that reading from its visit can reach:
never behind the line, and never inside a character. Every visit comes to something: either one of
its turns ends at an event or one leads on, and then to a visit with less of the line left.

* `BuiltinType.locates` — the built-in types reject at places ahead of the cursor;
* `ahead_of_attempt` — so does every turn of a visit;
* `events_ahead` — and so do all events behind a visit;
* `Chart.exists_branch`, `Chart.events_ne_nil` — a visit comes to something.
-/

set_option autoImplicit false

namespace CommandLine

variable {α σ : Type}

namespace Cursor

/-- A position at which a cursor stands that can be reached by moving forward. -/
def Ahead (c : Cursor) (position : Nat) : Prop := ∃ d, c.Reaches d ∧ d.position = position

variable {c d : Cursor} {position : Nat}

/-- Where a cursor comes by moving forward is ahead. -/
theorem ahead_of_reaches (h : c.Reaches d) : c.Ahead d.position := ⟨d, h, rfl⟩

theorem ahead_self (c : Cursor) : c.Ahead c.position := ahead_of_reaches (.refl c)

/-- What is ahead of a later place is ahead of an earlier one. -/
theorem Ahead.trans (h : c.Reaches d) (hd : d.Ahead position) : c.Ahead position := by
  obtain ⟨e, he, hposition⟩ := hd
  exact ⟨e, h.trans he, hposition⟩

/-- A position ahead of the start of a line is one of the line's own: it is not behind the line's
end, and it is not inside a character. -/
theorem Ahead.isValid {line : String} (h : (ofString line).Ahead position) :
    (⟨position⟩ : String.Pos.Raw).IsValid line := by
  obtain ⟨d, hreaches, rfl⟩ := h
  exact isValid_position hreaches.source_eq

/-! ## Readers -/

/-- What a reader rejects, it rejects at a place ahead of where it began. -/
def Locates {β : Type} (read : Cursor → Reading β) : Prop :=
  ∀ c r after, read c = (.error r, after) → c.Ahead r.position

/-- The body of a quoted word is rejected at its opening quote or behind it. -/
theorem ahead_of_readBody {quote : Char} {opening : Nat} {value passed rest : List Char}
    {r : Rejection} {after : Cursor}
    (h : readBody quote opening value passed rest = (.error r, after)) :
    r.position = opening ∨ (⟨passed, rest⟩ : Cursor).Ahead r.position := by
  fun_induction readBody quote opening value passed rest with
  | case1 | case2 =>
    cases h
    exact .inl rfl
  | case3 value passed escaped rest _ ih =>
    exact (ih h).imp_right (.trans ⟨['\\', escaped], rfl, rfl⟩)
  | case4 value passed escaped rest =>
    -- The backslash is where the body still stood, before it read the two characters.
    cases h
    exact .inr (ahead_self _)
  | case5 => cases h
  | case6 =>
    obtain rfl := Except.error.inj (Prod.mk.inj h).1
    exact .inr (ahead_of_reaches ⟨[_], rfl, rfl⟩)
  | case7 value passed ch rest _ _ _ ih =>
    exact (ih h).imp_right (.trans ⟨[ch], rfl, rfl⟩)

/-- A word is rejected at its start, at its opening quote or inside it. -/
theorem locates_readString : Locates readString := by
  intro c r after h
  unfold readString at h
  split at h
  · cases h
    exact ahead_self c
  · rename_i ch rest hrest
    split at h
    · rcases ahead_of_readBody h with heq | hahead
      · exact heq ▸ ahead_self c
      · exact .trans ⟨[ch], by simpa using hrest, rfl⟩ hahead
    · cases h

/-- A word that cannot be converted is rejected where it starts. -/
theorem locates_readWordAs {β : Type} (convert : String → Option β) (reason : ValueFault) :
    Locates (readWordAs convert reason) := by
  intro c r after h
  unfold readWordAs at h
  split at h
  · cases h
    exact ahead_self c
  · split at h
    · cases h
    · cases h
      exact ahead_self c

/-- And the end of the line where it is. -/
theorem locates_readAll : Locates readAll := by
  intro c r after h
  unfold readAll at h
  split at h
  · cases h
    exact ahead_self c
  · cases h

end Cursor

/-- A value type that rejects at places ahead of where it was asked to read. -/
def ValueType.Locates (type : ValueType α) : Prop := ∀ ctx, Cursor.Locates (type.parse ctx)

namespace BuiltinType

/-- A value that is read but not accepted is rejected where it starts. -/
theorem locates_checked {β : Type} {read : Cursor → Reading β} {accept : β → Except Cause Value}
    (h : Cursor.Locates read) : Cursor.Locates fun c => checked c (read c) accept := by
  intro c r after hchecked
  simp only [checked] at hchecked
  split at hchecked
  · rename_i f d hread
    cases hchecked
    exact h c _ _ hread
  · split at hchecked
    · cases hchecked
    · cases hchecked
      exact c.ahead_self

/-- The built-in types reject at places ahead of the cursor. -/
theorem locates (b : BuiltinType) : (b.toValueType : ValueType α).Locates := by
  intro ctx
  cases b with
  | choice choices caseSensitive => exact locates_checked Cursor.locates_readString
  | word least greatest => exact locates_checked Cursor.locates_readString
  | truth =>
    show Cursor.Locates fun c => checked c c.readTruth fun b => .ok (.truth b)
    exact locates_checked (Cursor.locates_readWordAs _ _)
  | integer least greatest => exact locates_checked (Cursor.locates_readWordAs _ _)
  | decimal least greatest => exact locates_checked (Cursor.locates_readWordAs _ _)
  | greedy =>
    show Cursor.Locates fun c => checked c c.readAll fun s => .ok (.text s)
    exact locates_checked Cursor.locates_readAll

end BuiltinType

namespace Event

/-- Events of which none ends a search are rejections. -/
theorem rejectionsBefore_ne_nil {events : List (Event α σ)} (hne : events ≠ [])
    (hnone : firstEnding? events = none) : rejectionsBefore events ≠ [] := by
  cases events with
  | nil => exact (hne rfl).elim
  | cons event events =>
    cases event with
    | rejected r => exact List.cons_ne_nil _ _
    | denied r | bound a => cases hnone

/-- A rejection that comes before the end of a search is one of its events. -/
theorem mem_of_mem_rejectionsBefore {events : List (Event α σ)} {r : Rejection}
    (h : r ∈ rejectionsBefore events) : .rejected r ∈ events := by
  induction events with
  | nil => cases h
  | cons event events ih =>
    cases event with
    | rejected r' =>
      rcases List.mem_cons.mp h with rfl | h
      · exact List.mem_cons_self
      · exact List.mem_cons_of_mem _ (ih h)
    | denied | bound => cases h

end Event

namespace Tree

variable {t : Tree α σ} {v w : Visit α} {turn : Turn α} {id child : NodeIndex} {p : Parameter α}
  {c d : Cursor} {ctx : Context α} {attached : Bool} {b : Branch α σ} {position : Nat}

/-! ## Turns -/

/-- All parameters in the tree are of types that reject at places ahead of the cursor. -/
def Locates (t : Tree α σ) : Prop :=
  ∀ i p, (t.node i).label = .parameter p → p.type.Locates

/-- What a branch has to say against the line, it says at a place ahead of a cursor. -/
def Ahead (c : Cursor) : Branch α σ → Prop
  | .rejected r | .denied r => c.Ahead r.position
  | .bound _ | .enter _ => True

/-- So it is with what a branch has to say. -/
theorem Ahead.trans (h : c.Reaches d) (hb : Ahead d b) : Ahead c b := by
  cases b with
  | rejected r | denied r => exact Cursor.Ahead.trans h hb
  | bound | enter => trivial

/-- Who may not pass is told so at a place ahead. -/
theorem ahead_permitted (hposition : c.Ahead position) (hb : Ahead c b) :
    Ahead c (t.permitted ctx child position b) := by
  unfold permitted
  split
  · exact hb
  · exact hposition

/-- A node is entered, or a blank is expected where the cursor stands. -/
theorem ahead_enter : Ahead c (t.enter child c ctx) := by
  unfold enter
  split
  · trivial
  · exact c.ahead_self

/-- A value is rejected ahead of where it would start. -/
theorem ahead_enterValue (hp : p.type.Locates) : Ahead c (t.enterValue child p c ctx) := by
  unfold enterValue
  split
  · rename_i value after hparse
    have hreached := p.type.parse_reached ctx c
    rw [hparse] at hreached
    exact ahead_enter.trans hreached
  · rename_i r after hparse
    exact hp ctx c r after hparse

/-- So is the value of a flag, which may be missing at the end of the line. -/
theorem ahead_afterFlag (hp : p.type.Locates) :
    Ahead c (t.afterFlag child p c ctx attached) := by
  have hvalue (d : Cursor) : Ahead d (t.flagValue child p d ctx) := by
    unfold flagValue
    split
    · exact d.ahead_self
    · exact ahead_enterValue hp
  unfold afterFlag
  split
  · trivial
  · exact ahead_enter
  · exact hvalue c
  · exact (hvalue _).trans c.skipBlank_reached

/-- A bundle of shorthands is rejected at one of them or behind it. -/
theorem ahead_of_shorthandBranch? (ht : t.Locates) (h : t.shorthandBranch? id c ctx = some b) :
    Ahead c b := by
  unfold shorthandBranch? at h
  split at h
  · cases h
  · split at h
    · cases h
      exact c.ahead_self
    · rename_i child p hchild
      cases h
      have hp := ht child p (mem_flagsOf.mp (mem_flagsOf_of_flagShort? hchild)).2
      exact ahead_permitted c.ahead_self ((ahead_afterFlag hp).trans (Cursor.advance_reached 1 c))

/-- And the name of a flag, or its value, at its word or behind it. -/
theorem ahead_of_flagBranch? (ht : t.Locates) (h : t.flagBranch? id c ctx = some b) :
    Ahead c b := by
  unfold flagBranch? at h
  split at h
  · cases h
  · split at h
    · cases h
    · split at h
      · cases h
        exact c.ahead_self
      · rename_i child p hchild
        cases h
        have hp := ht child p (mem_flagsOf.mp (of_flagNamed?_eq_some hchild).1).2
        exact ahead_permitted c.ahead_self ((ahead_afterFlag hp).trans c.skipWord_reached)
    · exact (ahead_of_shorthandBranch? ht h).trans (Cursor.advance_reached _ c)

/-- What a turn has to say against the line, it says at a place ahead of its visit. -/
theorem ahead_of_attempt (ht : t.Locates) (hturn : turn ∈ t.turns v)
    (h : t.attempt v.node v.cursor ctx turn = some b) : Ahead v.cursor b := by
  cases turn with
  | shorthand => exact ahead_of_shorthandBranch? ht h
  | flag => exact ahead_of_flagBranch? ht h
  | finish =>
    obtain rfl := Option.some.inj h
    unfold endBranch
    split
    · split
      · trivial
      · exact v.cursor.ahead_self
    · exact v.cursor.ahead_self
  | literal =>
    obtain ⟨_, _, rfl⟩ := Option.map_eq_some_iff.mp h
    exact ahead_permitted v.cursor.ahead_self (ahead_enter.trans v.cursor.skipWord_reached)
  | argument child p =>
    obtain rfl := Option.some.inj h
    have hp := ht child p (mem_argumentsOf.mp (mem_argumentsOf_of_mem_turns hturn)).2
    exact ahead_permitted v.cursor.ahead_self (ahead_enterValue hp)
  | mismatch =>
    obtain ⟨_, _, rfl⟩ := Option.map_eq_some_iff.mp h
    exact v.cursor.ahead_self

/-- All that is said against a line behind a visit is said at places ahead of it. -/
theorem events_ahead (ht : t.Locates) (v : Visit α) :
    ∀ r, .rejected r ∈ t.events v ∨ .denied r ∈ t.events v → v.cursor.Ahead r.position := by
  induction hn : v.left using Nat.strongRecOn generalizing v with
  | ind n ih =>
    intro r hr
    simp only [events_eq, List.mem_flatMap, ← exists_or, ← and_or_left] at hr
    obtain ⟨b, hb, hevent⟩ := hr
    obtain ⟨turn, hturn, hattempt⟩ := List.mem_filterMap.mp hb
    have hahead := ahead_of_attempt ht hturn hattempt
    cases b with
    | rejected r' | denied r' =>
      obtain rfl : r = r' := by simpa [branchEvents] using hevent
      exact hahead
    | bound c => simp [branchEvents] at hevent
    | enter w =>
      exact (ih w.left (hn ▸ left_lt_of_attempt hturn hattempt) w rfl r hevent).trans
        (reached_of_attempt hattempt)

/-! ## Nothing is passed over in silence -/

/-- Inside a bundle there is a shorthand to read. -/
def Visit.Live (v : Visit α) : Prop := v.bundled = true → v.cursor.rest ≠ []

/-- A bundle goes on only where its word does. -/
theorem Spells.rest_ne_nil (h : t.Spells v turn child p c true) : c.rest ≠ [] := by
  generalize hattached : true = attached at h
  cases h with
  | long => cases hattached
  | short | bundled => exact Cursor.rest_ne_nil_of_atBreak_eq_false (by simpa using hattached)

/-- Where a search goes on inside a bundle, there is a shorthand to read. -/
theorem Moves.live {given : Option (Given α)} (h : t.Moves v turn given w) : Visit.Live w := by
  cases h with
  | bundle hspells => exact fun _ => hspells.rest_ne_nil
  | literal | argument | switch | value => exact fun hbundled => nomatch hbundled

/-- A shorthand that is there is spelled by a flag or unknown. -/
theorem isSome_shorthandBranch? (h : c.rest ≠ []) :
    (t.shorthandBranch? id c ctx).isSome = true := by
  unfold shorthandBranch?
  split
  · exact (h ‹_›).elim
  · split <;> rfl

/-- At a node with flags a word in the form of a flag has its say. -/
theorem isSome_flagBranch? (hflags : (t.node id).flags.isEmpty = false)
    (hspelled : (t.settings.flagSpelling? c.word).isSome = true) :
    (t.flagBranch? id c ctx).isSome = true := by
  unfold flagBranch?
  rw [hflags, if_neg Bool.false_ne_true]
  split
  · rename_i hspelling
    rw [hspelling] at hspelled
    cases hspelled
  · split <;> rfl
  · rename_i hspelling
    apply isSome_shorthandBranch?
    exact Cursor.rest_ne_nil_of_atBreak_eq_false
      (Settings.atBreak_advance_shortPrefix hspelling).2

namespace Chart

variable {known : Command α σ → Prop} (m : Chart known t)
include m

/-- Where there are arguments, one of them has a turn. -/
theorem exists_mem_argumentsOf (hv : v.node < t.nodes.size)
    (h : (t.node v.node).arguments ≠ []) : ∃ child p, (child, p) ∈ t.argumentsOf v.node := by
  obtain ⟨child, hchild⟩ := List.exists_mem_of_ne_nil _ h
  obtain ⟨p, _, hleads⟩ := (m.stands v.node hv).argument child hchild
  exact ⟨child, p, mem_argumentsOf.mpr ⟨hchild, hleads.label_eq⟩⟩

/-- The complaint that no child accepted a word is left out only where a child had its say: the
literal of that name, an argument or the flags. -/
theorem exists_attempt_of_mismatch?_eq_none (hv : v.node < t.nodes.size)
    (h : t.mismatch? v.node v.cursor.word = none) :
    ∃ turn, (turn = .literal ∨ turn = .flag ∨
        ∃ child p, turn = .argument child p ∧ (child, p) ∈ t.argumentsOf v.node) ∧
      (t.attempt v.node v.cursor v.context turn).isSome = true := by
  simp only [mismatch?] at h
  split_ifs at h with hliteral hroot harguments hliterals hflags
  · exact ⟨.literal, .inl rfl, by simpa [attempt, literalBranch?] using hliteral⟩
  · obtain ⟨child, p, hmem⟩ := m.exists_mem_argumentsOf hv (by simpa using harguments)
    exact ⟨.argument child p, .inr (.inr ⟨child, p, rfl, hmem⟩), rfl⟩
  · obtain ⟨hne, hspelled⟩ := Bool.and_eq_true_iff.mp hflags
    exact ⟨.flag, .inr (.inl rfl), isSome_flagBranch? (by simpa using hne) hspelled⟩

/-- Some turn of a visit comes to something. -/
theorem exists_branch (hv : v.node < t.nodes.size) (hlive : Visit.Live v) :
    ∃ turn b, turn ∈ t.turns v ∧ t.attempt v.node v.cursor v.context turn = some b := by
  suffices h : ∃ turn ∈ t.turns v, (t.attempt v.node v.cursor v.context turn).isSome = true by
    obtain ⟨turn, hturn, hsome⟩ := h
    exact ⟨turn, _, hturn, (Option.some_get hsome).symm⟩
  unfold turns
  by_cases hbundled : v.bundled = true
  · exact ⟨.shorthand, by simp [hbundled], isSome_shorthandBranch? (hlive hbundled)⟩
  · by_cases hend : v.cursor.atEnd = true
    · exact ⟨.finish, by simp [hbundled, hend], rfl⟩
    · rw [if_neg hbundled, if_neg hend]
      cases hmismatch : t.mismatch? v.node v.cursor.word with
      | some cause =>
        exact ⟨.mismatch, by simp, by simp [attempt, mismatchBranch?, hmismatch]⟩
      | none =>
        obtain ⟨turn, hturn, hsome⟩ := m.exists_attempt_of_mismatch?_eq_none hv hmismatch
        refine ⟨turn, ?_, hsome⟩
        rcases hturn with rfl | rfl | ⟨child, p, rfl, hmem⟩
        · simp
        · simp
        · simpa using hmem

/-- Every visit comes to something. -/
theorem events_ne_nil (hv : v.node < t.nodes.size) (hlive : Visit.Live v) : t.events v ≠ [] := by
  induction hn : v.left using Nat.strongRecOn generalizing v with
  | ind n ih =>
    obtain ⟨turn, b, hturn, hattempt⟩ := m.exists_branch hv hlive
    have hb : b ∈ t.branches v := List.mem_filterMap.mpr ⟨turn, hturn, hattempt⟩
    have hbranch : t.branchEvents v b ≠ [] := by
      cases b with
      | rejected | denied | bound => simp [branchEvents]
      | enter w =>
        obtain ⟨given, hmove⟩ := attempt_eq_enter_iff.mp hattempt
        obtain ⟨step, hedge, _⟩ := hmove.exists_edge hturn
        exact ih w.left (hn ▸ left_lt_of_attempt hturn hattempt) (m.leads_of_edge hv hedge).lt
          hmove.live rfl
    rw [events_eq]
    intro hnil
    exact hbranch (List.flatMap_eq_nil_iff.mp hnil b hb)

end Chart

end Tree

end CommandLine
