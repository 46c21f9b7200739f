import CommandLine.Proofs.Search.Agreement
import CommandLine.Proofs.Search.FirstWord
import CommandLine.Proofs.Search.Suggested

/-!
# The search as calls

A turn that finds a child goes on with a call: with the child, the cursor behind what was read and
the values so far. That the word has ended there is looked at by the call itself, which then passes
over the blanks. So a call begins where the reading of its turn stopped, and not where the visit
behind it begins.

A call is made only after something was read. Where a word begins, a literal, a flag and its
shorthand are read as they stand, and a type that accepts something reads at least a character of
it; behind the name of a flag the value may be anything.

* `BuiltinType.consumes` — the built-in types read at least one character where a word begins;
* `calls_of_turn` — what the call of a turn has to do with its branch, and that it begins behind
  the cursor of its visit.
-/

set_option autoImplicit false

namespace CommandLine

variable {α σ : Type}

/-! ## Cursors that pass something -/

namespace Cursor

/-- The cursor `d` is reached from `c` over at least one character. -/
def Passes (c d : Cursor) : Prop := c.Reaches d ∧ d.rest.length < c.rest.length

variable {c d e : Cursor}

/-- Going forward before passing a character passes it. -/
theorem Reaches.passes (h : c.Reaches d) (hd : d.Passes e) : c.Passes e :=
  ⟨h.trans hd.1, Nat.lt_of_lt_of_le hd.2 h.length_rest_le⟩

/-- And going forward behind it too. -/
theorem Passes.reaches (h : c.Passes d) (hd : d.Reaches e) : c.Passes e :=
  ⟨h.1.trans hd, Nat.lt_of_le_of_lt hd.length_rest_le h.2⟩

/-- Passing a character increases the position. -/
theorem Passes.position_lt (h : c.Passes d) : c.position < d.position := by
  obtain ⟨⟨taken, hrest, hpassed⟩, hlt⟩ := h
  cases taken with
  | nil =>
    rw [hrest] at hlt
    exact (Nat.lt_irrefl _ hlt).elim
  | cons ch taken =>
    have hpos := Char.utf8Size_pos ch
    simp only [position, hpassed, byteCount_append, byteCount_reverse, byteCount]
    omega

/-- Where something is left, one character can be passed. -/
theorem passes_advance_one (h : c.rest ≠ []) : c.Passes (c.advance 1) :=
  ⟨advance_reached 1 c, length_advance_one_lt h⟩

/-- A word that begins here is passed. -/
theorem passes_skipWord (h : c.atBreak = false) : c.Passes c.skipWord := by
  have hreached := skipWord_reached c
  refine ⟨hreached, Nat.lt_of_le_of_ne hreached.length_rest_le fun hlen => ?_⟩
  have hbreak := atBreak_skipWord c
  rw [hreached.eq_of_length_rest hlen, h] at hbreak
  cases hbreak

/-- A reader that accepts something where a word begins has passed a character. -/
def Consumes {β : Type} (read : Cursor → Reading β) : Prop :=
  ∀ c x after, c.atBreak = false → read c = (.ok x, after) → c.Passes after

/-- A word, quoted or not, has a character. -/
theorem consumes_readString : Consumes readString := by
  intro c x after hc h
  unfold readString at h
  split at h
  · cases h
  · rename_i ch rest hrest
    split at h
    · have hbody := readBody_reached ch c.position [] (ch :: c.passed) rest
      rw [h] at hbody
      have hquote : c.Passes ⟨ch :: c.passed, rest⟩ := ⟨⟨[ch], hrest, rfl⟩, by simp [hrest]⟩
      exact hquote.reaches hbody
    · obtain ⟨-, rfl⟩ := Prod.mk.inj h
      exact passes_skipWord hc

theorem consumes_readWordAs {β : Type} (convert : String → Option β) (reason : ValueFault) :
    Consumes (readWordAs convert reason) := by
  intro c x after hc h
  unfold readWordAs at h
  split at h
  · cases h
  · split at h
    · obtain ⟨-, rfl⟩ := Prod.mk.inj h
      exact passes_skipWord hc
    · cases h

/-- The rest of a line has a character where there is a rest. -/
theorem consumes_readAll : Consumes readAll := by
  intro c x after hc h
  unfold readAll at h
  split at h
  · cases h
  · obtain ⟨-, rfl⟩ := Prod.mk.inj h
    exact ⟨skipAll_reached c, List.length_pos_iff.mpr (rest_ne_nil_of_atBreak_eq_false hc)⟩

end Cursor

/-- A value type that passes a character of each word of which it accepts something. -/
def ValueType.Consumes (type : ValueType α) : Prop := ∀ ctx, Cursor.Consumes (type.parse ctx)

namespace BuiltinType

/-- What is accepted afterwards was read before. -/
theorem consumes_checked {β : Type} {read : Cursor → Reading β} {accept : β → Except Cause Value}
    (h : Cursor.Consumes read) : Cursor.Consumes fun c => checked c (read c) accept := by
  intro c value after hc hchecked
  obtain ⟨x, hread, _⟩ := checked_eq_ok_iff.mp hchecked
  exact h c x after hc hread

/-- The built-in types read at least one character where a word begins. -/
theorem consumes (b : BuiltinType) : (b.toValueType : ValueType α).Consumes := by
  intro ctx
  cases b with
  | choice | word => exact consumes_checked Cursor.consumes_readString
  | truth =>
    show Cursor.Consumes fun c => checked c c.readTruth fun b => .ok (.truth b)
    exact consumes_checked (Cursor.consumes_readWordAs _ _)
  | integer | decimal => exact consumes_checked (Cursor.consumes_readWordAs _ _)
  | greedy =>
    show Cursor.Consumes fun c => checked c c.readAll fun s => .ok (.text s)
    exact consumes_checked Cursor.consumes_readAll

end BuiltinType

/-! ## Calls -/

/-- A node to be searched from, as a turn hands it over: the cursor stands where the reading of the
turn stopped. -/
structure Call (α : Type) where
  node : NodeIndex
  cursor : Cursor
  context : Context α
  bundled : Bool := false

namespace Tree

/-- The call with which the search over a line begins. -/
def firstCall (principal : α) (line : String) : Call α :=
  { node := root, cursor := (Cursor.ofString line).skipBlank, context := .ofLine principal line }

/-- The visit of a call. Away from the root and outside a bundle the word has to have ended, and the
blanks behind it are passed over. -/
def arrive (t : Tree α σ) (call : Call α) : Except Rejection (Visit α) :=
  if call.bundled || call.node = root then
    .ok ⟨call.node, call.cursor, call.context, call.bundled⟩
  else if call.cursor.atBreak then .ok ⟨call.node, call.cursor.skipBlank, call.context, false⟩
  else .error ⟨.expectedWhitespace, call.cursor.position, some (t.node call.node).name⟩

/-- The branch that a call amounts to. -/
def arrival (t : Tree α σ) (call : Call α) : Branch α σ :=
  match t.arrive call with
  | .ok v => .enter v
  | .error r => .rejected r

/-- Makes a call only if the child is open to the principal. -/
def permittedCall? (t : Tree α σ) (ctx : Context α) (child : NodeIndex)
    (call : Option (Call α)) : Option (Call α) :=
  if (t.node child).permission.allows ctx.principal then call else none

/-- The call behind the value of a parameter. -/
def valueCall? (child : NodeIndex) (p : Parameter α) (c : Cursor) (ctx : Context α) :
    Option (Call α) :=
  match p.type.parse ctx c with
  | (.ok value, after) => some ⟨child, after, ctx.bind p.name value, false⟩
  | (.error _, _) => none

/-- The call behind a switch, or behind a flag and its value. -/
def flagCall? (child : NodeIndex) (p : Parameter α) (c : Cursor) (ctx : Context α)
    (attached : Bool) : Option (Call α) :=
  if p.isSwitch then some ⟨child, c, ctx.bind p.name (.truth true), attached⟩
  else
    let start := if attached then c else c.skipBlank
    if start.atEnd then none else valueCall? child p start ctx

/-- The call at a shorthand. -/
def shorthandCall? (t : Tree α σ) (id : NodeIndex) (c : Cursor) (ctx : Context α) :
    Option (Call α) :=
  match c.rest with
  | [] => none
  | ch :: _ => (t.flagShort? id ch).bind fun (child, p) =>
    t.permittedCall? ctx child (flagCall? child p (c.advance 1) ctx (!(c.advance 1).atBreak))

/-- The call at a word that spells flags. -/
def spelledCall? (t : Tree α σ) (id : NodeIndex) (c : Cursor) (ctx : Context α) :
    Option (Call α) :=
  if (t.node id).flags.isEmpty then none
  else match t.settings.flagSpelling? c.word with
    | none => none
    | some (.long name) => (t.flagNamed? id name).bind fun (child, p) =>
      t.permittedCall? ctx child (flagCall? child p c.skipWord ctx false)
    | some .short => t.shorthandCall? id (c.advance t.settings.shortPrefix.length) ctx

/-- The call that a turn at a node makes, if it makes one. -/
def call? (t : Tree α σ) (id : NodeIndex) (c : Cursor) (ctx : Context α) :
    Turn α → Option (Call α)
  | .shorthand => t.shorthandCall? id c ctx
  | .literal => ((t.node id).literal? c.word).bind fun child =>
    t.permittedCall? ctx child (some ⟨child, c.skipWord, ctx, false⟩)
  | .flag => t.spelledCall? id c ctx
  | .argument child p => t.permittedCall? ctx child (valueCall? child p c ctx)
  | .finish | .mismatch => none

/-! ## What a call has to do with its branch -/

/-- A turn at a cursor makes a call just where its branch does more than to reject, deny or end: the
branch is what the call amounts to, the call is to a child and begins behind the cursor. -/
def Calls (t : Tree α σ) (id : NodeIndex) (c : Cursor) (b : Option (Branch α σ)) :
    Option (Call α) → Prop
  | none => ∀ w, b ≠ some (.enter w)
  | some call => b = some (t.arrival call) ∧ t.Child id call.node ∧ c.Passes call.cursor

variable {t : Tree α σ} {id child : NodeIndex} {p : Parameter α} {c d : Cursor} {ctx : Context α}
  {attached : Bool} {turn : Turn α}

/-- A turn that goes nowhere makes no call. -/
theorem not_calls {b : Option (Branch α σ)} (h : ∀ w, b ≠ some (.enter w)) :
    t.Calls id c b none := h

/-- A call made further on. -/
theorem Calls.of_reaches {b : Option (Branch α σ)} {call : Option (Call α)} (hcd : c.Reaches d)
    (h : t.Calls id d b call) : t.Calls id c b call := by
  cases call with
  | none => exact h
  | some call => exact ⟨h.1, h.2.1, hcd.passes h.2.2⟩

/-- A call to a node is made by those whom it lets in. -/
theorem calls_permitted {b : Branch α σ} {call : Option (Call α)} (position : Nat)
    (h : t.Calls id c (some b) call) :
    t.Calls id c (some (t.permitted ctx child position b)) (t.permittedCall? ctx child call) := by
  unfold permitted permittedCall?
  split
  · exact h
  · exact not_calls (by simp)

section

variable (hchild : t.Child id child) (hroot : child ≠ root)
include hchild hroot

/-- Entering a child is what a call to it amounts to. -/
theorem calls_enter (hcd : c.Passes d) :
    t.Calls id c (some (t.enter child d ctx)) (some ⟨child, d, ctx, false⟩) := by
  refine ⟨?_, hchild, hcd⟩
  simp only [arrival, arrive, enter, hroot, decide_false, Bool.or_false, Bool.false_eq_true,
    if_false]
  split <;> rfl

/-- Behind a value the call begins where the value was read. -/
theorem calls_enterValue
    (hread : ∀ value after, p.type.parse ctx d = (.ok value, after) → c.Passes after) :
    t.Calls id c (some (t.enterValue child p d ctx)) (valueCall? child p d ctx) := by
  unfold enterValue valueCall?
  cases hparse : p.type.parse ctx d with
  | mk answer after =>
    cases answer with
    | ok value => exact calls_enter hchild hroot (hread value after hparse)
    | error r => exact not_calls (by simp)

/-- Behind the name of a flag nothing more has to be read. -/
theorem calls_afterFlag (hcd : c.Passes d) :
    t.Calls id c (some (t.afterFlag child p d ctx attached))
      (flagCall? child p d ctx attached) := by
  have hvalue (e : Cursor) (hde : d.Reaches e) :
      t.Calls id c (some (t.flagValue child p e ctx))
        (if e.atEnd then none else valueCall? child p e ctx) := by
    unfold flagValue
    split
    · exact not_calls (by simp)
    · refine calls_enterValue hchild hroot fun value after hparse => ?_
      have hreached := p.type.parse_reached ctx e
      rw [hparse] at hreached
      exact hcd.reaches (hde.trans hreached)
  unfold afterFlag flagCall?
  cases hswitch : p.isSwitch with
  | true =>
    cases attached with
    | true => exact ⟨rfl, hchild, hcd⟩
    | false => exact calls_enter hchild hroot hcd
  | false =>
    cases attached with
    | true => exact hvalue d (.refl d)
    | false => exact hvalue d.skipBlank d.skipBlank_reached

end

section

variable (hroot : ∀ child, t.Child id child → child ≠ root)
include hroot

/-- Behind a shorthand it begins behind its character or behind its value. -/
theorem calls_shorthandBranch? :
    t.Calls id c (t.shorthandBranch? id c ctx) (t.shorthandCall? id c ctx) := by
  unfold shorthandBranch? shorthandCall?
  cases hrest : c.rest with
  | nil => exact not_calls (by simp)
  | cons ch rest =>
    cases hfind : t.flagShort? id ch with
    | none =>
      simp only [hfind]
      exact not_calls (by simp)
    | some found =>
      have hchild := child_of_mem_flagsOf (mem_flagsOf_of_flagShort? hfind)
      have hpasses : c.Passes (c.advance 1) := Cursor.passes_advance_one (by simp [hrest])
      simp only [hfind, Option.bind_some]
      exact calls_permitted _ (calls_afterFlag hchild (hroot _ hchild) hpasses)

/-- Behind the name of a flag it begins behind its word or behind its value. -/
theorem calls_flagBranch? (hc : c.atBreak = false) :
    t.Calls id c (t.flagBranch? id c ctx) (t.spelledCall? id c ctx) := by
  unfold flagBranch? spelledCall?
  split
  · exact not_calls (by simp)
  · cases hspelling : t.settings.flagSpelling? c.word with
    | none => exact not_calls (by simp)
    | some spelling =>
      cases spelling with
      | long name =>
        cases hfind : t.flagNamed? id name with
        | none =>
          simp only [hfind]
          exact not_calls (by simp)
        | some found =>
          have hchild := child_of_mem_flagsOf (of_flagNamed?_eq_some hfind).1
          simp only [hfind, Option.bind_some]
          exact calls_permitted _
            (calls_afterFlag hchild (hroot _ hchild) (Cursor.passes_skipWord hc))
      | short => exact (calls_shorthandBranch? hroot).of_reaches (Cursor.advance_reached _ c)

end

/-- All parameters in the tree are of types that read at least a character where a word begins. -/
def Consumes (t : Tree α σ) : Prop :=
  ∀ i p, (t.node i).label = .parameter p → p.type.Consumes

/-- Whether a visit stands where something begins: outside a bundle the blanks were passed over. -/
def Visit.Ready (v : Visit α) : Prop := v.bundled = false → v.cursor.atBlank = false

/-- Every turn of a visit makes the call that its branch amounts to, whatever has been found so
far. -/
theorem calls_of_turn (ht : t.Consumes) {v : Visit α} (hready : Visit.Ready v)
    (hroot : ∀ child, t.Child v.node child → child ≠ root) (hturn : turn ∈ t.turns v)
    (ctx : Context α) :
    t.Calls v.node v.cursor (t.attempt v.node v.cursor ctx turn)
      (t.call? v.node v.cursor ctx turn) := by
  -- Between two words a turn other than the last one finds a word in front, since the blanks were
  -- passed.
  have hword : turn = .shorthand ∨ turn = .finish ∨ v.cursor.atBreak = false := by
    unfold turns at hturn
    split at hturn
    · exact .inl (List.mem_singleton.mp hturn)
    · rename_i hbundled
      split at hturn
      · exact .inr (.inl (List.mem_singleton.mp hturn))
      · rename_i hend
        have hblank := hready (by simpa using hbundled)
        exact .inr (.inr (by simp [Cursor.atBreak, hblank, hend]))
  cases turn with
  | shorthand => exact calls_shorthandBranch? hroot
  | finish =>
    apply not_calls
    intro w
    simp only [attempt, endBranch]
    split
    · split <;> simp
    · simp
  | literal =>
    have hc : v.cursor.atBreak = false := by simpa using hword
    simp only [attempt, literalBranch?, call?]
    cases hfind : (t.node v.node).literal? v.cursor.word with
    | none => exact not_calls (by simp)
    | some child =>
      have hchild : t.Child v.node child := .inl ⟨_, Node.mem_literals_of_literal? hfind⟩
      exact calls_permitted _ (calls_enter hchild (hroot _ hchild) (Cursor.passes_skipWord hc))
  | flag => exact calls_flagBranch? hroot (by simpa using hword)
  | argument child p =>
    have hc : v.cursor.atBreak = false := by simpa using hword
    have hmem := mem_argumentsOf_of_mem_turns hturn
    have hchild := child_of_mem_argumentsOf hmem
    have hconsumes := ht child p (mem_argumentsOf.mp hmem).2
    exact calls_permitted _ (calls_enterValue hchild (hroot _ hchild)
      fun value after hparse => hconsumes ctx v.cursor value after hc hparse)
  | mismatch =>
    apply not_calls
    intro w hw
    obtain ⟨cause, _, hcause⟩ := Option.map_eq_some_iff.mp hw
    cases hcause

end Tree

end CommandLine
