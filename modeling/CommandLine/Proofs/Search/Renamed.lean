import CommandLine.Proofs.Search.Paired
import CommandLine.Proofs.Search.Preceded
import CommandLine.Proofs.Tree.Renamed

/-!
# Reading below another first word

Where two trees have the same nodes below their only words, what follows the first word of a line is
read alike on both, as far behind either word. The readings go side by side (`Visit.Beside`): at one
node, with the same left of the line and the same values. What a turn says against the line is the
same, at places that are as far behind the first word, and where one line ends with a command the
other one ends with the command of the other name.

* `Renames.attempt_beside` — one turn;
* `Renames.events_beside` — all readings.
-/

set_option autoImplicit false

namespace CommandLine

variable {α σ : Type} {front front' : List Char} {ctx ctx' : Context α}

/-! ## Side by side -/

/-- The same is wrong, as far behind either of two texts. -/
structure Rejection.Beside (front front' : List Char) (r r' : Rejection) : Prop where
  cause_eq : r.cause = r'.cause
  exists_position : ∃ k, r.position = k + byteCount front ∧ r'.position = k + byteCount front'

/-- Visits to one node below the root, with the same values and the same left of the line. -/
structure Visit.Beside (front front' : List Char) (v v' : Visit α) : Prop where
  node_eq : v.node = v'.node
  ne_root : v.node ≠ Tree.root
  exists_cursor : ∃ c : Cursor, v.cursor = c.precededBy front ∧ v'.cursor = c.precededBy front'
  context : v.context.Alike v'.context
  bundled_eq : v.bundled = v'.bundled

/-- Branches that go side by side. -/
inductive Branch.Beside (front front' : List Char) : Branch α σ → Branch α σ → Prop
  | rejected {r r' : Rejection} : r.Beside front front' r' →
      Beside front front' (.rejected r) (.rejected r')
  | denied {r r' : Rejection} : r.Beside front front' r' →
      Beside front front' (.denied r) (.denied r')
  | bound {c c' : Command α σ} : c.Renames c' → Beside front front' (.bound c) (.bound c')
  | enter {v v' : Visit α} : v.Beside front front' v' → Beside front front' (.enter v) (.enter v')

/-- What is wrong at one place left of the line is wrong at it on both lines. -/
theorem Rejection.Beside.of_cursor (c : Cursor) (cause : Cause) (node node' : Option String) :
    Rejection.Beside front front' ⟨cause, (c.precededBy front).position, node⟩
      ⟨cause, (c.precededBy front').position, node'⟩ :=
  ⟨rfl, c.position, Cursor.position_precededBy, Cursor.position_precededBy⟩

/-- Rejections side by side agree on the order of places. -/
theorem Rejection.ordered_beside : Rejection.Ordered (Rejection.Beside front front') := by
  intro r r' g g' hr hg
  obtain ⟨k, hk, hk'⟩ := hr.exists_position
  obtain ⟨l, hl, hl'⟩ := hg.exists_position
  omega

namespace Tree

/-- All parameters of a tree have built-in types. -/
def ReadsBuiltins (t : Tree α σ) : Prop := ∀ i p, (t.node i).label = .parameter p → p.Builtin

variable {w w' : String} {t t' : Tree α σ} {i child : NodeIndex} {p : Parameter α} {c : Cursor}
  {b b' : Branch α σ} {known : Command α σ → Prop}

namespace Renames

/-! ## Branches -/

/-- Who may not pass is told so side by side. -/
theorem permitted_beside (h : Renames w w' t t') (hchild : child ≠ root) (hctx : ctx.Alike ctx')
    (hb : b.Beside front front' b') :
    (t.permitted ctx child (c.precededBy front).position b).Beside front front'
      (t'.permitted ctx' child (c.precededBy front').position b') := by
  unfold permitted
  rw [← (h.node child hchild).permission_eq, ← hctx.principal_eq]
  split
  · exact hb
  · exact .denied (.of_cursor c _ _ _)

/-- A node is entered on both sides, or a blank is expected on both. -/
theorem enter_beside (hchild : child ≠ root) (hctx : ctx.Alike ctx') :
    (t.enter child (c.precededBy front) ctx).Beside front front'
      (t'.enter child (c.precededBy front') ctx') := by
  unfold enter
  rw [Cursor.atBreak_precededBy, Cursor.atBreak_precededBy]
  split
  · exact .enter ⟨rfl, hchild,
      ⟨c.skipBlank, Cursor.skipBlank_precededBy, Cursor.skipBlank_precededBy⟩, hctx, rfl⟩
  · exact .rejected (.of_cursor c _ _ _)

/-- A value is read on both sides, or rejected on both. -/
theorem enterValue_beside (hp : p.Builtin) (hchild : child ≠ root) (hctx : ctx.Alike ctx') :
    (t.enterValue child p (c.precededBy front) ctx).Beside front front'
      (t'.enterValue child p (c.precededBy front') ctx') := by
  obtain ⟨type, htype⟩ := hp
  have hparse (ctx : Context α) (c : Cursor) : p.type.parse ctx c = type.parse c := by
    rw [htype]
    rfl
  unfold enterValue
  rw [hparse, hparse, type.parse_precededBy, type.parse_precededBy]
  obtain ⟨answer, after⟩ := type.parse c
  cases answer with
  | error r => exact .rejected ⟨rfl, r.position, rfl, rfl⟩
  | ok value => exact enter_beside hchild (hctx.bind p.name value)

theorem flagValue_beside (hp : p.Builtin) (hchild : child ≠ root) (hctx : ctx.Alike ctx') :
    (t.flagValue child p (c.precededBy front) ctx).Beside front front'
      (t'.flagValue child p (c.precededBy front') ctx') := by
  unfold flagValue
  rw [Cursor.atEnd_precededBy, Cursor.atEnd_precededBy]
  split
  · exact .rejected (.of_cursor c _ _ _)
  · exact enterValue_beside hp hchild hctx

/-- What follows the name of a flag is read or rejected side by side. -/
theorem afterFlag_beside (hp : p.Builtin) (hchild : child ≠ root) (hctx : ctx.Alike ctx')
    (attached : Bool) :
    (t.afterFlag child p (c.precededBy front) ctx attached).Beside front front'
      (t'.afterFlag child p (c.precededBy front') ctx' attached) := by
  unfold afterFlag
  split
  · exact .enter ⟨rfl, hchild, ⟨c, rfl, rfl⟩, hctx.bind _ _, rfl⟩
  · exact enter_beside hchild (hctx.bind _ _)
  · exact flagValue_beside hp hchild hctx
  · rw [Cursor.skipBlank_precededBy, Cursor.skipBlank_precededBy]
    exact flagValue_beside hp hchild hctx

/-! ## Turns -/

/-- A bundle of shorthands goes side by side. -/
theorem shorthandBranch?_beside (h : Renames w w' t t') (ht : t.ReadsBuiltins) (hi : i ≠ root)
    (hctx : ctx.Alike ctx') :
    Option.Rel (Branch.Beside front front') (t.shorthandBranch? i (c.precededBy front) ctx)
      (t'.shorthandBranch? i (c.precededBy front') ctx') := by
  unfold shorthandBranch?
  rw [Cursor.rest_precededBy, Cursor.rest_precededBy]
  split
  · exact .none
  · rename_i ch _ _
    rw [← h.flagShort?_eq hi]
    cases hfind : t.flagShort? i ch with
    | none => exact .some (.rejected (.of_cursor c _ _ _))
    | some found =>
      obtain ⟨child, p⟩ := found
      have hmem := mem_flagsOf_of_flagShort? hfind
      have hchild := h.ne_root i child hi (child_of_mem_flagsOf hmem)
      simp only [Cursor.advance_precededBy, Cursor.atBreak_precededBy]
      exact .some (h.permitted_beside hchild hctx
        (afterFlag_beside (ht child p (mem_flagsOf.mp hmem).2) hchild hctx _))

/-- So does a word that names a flag. -/
theorem flagBranch?_beside (h : Renames w w' t t') (ht : t.ReadsBuiltins) (hi : i ≠ root)
    (hctx : ctx.Alike ctx') :
    Option.Rel (Branch.Beside front front') (t.flagBranch? i (c.precededBy front) ctx)
      (t'.flagBranch? i (c.precededBy front') ctx') := by
  unfold flagBranch?
  rw [← (h.node i hi).flags_eq, ← h.settings_eq, Cursor.word_precededBy, Cursor.word_precededBy]
  split
  · exact .none
  · split
    · exact .none
    · rename_i name _
      rw [← h.flagNamed?_eq hi]
      cases hfind : t.flagNamed? i name with
      | none => exact .some (.rejected (.of_cursor c _ _ _))
      | some found =>
        obtain ⟨child, p⟩ := found
        have hmem := (of_flagNamed?_eq_some hfind).1
        have hchild := h.ne_root i child hi (child_of_mem_flagsOf hmem)
        simp only [Cursor.skipWord_precededBy]
        exact .some (h.permitted_beside hchild hctx
          (afterFlag_beside (ht child p (mem_flagsOf.mp hmem).2) hchild hctx _))
    · rw [Cursor.advance_precededBy, Cursor.advance_precededBy]
      exact h.shorthandBranch?_beside ht hi hctx

/-- A word that fits no child is told the same. -/
theorem mismatch?_eq (h : Renames w w' t t') (hi : i ≠ root) (word : String) :
    t.mismatch? i word = t'.mismatch? i word := by
  have hn := h.node i hi
  simp only [mismatch?, Node.literalNames, hn.literal?_eq, hn.isRoot_eq, hn.arguments_eq,
    hn.literals_eq, hn.flags_eq, h.settings_eq]

/-- What is missing at a node is a child of a name that both trees give it. -/
theorem missing_eq (h : Renames w w' t t') (m : Chart known t) (hi : i ≠ root) :
    t.missing i = t'.missing i := by
  have hn := h.node i hi
  have hname (j : NodeIndex) (hj : j ∈ (t.node i).arguments) :
      (t.node j).name = (t'.node j).name := by
    obtain ⟨p, _, hleads⟩ := (m.stands i (Child.parent_lt (.inr (.inr hj)))).argument j hj
    have hlabel : (t'.node j).label = .parameter p := by
      rw [← Node.parameter?_eq_some, ← h.parameter?_eq j, Node.parameter?_eq_some]
      exact hleads.label_eq
    rw [Node.name, Node.name, hleads.label_eq, hlabel]
  simp only [missing, Node.literalNames, ← hn.isRoot_eq, ← hn.arguments_eq, ← hn.literals_eq,
    ← h.flagsOf_eq hi]
  cases hhead : (t.node i).arguments.head? with
  | none =>
    refine if_congr Iff.rfl rfl ?_
    generalize (((t.flagsOf i).map Prod.snd).find? (!·.isOptional) <|>
      ((t.flagsOf i).map Prod.snd).head?) = flag
    cases flag <;> rfl
  | some j => simp only [hname j (List.mem_of_head? hhead)]

/-- At the end of the line the commands differ in their names at most. -/
theorem endBranch_beside (h : Renames w w' t t') (m : Chart known t) (hi : i ≠ root)
    (hctx : ctx.Alike ctx') :
    (t.endBranch i (c.precededBy front) ctx).Beside front front'
      (t'.endBranch i (c.precededBy front') ctx') := by
  have hcommand := (h.node i hi).command
  unfold endBranch
  rw [← hctx.principal_eq, ← h.missing_eq m hi]
  generalize (t.node i).command = found at hcommand
  generalize (t'.node i).command = found' at hcommand
  cases hcommand with
  | none => exact .rejected (.of_cursor c _ _ _)
  | @some d d' hd =>
    have hpermission : d'.permission = d.permission := by rw [hd]
    simp only [hpermission]
    split
    · exact .bound hd
    · exact .denied (.of_cursor c _ _ _)

/-- The two visits have the same turns. -/
theorem turns_eq (h : Renames w w' t t') {v v' : Visit α} (hv : v.Beside front front' v') :
    t'.turns v' = t.turns v := by
  obtain ⟨c, hc, hc'⟩ := hv.exists_cursor
  rw [turns, turns, ← hv.node_eq, ← hv.bundled_eq, hc, hc', ← h.argumentsOf_eq hv.ne_root,
    Cursor.atEnd_precededBy, Cursor.atEnd_precededBy]

/-- The turns of visits side by side come to the same. -/
theorem attempt_beside (h : Renames w w' t t') (m : Chart known t) (ht : t.ReadsBuiltins)
    {v v' : Visit α} (hv : v.Beside front front' v') {turn : Turn α} (hturn : turn ∈ t.turns v) :
    Option.Rel (Branch.Beside front front') (t.attempt v.node v.cursor v.context turn)
      (t'.attempt v'.node v'.cursor v'.context turn) := by
  have hi := hv.ne_root
  have hctx := hv.context
  obtain ⟨c, hc, hc'⟩ := hv.exists_cursor
  rw [← hv.node_eq, hc, hc']
  cases turn with
  | shorthand => exact h.shorthandBranch?_beside ht hi hctx
  | flag => exact h.flagBranch?_beside ht hi hctx
  | finish => exact .some (h.endBranch_beside m hi hctx)
  | literal =>
    simp only [attempt, literalBranch?, Cursor.word_precededBy, ← (h.node _ hi).literal?_eq,
      Cursor.skipWord_precededBy]
    cases hfind : (t.node v.node).literal? c.word with
    | none => exact .none
    | some child =>
      have hchild := h.ne_root _ child hi (.inl ⟨_, Node.mem_literals_of_literal? hfind⟩)
      exact .some (h.permitted_beside hchild hctx (enter_beside hchild hctx))
  | argument child p =>
    have hmem := mem_argumentsOf_of_mem_turns hturn
    have hchild := h.ne_root _ child hi (child_of_mem_argumentsOf hmem)
    exact .some (h.permitted_beside hchild hctx
      (enterValue_beside (ht child p (mem_argumentsOf.mp hmem).2) hchild hctx))
  | mismatch =>
    simp only [attempt, mismatchBranch?, Cursor.word_precededBy, ← h.mismatch?_eq hi]
    cases t.mismatch? v.node c.word with
    | none => exact .none
    | some cause => exact .some (.rejected (.of_cursor c _ _ _))

/-- What comes of all readings on the one tree comes of those on the other. -/
theorem events_beside (h : Renames w w' t t') (m : Chart known t) (ht : t.ReadsBuiltins)
    {v v' : Visit α} (hv : v.Beside front front' v') :
    List.Forall₂ (Event.Paired Command.Renames (Rejection.Beside front front')) (t.events v)
      (t'.events v') := by
  induction hn : v.left using Nat.strongRecOn generalizing v v' with
  | ind n ih =>
    rw [events_eq_flatMap_turns, events_eq_flatMap_turns, h.turns_eq hv]
    refine List.rel_flatMap (R := fun a b => a = b ∧ a ∈ t.turns v)
      (List.forall₂_same.mpr fun turn hmem => ⟨rfl, hmem⟩) ?_
    rintro turn _ ⟨rfl, hmem⟩
    have hrel := h.attempt_beside m ht hv hmem
    unfold turnEvents
    generalize hattempt : t.attempt v.node v.cursor v.context turn = b at hrel
    generalize t'.attempt v'.node v'.cursor v'.context turn = b' at hrel
    cases hrel with
    | none => exact .nil
    | some hb =>
      cases hb with
      | rejected hr => exact .cons (.rejected hr) .nil
      | denied hr => exact .cons (.denied hr) .nil
      | bound hc => exact .cons (.bound ⟨hc, hv.context⟩) .nil
      | @enter u u' hu => exact ih u.left (hn ▸ left_lt_of_attempt hmem hattempt) hu rfl

end Renames

end Tree

end CommandLine
