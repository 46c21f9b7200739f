import CommandLine.Proofs.Search.Agreement
import CommandLine.Proofs.Search.Refinement

/-!
# Below the first word

The root has literal children only, so the first word of a line decides below which of them the line
is read. Two trees that are alike there read the line alike, whatever other words they know.

* `Chart.events_start_of_word` — what comes of a line whose first word is known;
* `AlikeBelow` — what two trees have in common below one word;
* `Chart.search_start_eq`, `Chart.parse_eq_of_alike` — they read the lines that start with it alike.
-/

set_option autoImplicit false

namespace CommandLine.Tree

variable {α σ : Type}

/-- The first word of a line, empty if there is none. -/
def firstWord (line : String) : String := (Cursor.ofString line).skipBlank.word

/-- Where there is a word, its turns come. -/
theorem turns_of_word {t : Tree α σ} {v : Visit α} (hbundled : v.bundled = false)
    (hword : v.cursor.word ≠ "") : t.turns v =
      .literal :: .flag :: (t.argumentsOf v.node).map (fun child => .argument child.1 child.2) ++
        [.mismatch] := by
  have hend : v.cursor.atEnd = false := by
    rw [Cursor.atEnd, ← Bool.not_eq_true, List.isEmpty_iff]
    intro hrest
    exact hword (by rw [Cursor.word, hrest]; rfl)
  rw [turns, hbundled, hend]
  rfl

/-- A first word that the principal may not use ends the search, whatever follows it. -/
theorem parse_of_denied_word {t : Tree α σ} {principal : α} {line w : String} {j : NodeIndex}
    (hline : firstWord line = w) (hw : w ≠ "") (hfind : (t.node root).literal? w = some j)
    (hdenied : (t.node j).permission.allows principal = false) :
    t.parse principal line = .error
      ⟨.noPermission, (Cursor.ofString line).skipBlank.position, some (t.node j).name⟩ := by
  have hword : (start principal line).cursor.word = w := hline
  have hattempt : t.attempt (start principal line).node (start principal line).cursor
      (start principal line).context .literal = some (.denied
        ⟨.noPermission, (Cursor.ofString line).skipBlank.position, some (t.node j).name⟩) := by
    have hprincipal : (start principal line).context.principal = principal := rfl
    rw [attempt, literalBranch?, hword, show (start principal line).node = root from rfl, hfind,
      Option.map_some, permitted, hprincipal, hdenied]
    rfl
  apply parse_of_denied
  rw [search_eq, turns_of_word rfl (hword ▸ hw), List.cons_append, List.foldl_cons]
  rw [foldl_takeTurn_of_isSome] <;> simp only [Searched.andThen, takeTurn, hattempt] <;> rfl

/-- A tree has a copy of all that is below a word at the root of another one. -/
structure AlikeBelow (word : String) (f : NodeIndex → NodeIndex) (t t' : Tree α σ)
    (S : NodeIndex → Prop) : Prop extends Copies f t t' S where
  word_eq : (t'.node root).literal? word = ((t.node root).literal? word).map f
  word_mem : ∀ j, (t.node root).literal? word = some j → S j

namespace Chart

variable {t t' : Tree α σ} {known known' : Command α σ → Prop} (m : Chart known t)
  {i j : NodeIndex}

/-! ## The root -/

include m

/-- No line ends at the root with a command. -/
theorem command_root : (t.node root).command = none := by
  cases hcommand : (t.node root).command with
  | none => rfl
  | some c =>
    obtain ⟨_, k, _, hk, hvisits, _⟩ := (m.stands root m.size_pos).bound c hcommand
    have hhead := hvisits.passes.head?_eq hk.pos
    rw [m.way_root] at hhead
    cases hhead

theorem isRoot_root : (t.node root).isRoot = true := by
  rw [Node.isRoot, m.root_label]

theorem name_root : (t.node root).name = "" := by
  rw [Node.name, m.root_label]

theorem flags_root : (t.node root).flags = [] :=
  ((m.stands root m.size_pos).top m.root_label).1

theorem argumentsOf_root : t.argumentsOf root = [] := by
  rw [argumentsOf, ((m.stands root m.size_pos).top m.root_label).2]
  rfl

/-- A first word that lets the principal through leads to its node, and nothing else comes of the
line there. -/
theorem events_start_of_word {principal : α} {line w : String} (hline : firstWord line = w)
    (hw : w ≠ "") (hfind : (t.node root).literal? w = some j)
    (hallows : (t.node j).permission.allows principal = true) :
    t.events (start principal line) =
      t.events ⟨j, (start principal line).cursor.skipWord.skipBlank,
        (start principal line).context, false⟩ := by
  have hword : (start principal line).cursor.word = w := hline
  have hnode : (start principal line).node = root := rfl
  have hliteral : t.turnEvents (start principal line) .literal =
      t.events ⟨j, (start principal line).cursor.skipWord.skipBlank,
        (start principal line).context, false⟩ := by
    have henter : t.attempt (start principal line).node (start principal line).cursor
        (start principal line).context .literal =
          some (.enter ⟨j, (start principal line).cursor.skipWord.skipBlank,
            (start principal line).context, false⟩) :=
      attempt_eq_enter_iff.mpr ⟨none, .literal (by rw [hword, hnode, hfind]) hallows
        (Cursor.atBreak_skipWord _)⟩
    rw [turnEvents, henter]
    rfl
  have hflag : t.turnEvents (start principal line) .flag = [] := by
    simp [turnEvents, attempt, flagBranch?, hnode, m.flags_root]
  have hmismatch : t.turnEvents (start principal line) .mismatch = [] := by
    rw [turnEvents, attempt, mismatchBranch?, mismatch?, hword, hnode, hfind]
    rfl
  rw [events_eq_flatMap_turns, turns_of_word rfl (hword ▸ hw), hnode, m.argumentsOf_root]
  simp [hliteral, hflag, hmismatch]

/-! ## Below the root -/

/-- The ways to all nodes but the root start with a word. -/
theorem exists_head?_way (hi : i < t.nodes.size) (hne : i ≠ root) :
    ∃ w, (m.way i).head? = some (.literal w) := by
  obtain ⟨c, _, _, _, ⟨k, hk, hpasses⟩, _⟩ := m.origin i hi hne
  exact ⟨c.name, hpasses.head?_eq hk⟩

theorem exists_leads_of_child (hi : i < t.nodes.size) (hchild : t.Child i j) :
    ∃ label, t.Leads m.way i j label := by
  rcases hchild with ⟨w, hj⟩ | hj | hj
  · exact ⟨_, (m.stands i hi).literal w j hj⟩
  · exact ((m.stands i hi).flag j hj).imp' _ fun _ hp => hp.2.1
  · exact ((m.stands i hi).argument j hj).imp' _ fun _ hp => hp.2

/-- The root is nobody's child. -/
theorem ne_root_of_child (hi : i < t.nodes.size) (hchild : t.Child i j) : j ≠ root := by
  rcases hchild with ⟨w, hj⟩ | hj | hj
  · exact m.ne_root ((m.stands i hi).literal w j hj).label_eq (by simp)
  · obtain ⟨p, _, hleads, _⟩ := (m.stands i hi).flag j hj
    exact m.ne_root hleads.label_eq (by simp)
  · obtain ⟨p, _, hleads⟩ := (m.stands i hi).argument j hj
    exact m.ne_root hleads.label_eq (by simp)

/-- No word at the root is empty. -/
theorem ne_empty_of_literal? {w : String} (hbuilt : ∀ c, known c → c.Built)
    (h : (t.node root).literal? w = some j) : w ≠ "" := by
  have hleads : t.Leads m.way root j (.literal w) := m.leads_of_literal? m.size_pos h
  obtain ⟨c, hc, hmade⟩ := m.exists_made hleads.label_eq (by simp)
  have hhead := hmade.head?_eq
  rw [hleads.way_eq, m.way_root] at hhead
  obtain rfl := Step.literal.inj (Option.some.inj hhead)
  exact (hbuilt c hc).name_ne_empty

/-- Below the root a way goes on with the first word that it has. -/
theorem head?_way_eq (hi : i < t.nodes.size) (hne : i ≠ root) {label : Tree.Label α}
    (hleads : t.Leads m.way i j label) : (m.way j).head? = (m.way i).head? := by
  obtain ⟨w, hw⟩ := m.exists_head?_way hi hne
  rw [hleads.way_eq, List.head?_append, hw]
  rfl

/-! ## Lines that start with one word -/

variable (m' : Chart known' t') {word : String} {f : NodeIndex → NodeIndex} {S : NodeIndex → Prop}
include m'

/-- Turns at the root come to the same for the word below which two trees are alike. -/
theorem attempt_root (h : AlikeBelow word f t t' S) {v : Visit α} (hv : v.node = root)
    (hbundled : v.bundled = false) (hword : v.cursor.word = word) {turn : Turn α}
    (hturn : turn ∈ t.turns v) (ctx : Context α) :
    t'.attempt root v.cursor ctx turn =
        (t.attempt root v.cursor ctx turn).map (Branch.rename f) ∧
      ∀ w, t.attempt root v.cursor ctx turn = some (.enter w) → S w.node := by
  -- At the root only words lead on, so all other turns say the same on both trees.
  cases turn with
  | shorthand =>
    exfalso
    unfold turns at hturn
    rw [hbundled] at hturn
    cases hend : v.cursor.atEnd <;> simp [hend] at hturn
  | finish =>
    have hend {t : Tree α σ} {known : Command α σ → Prop} (m : Chart known t) :
        t.attempt root v.cursor ctx .finish =
          some (.rejected ⟨.unknownCommand "", v.cursor.position, some ""⟩) := by
      simp only [attempt, endBranch, missing, m.command_root, m.isRoot_root, m.name_root, if_true]
    rw [hend m, hend m']
    exact ⟨rfl, by simp⟩
  | literal =>
    simp only [attempt, literalBranch?, hword, h.word_eq]
    cases hfind : (t.node root).literal? word with
    | none => exact ⟨rfl, by simp⟩
    | some j =>
      have hj := h.word_mem j hfind
      simp only [Option.map_some, h.enter_eq hj, h.permitted_eq hj]
      refine ⟨trivial, ?_⟩
      intro w hw
      obtain ⟨_, rfl⟩ := enter_eq_enter_iff.mp (eq_of_permitted_eq_enter (Option.some.inj hw))
      exact hj
  | flag =>
    simp [attempt, flagBranch?, m.flags_root, m'.flags_root]
  | argument child p =>
    have hmem := mem_argumentsOf_of_mem_turns hturn
    rw [hv, m.argumentsOf_root] at hmem
    cases hmem
  | mismatch =>
    cases hfind : (t.node root).literal? word <;>
      simp [attempt, mismatchBranch?, mismatch?, m.isRoot_root, m'.isRoot_root, m.name_root,
        m'.name_root, hword, h.word_eq, hfind, Branch.rename]

/-- A line that starts with the word is searched alike. -/
theorem search_start_eq (h : AlikeBelow word f t t' S) (principal : α) {line : String}
    (hword : firstWord line = word) :
    t'.search (start principal line) = t.search (start principal line) := by
  have hturns : t'.turns (start principal line) = t.turns (start principal line) := by
    have harguments : t'.argumentsOf (start principal line).node =
        t.argumentsOf (start principal line).node :=
      m'.argumentsOf_root.trans m.argumentsOf_root.symm
    rw [turns, turns, harguments]
  rw [Tree.search_eq, Tree.search_eq, hturns]
  -- The turns at the root are the same list, so the folds are compared turn by turn.
  apply List.foldl_ext
  intro s turn hturn
  congr 1
  funext s
  obtain ⟨hattempt, hmem⟩ :=
    m.attempt_root m' h (v := start principal line) rfl rfl hword hturn s.context
  have hroot : (start principal line).node = root := rfl
  unfold takeTurn
  rw [hroot, hattempt]
  cases hb : t.attempt root (start principal line).cursor s.context turn with
  | none => rfl
  | some b =>
    cases b with
    | rejected r | denied r | bound c => rfl
    | enter w =>
      simp only [Option.map_some, Branch.rename, h.search_eq (hmem w hb)]

/-- A line is parsed alike on trees that are alike below its first word. -/
theorem parse_eq_of_alike (h : AlikeBelow word f t t' S) (principal : α) {line : String}
    (hword : firstWord line = word) : t'.parse principal line = t.parse principal line := by
  unfold parse reported
  rw [m.search_start_eq m' h principal hword, h.settings]

end Chart

end CommandLine.Tree
