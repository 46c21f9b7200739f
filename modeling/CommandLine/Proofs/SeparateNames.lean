import CommandLine.Proofs.Tree.Lockstep

/-!
# Commands of different names

Commands of different names do not interfere. However many insertions there were and in whatever
order, and even if some were refused, a line is parsed as if only the commands had been inserted
whose name is its first word. So two commands of different names may come in either order.

What the tree has below a word is, node by node, what the tree of that word alone has: an insertion
of another name leaves it aside, and an insertion of that name goes in lockstep in both trees
(`Isolates`).

* `Isolates.insert_own`, `Isolates.insert_other` — one insertion;
* `parse_insertEach` — all of them.
-/

set_option autoImplicit false

namespace CommandLine.Tree

variable {α σ : Type} {word : String} {t t' : Tree α σ} {c : Command α σ}

/-- The tree after some insertions, each of which may be refused. -/
def insertEach (cs : List (Command α σ)) (t : Tree α σ) : Tree α σ :=
  cs.foldl (fun t c => (Growth.insert c).after t) t

/-- If none is refused, these are the insertions in one go. -/
theorem insertEach_of_insertAll {cs : List (Command α σ)} {b : Unit}
    (h : Growth.insertAll cs t = .ok b t') : insertEach cs t = t' := by
  induction cs generalizing t with
  | nil => exact (EStateM.Result.ok.inj h).2
  | cons c cs ih =>
    rw [Growth.insertAll_cons] at h
    cases hrun : Growth.insert c t with
    | ok b u =>
      rw [hrun] at h
      rw [insertEach, List.foldl_cons, Growth.after_of_ok hrun]
      exact ih h
    | error e u =>
      rw [hrun] at h
      cases h

/-- One tree is what another one has below a word, and both have charts. -/
def Isolates (word : String) (t t' : Tree α σ) : Prop :=
  Nonempty (Chart Command.Built t) ∧
    ∃ (m' : Chart Command.Built t') (f : NodeIndex → NodeIndex), Mirrors word f t t' ∧
      ∀ i, t.Below i → (m'.way (f i)).head? = some (.literal word)

theorem isolates_empty (word : String) (s : Settings) :
    Isolates word (empty s : Tree α σ) (empty s) := by
  have hnone (i : NodeIndex) : ¬(empty s : Tree α σ).Below i := fun h =>
    h.2 (Nat.lt_one_iff.mp h.1)
  refine ⟨⟨.empty _ s⟩, .empty _ s, id, ?_, fun i hi => (hnone i hi).elim⟩
  exact
    { settings := rfl
      node := fun i hi => (hnone i hi).elim
      closed := fun i _ hi => (hnone i hi).elim
      word_eq := rfl
      word_mem := nofun
      size_pos := Nat.one_pos
      size_pos' := Nat.one_pos
      below := fun i hi => (hnone i hi).elim
      injective := fun i _ hi => (hnone i hi).elim
      root_arguments := ⟨rfl, rfl⟩ }

/-- Only the nodes and the settings of the greater tree matter. -/
theorem Isolates.congr {u : Tree α σ} (h : Isolates word t t') (hnodes : u.nodes = t'.nodes)
    (hsettings : u.settings = t'.settings) : Isolates word t u := by
  obtain ⟨hchart, m', f, hmirrors, hway⟩ := h
  obtain ⟨nodes, commands, settings, hooks, nextId⟩ := u
  obtain ⟨rfl, rfl⟩ : nodes = t'.nodes ∧ settings = t'.settings := ⟨hnodes, hsettings⟩
  refine ⟨hchart, m'.congr rfl rfl, f, ?_, hway⟩
  exact
    { settings := hmirrors.settings
      node := hmirrors.node
      closed := hmirrors.closed
      word_eq := hmirrors.word_eq
      word_mem := hmirrors.word_mem
      size_pos := hmirrors.size_pos
      size_pos' := hmirrors.size_pos'
      below := hmirrors.below
      injective := hmirrors.injective
      root_arguments := hmirrors.root_arguments }

/-- A command of that name goes into both trees. -/
theorem Isolates.insert_own (h : Isolates c.name t t') (hc : c.Built) :
    Isolates c.name ((Growth.insert c).after t) ((Growth.insert c).after t') := by
  obtain ⟨⟨m⟩, m', f, hmirrors, hway⟩ := h
  obtain ⟨f', hfollows⟩ := (lockstep_insert hmirrors).exists_follows
  obtain ⟨u, mu, hext, hnodes, hsettings⟩ := m'.exists_extends_insert hc hc.sound
  refine ⟨m.nonempty_insert_after hc hc.sound, mu.congr hnodes hsettings, f',
    hfollows.toMirrors, ?_⟩
  intro i hi
  show (mu.way (f' i)).head? = _
  rcases Nat.lt_or_ge i t.nodes.size with hlt | hge
  · have hold : t.Below i := ⟨hlt, hi.2⟩
    rw [hfollows.old i hold, hext.way_eq (f i) (hmirrors.below i hold).1, hway i hold]
  · have hlt : f' i < u.nodes.size := hnodes ▸ (hfollows.below i hi).1
    exact hext.fresh (f' i) hlt (hfollows.new i hi hge)

/-- A command of another name goes into the greater tree only and leaves the word aside. -/
theorem Isolates.insert_other (h : Isolates word t t') (hc : c.Built) (hword : word ≠ c.name) :
    Isolates word t ((Growth.insert c).after t') := by
  obtain ⟨hchart, m', f, hmirrors, hway⟩ := h
  obtain ⟨u, mu, hext, hnodes, hsettings⟩ := m'.exists_extends_insert hc hc.sound
  have hnode (i : NodeIndex) : ((Growth.insert c).after t').node i = u.node i := by
    rw [node, node, hnodes]
  have hle : t'.nodes.size ≤ ((Growth.insert c).after t').nodes.size := hnodes ▸ hext.size_le
  refine ⟨hchart, mu.congr hnodes hsettings, f, ?_, ?_⟩
  · exact
      { settings := by rw [hsettings, hext.settings_eq, hmirrors.settings]
        node := by
          intro i hi
          obtain ⟨hlt, hne⟩ := hmirrors.below i hi
          -- The copied nodes all lie below `word`, which is not the word the insertion works under.
          have hother : (m'.way (f i)).head? ≠ some (.literal c.name) := by
            rw [hway i hi]
            simpa using hword
          rw [hnode, hext.aside (f i) hlt hne hother, hmirrors.node i hi]
        closed := hmirrors.closed
        word_eq := by rw [hnode, hext.root_literal word hword, hmirrors.word_eq]
        word_mem := hmirrors.word_mem
        size_pos := hmirrors.size_pos
        size_pos' := Nat.lt_of_lt_of_le hmirrors.size_pos' hle
        below := fun i hi => (hmirrors.below i hi).mono hle
        injective := hmirrors.injective
        root_arguments := by
          rw [hnode]
          exact ⟨hmirrors.root_arguments.1, ((mu.stands root mu.size_pos).top mu.root_label).2⟩ }
  · intro i hi
    show (mu.way (f i)).head? = _
    rw [hext.way_eq (f i) (hmirrors.below i hi).1, hway i hi]

/-- The commands of one name make what a tree has below the word. -/
theorem Isolates.insertEach {cs : List (Command α σ)} (h : Isolates word t t')
    (hcs : ∀ c ∈ cs, c.Built) :
    Isolates word (insertEach (cs.filter (·.name = word)) t) (insertEach cs t') := by
  induction cs generalizing t t' with
  | nil => exact h
  | cons c cs ih =>
    have hc : c.Built := hcs c List.mem_cons_self
    have hrest (c' : Command α σ) (hc' : c' ∈ cs) : c'.Built := hcs c' (List.mem_cons_of_mem c hc')
    by_cases hname : c.name = word
    · subst hname
      rw [List.filter_cons_of_pos (by simp)]
      exact ih (h.insert_own hc) hrest
    · rw [List.filter_cons_of_neg (by simpa using hname)]
      exact ih (h.insert_other hc (Ne.symm hname)) hrest

/-- **Commands of different names do not interfere.** After any insertions into an empty tree,
refused ones among them, a line is parsed as if only the commands had been inserted whose name is
its first word. So the order of the insertions matters only among commands of one name. -/
theorem parse_insertEach (s : Settings) {cs : List (Command α σ)} (hcs : ∀ c ∈ cs, c.Built) :
    (∀ word principal line, firstWord line = word →
      (insertEach cs (empty s)).parse principal line =
        (insertEach (cs.filter (·.name = word)) (empty s)).parse principal line) ∧
    ∀ cs' : List (Command α σ),
      (∀ name, cs'.filter (·.name = name) = cs.filter (·.name = name)) →
        ∀ principal line, (insertEach cs' (empty s)).parse principal line =
          (insertEach cs (empty s)).parse principal line := by
  have hown {cs : List (Command α σ)} (hcs : ∀ c ∈ cs, c.Built) (principal : α) (line : String) :
      (insertEach cs (empty s)).parse principal line =
        (insertEach (cs.filter (·.name = firstWord line)) (empty s)).parse principal line := by
    obtain ⟨⟨m⟩, m', f, hmirrors, _⟩ := (isolates_empty (firstWord line) s).insertEach hcs
    exact m.parse_eq_of_alike m' hmirrors.toAlikeBelow principal rfl
  refine ⟨?_, ?_⟩
  · rintro _ principal line rfl
    exact hown hcs principal line
  · intro cs' hsame principal line
    have hcs' (c : Command α σ) (hc : c ∈ cs') : c.Built := by
      have hmem : c ∈ cs'.filter (·.name = c.name) := List.mem_filter.mpr ⟨hc, by simp⟩
      rw [hsame] at hmem
      exact hcs c (List.mem_of_mem_filter hmem)
    rw [hown hcs', hown hcs, hsame]

/-- The command `open door`. -/
def openDoor : Declaration Unit Unit := { name := "open", steps := [.literal "door"] }

/-- A command with an argument. -/
def greet : Declaration Unit Unit :=
  { name := "greet", steps := [.parameter (.ofBuiltin "guest" (.word none none))] }

/-- A command that cannot stand beside `open door`: its argument is named like the second word. -/
def openAny : Declaration Unit Unit :=
  { name := "open", steps := [.parameter (.asOptional (.ofBuiltin "door" (.word none none)))] }

/-- The last of three insertions is refused, and yet the line `open` is parsed as without the
command of another name in between. -/
theorem parse_insertEach_refused :
    ∃ cs : List (Command Unit Unit),
      (∀ c ∈ cs, c.Built) ∧
      (∃ c ∈ cs, ∃ e t', Growth.insert c (insertEach (cs.take 2) (empty {})) = .error e t') ∧
      (cs.filter (·.name = "open")).length < cs.length ∧
      (insertEach cs (empty {})).parse () "open" =
        (insertEach (cs.filter (·.name = "open")) (empty {})).parse () "open" := by
  have hbuilt : ∀ c ∈ [openDoor.command 0 "open", greet.command 1 "greet",
      openAny.command 2 "open"], c.Built := by
    intro c hc
    simp only [List.mem_cons, List.not_mem_nil, or_false] at hc
    rcases hc with rfl | rfl | rfl
    · exact ⟨openDoor, 0, _, rfl, List.mem_cons_self⟩
    · exact ⟨greet, 1, _, rfl, List.mem_cons_self⟩
    · exact ⟨openAny, 2, _, rfl, List.mem_cons_self⟩
  have hrefused : ∃ e t', Growth.insert (openAny.command 2 "open")
      (insertEach [openDoor.command 0 "open", greet.command 1 "greet"] (empty {})) = .error e t' ∧
        True := by decide +kernel
  obtain ⟨e, t', hrun, _⟩ := hrefused
  refine ⟨_, hbuilt, ⟨_, by simp, e, t', hrun⟩, by decide, ?_⟩
  exact (parse_insertEach {} hbuilt).1 "open" () "open" (by decide +kernel)

end CommandLine.Tree
