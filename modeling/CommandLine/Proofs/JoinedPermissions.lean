import CommandLine.Proofs.SeparateNames
import CommandLine.Proofs.Tree.Recorded

/-!
# Joined permissions

Commands that share a node each open it to whom they allow, and nothing else opens or closes a node.
So whatever was inserted, and whether or not insertions were refused, a node is open to exactly
those whom one of the attachments at it lets in. Two things follow for the lines of a principal: the
command that is bound allows the principal, and where no command of some name does, no line that
starts with the name is read past it.

* `insertEach_recorded` — what insertions record tallies with the tree that they leave;
* `permission_of_first_word` — who may read on after the first word of a line;
* `permissions_insertEach` — all of this for every node.
-/

set_option autoImplicit false

namespace CommandLine.Tree

variable {α σ : Type} {t : Tree α σ} {record : List (Attachment α σ)} {c : Command α σ}

/-- A recorded insertion leaves what the insertion leaves, with a record that tallies. -/
theorem insert_recorded (c : Command α σ) (h : t.Tallies record) :
    ∃ new, (∀ a ∈ new, c.Attaches a) ∧
      (Recorded.insert c).after (t, record) = ((Growth.insert c).after t, record ++ new) ∧
        ((Growth.insert c).after t).Tallies (record ++ new) := by
  obtain ⟨new, hnew, htallies, hrun⟩ := Growth.follows_insert c t record h
  refine ⟨new, hnew, ?_, htallies⟩
  rw [Recorded.after, hrun, Recorded.plain, Growth.after]
  cases Growth.insert c t <;> rfl

/-- So do insertions one after the other, each of which may be refused. -/
theorem insertEach_recorded (cs : List (Command α σ)) (h : t.Tallies record) :
    ∃ new, (∀ a ∈ new, a.command ∈ cs ∧ a.step ∈ a.command.steps) ∧
      Recorded.insertEach cs (t, record) = (insertEach cs t, record ++ new) ∧
        (insertEach cs t).Tallies (record ++ new) := by
  induction cs generalizing t record with
  | nil => exact ⟨[], by simp, by rw [List.append_nil]; rfl, by rw [List.append_nil]; exact h⟩
  | cons c cs ih =>
    obtain ⟨new, hnew, hrun, htallies⟩ := insert_recorded c h
    obtain ⟨later, hlater, hrest, htallies'⟩ := ih htallies
    rw [List.append_assoc] at hrest htallies'
    refine ⟨new ++ later, ?_, ?_, htallies'⟩
    · intro a ha
      rcases List.mem_append.mp ha with ha | ha
      · obtain ⟨rfl, hstep⟩ := hnew a ha
        exact ⟨List.mem_cons_self, hstep⟩
      · exact ⟨List.mem_cons_of_mem c (hlater a ha).1, (hlater a ha).2⟩
    · rw [Recorded.insertEach, List.foldl_cons, hrun]
      exact hrest

/-- An attachment at a word lets in whom its command allows. -/
theorem Tallies.permission_of_word {a : Attachment α σ} {w : String} (h : t.Tallies record)
    (ha : a ∈ record) (hlabel : (t.node a.node).label = .literal w) :
    a.permission = a.command.permission := by
  have hfits := h.attached a ha
  rw [hlabel] at hfits
  rw [Attachment.permission, Step.Fits.of_literal hfits]

/-- The node of a first word is open only to those whom a command of that name allows. -/
theorem permission_of_first_word (s : Settings) {cs : List (Command α σ)}
    (hcs : ∀ c ∈ cs, c.Built) {w : String} {j : NodeIndex} {principal : α}
    (hfind : ((insertEach cs (empty s)).node root).literal? w = some j)
    (hallows : ((insertEach cs (empty s)).node j).permission.allows principal = true) :
    ∃ c ∈ cs, c.name = w ∧ c.permission.allows principal = true := by
  -- Below the word the tree is a copy of one that has only commands of that name.
  obtain ⟨⟨m⟩, _, f, hmirrors, _⟩ := (isolates_empty w s).insertEach hcs
  rw [hmirrors.word_eq] at hfind
  obtain ⟨i, hi, rfl⟩ := Option.map_eq_some_iff.mp hfind
  have hbelow := hmirrors.word_mem i hi
  rw [hmirrors.node i hbelow, Node.permission_rename] at hallows
  obtain ⟨record, hrecord, _, htallies⟩ :=
    insertEach_recorded (cs.filter (·.name = w)) (tallies_empty (α := α) (σ := σ) s)
  rw [List.nil_append] at htallies
  obtain ⟨a, ha, rfl, hopen⟩ :=
    (htallies.allows_iff i hbelow.1 hbelow.2 principal).mp hallows
  have hlabel := htallies.word root w _ (Node.mem_literals_of_literal? hi)
  rw [htallies.permission_of_word ha hlabel] at hopen
  obtain ⟨hmem, hname⟩ := List.mem_filter.mp (hrecord a ha).1
  exact ⟨a.command, hmem, by simpa using hname, hopen⟩

/-- **A node is open to exactly those whom an attachment at it lets in.** Take any insertions into
an empty tree, refused ones among them, and the record of what they attached where.

* Every node but the root allows a principal exactly if some command attached at it a step that
  allows the principal: a word as the command itself does, a parameter by its own permission.
* A line is never bound to a command that does not allow the principal.
* If a word is known at the root and no command of that name allows the principal, every line that
  starts with the word is refused there, at the place of the word, whatever follows. -/
theorem permissions_insertEach (s : Settings) {cs : List (Command α σ)}
    (hcs : ∀ c ∈ cs, c.Built) : ∃ record,
    Recorded.insertEach cs (empty s, []) = (insertEach cs (empty s), record) ∧
    (∀ a ∈ record, a.command ∈ cs ∧ a.step ∈ a.command.steps) ∧
    (∀ i < (insertEach cs (empty s)).nodes.size, i ≠ root → ∀ principal,
      ((insertEach cs (empty s)).node i).permission.allows principal = true ↔
        ∃ a ∈ record, a.node = i ∧ a.permission.allows principal = true) ∧
    (∀ principal line r, (insertEach cs (empty s)).parse principal line = .ok r →
      r.command.permission.allows principal = true) ∧
    ∀ principal w, w ∈ ((insertEach cs (empty s)).node root).literalNames →
      (∀ c ∈ cs, c.name = w → c.permission.allows principal = false) →
        ∀ line, firstWord line = w → (insertEach cs (empty s)).parse principal line =
          .error ⟨.noPermission, (Cursor.ofString line).skipBlank.position, some w⟩ := by
  obtain ⟨record, hrecord, hrun, htallies⟩ :=
    insertEach_recorded cs (tallies_empty (α := α) (σ := σ) s)
  rw [List.nil_append] at hrun htallies
  obtain ⟨_, m, _, _, _⟩ := (isolates_empty "" s).insertEach hcs
  refine ⟨record, hrun, hrecord, htallies.allows_iff, ?_, ?_⟩
  · intro principal line r hparse
    obtain ⟨_, haccepts⟩ := m.exists_reading (exists_of_parse_eq_ok hparse).1
    exact haccepts.allows
  · -- The first word's node is open only if some command of that name was.
    intro principal w hw hdenied line hline
    obtain ⟨j, hfind⟩ : ∃ j, ((insertEach cs (empty s)).node root).literal? w = some j := by
      rw [← Option.ne_none_iff_exists']
      exact fun hnone => Node.literal?_eq_none_iff.mp hnone hw
    have hclosed : ((insertEach cs (empty s)).node j).permission.allows principal = false := by
      rw [← Bool.not_eq_true]
      intro hallows
      obtain ⟨c, hc, hname, hopen⟩ := permission_of_first_word s hcs hfind hallows
      rw [hdenied c hc hname] at hopen
      cases hopen
    have hlabel := htallies.word root w j (Node.mem_literals_of_literal? hfind)
    have hname : ((insertEach cs (empty s)).node j).name = w := by rw [Node.name, hlabel]
    have hne := m.ne_empty_of_literal? (fun _ h => h) hfind
    have hparse := parse_of_denied_word hline hne hfind hclosed
    rwa [hname] at hparse

/-- Commands for operators, one of which has a parameter for everyone. -/
def guardedCommands : List (Command Nat Unit) :=
  [ban.command 0 "ban", banAll.command 1 "ban", say.command 2 "say"]
where
  operator : Permission Nat := .requires fun level => 3 ≤ level
  player : Parameter Nat := .ofBuiltin "player" (.word none none)
  ban : Declaration Nat Unit :=
    { name := "ban", steps := [.parameter (player.withPermission operator)]
      permission := operator }
  banAll : Declaration Nat Unit :=
    { name := "ban", steps := [.parameter player], permission := .requires fun level => 4 ≤ level }
  say : Declaration Nat Unit := { name := "say", steps := [.parameter player] }

/-- The argument's node is open to everyone, but its word is not. -/
theorem permissions_insertEach_guarded :
    (∀ c ∈ guardedCommands, c.Built) ∧
      ((insertEach guardedCommands (empty {})).node 2).permission.allows 0 = true ∧
      (insertEach guardedCommands (empty {})).parse 0 "  ban steve" =
        .error ⟨.noPermission, 2, some "ban"⟩ := by
  have hbuilt : ∀ c ∈ guardedCommands, c.Built := by
    intro c hc
    simp only [guardedCommands, List.mem_cons, List.not_mem_nil, or_false] at hc
    rcases hc with rfl | rfl | rfl
    · exact ⟨guardedCommands.ban, 0, _, rfl, List.mem_cons_self⟩
    · exact ⟨guardedCommands.banAll, 1, _, rfl, List.mem_cons_self⟩
    · exact ⟨guardedCommands.say, 2, _, rfl, List.mem_cons_self⟩
  refine ⟨hbuilt, by decide +kernel, ?_⟩
  obtain ⟨_, _, _, _, _, hdenied⟩ := permissions_insertEach {} hbuilt
  exact hdenied 0 "ban" (by decide +kernel) (by decide +kernel) "  ban steve" (by decide +kernel)

end CommandLine.Tree
