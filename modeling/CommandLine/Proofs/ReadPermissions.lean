import CommandLine.Proofs.OneCommand
import CommandLine.Proofs.SharedNodes
import CommandLine.Proofs.Tree.Recorded

/-!
# Whose permission lets a value be read

A value is read at a node, and the node is open to whom any of the parameters attached at it allows.
The command to which a line resolves has to allow the principal itself, but its parameters do not:
one of them may be restricted and yet be read, where another command attached a like parameter at
the node that is not.

* `Registered` — populated trees with the record of what was attached where;
* `read_parameter_allowed` — for every value read, some parameter at its node allows the principal;
* `read_although_restricted` — and it need not be the one of the command.
-/

set_option autoImplicit false

namespace CommandLine

variable {α σ : Type}

namespace Recorded

variable {β γ : Type} {t : Tree α σ} {record : List (Attachment α σ)}

/-- A registration is refused before it changes anything, or it takes an id and inserts. -/
theorem register_eq (d : Declaration α σ) (t : Tree α σ) (record : List (Attachment α σ)) :
    register d (t, record) =
      match d.build t.nextId with
      | .error e => .error e (t, record)
      | .ok cs =>
        match insertAll cs ({ t with nextId := t.nextId + 1 }, record) with
        | .ok _ s => .ok t.nextId s
        | .error e s => .error e s := by
  have hget : plain (get : Growth α σ (Tree α σ)) (t, record) = .ok t (t, record) := rfl
  have hmodify (f : Tree α σ → Tree α σ) :
      plain (modify f : Growth α σ PUnit) (t, record) = .ok () (f t, record) := rfl
  unfold register
  rw [bind_apply, hget]
  simp only
  cases hbuild : d.build t.nextId with
  | error e => rfl
  | ok cs =>
    simp only [bind_apply, hmodify]
    cases insertAll cs ({ t with nextId := t.nextId + 1 }, record) <;> rfl

/-- A registration that is not refused inserts what it builds. -/
theorem exists_of_register_eq_ok {d : Declaration α σ} {id : Nat}
    {s : Tree α σ × List (Attachment α σ)} (h : register d (t, record) = .ok id s) :
    ∃ cs, d.build t.nextId = .ok cs ∧ id = t.nextId ∧
      insertAll cs ({ t with nextId := t.nextId + 1 }, record) = .ok () s := by
  rw [register_eq] at h
  split at h
  · cases h
  · rename_i cs hbuild
    split at h
    · rename_i b s' hall
      obtain ⟨rfl, rfl⟩ := EStateM.Result.ok.inj h
      exact ⟨cs, hbuild, rfl, hall⟩
    · cases h

end Recorded

namespace Tree

variable {t t' : Tree α σ} {record record' : List (Attachment α σ)} {c : Command α σ}

/-! ## Trees with their records -/

/-- The trees reached from an empty one by calls none of which is refused, with the record of what
the calls attached where. -/
inductive Registered : Tree α σ → List (Attachment α σ) → Prop
  | empty (s : Settings) : s.validate = .ok () → Registered (Tree.empty s) []
  | withHook (hook : Hook α σ) {t : Tree α σ} {record : List (Attachment α σ)} :
      Registered t record → Registered (t.withHook hook) record
  | register {d : Declaration α σ} {t t' : Tree α σ} {record record' : List (Attachment α σ)}
      {id : Nat} : Registered t record → Recorded.register d (t, record) = .ok id (t', record') →
      Registered t' record'
  | insert {c : Command α σ} {t t' : Tree α σ} {record record' : List (Attachment α σ)} :
      c.Built → Registered t record → Recorded.insert c (t, record) = .ok () (t', record') →
      Registered t' record'

/-- What is recorded accounts for a charted tree, and was attached by its commands. -/
structure Accounts (t : Tree α σ) (record : List (Attachment α σ)) : Prop
    extends t.Charted, t.Tallies record where
  registered : ∀ a ∈ record, a.command ∈ t.commands ∧ a.step ∈ a.command.steps

/-- A record is about the nodes, the commands and the settings. -/
theorem Accounts.congr (h : t.Accounts record) (hnodes : t'.nodes = t.nodes)
    (hcommands : t'.commands = t.commands) (hsettings : t'.settings = t.settings) :
    t'.Accounts record where
  toCharted := h.toCharted.congr hnodes hcommands hsettings
  toTallies := h.toTallies.congr hnodes
  registered := hcommands ▸ h.registered

/-- An insertion records what it attaches. -/
theorem Accounts.insert (h : t.Accounts record) (hc : c.Built)
    (hrun : Recorded.insert c (t, record) = .ok () (t', record')) : t'.Accounts record' := by
  obtain ⟨hplain, htallies, new, rfl, hnew⟩ :=
    (Growth.follows_insert c).of_ok h.toTallies hrun
  have hcommands : t'.commands = t.commands.push c := by rw [h.toCharted.eq_of_insert hc hplain]
  refine ⟨h.toCharted.insert hc hplain, htallies, ?_⟩
  intro a ha
  rw [hcommands, Array.mem_push]
  rcases List.mem_append.mp ha with ha | ha
  · exact (h.registered a ha).imp_left .inl
  · obtain ⟨rfl, hstep⟩ := hnew a ha
    exact ⟨.inr rfl, hstep⟩

theorem Accounts.insertAll {cs : List (Command α σ)} (h : t.Accounts record)
    (hcs : ∀ c ∈ cs, c.Built)
    (hrun : Recorded.insertAll cs (t, record) = .ok () (t', record')) : t'.Accounts record' := by
  induction cs generalizing t record with
  | nil =>
    obtain ⟨rfl, rfl⟩ := Prod.mk.inj (EStateM.Result.ok.inj hrun).2
    exact h
  | cons c cs ih =>
    rw [Recorded.insertAll, Recorded.bind_apply] at hrun
    cases hc : Recorded.insert c (t, record) with
    | error e s =>
      rw [hc] at hrun
      cases hrun
    | ok b s =>
      rw [hc] at hrun
      exact ih (h.insert (hcs c List.mem_cons_self) hc)
        (fun c' hc' => hcs c' (List.mem_cons_of_mem c hc')) hrun

/-- The record of a registered tree accounts for it. -/
theorem Registered.accounts (h : t.Registered record) : t.Accounts record := by
  induction h with
  | empty s hs => exact ⟨(Populated.empty s hs).charted, tallies_empty s, by simp⟩
  | withHook hook _ ih => exact ih.congr rfl rfl rfl
  | @register d t t' record record' id _ hrun ih =>
    obtain ⟨cs, hbuild, _, hall⟩ := Recorded.exists_of_register_eq_ok hrun
    have hnext : Accounts { t with nextId := t.nextId + 1 } record := ih.congr rfl rfl rfl
    exact hnext.insertAll (fun c hc => ⟨d, _, cs, hbuild, hc⟩) hall
  | insert hc _ hrun ih => exact ih.insert hc hrun

/-- A tree with a record is a populated one. -/
theorem Registered.populated (h : t.Registered record) : t.Populated := by
  induction h with
  | empty s hs => exact .empty s hs
  | withHook hook _ ih => exact .withHook hook ih
  | @register d t t' record record' id h hrun ih =>
    obtain ⟨cs, hbuild, rfl, hall⟩ := Recorded.exists_of_register_eq_ok hrun
    have hnext : Tallies { t with nextId := t.nextId + 1 } record :=
      h.accounts.toTallies.congr rfl
    obtain ⟨hinsert, _⟩ := (Growth.follows_insertAll cs).of_ok hnext hall
    have hregister : Growth.register d t = .ok t.nextId t' := by
      simp only [Growth.register_eq, hbuild, hinsert]
    exact .register ih hregister
  | insert hc h hrun ih =>
    exact .insert hc ih ((Growth.follows_insert _).of_ok h.accounts.toTallies hrun).1

/-- Calls that are not refused can be recorded. -/
theorem Populated.exists_registered (h : t.Populated) : ∃ record, t.Registered record := by
  induction h with
  | empty s hs => exact ⟨[], .empty s hs⟩
  | withHook hook _ ih =>
    obtain ⟨record, h⟩ := ih
    exact ⟨record, h.withHook hook⟩
  | @register d t t' id _ hrun ih =>
    obtain ⟨record, h⟩ := ih
    rw [Growth.register_eq] at hrun
    split at hrun
    · cases hrun
    · rename_i cs hbuild
      split at hrun
      · rename_i b t'' hall
        obtain ⟨_, rfl⟩ := EStateM.Result.ok.inj hrun
        have hnext : Tallies { t with nextId := t.nextId + 1 } record :=
          h.accounts.toTallies.congr rfl
        obtain ⟨new, _, _, hinsert⟩ := Growth.follows_insertAll cs _ record hnext
        have hregister : Recorded.register d (t, record) =
            .ok t.nextId (t'', record ++ new) := by
          simp only [Recorded.register_eq, hbuild, hinsert, Recorded.plain, hall]
        exact ⟨record ++ new, h.register hregister⟩
      · cases hrun
  | @insert c t t' hc _ hrun ih =>
    obtain ⟨record, h⟩ := ih
    obtain ⟨new, _, _, hinsert⟩ := Growth.follows_insert c t record h.accounts.toTallies
    refine ⟨record ++ new, h.insert hc ?_⟩
    simp only [hinsert, Recorded.plain, hrun]

/-! ## Where a value is read -/

variable {v w u : Visit α} {turn : Turn α} {given : List (Given α)} {g : Given α} {i : NodeIndex}

/-- A move enters a node that is open to the principal. -/
theorem Moves.allows {o : Option (Given α)} (h : t.Moves v turn o w) :
    (t.node w.node).permission.allows v.context.principal = true := by
  cases h <;> assumption

/-- A reading gives a value where it enters a node. -/
def GivenAt (t : Tree α σ) (v : Visit α) (given : List (Given α)) (g : Given α)
    (i : NodeIndex) : Prop :=
  ∃ before later u w turn, given = before ++ g :: later ∧ t.Reads v before u ∧
    turn ∈ t.turns u ∧ t.Moves u turn (some g) w ∧ w.node = i

/-- Every value of a reading is given at some node. -/
theorem Reads.exists_givenAt (h : t.Reads v given u) (hg : g ∈ given) :
    ∃ i, t.GivenAt v given g i := by
  induction h with
  | refl v => cases hg
  | @step v w u turn o later hturn hmove _ ih =>
    rcases List.mem_append.mp hg with hg | hg
    · rw [Option.mem_toList] at hg
      obtain rfl := hg
      exact ⟨w.node, [], later, v, w, turn, rfl, .refl v, hturn, hmove, rfl⟩
    · obtain ⟨i, before, rest, u', w', turn', rfl, hreads, hturn', hmove', hi⟩ := ih hg
      exact ⟨i, o.toList ++ before, rest, u', w', turn', (List.append_assoc ..).symm,
        .step hturn hmove hreads, hturn', hmove', hi⟩

/-- The node stands for the parameter that the value was read for. -/
theorem GivenAt.label_eq (h : t.GivenAt v given g i) :
    (t.node i).label = .parameter g.parameter := by
  obtain ⟨_, _, u, w, _, _, _, hturn, hmove, rfl⟩ := h
  rcases hmove.edge hturn with hedge | hedge
  · exact (mem_flagsOf.mp hedge).2
  · exact (mem_argumentsOf.mp hedge).2

/-- It is open to the principal. -/
theorem GivenAt.allows (h : t.GivenAt v given g i) :
    (t.node i).permission.allows v.context.principal = true := by
  obtain ⟨_, _, u, w, _, _, hreads, _, hmove, rfl⟩ := h
  have hallows := hmove.allows
  rwa [hreads.context_eq, Context.principal_given] at hallows

/-- The node of a parameter is open to those whom a parameter attached there allows. -/
theorem Accounts.exists_attached {p : Parameter α} {principal : α} (h : t.Accounts record)
    (hlabel : (t.node i).label = .parameter p)
    (hallows : (t.node i).permission.allows principal = true) :
    ∃ a ∈ record, a.node = i ∧ a.command ∈ t.commands ∧
      ∃ q ∈ a.command.parameters, a.step = .parameter q ∧ (Step.parameter p).Fits (.parameter q) ∧
        q.permission.allows principal = true := by
  obtain ⟨m⟩ := h.chart
  have hlt : i < t.nodes.size := lt_of_label_ne_root (by simp [hlabel])
  have hne := m.ne_root hlabel (by simp)
  obtain ⟨a, ha, rfl, hopen⟩ := (h.allows_iff i hlt hne principal).mp hallows
  obtain ⟨hcommand, hstep⟩ := h.registered a ha
  have hfits := h.attached a ha
  rw [hlabel] at hfits
  cases hq : a.step with
  | literal w =>
    rw [hq] at hfits
    exact hfits.elim
  | parameter q =>
    rw [hq] at hfits hstep
    rw [Attachment.permission, hq] at hopen
    exact ⟨a, ha, rfl, hcommand, q, List.mem_filterMap.mpr ⟨_, hstep, rfl⟩, hq, hfits, hopen⟩

/-- **Some parameter at the node allows the principal.** When a line resolves on a populated tree,
the command allows the principal, and the search took an accepted reading such that every value that
it gave to the name of a parameter `p` of the command was read at a node where some registered
command attached a parameter that allows the principal. If the node is an argument's, or if the
command is orderly, that parameter has the long name and the shape of `p`, and it is `p` itself
unless it is another command's. -/
theorem read_parameter_allowed {principal : α} {line : String} {r : Resolved α σ}
    (h : t.Registered record) (hparse : t.parse principal line = .ok r) :
    r.command.permission.allows principal = true ∧
    ∃ given, t.Accepts (start principal line) given ⟨r.command,
        (t.search (start principal line)).cursor, (t.search (start principal line)).context⟩ ∧
      ∀ p ∈ r.command.parameters, ∀ g ∈ given, g.parameter.name = p.name →
        ∃ i, t.GivenAt (start principal line) given g i ∧
          ∃ a ∈ record, a.node = i ∧ a.command ∈ t.commands ∧
            ∃ q ∈ a.command.parameters, a.step = .parameter q ∧
              q.permission.allows principal = true ∧
              (g.parameter.isNamed = false ∨ t.Orderly r.command →
                q.longName = p.longName ∧ q.interchangeable p = true ∧
                  (a.command = r.command → q = p)) := by
  have hpopulated := h.populated
  obtain ⟨given, hpassed⟩ := hpopulated.exists_passed hparse
  refine ⟨hpassed.accepts.allows, given, hpassed.accepts, ?_⟩
  intro p hp g hg hname
  obtain ⟨u, hreads, _⟩ := hpassed.accepts.accepted
  obtain ⟨i, hat⟩ := hreads.exists_givenAt hg
  obtain ⟨a, ha, hi, hcommand, q, hq, hstep, hfits, hallows⟩ :=
    h.accounts.exists_attached hat.label_eq hat.allows
  refine ⟨i, hat, a, ha, hi, hcommand, q, hq, hstep, hallows, ?_⟩
  intro hplace
  -- The node's parameter fits both the one attached there and the one that was read.
  have hlike : (Step.parameter q).Fits (.parameter p) :=
    hfits.symm.trans (hpassed.interchangeable hpopulated hp hg hname hplace)
  refine ⟨hlike.1, hlike.2, ?_⟩
  intro hsame
  exact (hpassed.sound hpopulated).eq_of_fits (hsame ▸ hq) hp hlike

/-- Two commands of one name, the first of which restricts its argument to operators. -/
def banTree : Tree Nat Unit :=
  (Growth.register banAnyone).after ((Growth.register ban).after (empty {}))
where
  player : Parameter Nat := .ofBuiltin "player" (.word none none)
  ban : Declaration Nat Unit :=
    { name := "ban"
      steps := [.parameter (player.withPermission (.requires fun level => 5 ≤ level))] }
  banAnyone : Declaration Nat Unit := { name := "ban", steps := [.parameter player] }

/-- The tree is made by two registrations. -/
theorem populated_banTree : banTree.Populated := by
  unfold banTree
  exact .register_after (.register_after (.empty {} (by decide)) (by decide +kernel))
    (by decide +kernel)

/-- The line resolves to the first command, whose own argument does not allow the principal. -/
theorem read_although_restricted :
    banTree.Populated ∧ ∃ r, banTree.parse 0 "ban bob" = .ok r ∧ ∃ p ∈ r.command.parameters,
      (banTree.search (start 0 "ban bob")).context.bindings.get? p.name = some (.text "bob") ∧
        p.permission.allows 0 = false :=
  ⟨populated_banTree, by decide +kernel⟩

/-- Neither command has flags. -/
theorem orderly_banTree {c : Command Nat Unit} (hc : c ∈ banTree.commands) : banTree.Orderly c := by
  have hcommands : banTree.commands =
      #[banTree.ban.command 0 "ban", banTree.banAnyone.command 1 "ban"] := rfl
  rw [hcommands] at hc
  apply orderly_of_flags_eq_nil
  rcases (by simpa using hc : _ ∨ _) with rfl | rfl <;> rfl

/-- What lets the principal in at the node of that argument belongs to the other command. -/
theorem read_parameter_allowed_banTree :
    ∃ record, banTree.Registered record ∧ ∃ r, banTree.parse 0 "ban bob" = .ok r ∧
      ∃ a ∈ record, a.command ∈ banTree.commands ∧ a.command ≠ r.command ∧
        ∃ q ∈ a.command.parameters, q.longName = "player" ∧ q.permission.allows 0 = true := by
  obtain ⟨record, hrecord⟩ := populated_banTree.exists_registered
  have hrestricted : ∃ r, banTree.parse 0 "ban bob" = .ok r ∧
      ((∀ p ∈ r.command.parameters, p.longName = "player" ∧ p.permission.allows 0 = false) ∧
        "player" ∈ r.command.parameters.map Parameter.name) := by
    decide +kernel
  obtain ⟨r, hr, hdenied, hnames⟩ := hrestricted
  obtain ⟨p, hp, hname⟩ := List.mem_map.mp hnames
  obtain ⟨_, given, haccepts, hread⟩ := read_parameter_allowed hrecord hr
  have hvalue : (banTree.search (start 0 "ban bob")).context.bindings.contains "player" = true := by
    decide +kernel
  obtain ⟨g, hg, hgname⟩ := haccepts.contains_iff.mp hvalue
  obtain ⟨_, _, a, ha, _, hcommand, q, hq, _, hallows, hlike⟩ :=
    hread p hp g hg (hgname.trans hname.symm)
  obtain ⟨_, hpassed⟩ := populated_banTree.exists_passed hr
  obtain ⟨hlong, _, hown⟩ := hlike (.inr (orderly_banTree hpassed.mem_commands))
  refine ⟨record, hrecord, r, hr, a, ha, hcommand, ?_, q, hq, ?_, hallows⟩
  · intro hsame
    rw [hown hsame, (hdenied p hp).2] at hallows
    cases hallows
  · rw [hlong, (hdenied p hp).1]

end Tree

end CommandLine
