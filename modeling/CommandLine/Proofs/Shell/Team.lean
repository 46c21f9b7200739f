import CommandLine.Proofs.Shell.CommandSet
import CommandLine.Shell.Basic

/-!
# The shell's team

What lasts from line to line is the team. A line runs at most one command, and only two commands are
about who is on the team, so each line leaves the team as it was, lets a new member in at the end or
lets one go. Everything else about the team follows by induction over the lines.

* `process_cases` — what a line comes to;
* `Turn` — what it may do to the team;
* `team_kept` — the team after any lines, and who may run what.
-/

set_option autoImplicit false

namespace CommandLine.Shell

/-! ## One turn of a team -/

/-- What one line may do to the team: nothing, let a new member in at the end, or let one go. -/
inductive Turn : List String → List String → Prop
  | stay (team : List String) : Turn team team
  | join {team : List String} {name : String} : name ∉ team → 3 ≤ name.length → name.length ≤ 16 →
      Turn team (team ++ [name])
  | leave {team : List String} {name : String} : name ∈ team → Turn team (team.filter (· ≠ name))

/-- A team that nobody is on twice, and only with a name of 3 to 16 characters. -/
structure Proper (team : List String) : Prop where
  nodup : team.Nodup
  length : ∀ name ∈ team, 3 ≤ name.length ∧ name.length ≤ 16

/-- Nobody is on an empty team twice. -/
theorem Proper.nil : Proper [] := ⟨.nil, by simp⟩

/-- What one line does to a proper team keeps it proper. -/
theorem Turn.proper {team team' : List String} (h : Turn team team') (hteam : Proper team) :
    Proper team' := by
  cases h with
  | stay => exact hteam
  | @join name hnew hleast hgreatest =>
    refine ⟨List.nodup_append.mpr ⟨hteam.nodup, List.nodup_singleton name, ?_⟩, ?_⟩
    · intro member hmember other hother heq
      obtain rfl := List.mem_singleton.mp hother
      exact hnew (heq ▸ hmember)
    · intro member hmember
      rcases List.mem_append.mp hmember with hmember | hmember
      · exact hteam.length member hmember
      · obtain rfl := List.mem_singleton.mp hmember
        exact ⟨hleast, hgreatest⟩
  | leave =>
    exact ⟨hteam.nodup.filter _, fun member hmember =>
      hteam.length member (List.mem_of_mem_filter hmember)⟩

section

variable {t before : Tree User Session} {user : User} {line : String} {r : Resolved User Session}

/-- Running a command is a turn. -/
theorem turn_of_run (h : t.Stocked (declarations ++ [help before]))
    (hparse : t.parse user line = .ok r) (s : Session) : Turn s.team (t.run r s).team := by
  obtain ⟨_, hpassed⟩ := h.populated.exists_passed hparse
  obtain ⟨d, hd, id, name, _, hcommand⟩ := h.exists_declaration r.command hpassed.mem_commands
  have hrun (action : SessionAction) (haction : d.action = some action) :
      t.run r s = action r.context s := by
    have heq : r.command.action = some action := hcommand ▸ haction
    rw [Tree.run, heq, h.hooks_eq]
    rfl
  -- Only two of the declarations touch the team; the others leave it alone whatever they do.
  have hcases : d = teamAdd ∨ d = teamRemove ∨ Spares d := by
    rcases List.mem_append.mp hd with hd | hd
    · exact spares_of_mem_declarations hd
    · obtain rfl := List.mem_singleton.mp hd
      exact .inr (.inr (spares_help before))
  rcases hcases with rfl | rfl | hspares
  · obtain ⟨hleast, hgreatest⟩ := length_of_teamAdd h hparse hcommand
    rw [hrun _ rfl, Session.team_join]
    split
    · exact .stay s.team
    · rename_i hnew
      exact .join hnew hleast hgreatest
  · rw [hrun _ rfl, Session.team_leave]
    split
    · rename_i hmember
      exact .leave hmember
    · exact .stay s.team
  · cases haction : d.action with
    | none =>
      have heq : r.command.action = none := hcommand ▸ haction
      rw [Tree.run, heq]
      exact .stay s.team
    | some action =>
      rw [hrun action haction, hspares.team_eq action haction]
      exact .stay s.team

/-- Only an administrator resolves a line to a command named `admin`. -/
theorem admin_of_resolved (h : t.Stocked (declarations ++ [help before]))
    (hparse : t.parse user line = .ok r) (hname : r.command.name = "admin") :
    user.admin = true := by
  obtain ⟨_, hpassed⟩ := h.populated.exists_passed hparse
  obtain ⟨d, hd, id, name, hmem, hcommand⟩ := h.exists_declaration r.command hpassed.mem_commands
  have hallows : r.command.permission.allows user = true := hpassed.accepts.allows
  have hadmin : "admin" ∈ d.names := by
    rw [hcommand] at hname
    exact (show name = "admin" from hname) ▸ hmem
  rwa [hcommand, show (d.command id name).permission = d.permission from rfl,
    permission_of_admin hd hadmin] at hallows

end

/-! ## Lines -/

/-- The shell runs a resolved command on a line: the line does not ask for completions, is not blank
and resolves to that. -/
structure Runs (shell : Shell) (line : String) (r : Resolved User Session) : Prop where
  command : ∀ rest, chomp line.toList ≠ '?' :: rest
  filled : (chomp line.toList).all Text.isBlank = false
  parse_eq : shell.tree.parse shell.user (String.ofList (chomp line.toList)) = .ok r

/-- A line on which nothing is run: it asks for completions, is blank or is rejected. -/
def Idle (shell : Shell) (line : String) : Prop :=
  (∃ rest, chomp line.toList = '?' :: rest) ∨ (chomp line.toList).all Text.isBlank = true ∨
    ∃ f, shell.tree.parse shell.user (String.ofList (chomp line.toList)) = .error f

/-- On an idle line no command is run. -/
theorem Idle.not_runs {shell : Shell} {line : String} {r : Resolved User Session}
    (h : shell.Idle line) : ¬shell.Runs line r := by
  rintro ⟨hcommand, hfilled, hparse⟩
  rcases h with ⟨rest, hrest⟩ | hblank | ⟨f, hrejected⟩
  · exact hcommand rest hrest
  · cases hfilled.symm.trans hblank
  · cases hparse.symm.trans hrejected

/-- Taking no output changes nothing. -/
theorem eq_of_output_eq {shell : Shell} (h : shell.session.output = []) :
    { shell with session := shell.session.drain.2 } = shell := by
  obtain ⟨tree, user, prompt, team, output⟩ := shell
  obtain rfl : output = [] := h
  rfl

/-- What a line comes to where no output is left: the session that a command leaves, without its
output, or nothing at all. -/
theorem process_cases {shell : Shell} (h : shell.session.output = []) (line : String) :
    (∃ r, shell.Runs line r ∧ (shell.process line).2 =
      { shell with session := (shell.tree.run r shell.session).drain.2 }) ∨
    shell.Idle line ∧ (shell.process line).2 = shell := by
  unfold process
  split
  · rename_i rest hrest
    exact .inr ⟨.inl ⟨rest, hrest⟩, rfl⟩
  · rename_i hcommand
    split
    · rename_i hblank
      exact .inr ⟨.inr (.inl hblank), rfl⟩
    · rename_i hfilled
      cases hparse : shell.tree.parse shell.user (String.ofList (chomp line.toList)) with
      | error f =>
        refine .inr ⟨.inr (.inr ⟨f, hparse⟩), ?_⟩
        simp only [dispatchLine, Tree.dispatch, hparse]
        exact eq_of_output_eq h
      | ok r =>
        refine .inl ⟨r, ⟨hcommand, by simpa using hfilled, hparse⟩, ?_⟩
        simp only [dispatchLine, Tree.dispatch, hparse]

/-! ## Runs -/

/-- The shell after some lines. -/
def after (shell : Shell) (lines : List String) : Shell := (shell.processAll lines).2

@[simp] theorem after_nil (shell : Shell) : shell.after [] = shell := rfl

/-- The last line is processed by the shell that the others left. -/
theorem after_concat (shell : Shell) (lines : List String) (line : String) :
    shell.after (lines ++ [line]) = ((shell.after lines).process line).2 := by
  induction lines generalizing shell with
  | nil => rfl
  | cons first lines ih => exact ih (shell.process first).2

/-- A shell with the command set, whose output was taken, and its team. -/
structure Steady (shell : Shell) (user : User) : Prop where
  stocked : ∃ before, shell.tree.Stocked (declarations ++ [help before])
  user_eq : shell.user = user
  output_eq : shell.session.output = []
  proper : Proper shell.session.team

section

variable {shell : Shell} {user : User}

/-- In a steady shell a line does to the team what a turn does. -/
theorem Steady.turn (h : shell.Steady user) (line : String) :
    Turn shell.session.team (shell.process line).2.session.team := by
  obtain ⟨before, hstocked⟩ := h.stocked
  rcases process_cases h.output_eq line with ⟨r, hruns, heq⟩ | ⟨_, heq⟩
  · rw [heq]
    exact turn_of_run hstocked hruns.parse_eq shell.session
  · rw [heq]
    exact .stay _

theorem Steady.process (h : shell.Steady user) (line : String) :
    (shell.process line).2.Steady user := by
  have hproper := (h.turn line).proper h.proper
  rcases process_cases h.output_eq line with ⟨r, _, heq⟩ | ⟨_, heq⟩
  · rw [heq] at hproper ⊢
    exact ⟨h.stocked, h.user_eq, rfl, hproper⟩
  · rw [heq]
    exact h

theorem Steady.after (h : shell.Steady user) (lines : List String) :
    (shell.after lines).Steady user := by
  induction lines generalizing shell with
  | nil => exact h
  | cons line lines ih => exact ih (h.process line)

/-- `b` last joined the team when `a` was on it, and both have been on it since. -/
def JoinedAfter (shell : Shell) (lines : List String) (b a : String) : Prop :=
  ∃ first line later, lines = first ++ line :: later ∧
    a ∈ (shell.after first).session.team ∧ b ∉ (shell.after first).session.team ∧
    ∀ rest, rest <+: later → a ∈ (shell.after (first ++ line :: rest)).session.team ∧
      b ∈ (shell.after (first ++ line :: rest)).session.team

/-- Who joined after someone stays so while both are on the team. -/
theorem JoinedAfter.concat {lines : List String} {a b : String}
    (h : shell.JoinedAfter lines b a) {line : String}
    (ha : a ∈ (shell.after (lines ++ [line])).session.team)
    (hb : b ∈ (shell.after (lines ++ [line])).session.team) :
    shell.JoinedAfter (lines ++ [line]) b a := by
  obtain ⟨first, joined, later, rfl, hold, hnew, hsince⟩ := h
  refine ⟨first, joined, later ++ [line], by simp, hold, hnew, fun rest hrest => ?_⟩
  rcases List.prefix_concat_iff.mp hrest with rfl | hrest
  · simpa using And.intro ha hb
  · exact hsince rest hrest

/-- The team is in the order of joining. -/
theorem Steady.joinedAfter (h : shell.Steady user) (hfresh : shell.session.team = [])
    (lines : List String) {a b : String}
    (hbefore : [a, b].Sublist (shell.after lines).session.team) :
    shell.JoinedAfter lines b a := by
  induction lines using List.reverseRecOn with
  | nil =>
    rw [after_nil, hfresh] at hbefore
    cases hbefore
  | append_singleton lines line ih =>
    have hon (member : String) (hmember : member ∈ [a, b]) :
        member ∈ (shell.after (lines ++ [line])).session.team := hbefore.subset hmember
    have hturn := (h.after lines).turn line
    rw [← after_concat] at hturn
    have hkeeps (hlines : [a, b].Sublist (shell.after lines).session.team) :
        shell.JoinedAfter (lines ++ [line]) b a :=
      (ih hlines).concat (hon a (by simp)) (hon b (by simp))
    generalize hteam : (shell.after (lines ++ [line])).session.team = team' at hturn hbefore
    -- Names already in that order were so before the line; a new pair ends in the name that joined.
    cases hturn with
    | stay => exact hkeeps hbefore
    | leave => exact hkeeps (hbefore.trans List.filter_sublist)
    | @join name hnew _ _ =>
      obtain ⟨front, back, hsplit, hfront, hback⟩ := List.sublist_append_iff.mp hbefore
      rcases List.sublist_singleton.mp hback with rfl | rfl
      · rw [List.append_nil] at hsplit
        exact hkeeps (hsplit ▸ hfront)
      · obtain ⟨rfl, rfl⟩ : [a] = front ∧ b = name := by
          simpa using List.append_inj' (show [a] ++ [b] = front ++ [name] from hsplit) rfl
        refine ⟨lines, line, [], by simp, List.singleton_sublist.mp hfront, hnew, ?_⟩
        intro rest hrest
        obtain rfl := List.prefix_nil.mp hrest
        exact ⟨hon a (by simp), hon b (by simp)⟩

/-- A fresh shell is steady and has an empty team. -/
theorem exists_ofConfig {config : Config} (h : config.dispatcher.validate = .ok ()) (user : User) :
    ∃ shell, ofConfig config user = .ok shell ∧ shell.session.team = [] ∧ shell.Steady user := by
  obtain ⟨t, before, htree, hstocked⟩ := exists_commandTree h
  refine ⟨{ tree := t, user, prompt := config.prompt }, ?_, rfl, ⟨before, hstocked⟩, rfl, rfl, .nil⟩
  rw [ofConfig, htree]

/-- **The team.** Under every configuration with usable settings there is a shell for every user.
After any lines

* no output is left;
* nobody is on the team twice, and only with a name of 3 to 16 characters;
* the team is in the order of joining: whoever is behind a member last joined when that one was on
  the team;

and on any further line

* the team stays, or a new member comes in at the end, or one goes;
* the team stays if the line asks for completions, is blank or is rejected;
* any other line runs the command to which it resolves and nothing else, and a command named `admin`
  for an administrator only. -/
theorem team_kept {config : Config} (h : config.dispatcher.validate = .ok ()) (user : User) :
    ∃ shell, ofConfig config user = .ok shell ∧ ∀ lines,
      (shell.after lines).session.output = [] ∧
      (shell.after lines).session.team.Nodup ∧
      (∀ name ∈ (shell.after lines).session.team, 3 ≤ name.length ∧ name.length ≤ 16) ∧
      (∀ a b, [a, b].Sublist (shell.after lines).session.team → shell.JoinedAfter lines b a) ∧
      ∀ line,
        Turn (shell.after lines).session.team
          ((shell.after lines).process line).2.session.team ∧
        ((shell.after lines).Idle line →
          ((shell.after lines).process line).2.session.team = (shell.after lines).session.team) ∧
        ((shell.after lines).Idle line ∨ ∃ r, (shell.after lines).Runs line r ∧
          ((shell.after lines).process line).2.session =
            ((shell.after lines).tree.run r (shell.after lines).session).drain.2 ∧
          (user.admin = false → r.command.name ≠ "admin")) := by
  obtain ⟨shell, hshell, hfresh, hsteady⟩ := exists_ofConfig h user
  refine ⟨shell, hshell, fun lines => ?_⟩
  have hafter := hsteady.after lines
  refine ⟨hafter.output_eq, hafter.proper.nodup, hafter.proper.length,
    fun a b => hsteady.joinedAfter hfresh lines, fun line => ⟨hafter.turn line, ?_, ?_⟩⟩
  · intro hidle
    rcases process_cases hafter.output_eq line with ⟨r, hruns, _⟩ | ⟨_, heq⟩
    · exact (hidle.not_runs hruns).elim
    · rw [heq]
  · rcases process_cases hafter.output_eq line with ⟨r, hruns, heq⟩ | ⟨hidle, _⟩
    · refine .inr ⟨r, hruns, by rw [heq], fun huser hname => ?_⟩
      obtain ⟨before, hstocked⟩ := hafter.stocked
      have hadmin := admin_of_resolved hstocked hruns.parse_eq hname
      rw [hafter.user_eq, huser] at hadmin
      cases hadmin
    · exact .inl hidle

end

/-- Lines that add two members. -/
def enrolling : List String := ["team add robin", "?te", "team add sam"]

/-- Under the usual settings a guest adds two members, who are then in the order of joining. A line
of the guest for an `admin` command is rejected and leaves the team as it is. -/
theorem team_kept_guest :
    ({} : Config).dispatcher.validate = .ok () ∧
      ∃ shell, ofConfig {} ⟨"guest", false⟩ = .ok shell ∧
        (shell.after enrolling).session.team = ["robin", "sam"] ∧
        shell.JoinedAfter enrolling "sam" "robin" ∧
        (shell.after enrolling).Idle "admin debug true" ∧
        ((shell.after enrolling).process "admin debug true").2.session.team = ["robin", "sam"] := by
  have hvalid : ({} : Config).dispatcher.validate = .ok () := by decide +kernel
  obtain ⟨shell, hshell, hkept⟩ := team_kept hvalid ⟨"guest", false⟩
  obtain ⟨_, _, _, horder, hlines⟩ := hkept enrolling
  have hrun : ∃ shell, ofConfig {} ⟨"guest", false⟩ = .ok shell ∧
      (shell.after enrolling).session.team = ["robin", "sam"] ∧
      ∃ f, (shell.after enrolling).tree.parse (shell.after enrolling).user
        (String.ofList (chomp "admin debug true".toList)) = .error f ∧ f.cause = .noPermission := by
    decide +kernel
  obtain ⟨shell', hshell', hteam, f, hrejected, _⟩ := hrun
  obtain rfl := Except.ok.inj (hshell'.symm.trans hshell)
  have hbefore : ["robin", "sam"].Sublist (shell'.after enrolling).session.team := by
    rw [hteam]
  have hidle : (shell'.after enrolling).Idle "admin debug true" := .inr (.inr ⟨f, hrejected⟩)
  exact ⟨hvalid, shell', hshell, hteam, horder "robin" "sam" hbefore, hidle,
    ((hlines _).2.1 hidle).trans hteam⟩

/-- An administrator does run it. -/
example : ∃ shell, ofConfig {} ⟨"root", true⟩ = .ok shell ∧
    ∃ r, shell.tree.parse shell.user "admin debug true" = .ok r ∧ r.command.name = "admin" := by
  decide +kernel

end CommandLine.Shell
