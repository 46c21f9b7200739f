import CommandLine.Proofs.Tree.Insertion

/-!
# Charts of grown trees

A tree that a host can hold has a chart, since every insertion redraws one, also an insertion that
is refused. The chart of a grown tree knows the commands that a declaration could have built. If no
call was refused, it knows the listed commands alone, and every one of them is laid out: behind each
place where its flag section may begin its required flags lead to an end.

* `Chart.exists_of_insert_error`, `Chart.exists_of_insert_ok`, `Chart.exists_extends_insert` — one
  insertion;
* `Chart.nonempty_register_after` — one registration;
* `Grown.chart`, `Grown.built`, `Populated.charted` — all calls;
* `Populated.exists_chart` — one command.
-/

set_option autoImplicit false

namespace CommandLine

variable {α σ : Type}

namespace Tree

variable {t t' : Tree α σ} {known : Command α σ → Prop} {c : Command α σ}

/-- A refused insertion extends the chart, and its command clashes with a known one. -/
theorem Chart.exists_of_insert_error {e : Refusal} (m : Chart known t) (hc : known c)
    (hs : c.Sound) (h : Growth.insert c t = .error e t') :
    ∃ m' : Chart known t', m.Extends c.name m' ∧ ∃ c', known c' ∧ c.Clashes c' := by
  have hdraws := draws_growCommand (m := m) hc hs
  rw [Draws, Growth.growCommand_of_insert_error h] at hdraws
  exact hdraws

/-- An insertion extends the chart, lays out its command and then records it. -/
theorem Chart.exists_of_insert_ok (m : Chart known t) (hc : known c) (hs : c.Sound)
    (h : Growth.insert c t = .ok () t') : ∃ (t'' : Tree α σ) (m' : Chart known t''),
      m.Extends c.name m' ∧ (∀ k, c.Grafts k → t''.Laid c k) ∧
        t' = { t'' with commands := t''.commands.push c } := by
  obtain ⟨t'', hgrow, rfl⟩ := Growth.growCommand_of_insert_ok h
  have hdraws := draws_growCommand (m := m) hc hs
  rw [Draws, hgrow] at hdraws
  obtain ⟨m', hext, hlaid⟩ := hdraws
  exact ⟨t'', m', hext, hlaid, rfl⟩

/-- An insertion that is not refused changes the nodes and adds its command to those of the tree. -/
theorem Chart.eq_of_insert (m : Chart known t) (hc : known c) (hs : c.Sound)
    (h : Growth.insert c t = .ok () t') :
    t' = { t with nodes := t'.nodes, commands := t.commands.push c } := by
  obtain ⟨t'', m', hext, _, rfl⟩ := m.exists_of_insert_ok hc hs h
  rw [hext.rest]

/-- An insertion, refused or not, leaves the nodes and the settings of a tree whose chart extends
the one before. -/
theorem Chart.exists_extends_insert (m : Chart known t) (hc : known c) (hs : c.Sound) :
    ∃ (t' : Tree α σ) (m' : Chart known t'), m.Extends c.name m' ∧
      ((Growth.insert c).after t).nodes = t'.nodes ∧
        ((Growth.insert c).after t).settings = t'.settings := by
  cases hrun : Growth.insert c t with
  | ok b t' =>
    obtain ⟨t'', m', hext, _, rfl⟩ := m.exists_of_insert_ok hc hs hrun
    rw [Growth.after_of_ok hrun]
    exact ⟨t'', m', hext, rfl, rfl⟩
  | error e t' =>
    obtain ⟨m', hext, _⟩ := m.exists_of_insert_error hc hs hrun
    simp only [Growth.after, hrun]
    exact ⟨t', m', hext, rfl, rfl⟩

/-- Wherever an insertion stops, its tree has a chart. -/
theorem Chart.nonempty_insert_after (m : Chart known t) (hc : known c) (hs : c.Sound) :
    Nonempty (Chart known ((Growth.insert c).after t)) := by
  obtain ⟨t', m', _, hnodes, hsettings⟩ := m.exists_extends_insert hc hs
  exact ⟨m'.congr hnodes hsettings⟩

/-- So does the growth of its command. -/
theorem Chart.nonempty_growCommand_after (m : Chart known t) (hc : known c) (hs : c.Sound) :
    Nonempty (Chart known ((Growth.growCommand c).after t)) := by
  have hdraws := draws_growCommand (m := m) hc hs
  unfold Draws at hdraws
  unfold Growth.after
  cases hrun : Growth.growCommand c t with
  | ok b t' =>
    rw [hrun] at hdraws
    exact hdraws.nonempty
  | error e t' =>
    rw [hrun] at hdraws
    exact hdraws.nonempty

/-- So it is with several insertions. -/
theorem Chart.nonempty_insertAll_after {cs : List (Command α σ)} (m : Chart known t)
    (hcs : ∀ c ∈ cs, known c) (hsound : ∀ c, known c → c.Sound) :
    Nonempty (Chart known ((Growth.insertAll cs).after t)) := by
  induction cs generalizing t with
  | nil => exact ⟨m⟩
  | cons c cs ih =>
    have hc : known c := hcs c List.mem_cons_self
    obtain ⟨m'⟩ := m.nonempty_insert_after hc (hsound c hc)
    rw [Growth.after, Growth.insertAll_cons]
    cases hrun : Growth.insert c t with
    | ok b t' =>
      rw [Growth.after_of_ok hrun] at m'
      exact ih m' fun c' hc' => hcs c' (List.mem_cons_of_mem c hc')
    | error e t' =>
      simp only [Growth.after, hrun] at m'
      exact ⟨m'⟩

/-- An insertion lists at most its own command in addition. -/
theorem Chart.mem_commands_insert_after {c' : Command α σ} (m : Chart known t) (hc : known c)
    (hs : c.Sound) (h : c' ∈ ((Growth.insert c).after t).commands) : c' ∈ t.commands ∨ c' = c := by
  cases hrun : Growth.insert c t with
  | ok b t' =>
    obtain ⟨t'', m', hext, _, rfl⟩ := m.exists_of_insert_ok hc hs hrun
    rw [Growth.after_of_ok hrun, Array.mem_push, hext.rest] at h
    exact h
  | error e t' =>
    obtain ⟨m', hext, _⟩ := m.exists_of_insert_error hc hs hrun
    simp only [Growth.after, hrun] at h
    rw [hext.rest] at h
    exact .inl h

/-- And they list no other commands than their own. -/
theorem Chart.mem_commands_insertAll_after {cs : List (Command α σ)} {c' : Command α σ}
    (m : Chart known t) (hcs : ∀ c ∈ cs, known c) (hsound : ∀ c, known c → c.Sound)
    (h : c' ∈ ((Growth.insertAll cs).after t).commands) : c' ∈ t.commands ∨ c' ∈ cs := by
  induction cs generalizing t with
  | nil => exact .inl h
  | cons c cs ih =>
    have hc : known c := hcs c List.mem_cons_self
    obtain ⟨m'⟩ := m.nonempty_insert_after hc (hsound c hc)
    have hfirst : c' ∈ ((Growth.insert c).after t).commands → c' ∈ t.commands ∨ c' = c :=
      m.mem_commands_insert_after hc (hsound c hc)
    rw [Growth.after, Growth.insertAll_cons] at h
    cases hrun : Growth.insert c t with
    | ok b t' =>
      rw [Growth.after_of_ok hrun] at m' hfirst
      simp only [hrun] at h
      rcases ih m' (fun c' hc' => hcs c' (List.mem_cons_of_mem c hc')) h with h | h
      · exact (hfirst h).imp_right fun heq => List.mem_cons.mpr (.inl heq)
      · exact .inr (List.mem_cons_of_mem c h)
    | error e t' =>
      simp only [Growth.after, hrun] at h hfirst
      exact (hfirst h).imp_right fun heq => List.mem_cons.mpr (.inl heq)

/-- A declaration is inserted under each of its names. -/
theorem Chart.nonempty_register_after {d : Declaration α σ} (m : Chart known t)
    (hd : ∀ cs, d.build t.nextId = .ok cs → ∀ c ∈ cs, known c)
    (hsound : ∀ c, known c → c.Sound) : Nonempty (Chart known ((Growth.register d).after t)) := by
  rw [Growth.after, Growth.register_eq]
  cases hbuild : d.build t.nextId with
  | error e => exact ⟨m⟩
  | ok cs =>
    let m' : Chart known { t with nextId := t.nextId + 1 } := m.congr rfl rfl
    have hall := m'.nonempty_insertAll_after (hd cs hbuild) hsound
    rw [Growth.after] at hall
    simp only
    cases hrun : Growth.insertAll cs { t with nextId := t.nextId + 1 } with
    | ok b t' => rw [hrun] at hall; exact hall
    | error e t' => rw [hrun] at hall; exact hall

/-- Every grown tree has a chart. -/
theorem Grown.chart (h : t.Grown) : Nonempty (Chart Command.Built t) := by
  induction h with
  | empty s _ => exact ⟨.empty Command.Built s⟩
  | withHook hook _ ih => exact ih.map fun m => m.congr rfl rfl
  | @register d t _ ih =>
    obtain ⟨m⟩ := ih
    exact m.nonempty_register_after (fun cs hbuild c hc => ⟨d, _, cs, hbuild, hc⟩)
      fun _ h => h.sound
  | insert hc _ ih =>
    obtain ⟨m⟩ := ih
    exact m.nonempty_insert_after hc hc.sound

/-- A grown tree lists commands that declarations yield. -/
theorem Grown.built (h : t.Grown) (hc : c ∈ t.commands) : c.Built := by
  induction h with
  | empty s _ => exact (Array.not_mem_empty c hc).elim
  | withHook hook _ ih => exact ih hc
  | @register d t ht ih =>
    obtain ⟨m⟩ := ht.chart
    rw [Growth.after, Growth.register_eq] at hc
    cases hbuild : d.build t.nextId with
    | error e => simp only [hbuild] at hc; exact ih hc
    | ok cs =>
      let m' : Chart Command.Built { t with nextId := t.nextId + 1 } := m.congr rfl rfl
      have hcs (c' : Command α σ) (hc' : c' ∈ cs) : c'.Built := ⟨d, _, cs, hbuild, hc'⟩
      have hlisted : c ∈ ((Growth.insertAll cs).after
          { t with nextId := t.nextId + 1 }).commands → c ∈ t.commands ∨ c ∈ cs :=
        m'.mem_commands_insertAll_after hcs fun _ h => h.sound
      simp only [hbuild] at hc
      rw [Growth.after] at hlisted
      refine Or.elim (hlisted ?_) ih (hcs c)
      cases hrun : Growth.insertAll cs { t with nextId := t.nextId + 1 } with
      | ok b t' => simp only [hrun] at hc; exact hc
      | error e t' => simp only [hrun] at hc; exact hc
  | insert hc' ht ih =>
    obtain ⟨m⟩ := ht.chart
    rcases m.mem_commands_insert_after hc' hc'.sound hc with h | rfl
    · exact ih h
    · exact hc'

/-- A tree with usable settings and a chart over the commands that it lists, each of which is laid
out. -/
structure Charted (t : Tree α σ) : Prop where
  valid : t.settings.validate = .ok ()
  built : ∀ c ∈ t.commands, c.Built
  chart : Nonempty (Chart (· ∈ t.commands) t)
  laid : ∀ c ∈ t.commands, ∀ k, c.Grafts k → t.Laid c k

/-- A chart is about the nodes, the commands and the settings. -/
theorem Charted.congr (h : t.Charted) (hnodes : t'.nodes = t.nodes)
    (hcommands : t'.commands = t.commands) (hsettings : t'.settings = t.settings) :
    t'.Charted where
  valid := hsettings ▸ h.valid
  built := hcommands ▸ h.built
  chart := by
    rw [hcommands]
    exact h.chart.map fun m => m.congr hnodes hsettings
  laid c hc k hk := (h.laid c (hcommands ▸ hc) k hk).grow (.of_nodes_eq hnodes hsettings)

/-- An insertion that is not refused leaves a charted tree. -/
theorem Charted.insert (h : t.Charted) (hc : c.Built) (hrun : Growth.insert c t = .ok () t') :
    t'.Charted := by
  let known (c' : Command α σ) : Prop := c' ∈ t.commands ∨ c' = c
  obtain ⟨m⟩ := h.chart
  have m₀ : Chart known t := m.mono fun c' hc' => .inl hc'
  obtain ⟨t'', m', hext, hlaid, rfl⟩ := m₀.exists_of_insert_ok (.inr rfl) hc.sound hrun
  have hcommands : t''.commands = t.commands := by rw [hext.rest]
  have hmem {c' : Command α σ} : c' ∈ t''.commands.push c ↔ known c' := by
    rw [Array.mem_push, hcommands]
  have hgrows : t''.Grows { t'' with commands := t''.commands.push c } := .of_nodes_eq rfl rfl
  refine ⟨hext.settings_eq ▸ h.valid, ?_, ⟨(m'.mono fun c' hc' => hmem.mpr hc').congr rfl rfl⟩, ?_⟩
  · intro c' hc'
    rcases hmem.mp hc' with hc' | rfl
    · exact h.built c' hc'
    · exact hc
  · intro c' hc' k hk
    rcases hmem.mp hc' with hc' | rfl
    · exact (h.laid c' hc' k hk).grow (hext.toGrows.trans hgrows)
    · exact (hlaid k hk).grow hgrows

/-- It changes nodes and lists its command, and nothing else. -/
theorem Charted.eq_of_insert (h : t.Charted) (hc : c.Built)
    (hrun : Growth.insert c t = .ok () t') :
    t' = { t with nodes := t'.nodes, commands := t.commands.push c } := by
  obtain ⟨m⟩ := h.chart
  exact (m.mono h.built).eq_of_insert hc hc.sound hrun

/-- Several ones leave a charted tree. -/
theorem Charted.insertAll {cs : List (Command α σ)} (h : t.Charted) (hcs : ∀ c ∈ cs, c.Built)
    (hrun : Growth.insertAll cs t = .ok () t') : t'.Charted := by
  induction cs generalizing t with
  | nil => exact (EStateM.Result.ok.inj hrun).2 ▸ h
  | cons c cs ih =>
    rw [Growth.insertAll_cons] at hrun
    cases hc : Growth.insert c t with
    | error e t'' => rw [hc] at hrun; cases hrun
    | ok b t'' =>
      rw [hc] at hrun
      exact ih (h.insert (hcs c List.mem_cons_self) hc)
        (fun c' hc' => hcs c' (List.mem_cons_of_mem c hc')) hrun

/-- Every populated tree has a chart over the commands that it lists, which are laid out. -/
theorem Populated.charted (h : t.Populated) : t.Charted := by
  induction h with
  | empty s hs =>
    have hnone (c : Command α σ) : c ∉ (Tree.empty s : Tree α σ).commands := by simp [Tree.empty]
    exact ⟨hs, fun c hc => (hnone c hc).elim, ⟨.empty _ s⟩, fun c hc => (hnone c hc).elim⟩
  | withHook hook _ ih => exact ih.congr rfl rfl rfl
  | @register d t t' id _ hrun ih =>
    rw [Growth.register_eq] at hrun
    split at hrun
    · cases hrun
    · rename_i cs hbuild
      split at hrun
      · rename_i b t'' hall
        obtain ⟨_, rfl⟩ := EStateM.Result.ok.inj hrun
        have hnext : Charted { t with nextId := t.nextId + 1 } := ih.congr rfl rfl rfl
        exact hnext.insertAll (fun c hc => ⟨d, _, cs, hbuild, hc⟩) hall
      · cases hrun
  | insert hc _ hrun ih => exact ih.insert hc hrun

/-- A populated tree with one command has a chart over it. -/
theorem Populated.exists_chart (h : t.Populated) (hcommands : t.commands = #[c]) :
    c.Built ∧ Nonempty (Chart (· = c) t) ∧ ∀ k, c.Grafts k → t.Laid c k := by
  have hcharted := h.charted
  obtain ⟨m⟩ := hcharted.chart
  have hmem {c' : Command α σ} : c' ∈ t.commands ↔ c' = c := by simp [hcommands]
  exact ⟨hcharted.built c (hmem.mpr rfl), ⟨m.mono fun _ => hmem.mp⟩,
    hcharted.laid c (hmem.mpr rfl)⟩

end Tree

end CommandLine
