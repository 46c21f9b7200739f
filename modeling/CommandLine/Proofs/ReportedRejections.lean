import CommandLine.Proofs.Search.Located

/-!
# The rejection that is reported

When a line finds neither a command nor a denial, a rejection was recorded, and the one that is
reported is the one that the policy of the tree asks for. With built-in types all that is recorded
is found at a place of the line: not behind its end and not inside a character.

* `ReportPolicy.exists_choose?` — what a policy chooses among rejections;
* `GrownOver` — the trees reached by calls over parameters of some sort;
* `rejections_located` — where rejections are found, and which one is reported.
-/

set_option autoImplicit false

namespace CommandLine

variable {α σ : Type}

/-! ## What a policy chooses -/

/-- What a policy reports among rejections in the order of their recording: the last one, or the
first of those with the greatest position. -/
def ReportPolicy.Reports : ReportPolicy → List Rejection → Rejection → Prop
  | last, recorded, r => ∃ before, recorded = before ++ [r]
  | furthest, recorded, r => ∃ before after, recorded = before ++ r :: after ∧
      (∀ g ∈ before, g.position < r.position) ∧ ∀ g ∈ after, g.position ≤ r.position

namespace ReportPolicy

/-- The best rejection so far, with those before it and those after it. -/
theorem reports_furthest_foldl (before : List Rejection) (best : Rejection)
    (between fs : List Rejection) (hbefore : ∀ g ∈ before, g.position < best.position)
    (hbetween : ∀ g ∈ between, g.position ≤ best.position) :
    furthest.Reports (before ++ best :: between ++ fs)
      (fs.foldl (fun best g => if best.position < g.position then g else best) best) := by
  induction fs generalizing before between best with
  | nil => exact ⟨before, between, List.append_nil _, hbefore, hbetween⟩
  | cons f fs ih =>
    rw [List.foldl_cons]
    split
    · rename_i hlt
      have hpassed : ∀ g ∈ before ++ best :: between, g.position < f.position := by
        intro g hg
        rcases List.mem_append.mp hg with hg | hg
        · exact (hbefore g hg).trans hlt
        · rcases List.mem_cons.mp hg with rfl | hg
          · exact hlt
          · exact (hbetween g hg).trans_lt hlt
      simpa using ih (before ++ best :: between) f [] hpassed (by simp)
    · rename_i hle
      have hpassed : ∀ g ∈ between ++ [f], g.position ≤ best.position := by
        intro g hg
        rcases List.mem_append.mp hg with hg | hg
        · exact hbetween g hg
        · obtain rfl := List.mem_singleton.mp hg
          exact Nat.le_of_not_lt hle
      simpa using ih before best (between ++ [f]) hbefore hpassed

/-- Among rejections there is one that a policy reports. -/
theorem exists_choose? (policy : ReportPolicy) {recorded : List Rejection} (hne : recorded ≠ []) :
    ∃ r, policy.choose? recorded = some r ∧ policy.Reports recorded r := by
  obtain ⟨f, fs, rfl⟩ := List.exists_cons_of_ne_nil hne
  cases policy with
  | furthest =>
    exact ⟨_, rfl, reports_furthest_foldl [] f [] fs (by simp) (by simp)⟩
  | last =>
    refine ⟨_, rfl, (f :: fs).dropLast, ?_⟩
    rw [← List.getLast_eq_getLastD hne, List.dropLast_append_getLast hne]

end ReportPolicy

/-! ## Trees over some parameters -/

/-- A parameter of a built-in type. -/
def Parameter.Builtin (p : Parameter α) : Prop := ∃ b : BuiltinType, p.type = b.toValueType

namespace Tree

variable {t : Tree α σ} {allowed : Parameter α → Prop} {principal : α} {line : String}

/-- The trees reached from an empty one by calls over parameters of some sort. Calls may be
refused. -/
inductive GrownOver (allowed : Parameter α → Prop) : Tree α σ → Prop
  | empty (s : Settings) : s.validate = .ok () → GrownOver allowed (empty s)
  | withHook (hook : Hook α σ) {t : Tree α σ} :
      GrownOver allowed t → GrownOver allowed (t.withHook hook)
  | register {d : Declaration α σ} {t : Tree α σ} : (∀ p ∈ d.parameters, allowed p) →
      GrownOver allowed t → GrownOver allowed ((Growth.register d).after t)
  | insert {c : Command α σ} {t : Tree α σ} : c.Built → (∀ p ∈ c.parameters, allowed p) →
      GrownOver allowed t → GrownOver allowed ((Growth.insert c).after t)

/-- Such a tree has a chart over commands with such parameters. -/
theorem GrownOver.nonempty_chart (h : t.GrownOver allowed) :
    Nonempty (Chart (fun c => c.Built ∧ ∀ p ∈ c.parameters, allowed p) t) := by
  induction h with
  | empty s _ => exact ⟨.empty _ s⟩
  | withHook hook _ ih => exact ih.map fun m => m.congr rfl rfl
  | @register d t hd _ ih =>
    obtain ⟨m⟩ := ih
    refine m.nonempty_register_after (fun cs hbuild c hc => ⟨⟨d, _, cs, hbuild, hc⟩, ?_⟩)
      fun c hc => hc.1.sound
    intro p hp
    exact hd p (Declaration.mem_parameters_of_build hbuild hc hp)
  | insert hc hparameters _ ih =>
    obtain ⟨m⟩ := ih
    exact m.nonempty_insert_after ⟨hc, hparameters⟩ hc.sound

/-- The parameters at the nodes of a tree are those of its commands. -/
theorem Chart.allowed_of_label (m : Chart (fun c => c.Built ∧ ∀ p ∈ c.parameters, allowed p) t)
    {i : NodeIndex} {p : Parameter α} (hlabel : (t.node i).label = .parameter p) : allowed p := by
  obtain ⟨c, ⟨_, hparameters⟩, hmade⟩ := m.exists_made hlabel (by simp)
  exact hparameters p (hmade.mem p rfl)

theorem GrownOver.allowed_of_label (h : t.GrownOver allowed) {i : NodeIndex} {p : Parameter α}
    (hlabel : (t.node i).label = .parameter p) : allowed p := by
  obtain ⟨m⟩ := h.nonempty_chart
  exact m.allowed_of_label hlabel

/-- **A failed search reports a rejection with its place.** On every tree grown over built-in types,
for every principal and every line:

* every recorded rejection has a position of the line, at most its number of bytes and not inside a
  character;
* if the search ends without a command and without a denial, something was recorded, and the line is
  rejected with what the policy reports of it. -/
theorem rejections_located (h : t.GrownOver Parameter.Builtin) (principal : α) (line : String) :
    (∀ r ∈ (t.search (start principal line)).rejections, r.position ≤ line.utf8ByteSize ∧
        (⟨r.position⟩ : String.Pos.Raw).IsValid line) ∧
      ((t.search (start principal line)).outcome = none →
        (t.search (start principal line)).rejections ≠ [] ∧
          ∃ r, t.parse principal line = .error r ∧
            t.settings.policy.Reports (t.search (start principal line)).rejections r) := by
  obtain ⟨m'⟩ := h.nonempty_chart
  let m : Chart Command.Built t := m'.mono fun _ hc => hc.1
  obtain ⟨hending, hrejections⟩ := m.took principal line
  constructor
  · intro r hr
    have hlocates : t.Locates := by
      intro i p hlabel
      obtain ⟨b, hb⟩ := h.allowed_of_label hlabel
      exact hb ▸ b.locates
    rw [hrejections] at hr
    have hahead := events_ahead hlocates (start principal line) r
      (.inl (Event.mem_of_mem_rejectionsBefore hr))
    have hvalid := (hahead.trans (Cursor.skipBlank_reached _)).isValid
    exact ⟨hvalid.le_rawEndPos, hvalid⟩
  · intro hnone
    have hne : (t.search (start principal line)).rejections ≠ [] := by
      rw [hrejections]
      refine Event.rejectionsBefore_ne_nil (m.events_ne_nil m.size_pos (fun h => nomatch h)) ?_
      rw [← hending, Searched.ending?, hnone]
      rfl
    obtain ⟨r, hchoose, hreports⟩ := t.settings.policy.exists_choose? hne
    refine ⟨hne, r, ?_, hreports⟩
    rw [parse_of_none hnone, reported, hchoose]
    rfl

/-- A command that says a word. -/
def escapeTree : Tree Unit Unit := (Growth.register say).after (empty {})
where
  say : Declaration Unit Unit :=
    { name := "say", steps := [.parameter (.ofBuiltin "message" (.word none none))] }

/-- A bad escape is found at its backslash, behind a character of two bytes. -/
theorem rejections_located_escapeTree :
    escapeTree.GrownOver Parameter.Builtin ∧ ∃ r, escapeTree.parse () "say \"é\\x\"" = .error r ∧
      r.position = 7 ∧ (⟨r.position⟩ : String.Pos.Raw).IsValid "say \"é\\x\"" := by
  have hgrown : escapeTree.GrownOver Parameter.Builtin := by
    refine .register ?_ (.empty {} (by decide))
    intro p hp
    obtain rfl := List.mem_singleton.mp hp
    exact ⟨_, rfl⟩
  obtain ⟨hlocated, hreported⟩ := rejections_located hgrown () "say \"é\\x\""
  obtain ⟨_, r, hparse, hreports⟩ := hreported (by decide +kernel)
  have hposition : ∃ r, escapeTree.parse () "say \"é\\x\"" = .error r ∧ r.position = 7 := by
    decide +kernel
  obtain ⟨r', hparse', hseven⟩ := hposition
  obtain rfl := Except.error.inj (hparse.symm.trans hparse')
  obtain ⟨before, after, hrecorded, _⟩ := hreports
  exact ⟨hgrown, r, hparse, hseven, (hlocated r (hrecorded ▸ by simp)).2⟩

end Tree

end CommandLine
