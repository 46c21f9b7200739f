import CommandLine.Proofs.Search.Passed
import CommandLine.Proofs.Search.Spaced

/-!
# Reading along a route

Where a route of the tree stands for some steps, and a line writes these steps out word by word, a
reading follows the route: a word leads to the literal of that name, a long name behind its prefix
to the flag that it spells, and a text to any argument that takes it. A type that takes the rest of
the line ends the reading at its own node.

* `Chart.exists_reads_step` — one step;
* `Chart.exists_reads` — a route on which no type takes the rest of the line;
* `Chart.exists_accepts` — such a route to a node at which lines end.
-/

set_option autoImplicit false

namespace CommandLine

open Text

variable {α σ : Type}

/-- A type takes a text as a whole, whatever is known when it is read. -/
def ValueType.Takes (type : ValueType α) (text : String) : Prop :=
  ∀ ctx, ∃ value after, type.parse ctx (.ofString text) = (.ok value, after) ∧ after.atEnd = true

/-- A built-in type reads alike whatever is known, so what it takes once it always takes. -/
theorem BuiltinType.takes {b : BuiltinType} {text : String}
    (h : ∃ value after, b.parse (.ofString text) = (.ok value, after) ∧ after.atEnd = true) :
    (b.toValueType : ValueType α).Takes text :=
  fun _ => h

/-- Whether the value of a step takes the rest of the line. A switch has none. -/
def Step.isGreedy (step : Step α) : Bool :=
  step.parameter?.any fun p => !p.isSwitch && p.type.traits.greedy

@[simp] theorem Step.isGreedy_literal (w : String) : (Step.literal w : Step α).isGreedy = false :=
  rfl

@[simp] theorem Step.isGreedy_parameter (p : Parameter α) :
    (Step.parameter p).isGreedy = (!p.isSwitch && p.type.traits.greedy) := rfl

/-- Steps that fit each other are of types alike, and so both greedy or neither. -/
theorem Step.isGreedy_eq_of_fits {s step : Step α} (h : s.Fits step) :
    s.isGreedy = step.isGreedy := by
  cases s with
  | literal v =>
    obtain rfl := h.of_literal
    rfl
  | parameter q =>
    cases step with
    | literal w => exact h.elim
    | parameter p =>
      rw [isGreedy_parameter, isGreedy_parameter, Parameter.isSwitch_eq_of_interchangeable h.2,
        Parameter.greedy_eq_of_interchangeable h.2]

/-- The words that a line has for a step, with a text for every parameter that takes a value. Flags
and switches go by their long name. -/
def Step.words (s : Settings) (text : Parameter α → String) : Step α → List String
  | .literal w => [w]
  | .parameter p =>
    if p.isSwitch then [s.longPrefix ++ p.longName]
    else if p.isNamed then [s.longPrefix ++ p.longName, text p]
    else [text p]

section

variable {s : Settings} {text : Parameter α → String} {q p : Parameter α}

/-- A line has a word for every step. -/
theorem Step.words_ne_nil (step : Step α) : step.words s text ≠ [] := by
  cases step with
  | literal w => simp [words]
  | parameter p =>
    rw [words]
    split
    · simp
    · split <;> simp

theorem Step.flatMap_words_ne_nil {steps : List (Step α)} (h : steps ≠ []) :
    steps.flatMap (Step.words s text) ≠ [] := by
  obtain ⟨step, steps, rfl⟩ := List.exists_cons_of_ne_nil h
  rw [List.flatMap_cons]
  exact List.append_ne_nil_of_left_ne_nil step.words_ne_nil _

/-- What a line has for a parameter is known from one that stands for it. -/
theorem Step.words_of_argument (hq : q.isNamed = false)
    (hfit : (Step.parameter q).Fits (.parameter p)) : words s text (.parameter p) = [text p] := by
  have hp := (Parameter.isNamed_eq_of_interchangeable hfit.2).symm.trans hq
  simp [words, hp, Parameter.isSwitch_of_unnamed hp]

/-- A switch is written by its long name alone. -/
theorem Step.words_of_switch (hq : q.isSwitch = true)
    (hfit : (Step.parameter q).Fits (.parameter p)) :
    words s text (.parameter p) = [s.longPrefix ++ p.longName] := by
  simp [words, (Parameter.isSwitch_eq_of_interchangeable hfit.2).symm.trans hq]

/-- A flag with a value is followed by its text. -/
theorem Step.words_of_flag (hq : q.isNamed = true) (hvalued : q.isSwitch = false)
    (hfit : (Step.parameter q).Fits (.parameter p)) :
    words s text (.parameter p) = [s.longPrefix ++ p.longName, text p] := by
  simp [words, (Parameter.isNamed_eq_of_interchangeable hfit.2).symm.trans hq,
    (Parameter.isSwitch_eq_of_interchangeable hfit.2).symm.trans hvalued]

end

/-- A step of a tree takes what a line has for a step of a command. -/
inductive Step.Takes (text : Parameter α → String) : Step α → Step α → Prop
  | literal {w : String} : IsWord w → Takes text (.literal w) (.literal w)
  | argument {q p : Parameter α} : q.isNamed = false → (Step.parameter q).Fits (.parameter p) →
      IsPlain (text p) → q.type.Takes (text p) → Takes text (.parameter q) (.parameter p)
  | switch {q p : Parameter α} : q.isSwitch = true → (Step.parameter q).Fits (.parameter p) →
      IsWord p.longName → Takes text (.parameter q) (.parameter p)
  | flag {q p : Parameter α} : q.isNamed = true → q.isSwitch = false →
      (Step.parameter q).Fits (.parameter p) → IsWord p.longName → IsPlain (text p) →
      q.type.Takes (text p) → Takes text (.parameter q) (.parameter p)

/-- Where a visit is: at a node, outside a bundle, before some words. -/
structure Visit.Faces (v : Visit α) (i : NodeIndex) (words : List String) : Prop where
  node_eq : v.node = i
  bundled_eq : v.bundled = false
  before : v.cursor.Before words

/-- At the start of a line of words. -/
theorem Visit.Faces.of_start {words : List String} (principal : α) (hne : words ≠ [])
    (hwords : ∀ w ∈ words, IsWord w) :
    (Tree.start principal (" ".intercalate words)).Faces Tree.root words where
  node_eq := rfl
  bundled_eq := rfl
  before := by
    obtain ⟨w, words, rfl⟩ := List.exists_cons_of_ne_nil hne
    have hbefore := Cursor.Before.of_line (w :: words)
    rw [Tree.start, hbefore.skipBlank_eq (hwords w List.mem_cons_self)]
    exact hbefore

/-- What a visit faces may be written otherwise. -/
theorem Visit.Faces.of_eq {v : Visit α} {i : NodeIndex} {words words' : List String}
    (h : v.Faces i words) (heq : words = words') : v.Faces i words' := heq ▸ h

/-- Only a step that fits takes what is written. -/
theorem Step.Takes.fits {text : Parameter α → String} {s step : Step α} (h : s.Takes text step) :
    s.Fits step := by
  cases h with
  | literal => exact .refl _
  | argument _ hfit | switch _ hfit | flag _ _ hfit => exact hfit

/-- A step takes what a line has for the step that it stands for if that step does, and both have
one type. -/
theorem Step.Takes.of_fits {text : Parameter α → String} {s step : Step α} (hfit : s.Fits step)
    (htype : ∀ q p, s = .parameter q → step = .parameter p → q.type = p.type)
    (h : step.Takes text step) : s.Takes text step := by
  cases h with
  | literal hw =>
    cases s with
    | literal v =>
      obtain rfl := Step.literal.inj hfit.of_literal
      exact .literal hw
    | parameter q => exact hfit.elim
  | @argument p _ hp _ htext htakes =>
    cases s with
    | literal v => exact hfit.elim
    | parameter q =>
      exact .argument ((Parameter.isNamed_eq_of_interchangeable hfit.2).trans hp) hfit htext
        (htype q p rfl rfl ▸ htakes)
  | @switch p _ hp _ hname =>
    cases s with
    | literal v => exact hfit.elim
    | parameter q =>
      exact .switch ((Parameter.isSwitch_eq_of_interchangeable hfit.2).trans hp) hfit hname
  | @flag p _ hp hvalued _ hname htext htakes =>
    cases s with
    | literal v => exact hfit.elim
    | parameter q =>
      exact .flag ((Parameter.isNamed_eq_of_interchangeable hfit.2).trans hp)
        ((Parameter.isSwitch_eq_of_interchangeable hfit.2).trans hvalued) hfit hname htext
        (htype q p rfl rfl ▸ htakes)

/-- What is written for a step are words, if the long flag prefix has no blank. -/
theorem Step.Takes.isWord {s : Settings} {text : Parameter α → String} {step step' : Step α}
    (h : step.Takes text step') (hdashes : ∀ ch ∈ s.longPrefix.toList, isBlank ch = false) :
    ∀ w ∈ step'.words s text, IsWord w := by
  intro w hw
  cases h with
  | literal hword =>
    obtain rfl := List.mem_singleton.mp hw
    exact hword
  | argument hq hfit htext =>
    rw [words_of_argument hq hfit, List.mem_singleton] at hw
    exact hw ▸ htext.1
  | switch hq hfit hname =>
    rw [words_of_switch hq hfit, List.mem_singleton] at hw
    exact hw ▸ hname.append hdashes
  | flag hq hvalued hfit hname htext =>
    rw [words_of_flag hq hvalued hfit, List.mem_pair] at hw
    rcases hw with rfl | rfl
    · exact hname.append hdashes
    · exact htext.1

theorem Step.isWord_of_takes {s : Settings} {text : Parameter α → String}
    {stand steps : List (Step α)} (h : List.Forall₂ (Step.Takes text) stand steps)
    (hdashes : ∀ ch ∈ s.longPrefix.toList, isBlank ch = false) :
    ∀ w ∈ steps.flatMap (Step.words s text), IsWord w := by
  intro w hw
  obtain ⟨step, hstep, hw⟩ := List.mem_flatMap.mp hw
  obtain ⟨_, _, htake⟩ := (exists_of_mem_forall₂ h).2 step hstep
  exact htake.isWord hdashes w hw

namespace Tree

variable {t : Tree α σ} {v : Visit α} {i j : NodeIndex} {q : Parameter α}

/-- The turns of a visit in front of a word. -/
theorem turns_of_faces {w : String} {words : List String} (h : v.Faces i (w :: words))
    (hw : IsWord w) : t.turns v =
      .literal :: .flag :: (t.argumentsOf i).map (fun child => .argument child.1 child.2) ++
        [.mismatch] := by
  simp only [turns, h.bundled_eq, h.before.atEnd_eq_false hw, h.node_eq, Bool.false_eq_true,
    if_false]

/-- A reading is accepted if it ends at a command that the principal may use. -/
theorem Accepts.of_faces {u : Visit α} {given : List (Given α)} {c : Command α σ}
    (hreads : t.Reads v given u) (hu : u.Faces j []) (hc : (t.node j).command = some c)
    (hallows : c.permission.allows u.context.principal = true) :
    t.Accepts v given ⟨c, u.cursor, u.context⟩ where
  accepted := ⟨u, hreads, hu.bundled_eq, hu.before.atEnd, hu.node_eq ▸ hc, rfl⟩
  allowed := hallows

namespace Chart

variable {known : Command α σ → Prop}

/-- The long prefix and a long name in front of a visit spell the flag child that has it. -/
theorem spells_long (m : Chart known t) (hi : i < t.nodes.size) (hchild : (j, q) ∈ t.flagsOf i)
    (hname : IsWord (t.settings.longPrefix ++ q.longName)) (hne : q.longName ≠ "")
    {words : List String} (hv : v.Faces i ((t.settings.longPrefix ++ q.longName) :: words)) :
    .flag ∈ t.turns v ∧ t.Spells v .flag j q v.cursor.skipWord false := by
  have hspelling : t.settings.flagSpelling? v.cursor.word = some (.long q.longName) := by
    rw [hv.before.word_eq hname, Settings.flagSpelling?_long _ hne]
  have hfound : t.flagNamed? v.node q.longName = some (j, q) := by
    rw [hv.node_eq]
    exact m.flagNamed?_of_mem_flagsOf hi hchild
  refine ⟨?_, .long hspelling hfound⟩
  rw [turns_of_faces hv hname]
  simp

/-- What a built-in type makes of a plain text in front of a cursor. -/
theorem exists_parse_of_before {text : String} {rest : List String} {c : Cursor}
    (hbuiltin : ∃ b : BuiltinType, q.type = b.toValueType) (htext : IsPlain text)
    (htakes : q.type.Takes text) (hrest : ∀ w ∈ rest, IsWord w) (hc : c.Before (text :: rest))
    (ctx : Context α) : ∃ value after, q.type.parse ctx c = (.ok value, after) ∧
      after.atBreak = true ∧
      after.skipBlank.Before (if q.type.traits.greedy then [] else rest) := by
  obtain ⟨b, hb⟩ := hbuiltin
  obtain ⟨value, after, hparse, _⟩ := htakes ctx
  rw [hb] at hparse ⊢
  cases hgreedy : b.traits.greedy with
  | true =>
    obtain ⟨value, after, hparse, hend⟩ :=
      BuiltinType.exists_parse_of_greedy hgreedy (hc.atEnd_eq_false htext.1)
    have hnil : after.rest = [] := List.isEmpty_iff.mp hend
    refine ⟨value, after, hparse, by simp [Cursor.atBreak, hend], ?_⟩
    rw [show (b.toValueType : ValueType α).traits.greedy = true from hgreedy, if_pos rfl]
    simp [Cursor.Before, Cursor.skipBlank, Cursor.skipWhile, hnil]
  | false =>
    have hword := BuiltinType.parse_of_word_eq hgreedy htext hparse (hc.word_eq htext.1)
    refine ⟨value, c.skipWord, hword, c.atBreak_skipWord, ?_⟩
    rw [show (b.toValueType : ValueType α).traits.greedy = false from hgreedy]
    exact hc.skip htext.1 hrest

/-- One step of a reading along a route. -/
theorem exists_reads_step (m : Chart known t) (hi : i < t.nodes.size)
    {text : Parameter α → String} {s step : Step α} {rest : List String} (hedge : t.Edge i s j)
    (hopen : ∀ c, known c → c.Open)
    (hbuiltin : ∀ c, known c → ∀ p ∈ c.parameters, ∃ b : BuiltinType, p.type = b.toValueType)
    (hdashes : ∀ ch ∈ t.settings.longPrefix.toList, isBlank ch = false)
    (htakes : s.Takes text step) (hrest : ∀ w ∈ rest, IsWord w)
    (hv : v.Faces i (step.words t.settings text ++ rest)) :
    ∃ given w, t.Reads v given w ∧ w.Faces j (if s.isGreedy then [] else rest) ∧
      Step.parameters [s] = given.map Given.parameter := by
  have hallows := m.allows_node hopen j
  have htype {q : Parameter α} (hedge : t.Edge i (.parameter q) j) :
      ∃ b : BuiltinType, q.type = b.toValueType := by
    obtain ⟨c, hc, hq⟩ := m.exists_command_of_edge hi hedge
    exact hbuiltin c hc q hq
  -- A flag or a switch is spelled by its long name.
  have hspells {q p : Parameter α} {words : List String} (hq : q.isNamed = true)
      (hfit : (Step.parameter q).Fits (.parameter p)) (hname : IsWord p.longName)
      (hedge : t.Edge i (.parameter q) j)
      (hfaces : v.Faces i ((t.settings.longPrefix ++ p.longName) :: words)) :
      .flag ∈ t.turns v ∧ t.Spells v .flag j q v.cursor.skipWord false := by
    rw [← hfit.1] at hname hfaces
    exact m.spells_long hi (m.mem_flagsOf_of_edge hi hedge hq) (hname.append hdashes) hname.1 hfaces
  cases htakes with
  | @literal w hw =>
    have hfaces : v.Faces i (w :: rest) := hv
    have hchild : (t.node v.node).literal? v.cursor.word = some j := by
      rw [hfaces.node_eq, hfaces.before.word_eq hw]
      exact (Node.literal?_eq_some_iff (m.stands i hi).words_nodup).mpr hedge
    have hturn : .literal ∈ t.turns v := by
      rw [turns_of_faces hfaces hw]
      exact List.mem_cons_self
    exact ⟨_, _, .step hturn (.literal hchild (hallows _) v.cursor.atBreak_skipWord) (.refl _),
      ⟨rfl, rfl, hfaces.before.skip hw hrest⟩, rfl⟩
  | @argument q p hq hfit htext htakes =>
    have hfaces : v.Faces i (text p :: rest) :=
      hv.of_eq (by rw [Step.words_of_argument hq hfit]; rfl)
    have hturn : .argument j q ∈ t.turns v := by
      have hargument := m.mem_argumentsOf_of_edge hi hedge hq
      rw [turns_of_faces hfaces htext.1]
      simpa using hargument
    obtain ⟨value, after, hparse, hbreak, hbefore⟩ :=
      exists_parse_of_before (htype hedge) htext htakes hrest hfaces.before v.context
    exact ⟨_, _, .step hturn (.argument (hallows _) hparse hbreak) (.refl _),
      ⟨rfl, rfl, by simpa [Parameter.isSwitch_of_unnamed hq] using hbefore⟩, rfl⟩
  | @switch q p hq hfit hname =>
    have hfaces : v.Faces i ((t.settings.longPrefix ++ p.longName) :: rest) :=
      hv.of_eq (by rw [Step.words_of_switch hq hfit]; rfl)
    obtain ⟨hturn, hspells⟩ :=
      hspells (Parameter.isNamed_of_isSwitch hq) hfit hname hedge hfaces
    exact ⟨_, _, .step hturn (.switch hspells hq (hallows _) v.cursor.atBreak_skipWord) (.refl _),
      ⟨rfl, rfl, by simpa [hq] using hfaces.before.skip (hname.append hdashes) hrest⟩, rfl⟩
  | @flag q p hq hvalued hfit hname htext htakes =>
    have hfaces : v.Faces i ((t.settings.longPrefix ++ p.longName) :: text p :: rest) :=
      hv.of_eq (by rw [Step.words_of_flag hq hvalued hfit]; rfl)
    obtain ⟨hturn, hspells⟩ := hspells hq hfit hname hedge hfaces
    have hwords : ∀ w ∈ text p :: rest, IsWord w := List.forall_mem_cons.mpr ⟨htext.1, hrest⟩
    have hbehind := hfaces.before.skip (hname.append hdashes) hwords
    obtain ⟨value, after, hparse, hbreak, hbefore⟩ :=
      exists_parse_of_before (htype hedge) htext htakes hrest hbehind v.context
    exact ⟨_, _, .step hturn (.value hspells hvalued (hallows _) rfl
      (hbehind.atEnd_eq_false htext.1) hparse hbreak) (.refl _),
      ⟨rfl, rfl, by simpa [hvalued] using hbefore⟩, rfl⟩

/-- A reading along a route on which no value takes the rest of the line. -/
theorem exists_reads (m : Chart known t) (hi : i < t.nodes.size)
    {text : Parameter α → String} {stand steps : List (Step α)} {rest : List String}
    (hroute : t.Route i stand j) (hopen : ∀ c, known c → c.Open)
    (hbuiltin : ∀ c, known c → ∀ p ∈ c.parameters, ∃ b : BuiltinType, p.type = b.toValueType)
    (hdashes : ∀ ch ∈ t.settings.longPrefix.toList, isBlank ch = false)
    (htakes : List.Forall₂ (Step.Takes text) stand steps) (hrest : ∀ w ∈ rest, IsWord w)
    (hgreedy : ∀ s ∈ stand, s.isGreedy = false)
    (hv : v.Faces i (steps.flatMap (Step.words t.settings text) ++ rest)) :
    ∃ given w, t.Reads v given w ∧ w.Faces j rest ∧
      Step.parameters stand = given.map Given.parameter := by
  induction htakes generalizing i v with
  | nil =>
    obtain rfl : i = j := hroute
    exact ⟨[], v, .refl v, hv, rfl⟩
  | @cons s step stand steps htake htakes ih =>
    obtain ⟨l, hedge, hroute⟩ := hroute
    have hl : l < t.nodes.size := (m.leads_of_edge hi hedge).lt
    have hlater : ∀ w ∈ steps.flatMap (Step.words t.settings text) ++ rest, IsWord w := by
      intro w hw
      exact (List.mem_append.mp hw).elim (Step.isWord_of_takes htakes hdashes w) (hrest w)
    obtain ⟨given, w, hreads, hw, hgiven⟩ := m.exists_reads_step hi hedge hopen hbuiltin hdashes
      htake hlater
      (hv.of_eq (by rw [List.flatMap_cons, List.append_assoc]))
    -- A greedy step would leave nothing for the words behind it.
    rw [hgreedy s List.mem_cons_self, if_neg Bool.false_ne_true] at hw
    obtain ⟨later, u, hreads', hu, hlater⟩ := ih hl hroute
      (fun s' hs' => hgreedy s' (List.mem_cons_of_mem s hs')) hw
    refine ⟨given ++ later, u, hreads.append hreads', hu, ?_⟩
    rw [List.map_append, ← hgiven, ← hlater]
    exact Step.parameters_append [s] stand

/-- A line that writes out a route to an end is accepted there. -/
theorem exists_accepts (m : Chart known t) {text : Parameter α → String}
    {stand steps : List (Step α)} (hroute : t.Route root stand j) (hopen : ∀ c, known c → c.Open)
    (hbuiltin : ∀ c, known c → ∀ p ∈ c.parameters, ∃ b : BuiltinType, p.type = b.toValueType)
    (hdashes : ∀ ch ∈ t.settings.longPrefix.toList, isBlank ch = false)
    (htakes : List.Forall₂ (Step.Takes text) stand steps) (hne : steps ≠ [])
    (hgreedy : ∀ s ∈ stand, s.isGreedy = false) {c : Command α σ}
    (hc : (t.node j).command = some c) (principal : α) :
    ∃ given a,
      t.Accepts (start principal (" ".intercalate (steps.flatMap (Step.words t.settings text))))
        given a ∧ Step.parameters stand = given.map Given.parameter := by
  have hstart := Visit.Faces.of_start principal (Step.flatMap_words_ne_nil hne)
    (Step.isWord_of_takes htakes hdashes)
  obtain ⟨given, u, hreads, hu, hgiven⟩ := m.exists_reads m.size_pos hroute hopen hbuiltin hdashes
    htakes (by simp) hgreedy (hstart.of_eq (List.append_nil _).symm)
  exact ⟨given, _, .of_faces hreads hu hc ((hopen c (m.known_of_command hc)).command _), hgiven⟩

end Chart

end Tree

end CommandLine
