import CommandLine.Proofs.Search.Followed
import CommandLine.Proofs.Search.Pursued

/-!
# Lines that spell flags

A line can give a flag by its long name or by its shorthand, several switches by their shorthands in
one word, and the value of the last flag of such a bundle in the same word or in the next one. On
the tree of one command the search follows a line that writes out a route, in whatever way it spells
the flags on it: it pursues a reading that gives to every parameter what its text says.

* `Chart.exists_gives_switches` — the switches of a bundle, one shorthand after the other;
* `Chart.exists_gives_spellings` — the flags of a line, one spelling after the other;
* `Chart.exists_gives_positionals` — the words and arguments before them.
-/

set_option autoImplicit false

namespace CommandLine

open Text

variable {α σ : Type}

/-! ## Lines -/

/-- A type takes the text for a parameter as one word. A switch has no text. -/
def Parameter.Takes (text : Parameter α → String) (p : Parameter α) : Prop :=
  p.isSwitch = false → IsPlain (text p) ∧ p.type.Takes (text p)

/-- How a line gives flags: one by its long name, or some switches and a last flag by their
shorthands in one word, to which the value of the last flag may be attached. -/
inductive Spelling (α : Type) where
  | long (p : Parameter α)
  | short (switches : List (Parameter α)) (last : Parameter α) (attached : Bool)

namespace Spelling

/-- The flags that are given. -/
def flags : Spelling α → List (Parameter α)
  | long p => [p]
  | short switches last _ => switches ++ [last]

/-- The end of a bundle whose last flag has its value in the same word. -/
def attachedValue (text : Parameter α → String) (last : Parameter α) (attached : Bool) : String :=
  if attached && !last.isSwitch then text last else ""

/-- The word behind a bundle whose last flag has its value there. -/
def separateValue (text : Parameter α → String) (last : Parameter α) (attached : Bool) :
    List String :=
  if attached || last.isSwitch then [] else [text last]

/-- The words that a line has for some flags. -/
def words (s : Settings) (text : Parameter α → String) : Spelling α → List String
  | long p => Step.words s text (.parameter p)
  | short switches last attached =>
    (s.shortPrefix ++ (String.ofList ((switches ++ [last]).filterMap Parameter.shorthand?) ++
      attachedValue text last attached)) :: separateValue text last attached

/-- The flags of a bundle have shorthands, and all but the last are switches. -/
def Fits : Spelling α → Prop
  | long _ => True
  | short switches last _ => (∀ p ∈ switches, p.isSwitch = true) ∧
      ∀ p ∈ switches ++ [last], p.shorthand?.isSome = true

variable {text : Parameter α → String} {last : Parameter α} {attached : Bool}

theorem isBlank_attachedValue (h : last.Takes text) :
    ∀ ch ∈ (attachedValue text last attached).toList, isBlank ch = false := by
  intro ch hch
  rw [attachedValue] at hch
  split at hch
  · rename_i hattached
    exact (h (by simpa using (Bool.and_eq_true_iff.mp hattached).2)).1.1.2 ch hch
  · simp at hch

theorem isWord_separateValue (h : last.Takes text) :
    ∀ w ∈ separateValue text last attached, IsWord w := by
  intro w hw
  rw [separateValue] at hw
  split at hw
  · cases hw
  · rename_i hdetached
    rw [List.mem_singleton.mp hw]
    exact (h (Bool.or_eq_false_iff.mp (by simpa using hdetached)).2).1.1

end Spelling

/-- A command whose lines can be written out word by word: everyone may use it, its types are
built-in ones that read one word, its literals and long names have no blanks, and its shorthands are
characters that stand alone. -/
structure Command.Writable (c : Command α σ) : Prop where
  opened : c.Open
  builtin : ∀ p ∈ c.parameters, ∃ b : BuiltinType, p.type = b.toValueType ∧ b.traits.greedy = false
  literal : ∀ w, .literal w ∈ c.positionals → ∀ ch ∈ w.toList, isBlank ch = false
  longName : ∀ p ∈ c.flags, IsWord p.longName
  shorthand : ∀ p ∈ c.flags, ∀ ch, p.shorthand? = some ch → StandsAlone ch

/-- A value is what a type reads in the text for its parameter, whatever is known when it is read;
that of a switch is its presence. -/
def Given.Says (text : Parameter α → String) (g : Given α) : Prop :=
  if g.parameter.isSwitch then g.value = .truth true
  else ∀ ctx, ∃ after,
    g.parameter.type.parse ctx (.ofString (text g.parameter)) = (.ok g.value, after)

namespace Command.Writable

variable {c : Command α σ} {text : Parameter α → String} {p : Parameter α} {s : Settings}

/-- A text is read where it stands in a line as it is read alone. -/
theorem exists_parse (h : c.Writable) (hp : p ∈ c.parameters) (hvalued : p.isSwitch = false)
    (htakes : p.Takes text) {d : Cursor} {rest : List String} (hd : d.Before (text p :: rest))
    (ctx : Context α) : ∃ value, p.type.parse ctx d = (.ok value, d.skipWord) ∧
      ∀ ctx', ∃ after, p.type.parse ctx' (.ofString (text p)) = (.ok value, after) := by
  obtain ⟨b, hb, hgreedy⟩ := h.builtin p hp
  obtain ⟨hplain, htaken⟩ := htakes hvalued
  obtain ⟨value, after, hparse, _⟩ := htaken ctx
  rw [hb] at hparse ⊢
  exact ⟨value, BuiltinType.parse_of_word_eq hgreedy hplain hparse (hd.word_eq hplain.1),
    fun _ => ⟨after, hparse⟩⟩

/-- Shorthands make no blank. -/
theorem isBlank_shorthands (h : c.Writable) {ps : List (Parameter α)} (hps : ps ⊆ c.flags) :
    ∀ ch ∈ (String.ofList (ps.filterMap Parameter.shorthand?)).toList, isBlank ch = false := by
  intro ch hch
  rw [String.toList_ofList] at hch
  obtain ⟨p, hp, hshort⟩ := List.mem_filterMap.mp hch
  exact (h.shorthand p (hps hp) ch hshort).not_blank

/-- The first shorthand of a bundle. -/
theorem exists_shorthands (h : c.Writable) {ps : List (Parameter α)} (hps : ps ⊆ c.flags)
    (hne : ps ≠ []) (hshort : ∀ p ∈ ps, p.shorthand?.isSome = true) :
    ∃ ch cs, ps.filterMap Parameter.shorthand? = ch :: cs ∧ StandsAlone ch := by
  obtain ⟨p, ps, rfl⟩ := List.exists_cons_of_ne_nil hne
  obtain ⟨ch, hch⟩ := Option.isSome_iff_exists.mp (hshort p List.mem_cons_self)
  exact ⟨ch, _, List.filterMap_cons_some hch, h.shorthand p (hps List.mem_cons_self) ch hch⟩

/-- A step of the command takes what a line has for it. -/
theorem takes (h : c.Writable) (hs : c.Sound) {step : Step α}
    (hstep : step ∈ c.positionals ++ c.flags.map .parameter) (hne : step ≠ .literal "")
    (htakes : ∀ p, step = .parameter p → p.Takes text) : step.Takes text step := by
  cases step with
  | literal w =>
    have hw : .literal w ∈ c.positionals := by simpa using hstep
    exact .literal ⟨fun hempty => hne (by rw [hempty]), h.literal w hw⟩
  | parameter p =>
    have hp : p ∈ c.parameters := Step.mem_parameters.mpr hstep
    cases hswitch : p.isSwitch with
    | true =>
      exact .switch hswitch (.refl _)
        (h.longName p (hs.mem_flags hp (Parameter.isNamed_of_isSwitch hswitch)))
    | false =>
      obtain ⟨hplain, htaken⟩ := htakes p rfl hswitch
      cases hnamed : p.isNamed with
      | true =>
        exact .flag hnamed hswitch (.refl _) (h.longName p (hs.mem_flags hp hnamed)) hplain htaken
      | false => exact .argument hnamed (.refl _) hplain htaken

/-- The words for some flags are words. -/
theorem isWord_of_spelling (h : c.Writable) (hs : c.Sound) (hdashed : s.Dashed) {x : Spelling α}
    (hflags : x.flags ⊆ c.flags) (hfits : x.Fits) (htakes : ∀ p ∈ x.flags, p.Takes text) :
    ∀ w ∈ x.words s text, IsWord w := by
  cases x with
  | long p =>
    have hp : p ∈ c.flags := hflags List.mem_cons_self
    have hstep : (Step.parameter p).Takes text (.parameter p) := by
      refine h.takes hs (List.mem_append_right _ (List.mem_map_of_mem hp)) nofun ?_
      rintro _ ⟨⟩
      exact htakes p List.mem_cons_self
    exact hstep.isWord hdashed.isBlank_long
  | short switches last attached =>
    have hlast : last ∈ switches ++ [last] := List.mem_append_right _ List.mem_cons_self
    have htext := htakes last hlast
    intro w hw
    rcases List.mem_cons.mp hw with rfl | hw
    · rw [hdashed.short]
      refine IsWord.extend (by decide) ?_
      intro ch hch
      rw [String.toList_append, List.mem_append] at hch
      exact hch.elim (h.isBlank_shorthands hflags ch) (Spelling.isBlank_attachedValue htext ch)
    · exact Spelling.isWord_separateValue htext w hw

/-- The words for the flags of a line are words. -/
theorem isWord_of_spellings (h : c.Writable) (hs : c.Sound) (hdashed : s.Dashed)
    {spellings : List (Spelling α)} (hflags : spellings.flatMap Spelling.flags ⊆ c.flags)
    (hfits : ∀ x ∈ spellings, x.Fits)
    (htakes : ∀ p ∈ spellings.flatMap Spelling.flags, p.Takes text) :
    ∀ w ∈ spellings.flatMap (Spelling.words s text), IsWord w := by
  intro w hw
  obtain ⟨x, hx, hw⟩ := List.mem_flatMap.mp hw
  have hsub : x.flags ⊆ spellings.flatMap Spelling.flags :=
    fun p hp => List.mem_flatMap.mpr ⟨x, hx, hp⟩
  exact h.isWord_of_spelling hs hdashed (fun p hp => hflags (hsub hp)) (hfits x hx)
    (fun p hp => htakes p (hsub hp)) w hw

end Command.Writable

namespace Tree

/-- A pursued reading gives some parameters what their texts say. -/
def Gives (t : Tree α σ) (text : Parameter α → String) (v : Visit α) (ps : List (Parameter α))
    (u : Visit α) : Prop :=
  ∃ gave, t.Pursues v gave u ∧ gave.map Given.parameter = ps ∧ ∀ g ∈ gave, g.Says text

/-- In the turn of a visit the next shorthand is read at a cursor: behind the short prefix of a
word, or within a bundle. -/
structure ReadsShorthand (t : Tree α σ) (v : Visit α) (turn : Turn α) (e : Cursor) : Prop where
  turn_mem : turn ∈ t.turns v
  spells : ∀ {ch rest child p}, e.rest = ch :: rest → t.flagShort? v.node ch = some (child, p) →
    t.Spells v turn child p (e.advance 1) !(e.advance 1).atBreak

variable {t : Tree α σ} {c : Command α σ} {v w u : Visit α} {i j : NodeIndex} {p : Parameter α}
  {turn : Turn α} {text : Parameter α → String} {rest : List String} {e : Cursor}

namespace Gives

theorem refl (v : Visit α) : t.Gives text v [] v := ⟨[], .refl v, rfl, by simp⟩

/-- A turn that is chosen gives one parameter what its text says. -/
theorem of_chooses {g : Given α} (h : t.Chooses v turn (some g) w) (hg : g.Says text) :
    t.Gives text v [g.parameter] w :=
  ⟨[g], .single h, rfl, by simpa using hg⟩

theorem trans {ps qs : List (Parameter α)} (h : t.Gives text v ps w) (h' : t.Gives text w qs u) :
    t.Gives text v (ps ++ qs) u := by
  obtain ⟨gave, hpursues, hgave, hsaid⟩ := h
  obtain ⟨later, hpursues', hlater, hsaid'⟩ := h'
  refine ⟨gave ++ later, hpursues.append hpursues', ?_, ?_⟩
  · rw [List.map_append, hgave, hlater]
  · intro g hg
    exact (List.mem_append.mp hg).elim (hsaid g) (hsaid' g)

end Gives

namespace ReadsShorthand

/-- Behind the prefix of a word of shorthands. -/
theorem of_word (hdashed : t.settings.Dashed) {w : String} {ch : Char} {cs : List Char}
    (hw : w.toList = ch :: cs) (hch : StandsAlone ch)
    (hv : v.Faces i ((t.settings.shortPrefix ++ w) :: rest))
    (hword : IsWord (t.settings.shortPrefix ++ w)) :
    ∃ e : Cursor, t.ReadsShorthand v .flag e ∧ e.Before (w :: rest) := by
  have hchars : (t.settings.shortPrefix ++ w).toList = '-' :: w.toList := by
    rw [hdashed.short, String.toList_append]
    rfl
  refine ⟨v.cursor.advance t.settings.shortPrefix.length, ⟨?_, ?_⟩, ?_⟩
  · rw [turns_of_faces hv hword]
    simp
  · intro ch' rest' child p hrest hchild
    refine .short ?_ rfl hrest hchild
    rw [hv.before.word_eq hword]
    exact hdashed.flagSpelling?_short hch (by rw [hchars, hw])
  · rw [hdashed.short]
    exact (hv.before.advance_one hchars).2

/-- Within a bundle. -/
theorem of_bundled (hv : v.bundled = true) : t.ReadsShorthand v .shorthand v.cursor where
  turn_mem := by simp [turns, hv]
  spells hrest hchild := .bundled hrest hchild

end ReadsShorthand

namespace Chart

/-! ## Flags -/

/-- A switch at the end of a word. -/
theorem exists_gives_switch (m : Chart (· = c) t) (hw : c.Writable) (hi : v.node < t.nodes.size)
    (hturn : turn ∈ t.turns v) (hspells : t.Spells v turn j p e false) (hswitch : p.isSwitch = true)
    (hbreak : e.atBreak = true) (hbefore : e.skipBlank.Before rest) :
    ∃ u, t.Gives text v [p] u ∧ u.Faces j rest := by
  have hallows := m.allows_of_open hw.opened j v.context.principal
  have hmove := Moves.switch hspells hswitch hallows hbreak
  have hchooses := m.chooses_spelled hi hturn hspells hmove
  exact ⟨_, .of_chooses hchooses (by simp [Given.Says, hswitch]), ⟨rfl, rfl, hbefore⟩⟩

/-- A flag with its value in front of it, in the same word or in the next one. -/
theorem exists_gives_value (m : Chart (· = c) t) (hw : c.Writable) (hi : v.node < t.nodes.size)
    (hturn : turn ∈ t.turns v) {attached : Bool} (hspells : t.Spells v turn j p e attached)
    (hp : p ∈ c.parameters) (hvalued : p.isSwitch = false) (htakes : p.Takes text)
    (hrest : ∀ w ∈ rest, IsWord w)
    (hbefore : (if attached then e else e.skipBlank).Before (text p :: rest)) :
    ∃ u, t.Gives text v [p] u ∧ u.Faces j rest := by
  have hallows := m.allows_of_open hw.opened j v.context.principal
  have hplain := (htakes hvalued).1.1
  obtain ⟨value, hparse, hsaid⟩ := hw.exists_parse hp hvalued htakes hbefore v.context
  have hmove := Moves.value hspells hvalued hallows rfl (hbefore.atEnd_eq_false hplain) hparse
    (Cursor.atBreak_skipWord _)
  have hchooses := m.chooses_spelled hi hturn hspells hmove
  exact ⟨_, .of_chooses hchooses (by simpa [Given.Says, hvalued] using hsaid),
    ⟨rfl, rfl, hbefore.skip hplain hrest⟩⟩

/-- A flag by its long name. -/
theorem exists_gives_long (m : Chart (· = c) t) (hc : c.Built) (hw : c.Writable)
    (hdashed : t.settings.Dashed) (hi : i < t.nodes.size) (hchild : (j, p) ∈ t.flagsOf i)
    (hp : p ∈ c.flags) (htakes : p.Takes text) (hrest : ∀ w ∈ rest, IsWord w)
    (hv : v.Faces i (Step.words t.settings text (.parameter p) ++ rest)) :
    ∃ u, t.Gives text v [p] u ∧ u.Faces j rest := by
  have hname : IsWord (t.settings.longPrefix ++ p.longName) :=
    (hw.longName p hp).append hdashed.isBlank_long
  have hnode : v.node < t.nodes.size := hv.node_eq ▸ hi
  cases hswitch : p.isSwitch with
  | true =>
    have hfaces : v.Faces i ((t.settings.longPrefix ++ p.longName) :: rest) :=
      hv.of_eq (by rw [Step.words, if_pos hswitch]; rfl)
    obtain ⟨hturn, hspells⟩ := m.spells_long hi hchild hname (hw.longName p hp).1 hfaces
    exact m.exists_gives_switch hw hnode hturn hspells hswitch v.cursor.atBreak_skipWord
      (hfaces.before.skip hname hrest)
  | false =>
    have hfaces : v.Faces i ((t.settings.longPrefix ++ p.longName) :: text p :: rest) :=
      hv.of_eq (by simp [Step.words, hswitch, hc.sound.named p hp])
    obtain ⟨hturn, hspells⟩ := m.spells_long hi hchild hname (hw.longName p hp).1 hfaces
    refine m.exists_gives_value hw hnode hturn hspells (Command.mem_parameters.mpr (.inr hp))
      hswitch htakes hrest ?_
    exact hfaces.before.skip hname (List.forall_mem_cons.mpr ⟨(htakes hswitch).1.1, hrest⟩)

/-- The last flag of a bundle, with its value. -/
theorem exists_gives_last (m : Chart (· = c) t) (hc : c.Built) (hw : c.Writable)
    (hi : v.node < t.nodes.size) (hchild : (j, p) ∈ t.flagsOf v.node) (hp : p ∈ c.flags)
    {ch : Char} (hch : p.shorthand? = some ch) (hreads : t.ReadsShorthand v turn e)
    (htakes : p.Takes text) (hrest : ∀ w ∈ rest, IsWord w) {attached : Bool}
    (he : e.Before ((String.ofList [ch] ++ Spelling.attachedValue text p attached) ::
      (Spelling.separateValue text p attached ++ rest))) :
    ∃ u, t.Gives text v [p] u ∧ u.Faces j rest := by
  have hchars : (String.ofList [ch] ++ Spelling.attachedValue text p attached).toList =
      ch :: (Spelling.attachedValue text p attached).toList := by simp
  obtain ⟨⟨_, hfront⟩, hbefore⟩ := he.advance_one hchars
  have hspells := hreads.spells hfront (m.flagShort?_of_mem_flagsOf hc hi hchild hch)
  have hmem := Command.mem_parameters.mpr (.inr hp)
  -- Three spellings end here: a bare switch, a value in the same word, and a value in the next.
  cases hswitch : p.isSwitch with
  | true =>
    simp only [Spelling.attachedValue, Spelling.separateValue, hswitch, Bool.not_true,
      Bool.and_false, Bool.or_true, Bool.false_eq_true, if_false, if_true,
      List.nil_append] at hbefore
    obtain ⟨hbreak, hbefore⟩ := hbefore.of_empty hrest
    rw [hbreak] at hspells
    exact m.exists_gives_switch hw hi hreads.turn_mem hspells hswitch hbreak hbefore
  | false =>
    have hplain := (htakes hswitch).1.1
    cases attached with
    | true =>
      simp only [Spelling.attachedValue, Spelling.separateValue, hswitch, Bool.not_false,
        Bool.and_true, Bool.or_false, if_true, List.nil_append] at hbefore
      rw [hbefore.atBreak_eq_false hplain] at hspells
      exact m.exists_gives_value hw hi hreads.turn_mem hspells hmem hswitch htakes hrest hbefore
    | false =>
      simp only [Spelling.attachedValue, Spelling.separateValue, hswitch, Bool.not_false,
        Bool.and_true, Bool.or_false, Bool.false_eq_true, if_false,
        List.singleton_append] at hbefore
      obtain ⟨hbreak, hbefore⟩ :=
        hbefore.of_empty (List.forall_mem_cons.mpr ⟨hplain, hrest⟩)
      rw [hbreak] at hspells
      exact m.exists_gives_value hw hi hreads.turn_mem hspells hmem hswitch htakes hrest hbefore

/-- The switches of a bundle are read one shorthand after the other. -/
theorem exists_gives_switches (m : Chart (· = c) t) (hc : c.Built) (hw : c.Writable)
    {switches : List (Parameter α)} (hflags : switches ⊆ c.flags)
    (hswitches : ∀ p ∈ switches, p.isSwitch = true)
    (hshort : ∀ p ∈ switches, p.shorthand?.isSome = true) {x : String} (hx : IsWord x)
    (hi : v.node < t.nodes.size) (hroute : t.Route v.node (switches.map .parameter) i)
    (hreads : t.ReadsShorthand v turn e)
    (he : e.Before ((String.ofList (switches.filterMap Parameter.shorthand?) ++ x) :: rest)) :
    ∃ u turn' e', t.Gives text v switches u ∧ u.node = i ∧ t.ReadsShorthand u turn' e' ∧
      e'.Before (x :: rest) := by
  induction switches generalizing v turn e with
  | nil =>
    rw [List.filterMap_nil, String.ofList_nil, String.empty_append] at he
    exact ⟨v, turn, e, .refl v, hroute, hreads, he⟩
  | cons p switches ih =>
    obtain ⟨l, hedge, hroute⟩ := hroute
    obtain ⟨hp, hflags⟩ := List.cons_subset.mp hflags
    obtain ⟨hswitch, hswitches⟩ := List.forall_mem_cons.mp hswitches
    obtain ⟨hshort₁, hshort⟩ := List.forall_mem_cons.mp hshort
    obtain ⟨ch, hch⟩ := Option.isSome_iff_exists.mp hshort₁
    have hchild := m.mem_flagsOf_of_edge hi hedge (hc.sound.named p hp)
    -- The word goes on behind the shorthand.
    have hmore : IsWord (String.ofList (switches.filterMap Parameter.shorthand?) ++ x) :=
      hx.append (hw.isBlank_shorthands hflags)
    have hchars :
        (String.ofList ((p :: switches).filterMap Parameter.shorthand?) ++ x).toList =
          ch :: (String.ofList (switches.filterMap Parameter.shorthand?) ++ x).toList := by
      simp [hch]
    obtain ⟨⟨_, hfront⟩, hbefore⟩ := he.advance_one hchars
    have hspells := hreads.spells hfront (m.flagShort?_of_mem_flagsOf hc hi hchild hch)
    rw [hbefore.atBreak_eq_false hmore] at hspells
    have hallows := m.allows_of_open hw.opened l v.context.principal
    have hmove := Moves.bundle hspells hswitch hallows
    have hgives : t.Gives text v [p] _ :=
      .of_chooses (m.chooses_spelled hi hreads.turn_mem hspells hmove)
        (by simp [Given.Says, hswitch])
    obtain ⟨u, turn', e', hlater, hu⟩ := ih hflags hswitches hshort (m.leads_of_edge hi hedge).lt
      hroute (ReadsShorthand.of_bundled (v := ⟨l, e.advance 1, _, true⟩) rfl) hbefore
    exact ⟨u, turn', e', hgives.trans hlater, hu⟩

/-- The flags of a bundle behind its prefix. -/
theorem exists_gives_bundle (m : Chart (· = c) t) (hc : c.Built) (hw : c.Writable)
    {switches : List (Parameter α)} {last : Parameter α} (hflags : switches ++ [last] ⊆ c.flags)
    (hswitches : ∀ p ∈ switches, p.isSwitch = true)
    (hshort : ∀ p ∈ switches ++ [last], p.shorthand?.isSome = true) (htakes : last.Takes text)
    (hrest : ∀ w ∈ rest, IsWord w) (hi : v.node < t.nodes.size)
    (hroute : t.Route v.node ((switches ++ [last]).map .parameter) j)
    (hreads : t.ReadsShorthand v turn e) {attached : Bool}
    (he : e.Before ((String.ofList ((switches ++ [last]).filterMap Parameter.shorthand?) ++
      Spelling.attachedValue text last attached) ::
        (Spelling.separateValue text last attached ++ rest))) :
    ∃ u, t.Gives text v (switches ++ [last]) u ∧ u.Faces j rest := by
  obtain ⟨hsub, hlast⟩ := List.append_subset.mp hflags
  obtain ⟨hshort, hshort₁⟩ := List.forall_mem_append.mp hshort
  have hmem : last ∈ c.flags := hlast List.mem_cons_self
  obtain ⟨ch, hch⟩ := Option.isSome_iff_exists.mp (hshort₁ last List.mem_cons_self)
  -- Behind the shorthands of the switches there is that of the last flag.
  have htail : IsWord (String.ofList [ch] ++ Spelling.attachedValue text last attached) :=
    IsWord.extend ⟨by simp, by simpa using (hw.shorthand last hmem ch hch).not_blank⟩
      (Spelling.isBlank_attachedValue htakes)
  rw [List.filterMap_append, List.filterMap_cons_some hch, List.filterMap_nil,
    String.ofList_append, String.append_assoc] at he
  rw [List.map_append] at hroute
  obtain ⟨l, hroute, hedge⟩ := exists_route_snoc hroute
  have hl := (m.way_append_of_route hi hroute).1
  have hchild := m.mem_flagsOf_of_edge hl hedge (hc.sound.named last hmem)
  obtain ⟨w, turn', e', hgives, rfl, hreads', he'⟩ :=
    m.exists_gives_switches hc hw hsub hswitches hshort htail hi hroute hreads he
  obtain ⟨u, hlater, hu⟩ :=
    m.exists_gives_last hc hw hl hchild hmem hch hreads' htakes hrest he'
  exact ⟨u, hgives.trans hlater, hu⟩

/-- The flags of one spelling. -/
theorem exists_gives_spelling (m : Chart (· = c) t) (hc : c.Built) (hw : c.Writable)
    (hdashed : t.settings.Dashed) {x : Spelling α} (hflags : x.flags ⊆ c.flags) (hfits : x.Fits)
    (htakes : ∀ p ∈ x.flags, p.Takes text) (hrest : ∀ w ∈ rest, IsWord w) (hi : i < t.nodes.size)
    (hroute : t.Route i (x.flags.map .parameter) j)
    (hv : v.Faces i (x.words t.settings text ++ rest)) :
    ∃ u, t.Gives text v x.flags u ∧ u.Faces j rest := by
  have hwords := hw.isWord_of_spelling hc.sound hdashed hflags hfits htakes
  obtain rfl := hv.node_eq
  cases x with
  | long p =>
    obtain ⟨l, hedge, rfl⟩ := hroute
    have hp : p ∈ c.flags := hflags List.mem_cons_self
    exact m.exists_gives_long hc hw hdashed hi
      (m.mem_flagsOf_of_edge hi hedge (hc.sound.named p hp)) hp (htakes p List.mem_cons_self) hrest
      hv
  | short switches last attached =>
    obtain ⟨hswitches, hshort⟩ := hfits
    obtain ⟨ch, chars, hchars, hch⟩ := hw.exists_shorthands hflags (by simp [Spelling.flags]) hshort
    have hfirst : (String.ofList ((switches ++ [last]).filterMap Parameter.shorthand?) ++
        Spelling.attachedValue text last attached).toList =
          ch :: (chars ++ (Spelling.attachedValue text last attached).toList) := by
      rw [show (switches ++ [last]).filterMap Parameter.shorthand? = ch :: chars from hchars]
      simp
    obtain ⟨e, hreads, he⟩ :=
      ReadsShorthand.of_word hdashed hfirst hch hv (hwords _ List.mem_cons_self)
    exact m.exists_gives_bundle hc hw hflags hswitches hshort
      (htakes last (List.mem_append_right _ List.mem_cons_self)) hrest hi hroute hreads he

/-- The flags of a line, one spelling after the other. -/
theorem exists_gives_spellings (m : Chart (· = c) t) (hc : c.Built) (hw : c.Writable)
    (hdashed : t.settings.Dashed) {spellings : List (Spelling α)}
    (hflags : spellings.flatMap Spelling.flags ⊆ c.flags) (hfits : ∀ x ∈ spellings, x.Fits)
    (htakes : ∀ p ∈ spellings.flatMap Spelling.flags, p.Takes text) (hi : i < t.nodes.size)
    (hroute : t.Route i ((spellings.flatMap Spelling.flags).map .parameter) j)
    (hv : v.Faces i (spellings.flatMap (Spelling.words t.settings text))) :
    ∃ u, t.Gives text v (spellings.flatMap Spelling.flags) u ∧ u.Faces j [] := by
  induction spellings generalizing i v with
  | nil =>
    obtain rfl : i = j := hroute
    exact ⟨v, .refl v, hv⟩
  | cons x spellings ih =>
    rw [List.flatMap_cons] at hflags htakes hroute hv ⊢
    rw [List.map_append] at hroute
    obtain ⟨hx, hlater⟩ := List.append_subset.mp hflags
    obtain ⟨htakes, htakes'⟩ := List.forall_mem_append.mp htakes
    obtain ⟨hfit, hfits⟩ := List.forall_mem_cons.mp hfits
    obtain ⟨l, hroute, hroute'⟩ := exists_route_append hroute
    have hrest := hw.isWord_of_spellings hc.sound hdashed hlater hfits htakes'
    obtain ⟨w, hgives, hw'⟩ :=
      m.exists_gives_spelling hc hw hdashed hx hfit htakes hrest hi hroute hv
    obtain ⟨u, hgives', hu⟩ :=
      ih hlater hfits htakes' (m.way_append_of_route hi hroute).1 hroute' hw'
    exact ⟨u, hgives.trans hgives', hu⟩

/-! ## Words and arguments -/

/-- A word or an argument that does not start with a dash. -/
theorem exists_gives_positional (m : Chart (· = c) t) (hw : c.Writable)
    (hdashed : t.settings.Dashed) (hi : i < t.nodes.size) {step : Step α}
    (hedge : t.Edge i step j) (hplain : step.isFlag = false) (htakes : step.Takes text step)
    (hdash : ∀ p, step = .parameter p → (text p).toList.head? ≠ some '-')
    (hrest : ∀ w ∈ rest, IsWord w) (hv : v.Faces i (step.words t.settings text ++ rest)) :
    ∃ u, t.Gives text v (Step.parameters [step]) u ∧ u.Faces j rest := by
  have hallows := m.allows_of_open hw.opened j v.context.principal
  obtain rfl := hv.node_eq
  cases htakes with
  | @literal w hword =>
    have hfaces : v.Faces v.node (w :: rest) := hv
    have hchild : (t.node v.node).literal? v.cursor.word = some j := by
      rw [hfaces.before.word_eq hword]
      exact (Node.literal?_eq_some_iff (m.stands v.node hi).words_nodup).mpr hedge
    have hmove := Moves.literal hchild hallows v.cursor.atBreak_skipWord
    have hchooses := Chooses.of_turns_eq_cons (turns_of_faces hfaces hword) hmove
    exact ⟨_, ⟨[], .single hchooses, rfl, by simp⟩, ⟨rfl, rfl, hfaces.before.skip hword hrest⟩⟩
  | @argument p _ hunnamed hfit htext htaken =>
    have hvalued := Parameter.isSwitch_of_unnamed hunnamed
    have hfaces : v.Faces v.node (text p :: rest) :=
      hv.of_eq (by rw [Step.words_of_argument hunnamed hfit]; rfl)
    have hturn : .argument j p ∈ t.turns v := by
      have hchild := m.mem_argumentsOf_of_edge hi hedge hunnamed
      rw [turns_of_faces hfaces htext.1]
      simpa using hchild
    -- A text that starts with no dash spells no flag, so the arguments have their turn.
    have hspelling : t.settings.flagSpelling? v.cursor.word = none := by
      rw [hfaces.before.word_eq htext.1]
      exact hdashed.flagSpelling?_eq_none (hdash p rfl)
    obtain ⟨_, rfl, hp⟩ := m.exists_command_of_edge hi hedge
    obtain ⟨value, hparse, hsaid⟩ :=
      hw.exists_parse hp hvalued (fun _ => ⟨htext, htaken⟩) hfaces.before v.context
    have hchooses := m.chooses_argument hi hspelling hturn
      (.argument hallows hparse v.cursor.atBreak_skipWord)
    exact ⟨_, .of_chooses hchooses (by simpa [Given.Says, hvalued] using hsaid),
      ⟨rfl, rfl, hfaces.before.skip htext.1 hrest⟩⟩
  | switch hswitch =>
    rw [Step.isFlag_parameter, Parameter.isNamed_of_isSwitch hswitch] at hplain
    cases hplain
  | flag hnamed =>
    rw [Step.isFlag_parameter, hnamed] at hplain
    cases hplain

/-- The words and arguments of a line, one after the other. -/
theorem exists_gives_positionals (m : Chart (· = c) t) (hw : c.Writable)
    (hdashed : t.settings.Dashed) {steps : List (Step α)}
    (hplain : ∀ step ∈ steps, step.isFlag = false)
    (htakes : ∀ step ∈ steps, step.Takes text step)
    (hdash : ∀ p, .parameter p ∈ steps → (text p).toList.head? ≠ some '-')
    (hrest : ∀ w ∈ rest, IsWord w) (hi : i < t.nodes.size) (hroute : t.Route i steps j)
    (hv : v.Faces i (steps.flatMap (Step.words t.settings text) ++ rest)) :
    ∃ u, t.Gives text v (Step.parameters steps) u ∧ u.Faces j rest := by
  induction steps generalizing i v with
  | nil =>
    obtain rfl : i = j := hroute
    exact ⟨v, .refl v, hv⟩
  | cons step steps ih =>
    obtain ⟨l, hedge, hroute⟩ := hroute
    obtain ⟨hplain₁, hplain⟩ := List.forall_mem_cons.mp hplain
    obtain ⟨htakes₁, htakes⟩ := List.forall_mem_cons.mp htakes
    have hlater : ∀ w ∈ steps.flatMap (Step.words t.settings text) ++ rest, IsWord w := by
      refine List.forall_mem_append.mpr ⟨?_, hrest⟩
      exact Step.isWord_of_takes (List.forall₂_same.mpr htakes) hdashed.isBlank_long
    obtain ⟨w, hgives, hfaces⟩ := m.exists_gives_positional hw hdashed hi hedge hplain₁ htakes₁
      (fun p hstep => hdash p (hstep ▸ List.mem_cons_self)) hlater
      (hv.of_eq (by rw [List.flatMap_cons, List.append_assoc]))
    obtain ⟨u, hgives', hu⟩ := ih hplain htakes
      (fun p hp => hdash p (List.mem_cons_of_mem step hp)) (m.leads_of_edge hi hedge).lt hroute
      hfaces
    refine ⟨u, ?_, hu⟩
    rw [← List.singleton_append, Step.parameters_append]
    exact hgives.trans hgives'

end Chart

end Tree

end CommandLine
