import CommandLine.Proofs.Search.Spelled

/-!
# Spelling flags in other ways

On the tree of one command it does not matter how a line spells its flags and in which order it
gives them, as long as the required ones come first: by long names or by shorthands, switches one by
one or in a bundle, the value of a flag in its word or behind it. Such a line resolves to the
command, and the values are what its texts say. A literal without characters is no word of a line,
so no line resolves to a command that has one.

* `Context.SameValues` — values that do not depend on the order in which they were given;
* `Chart.exists_parse_line` — what a line of the command resolves to;
* `spelling_immaterial` — two lines with the same flags and texts.
-/

set_option autoImplicit false

namespace CommandLine

open Text

variable {α σ : Type}

/-! ## Values -/

/-- Two contexts give every name the same value. -/
def Context.SameValues (ctx ctx' : Context α) : Prop :=
  ∀ name, ctx.bindings.get? name = ctx'.bindings.get? name

namespace Context.SameValues

variable {ctx ctx' : Context α} {p : Parameter α} {ps : List (Parameter α)}

theorem contains_eq (h : ctx.SameValues ctx') (name : String) :
    ctx.bindings.contains name = ctx'.bindings.contains name := by
  rw [← Bindings.isSome_get?, ← Bindings.isSome_get?, h name]

/-- One more value keeps the two alike. -/
theorem bind (h : ctx.SameValues ctx') (name : String) (value : Value) :
    (ctx.bind name value).SameValues (ctx'.bind name value) := by
  intro other
  by_cases heq : other = name
  · subst heq
    exact (Bindings.get?_insert_self _ _ _).trans (Bindings.get?_insert_self _ _ _).symm
  · exact (Bindings.get?_insert_of_ne _ _ heq).trans
      ((h other).trans (Bindings.get?_insert_of_ne _ _ heq).symm)

/-- What is filled in for a parameter of a built-in type does not depend on what is known. -/
theorem of_fillParameter (h : ctx.SameValues ctx') (hp : ∃ b : BuiltinType, p.type = b.toValueType)
    {filled filled' : Context α} (hfill : fillParameter ctx p = .ok filled)
    (hfill' : fillParameter ctx' p = .ok filled') : filled.SameValues filled' := by
  have homitted : omittedValue? p ctx = omittedValue? p ctx' := by
    obtain ⟨b, hb⟩ := hp
    simp only [omittedValue?, hb]
    rfl
  rw [fillParameter, h.contains_eq, homitted] at hfill
  rw [fillParameter] at hfill'
  split at hfill
  · rename_i hcontains
    rw [if_pos hcontains] at hfill'
    obtain rfl := Except.ok.inj hfill
    obtain rfl := Except.ok.inj hfill'
    exact h
  · rename_i hcontains
    rw [if_neg hcontains] at hfill'
    cases hvalue : omittedValue? p ctx' with
    | error r =>
      rw [hvalue] at hfill
      cases hfill
    | ok value =>
      rw [hvalue] at hfill hfill'
      cases value with
      | none =>
        obtain rfl := Except.ok.inj hfill
        obtain rfl := Except.ok.inj hfill'
        exact h
      | some value =>
        obtain rfl := Except.ok.inj hfill
        obtain rfl := Except.ok.inj hfill'
        exact h.bind p.name value

/-- And so do the values that are filled in for parameters of built-in types. -/
theorem of_fillParameters (h : ctx.SameValues ctx')
    (hps : ∀ p ∈ ps, ∃ b : BuiltinType, p.type = b.toValueType) {filled filled' : Context α}
    (hfill : fillParameters ctx ps = .ok filled)
    (hfill' : fillParameters ctx' ps = .ok filled') : filled.SameValues filled' := by
  induction ps generalizing ctx ctx' with
  | nil =>
    obtain rfl := Except.ok.inj hfill
    obtain rfl := Except.ok.inj hfill'
    exact h
  | cons p ps ih =>
    obtain ⟨hp, hps⟩ := List.forall_mem_cons.mp hps
    unfold fillParameters at hfill hfill'
    split at hfill
    · rename_i next hnext
      split at hfill'
      · rename_i next' hnext'
        exact ih (h.of_fillParameter hp hnext hnext') hps hfill hfill'
      · cases hfill'
    · cases hfill

end Context.SameValues

/-- A parameter has one value that its text says. -/
theorem Given.Says.value_eq {text : Parameter α → String} {g g' : Given α} (h : g.Says text)
    (h' : g'.Says text) (heq : g.parameter = g'.parameter) : g.value = g'.value := by
  unfold Given.Says at h h'
  rw [heq] at h
  split at h
  · rename_i hswitch
    rw [if_pos hswitch] at h'
    rw [h, h']
  · rename_i hvalued
    rw [if_neg hvalued] at h'
    obtain ⟨_, hparse⟩ := h g.context
    obtain ⟨_, hparse'⟩ := h' g.context
    exact Except.ok.inj (Prod.mk.inj (hparse.symm.trans hparse')).1

/-- Values that their texts say are the same in whatever order they are given. -/
theorem Context.SameValues.of_perm {text : Parameter α → String} {gave gave' : List (Given α)}
    (hperm : (gave.map Given.parameter).Perm (gave'.map Given.parameter))
    (hnodup : ((gave.map Given.parameter).map Parameter.name).Nodup)
    (hsaid : ∀ g ∈ gave, g.Says text) (hsaid' : ∀ g ∈ gave', g.Says text) {ctx ctx' : Context α}
    (h : ctx.SameValues ctx') : (ctx.given gave).SameValues (ctx'.given gave') := by
  intro name
  by_cases hname : ∃ g ∈ gave, g.parameter.name = name
  · obtain ⟨g, hg, hgname, hvalue⟩ := exists_get?_given hname ctx
    obtain ⟨g₁, hg₁, hparameter⟩ :=
      List.mem_map.mp (hperm.mem_iff.mp (List.mem_map_of_mem (f := Given.parameter) hg))
    obtain ⟨g', hg', hgname', hvalue'⟩ :=
      exists_get?_given ⟨g₁, hg₁, hparameter ▸ hgname⟩ ctx'
    have heq : g.parameter = g'.parameter :=
      List.inj_on_of_nodup_map hnodup (List.mem_map_of_mem hg)
        (hperm.mem_iff.mpr (List.mem_map_of_mem hg')) (hgname.trans hgname'.symm)
    rw [hvalue, hvalue', (hsaid g hg).value_eq (hsaid' g' hg') heq]
  · have hne (g : Given α) (hg : g ∈ gave) : g.parameter.name ≠ name :=
      fun hgname => hname ⟨g, hg, hgname⟩
    have hne' (g : Given α) (hg : g ∈ gave') : g.parameter.name ≠ name := by
      obtain ⟨g₁, hg₁, hparameter⟩ :=
        List.mem_map.mp (hperm.mem_iff.mpr (List.mem_map_of_mem (f := Given.parameter) hg))
      exact hparameter ▸ hne g₁ hg₁
    rw [get?_given_of_ne hne, get?_given_of_ne hne', h name]

/-! ## Lines of a command -/

/-- A line with some of the words and arguments of a command and then flags, one space between any
two words. -/
def Command.line (c : Command α σ) (s : Settings) (text : Parameter α → String) (k : Nat)
    (spellings : List (Spelling α)) : String :=
  " ".intercalate ((c.positionals.take k).flatMap (Step.words s text) ++
    spellings.flatMap (Spelling.words s text))

/-- A line may give the first words and arguments of a command and some flags: arguments are left
out at the end only, the required flags come first, no flag comes twice, every type takes the text
for its parameter, and no argument starts with a dash. -/
structure Command.Writes (c : Command α σ) (text : Parameter α → String) (k : Nat)
    (spellings : List (Spelling α)) : Prop where
  grafts : c.Grafts k
  admits : Parameter.Admits c.flags (spellings.flatMap Spelling.flags)
  fits : ∀ x ∈ spellings, x.Fits
  takes : ∀ p, .parameter p ∈ c.positionals.take k ++
    (spellings.flatMap Spelling.flags).map .parameter → p.Takes text
  dash : ∀ p, .parameter p ∈ c.positionals.take k → (text p).toList.head? ≠ some '-'

section

variable {c : Command α σ} {text : Parameter α → String} {k threshold : Nat}
  {spellings : List (Spelling α)} {flags : List (Parameter α)}

/-- Within the threshold the flags of a line make a section. -/
theorem Command.Writes.allows (h : c.Writes text k spellings) (hs : c.Sound)
    (hthreshold : c.flags.length ≤ threshold) :
    (FlagPlan.ofFlags threshold c.flags).Allows (spellings.flatMap Spelling.flags) :=
  (FlagPlan.allows_ofFlags_iff hs.longNames_nodup.of_map hthreshold).mpr h.admits

/-- The first arguments of a command and the flags of a section have different names. -/
theorem Command.Sound.nodup_map_name (hs : c.Sound) (k : Nat)
    (h : (FlagPlan.ofFlags threshold c.flags).Allows flags) :
    ((Step.parameters (c.positionals.take k) ++ flags).map Parameter.name).Nodup := by
  have hnodup := hs.names_nodup
  rw [c.names_parameters, List.nodup_append] at hnodup
  obtain ⟨harguments, hflags, hapart⟩ := hnodup
  have htaken := c.names_take_sublist k
  rw [List.map_append, List.nodup_append]
  exact ⟨htaken.nodup harguments, h.nodup_map hflags, fun x hx y hy =>
    hapart x (htaken.subset hx) y (List.map_subset Parameter.name h.subset hy)⟩

end

namespace Tree

variable {t : Tree α σ} {c : Command α σ} {text : Parameter α → String} {k : Nat}
  {spellings spellings' : List (Spelling α)}

/-- No walk from the front of a word passes a literal without characters. -/
theorem Walks.literal_empty_notMem {v u : Visit α} {steps : List (Step α)} (h : t.Walks v steps u)
    (hv : v.bundled = false → v.cursor.atBreak = v.cursor.atEnd) : .literal "" ∉ steps := by
  induction h with
  | refl v => simp
  | @step v w u turn given steps hturn hmove _ ih =>
    rw [List.mem_cons, not_or]
    constructor
    · intro hpassed
      cases hmove with
      | literal =>
        -- An empty word would be read at a blank, but blanks are skipped before every turn.
        have hword : v.cursor.word = "" := (Step.literal.inj hpassed).symm
        have hbundled : v.bundled = false := by
          rw [← Bool.not_eq_true]
          intro hbundled
          simp [turns, hbundled] at hturn
        have hend : v.cursor.atEnd = false := by
          rw [← Bool.not_eq_true]
          intro hend
          simp [turns, hbundled, hend] at hturn
        obtain ⟨ch, rest, hrest, hch⟩ :=
          Cursor.startsWord_of_atBreak_eq_false ((hv hbundled).trans hend)
        simp [Cursor.word, hrest, hch] at hword
      | argument | switch | bundle | value => cases hpassed
    · refine ih fun hbundled => ?_
      cases hmove with
      | literal | argument | switch | value => exact Cursor.atBreak_skipBlank _
      | bundle => cases hbundled

namespace Chart

/-- No line resolves to a command with a literal without characters. -/
theorem parse_ne_ok_of_literal_empty (m : Chart (· = c) t) (hc : c.Built)
    (hempty : .literal "" ∈ c.path) (principal : α) (line : String) (r : Resolved α σ) :
    t.parse principal line ≠ .ok r := by
  intro hparse
  have mbuilt := m.mono fun _ hc' => hc' ▸ hc
  obtain ⟨given, haccepts⟩ := mbuilt.exists_reading (exists_of_parse_eq_ok hparse).1
  obtain ⟨u, hreads, -, -, hcommand, -⟩ := haccepts.accepted
  obtain ⟨steps, hwalks, -⟩ := hreads.exists_walks
  obtain rfl := m.known_of_command hcommand
  obtain ⟨k, flags, hk, -, rfl⟩ := m.exists_steps_of_bound hc.sound hwalks.route hcommand
  refine hwalks.literal_empty_notMem (fun _ => Cursor.atBreak_skipBlank _)
    (List.mem_append_left _ ?_)
  -- Literals are not optional, so the flags begin behind this one.
  have hmem : .literal "" ∈ r.command.positionals := List.mem_cons_of_mem _ hempty
  rw [← List.take_append_drop k r.command.positionals] at hmem
  refine (List.mem_append.mp hmem).resolve_right fun hdrop => ?_
  simpa [Step.isOptional] using hk.rest _ hdrop

/-- A line of the command resolves to it, and the values before filling in are what the texts
say. -/
theorem exists_parse_line (m : Chart (· = c) t) (hc : c.Built) (hlaid : t.Laid c k)
    (hdashed : t.settings.Dashed) (hthreshold : c.flags.length ≤ t.settings.threshold)
    (hw : c.Writable) (hreadable : c.Readable) (hpath : .literal "" ∉ c.path)
    (hline : c.Writes text k spellings) (principal : α) :
    ∃ gave r ctx, t.parse principal (c.line t.settings text k spellings) = .ok r ∧ r.command = c ∧
      gave.map Given.parameter =
        Step.parameters (c.positionals.take k) ++ spellings.flatMap Spelling.flags ∧
      (∀ g ∈ gave, g.Says text) ∧
      fillParameters ((Context.ofLine principal (c.line t.settings text k spellings)).given gave)
        c.parameters = .ok ctx ∧ r.context.bindings = ctx.bindings := by
  have hs := hc.sound
  have hallows := hline.allows hs hthreshold
  -- The tree has the route that the line writes out.
  obtain ⟨j, ⟨steps, hroute, hfits⟩, hcommand⟩ := hlaid.sections hthreshold _ hallows
  obtain rfl := m.eq_of_fits_of_route hs hroute hallows.subset hfits
  obtain ⟨l, hfirst, hlast⟩ := exists_route_append hroute
  have hl := (m.way_of_route hfirst).1
  obtain ⟨c', hc'⟩ := Option.isSome_iff_exists.mp hcommand
  obtain rfl : c = c' := (m.known_of_command hc').symm
  have htakes : ∀ step ∈ c.positionals.take k, step.Takes text step := by
    intro step hstep
    have hmem := List.mem_of_mem_take hstep
    refine hw.takes hs (List.mem_append_left _ hmem) ?_ fun p hp => ?_
    · rintro rfl
      rcases List.mem_cons.mp hmem with hname | hmem
      · exact hc.name_ne_empty (Step.literal.inj hname).symm
      · exact hpath hmem
    · exact hline.takes p (List.mem_append_left _ (hp ▸ hstep))
  have htakes' : ∀ p ∈ spellings.flatMap Spelling.flags, p.Takes text :=
    fun p hp => hline.takes p (List.mem_append_right _ (List.mem_map_of_mem hp))
  have hwords := Step.isWord_of_takes (List.forall₂_same.mpr htakes)
    (s := t.settings) hdashed.isBlank_long
  have hwords' := hw.isWord_of_spellings hs hdashed hallows.subset hline.fits htakes'
  have hne : c.positionals.take k ≠ [] := by
    have hpos := hline.grafts.pos
    simp [Command.positionals]
    omega
  have hstart := Visit.Faces.of_start principal
    (List.append_ne_nil_of_left_ne_nil (Step.flatMap_words_ne_nil hne) _)
    (List.forall_mem_append.mpr ⟨hwords, hwords'⟩)
  obtain ⟨v, hgives, hv⟩ := m.exists_gives_positionals hw hdashed
    (fun step hstep => hs.isFlag_of_mem_positionals (List.mem_of_mem_take hstep)) htakes hline.dash
    hwords' m.size_pos hfirst hstart
  obtain ⟨u, hgives', hu⟩ := m.exists_gives_spellings hc hw hdashed hallows.subset hline.fits
    htakes' hl hlast hv
  obtain ⟨gave, hpursues, hgave, hsaid⟩ := hgives.trans hgives'
  obtain ⟨r, ctx, hparse, hr, hfill, hctx⟩ := m.exists_parse_of_pursues hc hw.opened hreadable
    hpursues hu.bundled_eq hu.before.atEnd (hu.node_eq ▸ hc')
  exact ⟨gave, r, ctx, hparse, hr, hgave, hsaid, hfill, hctx⟩

end Chart

/-- **Order and spelling of flags do not matter.** Let a tree with the usual prefixes have one
command, whose lines can be written out word by word, with at most as many flags as the threshold
says and readable defaults. Take two of its lines with the same words, arguments and texts that give
the same flags, each with the required ones first, in whatever order and spelled in whatever way.
Then both resolve to the command, with the same values, unless the command has a literal without
characters, in which case no line resolves. -/
theorem spelling_immaterial (h : t.Populated) (hcommands : t.commands = #[c])
    (hdashed : t.settings.Dashed) (hthreshold : c.flags.length ≤ t.settings.threshold)
    (hw : c.Writable) (hreadable : c.Readable) (hline : c.Writes text k spellings)
    (hline' : c.Writes text k spellings')
    (hperm : (spellings.flatMap Spelling.flags).Perm (spellings'.flatMap Spelling.flags))
    (principal : α) :
    (∃ r r', t.parse principal (c.line t.settings text k spellings) = .ok r ∧
      t.parse principal (c.line t.settings text k spellings') = .ok r' ∧
        r.command = c ∧ r'.command = c ∧ r.context.SameValues r'.context) ∨
      .literal "" ∈ c.path ∧ ∀ line r, t.parse principal line ≠ .ok r := by
  obtain ⟨hc, ⟨m⟩, hlaid⟩ := h.exists_chart hcommands
  by_cases hpath : .literal "" ∈ c.path
  · exact .inr ⟨hpath, m.parse_ne_ok_of_literal_empty hc hpath principal⟩
  left
  have hlaid := hlaid k hline.grafts
  obtain ⟨gave, r, ctx, hparse, hr, hgave, hsaid, hfill, hctx⟩ :=
    m.exists_parse_line hc hlaid hdashed hthreshold hw hreadable hpath hline principal
  obtain ⟨gave', r', ctx', hparse', hr', hgave', hsaid', hfill', hctx'⟩ :=
    m.exists_parse_line hc hlaid hdashed hthreshold hw hreadable hpath hline' principal
  refine ⟨r, r', hparse, hparse', hr, hr', ?_⟩
  have hgiven : (gave.map Given.parameter).Perm (gave'.map Given.parameter) := by
    rw [hgave, hgave']
    exact hperm.append_left _
  have hnodup : ((gave.map Given.parameter).map Parameter.name).Nodup :=
    hgave ▸ hc.sound.nodup_map_name k (hline.allows hc.sound hthreshold)
  have hsame : (Context.ofLine principal (c.line t.settings text k spellings)).SameValues
      (.ofLine principal (c.line t.settings text k spellings')) := fun _ => rfl
  have hfilled := (Context.SameValues.of_perm hgiven hnodup hsaid hsaid' hsame).of_fillParameters
    (fun p hp => (hw.builtin p hp).imp fun _ hb => hb.1) hfill hfill'
  intro name
  rw [hctx, hctx']
  exact hfilled name

/-- A command that packs a source. -/
def packing : Command Unit Unit := declaration.command 0 "pack"
where
  declaration : Declaration Unit Unit :=
    { name := "pack"
      steps := [.parameter source, .parameter level, .parameter verbose, .parameter output] }
  source : Parameter Unit := .ofBuiltin "source" (.word none none)
  level : Parameter Unit := (Parameter.ofBuiltin "level" (.integer none none)).asFlag
  verbose : Parameter Unit := .switch "verbose"
  output : Parameter Unit := (Parameter.ofBuiltin "output" (.word none none)).asFlag.asOptional

/-- The tree of the command that packs a source. -/
def packTree : Tree Unit Unit := (Growth.register packing.declaration).after (empty {})

/-- Texts for its parameters. -/
def packText (p : Parameter Unit) : String :=
  if p.name = "source" then "src" else if p.name = "level" then "9" else "out"

/-- All flags by their long names. -/
def packLong : List (Spelling Unit) :=
  [.long packing.level, .long packing.output, .long packing.verbose]

/-- All flags by their shorthands, with one value attached and one behind a bundle. -/
def packShort : List (Spelling Unit) :=
  [.short [] packing.level true, .short [packing.verbose] packing.output false]

theorem mem_parameters_packing {p : Parameter Unit} (hp : p ∈ packing.parameters) :
    p = packing.source ∨ p = packing.level ∨ p = packing.verbose ∨ p = packing.output := by
  have hp : p ∈ [packing.source, packing.level, packing.verbose, packing.output] := hp
  simpa using hp

theorem writable_packing : packing.Writable where
  opened := { command := fun _ => rfl
              parameter := fun p hp _ => by
                rcases mem_parameters_packing hp with rfl | rfl | rfl | rfl <;> rfl }
  builtin p hp := by
    rcases mem_parameters_packing hp with rfl | rfl | rfl | rfl <;> exact ⟨_, rfl, rfl⟩
  literal w hw := by
    have hw : Step.literal w ∈ [.literal "pack", .parameter packing.source] := hw
    obtain rfl : w = "pack" := by simpa using hw
    exact (by decide : IsWord "pack").2
  longName p hp := by
    have hp : p ∈ [packing.level, packing.verbose, packing.output] := hp
    simp only [List.mem_cons, List.not_mem_nil, or_false] at hp
    rcases hp with rfl | rfl | rfl <;> decide
  shorthand p hp ch hch := by
    have hp : p ∈ [packing.level, packing.verbose, packing.output] := hp
    simp only [List.mem_cons, List.not_mem_nil, or_false] at hp
    have hch : ch = 'l' ∨ ch = 'v' ∨ ch = 'o' := by
      rcases hp with rfl | rfl | rfl
      · exact .inl (Option.some.inj hch).symm
      · exact .inr (.inl (Option.some.inj hch).symm)
      · exact .inr (.inr (Option.some.inj hch).symm)
    rcases hch with rfl | rfl | rfl <;> exact .of_isAlpha (by decide)

theorem readable_packing : packing.Readable := by
  intro p hp text htext ctx
  rcases mem_parameters_packing hp with rfl | rfl | rfl | rfl <;> cases htext

theorem takes_packing {p : Parameter Unit} (hp : p ∈ packing.parameters) : p.Takes packText := by
  intro hvalued
  rcases mem_parameters_packing hp with rfl | rfl | rfl | rfl
  · exact ⟨by decide, BuiltinType.takes
      ⟨.text "src", ⟨"src".toList.reverse, []⟩, by decide +kernel, rfl⟩⟩
  · exact ⟨by decide, BuiltinType.takes ⟨.integer 9, ⟨['9'], []⟩, by decide +kernel, rfl⟩⟩
  · cases hvalued
  · exact ⟨by decide, BuiltinType.takes
      ⟨.text "out", ⟨"out".toList.reverse, []⟩, by decide +kernel, rfl⟩⟩

/-- Its flags are written after both of its positionals. -/
theorem writes_packing {spellings : List (Spelling Unit)} {last : List (Parameter Unit)}
    (hflags : spellings.flatMap Spelling.flags = packing.level :: last)
    (hlast : last.Perm [packing.verbose, packing.output]) (hfits : ∀ x ∈ spellings, x.Fits) :
    packing.Writes packText 2 spellings where
  grafts := packing.grafts_length
  admits := by
    have hnodup : [packing.verbose, packing.output].Nodup := .of_map Parameter.name (by decide)
    refine ⟨[packing.level], last, hflags, .refl _, hlast.nodup_iff.mpr hnodup, ?_⟩
    exact hlast.subset
  fits := hfits
  takes p hp := by
    refine takes_packing (Command.mem_parameters.mpr ?_)
    rw [hflags] at hp
    refine (List.mem_append.mp hp).imp List.mem_of_mem_take fun hp => ?_
    have hp : p ∈ packing.level :: last := by simpa using hp
    exact List.cons_subset_cons _ hlast.subset hp
  dash p hp := by
    have hp : Step.parameter p ∈ [.literal "pack", .parameter packing.source] := hp
    obtain rfl : p = packing.source := by simpa using hp
    decide

/-- All flags by their long names, and all by their shorthands in another order. -/
theorem spelling_immaterial_packTree :
    packTree.Populated ∧ packTree.commands = #[packing] ∧ packTree.settings.Dashed ∧
      packing.flags.length ≤ packTree.settings.threshold ∧ packing.Writable ∧ packing.Readable ∧
      packing.Writes packText 2 packLong ∧ packing.Writes packText 2 packShort ∧
      ∃ r r', packTree.parse () "pack src --level 9 --output out --verbose" = .ok r ∧
        packTree.parse () "pack src -l9 -vo out" = .ok r' ∧
        r.command = packing ∧ r'.command = packing ∧ r.context.SameValues r'.context := by
  have hpopulated : packTree.Populated := by
    unfold packTree
    exact .register_after (.empty {} (by decide)) (by decide +kernel)
  have hcommands : packTree.commands = #[packing] := rfl
  have hswap : [packing.output, packing.verbose].Perm [packing.verbose, packing.output] :=
    .swap _ _ _
  have hlong : packing.Writes packText 2 packLong :=
    writes_packing rfl hswap (by simp [packLong, Spelling.Fits])
  have hshort : packing.Writes packText 2 packShort := by
    refine writes_packing rfl (.refl _) fun x hx => ?_
    rcases List.mem_pair.mp hx with rfl | rfl <;> exact ⟨by decide, by decide⟩
  have hline : packing.line packTree.settings packText 2 packLong =
      "pack src --level 9 --output out --verbose" := by decide +kernel
  have hline' : packing.line packTree.settings packText 2 packShort =
      "pack src -l9 -vo out" := by decide +kernel
  have hpath : .literal "" ∉ packing.path := by
    show Step.literal "" ∉ [Step.parameter packing.source]
    simp
  have hsame := (spelling_immaterial hpopulated hcommands ⟨rfl, rfl⟩ (by decide) writable_packing
    readable_packing hlong hshort (hswap.cons packing.level) ()).resolve_right
      fun hempty => hpath hempty.1
  rw [hline, hline'] at hsame
  exact ⟨hpopulated, hcommands, ⟨rfl, rfl⟩, by decide, writable_packing, readable_packing, hlong,
    hshort, hsame⟩

end Tree

end CommandLine
