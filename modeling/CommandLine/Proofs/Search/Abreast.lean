import CommandLine.Proofs.Search.Continued
import CommandLine.Proofs.Search.Suggested
import CommandLine.Proofs.Search.Walks

/-!
# Completion abreast of a reading

Completion has a walker of its own. Along a reading of a line whose start is being completed it
stays abreast (`Command.Abreast`): it stands at the same place of the start, with the words and
arguments before it that the reading has before it, and with at least the flags that the reading is
still to pass. A reading keeps it there past words, arguments and switches, however these are
spelled (`Abreast.step`, `Abreast.walks`), and past one value that stands behind a long name at the
end of the start (`Abreast.value`). Where the start ends it offers the flags that it still has.

* `Abreast.walks` — completion stays abreast;
* `Abreast.mem_suggestions` — and offers the flag that comes next.
-/

set_option autoImplicit false

namespace CommandLine

open Text

variable {α σ : Type}

/-- No two flags of a built command have one shorthand. -/
theorem Command.Built.eq_of_shorthand?_eq {c : Command α σ} {p q : Parameter α} {ch : Char}
    (h : c.Built) (hp : p ∈ c.flags) (hq : q ∈ c.flags) (hpch : p.shorthand? = some ch)
    (hqch : q.shorthand? = some ch) : p = q := by
  have hapart := List.pairwise_filterMap.mp h.shorthands_nodup
  have : Std.Symm fun p q : Parameter α =>
      ∀ b, p.shorthand? = some b → ∀ b', q.shorthand? = some b' → b ≠ b' :=
    ⟨fun _ _ h b hb b' hb' heq => h b' hb' b hb heq.symm⟩
  by_contra hne
  exact hapart.forall hp hq hne ch hpch ch hqch rfl

/-- What is offered where a command has words and arguments left, and flags behind them. -/
def suggestSteps (s : Settings) (steps : List (Step α)) (flags : List (Parameter α)) (c : Cursor)
    (ctx : Context α) (short : Bool) : List String :=
  match followSteps c ctx steps with
  | .halted suggestions => suggestions
  | .ready c ctx => suggestFlags s flags c ctx short

/-- The flags that a reading is still to pass are among those that completion still has. -/
structure Command.Pending (c : Command α σ) (ahead left : List (Parameter α)) : Prop where
  nodup : ahead.Nodup
  subset : ahead ⊆ left
  left_subset : left ⊆ c.flags

/-- Completion takes out the flag that is passed, by whatever tells it from the others. -/
theorem Command.Pending.exists_takeOut? {c : Command α σ} {p : Parameter α}
    {ahead left : List (Parameter α)} (h : c.Pending (p :: ahead) left) {key : Parameter α → Bool}
    (hkey : key p = true) (hunique : ∀ q ∈ c.flags, key q = true → q = p) :
    ∃ left', takeOut? key left = some (p, left') ∧ c.Pending ahead left' := by
  obtain ⟨hnew, hnodup⟩ := List.nodup_cons.mp h.nodup
  obtain ⟨left', htake, hperm⟩ := CommandLine.exists_takeOut? (h.subset List.mem_cons_self) hkey
    fun q hq => hunique q (h.left_subset hq)
  refine ⟨left', htake, hnodup, ?_, ?_⟩
  · intro q hq
    have hne : q ≠ p := fun heq => hnew (heq ▸ hq)
    have hmem := hperm.mem_iff.mpr (h.subset (List.mem_cons_of_mem p hq))
    exact (List.mem_cons.mp hmem).resolve_left hne
  · intro q hq
    exact h.left_subset (hperm.mem_iff.mp (List.mem_cons_of_mem p hq))

/-- Completion on the start of a line, which goes on with a tail, is abreast of a visit on the whole
line from which some steps are ahead. -/
inductive Command.Abreast (c : Command α σ) (s : Settings) (tail : List Char)
    (suggestions : List String) (v : Visit α) (ahead : List (Step α)) : Prop
  | between {d : Cursor} {ctx : Context α} {steps : List (Step α)}
      {flags left : List (Parameter α)} {short : Bool} :
      v.bundled = false → v.cursor = d.followedBy tail → d.EndsBlank →
      (∀ step ∈ steps, step.isFlag = false) → c.Pending flags left →
      suggestSteps s steps left d ctx short = suggestions →
      ahead = steps ++ flags.map .parameter → Abreast c s tail suggestions v ahead
  | within {d : Cursor} {ctx : Context α} {flags left : List (Parameter α)} {bundle : List Char} :
      v.bundled = true → v.cursor.atBreak = false → v.cursor = d.followedBy tail → d.EndsBlank →
      c.Pending flags left → suggestBundle s bundle left d ctx = suggestions →
      ahead = flags.map .parameter → Abreast c s tail suggestions v ahead

namespace Command.Abreast

variable {c : Command α σ} {s : Settings} {tail : List Char} {suggestions : List String}
  {v : Visit α} {ahead : List (Step α)} {step : Step α} {p : Parameter α} {d : Cursor}
  {ctx : Context α} {child : NodeIndex} {flags left : List (Parameter α)} {bundle : List Char}

/-- Before a word or an argument completion is between two words. -/
theorem exists_steps (hs : c.Sound) (h : c.Abreast s tail suggestions v (step :: ahead))
    (hstep : step.isFlag = false) :
    ∃ (d : Cursor) (ctx : Context α) (steps : List (Step α)) (flags left : List (Parameter α))
      (short : Bool), v.cursor = d.followedBy tail ∧ d.EndsBlank ∧
        (∀ step ∈ steps, step.isFlag = false) ∧ c.Pending flags left ∧
        suggestSteps s (step :: steps) left d ctx short = suggestions ∧
        ahead = steps ++ flags.map .parameter := by
  -- What is pending is flags, and this step is none.
  have hflags {flags left : List (Parameter α)} (hpending : c.Pending flags left)
      (heq : step :: ahead = flags.map .parameter) : False := by
    cases flags with
    | nil => cases heq
    | cons p flags =>
      obtain ⟨rfl, _⟩ := List.cons.inj heq
      have hnamed := hs.named p (hpending.left_subset (hpending.subset List.mem_cons_self))
      rw [Step.isFlag_parameter, hnamed] at hstep
      cases hstep
  cases h with
  | within _ _ _ _ hpending _ heq => exact (hflags hpending heq).elim
  | @between d ctx steps flags left short _ hcursor hends hsteps hpending hsuggests heq =>
    cases steps with
    | nil => exact (hflags hpending heq).elim
    | cons step' steps =>
      obtain ⟨rfl, rfl⟩ := List.cons.inj heq
      exact ⟨d, ctx, steps, flags, left, short, hcursor, hends,
        fun s hs => hsteps s (List.mem_cons_of_mem _ hs), hpending, hsuggests, rfl⟩

/-- Before a flag it has no words and arguments left. -/
theorem exists_flags (h : c.Abreast s tail suggestions v (.parameter p :: ahead))
    (hp : p.isNamed = true) :
    ∃ (d : Cursor) (ctx : Context α) (flags left : List (Parameter α)),
      v.cursor = d.followedBy tail ∧ d.EndsBlank ∧ c.Pending (p :: flags) left ∧
        ahead = flags.map .parameter ∧
        ((v.bundled = false ∧ ∃ short, suggestFlags s left d ctx short = suggestions) ∨
          v.bundled = true ∧ v.cursor.atBreak = false ∧
            ∃ bundle, suggestBundle s bundle left d ctx = suggestions) := by
  have hcons {flags : List (Parameter α)} (heq : .parameter p :: ahead = flags.map .parameter) :
      ∃ flags', flags = p :: flags' ∧ ahead = flags'.map .parameter := by
    obtain ⟨q, flags', rfl, hq, hflags⟩ := List.map_eq_cons_iff.mp heq.symm
    obtain rfl := Step.parameter.inj hq
    exact ⟨flags', rfl, hflags.symm⟩
  cases h with
  | @between d ctx steps flags left short hv hcursor hends hsteps hpending hsuggests heq =>
    cases steps with
    -- No flag is walked before all positional steps are.
    | cons step steps =>
      obtain ⟨rfl, _⟩ := List.cons.inj heq
      have hplain := hsteps _ List.mem_cons_self
      rw [Step.isFlag_parameter, hp] at hplain
      cases hplain
    | nil =>
      obtain ⟨flags', rfl, hahead⟩ := hcons heq
      exact ⟨d, ctx, flags', left, hcursor, hends, hpending, hahead,
        .inl ⟨hv, short, hsuggests⟩⟩
  | @within d ctx flags left bundle hv hbreak hcursor hends hpending hsuggests heq =>
    obtain ⟨flags', rfl, hahead⟩ := hcons heq
    exact ⟨d, ctx, flags', left, hcursor, hends, hpending, hahead,
      .inr ⟨hv, hbreak, bundle, hsuggests⟩⟩

/-- Between two words with no words and arguments left. -/
theorem of_flags {short : Bool} (hv : v.bundled = false) (hcursor : v.cursor = d.followedBy tail)
    (hends : d.EndsBlank) (hpending : c.Pending flags left)
    (hsuggests : suggestFlags s left d ctx short = suggestions) :
    c.Abreast s tail suggestions v (flags.map .parameter) := by
  have hsteps : suggestSteps s [] left d ctx short = suggestions := hsuggests
  exact .between hv hcursor hends (by simp) hpending hsteps rfl

theorem rest_ne_nil (hcursor : v.cursor = d.followedBy tail) (hrest : tail.length < v.left) :
    d.rest ≠ [] := by
  intro hnil
  rw [Visit.left, hcursor] at hrest
  simp [hnil] at hrest

/-! ## Words and arguments -/

/-- The next word is the command's. -/
theorem literal (hs : c.Sound) (htail : StartsWord tail) (hrest : tail.length < v.left)
    (h : c.Abreast s tail suggestions v (.literal v.cursor.word :: ahead)) :
    c.Abreast s tail suggestions ⟨child, v.cursor.skipWord.skipBlank, ctx, false⟩ ahead := by
  obtain ⟨d, ctx', steps, flags, left, short, hcursor, hends, hsteps, hpending, hsuggests, rfl⟩ :=
    h.exists_steps hs rfl
  have hne := rest_ne_nil hcursor hrest
  have hword : d.word = v.cursor.word := by rw [hcursor, hends.word_followedBy hne]
  have hend : d.skipWord.atEnd = false := by
    simpa [Cursor.atEnd] using hends.rest_skipWord_ne_nil hne
  have hnext : v.cursor.skipWord.skipBlank = d.skipWord.skipBlank.followedBy tail := by
    rw [hcursor, hends.skipWord_followedBy hne, Cursor.skipBlank_followedBy htail]
  have hreached := (Cursor.skipWord_reached d).trans (Cursor.skipBlank_reached _)
  have hsuggests' : suggestSteps s steps left d.skipWord.skipBlank ctx' short = suggestions := by
    rw [← hsuggests, suggestSteps, suggestSteps, followSteps_literal hword hend]
  exact .between rfl hnext (hends.of_reaches hreached) hsteps hpending hsuggests' rfl

/-- The next value is an argument's. -/
theorem argument (hs : c.Sound) (htail : StartsWord tail) {b : BuiltinType}
    (hb : p.type = b.toValueType) (hplace : p.isNamed = false)
    (hallows : ∀ principal, p.permission.allows principal = true) {value : Value} {after : Cursor}
    (hparse : p.type.parse v.context v.cursor = (.ok value, after)) (hbreak : after.atBreak = true)
    {front : List Char} (hbefore : after.skipBlank.rest = front ++ tail)
    (h : c.Abreast s tail suggestions v (.parameter p :: ahead)) :
    c.Abreast s tail suggestions ⟨child, after.skipBlank, ctx, false⟩ ahead := by
  obtain ⟨d, ctx', steps, flags, left, short, hcursor, hends, hsteps, hpending, hsuggests, rfl⟩ :=
    h.exists_steps hs hplace
  rw [hb, hcursor] at hparse
  obtain ⟨e, rfl, hparse', _, hend, hbreak'⟩ :=
    BuiltinType.exists_parse_of_followedBy htail hends hparse hbreak hbefore
  have hreached := b.parse_reached d
  rw [hparse'] at hreached
  have hsuggests' : suggestSteps s steps left e.skipBlank (ctx'.bind p.name value) short =
      suggestions := by
    have htype : p.type.parse ctx' d = (.ok value, e) := hb ▸ hparse'
    rw [← hsuggests, suggestSteps, suggestSteps,
      followSteps_argument (hallows _) htype hend hbreak']
  exact .between rfl (Cursor.skipBlank_followedBy htail)
    (hends.of_reaches (hreached.trans (Cursor.skipBlank_reached e))) hsteps hpending hsuggests' rfl

/-! ## Flags -/

/-- Completion takes the flag with a long name out of those that it has. -/
theorem exists_takeOut?_long (hs : c.Sound) (hpending : c.Pending (p :: flags) left) :
    ∃ left', takeOut? (fun q => q.longName = p.longName) left = some (p, left') ∧
      c.Pending flags left' := by
  have hp := hpending.left_subset (hpending.subset List.mem_cons_self)
  refine hpending.exists_takeOut? (by simp) fun q hq hlong => ?_
  exact List.inj_on_of_nodup_map hs.longNames_nodup hq hp (by simpa using hlong)

/-- And the one with a shorthand. -/
theorem exists_takeOut?_short (hc : c.Built) (hpending : c.Pending (p :: flags) left) {ch : Char}
    (hch : p.shorthand? = some ch) :
    ∃ left', takeOut? (fun q => q.shorthand? = some ch) left = some (p, left') ∧
      c.Pending flags left' := by
  have hp := hpending.left_subset (hpending.subset List.mem_cons_self)
  refine hpending.exists_takeOut? (by simpa using hch) fun q hq hshort => ?_
  exact hc.eq_of_shorthand?_eq hq hp (by simpa using hshort) hch

/-- A switch behind which completion is between two words or within a bundle. -/
theorem shorthand (hc : c.Built) (htail : StartsWord tail) (hends : d.EndsBlank) (hne : d.rest ≠ [])
    (hmid : d.atBreak = false) (hpending : c.Pending (p :: flags) left)
    (hsuggests : suggestBundle s bundle left d ctx = suggestions) {ch : Char} {rest : List Char}
    (hrest : (d.followedBy tail).rest = ch :: rest) (hch : p.shorthand? = some ch)
    (hswitch : p.isSwitch = true) {after : Cursor} (hafter : after = (d.followedBy tail).advance 1)
    {ctx' : Context α} :
    (after.atBreak = true → c.Abreast s tail suggestions ⟨child, after.skipBlank, ctx', false⟩
      (flags.map .parameter)) ∧
    (after.atBreak = false → c.Abreast s tail suggestions ⟨child, after, ctx', true⟩
      (flags.map .parameter)) := by
  obtain ⟨left', htake, hpending'⟩ := exists_takeOut?_short hc hpending hch
  obtain ⟨ch', rest', hd⟩ := List.exists_cons_of_ne_nil hne
  obtain rfl : ch' = ch := by
    rw [Cursor.rest_followedBy, hd] at hrest
    exact (List.cons.inj hrest).1
  have hblank : isBlank ch' = false := by
    simpa [Cursor.atBreak, Cursor.atEnd, Cursor.atBlank, hd] using hmid
  rw [suggestBundle_switch hd hblank htake hswitch] at hsuggests
  have hnext : after = (d.advance 1).followedBy tail := by
    rw [hafter, Cursor.advance_followedBy (by simp [hd])]
  have hends' := hends.of_reaches (Cursor.advance_reached 1 d)
  -- Either the bundle ends with this switch or its next character is read as another.
  constructor
  · intro hbreak
    rw [hnext] at hbreak
    have hne' := Cursor.rest_ne_nil_of_atBreak htail hbreak
    rw [Cursor.atBreak_followedBy hne'] at hbreak
    rw [suggestBundle_end hbreak (by simpa [Cursor.atEnd] using hne')] at hsuggests
    exact of_flags rfl (by rw [hnext, Cursor.skipBlank_followedBy htail])
      (hends'.of_reaches (Cursor.skipBlank_reached _)) hpending' hsuggests
  · intro hbreak
    exact .within rfl hbreak hnext hends' hpending' hsuggests rfl

end Command.Abreast

/-! ## Moves -/

namespace Tree

variable {t : Tree α σ} {v w : Visit α}

/-- Who has a turn in front of a word. -/
theorem turns_eq (hv : v.bundled = false) (hend : v.cursor.atEnd = false) : t.turns v =
    .literal :: .flag :: (t.argumentsOf v.node).map (fun child => .argument child.1 child.2) ++
      [.mismatch] := by
  simp [turns, hv, hend]

/-- A flag's turn comes between two words. -/
theorem bundled_of_flag_mem_turns (h : .flag ∈ t.turns v) : v.bundled = false := by
  rw [← Bool.not_eq_true]
  intro hv
  simp [turns, hv] at h

/-- A shorthand's turn comes within a bundle. -/
theorem bundled_of_shorthand_mem_turns (h : .shorthand ∈ t.turns v) : v.bundled = true := by
  rw [← Bool.not_eq_false]
  intro hv
  cases hend : v.cursor.atEnd <;> simp [turns, hv, hend] at h

end Tree

namespace Command.Abreast

variable {c : Command α σ} {t : Tree α σ} {tail : List Char} {suggestions : List String}
  {v w u : Visit α} {ahead : List (Step α)} {turn : Turn α} {child : NodeIndex} {p : Parameter α}
  {e : Cursor} {attached : Bool} {ctx : Context α}

/-- The next flag is a switch, however it is spelled. -/
theorem switch (hc : c.Built) (htail : StartsWord tail) (hturn : turn ∈ t.turns v)
    (hrest : tail.length < v.left) (hspells : t.Spells v turn child p e attached)
    (hswitch : p.isSwitch = true)
    (h : c.Abreast t.settings tail suggestions v (.parameter p :: ahead)) :
    (attached = false → e.atBreak = true →
      c.Abreast t.settings tail suggestions ⟨child, e.skipBlank, ctx, false⟩ ahead) ∧
    (attached = true → c.Abreast t.settings tail suggestions ⟨child, e, ctx, true⟩ ahead) := by
  obtain ⟨d, ctx', flags, left, hcursor, hends, hpending, rfl, hplace⟩ :=
    h.exists_flags (Parameter.isNamed_of_isSwitch hswitch)
  have hne := rest_ne_nil hcursor hrest
  have hstart : d.atEnd = false := by simpa [Cursor.atEnd] using hne
  have hword : d.word = v.cursor.word := by rw [hcursor, hends.word_followedBy hne]
  -- A flag that is named by a word is met between two words, a shorthand behind another one within
  -- a word: where the suggestions stand rules the other place out.
  cases hspells with
  | @long name _ _ hspelling hchild =>
    obtain ⟨_, short, hsuggests⟩ := hplace.resolve_right fun hwithin => by
      rw [Tree.bundled_of_flag_mem_turns hturn] at hwithin
      cases hwithin.1
    obtain rfl := (Tree.of_flagNamed?_eq_some hchild).2
    obtain ⟨left', htake, hpending'⟩ := exists_takeOut?_long hc.sound hpending
    have hend : d.skipWord.atEnd = false := by
      simpa [Cursor.atEnd] using hends.rest_skipWord_ne_nil hne
    rw [suggestFlags_long_switch hstart (hword ▸ hspelling) hend htake hswitch] at hsuggests
    refine ⟨fun _ _ => ?_, by simp⟩
    have hnext : v.cursor.skipWord.skipBlank = d.skipWord.skipBlank.followedBy tail := by
      rw [hcursor, hends.skipWord_followedBy hne, Cursor.skipBlank_followedBy htail]
    have hreached := (Cursor.skipWord_reached d).trans (Cursor.skipBlank_reached _)
    exact of_flags rfl hnext (hends.of_reaches hreached) hpending' hsuggests
  | @short ch rest _ _ e hspelling he hch hchild =>
    obtain ⟨_, short, hsuggests⟩ := hplace.resolve_right fun hwithin => by
      rw [Tree.bundled_of_flag_mem_turns hturn] at hwithin
      cases hwithin.1
    rw [← hword] at hspelling
    obtain ⟨bundle, hbundle⟩ := suggestFlags_short hstart hspelling
    rw [hbundle] at hsuggests
    obtain ⟨hle, hmid⟩ := Settings.atBreak_advance_shortPrefix hspelling
    have hadvance : e = (d.advance t.settings.shortPrefix.length).followedBy tail := by
      rw [he, hcursor, Cursor.advance_followedBy hle]
    have hne' := Cursor.rest_ne_nil_of_atBreak_eq_false hmid
    obtain ⟨hbetween, hwithin⟩ := shorthand hc htail
      (hends.of_reaches (Cursor.advance_reached _ d)) hne' hmid hpending hsuggests
      (hadvance ▸ hch) (Tree.shorthand?_of_flagShort? hchild) hswitch
      (congrArg (Cursor.advance 1) hadvance)
    exact ⟨fun _ => hbetween, fun hattached => hwithin (by simpa using hattached)⟩
  | @bundled ch rest _ _ hch hchild =>
    obtain ⟨_, hmid, bundle, hsuggests⟩ := hplace.resolve_left fun hbetween => by
      rw [Tree.bundled_of_shorthand_mem_turns hturn] at hbetween
      cases hbetween.1
    rw [hcursor, Cursor.atBreak_followedBy hne] at hmid
    obtain ⟨hbetween, hwithin⟩ := shorthand hc htail hends hne hmid hpending hsuggests
      (hcursor ▸ hch) (Tree.shorthand?_of_flagShort? hchild) hswitch
      (congrArg (Cursor.advance 1) hcursor)
    exact ⟨fun _ => hbetween, fun hattached => hwithin (by simpa using hattached)⟩

/-- The value of a flag under its long name is the last thing before the tail. -/
theorem value (hc : c.Built) (htail : StartsWord tail) (hrest : tail.length < v.left)
    {b : BuiltinType} (hb : p.type = b.toValueType)
    (hallows : ∀ principal, p.permission.allows principal = true)
    (hnamed : p.isNamed = true) (hvalued : p.isSwitch = false) (hturn : .flag ∈ t.turns v)
    (hspelling : t.settings.flagSpelling? v.cursor.word = some (.long p.longName))
    {value : Value} {after : Cursor}
    (hparse : p.type.parse v.context v.cursor.skipWord.skipBlank = (.ok value, after))
    (hbreak : after.atBreak = true) (hbefore : after.skipBlank.rest = tail)
    (h : c.Abreast t.settings tail suggestions v (.parameter p :: ahead)) :
    c.Abreast t.settings tail suggestions ⟨child, after.skipBlank, ctx, false⟩ ahead := by
  obtain ⟨d, ctx', flags, left, hcursor, hends, hpending, rfl, hplace⟩ := h.exists_flags hnamed
  obtain ⟨_, short, hsuggests⟩ := hplace.resolve_right fun hwithin => by
    rw [Tree.bundled_of_flag_mem_turns hturn] at hwithin
    cases hwithin.1
  have hne := rest_ne_nil hcursor hrest
  have hword : d.word = v.cursor.word := by rw [hcursor, hends.word_followedBy hne]
  have hend : d.skipWord.atEnd = false := by
    simpa [Cursor.atEnd] using hends.rest_skipWord_ne_nil hne
  obtain ⟨left', htake, hpending'⟩ := exists_takeOut?_long hc.sound hpending
  -- The value is read before the tail, at which completion comes to the end of its line.
  have hstart : v.cursor.skipWord.skipBlank = d.skipWord.skipBlank.followedBy tail := by
    rw [hcursor, hends.skipWord_followedBy hne, Cursor.skipBlank_followedBy htail]
  have hreached := (Cursor.skipWord_reached d).trans (Cursor.skipBlank_reached _)
  have hends' := hends.of_reaches hreached
  rw [hb, hstart] at hparse
  have hbefore' : after.skipBlank.rest = [] ++ tail := hbefore
  obtain ⟨e, rfl, hparse', hvalue, hende, hbreak'⟩ :=
    BuiltinType.exists_parse_of_followedBy htail hends' hparse hbreak hbefore'
  have hreached' := b.parse_reached d.skipWord.skipBlank
  rw [hparse'] at hreached'
  have hnext := Cursor.skipBlank_followedBy (c := e) htail
  have hnil : e.skipBlank.atEnd = true := by
    rw [hnext, Cursor.rest_followedBy] at hbefore
    simpa [Cursor.atEnd] using hbefore
  have hblank : d.skipWord.atBlank = true := by
    simpa [Cursor.atBreak, hend] using d.atBreak_skipWord
  have hfollow : followFlagValue p d.skipWord ctx' false =
      .ready e.skipBlank (ctx'.bind p.name value) :=
    followFlagValue_eq_ready (hallows _) (fun _ => hblank) rfl hvalue (hb ▸ hparse') hende hbreak'
  rw [suggestFlags_long_flag (by simpa [Cursor.atEnd] using hne) (hword ▸ hspelling) hend htake
    hvalued hfollow, suggestLater_of_atEnd hnil] at hsuggests
  exact of_flags rfl hnext
    (hends'.of_reaches (hreached'.trans (Cursor.skipBlank_reached e))) hpending' hsuggests

/-- At the end of its line completion offers the flag that comes next. -/
theorem mem_suggestions (hnamed : p.isNamed = true) (hturn : .flag ∈ t.turns v)
    (hbefore : v.cursor.rest = tail)
    (h : c.Abreast t.settings tail suggestions v (.parameter p :: ahead)) :
    t.settings.longPrefix ++ p.longName ∈ suggestions ∨
      ∃ ch, p.shorthand? = some ch ∧ t.settings.shortPrefix ++ ch.toString ∈ suggestions := by
  obtain ⟨d, ctx', flags, left, hcursor, _, hpending, rfl, hplace⟩ := h.exists_flags hnamed
  obtain ⟨_, short, rfl⟩ := hplace.resolve_right fun hwithin => by
    rw [Tree.bundled_of_flag_mem_turns hturn] at hwithin
    cases hwithin.1
  have hend : d.atEnd = true := by
    rw [hcursor, Cursor.rest_followedBy] at hbefore
    simpa [Cursor.atEnd] using hbefore
  have hp := hpending.subset List.mem_cons_self
  rw [suggestFlags_of_atEnd hend, flagSpellings]
  cases hch : p.shorthand? with
  | none => exact .inl (List.mem_map.mpr ⟨p, hp, by rw [hch]⟩)
  | some ch =>
    cases short with
    | false => exact .inl (List.mem_map.mpr ⟨p, hp, by rw [hch]⟩)
    | true => exact .inr ⟨ch, rfl, List.mem_map.mpr ⟨p, hp, by rw [hch]⟩⟩

/-! ## Walks -/

/-- Completion stays abreast of a move past a word, an argument or a switch. -/
theorem step (m : Tree.Chart (· = c) t) (hc : c.Built) (hopen : c.Open)
    (hbuiltin : ∀ p ∈ c.parameters, ∃ b : BuiltinType, p.type = b.toValueType)
    (htail : StartsWord tail) {given : Option (Given α)} (hi : v.node < t.nodes.size)
    (hturn : turn ∈ t.turns v) (hmove : t.Moves v turn given w)
    (hplain : ∀ g ∈ given, g.parameter.isNamed = true → g.parameter.isSwitch = true)
    {front : List Char} (hbefore : w.cursor.rest = front ++ tail)
    (h : c.Abreast t.settings tail suggestions v (v.passed given :: ahead)) :
    c.Abreast t.settings tail suggestions w ahead := by
  have hrest : tail.length < v.left := by
    have hlt := Tree.left_lt_of_attempt hturn (Tree.attempt_eq_enter_iff.mpr ⟨given, hmove⟩)
    rw [Visit.left, hbefore, List.length_append] at hlt
    omega
  cases hmove with
  | literal => exact literal hc.sound htail hrest h
  | argument _ hparse hbreak =>
    have hchild := Tree.mem_argumentsOf_of_mem_turns hturn
    obtain ⟨_, rfl, hp⟩ := m.exists_command_of_edge hi (.of_argument hchild)
    obtain ⟨b, hb⟩ := hbuiltin _ hp
    exact argument hc.sound htail hb (m.leads_of_mem_argumentsOf hi hchild).1
      (hopen.parameter _ hp) hparse hbreak hbefore h
  | switch hspells hswitch _ hbreak =>
    exact (switch hc htail hturn hrest hspells hswitch h).1 rfl hbreak
  | bundle hspells hswitch => exact (switch hc htail hturn hrest hspells hswitch h).2 rfl
  -- Only switches are walked between the steps meant here, so no flag takes a value.
  | value hspells hvalued =>
    have hnamed := (m.leads_of_mem_flagsOf hi hspells.mem_flagsOf).1
    rw [hplain _ rfl hnamed] at hvalued
    cases hvalued

/-- And of a walk past words, arguments and switches. -/
theorem walks (m : Tree.Chart (· = c) t) (hc : c.Built) (hopen : c.Open)
    (hbuiltin : ∀ p ∈ c.parameters, ∃ b : BuiltinType, p.type = b.toValueType)
    (htail : StartsWord tail) {steps : List (Step α)} {front : List Char}
    (hwalks : t.Walks v steps u) (hi : v.node < t.nodes.size)
    (hplain : ∀ p, .parameter p ∈ steps → p.isNamed = true → p.isSwitch = true)
    (hbefore : u.cursor.rest = front ++ tail)
    (h : c.Abreast t.settings tail suggestions v (steps ++ ahead)) :
    c.Abreast t.settings tail suggestions u ahead := by
  induction hwalks with
  | refl v => exact h
  | @step v w u turn given steps hturn hmove hwalks ih =>
    obtain ⟨taken, htaken, _⟩ := hwalks.reached
    rw [hbefore, ← List.append_assoc] at htaken
    refine ih (m.leads_of_edge hi (hmove.edge hturn)).lt
      (fun p hp => hplain p (List.mem_cons_of_mem _ hp)) hbefore ?_
    refine h.step m hc hopen hbuiltin htail hi hturn hmove ?_ htaken
    rintro g hg
    obtain rfl := Option.mem_def.mp hg
    exact hplain g.parameter List.mem_cons_self

end Command.Abreast

end CommandLine
