import CommandLine.Proofs.Search.Onward

/-!
# What a reading leaves to be offered

Completion of a line and a reading of the same line walk side by side. What completion offers when
it stands where a visit of the reading is (`Suggests`), it also offers at the next visit, with the
flag that was passed used up (`Suggests.step`). A flag with a value is passed like a switch, except
that behind it completion goes on only if the line ends there. So where a reading ends with the line
all that is offered is spellings of flags that it did not pass.

* `Walks.exists_of_offers`, `Walks.exists_of_mem_suggestSteps` — every suggestion spells a flag that
  the reading did not pass.
-/

set_option autoImplicit false

namespace CommandLine

open Text

variable {α σ : Type}

/-- A text spells a flag, under its long name or by its shorthand. -/
def Parameter.SpelledBy (p : Parameter α) (s : Settings) (text : String) : Prop :=
  text = s.longPrefix ++ p.longName ∨
    ∃ ch, p.shorthand? = some ch ∧ text = s.shortPrefix ++ ch.toString

theorem exists_of_mem_flagSpellings {s : Settings} {flags : List (Parameter α)} {short : Bool}
    {x : String} (h : x ∈ flagSpellings s flags short) : ∃ p ∈ flags, p.SpelledBy s x := by
  obtain ⟨p, hp, hx⟩ := List.mem_map.mp h
  refine ⟨p, hp, ?_⟩
  split at hx
  · rename_i ch hch
    exact .inr ⟨ch, hch, hx.symm⟩
  · exact .inl hx.symm

/-- The flags that completion still has are some of the command's, none of them twice, and those
that a reading is still to pass are among them. -/
structure Command.Remaining (c : Command α σ) (ahead left : List (Parameter α)) : Prop
    extends c.Pending ahead left where
  left_nodup : left.Nodup

/-- The flag that is passed is no longer there. -/
theorem Command.Remaining.exists_takeOut? {c : Command α σ} {p : Parameter α}
    {ahead left : List (Parameter α)} (h : c.Remaining (p :: ahead) left)
    {key : Parameter α → Bool} (hkey : key p = true)
    (hunique : ∀ q ∈ c.flags, key q = true → q = p) :
    ∃ left', takeOut? key left = some (p, left') ∧ c.Remaining ahead left' ∧ left' ⊆ left ∧
      p ∉ left' := by
  obtain ⟨left', htake, hperm⟩ := CommandLine.exists_takeOut? (h.subset List.mem_cons_self) hkey
    fun q hq => hunique q (h.left_subset hq)
  obtain ⟨left'', htake', hpending⟩ := h.toPending.exists_takeOut? hkey hunique
  obtain rfl := (Prod.mk.inj (Option.some.inj (htake.symm.trans htake'))).2
  obtain ⟨hnew, hnodup⟩ := List.nodup_cons.mp (hperm.nodup_iff.mpr h.left_nodup)
  exact ⟨left', htake, ⟨hpending, hnodup⟩,
    fun q hq => hperm.subset (List.mem_cons_of_mem p hq), hnew⟩

/-- Completion offers a text where it stands at the place of a visit, with some flags left. -/
inductive Tree.Suggests (s : Settings) (v : Visit α) (left : List (Parameter α)) (x : String) : Prop
  | between {ctx : Context α} {short : Bool} :
      v.bundled = false → x ∈ suggestFlags s left v.cursor ctx short → Suggests s v left x
  | within {ctx : Context α} {bundle : List Char} :
      v.bundled = true → x ∈ suggestBundle s bundle left v.cursor ctx → Suggests s v left x

namespace Tree

variable {t : Tree α σ} {v w u : Visit α} {turn : Turn α} {c : Command α σ} {p : Parameter α}
  {child : NodeIndex} {d e after : Cursor} {attached : Bool} {ctx : Context α} {value : Value}
  {ahead left : List (Parameter α)} {x : String}

/-- At the end of the line the flags are offered that are left. -/
theorem exists_of_offers_atEnd {s : Settings} (h : Suggests s v left x) (hv : v.bundled = false)
    (hend : v.cursor.atEnd = true) : ∃ p ∈ left, p.SpelledBy s x := by
  cases h with
  | between _ hx =>
    rw [suggestFlags_of_atEnd hend] at hx
    exact exists_of_mem_flagSpellings hx
  | within hbundled =>
    rw [hv] at hbundled
    cases hbundled

/-- What completion makes of the name of the flag that a reading passes: under a long name it goes
on behind it, and a shorthand it takes out of the bundle that it is in. -/
theorem Spells.offers (hspells : t.Spells v turn child p e attached) (hc : c.Built)
    (hturn : turn ∈ t.turns v) (hends : v.cursor.EndsBlank) (hne : v.cursor.rest ≠ [])
    (hword : v.bundled = true → v.cursor.atBreak = false) (hleft : c.Remaining (p :: ahead) left)
    (h : Suggests t.settings v left x) :
    ∃ left', c.Remaining ahead left' ∧ left' ⊆ left ∧ p ∉ left' ∧
      ((attached = false ∧ e.atBlank = true ∧ ∃ ctx,
        x ∈ if p.isSwitch then suggestLater t.settings left' e (ctx.bind p.name (.truth true)) false
          else match followFlagValue p e ctx false with
            | .halted suggestions => suggestions
            | .ready d ctx => suggestLater t.settings left' d ctx false) ∨
      ∃ (d : Cursor) (ch : Char) (rest : List Char) (bundle : List Char) (ctx : Context α),
        e = d.advance 1 ∧ attached = !e.atBreak ∧ d.EndsBlank ∧ d.rest = ch :: rest ∧
          isBlank ch = false ∧
          takeOut? (fun q => q.shorthand? = some ch) left = some (p, left') ∧
          x ∈ suggestBundle t.settings bundle left d ctx) := by
  have hstart : v.cursor.atEnd = false := by simpa [Cursor.atEnd] using hne
  have hp := hleft.left_subset (hleft.subset List.mem_cons_self)
  have hshort {ch : Char} (hch : p.shorthand? = some ch) :
      ∃ left', takeOut? (fun q => q.shorthand? = some ch) left = some (p, left') ∧
        c.Remaining ahead left' ∧ left' ⊆ left ∧ p ∉ left' :=
    hleft.exists_takeOut? (by simpa using hch) fun q hq hshort =>
      hc.eq_of_shorthand?_eq hq hp (by simpa using hshort) hch
  have hblank {d : Cursor} {ch : Char} {rest : List Char} (hrest : d.rest = ch :: rest)
      (hmid : d.atBreak = false) : isBlank ch = false := by
    simpa [Cursor.atBreak, Cursor.atEnd, Cursor.atBlank, hrest] using hmid
  -- The flag was named by its long name, by the first shorthand of a bundle or by a later one. In
  -- each case the suggestions take the same flag out of those that are left.
  cases hspells with
  | @long name _ _ hspelling hchild =>
    obtain rfl := (of_flagNamed?_eq_some hchild).2
    have hend : v.cursor.skipWord.atEnd = false := by
      simpa [Cursor.atEnd] using hends.rest_skipWord_ne_nil hne
    obtain ⟨left', htake, hleft', hsub, hnew⟩ :
        ∃ left', takeOut? (fun q => q.longName = p.longName) left = some (p, left') ∧
          c.Remaining ahead left' ∧ left' ⊆ left ∧ p ∉ left' :=
      hleft.exists_takeOut? (by simp) fun q hq hlong =>
        List.inj_on_of_nodup_map hc.sound.longNames_nodup hq hp (by simpa using hlong)
    cases h with
    | within hbundled =>
      rw [bundled_of_flag_mem_turns hturn] at hbundled
      cases hbundled
    | between _ hx =>
      rw [suggestFlags_long hstart hspelling hend htake] at hx
      refine ⟨left', hleft', hsub, hnew, .inl ⟨rfl, ?_, _, hx⟩⟩
      simpa [Cursor.atBreak, hend] using v.cursor.atBreak_skipWord
  | @short ch rest _ _ d hspelling hd hrest hchild =>
    obtain ⟨left', htake, hleft', hsub, hnew⟩ := hshort (shorthand?_of_flagShort? hchild)
    obtain ⟨_, hmid⟩ := Settings.atBreak_advance_shortPrefix hspelling
    rw [← hd] at hmid
    cases h with
    | within hbundled =>
      rw [bundled_of_flag_mem_turns hturn] at hbundled
      cases hbundled
    | @between ctx short _ hx =>
      obtain ⟨bundle, hbundle⟩ :
          ∃ bundle, suggestFlags t.settings left v.cursor ctx short =
            suggestBundle t.settings bundle left
              (v.cursor.advance t.settings.shortPrefix.length) ctx :=
        suggestFlags_short hstart hspelling
      rw [hbundle, ← hd] at hx
      -- What a bundle of its own offers is what the bundle offers that the cursor is in.
      exact ⟨left', hleft', hsub, hnew, .inr ⟨d, ch, rest, bundle, ctx, rfl, rfl,
        hd ▸ hends.of_reaches (Cursor.advance_reached _ _), hrest, hblank hrest hmid, htake, hx⟩⟩
  | @bundled ch rest _ _ hrest hchild =>
    obtain ⟨left', htake, hleft', hsub, hnew⟩ := hshort (shorthand?_of_flagShort? hchild)
    have hbundled := bundled_of_shorthand_mem_turns hturn
    cases h with
    | between hv =>
      rw [hbundled] at hv
      cases hv
    | @within ctx bundle _ hx =>
      exact ⟨left', hleft', hsub, hnew, .inr ⟨v.cursor, ch, rest, bundle, ctx, rfl, rfl, hends,
        hrest, hblank hrest (hword hbundled), htake, hx⟩⟩

/-- A switch that is passed leaves completion at the visit behind it. -/
theorem Spells.offers_switch (hspells : t.Spells v turn child p e attached) (hc : c.Built)
    (hturn : turn ∈ t.turns v) (hends : v.cursor.EndsBlank) (hne : v.cursor.rest ≠ [])
    (hword : v.bundled = true → v.cursor.atBreak = false) (hleft : c.Remaining (p :: ahead) left)
    (hswitch : p.isSwitch = true) (h : Suggests t.settings v left x) :
    ∃ left', c.Remaining ahead left' ∧ left' ⊆ left ∧ p ∉ left' ∧
      (attached = false → Suggests t.settings ⟨child, e.skipBlank, ctx, false⟩ left' x) ∧
      (attached = true → Suggests t.settings ⟨child, e, ctx, true⟩ left' x) := by
  obtain ⟨left', hleft', hsub, hnew, hform⟩ :=
    hspells.offers hc hturn hends hne hword hleft h
  refine ⟨left', hleft', hsub, hnew, ?_⟩
  rcases hform with ⟨rfl, hblank, ctx', hx⟩ |
    ⟨d, ch, rest, bundle, ctx', rfl, rfl, hd, hrest, hch, htake, hx⟩
  · have hbreak : e.atBreak = true := by rw [Cursor.atBreak, hblank, Bool.or_true]
    rw [if_pos hswitch, suggestLater_of_atBreak hbreak] at hx
    exact ⟨fun _ => .between rfl hx, by simp⟩
  · rw [suggestBundle_switch hrest hch htake hswitch] at hx
    have hmid : d.atBreak = false := by
      simp [Cursor.atBreak, Cursor.atEnd, Cursor.atBlank, hrest, hch]
    have hend : (d.advance 1).atEnd = false := by
      simpa [Cursor.atEnd] using hd.rest_advance_one_ne_nil hmid
    constructor
    · intro hattached
      rw [suggestBundle_end (by simpa using hattached) hend] at hx
      exact .between rfl hx
    · exact fun _ => .within rfl hx

/-- So does a flag with its value, if it leaves anything to be offered. -/
theorem Spells.offers_value (hspells : t.Spells v turn child p e attached) (hc : c.Built)
    (hturn : turn ∈ t.turns v) (hends : v.cursor.EndsBlank) (hne : v.cursor.rest ≠ [])
    (hword : v.bundled = true → v.cursor.atBreak = false) (hleft : c.Remaining (p :: ahead) left)
    (hvalued : p.isSwitch = false) (hallows : ∀ principal, p.permission.allows principal = true)
    (hd : d = if attached then e else e.skipBlank) (hstart : d.atEnd = false)
    (hparse : ∀ ctx, p.type.parse ctx d = (.ok value, after)) (hend : after.atEnd = false)
    (hbreak : after.atBreak = true) (h : Suggests t.settings v left x) :
    ∃ left', c.Remaining ahead left' ∧ left' ⊆ left ∧ p ∉ left' ∧
      Suggests t.settings ⟨child, after.skipBlank, ctx, false⟩ left' x := by
  obtain ⟨left', hleft', hsub, hnew, hform⟩ :=
    hspells.offers hc hturn hends hne hword hleft h
  refine ⟨left', hleft', hsub, hnew, ?_⟩
  rcases hform with ⟨rfl, hblank, ctx', hx⟩ |
    ⟨d', ch, rest, bundle, ctx', rfl, rfl, hd', hrest, hch, htake, hx⟩
  · have hfollow := followFlagValue_eq_ready (hallows ctx'.principal) (fun _ => hblank) hd hstart
      (hparse ctx') hend hbreak
    simp only [hvalued, Bool.false_eq_true, if_false, hfollow] at hx
    have hnil := atEnd_of_mem_suggestLater hx
    rw [suggestLater_of_atEnd hnil] at hx
    exact .between rfl hx
  · -- Behind a value in a bundle nothing is offered.
    have hmid : d'.atBreak = false := by
      simp [Cursor.atBreak, Cursor.atEnd, Cursor.atBlank, hrest, hch]
    have hatEnd : (d'.advance 1).atEnd = false := by
      simpa [Cursor.atEnd] using hd'.rest_advance_one_ne_nil hmid
    have hblank : (!(d'.advance 1).atBreak) = false → (d'.advance 1).atBlank = true := by
      simp [Cursor.atBreak, hatEnd]
    have hfollow := followFlagValue_eq_ready (hallows ctx'.principal) hblank hd hstart
      (hparse ctx') hend hbreak
    rw [suggestBundle_flag hrest hch htake hvalued hfollow] at hx
    cases hx

section

variable (m : Chart (· = c) t) (hc : c.Built) (hopen : c.Open)
  (hbuiltin : ∀ p ∈ c.parameters, ∃ b : BuiltinType, p.type = b.toValueType)
include m hc hopen hbuiltin

/-- What completion offers at a visit it offers at the next one, with the flag that is passed used
up. -/
theorem Suggests.step {g : Given α} (hi : v.node < t.nodes.size) (hturn : turn ∈ t.turns v)
    (hmove : t.Moves v turn (some g) w) (hends : v.cursor.EndsBlank)
    (hword : v.bundled = true → v.cursor.atBreak = false)
    (hleft : c.Remaining (g.parameter :: ahead) left)
    (hgreedy : (Step.parameter g.parameter).isGreedy = false)
    (h : Suggests t.settings v left x) :
    ∃ left', c.Remaining ahead left' ∧ left' ⊆ left ∧ g.parameter ∉ left' ∧
      Suggests t.settings w left' x := by
  have hne := hmove.rest_ne_nil hturn
  have hflag := hleft.left_subset (hleft.subset List.mem_cons_self)
  have hp := Command.mem_parameters.mpr (.inr hflag)
  cases hmove with
  | @argument child p =>
    have hplace := (m.leads_of_mem_argumentsOf hi (mem_argumentsOf_of_mem_turns hturn)).1
    have hnamed : p.isNamed = true := hc.sound.named p hflag
    rw [hplace] at hnamed
    cases hnamed
  | switch hspells hswitch _ hbreak =>
    obtain ⟨left', hleft', hsub, hnew, hbetween, _⟩ :=
      hspells.offers_switch hc hturn hends hne hword hleft hswitch h
    exact ⟨left', hleft', hsub, hnew, hbetween rfl⟩
  | bundle hspells hswitch =>
    obtain ⟨left', hleft', hsub, hnew, _, hwithin⟩ :=
      hspells.offers_switch hc hturn hends hne hword hleft hswitch h
    exact ⟨left', hleft', hsub, hnew, hwithin rfl⟩
  | @value _ child p e d after attached value hspells hvalued _ hd hstart hparse hbreak =>
    obtain ⟨b, hb⟩ := hbuiltin p hp
    rw [Step.isGreedy_parameter, hvalued, Bool.not_false, Bool.true_and, hb] at hgreedy
    have hparse' (ctx : Context α) : p.type.parse ctx d = (.ok value, after) := by
      rw [hb] at hparse ⊢
      exact hparse
    have hreaches : v.cursor.Reaches d := by
      refine hspells.reached.trans ?_
      rw [hd]
      split
      · -- The value stands in the word of its flag.
        exact .refl e
      · exact Cursor.skipBlank_reached e
    -- The line ends with a blank, and a type that is not greedy stops in front of it.
    have hrest : after.rest ≠ [] := by
      rw [hb] at hparse
      exact (BuiltinType.parse_followedBy hgreedy (hends.of_reaches hreaches) hparse []).1
    exact hspells.offers_value hc hturn hends hne hword hleft hvalued (hopen.parameter p hp) hd
      hstart hparse' (by simpa [Cursor.atEnd] using hrest) hbreak h

/-- Along a walk past flags to the end of the line, all that completion offers is spellings of flags
that the walk does not pass. -/
theorem Walks.exists_of_offers {flags : List (Parameter α)}
    (h : t.Walks v (flags.map .parameter) u) (hi : v.node < t.nodes.size)
    (hends : v.cursor.EndsBlank) (hword : v.bundled = true → v.cursor.atBreak = false)
    (hgreedy : ∀ p ∈ flags, (Step.parameter p).isGreedy = false) (hu : u.bundled = false)
    (hend : u.cursor.atEnd = true) (hleft : c.Remaining flags left)
    (hx : Suggests t.settings v left x) :
    ∃ p ∈ left, p ∉ flags ∧ p.SpelledBy t.settings x := by
  -- As in `Walks.exists_of_mem_suggestSteps`, the list of steps is made a variable for the
  -- induction.
  generalize hsteps : flags.map Step.parameter = steps at h
  induction h generalizing flags left with
  | refl v =>
    obtain rfl : flags = [] := List.map_eq_nil_iff.mp hsteps
    obtain ⟨p, hp, hspelled⟩ := exists_of_offers_atEnd hx hu hend
    exact ⟨p, hp, by simp, hspelled⟩
  | @step v w u turn given steps hturn hmove hwalks ih =>
    obtain ⟨p, flags, rfl, hp, rfl⟩ := List.map_eq_cons_iff.mp hsteps
    obtain ⟨g, rfl, rfl⟩ : ∃ g, given = some g ∧ g.parameter = p := by
      cases given with
      | none => cases hp
      | some g => exact ⟨g, rfl, (Step.parameter.inj hp).symm⟩
    obtain ⟨left', hleft', hsub, hnew, hx'⟩ := hx.step m hc hopen hbuiltin hi hturn hmove hends
      hword hleft (hgreedy _ List.mem_cons_self)
    obtain ⟨q, hq, hpassed, hspelled⟩ := ih (m.leads_of_edge hi (hmove.edge hturn)).lt
      (hends.of_reaches hmove.reached) hmove.atBreak_of_bundled
      (fun q hq => hgreedy q (List.mem_cons_of_mem _ hq)) hu hend hleft' hx' rfl
    refine ⟨q, hsub hq, ?_, hspelled⟩
    rw [List.mem_cons, not_or]
    exact ⟨fun heq => hnew (heq ▸ hq), hpassed⟩

/-- So it is along a walk past words and then flags. -/
theorem Walks.exists_of_mem_suggestSteps {words : List String} {flags : List (Parameter α)}
    (h : t.Walks v (words.map .literal ++ flags.map .parameter) u) (hi : v.node < t.nodes.size)
    (hv : v.bundled = false) (hends : v.cursor.EndsBlank)
    (hgreedy : ∀ p ∈ flags, (Step.parameter p).isGreedy = false) (hu : u.bundled = false)
    (hend : u.cursor.atEnd = true) (hleft : c.Remaining flags left) {short : Bool}
    (hx : x ∈ suggestSteps t.settings (words.map .literal) left v.cursor ctx short) :
    ∃ p ∈ left, p ∉ flags ∧ p.SpelledBy t.settings x := by
  induction words generalizing v with
  | nil =>
    exact Walks.exists_of_offers m hc hopen hbuiltin h hi hends (by simp [hv]) hgreedy hu hend hleft
      (.between hv hx)
  | cons word words ih =>
    have hword := h.word_eq
    generalize hsteps : (word :: words).map Step.literal ++ flags.map Step.parameter = steps at h
    cases h with
    | refl => cases hsteps
    | @step _ w _ turn given steps hturn hmove hwalks =>
      obtain ⟨hpassed, rfl⟩ := List.cons.inj hsteps
      cases given with
      | some g => cases hpassed
      | none =>
        have hne := hmove.rest_ne_nil hturn
        have hlt := (m.leads_of_edge hi (hmove.edge hturn)).lt
        have hreached := hmove.reached
        cases hmove with
        | literal =>
          rw [List.map_cons, suggestSteps, followSteps_literal hword
            (by simpa [Cursor.atEnd] using hends.rest_skipWord_ne_nil hne)] at hx
          exact ih hwalks hlt rfl (hends.of_reaches hreached) hx

end

end Tree

end CommandLine
