import CommandLine.Proofs.LiteralCompletion
import CommandLine.Proofs.Search.Respaced
import CommandLine.Proofs.SuggestionsTaken

/-!
# Names of later flags

Where a line has given some flags and goes on with the long prefix and a part of a name, completion
offers the names of the other flags that start with the part. It does so behind switches. Behind a
flag with a value it offers nothing, since it looks for a blank between the value and the next word
where it has skipped the blanks already.

* `GivesLong.of_words` — a line that gives its flags by their long names;
* `Walks.followSteps_eq`, `Walks.suggestFlags_eq` — completion along the words and the flags of a
  line that goes on with a word;
* `flag_names_completed` — what it offers for a part of a name.
-/

set_option autoImplicit false

namespace CommandLine

open Text

variable {α σ : Type}

/-- The only element that satisfies `p` is taken out of a list, and the others stay in order. -/
theorem takeOut?_eq_filter {β : Type} {p : β → Bool} {xs : List β} {x : β} (hx : x ∈ xs)
    (hp : p x = true) (hnodup : xs.Nodup) (hunique : ∀ y ∈ xs, p y = true → y = x) :
    takeOut? p xs = some (x, xs.filter fun y => !p y) := by
  induction xs with
  | nil => cases hx
  | cons y xs ih =>
    obtain ⟨hnew, hnodup⟩ := List.nodup_cons.mp hnodup
    unfold takeOut?
    by_cases hy : p y = true
    · obtain rfl := hunique y List.mem_cons_self hy
      have hothers : xs.filter (fun z => !p z) = xs := by
        refine List.filter_eq_self.mpr fun z hz => ?_
        rw [Bool.not_eq_true', ← Bool.not_eq_true]
        exact fun hpz => hnew (hunique z (List.mem_cons_of_mem y hz) hpz ▸ hz)
      rw [if_pos hy, List.filter_cons_of_neg (by simp [hy]), hothers]
    · have hne : x ≠ y := by
        rintro rfl
        exact hy hp
      rw [if_neg hy, ih ((List.mem_cons.mp hx).resolve_left hne) hnodup fun z hz =>
        hunique z (List.mem_cons_of_mem y hz), List.filter_cons_of_pos (by simp [hy])]
      rfl

/-- Nothing is left out of a list without repetition. -/
theorem firstOccurrences_of_nodup {xs : List String} (h : xs.Nodup) : firstOccurrences xs = xs := by
  rw [firstOccurrences_eq_eraseDups]
  induction xs with
  | nil => rfl
  | cons x xs ih =>
    obtain ⟨hnew, hnodup⟩ := List.nodup_cons.mp h
    have hothers : xs.filter (fun y => !y == x) = xs := by
      refine List.filter_eq_self.mpr fun y hy => ?_
      simpa using ne_of_mem_of_not_mem hy hnew
    rw [List.eraseDups_cons, hothers, ih hnodup]

/-- The start of a longer line. -/
theorem Cursor.ofString_append (line text : String) :
    Cursor.ofString (line ++ text) = (Cursor.ofString line).followedBy text.toList := by
  simp [ofString, followedBy]

/-- At the end of the line the part of a long name is completed. -/
theorem suggestFlags_part {s : Settings} {flags : List (Parameter α)} {c : Cursor}
    {ctx : Context α} {short : Bool} {q : String} (hlong : s.longPrefix ≠ "")
    (hword : ∀ ch ∈ (s.longPrefix ++ q).toList, isBlank ch = false)
    (hrest : c.rest = (s.longPrefix ++ q).toList) :
    suggestFlags s flags c ctx short = longSpellings s flags q := by
  obtain ⟨hpart, hend⟩ := Cursor.of_part hword hrest
  have hstart : c.atEnd = false := by simp [Cursor.atEnd, hrest, hlong]
  have hname : s.longPrefix.toList.isPrefixOf? (s.longPrefix ++ q).toList = some q.toList := by
    rw [String.toList_append]
    exact List.isPrefixOf?_eq_some_iff_append_eq.mpr rfl
  rw [suggestFlags, if_neg (by simp [hstart]), hpart, hname]
  simp only [hend, if_true, String.ofList_toList]

/-- A flag's value that is read behind a blank is read there too if the line goes on with a word. -/
theorem followFlagValue_followedBy {p : Parameter α} {b : BuiltinType} {d after : Cursor}
    {value : Value} {ctx : Context α} {tail : List Char} (hb : p.type = b.toValueType)
    (hgreedy : b.traits.greedy = false) (hallows : p.permission.allows ctx.principal = true)
    (hends : d.EndsBlank) (hblank : (d.followedBy tail).atBlank = true) (htail : StartsWord tail)
    (hstart : d.skipBlank.atEnd = false) (hparse : b.parse d.skipBlank = (.ok value, after))
    (hbreak : after.atBreak = true) : followFlagValue p (d.followedBy tail) ctx false =
      .ready (after.skipBlank.followedBy tail) (ctx.bind p.name value) := by
  have hskip : (d.followedBy tail).skipBlank = d.skipBlank.followedBy tail :=
    Cursor.skipBlank_followedBy htail
  obtain ⟨hrest, hparse'⟩ := BuiltinType.parse_followedBy hgreedy
    (hends.of_reaches (Cursor.skipBlank_reached d)) hparse tail
  have hstart' : (d.skipBlank.followedBy tail).atEnd = false := by
    have hne : d.skipBlank.rest ≠ [] := by simpa [Cursor.atEnd] using hstart
    simp [Cursor.atEnd, hne]
  have htype : p.type.parse ctx (d.skipBlank.followedBy tail) =
      (.ok value, after.followedBy tail) := hb ▸ hparse'
  rw [followFlagValue_eq_ready hallows (fun _ => hblank) hskip.symm hstart' htype
    (by simp [Cursor.atEnd, hrest]) ((Cursor.atBreak_followedBy hrest).trans hbreak),
    Cursor.skipBlank_followedBy htail]

/-- Names that start with a part, of which none is the whole, are offered. -/
theorem longSpellings_of_ne {s : Settings} {flags : List (Parameter α)} {q : String}
    (h : ∀ p ∈ flags, p.longName ≠ q) : longSpellings s flags q =
      (flags.filter fun p => startsWithIgnoringCase p.longName q).map
        (s.longPrefix ++ ·.longName) := by
  rw [longSpellings, if_neg]
  simpa using h

/-- Flags with different names have different spellings. -/
theorem nodup_map_longPrefix {s : Settings} {flags : List (Parameter α)}
    (h : (flags.map Parameter.longName).Nodup) :
    (flags.map (s.longPrefix ++ ·.longName)).Nodup := by
  have hinj : Function.Injective (s.longPrefix ++ ·) := fun _ _ => by simp
  simpa only [List.map_map, Function.comp_def] using h.map hinj

namespace Tree

/-- Every flag that an accepted reading from a visit gives goes by its long name. -/
def GivesLong (t : Tree α σ) (v : Visit α) : Prop :=
  ∀ {before later : List (Given α)} {u w : Visit α} {g : Given α} {a : Arrival α σ},
    t.Reads v before u → .flag ∈ t.turns u → t.Moves u .flag (some g) w → t.Accepts w later a →
      ∃ name, t.settings.flagSpelling? u.cursor.word = some (.long name)

variable {t : Tree α σ} {v w u : Visit α} {turn : Turn α} {c : Command α σ} {g : Given α}
  {ctx : Context α} {tail : List Char}

theorem GivesLong.of_walks {steps : List (Step α)} (h : t.GivesLong v)
    (hwalks : t.Walks v steps w) : t.GivesLong w := by
  obtain ⟨_, hreads, -⟩ := hwalks.exists_reads
  exact fun hreads' => h (hreads.append hreads')

/-- Between two words a reading has words of the line in front of it. -/
theorem Reads.words_subset {given : List (Given α)} (h : t.Reads v given u)
    (hu : u.bundled = false) : u.cursor.words ⊆ v.cursor.words := by
  have hend : u = v ∨ ∃ e, v.cursor.Reaches e ∧ e.atBreak = true ∧ u.cursor = e.skipBlank := by
    induction h with
    | refl v => exact .inl rfl
    | @step v w u turn given later hturn hmove _ ih =>
      rcases ih hu with rfl | ⟨e, he, hbreak, hcursor⟩
      · obtain ⟨e, he, hend⟩ := hmove.exists_end
        rw [hu, if_neg Bool.false_ne_true] at hend
        exact .inr ⟨e, he, hend⟩
      · exact .inr ⟨e, hmove.reached.trans he, hbreak, hcursor⟩
  rcases hend with rfl | ⟨e, he, hbreak, hcursor⟩
  · exact List.Subset.refl _
  · rw [hcursor, Cursor.words_skipBlank]
    exact he.words_subset hbreak

/-- A line without a word that spells a bundle gives its flags by their long names. -/
theorem GivesLong.of_words {principal : α} {line : String}
    (h : ∀ word ∈ Text.words line.toList, t.settings.flagSpelling? (.ofList word) ≠ some .short) :
    t.GivesLong (start principal line) := by
  intro before later u w g a hreads hturn hmove _
  have hu := bundled_of_flag_mem_turns hturn
  obtain ⟨_, _, _, hspells⟩ := hmove.exists_spells
  cases hspells with
  | long hspelling => exact ⟨_, hspelling⟩
  | short hspelling =>
    have hstart := Cursor.words_skipBlank (.ofString line)
    have hwords := Cursor.words_eq_cons (Settings.atBreak_eq_false_of_flagSpelling? hspelling)
    have hmem := hreads.words_subset hu (hwords ▸ List.mem_cons_self)
    rw [show (start principal line).cursor.words = _ from hstart] at hmem
    exact (h _ hmem (by rwa [String.ofList_toList])).elim

/-- Completion follows a walk past words where the line goes on with a word. -/
theorem Walks.followSteps_eq {words : List String} (h : t.Walks v (words.map .literal) w)
    (hv : v.bundled = false) (hends : v.cursor.EndsBlank) (htail : StartsWord tail) :
    w.bundled = false ∧ followSteps (v.cursor.followedBy tail) ctx (words.map .literal) =
      .ready (w.cursor.followedBy tail) ctx := by
  induction words generalizing v with
  | nil =>
    obtain rfl := h.eq_of_nil
    exact ⟨hv, rfl⟩
  | cons word words ih =>
    have hword := h.word_eq
    -- The walk's index is a mapped list, which has to be a variable before the walk is taken apart.
    generalize hsteps : (word :: words).map Step.literal = steps at h
    cases h with
    | refl => cases hsteps
    | @step _ w' _ turn given steps hturn hmove hwalks =>
      obtain ⟨hpassed, rfl⟩ := List.cons.inj hsteps
      cases given with
      | some g => cases hpassed
      | none =>
        have hne := hmove.rest_ne_nil hturn
        have hreached := hmove.reached
        cases hmove with
        | literal =>
          have hskip : (v.cursor.followedBy tail).skipWord = v.cursor.skipWord.followedBy tail :=
            hends.skipWord_followedBy hne
          have hend : (v.cursor.followedBy tail).skipWord.atEnd = false := by
            rw [hskip]
            simp [Cursor.atEnd, hends.rest_skipWord_ne_nil hne]
          obtain ⟨hbundled, hready⟩ := ih hwalks rfl (hends.of_reaches hreached)
          refine ⟨hbundled, ?_⟩
          rw [← hpassed, followSteps_literal ((hends.word_followedBy hne).trans hword) hend,
            hskip, Cursor.skipBlank_followedBy htail, hready]

/-- Between two words a flag is spelled on its own turn. -/
theorem Spells.turn_eq_flag {child : NodeIndex} {p : Parameter α} {e : Cursor} {attached : Bool}
    (h : t.Spells v turn child p e attached) (hturn : turn ∈ t.turns v) (hv : v.bundled = false) :
    turn = .flag := by
  cases h with
  | long | short => rfl
  | bundled =>
    rw [bundled_of_shorthand_mem_turns hturn] at hv
    cases hv

/-- A long name is the flag's, and its word ends behind it. -/
theorem Spells.of_long {child : NodeIndex} {p : Parameter α} {e : Cursor} {attached : Bool}
    {name : String} (h : t.Spells v .flag child p e attached)
    (hlong : t.settings.flagSpelling? v.cursor.word = some (.long name)) :
    attached = false ∧ e = v.cursor.skipWord ∧
      t.settings.flagSpelling? v.cursor.word = some (.long p.longName) := by
  cases h with
  | short hshort =>
    rw [hshort] at hlong
    cases hlong
  | long hspelling hchild =>
    obtain rfl := (of_flagNamed?_eq_some hchild).2
    exact ⟨rfl, rfl, hspelling⟩

/-- Between two words a parameter that is no argument is passed on a flag's turn. -/
theorem Moves.turn_eq_flag {known : Command α σ → Prop} (h : t.Moves v turn (some g) w)
    (m : Chart known t) (hi : v.node < t.nodes.size) (hturn : turn ∈ t.turns v)
    (hv : v.bundled = false) (hnamed : g.parameter.isNamed = true) : turn = .flag := by
  cases h with
  | argument =>
    have hplace := (m.leads_of_mem_argumentsOf hi (mem_argumentsOf_of_mem_turns hturn)).1
    rw [hnamed] at hplace
    cases hplace
  | switch hspells | bundle hspells | value hspells => exact hspells.turn_eq_flag hturn hv

section

variable (hopen : c.Open)
  (hbuiltin : ∀ p ∈ c.parameters, ∃ b : BuiltinType, p.type = b.toValueType)
  {left : List (Parameter α)} (hleft : left ⊆ c.flags)
  (hnodup : (left.map Parameter.longName).Nodup)
  (htail : StartsWord tail) (hends : v.cursor.EndsBlank)
include hopen hbuiltin hleft hnodup htail hends

/-- Completion passes a switch under its long name where the line goes on with a word. A flag with a
value it does not. -/
theorem Moves.suggestFlags_eq (h : t.Moves v .flag (some g) w) (hturn : .flag ∈ t.turns v)
    (hlong : ∃ name, t.settings.flagSpelling? v.cursor.word = some (.long name))
    (hgreedy : (Step.parameter g.parameter).isGreedy = false) (hg : g.parameter ∈ left)
    {short : Bool} : w.bundled = false ∧ ∃ ctx',
      suggestFlags t.settings left (v.cursor.followedBy tail) ctx short =
        if g.parameter.isSwitch then
          suggestFlags t.settings (left.filter fun q => !(q.longName = g.parameter.longName))
            (w.cursor.followedBy tail) ctx' false
        else [] := by
  obtain ⟨name, hlong⟩ := hlong
  have hne := h.rest_ne_nil hturn
  have hskip : (v.cursor.followedBy tail).skipWord = v.cursor.skipWord.followedBy tail :=
    hends.skipWord_followedBy hne
  have hstart : (v.cursor.followedBy tail).atEnd = false := by simp [Cursor.atEnd, hne]
  have hend : (v.cursor.followedBy tail).skipWord.atEnd = false := by
    rw [hskip]
    simp [Cursor.atEnd, hends.rest_skipWord_ne_nil hne]
  have hword : (v.cursor.followedBy tail).word = v.cursor.word := hends.word_followedBy hne
  have htake := takeOut?_eq_filter (p := fun q => q.longName = g.parameter.longName) hg (by simp)
    hnodup.of_map fun q hq hname =>
      List.inj_on_of_nodup_map hnodup hq hg (by simpa using hname)
  cases h with
  | @switch _ child p e hspells hswitch =>
    obtain ⟨-, rfl, hspelling⟩ := hspells.of_long hlong
    refine ⟨rfl, ctx.bind p.name (.truth true), ?_⟩
    rw [if_pos hswitch, suggestFlags_long_switch hstart (hword ▸ hspelling) hend htake hswitch,
      hskip, Cursor.skipBlank_followedBy htail]
  | bundle hspells => cases (hspells.of_long hlong).1
  | @value _ child p e d after attached value hspells hvalued _ hd hstart' hparse hbreak =>
    obtain ⟨rfl, rfl, hspelling⟩ := hspells.of_long hlong
    have hp := Command.mem_parameters.mpr (.inr (hleft hg))
    obtain ⟨b, hb⟩ := hbuiltin p hp
    have hvalued' : p.isSwitch = false := hvalued
    rw [Step.isGreedy_parameter, hvalued', Bool.not_false, Bool.true_and, hb] at hgreedy
    rw [if_neg Bool.false_ne_true] at hd
    subst hd
    rw [hb] at hparse
    have hblank : (v.cursor.skipWord.followedBy tail).atBlank = true := by
      have hbreak' := (v.cursor.followedBy tail).atBreak_skipWord
      rw [← hskip]
      simpa [Cursor.atBreak, hend] using hbreak'
    have hfollow := followFlagValue_followedBy hb hgreedy (hopen.parameter p hp ctx.principal)
      (hends.of_reaches (Cursor.skipWord_reached _)) hblank htail hstart' hparse hbreak
    rw [← hskip] at hfollow
    -- The blanks behind the value are skipped, and no word may end in front of the tail.
    refine ⟨rfl, ctx, ?_⟩
    rw [suggestFlags_long_flag hstart (hword ▸ hspelling) hend htake hvalued hfollow, suggestLater]
    have hmid : (after.skipBlank.followedBy tail).atBreak = false := by
      rw [← Cursor.skipBlank_followedBy htail, Cursor.atBreak_skipBlank,
        Cursor.skipBlank_followedBy htail]
      simp [Cursor.atEnd, htail.ne_nil]
    simp [hmid, hvalued']

/-- So along a walk past flags under their long names to the end of a line, completion takes them
out of those that it has, and completes the part of a name that follows, unless one of them has a
value. -/
theorem Walks.suggestFlags_eq (m : Chart (· = c) t) (hs : c.Sound) {flags : List (Parameter α)}
    (h : t.Walks v (flags.map .parameter) u) (hi : v.node < t.nodes.size)
    (hv : v.bundled = false) (hlong : t.GivesLong v) (hu : u.bundled = false)
    (hend : u.cursor.atEnd = true) (hcommand : (t.node u.node).command = some c)
    (hflags : flags ⊆ left) (hnodup' : (flags.map Parameter.longName).Nodup)
    (hgreedy : ∀ p ∈ flags, (Step.parameter p).isGreedy = false) {q : String}
    (hlead : t.settings.longPrefix ≠ "") (htailed : tail = (t.settings.longPrefix ++ q).toList)
    (hword : ∀ ch ∈ tail, isBlank ch = false) {short : Bool} :
    suggestFlags t.settings left (v.cursor.followedBy tail) ctx short =
      if flags.all (·.isSwitch) then
        longSpellings t.settings
          (left.filter fun p => !(flags.map Parameter.longName).contains p.longName) q
      else [] := by
  induction flags generalizing v left ctx short with
  | nil =>
    obtain rfl := h.eq_of_nil
    have hnil : v.cursor.rest = [] := List.isEmpty_iff.mp hend
    have hrest : (v.cursor.followedBy tail).rest = (t.settings.longPrefix ++ q).toList := by
      rw [Cursor.rest_followedBy, hnil, List.nil_append, htailed]
    rw [suggestFlags_part hlead (htailed ▸ hword) hrest]
    simp
  | cons p flags ih =>
    generalize hsteps : (p :: flags).map Step.parameter = steps at h
    cases h with
    | refl => cases hsteps
    | @step _ w _ turn given steps hturn hmove hwalks =>
      obtain ⟨hpassed, rfl⟩ := List.cons.inj hsteps
      obtain ⟨g, rfl, rfl⟩ : ∃ g, given = some g ∧ g.parameter = p := by
        cases given with
        | none => cases hpassed
        | some g => exact ⟨g, rfl, (Step.parameter.inj hpassed).symm⟩
      have hg := hflags List.mem_cons_self
      obtain rfl := hmove.turn_eq_flag m hi hturn hv (hs.named _ (hleft hg))
      obtain ⟨hnew, hnodup''⟩ := List.nodup_cons.mp hnodup'
      -- The reading that goes on from here to the end is accepted.
      obtain ⟨later, hlater, -⟩ := hwalks.exists_reads
      have haccepts : t.Accepts w later ⟨c, u.cursor, u.context⟩ :=
        ⟨⟨u, hlater, hu, hend, hcommand, rfl⟩, hopen.command _⟩
      have hspelled := hlong (.refl v) hturn hmove haccepts
      obtain ⟨hw, ctx', hsuggests⟩ : w.bundled = false ∧ ∃ ctx',
          suggestFlags t.settings left (v.cursor.followedBy tail) ctx short = _ :=
        hmove.suggestFlags_eq hopen hbuiltin hleft hnodup htail hends hturn hspelled
          (hgreedy _ List.mem_cons_self) hg
      rw [hsuggests]
      by_cases hswitch : g.parameter.isSwitch = true
      · have hothers : flags ⊆ left.filter fun q => !(q.longName = g.parameter.longName) := by
          intro q hq
          have hne : q.longName ≠ g.parameter.longName := fun hname =>
            hnew (hname ▸ List.mem_map_of_mem hq)
          exact List.mem_filter.mpr ⟨hflags (List.mem_cons_of_mem _ hq), by simp [hne]⟩
        have hleft' : (left.filter fun q => !(q.longName = g.parameter.longName)) ⊆ c.flags :=
          fun q hq => hleft (List.mem_filter.mp hq).1
        have hothers_nodup : ((left.filter fun q =>
            !(q.longName = g.parameter.longName)).map Parameter.longName).Nodup :=
          hnodup.sublist (List.filter_sublist.map _)
        rw [if_pos hswitch, ih hleft' hothers_nodup (hends.of_reaches hmove.reached) hwalks
          (m.leads_of_edge hi (hmove.edge hturn)).lt hw
          (hlong.of_walks (.step hturn hmove (.refl w))) hothers hnodup''
          fun q hq => hgreedy q (List.mem_cons_of_mem _ hq), List.filter_filter]
        simp [hswitch, Bool.and_comm]
      · simp [hswitch]

end

/-- On a line that starts with its name, the only command of a tree is completed. -/
theorem Sole.complete_eq (h : t.Sole c) {principal : α} {line : String}
    (hname : (Cursor.ofString line).word = c.name) :
    t.complete principal line = firstOccurrences (c.complete t.settings principal line) := by
  obtain ⟨hc, -⟩ := h.exists_chart
  have hne : line ≠ "" := by
    rintro rfl
    exact hc.name_ne_empty hname.symm
  have hpart : c.completable principal c.name = true := by
    simp [Command.completable, h.listed, startsWithIgnoringCase_self, h.opened.command principal]
  rw [complete, if_neg hne, h.commands_eq, hname]
  simp [hpart]

/-- Completion along the words and the flags of a command, on a line that goes on with a part of a
name. -/
theorem Walks.complete_eq (m : Chart (· = c) t) (hs : c.Sound) (hopen : c.Open)
    (hbuiltin : ∀ p ∈ c.parameters, ∃ b : BuiltinType, p.type = b.toValueType)
    (hplain : ∀ p, .parameter p ∉ c.path) {principal : α} {line q : String}
    (htyped : StartsWord line.toList) (hends : (Cursor.ofString line).EndsBlank)
    {flags : List (Parameter α)} (h : t.Walks (start principal line)
      (c.positionals ++ flags.map .parameter) u) (hlong : t.GivesLong (start principal line))
    (hu : u.bundled = false) (hend : u.cursor.atEnd = true)
    (hcommand : (t.node u.node).command = some c) (hflags : flags ⊆ c.flags)
    (hnodup : (flags.map Parameter.longName).Nodup)
    (hgreedy : ∀ p ∈ flags, (Step.parameter p).isGreedy = false)
    (hlead : t.settings.longPrefix ≠ "")
    (hword : ∀ ch ∈ (t.settings.longPrefix ++ q).toList, isBlank ch = false) :
    c.complete t.settings principal (line ++ (t.settings.longPrefix ++ q)) =
      if flags.all (·.isSwitch) then
        longSpellings t.settings
          (c.flags.filter fun p => !(flags.map Parameter.longName).contains p.longName) q
      else [] := by
  obtain ⟨words, hwords⟩ := Command.exists_words hplain
  rw [hwords] at h
  -- Completion follows the words of the command first and then its flags, so the walk is cut
  -- between them.
  obtain ⟨v, hwalks, hwalks'⟩ := h.exists_of_append
  have htail : StartsWord (t.settings.longPrefix ++ q).toList := by
    obtain ⟨ch, rest, hchars⟩ := List.exists_cons_of_ne_nil
      (show (t.settings.longPrefix ++ q).toList ≠ [] by simp [hlead])
    exact ⟨ch, rest, hchars, hword ch (hchars ▸ List.mem_cons_self)⟩
  have hstart := cursor_start_of_startsWord principal htyped
  rw [← hstart] at hends
  obtain ⟨hv, hfollow⟩ : v.bundled = false ∧
      followSteps ((start principal line).cursor.followedBy (t.settings.longPrefix ++ q).toList)
          (.ofLine principal (line ++ (t.settings.longPrefix ++ q))) (words.map .literal) =
        .ready _ _ :=
    hwalks.followSteps_eq rfl hends htail
  have hallowed : c.flags.filter (fun p => p.permission.allows principal) = c.flags :=
    List.filter_eq_self.mpr fun p hp =>
      hopen.parameter p (Command.mem_parameters.mpr (.inr hp)) principal
  rw [Command.complete, Cursor.ofString_append, ← hstart, hwords, hfollow]
  simp only [hallowed]
  by_cases hnone : c.flags = []
  · obtain rfl : flags = [] := List.subset_nil.mp (hnone ▸ hflags)
    simp [hnone, longSpellings]
  · rw [if_neg (by simpa using hnone)]
    exact hwalks'.suggestFlags_eq hopen hbuiltin (List.Subset.refl _) hs.longNames_nodup htail
      (hends.of_reaches hwalks.reached) m hs (m.way_of_route hwalks.route).1 hv
      (hlong.of_walks hwalks) hu hend hcommand hflags hnodup hgreedy hlead rfl hword

/-- **Names of later flags.** Let a tree have one command, which is open, not secret and of built-in
types, with words and flags that do not take the rest of the line. Let a line that starts with a
word, resolves and ends with a blank give its flags by their long names, and let it go on with the
long prefix and a part of a name that is not the name of another flag. If the flags that were given
are switches, completion offers the names of the others that start with the part, ignoring case, in
the order in which they are declared. If one of them has a value, it offers nothing. -/
theorem flag_names_completed (h : t.Sole c) (hplain : ∀ p, .parameter p ∉ c.path)
    (hgreedy : ∀ p ∈ c.flags, (Step.parameter p).isGreedy = false) {principal : α} {line : String}
    (htyped : StartsWord line.toList) (hends : (Cursor.ofString line).EndsBlank)
    {r : Resolved α σ} (hparse : t.parse principal line = .ok r)
    (hlong : t.GivesLong (start principal line)) :
    ∃ given, t.Accepts (start principal line) given ⟨r.command,
        (t.search (start principal line)).cursor, (t.search (start principal line)).context⟩ ∧
      ∀ q : String, (∀ ch ∈ q.toList, isBlank ch = false) →
        (∀ p ∈ c.flags, p.longName = q → p.longName ∈ given.map (·.parameter.longName)) →
        t.complete principal (line ++ (t.settings.longPrefix ++ q)) =
          if given.all (·.parameter.isSwitch) then
            (c.flags.filter fun p => !(given.map (·.parameter.longName)).contains p.longName &&
              startsWithIgnoringCase p.longName q).map (t.settings.longPrefix ++ ·.longName)
          else [] := by
  obtain ⟨hc, ⟨m⟩⟩ := h.exists_chart
  have hs := hc.sound
  have mbuilt : Chart Command.Built t := m.mono fun _ hc' => hc' ▸ hc
  obtain ⟨given, haccepts⟩ := mbuilt.exists_reading (exists_of_parse_eq_ok hparse).1
  refine ⟨given, haccepts, fun q hq hwhole => ?_⟩
  -- The reading passes the words and some of the flags.
  obtain ⟨u, hreads, hu, hend, hbound, -⟩ := haccepts.accepted
  have hcommand : (t.node u.node).command = some c := m.known_of_command hbound ▸ hbound
  obtain ⟨steps, hwalks, hsteps⟩ := hreads.exists_walks
  obtain ⟨k, flags, hk, hallows, rfl⟩ := m.exists_steps_of_bound hs hwalks.route hcommand
  obtain rfl := hk.eq_length hplain
  rw [List.take_length] at hwalks hsteps
  have hgiven : given.map Given.parameter = flags := by
    obtain ⟨words, hwords⟩ := Command.exists_words hplain
    rw [← hsteps, hwords]
    simp [Step.parameters, List.filterMap_map, Function.comp_def, Step.parameter?]
  subst hgiven
  have hvalid := h.populated.charted.valid
  have hword : ∀ ch ∈ (t.settings.longPrefix ++ q).toList, isBlank ch = false := by
    rw [String.toList_append]
    exact List.forall_mem_append.mpr ⟨t.settings.isBlank_longPrefix hvalid, hq⟩
  have hoffered := hwalks.complete_eq m hs h.opened h.builtin hplain htyped hends hlong hu hend
    hcommand hallows.subset (hallows.nodup_map hs.longNames_nodup)
    (fun p hp => hgreedy p (hallows.subset hp)) (Settings.longPrefix_ne_empty hvalid) hword
  have hname : (Cursor.ofString (line ++ (t.settings.longPrefix ++ q))).word = c.name := by
    have hfirst := hwalks.word_eq
    rw [cursor_start_of_startsWord principal htyped] at hfirst
    rw [Cursor.ofString_append, hends.word_followedBy htyped.ne_nil, hfirst]
  rw [h.complete_eq hname, hoffered]
  simp only [List.all_map, List.map_map, Function.comp_def]
  split
  · rw [longSpellings_of_ne, List.filter_filter, firstOccurrences_of_nodup]
    · simp only [Bool.and_comm]
    · exact nodup_map_longPrefix (hs.longNames_nodup.sublist (List.filter_sublist.map _))
    · intro p hp heq
      obtain ⟨hp, hnew⟩ := List.mem_filter.mp hp
      simp [hwhole p hp heq] at hnew
  · rfl

/-- On a tree of one command the values given are those of its parameters. -/
theorem Sole.mem_parameters (h : t.Sole c) {principal : α} {line : String} {given : List (Given α)}
    {a : Arrival α σ} (haccepts : t.Accepts (start principal line) given a) {g : Given α}
    (hg : g ∈ given) : g.parameter ∈ c.parameters := by
  obtain ⟨_, ⟨m⟩⟩ := h.exists_chart
  obtain ⟨u, hreads, -⟩ := haccepts.accepted
  obtain ⟨steps, hroute, hsteps⟩ := hreads.exists_route
  have hmem : .parameter g.parameter ∈ steps :=
    Step.mem_parameters.mp (hsteps ▸ List.mem_map_of_mem hg)
  obtain ⟨_, rfl, hp⟩ := m.exists_command_of_route hroute hmem
  exact hp

theorem unguarded_listing : Unguarded listing where
  command := rfl
  parameter p hp := by rcases List.mem_pair.mp hp with rfl | rfl <;> rfl
  flag p hp := by rcases List.mem_pair.mp hp with rfl | rfl <;> exact ⟨rfl, by decide⟩

theorem plain_listing : (∀ p, .parameter p ∉ listing.path) ∧
    ∀ p ∈ listing.flags, (Step.parameter p).isGreedy = false := by
  refine ⟨optional_listing.plain, fun p hp => ?_⟩
  rcases List.mem_pair.mp hp with rfl | rfl <;> rfl

/-- Behind the switch the name of the flag is completed. -/
theorem flag_names_completed_listTree :
    listTree.Sole listing ∧ (∀ p, .parameter p ∉ listing.path) ∧
      (∀ p ∈ listing.flags, (Step.parameter p).isGreedy = false) ∧
      StartsWord "list all --verbose ".toList ∧ (Cursor.ofString "list all --verbose ").EndsBlank ∧
      listTree.GivesLong (start () "list all --verbose ") ∧
      (∃ r, listTree.parse () "list all --verbose " = .ok r) ∧
      listTree.complete () ("list all --verbose " ++ ("--" ++ "l")) = ["--limit"] ∧
      listTree.complete () ("list all --verbose " ++ ("--" ++ "v")) = [] := by
  have htyped : StartsWord "list all --verbose ".toList := ⟨'l', _, rfl, rfl⟩
  have hends : (Cursor.ofString "list all --verbose ").EndsBlank := by decide
  have hlong : listTree.GivesLong (start () "list all --verbose ") :=
    GivesLong.of_words (by decide)
  have hparse : ∃ r, listTree.parse () "list all --verbose " = .ok r ∧ r.command.id = 0 := by
    decide +kernel
  obtain ⟨r, hr, -⟩ := hparse
  obtain ⟨given, haccepts, hcompleted⟩ :=
    flag_names_completed sole_listTree plain_listing.1 plain_listing.2 htyped hends hr hlong
  -- The only name in the context is the switch's, so the line gave the switch and nothing else.
  have hkeys : (listTree.search (start () "list all --verbose ")).context.bindings.keys =
      ["verbose"] := by decide +kernel
  have hnames (name : String) : (∃ g ∈ given, g.parameter.name = name) ↔ name = "verbose" := by
    rw [← haccepts.contains_iff, Bindings.contains_iff, hkeys, List.mem_singleton]
  have hgiven : ∀ g ∈ given, g.parameter = listing.verbose := by
    intro g hg
    have hname := (hnames _).mp ⟨g, hg, rfl⟩
    rcases List.mem_pair.mp (sole_listTree.mem_parameters haccepts hg) with hlimit | hverbose
    · rw [hlimit] at hname
      exact absurd hname (by decide)
    · exact hverbose
  have hswitches : given.all (·.parameter.isSwitch) = true :=
    List.all_eq_true.mpr fun g hg => by rw [hgiven g hg]; rfl
  have hgone (name : String) : (given.map (·.parameter.longName)).contains name =
      decide (name = "verbose") := by
    rw [Bool.eq_iff_iff, List.contains_iff_mem, List.mem_map, decide_eq_true_iff]
    constructor
    · rintro ⟨g, hg, rfl⟩
      rw [hgiven g hg]
      rfl
    · rintro rfl
      obtain ⟨g, hg, -⟩ := (hnames "verbose").mpr rfl
      exact ⟨g, hg, by rw [hgiven g hg]; rfl⟩
  have hoffered (q : String) (hq : IsWord q) (hwhole : ∀ p ∈ listing.flags, p.longName ≠ q) :
      listTree.complete () ("list all --verbose " ++ ("--" ++ q)) =
        (listing.flags.filter fun p => !decide (p.longName = "verbose") &&
          startsWithIgnoringCase p.longName q).map ("--" ++ ·.longName) := by
    have hcomplete := hcompleted q hq.2 fun p hp hname => absurd hname (hwhole p hp)
    have hprefix : listTree.settings.longPrefix = "--" := rfl
    simpa only [hswitches, if_true, hgone, hprefix] using hcomplete
  refine ⟨sole_listTree, plain_listing.1, plain_listing.2, htyped, hends, hlong, ⟨r, hr⟩, ?_, ?_⟩
  · rw [hoffered "l" (by decide) (by decide)]
    decide +kernel
  · rw [hoffered "v" (by decide) (by decide)]
    decide +kernel

/-- Behind the flag and its value the name of the switch is not completed. -/
theorem flag_name_not_completed :
    listTree.settings = {} ∧ listTree.Sole listing ∧ Unguarded listing ∧
      (∀ p, .parameter p ∉ listing.path) ∧
      (∀ p ∈ listing.flags, (Step.parameter p).isGreedy = false) ∧
      StartsWord "list all --limit 10 ".toList ∧
      (Cursor.ofString "list all --limit 10 ").EndsBlank ∧
      listTree.GivesLong (start () "list all --limit 10 ") ∧
      (∃ r, listTree.parse () "list all --limit 10 " = .ok r ∧ r.command.id = 0) ∧
      (listTree.search (start () "list all --limit 10 ")).context.bindings.contains "verbose" =
        false ∧
      listing.verbose ∈ listing.flags ∧ listing.verbose.longName = "verbose" ∧
      startsWithIgnoringCase "verbose" "v" = true ∧
      listTree.complete () ("list all --limit 10 " ++ ("--" ++ "v")) = [] := by
  exact ⟨rfl, sole_listTree, unguarded_listing, plain_listing.1, plain_listing.2,
    ⟨'l', _, rfl, rfl⟩, by decide, GivesLong.of_words (by decide), by decide +kernel,
    by decide +kernel, List.mem_cons_of_mem _ List.mem_cons_self, rfl, by decide +kernel,
    by decide +kernel⟩

end Tree

end CommandLine
