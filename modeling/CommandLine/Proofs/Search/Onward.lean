import CommandLine.Proofs.Search.Abreast
import CommandLine.Proofs.Search.Followed

/-!
# Reading on with a tail

A reading of a line that ends with a blank is one of the longer line with a tail behind it: it goes
the same way, by the same steps, and stops in front of the tail (`Walks.onward`). Only a value that
takes the rest of the line is another one, since it takes the tail with it; then the reading ends at
the same node, behind the tail (`Walks.onward_greedy`).

This is the converse of reading a line without its tail. There the tail has to start with a word;
here it may be anything, as long as something is left behind the value that is read.
-/

set_option autoImplicit false

namespace CommandLine

open Text

variable {α σ : Type}

/-! ## Readers -/

namespace Cursor

variable {c e : Cursor}

/-- The blanks in front of the tail end where they did, unless the tail goes on with blanks. -/
theorem skipBlank_followedBy_of {tail : List Char} (h : c.skipBlank.rest ≠ [] ∨ StartsWord tail) :
    (c.followedBy tail).skipBlank = c.skipBlank.followedBy tail := by
  rcases h with hne | htail
  · exact skipWhile_followedBy (.inl hne)
  · exact skipBlank_followedBy htail

/-- At the end of the line there are no blanks to skip. -/
theorem atEnd_skipBlank (h : c.atEnd = true) : c.skipBlank.atEnd = true := by
  have hnil : c.rest = [] := List.isEmpty_iff.mp h
  simp [skipBlank, skipWhile, atEnd, hnil]

/-- A line that ends with a blank does not end behind a character of a word. -/
theorem EndsBlank.rest_advance_one_ne_nil (h : c.EndsBlank) (hmid : c.atBreak = false) :
    (c.advance 1).rest ≠ [] := by
  obtain ⟨ch, rest, hrest, hch⟩ := startsWord_of_atBreak_eq_false hmid
  intro hnil
  have hlast : rest = [] := by simpa [advance, hrest] using hnil
  have hblank := h ch (by simp [hrest, hlast])
  rw [hch] at hblank
  cases hblank

/-- A quoted word on a line that ends with a blank is closed before the line ends, and it is read
where the line goes on. -/
theorem readBody_followedBy {quote : Char} {opening : Nat} {value passed rest : List Char}
    {s : String} (hquote : isBlank quote = false) (hends : (⟨passed, rest⟩ : Cursor).EndsBlank)
    (h : readBody quote opening value passed rest = (.ok s, e)) (tail : List Char) :
    e.rest ≠ [] ∧
      readBody quote opening value passed (rest ++ tail) = (.ok s, e.followedBy tail) := by
  fun_induction readBody quote opening value passed rest with
  | case1 | case2 | case4 | case6 => simp [reject] at h
  | case3 value passed escaped rest hescaped ih =>
    simp only [List.cons_append, readBody, hescaped, if_true]
    exact ih (hends.of_reaches ⟨['\\', escaped], rfl, rfl⟩) h
  | case5 value passed rest hlast hmore after hbreak =>
    have hch := ne_backslash hlast hmore
    obtain ⟨hs, he⟩ := Prod.mk.inj h
    have hne : rest ≠ [] := by
      rintro rfl
      have hblank := hends quote rfl
      rw [hquote] at hblank
      cases hblank
    have hbreak' : (⟨quote :: passed, rest ++ tail⟩ : Cursor).atBreak = true :=
      (atBreak_followedBy (c := after) hne).trans hbreak
    rw [List.cons_append, readBody_cons hch, if_pos rfl, if_pos hbreak', hs, ← he]
    exact ⟨hne, rfl⟩
  | case7 value passed ch rest hlast hmore hclosing ih =>
    have hch := ne_backslash hlast hmore
    rw [List.cons_append, readBody_cons hch, if_neg hclosing]
    exact ih (hends.of_reaches ⟨[ch], rfl, rfl⟩) h

/-- A word that is read is read where the line goes on. -/
theorem readString_followedBy {s : String} (hends : c.EndsBlank)
    (h : c.readString = (.ok s, e)) (tail : List Char) :
    e.rest ≠ [] ∧ (c.followedBy tail).readString = (.ok s, e.followedBy tail) := by
  unfold readString at h ⊢
  split at h
  · cases (Prod.mk.inj h).1
  · rename_i ch rest hrest
    have hne : c.rest ≠ [] := by simp [hrest]
    simp only [rest_followedBy, hrest, List.cons_append]
    split at h
    · rename_i hquote
      rw [if_pos hquote]
      have hblank : isBlank ch = false := by
        rcases (by simpa using hquote : ch = '"' ∨ ch = '\'') with rfl | rfl <;> decide
      exact readBody_followedBy hblank (hends.of_reaches ⟨[ch], hrest, rfl⟩) h tail
    · rename_i hquote
      rw [if_neg hquote]
      obtain ⟨hs, he⟩ := Prod.mk.inj h
      rw [hends.word_followedBy hne, hends.skipWord_followedBy hne, ← he, hs]
      exact ⟨hends.rest_skipWord_ne_nil hne, rfl⟩

/-- So is one that is converted. -/
theorem readWordAs_followedBy {β : Type} {convert : String → Option β} {reason : ValueFault}
    {x : β} (hends : c.EndsBlank) (h : c.readWordAs convert reason = (.ok x, e))
    (tail : List Char) :
    e.rest ≠ [] ∧ (c.followedBy tail).readWordAs convert reason = (.ok x, e.followedBy tail) := by
  obtain ⟨hword, hconvert, rfl⟩ := readWordAs_eq_ok_iff.mp h
  have hne : c.rest ≠ [] := by
    intro hnil
    exact hword (by rw [word, hnil]; rfl)
  refine ⟨hends.rest_skipWord_ne_nil hne, readWordAs_eq_ok_iff.mpr ?_⟩
  rw [hends.word_followedBy hne, hends.skipWord_followedBy hne]
  exact ⟨hword, hconvert, rfl⟩

end Cursor

/-- What a built-in type reads on a line that ends with a blank, it reads where the line goes on,
unless it takes the rest of the line. -/
theorem BuiltinType.parse_followedBy {b : BuiltinType} {c after : Cursor} {value : Value}
    (hb : b.traits.greedy = false) (hends : c.EndsBlank) (h : b.parse c = (.ok value, after))
    (tail : List Char) :
    after.rest ≠ [] ∧ b.parse (c.followedBy tail) = (.ok value, after.followedBy tail) := by
  have hstring {accept : String → Except Cause Value}
      (h : checked c c.readString accept = (.ok value, after)) :
      after.rest ≠ [] ∧ checked (c.followedBy tail) (c.followedBy tail).readString accept =
        (.ok value, after.followedBy tail) := by
    obtain ⟨x, hread, haccept⟩ := checked_eq_ok_iff.mp h
    obtain ⟨hne, hread'⟩ := Cursor.readString_followedBy hends hread tail
    exact ⟨hne, checked_eq_ok_iff.mpr ⟨x, hread', haccept⟩⟩
  have hconverted {β : Type} {convert : String → Option β} {reason : ValueFault}
      {accept : β → Except Cause Value}
      (h : checked c (c.readWordAs convert reason) accept = (.ok value, after)) :
      after.rest ≠ [] ∧ checked (c.followedBy tail)
        ((c.followedBy tail).readWordAs convert reason) accept =
          (.ok value, after.followedBy tail) := by
    obtain ⟨x, hread, haccept⟩ := checked_eq_ok_iff.mp h
    obtain ⟨hne, hread'⟩ := Cursor.readWordAs_followedBy hends hread tail
    exact ⟨hne, checked_eq_ok_iff.mpr ⟨x, hread', haccept⟩⟩
  cases b with
  | choice | word => exact hstring h
  | truth =>
    rw [parse] at h ⊢
    exact hconverted h
  | integer | decimal => exact hconverted h
  -- The greedy type is the one that would read on into the tail.
  | greedy => cases hb

/-! ## Moves -/

/-- A visit at the same place of a line that goes on with a tail. -/
def Visit.onward (v : Visit α) (tail : List Char) (ctx : Context α) : Visit α :=
  { v with cursor := v.cursor.followedBy tail, context := ctx }

namespace Tree

variable {t : Tree α σ} {v w u : Visit α} {turn : Turn α} {given : Option (Given α)}
  {child : NodeIndex} {p : Parameter α} {c : Cursor} {attached : Bool} {steps : List (Step α)}

/-- A visit from which a move leads on has something left to read. -/
theorem Moves.rest_ne_nil (hturn : turn ∈ t.turns v) (hmove : t.Moves v turn given w) :
    v.cursor.rest ≠ [] := by
  have hlt := left_lt_of_attempt hturn (attempt_eq_enter_iff.mpr ⟨given, hmove⟩)
  exact List.length_pos_iff.mp (Nat.zero_lt_of_lt hlt)

/-- No move leads on from the end of a line. -/
theorem Walks.eq_of_atEnd (h : t.Walks v steps u) (hend : v.cursor.atEnd = true) :
    steps = [] ∧ v = u := by
  cases h with
  | refl v => exact ⟨rfl, rfl⟩
  | step hturn hmove _ =>
    exact absurd (by simpa [Cursor.atEnd] using hend) (hmove.rest_ne_nil hturn)

/-- Who has a turn does not depend on the tail, as long as there is something in front of it. -/
theorem turns_onward (hne : v.cursor.rest ≠ []) (tail : List Char) (ctx : Context α) :
    t.turns (v.onward tail ctx) = t.turns v := by
  have hend : v.cursor.atEnd = false := by simpa [Cursor.atEnd] using hne
  have hend' : (v.cursor.followedBy tail).atEnd = false := by simp [Cursor.atEnd, hne]
  simp only [turns, Visit.onward, hend, hend']

/-- Within a bundle the word goes on. -/
theorem Moves.atBreak_of_bundled (h : t.Moves v turn given w) (hw : w.bundled = true) :
    w.cursor.atBreak = false := by
  cases h with
  | bundle hspells =>
    generalize hattached : true = attached at hspells
    cases hspells with
    | long => cases hattached
    | short | bundled => simpa using hattached.symm
  | literal | argument | switch | value => cases hw

/-- A flag is spelled the same way where the line goes on. -/
theorem Spells.onward (h : t.Spells v turn child p c attached) (hends : v.cursor.EndsBlank)
    (hne : v.cursor.rest ≠ []) (hword : turn = .shorthand → v.cursor.atBreak = false)
    (tail : List Char) (ctx : Context α) :
    c.rest ≠ [] ∧ t.Spells (v.onward tail ctx) turn child p (c.followedBy tail) attached := by
  -- Behind one more character of the word there is still a blank in front of the tail.
  have hnext (d : Cursor) (hd : d.EndsBlank) (hmid : d.atBreak = false) :
      (d.advance 1).rest ≠ [] ∧
        (d.followedBy tail).advance 1 = (d.advance 1).followedBy tail ∧
        ((d.followedBy tail).advance 1).atBreak = (d.advance 1).atBreak := by
    have hne' := hd.rest_advance_one_ne_nil hmid
    have hle : 1 ≤ d.rest.length :=
      List.length_pos_iff.mpr (Cursor.startsWord_of_atBreak_eq_false hmid).ne_nil
    have hadvance : (d.followedBy tail).advance 1 = (d.advance 1).followedBy tail :=
      Cursor.advance_followedBy hle
    exact ⟨hne', hadvance, by rw [hadvance, Cursor.atBreak_followedBy hne']⟩
  have hword' : (v.cursor.followedBy tail).word = v.cursor.word := hends.word_followedBy hne
  cases h with
  | long hspelling hchild =>
    refine ⟨hends.rest_skipWord_ne_nil hne, ?_⟩
    rw [← hends.skipWord_followedBy hne]
    exact .long (v := v.onward tail ctx) (hword' ▸ hspelling) hchild
  | @short ch rest _ _ d hspelling hd hrest hchild =>
    obtain ⟨hle, hmid⟩ := Settings.atBreak_advance_shortPrefix hspelling
    rw [← hd] at hmid
    have hd' : d.followedBy tail =
        (v.onward tail ctx).cursor.advance t.settings.shortPrefix.length := by
      rw [hd]
      exact (Cursor.advance_followedBy hle).symm
    obtain ⟨hne', hadvance, hbreak⟩ :=
      hnext d (hd ▸ hends.of_reaches (Cursor.advance_reached _ v.cursor)) hmid
    refine ⟨hne', ?_⟩
    rw [← hadvance, ← hbreak]
    have hfront : (d.followedBy tail).rest = ch :: (rest ++ tail) := by simp [hrest]
    exact .short (v := v.onward tail ctx) (hword' ▸ hspelling) hd' hfront hchild
  | @bundled ch rest _ _ hrest hchild =>
    obtain ⟨hne', hadvance, hbreak⟩ := hnext v.cursor hends (hword rfl)
    refine ⟨hne', ?_⟩
    rw [← hadvance, ← hbreak]
    have hfront : (v.onward tail ctx).cursor.rest = ch :: (rest ++ tail) := by
      simp [Visit.onward, hrest]
    exact .bundled hfront hchild

/-- The value of a flag starts at the same place, and it is there. -/
theorem valueStart_followedBy {d : Cursor} (hd : d = if attached then c else c.skipBlank)
    (hend : d.atEnd = false) (tail : List Char) : (d.followedBy tail).atEnd = false ∧
      d.followedBy tail =
        if attached then c.followedBy tail else (c.followedBy tail).skipBlank := by
  have hne : d.rest ≠ [] := by simpa [Cursor.atEnd] using hend
  refine ⟨by simp [Cursor.atEnd, hne], ?_⟩
  cases attached with
  | true => exact congrArg (Cursor.followedBy · tail) hd
  | false =>
    rw [if_neg Bool.false_ne_true] at hd ⊢
    rw [hd] at hne ⊢
    exact (Cursor.skipBlank_followedBy_of (.inl hne)).symm

section

variable {known : Command α σ → Prop} (m : Chart known t) (hopen : ∀ c, known c → c.Open)
  (hbuiltin : ∀ c, known c → ∀ p ∈ c.parameters, ∃ b : BuiltinType, p.type = b.toValueType)
  (hi : v.node < t.nodes.size) (hturn : turn ∈ t.turns v) (hends : v.cursor.EndsBlank)
  (hword : v.bundled = true → v.cursor.atBreak = false)
include m hopen hbuiltin hi hturn hends hword

/-- A move is made where the line goes on, too. Something has to be left behind it, unless the tail
starts with a word. -/
theorem Moves.onward (h : t.Moves v turn given w) (hgreedy : (v.passed given).isGreedy = false)
    {tail : List Char} (htail : w.cursor.rest ≠ [] ∨ StartsWord tail) (ctx : Context α) :
    ∃ given' ctx', (v.onward tail ctx).passed given' = v.passed given ∧
      t.Moves (v.onward tail ctx) turn given' (w.onward tail ctx') := by
  have hne := h.rest_ne_nil hturn
  have hallows := m.allows_node hopen
  have hedge := h.edge hturn
  have hspelled {child : NodeIndex} {p : Parameter α} {c : Cursor} {attached : Bool}
      (hspells : t.Spells v turn child p c attached) := hspells.onward hends hne
    (fun hshort => hword (bundled_of_shorthand_mem_turns (hshort ▸ hturn))) tail ctx
  -- What a type reads in front of the tail, and where the blanks behind it end.
  have hread {p : Parameter α} {d after : Cursor} {ctx₀ : Context α} {value : Value}
      (hp : v.passed given = .parameter p) (hvalued : p.isSwitch = false)
      (hreaches : v.cursor.Reaches d) (hparse : p.type.parse ctx₀ d = (.ok value, after))
      (hbreak : after.atBreak = true) (hnext : after.skipBlank.rest ≠ [] ∨ StartsWord tail) :
      p.type.parse ctx (d.followedBy tail) = (.ok value, after.followedBy tail) ∧
        (after.followedBy tail).atBreak = true ∧
        (after.followedBy tail).skipBlank = after.skipBlank.followedBy tail := by
    rw [hp] at hgreedy hedge
    obtain ⟨c, hc, hmem⟩ := m.exists_command_of_edge hi hedge
    obtain ⟨b, hb⟩ := hbuiltin c hc p hmem
    rw [Step.isGreedy_parameter, hvalued, Bool.not_false, Bool.true_and, hb] at hgreedy
    rw [hb] at hparse ⊢
    obtain ⟨hne', hparse'⟩ :=
      BuiltinType.parse_followedBy hgreedy (hends.of_reaches hreaches) hparse tail
    exact ⟨hparse', (Cursor.atBreak_followedBy hne').trans hbreak,
      Cursor.skipBlank_followedBy_of hnext⟩
  cases h with
  | @literal child hchild _ hbreak =>
    have hword' : (v.cursor.followedBy tail).word = v.cursor.word := hends.word_followedBy hne
    refine ⟨none, ctx, congrArg Step.literal hword', ?_⟩
    have hmove : t.Moves (v.onward tail ctx) .literal none _ :=
      .literal (hword' ▸ hchild) (hallows _ _) (Cursor.atBreak_skipWord _)
    simpa only [Visit.onward, hends.skipWord_followedBy hne,
      Cursor.skipBlank_followedBy_of htail] using hmove
  | @argument child p value after _ hparse hbreak =>
    have hvalued : p.isSwitch = false := Parameter.isSwitch_of_unnamed
      (m.leads_of_mem_argumentsOf hi (mem_argumentsOf_of_mem_turns hturn)).1
    obtain ⟨hparse', hbreak', hskip⟩ := hread rfl hvalued (.refl _) hparse hbreak htail
    have hmove : t.Moves (v.onward tail ctx) (.argument child p) (some _) _ :=
      .argument (hallows _ _) hparse' hbreak'
    rw [hskip] at hmove
    exact ⟨_, _, rfl, hmove⟩
  | @switch _ child p c hspells hswitch _ hbreak =>
    obtain ⟨hne', hspells'⟩ := hspelled hspells
    have hmove := Moves.switch hspells' hswitch (hallows _ _)
      ((Cursor.atBreak_followedBy hne').trans hbreak)
    rw [Cursor.skipBlank_followedBy_of htail] at hmove
    exact ⟨_, _, rfl, hmove⟩
  | @bundle _ child p c hspells hswitch =>
    exact ⟨_, _, rfl, .bundle (hspelled hspells).2 hswitch (hallows _ _)⟩
  | @value _ child p c d after attached value hspells hvalued _ hd hend hparse hbreak =>
    have hreaches : v.cursor.Reaches d := by
      refine hspells.reached.trans ?_
      rw [hd]
      split
      · exact .refl c
      · exact Cursor.skipBlank_reached c
    obtain ⟨hparse', hbreak', hskip⟩ := hread rfl hvalued hreaches hparse hbreak htail
    obtain ⟨hend', hd'⟩ := valueStart_followedBy hd hend tail
    have hmove := Moves.value (hspelled hspells).2 hvalued (hallows _ _) hd' hend' hparse' hbreak'
    rw [hskip] at hmove
    exact ⟨_, _, rfl, hmove⟩

/-- A value that takes the rest of the line takes the tail, too. -/
theorem Moves.onward_greedy (h : t.Moves v turn given w)
    (hgreedy : (v.passed given).isGreedy = true) (tail : List Char) (ctx : Context α) :
    w.cursor.atEnd = true ∧ ∃ given' w', t.Moves (v.onward tail ctx) turn given' w' ∧
      (v.onward tail ctx).passed given' = v.passed given ∧
      w'.node = w.node ∧ w'.bundled = false ∧ w'.cursor.atEnd = true := by
  have hne := h.rest_ne_nil hturn
  have hallows := m.allows_node hopen
  have hedge := h.edge hturn
  -- A greedy type reads to the end of either line, whatever it finds there.
  have hread {p : Parameter α} {d after : Cursor} {ctx₀ : Context α} {value : Value}
      (hp : v.passed given = .parameter p) (hend : d.atEnd = false)
      (hparse : p.type.parse ctx₀ d = (.ok value, after)) :
      after.atEnd = true ∧
        ∃ value' after', p.type.parse ctx (d.followedBy tail) = (.ok value', after') ∧
          after'.atEnd = true := by
    rw [hp] at hgreedy hedge
    obtain ⟨c, hc, hmem⟩ := m.exists_command_of_edge hi hedge
    obtain ⟨b, hb⟩ := hbuiltin c hc p hmem
    rw [Step.isGreedy_parameter, Bool.and_eq_true, hb] at hgreedy
    have hend' : (d.followedBy tail).atEnd = false := by
      have hne : d.rest ≠ [] := by simpa [Cursor.atEnd] using hend
      simp [Cursor.atEnd, hne]
    rw [hb] at hparse ⊢
    obtain ⟨value₀, after₀, hparse₀, hend₀⟩ :=
      BuiltinType.exists_parse_of_greedy hgreedy.2 hend
    obtain ⟨-, rfl⟩ := Prod.mk.inj (hparse₀.symm.trans hparse)
    exact ⟨hend₀, BuiltinType.exists_parse_of_greedy hgreedy.2 hend'⟩
  have hbreak {after : Cursor} (hend : after.atEnd = true) : after.atBreak = true := by
    rw [Cursor.atBreak, hend, Bool.true_or]
  cases h with
  | literal => cases hgreedy
  | switch _ hswitch | bundle _ hswitch =>
    rw [Visit.passed, Step.isGreedy_parameter, hswitch] at hgreedy
    cases hgreedy
  | @argument child p value after _ hparse _ =>
    obtain ⟨hend, value', after', hparse', hend'⟩ :=
      hread rfl (by simpa [Cursor.atEnd] using hne) hparse
    have hmove : t.Moves (v.onward tail ctx) (.argument child p) (some _) _ :=
      .argument (hallows _ _) hparse' (hbreak hend')
    exact ⟨Cursor.atEnd_skipBlank hend, _, _, hmove, rfl, rfl, rfl,
      Cursor.atEnd_skipBlank hend'⟩
  | @value _ child p c d after attached value hspells hvalued _ hd hend hparse _ =>
    obtain ⟨_, hspells'⟩ := hspells.onward hends hne
      (fun hshort => hword (bundled_of_shorthand_mem_turns (hshort ▸ hturn))) tail ctx
    obtain ⟨hatEnd, value', after', hparse', hatEnd'⟩ := hread rfl hend hparse
    obtain ⟨hend', hd'⟩ := valueStart_followedBy hd hend tail
    have hmove := Moves.value hspells' hvalued (hallows _ _) hd' hend' hparse' (hbreak hatEnd')
    exact ⟨Cursor.atEnd_skipBlank hatEnd, _, _, hmove, rfl, rfl, rfl,
      Cursor.atEnd_skipBlank hatEnd'⟩

end

/-! ## Walks -/

section

variable {known : Command α σ → Prop} (m : Chart known t) (hopen : ∀ c, known c → c.Open)
  (hbuiltin : ∀ c, known c → ∀ p ∈ c.parameters, ∃ b : BuiltinType, p.type = b.toValueType)
include m hopen hbuiltin

/-- A walk on which no value takes the rest of the line is one where the line goes on. Something has
to be left behind it, unless the tail starts with a word. -/
theorem Walks.onward (h : t.Walks v steps u) (hi : v.node < t.nodes.size)
    (hends : v.cursor.EndsBlank) (hword : v.bundled = true → v.cursor.atBreak = false)
    (hgreedy : ∀ step ∈ steps, step.isGreedy = false) {tail : List Char}
    (htail : u.cursor.rest ≠ [] ∨ StartsWord tail) (ctx : Context α) :
    ∃ ctx', t.Walks (v.onward tail ctx) steps (u.onward tail ctx') := by
  induction h generalizing ctx with
  | refl v => exact ⟨ctx, .refl _⟩
  | @step v w u turn given steps hturn hmove hwalks ih =>
    have hw : w.cursor.rest ≠ [] ∨ StartsWord tail := by
      refine htail.imp_left fun hne hnil => hne ?_
      obtain ⟨taken, htaken, _⟩ := hwalks.reached
      exact (List.append_eq_nil_iff.mp (htaken.symm.trans hnil)).2
    obtain ⟨given', ctx₁, hpassed, hmove'⟩ := hmove.onward m hopen hbuiltin hi hturn hends hword
      (hgreedy _ List.mem_cons_self) hw ctx
    obtain ⟨ctx', hwalks'⟩ := ih (m.leads_of_edge hi (hmove.edge hturn)).lt
      (hends.of_reaches hmove.reached) hmove.atBreak_of_bundled
      (fun step hstep => hgreedy step (List.mem_cons_of_mem _ hstep)) htail ctx₁
    refine ⟨ctx', ?_⟩
    rw [← hpassed]
    exact .step (turns_onward (hmove.rest_ne_nil hturn) tail ctx ▸ hturn) hmove' hwalks'

/-- A walk on which some value takes the rest of the line ends there, and so does one where the line
goes on. -/
theorem Walks.onward_greedy (h : t.Walks v steps u) (hi : v.node < t.nodes.size)
    (hends : v.cursor.EndsBlank) (hword : v.bundled = true → v.cursor.atBreak = false)
    (hgreedy : ∃ step ∈ steps, step.isGreedy = true) (tail : List Char) (ctx : Context α) :
    ∃ u', t.Walks (v.onward tail ctx) steps u' ∧ u'.node = u.node ∧ u'.bundled = false ∧
      u'.cursor.atEnd = true := by
  induction h generalizing ctx with
  | refl v => simp at hgreedy
  | @step v w u turn given steps hturn hmove hwalks ih =>
    have hturn' := turns_onward (hmove.rest_ne_nil hturn) tail ctx ▸ hturn
    -- A greedy type takes the rest of the line, so nothing is walked behind its step.
    cases hfirst : (v.passed given).isGreedy with
    | true =>
      obtain ⟨hend, given', w', hmove', hpassed, hnode, hbundled, hend'⟩ :=
        hmove.onward_greedy m hopen hbuiltin hi hturn hends hword hfirst tail ctx
      obtain ⟨rfl, rfl⟩ := hwalks.eq_of_atEnd hend
      refine ⟨w', ?_, hnode, hbundled, hend'⟩
      rw [← hpassed]
      exact .step hturn' hmove' (.refl w')
    | false =>
      obtain ⟨step, hstep, hg⟩ := hgreedy
      have hlater : step ∈ steps := by
        refine (List.mem_cons.mp hstep).resolve_left ?_
        rintro rfl
        rw [hfirst] at hg
        cases hg
      have hne : w.cursor.rest ≠ [] := by
        intro hnil
        rw [(hwalks.eq_of_atEnd (List.isEmpty_iff.mpr hnil)).1] at hlater
        cases hlater
      obtain ⟨given', ctx₁, hpassed, hmove'⟩ := hmove.onward m hopen hbuiltin hi hturn hends hword
        hfirst (.inl hne) ctx
      obtain ⟨u', hwalks', hu'⟩ := ih (m.leads_of_edge hi (hmove.edge hturn)).lt
        (hends.of_reaches hmove.reached) hmove.atBreak_of_bundled ⟨step, hlater, hg⟩ ctx₁
      refine ⟨u', ?_, hu'⟩
      rw [← hpassed]
      exact .step hturn' hmove' hwalks'

end

end Tree

end CommandLine
