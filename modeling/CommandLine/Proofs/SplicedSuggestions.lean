import Mathlib.Data.List.DropRight
import CommandLine.Tree.Completion

/-!
# Splicing suggestions

A candidate is offered without what stands up to the last space that was typed, so it is meant to
replace what was typed behind that space. Where to cut is found in the candidate itself, by the
number of characters typed, although what was typed begins the candidate only once both are lowered.
Lowering keeps spaces where they are among the words, but a capital I with a dot becomes two
characters, so that the cut may fall one space early or late.

* `lowerAfter_space` — the words between spaces are lowered on their own;
* `exists_afterLastSpace` — where a candidate is cut;
* `spliced_eq_candidate_iff` — when the typed text with the suggestion in place is the candidate.
-/

set_option autoImplicit false

namespace CommandLine

namespace Text

/-! ## Lowering from word to word -/

/-- A text is empty, or ends with a space. -/
def EndsSpaced (cs : List Char) : Prop := cs = [] ∨ ∃ front, cs = front ++ [' ']

/-- What stands behind a space does not matter to what stands in front of it. -/
theorem startsCased_space (cs later : List Char) :
    startsCased (cs ++ ' ' :: later) = startsCased cs := by
  -- A space is neither cased nor passed over, so it ends the search for a cased letter.
  have hspace : caseIgnorable.contains ' ' = false := by decide +kernel
  induction cs with
  | nil =>
    have hcased : cased.contains ' ' = false := by decide +kernel
    simp [startsCased, hspace, hcased]
  | cons c cs ih =>
    unfold startsCased at ih ⊢
    by_cases hc : caseIgnorable.contains c = true
    · rwa [List.cons_append, List.dropWhile_cons_of_pos hc, List.dropWhile_cons_of_pos hc]
    · rw [List.cons_append, List.dropWhile_cons_of_neg hc, List.dropWhile_cons_of_neg hc]

/-- What stands before a space does not matter behind it. -/
theorem lowerAfter_before_space (before earlier cs : List Char) :
    lowerAfter (before ++ ' ' :: earlier) cs = lowerAfter before cs := by
  induction cs generalizing before with
  | nil => rfl
  | cons c cs ih =>
    rw [lowerAfter, lowerAfter, startsCased_space, ← List.cons_append, ih]

theorem lowerChar_space : lowerChar ' ' = [' '] := by decide

/-- The words between spaces are lowered on their own. -/
theorem lowerAfter_space (before cs later : List Char) :
    lowerAfter before (cs ++ ' ' :: later) =
      lowerAfter before cs ++ ' ' :: lowerAfter [] later := by
  induction cs generalizing before with
  | nil =>
    have hbehind := lowerAfter_before_space [] before later
    rw [List.nil_append] at hbehind
    simp [lowerAfter, lowerChar_space, hbehind]
  | cons c cs ih =>
    rw [List.cons_append, lowerAfter, lowerAfter, startsCased_space, ih, List.append_assoc]

/-- Behind a space a text is lowered as if it stood alone. -/
theorem EndsSpaced.lowerAfter_append {front : List Char} (h : EndsSpaced front)
    (later : List Char) :
    lowerAfter [] (front ++ later) = lowerAfter [] front ++ lowerAfter [] later := by
  rcases h with rfl | ⟨front, rfl⟩
  · rfl
  · rw [List.append_assoc, List.singleton_append, lowerAfter_space, lowerAfter_space]
    simp [lowerAfter]

/-- A lowered text ends with a space if the text does. -/
theorem EndsSpaced.lowerAfter {front : List Char} (h : EndsSpaced front) :
    EndsSpaced (lowerAfter [] front) := by
  rcases h with rfl | ⟨front, rfl⟩
  · exact .inl rfl
  · exact .inr ⟨_, lowerAfter_space [] front []⟩

/-- The small letter of a code point is in one of the runs, unless it is the code point. -/
theorem lowerCodePoint_eq_or (runs : List CaseRun) (n : Nat) :
    lowerCodePoint runs n = n ∨ ∃ run ∈ runs, run.first ≤ n ∧ n ≤ run.last ∧
      lowerCodePoint runs n = (n + run.shift).toNat := by
  induction runs with
  | nil => exact .inl rfl
  | cons run later ih =>
    rw [lowerCodePoint]
    split
    · exact .inl rfl
    · rename_i hfirst
      split
      · rename_i hrun
        simp only [Bool.and_eq_true, decide_eq_true_eq] at hrun
        exact .inr ⟨run, List.mem_cons_self, Nat.le_of_not_lt hfirst, hrun.1, rfl⟩
      · refine ih.imp_right fun ⟨run', hmem, hrun'⟩ => ⟨run', List.mem_cons_of_mem _ hmem, hrun'⟩

/-- No capital letter is lowered to a space. -/
theorem lowerCodePoint_eq_space_iff (n : Nat) : lowerCodePoint caseRuns n = 32 ↔ n = 32 := by
  have hruns : ∀ run ∈ caseRuns,
      (32 : Int) < run.first + run.shift ∨ run.last + run.shift < (32 : Int) := by decide +kernel
  constructor
  · intro h
    rcases lowerCodePoint_eq_or caseRuns n with hn | ⟨run, hmem, hfirst, hlast, hn⟩
    · exact hn ▸ h
    · have := hruns run hmem
      omega
  · rintro rfl
    rfl

/-- Only one number is that of a space. -/
theorem ofNat_eq_space_iff (n : Nat) : Char.ofNat n = ' ' ↔ n = 32 := by
  constructor
  · intro h
    by_cases hn : n.isValidChar
    · rw [Char.ofNat, dif_pos hn] at h
      have hcode : (Char.ofNatAux n hn).toNat = n := rfl
      exact hcode.symm.trans (congrArg Char.toNat h)
    · rw [Char.ofNat, dif_neg hn] at h
      cases congrArg Char.toNat h
  · rintro rfl
    rfl

/-- Every other character is lowered to one character, and only a space to a space. -/
theorem exists_lowerChar {c : Char} (hc : c ≠ 'İ') :
    ∃ d, lowerChar c = [d] ∧ (d = ' ' ↔ c = ' ') := by
  refine ⟨_, if_neg hc, ?_⟩
  rw [ofNat_eq_space_iff, lowerCodePoint_eq_space_iff]
  exact ⟨fun h => Char.toNat_inj.mp h, fun h => h ▸ rfl⟩

/-- The first character of a text becomes one or two, and a space only if it is one. -/
theorem exists_lowerAfter_cons (before : List Char) (c : Char) (cs : List Char) :
    ∃ lowered, lowerAfter before (c :: cs) = lowered ++ lowerAfter (c :: before) cs ∧
      lowered.count ' ' = [c].count ' ' ∧
      (c ≠ 'İ' → lowered.map (· == ' ') = [c == ' ']) := by
  by_cases hsigma : c = 'Σ'
  · subst hsigma
    by_cases hfinal : (startsCased before && !startsCased cs) = true
    · exact ⟨['ς'], by simp [lowerAfter, hfinal], by decide, fun _ => by decide⟩
    · exact ⟨['σ'], by simp [lowerAfter, hfinal], by decide, fun _ => by decide⟩
  · refine ⟨lowerChar c, by simp [lowerAfter, hsigma], ?_⟩
    by_cases hdotted : c = 'İ'
    · subst hdotted
      exact ⟨by decide, fun h => (h rfl).elim⟩
    · obtain ⟨d, hd, hspace⟩ := exists_lowerChar hdotted
      have heq : (d == ' ') = (c == ' ') := by rw [Bool.eq_iff_iff, beq_iff_eq, beq_iff_eq, hspace]
      rw [hd]
      exact ⟨by simp [List.count_singleton, heq], fun _ => by simp [heq]⟩

/-- Lowering keeps the number of spaces. -/
theorem count_space_lowerAfter (before cs : List Char) :
    (lowerAfter before cs).count ' ' = cs.count ' ' := by
  induction cs generalizing before with
  | nil => rfl
  | cons c cs ih =>
    obtain ⟨lowered, hlowered, hcount, _⟩ := exists_lowerAfter_cons before c cs
    rw [hlowered, List.count_append, hcount, ih, ← List.count_append, List.singleton_append]

/-- Without a capital I with a dot, spaces stay at their places. -/
theorem map_space_lowerAfter (before : List Char) {cs : List Char} (h : 'İ' ∉ cs) :
    (lowerAfter before cs).map (· == ' ') = cs.map (· == ' ') := by
  induction cs generalizing before with
  | nil => rfl
  | cons c cs ih =>
    rw [List.mem_cons, not_or] at h
    obtain ⟨lowered, hlowered, -, hmap⟩ := exists_lowerAfter_cons before c cs
    rw [hlowered, List.map_append, hmap (Ne.symm h.1), ih _ h.2]
    rfl

/-- Two beginnings of one text are equal if they end with the same space. -/
theorem EndsSpaced.eq_of_isPrefix {front front' cs : List Char} (h : EndsSpaced front)
    (h' : EndsSpaced front') (hfront : front <+: cs) (hfront' : front' <+: cs)
    (hcount : front.count ' ' = front'.count ' ') : front = front' := by
  have hshorter {short long : List Char} (hlong : EndsSpaced long) (hbegins : short <+: long)
      (hcount : short.count ' ' = long.count ' ') : short = long := by
    obtain ⟨more, rfl⟩ := hbegins
    rw [List.count_append] at hcount
    have hnone : ' ' ∉ more := List.count_eq_zero.mp (by omega)
    rcases hlong with hnil | ⟨front, hspace⟩
    · rw [(List.append_eq_nil_iff.mp hnil).2, List.append_nil]
    · cases more using List.reverseRecOn with
      | nil => rw [List.append_nil]
      | append_singleton more last =>
        rw [← List.append_assoc] at hspace
        obtain rfl := List.singleton_inj.mp (List.append_inj_right' hspace rfl)
        exact (hnone (by simp)).elim
  rcases List.prefix_or_prefix_of_prefix hfront hfront' with h₁ | h₁
  · exact hshorter h' h₁ hcount
  · exact (hshorter h h₁ hcount.symm).symm

end Text

open Text

/-! ## The cut -/

/-- A candidate is cut behind the last space among its first characters. -/
theorem exists_afterLastSpace (count : Nat) (cs : List Char) :
    ∃ front, EndsSpaced front ∧ cs = front ++ afterLastSpace cs count cs ∧
      front.count ' ' = (cs.take count).count ' ' := by
  have hpassed (passed front kept : List Char) (hends : EndsSpaced front)
      (heq : passed ++ cs = front ++ kept) (hcount : front.count ' ' = passed.count ' ') :
      ∃ front, EndsSpaced front ∧ passed ++ cs = front ++ afterLastSpace kept count cs ∧
        front.count ' ' = (passed ++ cs.take count).count ' ' := by
    induction count generalizing cs passed front kept with
    | zero => exact ⟨front, hends, by simpa [afterLastSpace] using heq, by simpa using hcount⟩
    | succ count ih =>
      cases cs with
      | nil => exact ⟨front, hends, by simpa [afterLastSpace] using heq, by simpa using hcount⟩
      | cons c cs =>
        rw [List.append_cons] at heq
        by_cases hc : c = ' '
        · subst hc
          have hcut := ih cs (passed ++ [' ']) (passed ++ [' ']) cs (.inr ⟨passed, rfl⟩) rfl rfl
          simpa [afterLastSpace] using hcut
        · have hcut := ih cs (passed ++ [c]) front kept hends heq (by simp [hcount, hc])
          simpa [afterLastSpace, hc] using hcut
  simpa using hpassed [] [] cs (.inl rfl) rfl rfl

/-- The typed text with everything behind its last space replaced. -/
def splice (typed replacement : String) : String :=
  String.ofList (typed.toList.rdropWhile (· ≠ ' ')) ++ replacement

/-- What is kept of the typed text ends with its last space. -/
theorem exists_kept (cs : List Char) : ∃ kept word : List Char, cs.rdropWhile (· ≠ ' ') = kept ∧
    EndsSpaced kept ∧ ' ' ∉ word ∧ cs = kept ++ word := by
  refine ⟨_, cs.rtakeWhile (· ≠ ' '), rfl, ?_, fun hmem => ?_,
    (List.rdropWhile_append_rtakeWhile ..).symm⟩
  · by_cases hnil : cs.rdropWhile (· ≠ ' ') = []
    · exact .inl hnil
    · have hlast := List.rdropWhile_last_not _ _ hnil
      have hspace : (cs.rdropWhile (· ≠ ' ')).getLast hnil = ' ' := by simpa using hlast
      have hsplit := (List.dropLast_append_getLast hnil).symm
      rw [hspace] at hsplit
      exact .inr ⟨_, hsplit⟩
  · simpa using List.mem_rtakeWhile_imp hmem

/-- Without a capital I with a dot, a text that begins another one, ignoring case, has its spaces
where that one has them. -/
theorem count_take_of_isPrefix {typed candidate : List Char}
    (h : lowerAfter [] typed <+: lowerAfter [] candidate) (htyped : 'İ' ∉ typed)
    (hcandidate : 'İ' ∉ candidate) :
    (candidate.take typed.length).count ' ' = typed.count ' ' := by
  have hmaps : typed.map (· == ' ') <+: candidate.map (· == ' ') := by
    rw [← map_space_lowerAfter [] htyped, ← map_space_lowerAfter [] hcandidate]
    exact h.map _
  have htake := List.prefix_iff_eq_take.mp hmaps
  rw [List.length_map, ← List.map_take] at htake
  have hcount (cs : List Char) : (cs.map (· == ' ')).count true = cs.count ' ' := by
    rw [List.count, List.countP_map, List.count]
    exact List.countP_congr fun ch _ => by simp
  rw [← hcount, ← htake, hcount]

/-- **Suggestions replace the last word.** Let a candidate start with what was typed, ignoring case.
The typed text with the suggestion in place of what stands behind its last space is the candidate,
ignoring case, exactly if the typed text and as many characters of the candidate have the same
number of spaces. So it is if neither has a capital I with a dot. -/
theorem spliced_eq_candidate_iff {candidate typed : String}
    (h : startsWithIgnoringCase candidate typed = true) :
    (lowercase (splice typed (stillToType candidate typed)) = lowercase candidate ↔
      (candidate.toList.take typed.length).count ' ' = typed.toList.count ' ') ∧
    ('İ' ∉ typed.toList → 'İ' ∉ candidate.toList →
      lowercase (splice typed (stillToType candidate typed)) = lowercase candidate) := by
  have hbegins : lowerAfter [] typed.toList <+: lowerAfter [] candidate.toList := by
    simpa [startsWithIgnoringCase, lowercase] using h
  obtain ⟨front, hfront, hcandidate, hcount⟩ :=
    exists_afterLastSpace typed.length candidate.toList
  obtain ⟨kept, word, hdrop, hkept, hword, htyped⟩ := exists_kept typed.toList
  -- Behind the kept part and behind the cut part stands the same suggestion.
  have hspliced : (splice typed (stillToType candidate typed)).toList =
      kept ++ afterLastSpace candidate.toList typed.length candidate.toList := by
    simp [splice, stillToType, ← hdrop]
  generalize afterLastSpace candidate.toList typed.length candidate.toList = offered at *
  have hlowered : lowercase (splice typed (stillToType candidate typed)) = lowercase candidate ↔
      lowerAfter [] kept = lowerAfter [] front := by
    rw [lowercase, lowercase, String.ofList_inj, hspliced, hcandidate, hkept.lowerAfter_append,
      hfront.lowerAfter_append]
    exact List.append_left_inj _
  have hiff : lowercase (splice typed (stillToType candidate typed)) = lowercase candidate ↔
      (candidate.toList.take typed.length).count ' ' = typed.toList.count ' ' := by
    rw [hlowered, ← hcount, htyped, List.count_append, List.count_eq_zero.mpr hword, Nat.add_zero]
    constructor
    · intro heq
      rw [← count_space_lowerAfter [] front, ← heq, count_space_lowerAfter]
    · intro heq
      have hbegins' : lowerAfter [] kept <+: lowerAfter [] candidate.toList := by
        refine List.IsPrefix.trans ?_ hbegins
        rw [htyped, hkept.lowerAfter_append]
        exact List.prefix_append _ _
      have hcut : lowerAfter [] front <+: lowerAfter [] candidate.toList := by
        rw [hcandidate, hfront.lowerAfter_append]
        exact List.prefix_append _ _
      refine hkept.lowerAfter.eq_of_isPrefix hfront.lowerAfter hbegins' hcut ?_
      rw [count_space_lowerAfter, count_space_lowerAfter, heq]
  exact ⟨hiff, fun h₁ h₂ => hiff.mpr (count_take_of_isPrefix hbegins h₁ h₂)⟩

/-- The second word of three is replaced together with the third one. -/
theorem spliced_eq_candidate_words :
    startsWithIgnoringCase "Three Short Words" "three sh" = true ∧
      stillToType "Three Short Words" "three sh" = "Short Words" ∧
      lowercase (splice "three sh" (stillToType "Three Short Words" "three sh")) =
        lowercase "Three Short Words" := by
  have hstarts : startsWithIgnoringCase "Three Short Words" "three sh" = true := by decide +kernel
  have hspaces : ("Three Short Words".toList.take "three sh".length).count ' ' =
      "three sh".toList.count ' ' := by decide +kernel
  exact ⟨hstarts, by decide +kernel, (spliced_eq_candidate_iff hstarts).1.mpr hspaces⟩

/-- A capital I with a dot is one character and two small ones, so that a space more is cut off
than was typed, and a word is lost. -/
theorem spliced_ne_candidate :
    ∃ candidate typed : String, startsWithIgnoringCase candidate typed = true ∧
      candidate = "İ b c" ∧ typed.toList = ['i', Char.ofNat 0x307, ' ', 'b'] ∧
      stillToType candidate typed = "c" ∧
      ¬lowercase (splice typed (stillToType candidate typed)) = lowercase candidate :=
  ⟨"İ b c", String.ofList ['i', Char.ofNat 0x307, ' ', 'b'], by decide +kernel, rfl,
    by decide +kernel, by decide +kernel, by decide +kernel⟩

end CommandLine
