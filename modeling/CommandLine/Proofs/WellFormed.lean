import CommandLine.Declaration
import Mathlib.Data.List.Pairwise
import Mathlib.Data.List.Forall2

/-!
# Well-formed declarations

A declaration is built exactly if it is **well-formed** (`WellFormed`): no name is blank, no two
parameters share their name, no two flags their long name or shorthand, switches are over truth
values, and no argument is named like a word of the declaration.

The check goes over the parameters once and carries what they have taken. A parameter passes if
what was taken before it leaves room for it (`Taken.Accepts`), and each parameter that passes takes
its names from those behind it (`Parameter.NamedApart`). So a list passes exactly if each of its
parameters fits what was taken at the start and the parameters are named apart two by two.

A declaration that is built yields a command for each of its names (`Describes`), which differ in
their first word only and have all flags behind the path.

* `checkParameters_eq_ok_iff` — the check of a list, said of single parameters and of pairs;
* `validate_eq_ok_iff_wellFormed` — a declaration is faultless exactly if it is well-formed;
* `build_eq_ok_iff_describes` — what is built, and when.
-/

set_option autoImplicit false

namespace CommandLine

variable {α σ : Type}

/-- Whether a step is a flag or a switch. -/
def Step.isFlag (step : Step α) : Bool := step.parameter?.any (·.isNamed)

@[simp] theorem Step.isFlag_literal (w : String) : (Step.literal w : Step α).isFlag = false := rfl

@[simp] theorem Step.isFlag_parameter (p : Parameter α) : (Step.parameter p).isFlag = p.isNamed :=
  rfl

/-- Two parameters of one command do not stand in each other's way: their names differ, and so do
their long names and shorthands if they are flags. -/
structure Parameter.NamedApart (p q : Parameter α) : Prop where
  name : p.name ≠ q.name
  longName : p.isNamed = true → q.isNamed = true → p.longName ≠ q.longName
  shorthand : ∀ ch ∈ p.shorthand?, ∀ ch' ∈ q.shorthand?, ch ≠ ch'

namespace Parameter

/-- Only flags have a shorthand, so those of all parameters are those of the flags. -/
theorem filterMap_shorthand?_filter (ps : List (Parameter α)) :
    (ps.filter (·.isNamed)).filterMap shorthand? = ps.filterMap shorthand? := by
  induction ps with
  | nil => rfl
  | cons p ps ih =>
    by_cases hnamed : p.isNamed = true
    · rw [List.filter_cons_of_pos hnamed, List.filterMap_cons, List.filterMap_cons, ih]
    · rw [List.filter_cons_of_neg hnamed,
        List.filterMap_cons_none (shorthand?_of_positional (by simpa using hnamed)), ih]

/-- Parameters are named apart two by two exactly if none of their names occurs twice. -/
theorem pairwise_namedApart_iff {ps : List (Parameter α)} :
    ps.Pairwise NamedApart ↔ (ps.map name).Nodup ∧
      ((ps.filter (·.isNamed)).map longName).Nodup ∧
      ((ps.filter (·.isNamed)).filterMap shorthand?).Nodup := by
  have hparts : @NamedApart α = fun p q => p.name ≠ q.name ∧
      (p.isNamed = true → q.isNamed = true → p.longName ≠ q.longName) ∧
      ∀ ch ∈ p.shorthand?, ∀ ch' ∈ q.shorthand?, ch ≠ ch' := by
    funext p q
    exact propext ⟨fun h => ⟨h.name, h.longName, h.shorthand⟩, fun h => ⟨h.1, h.2.1, h.2.2⟩⟩
  rw [filterMap_shorthand?_filter, hparts, List.pairwise_and_iff, List.pairwise_and_iff]
  simp only [List.Nodup, List.pairwise_map, List.pairwise_filter, List.pairwise_filterMap,
    Option.mem_def]

end Parameter

namespace Declaration

/-! ## What the check comes to -/

namespace Taken

/-- What is taken once a parameter has passed. -/
def add (taken : Taken) (p : Parameter α) : Taken where
  names := p.name :: taken.names
  longNames := if p.isNamed then p.longName :: taken.longNames else taken.longNames
  shorthands := p.shorthand?.toList ++ taken.shorthands

/-- A parameter can be added to those that took these names, in a command with these words. -/
structure Accepts (taken : Taken) (literals : List String) (p : Parameter α) : Prop where
  name : p.name ∉ taken.names
  longName : p.isNamed = true → p.longName ∉ taken.longNames
  shorthand : ∀ ch ∈ p.shorthand?, ch ∉ taken.shorthands
  truth : p.isSwitch = true → p.type.traits.kind = .truth
  word : p.isNamed = false → p.name ∉ literals

variable {taken : Taken} {literals : List String} {p q : Parameter α}

/-- Nothing is taken from the first parameter. -/
theorem accepts_empty_iff : ({} : Taken).Accepts literals p ↔
    (p.isSwitch = true → p.type.traits.kind = .truth) ∧
      (p.isNamed = false → p.name ∉ literals) :=
  ⟨fun h => ⟨h.truth, h.word⟩, fun h => ⟨nofun, nofun, nofun, h.1, h.2⟩⟩

/-- What a parameter takes is what later ones have to be named apart from. -/
theorem accepts_add_iff :
    (taken.add p).Accepts literals q ↔ p.NamedApart q ∧ taken.Accepts literals q := by
  constructor
  · intro h
    have hname := not_or.mp (List.mem_cons.not.mp h.name)
    have hlong (hq : q.isNamed = true) (hp : p.isNamed = true) :
        q.longName ≠ p.longName ∧ q.longName ∉ taken.longNames := by
      simpa [add, hp] using h.longName hq
    have hshort (ch : Char) (hch : ch ∈ q.shorthand?) :
        ch ∉ p.shorthand? ∧ ch ∉ taken.shorthands := by
      simpa [add] using h.shorthand ch hch
    refine ⟨⟨Ne.symm hname.1, fun hp hq => (hlong hq hp).1.symm, ?_⟩,
      hname.2, fun hq => ?_, fun ch hch => (hshort ch hch).2, h.truth, h.word⟩
    · rintro ch hp ch' hq rfl
      exact (hshort ch hq).1 hp
    · -- An argument takes no long name, so it stands in no flag's way.
      cases hp : p.isNamed with
      | true => exact (hlong hq hp).2
      | false => simpa [add, hp] using h.longName hq
  · rintro ⟨hapart, h⟩
    refine ⟨List.mem_cons.not.mpr (not_or.mpr ⟨hapart.name.symm, h.name⟩), fun hq => ?_,
      fun ch hch => ?_, h.truth, h.word⟩
    · cases hp : p.isNamed with
      | true => simpa [add, hp] using ⟨(hapart.longName hp hq).symm, h.longName hq⟩
      | false => simpa [add, hp] using h.longName hq
    · simpa [add] using ⟨fun hp => hapart.shorthand ch hp ch hch rfl, h.shorthand ch hch⟩

end Taken

variable {taken taken' : Taken} {literals : List String} {p : Parameter α}

/-- A flag passes its check exactly if its type suits it and its long name and shorthand are free,
which are taken from then on. -/
theorem checkFlag_eq_ok_iff (hp : p.isNamed = true) :
    checkFlag taken p = .ok taken' ↔ (p.isSwitch = true → p.type.traits.kind = .truth) ∧
      p.longName ∉ taken.longNames ∧ (∀ ch ∈ p.shorthand?, ch ∉ taken.shorthands) ∧
      taken' = { taken.add p with names := taken.names } := by
  unfold checkFlag
  split
  · rename_i hkind
    simp only [Bool.and_eq_true, decide_eq_true_eq] at hkind
    exact ⟨nofun, fun h => absurd (h.1 hkind.1) hkind.2⟩
  · rename_i hkind
    have htruth : p.isSwitch = true → p.type.traits.kind = .truth := by simpa using hkind
    split
    · rename_i hlong
      exact ⟨nofun, fun h => absurd hlong h.2.1⟩
    · rename_i hlong
      rw [and_iff_right htruth, and_iff_right hlong]
      cases hshort : p.shorthand? with
      | none => simpa [Taken.add, hshort, hp] using eq_comm
      | some ch =>
        by_cases hch : ch ∈ taken.shorthands
        · simp [hch]
        · simpa [Taken.add, hshort, hch, hp] using eq_comm

/-- A parameter passes its check exactly if it is accepted, and takes its names. -/
theorem checkParameter_eq_ok_iff :
    checkParameter literals taken p = .ok taken' ↔
      taken.Accepts literals p ∧ taken' = taken.add p := by
  unfold checkParameter
  split
  · rename_i hname
    exact ⟨nofun, fun h => absurd hname h.1.name⟩
  · rename_i hname
    cases hp : p.isNamed with
    | true =>
      simp only [if_true, checkFlag_eq_ok_iff hp]
      exact ⟨fun ⟨htruth, hlong, hshort, htaken⟩ =>
          ⟨⟨hname, fun _ => hlong, hshort, htruth, by simp [hp]⟩, htaken⟩,
        fun ⟨h, htaken⟩ => ⟨h.truth, h.longName hp, h.shorthand, htaken⟩⟩
    -- Only an argument can be mistaken for one of the command's words.
    | false =>
      have hshort := Parameter.shorthand?_of_positional hp
      have hswitch := Parameter.isSwitch_of_unnamed hp
      by_cases hword : p.name ∈ literals
      · simp only [Bool.false_eq_true, if_false, hword, if_true, reduceCtorEq, false_iff]
        exact fun h => h.1.word hp hword
      · have haccepts : taken.Accepts literals p :=
          ⟨hname, by simp [hp], by simp [hshort], by simp [hswitch], fun _ => hword⟩
        simpa [Taken.add, haccepts, hword, hp, hshort] using eq_comm

/-- A list of parameters passes exactly if each of them is accepted at the start and they are named
apart two by two. -/
theorem checkParameters_eq_ok_iff {ps : List (Parameter α)} :
    checkParameters literals taken ps = .ok () ↔
      ps.Pairwise Parameter.NamedApart ∧ ∀ p ∈ ps, taken.Accepts literals p := by
  induction ps generalizing taken with
  | nil => simp [checkParameters]
  | cons p ps ih =>
    -- A failed check ends the run, so what passed is what the first parameter left free.
    have hstep : checkParameters literals taken (p :: ps) = .ok () ↔
        taken.Accepts literals p ∧ checkParameters literals (taken.add p) ps = .ok () := by
      rw [checkParameters]
      split
      · rename_i taken' hcheck
        obtain ⟨haccepts, rfl⟩ := checkParameter_eq_ok_iff.mp hcheck
        exact ⟨fun h => ⟨haccepts, h⟩, And.right⟩
      · rename_i e hcheck
        exact ⟨nofun, fun h =>
          nomatch hcheck.symm.trans (checkParameter_eq_ok_iff.mpr ⟨h.1, rfl⟩)⟩
    simp only [hstep, ih, Taken.accepts_add_iff, List.pairwise_cons, List.forall_mem_cons,
      forall_and]
    tauto

/-! ## Well-formed declarations -/

/-- What a declaration has to be like to be built. -/
structure WellFormed (d : Declaration α σ) : Prop where
  not_blank : ∀ name ∈ d.names, ∃ ch ∈ name.toList, Text.isBlank ch = false
  names_nodup : (d.parameters.map Parameter.name).Nodup
  longNames_nodup : (d.flags.map Parameter.longName).Nodup
  shorthands_nodup : (d.flags.filterMap Parameter.shorthand?).Nodup
  switch_truth : ∀ p ∈ d.parameters, p.isSwitch = true → p.type.traits.kind = .truth
  name_ne_word : ∀ p ∈ d.parameters, p.isNamed = false → p.name ∉ d.literals

variable {d : Declaration α σ}

/-- A good declaration has a first word under each of its names, and no faulty parameter. -/
theorem validate_eq_ok_iff :
    d.validate = .ok () ↔ (∀ name ∈ d.names, Text.isBlankText name = false) ∧
      checkParameters d.literals {} d.parameters = .ok () := by
  unfold validate
  split
  · rename_i hblank
    obtain ⟨name, hname, hblank⟩ := List.any_eq_true.mp hblank
    exact ⟨nofun, fun h => absurd hblank (by simp [h.1 name hname])⟩
  · rename_i hblank
    exact ⟨fun h => ⟨by simpa using hblank, h⟩, And.right⟩

/-- A declaration has no fault exactly if it is well-formed. -/
theorem validate_eq_ok_iff_wellFormed : d.validate = .ok () ↔ d.WellFormed := by
  have hblank (name : String) : Text.isBlankText name = false ↔
      ∃ ch ∈ name.toList, Text.isBlank ch = false := by
    simp [Text.isBlankText]
  rw [validate_eq_ok_iff, checkParameters_eq_ok_iff, Parameter.pairwise_namedApart_iff]
  simp only [hblank, Taken.accepts_empty_iff]
  constructor
  · rintro ⟨hnames, ⟨hnodup, hlong, hshort⟩, hall⟩
    exact ⟨hnames, hnodup, hlong, hshort, fun p hp => (hall p hp).1, fun p hp => (hall p hp).2⟩
  · intro h
    exact ⟨h.not_blank, ⟨h.names_nodup, h.longNames_nodup, h.shorthands_nodup⟩,
      fun p hp => ⟨h.switch_truth p hp, h.name_ne_word p hp⟩⟩

instance (d : Declaration α σ) : Decidable d.WellFormed :=
  match h : d.validate with
  | .ok () => isTrue (validate_eq_ok_iff_wellFormed.mp h)
  | .error _ => isFalse fun hd => nomatch h.symm.trans (validate_eq_ok_iff_wellFormed.mpr hd)

-- An argument named like an alias is in the way, a switch of that name is not.
example : ¬(((ofName "set").withAlias "put").argument (.ofBuiltin "put" .greedy) :
    Declaration Unit Unit).WellFormed := by
  decide

example : (((ofName "set").withAlias "put").argument (.switch "put") :
    Declaration Unit Unit).WellFormed := by
  decide

/-- Only a good declaration is built, into a command for each of its names. -/
theorem build_eq_ok_iff {id : Nat} {cs : List (Command α σ)} :
    d.build id = .ok cs ↔ d.validate = .ok () ∧ cs = d.names.map (d.command id) := by
  -- The fault is reported before anything is built, so there is no half-built answer to rule out.
  unfold build
  split
  · rename_i hvalid
    exact ⟨fun h => ⟨hvalid, (Except.ok.inj h).symm⟩, fun h => congrArg _ h.2.symm⟩
  · rename_i hfault
    exact ⟨nofun, fun h => absurd (hfault.symm.trans h.1) nofun⟩

/-! ## What is built -/

/-- The flags of a declaration are its steps that are flags. -/
theorem map_flags (d : Declaration α σ) :
    d.flags.map Step.parameter = d.steps.filter Step.isFlag := by
  unfold flags parameters
  induction d.steps with
  | nil => rfl
  | cons step steps ih =>
    cases step with
    | literal w =>
      rw [List.filterMap_cons_none rfl, List.filter_cons_of_neg (by simp), ih]
    | parameter p =>
      have hhead : (Step.parameter p).parameter? = some p := rfl
      rw [List.filterMap_cons_some hhead]
      -- A parameter is kept on both sides or on neither.
      by_cases hp : p.isNamed <;> simpa [hp] using ih

/-- What a declaration says of its command under one of its names: the identity, and the steps in
their order, those that are not flags before the flags. The flags are as many as were declared, so
cutting off that many steps leaves those that are none. -/
structure Describes (d : Declaration α σ) (id : Nat) (name : String) (c : Command α σ) : Prop where
  id_eq : c.id = id
  positionals_eq : c.positionals = .literal name :: d.steps.filter (!·.isFlag)
  flags_eq : c.flags.map .parameter = d.steps.filter (·.isFlag)
  steps_eq : c.steps = .literal name :: (d.steps.filter (!·.isFlag) ++ d.steps.filter (·.isFlag))
  flags_length : c.flags.length = d.steps.countP (·.isFlag)
  take_steps : c.steps.take (c.steps.length - c.flags.length) = c.positionals
  drop_steps : c.steps.drop (c.steps.length - c.flags.length) = c.flags.map .parameter
  not_flag : ∀ step ∈ c.positionals, step.isFlag = false
  mem_flags : ∀ p, .parameter p ∈ c.steps → p.isNamed = true → p ∈ c.flags
  permission_eq : c.permission = d.permission
  action_eq : c.action = d.action
  description_eq : c.description = d.description
  secret_eq : c.secret = d.secret

/-- The flags of a command are its last steps. -/
theorem length_steps_sub (c : Command α σ) :
    c.steps.length - c.flags.length = c.positionals.length := by
  simp [Command.steps]

/-- A declaration describes its command under a name and no other one. -/
theorem describes_iff {id : Nat} {name : String} {c : Command α σ} :
    d.Describes id name c ↔ c = d.command id name := by
  constructor
  · intro h
    obtain ⟨rfl, hpath⟩ : c.name = name ∧ c.path = d.path := by
      simpa [Command.positionals, path, Step.isFlag] using h.positionals_eq
    have hflags : c.flags = d.flags := by
      have hinj : Function.Injective (Step.parameter : Parameter α → Step α) :=
        fun _ _ => Step.parameter.inj
      exact List.map_injective_iff.mpr hinj (h.flags_eq.trans d.map_flags.symm)
    -- Every other field of the command is copied from the declaration.
    cases c
    obtain ⟨rfl, -, -, -, -, -, -, -, -, rfl, rfl, rfl, rfl⟩ := h
    simp_all [command]
  · rintro rfl
    have hpath : d.path = d.steps.filter (!·.isFlag) := rfl
    have hsteps : (d.command id name).steps =
        .literal name :: (d.steps.filter (!·.isFlag) ++ d.steps.filter (·.isFlag)) := by
      rw [← hpath, ← map_flags]
      rfl
    have hplain : ∀ step ∈ (d.command id name).positionals, step.isFlag = false := by
      intro step hstep
      rcases List.mem_cons.mp hstep with rfl | hstep
      · rfl
      · simpa [Step.isFlag] using (List.mem_filter.mp hstep).2
    refine ⟨rfl, rfl, d.map_flags, hsteps, ?_, ?_, ?_, hplain, ?_, rfl, rfl, rfl, rfl⟩
    · rw [List.countP_eq_length_filter, ← map_flags, List.length_map]
      rfl
    · rw [length_steps_sub, Command.steps, List.take_left]
    · rw [length_steps_sub, Command.steps, List.drop_left]
    · intro p hp hnamed
      rcases List.mem_append.mp hp with hp | hp
      · exact absurd hnamed (by simpa using hplain _ hp)
      · simpa using hp

/-- A declaration is built exactly if it is well-formed. It then yields the command it describes
under each of its names, in their order. -/
theorem build_eq_ok_iff_describes (d : Declaration α σ) (id : Nat) :
    ((∃ cs, d.build id = .ok cs) ↔ d.WellFormed) ∧
      ∀ cs, d.build id = .ok cs ↔
        d.WellFormed ∧ List.Forall₂ (d.Describes id) d.names cs := by
  have hdescribes (cs : List (Command α σ)) :
      List.Forall₂ (d.Describes id) d.names cs ↔ cs = d.names.map (d.command id) := by
    have hrel : d.Describes id = fun name c => c = d.command id name := by
      funext name c
      exact propext describes_iff
    rw [hrel, eq_comm, ← List.forall₂_eq_eq_eq, List.forall₂_map_left_iff]
    simp only [eq_comm]
  have hbuild (cs : List (Command α σ)) : d.build id = .ok cs ↔
      d.WellFormed ∧ List.Forall₂ (d.Describes id) d.names cs := by
    rw [build_eq_ok_iff, validate_eq_ok_iff_wellFormed, hdescribes]
  refine ⟨⟨fun ⟨cs, h⟩ => ((hbuild cs).mp h).1, fun h => ?_⟩, hbuild⟩
  exact ⟨_, (hbuild _).mpr ⟨h, (hdescribes _).mpr rfl⟩⟩

end Declaration

end CommandLine
