import CommandLine.Proofs.Tree.Grown
import CommandLine.Proofs.Tree.Routes
import CommandLine.Proofs.Tree.Sections

/-!
# What all growth does to a tree

Growth is made of a few changes, one after the other: it opens a node, adds a child, lists a flag
node below one more node or binds a command. What holds between a tree and the next one for each of
these changes, and from change to change, therefore holds between a tree and the one that a growth
leaves, wherever it stops. For a flag section not all of the changes are needed (`FlagChanges`).

Words and arguments are added only where they do not clash with each other. A relation that needs
this is one for the steps that look first (`StepChanges`), and one that needs a whole command is one
for its growth (`CommandChanges`). The changes need not be related wherever they are made, but only
at the places to which growth comes (`PathWalk`).

* `ensureLiteral_after`, `ensureFlag_after`, `ensureArgument_after` — which change a look makes;
* `FlagWalk.growFlags`, `PathWalk.growCommand` — from the steps of growth to a whole command;
* `FlagChanges.walk`, `StepChanges.walk` — from the changes to the steps;
* `CommandChanges.register`, `CommandChanges.grown` — from one command to all calls;
* `changes_widens`, `changes_grows` — whatever is done to a tree, it grows and is open to more;
* `SameCommands` — adding a child leaves every command where it is.
-/

set_option autoImplicit false

namespace CommandLine

variable {α σ : Type} {R : Tree α σ → Tree α σ → Prop} {t t' t'' : Tree α σ} {i j : NodeIndex}

namespace Growth

variable {β γ : Type}

/-- A growth that is not refused goes on from one that is not. -/
theorem exists_of_bind_eq_ok {g : Growth α σ β} {f : β → Growth α σ γ} {b : γ}
    (h : (g >>= f) t = .ok b t') : ∃ a t₁, g t = .ok a t₁ ∧ f a t₁ = .ok b t' := by
  rw [bind_apply] at h
  cases hrun : g t with
  | ok a t₁ =>
    rw [hrun] at h
    exact ⟨a, t₁, rfl, h⟩
  | error e t₁ =>
    rw [hrun] at h
    cases h

/-- Wherever a growth stops, a relation holds between the tree before and the one that it leaves. -/
def Within (R : Tree α σ → Tree α σ → Prop) (g : Growth α σ β) : Prop := ∀ t, R t (g.after t)

/-- So it does where the growth is not refused. -/
theorem Within.of_ok {g : Growth α σ β} {b : β} (h : Within R g) (hrun : g t = .ok b t') :
    R t t' :=
  after_of_ok hrun ▸ h t

/-- A relation holds between a tree and the one that a composed growth leaves if it holds for the
first part, and for the second one wherever the first part goes on. -/
theorem related_bind {g : Growth α σ β} {f : β → Growth α σ γ}
    (htrans : ∀ {t t' t'' : Tree α σ}, R t t' → R t' t'' → R t t'') (hg : R t (g.after t))
    (hf : ∀ b t', g t = .ok b t' → R t' ((f b).after t')) : R t ((g >>= f).after t) := by
  unfold after at hg ⊢
  rw [bind_apply]
  cases hrun : g t with
  | error e t₁ =>
    rw [hrun] at hg
    exact hg
  | ok b t₁ =>
    rw [hrun] at hg
    exact htrans hg (hf b t₁ hrun)

/-- If every step of a composed growth is within a relation, so is the whole. -/
theorem Within.bind {g : Growth α σ β} {f : β → Growth α σ γ}
    (htrans : ∀ {t t' t'' : Tree α σ}, R t t' → R t' t'' → R t t'') (hg : Within R g)
    (hf : ∀ b, Within R (f b)) : Within R (g >>= f) :=
  fun t => related_bind htrans (hg t) fun b t' _ => hf b t'

end Growth

namespace Tree

open CommandLine.Growth

/-! ## Looking for a child -/

section

variable {P : Tree α σ → Prop} {w : String} {permission : Permission α} {p : Parameter α}

/-- Where a word is looked for, its node is opened, or it is added since no argument has it as its
name, or nothing changes. -/
theorem ensureLiteral_after (hkeep : P t) (hjoin : ∀ j, P (t.joinPermission j permission))
    (hadd : (∀ j q, (j, q) ∈ t.argumentsOf i → q.name ≠ w) → P (t.addLiteral i w permission)) :
    P ((ensureLiteral i w permission).after t) := by
  unfold after ensureLiteral
  cases (t.node i).literal? w with
  | some existing => exact hjoin existing
  | none =>
    simp only
    by_cases hclash : ((t.argumentsOf i).any fun child => child.2.name = w) = true
    · rw [if_pos hclash]
      exact hkeep
    · rw [if_neg hclash]
      exact hadd fun j q hq hname =>
        hclash (List.any_eq_true.mpr ⟨(j, q), hq, decide_eq_true hname⟩)

/-- So it is with a flag. -/
theorem ensureFlag_after (hkeep : P t) (hjoin : ∀ j, P (t.joinPermission j p.permission))
    (hadd : P (t.addFlag i p)) : P ((ensureFlag i p).after t) := by
  unfold after ensureFlag
  cases t.flagNamed? i p.longName with
  | none => exact hadd
  | some found =>
    obtain ⟨existing, q⟩ := found
    simp only
    by_cases hshape : q.interchangeable p = true
    · rw [if_pos hshape]
      exact hjoin existing
    · rw [if_neg hshape]
      exact hkeep

/-- And with an argument, which is added only where its name is not a word. -/
theorem ensureArgument_after (hkeep : P t) (hjoin : ∀ j, P (t.joinPermission j p.permission))
    (hadd : (t.node i).literal? p.name = none → P (t.addArgument i p)) :
    P ((ensureArgument i p).after t) := by
  unfold after ensureArgument
  by_cases hclash : ((t.node i).literal? p.name).isSome = true
  · rw [if_pos hclash]
    exact hkeep
  · rw [if_neg hclash]
    simp only
    cases (t.argumentsOf i).find? fun child =>
        child.2.name = p.name && child.2.interchangeable p with
    | some found => exact hjoin found.1
    | none => exact hadd (Option.not_isSome_iff_eq_none.mp hclash)

end

/-! ## Walks -/

/-- Growth starts at a place in a tree and goes on at the children that it is answered. A relation
holds along a walk for flags if it holds for each step that is taken at a place, and from step to
step, where steps keep places and children are places too. -/
structure FlagWalk (Place : Tree α σ → NodeIndex → Prop) (R : Tree α σ → Tree α σ → Prop) :
    Prop where
  refl : ∀ t, R t t
  trans : ∀ {t t' t''}, R t t' → R t' t'' → R t t''
  keep : ∀ {t t' i}, Place t i → R t t' → Place t' i
  place : ∀ {t t' i j p}, Place t i → p.isNamed = true → ensureParameter i p t = .ok j t' →
    Place t' j
  ensureParameter : ∀ {t i p}, Place t i → p.isNamed = true → R t ((ensureParameter i p).after t)
  shareFlag : ∀ child t i, R t (t.shareFlag child i)
  bindCommand : ∀ t i c, R t (t.bindCommand i c)

/-- One that holds along a walk for words and arguments as well. -/
structure PathWalk (Place : Tree α σ → NodeIndex → Prop) (R : Tree α σ → Tree α σ → Prop) :
    Prop extends FlagWalk Place R where
  stepPlace : ∀ {t t' i j} c step, Place t i → ensureStep c i step t = .ok j t' → Place t' j
  ensureStep : ∀ {t i} c step, Place t i → R t ((ensureStep c i step).after t)

section

variable {Place : Tree α σ → NodeIndex → Prop} {c : Command α σ} {ps flags : List (Parameter α)}

namespace FlagWalk

variable (h : FlagWalk Place R)
include h

/-- A relation that holds when a command is bound holds where its end is marked. -/
theorem markEnd (c : Command α σ) (i : NodeIndex) : Within R (markEnd c i) :=
  fun t => h.bindCommand t i c

/-- And where the end is marked only if nothing that must be given is left. -/
theorem markEndBefore (c : Command α σ) (i : NodeIndex) (left : List (Parameter α)) :
    Within R (markEndBefore c i left) := by
  unfold Growth.markEndBefore
  split
  · exact h.markEnd c i
  · exact h.refl

/-- A place stays one while a flag is looked for below it. -/
theorem keep_ensureParameter {p : Parameter α} (hi : Place t i) (hnamed : p.isNamed = true)
    (hrun : Growth.ensureParameter i p t = .ok j t') : Place t' i :=
  h.keep hi (after_of_ok hrun ▸ h.ensureParameter hi hnamed)

/-- It holds for flags in a row, by induction on the row: the end of its first flag is a place. -/
theorem growRow (hi : Place t i) (hnamed : ∀ p ∈ ps, p.isNamed = true) :
    R t ((growRow i ps).after t) := by
  induction ps generalizing t i with
  | nil => exact h.refl t
  | cons p ps ih =>
    have hp := hnamed p List.mem_cons_self
    refine related_bind h.trans (h.ensureParameter hi hp) fun child t₁ hrun => ?_
    exact ih (h.place hi hp hrun) fun q hq => hnamed q (List.mem_cons_of_mem p hq)

/-- The end of a row is a place. -/
theorem place_of_growRow (hi : Place t i) (hnamed : ∀ p ∈ ps, p.isNamed = true)
    (hrun : Growth.growRow i ps t = .ok j t') : Place t' j := by
  induction ps generalizing t i with
  | nil =>
    obtain ⟨rfl, rfl⟩ := EStateM.Result.ok.inj hrun
    exact hi
  | cons p ps ih =>
    obtain ⟨child, t₁, hchild, hrow⟩ := exists_of_bind_eq_ok hrun
    exact ih (h.place hi (hnamed p List.mem_cons_self) hchild)
      (fun q hq => hnamed q (List.mem_cons_of_mem p hq)) hrow

/-- And for one order of flags, where the end may be marked before each of them. -/
theorem growOrder (c : Command α σ) (hi : Place t i) (hnamed : ∀ p ∈ ps, p.isNamed = true) :
    R t ((growOrder c i ps).after t) := by
  induction ps generalizing t i with
  | nil => exact h.markEnd c i t
  | cons p ps ih =>
    have hp := hnamed p List.mem_cons_self
    -- The place may get the command before the next flag is looked for.
    have hmark := h.markEndBefore c i (p :: ps)
    refine related_bind h.trans (hmark t) fun _ t₁ hmarked => ?_
    have hi₁ : Place t₁ i := h.keep hi (hmark.of_ok hmarked)
    refine related_bind h.trans (h.ensureParameter hi₁ hp) fun child t₂ hrun => ?_
    exact ih (h.place hi₁ hp hrun) fun q hq => hnamed q (List.mem_cons_of_mem p hq)

/-- And for all orders, each of which starts at the same place. -/
theorem growOrders {orders : List (List (Parameter α))} (c : Command α σ) (hi : Place t i)
    (hnamed : ∀ order ∈ orders, ∀ p ∈ order, p.isNamed = true) :
    R t ((growOrders c i orders).after t) := by
  induction orders generalizing t with
  | nil => exact h.refl t
  | cons order orders ih =>
    have horder := h.growOrder c hi (hnamed order List.mem_cons_self)
    refine related_bind h.trans horder fun _ t₁ hrun => ?_
    exact ih (h.keep hi (after_of_ok hrun ▸ horder)) fun o ho =>
      hnamed o (List.mem_cons_of_mem order ho)

/-- A node that is shared with one earlier node after the other is shared with all of them. -/
theorem shareFlags (child : NodeIndex) (t : Tree α σ) (earlier : List NodeIndex) :
    R t (earlier.foldl (Tree.shareFlag child) t) := by
  induction earlier generalizing t with
  | nil => exact h.refl t
  | cons e earlier ih => exact h.trans (h.shareFlag child t e) (ih (t.shareFlag child e))

/-- It holds for a chain, whose flags are all added below one place and then shared. -/
theorem growChain (c : Command α σ) (hi : Place t i) (earlier : List NodeIndex)
    (hnamed : ∀ p ∈ ps, p.isNamed = true) : R t ((growChain c i earlier ps).after t) := by
  induction ps generalizing t earlier with
  | nil => exact h.refl t
  | cons p ps ih =>
    have hp := hnamed p List.mem_cons_self
    refine related_bind h.trans (h.ensureParameter hi hp) fun child t₁ hrun => ?_
    have hi₁ := h.keep_ensureParameter hi hp hrun
    -- All flags of a chain are looked for below its base, which therefore has to stay a place.
    refine related_bind h.trans (h.markEnd c child t₁) fun _ t₂ hmark => ?_
    have hi₂ : Place t₂ i := h.keep hi₁ ((h.markEnd c child).of_ok hmark)
    refine related_bind h.trans (h.shareFlags child t₂ earlier) fun _ t₃ hshare => ?_
    obtain ⟨-, rfl⟩ := EStateM.Result.ok.inj hshare
    exact ih (h.keep hi₂ (h.shareFlags child t₂ earlier)) (earlier ++ [child]) fun q hq =>
      hnamed q (List.mem_cons_of_mem p hq)

/-- A relation that holds along a walk holds for the flag section of a command. -/
theorem growFlags (c : Command α σ) (hi : Place t i) (threshold : Nat)
    (hnamed : ∀ p ∈ flags, p.isNamed = true) :
    R t ((growFlags c i (.ofFlags threshold flags)).after t) := by
  unfold FlagPlan.ofFlags
  split
  · have hrequired (p : Parameter α) (hp : p ∈ Parameter.required flags) : p.isNamed = true :=
      hnamed p (Parameter.mem_required.mp hp).1
    refine related_bind h.trans (h.growRow hi hrequired) fun base t₁ hrow => ?_
    have hbase : Place t₁ base := h.place_of_growRow hi hrequired hrow
    refine related_bind h.trans (h.markEnd c base t₁) fun _ t₂ hmark => ?_
    have hbase₂ : Place t₂ base := h.keep hbase ((h.markEnd c base).of_ok hmark)
    exact h.growChain c hbase₂ [] fun p hp => hnamed p (Parameter.mem_optionals.mp hp).1
  · exact h.growOrders c hi fun order horder p hp =>
      hnamed p ((Parameter.perm_of_mem_flagOrders horder).mem_iff.mp hp)

/-- And for flags before the steps that are left, if there can be any. -/
theorem growFlagsBefore (c : Command α σ) (hi : Place t i) (threshold : Nat)
    (left : List (Step α)) (hnamed : ∀ p ∈ flags, p.isNamed = true) :
    R t ((growFlagsBefore c i (.ofFlags threshold flags) left).after t) := by
  unfold Growth.growFlagsBefore
  split
  · exact h.growFlags c hi threshold hnamed
  · exact h.refl t

end FlagWalk

namespace PathWalk

variable (h : PathWalk Place R)
include h

/-- It holds along a path, by induction on its steps: each of them goes on at a place. -/
theorem growPath {steps : List (Step α)} (c : Command α σ) (hi : Place t i) (threshold : Nat)
    (hnamed : ∀ p ∈ flags, p.isNamed = true) :
    R t ((growPath c (.ofFlags threshold flags) i steps).after t) := by
  induction steps generalizing t i with
  | nil => exact h.growFlags c hi threshold hnamed
  | cons step steps ih =>
    have hflags := h.growFlagsBefore c hi threshold (step :: steps) hnamed
    refine related_bind h.trans hflags fun _ t₁ hrun => ?_
    have hi₁ : Place t₁ i := h.keep hi (after_of_ok hrun ▸ hflags)
    refine related_bind h.trans (h.ensureStep c step hi₁) fun child t₂ hchild => ?_
    exact ih (h.stepPlace c step hi₁ hchild)

/-- A relation that holds along a walk from the root holds for the growth of a command. -/
theorem growCommand (hs : c.Sound) (hroot : Place t root) : R t ((growCommand c).after t) := by
  refine related_bind h.trans (h.refl t) fun t₀ t₁ hget => ?_
  obtain ⟨-, rfl⟩ := EStateM.Result.ok.inj hget
  refine related_bind h.trans (h.ensureStep c (.literal c.name) hroot) fun first t₂ hrun => ?_
  have hchild : Growth.ensureStep c root (.literal c.name) t = .ok first t₂ := hrun
  exact h.growPath c (h.stepPlace c _ hroot hchild) _ hs.named

end PathWalk

end

/-! ## From one change to a growth -/

/-- A relation that holds for each change made for a flag, and from change to change. -/
structure FlagChanges (R : Tree α σ → Tree α σ → Prop) : Prop where
  refl : ∀ t, R t t
  trans : ∀ {t t' t''}, R t t' → R t' t'' → R t t''
  joinPermission : ∀ t i permission, R t (t.joinPermission i permission)
  addFlag : ∀ t i p, R t (t.addFlag i p)
  shareFlag : ∀ child t i, R t (t.shareFlag child i)
  bindCommand : ∀ t i c, R t (t.bindCommand i c)

/-- One that holds for the other changes as well, and does not depend on more than the nodes and
the settings. -/
structure Changes (R : Tree α σ → Tree α σ → Prop) : Prop extends FlagChanges R where
  addLiteral : ∀ t i w permission, R t (t.addLiteral i w permission)
  addArgument : ∀ t i p, R t (t.addArgument i p)
  same : ∀ {t t'}, t'.nodes = t.nodes → t'.settings = t.settings → R t t'

/-- One that holds for a word and an argument where they are looked up first, and does not depend on
more than the nodes and the settings. -/
structure StepChanges (R : Tree α σ → Tree α σ → Prop) : Prop extends FlagChanges R where
  ensureLiteral : ∀ i w permission, Within R (ensureLiteral i w permission)
  ensureArgument : ∀ i p, Within R (ensureArgument i p)
  same : ∀ {t t'}, t'.nodes = t.nodes → t'.settings = t.settings → R t t'

/-- One that holds for the growth of a command. -/
structure CommandChanges (R : Tree α σ → Tree α σ → Prop) : Prop where
  refl : ∀ t, R t t
  trans : ∀ {t t' t''}, R t t' → R t' t'' → R t t''
  growCommand : ∀ {c : Command α σ}, c.Sound → Within R (growCommand c)
  same : ∀ {t t'}, t'.nodes = t.nodes → t'.settings = t.settings → R t t'

namespace FlagChanges

variable {p : Parameter α} {ps flags : List (Parameter α)} (h : FlagChanges R)
include h

/-- Looking for a flag is one of the changes, or none at all. -/
theorem ensureParameter (i : NodeIndex) (hnamed : p.isNamed = true) :
    Within R (ensureParameter i p) := by
  have hrun : Growth.ensureParameter i p = (ensureFlag i p : Growth α σ NodeIndex) := if_pos hnamed
  intro t
  rw [hrun]
  exact ensureFlag_after (h.refl t) (h.joinPermission t · p.permission) (h.addFlag t i p)

/-- Such a relation does not ask where a walk is. -/
theorem walk : FlagWalk (fun _ _ => True) R where
  refl := h.refl
  trans := h.trans
  keep _ _ := trivial
  ensureParameter {t i _} _ hnamed := h.ensureParameter i hnamed t
  place _ _ _ := trivial
  shareFlag := h.shareFlag
  bindCommand := h.bindCommand

/-- Wherever it starts, a row of flags makes only such changes. -/
theorem growRow (i : NodeIndex) (hnamed : ∀ p ∈ ps, p.isNamed = true) :
    Within R (growRow i ps) :=
  fun _ => h.walk.growRow trivial hnamed

/-- Wherever it starts, sharing a node does. -/
theorem shareFlags (child : NodeIndex) (t : Tree α σ) (earlier : List NodeIndex) :
    R t (earlier.foldl (Tree.shareFlag child) t) :=
  h.walk.shareFlags child t earlier

/-- Wherever it starts, a chain does. -/
theorem growChain (c : Command α σ) (base : NodeIndex) (earlier : List NodeIndex)
    (hnamed : ∀ p ∈ ps, p.isNamed = true) : Within R (growChain c base earlier ps) :=
  fun _ => h.walk.growChain c trivial earlier hnamed

/-- Wherever they start, flags before the steps that are left do. -/
theorem growFlagsBefore (c : Command α σ) (i : NodeIndex) (threshold : Nat)
    (left : List (Step α)) (hnamed : ∀ p ∈ flags, p.isNamed = true) :
    Within R (growFlagsBefore c i (.ofFlags threshold flags) left) :=
  fun _ => h.walk.growFlagsBefore c trivial threshold left hnamed

end FlagChanges

namespace Changes

variable (h : Changes R)
include h

/-- Looking for a word joins permissions, adds the word or changes nothing. -/
theorem ensureLiteral (i : NodeIndex) (w : String) (permission : Permission α) :
    Within R (ensureLiteral i w permission) := fun t =>
  ensureLiteral_after (h.refl t) (h.joinPermission t · permission) fun _ =>
    h.addLiteral t i w permission

/-- Looking for an argument joins permissions, adds it or changes nothing. -/
theorem ensureArgument (i : NodeIndex) (p : Parameter α) : Within R (ensureArgument i p) := fun t =>
  ensureArgument_after (h.refl t) (h.joinPermission t · p.permission) fun _ => h.addArgument t i p

/-- What holds wherever a child is added holds where it is looked up first. -/
theorem steps : StepChanges R where
  toFlagChanges := h.toFlagChanges
  ensureLiteral := h.ensureLiteral
  ensureArgument := h.ensureArgument
  same := h.same

/-- A relation that follows from one that holds for all changes holds for them too. -/
theorem imp {R' : Tree α σ → Tree α σ → Prop} (hrefl : ∀ t, R' t t)
    (htrans : ∀ {t t' t''}, R' t t' → R' t' t'' → R' t t'') (himp : ∀ {t t'}, R t t' → R' t t') :
    Changes R' where
  refl := hrefl
  trans := htrans
  joinPermission t i permission := himp (h.joinPermission t i permission)
  addFlag t i p := himp (h.addFlag t i p)
  shareFlag child t i := himp (h.shareFlag child t i)
  bindCommand t i c := himp (h.bindCommand t i c)
  addLiteral t i w permission := himp (h.addLiteral t i w permission)
  addArgument t i p := himp (h.addArgument t i p)
  same hnodes hsettings := himp (h.same hnodes hsettings)

end Changes

namespace StepChanges

variable {c : Command α σ} {steps : List (Step α)} (h : StepChanges R)
include h

/-- So a step of a path, which is one of the three. -/
theorem ensureStep (c : Command α σ) (i : NodeIndex) (step : Step α) :
    Within R (ensureStep c i step) := by
  cases step with
  | literal w => exact h.ensureLiteral i w c.permission
  | parameter p =>
    show Within R (ensureParameter i p)
    by_cases hnamed : p.isNamed = true
    · exact h.toFlagChanges.ensureParameter i hnamed
    · have hrun : ensureParameter i p = (Growth.ensureArgument i p : Growth α σ NodeIndex) :=
        if_neg hnamed
      rw [hrun]
      exact h.ensureArgument i p

/-- A relation that holds for these steps wherever they are taken holds along any walk. -/
theorem walk : PathWalk (fun _ _ => True) R where
  toFlagWalk := h.toFlagChanges.walk
  ensureStep {t i} c step _ := h.ensureStep c i step t
  stepPlace _ _ _ _ := trivial

/-- So it holds for a path, wherever it starts. -/
theorem growPath {flags : List (Parameter α)} (c : Command α σ) (i : NodeIndex) (threshold : Nat)
    (hnamed : ∀ p ∈ flags, p.isNamed = true) :
    Within R (growPath c (.ofFlags threshold flags) i steps) :=
  fun _ => h.walk.growPath c trivial threshold hnamed

/-- The growth of a command is within a relation if each of its steps is. -/
theorem growCommand (hs : c.Sound) : Within R (growCommand c) :=
  fun _ => h.walk.growCommand hs trivial

theorem commands : CommandChanges R where
  refl := h.refl
  trans := h.trans
  growCommand := h.growCommand
  same := h.same

/-- Two relations at once. -/
theorem and {R' : Tree α σ → Tree α σ → Prop} (h' : StepChanges R') :
    StepChanges fun t t' => R t t' ∧ R' t t' where
  refl t := ⟨h.refl t, h'.refl t⟩
  trans hR hR' := ⟨h.trans hR.1 hR'.1, h'.trans hR.2 hR'.2⟩
  joinPermission t i permission :=
    ⟨h.joinPermission t i permission, h'.joinPermission t i permission⟩
  addFlag t i p := ⟨h.addFlag t i p, h'.addFlag t i p⟩
  shareFlag child t i := ⟨h.shareFlag child t i, h'.shareFlag child t i⟩
  bindCommand t i c := ⟨h.bindCommand t i c, h'.bindCommand t i c⟩
  ensureLiteral i w permission t :=
    ⟨h.ensureLiteral i w permission t, h'.ensureLiteral i w permission t⟩
  ensureArgument i p t := ⟨h.ensureArgument i p t, h'.ensureArgument i p t⟩
  same hnodes hsettings := ⟨h.same hnodes hsettings, h'.same hnodes hsettings⟩

end StepChanges

namespace CommandChanges

variable {c : Command α σ} (h : CommandChanges R)
include h

/-- An insertion is within a relation if the growth of its command is. -/
theorem insert (hs : c.Sound) : Within R (insert c) :=
  .bind h.trans (h.growCommand hs) fun _ _ => h.same rfl rfl

/-- And for commands that are inserted one after the other. -/
theorem insertAll {cs : List (Command α σ)} (hcs : ∀ c ∈ cs, c.Sound) :
    Within R (insertAll cs) := by
  induction cs with
  | nil => exact h.refl
  | cons c cs ih =>
    exact .bind h.trans (h.insert (hcs c List.mem_cons_self)) fun _ =>
      ih fun c' hc' => hcs c' (List.mem_cons_of_mem c hc')

/-- So is a registration. -/
theorem register (d : Declaration α σ) : Within R (register d) := by
  intro t
  unfold after
  rw [register_eq]
  cases hbuild : d.build t.nextId with
  | error e => exact h.refl t
  | ok cs =>
    have hsound (c : Command α σ) (hc : c ∈ cs) : c.Sound :=
      Command.Built.sound ⟨d, t.nextId, cs, hbuild, hc⟩
    have hall := h.insertAll hsound { t with nextId := t.nextId + 1 }
    unfold after at hall
    have hfirst : R t { t with nextId := t.nextId + 1 } := h.same rfl rfl
    simp only
    -- A refused insertion leaves what was grown until then, so both ends are the same.
    cases hrun : Growth.insertAll cs { t with nextId := t.nextId + 1 } with
    | ok b t' => rw [hrun] at hall; exact h.trans hfirst hall
    | error e t' => rw [hrun] at hall; exact h.trans hfirst hall

end CommandChanges

/-- What an empty tree has and the growth of a command keeps, every grown tree has. -/
theorem CommandChanges.grown {P : Tree α σ → Prop}
    (h : CommandChanges fun t t' : Tree α σ => P t → P t')
    (hempty : ∀ s : Settings, s.validate = .ok () → P (empty s)) (ht : t.Grown) : P t := by
  induction ht with
  | empty s hs => exact hempty s hs
  | @withHook hook t _ ih =>
    have hsame : P t → P (t.withHook hook) := h.same rfl rfl
    exact hsame ih
  | register d _ ih => exact h.register d _ ih
  | insert hc _ ih => exact h.insert hc.sound _ ih

/-! ## Growth -/

/-- The arguments that a node has stay among them when a new one is placed. -/
theorem grows_addArgument (t : Tree α σ) (i : NodeIndex) (p : Parameter α) :
    t.Grows (t.addArgument i p) := by
  have hplaced := placeArgument_perm p t.nodes.size (t.argumentsOf i)
  let pushed := t.pushNode { label := .parameter p, permission := p.permission }
  let place (n : Tree.Node α σ) : Tree.Node α σ :=
    { n with arguments := placeArgument p t.nodes.size (t.argumentsOf i) }
  have hpush : t.Grows pushed := t.grows_pushNode _
  show t.Grows (pushed.modifyNode i place)
  -- After the new node only the arguments of its parent change, and of these only the order.
  refine hpush.trans (.of_children rfl (by simp) (fun j _ => ?_) (fun j => ?_)
    (fun j l q hl => ?_) (fun j l q hl => ?_) fun j hcommand => ?_)
  · exact label_modifyNode (f := place) (fun _ => rfl) pushed i j
  · rw [node_modifyNode]
    split <;> exact List.Subset.refl _
  · rw [node_modifyNode]
    split <;> exact (mem_flagsOf.mp hl).1
  · obtain ⟨hmem, hq⟩ := mem_argumentsOf.mp hl
    rw [node_modifyNode]
    split
    · rename_i h
      obtain ⟨rfl, _⟩ := h
      show l ∈ placeArgument p t.nodes.size (t.argumentsOf j)
      refine hplaced.mem_iff.mpr ?_
      by_cases hnew : l = t.nodes.size
      · exact hnew ▸ List.mem_cons_self
      · have hj : j ≠ t.nodes.size := by
          rintro rfl
          simp [pushed] at hmem
        rw [node_pushNode_of_ne _ hj] at hmem
        rw [node_pushNode_of_ne _ hnew] at hq
        exact List.mem_cons_of_mem _ (List.mem_map_of_mem (mem_argumentsOf.mpr ⟨hmem, hq⟩))
    · exact hmem
  · rw [node_modifyNode]
    split <;> exact hcommand

/-- A tree has grown, the flags and arguments of every node are still that, and every node is open
to whom it was open. -/
structure Widens (t t' : Tree α σ) : Prop extends t.Grows t' where
  flag : ∀ {i j p}, (j, p) ∈ t.flagsOf i → (j, p) ∈ t'.flagsOf i
  argument : ∀ {i j p}, (j, p) ∈ t.argumentsOf i → (j, p) ∈ t'.argumentsOf i
  allows : ∀ {i principal}, i < t.nodes.size → (t.node i).permission.allows principal = true →
    (t'.node i).permission.allows principal = true

namespace Widens

theorem literal (h : t.Widens t') {w : String} (hj : (w, j) ∈ (t.node i).literals) :
    (w, j) ∈ (t'.node i).literals := by
  have hedge : t.Edge i (.literal w) j := hj
  exact h.edge hedge

theorem trans (h : t.Widens t') (h' : t'.Widens t'') : t.Widens t'' where
  toGrows := h.toGrows.trans h'.toGrows
  flag hj := h'.flag (h.flag hj)
  argument hj := h'.argument (h.argument hj)
  allows hi hallows := h'.allows (Nat.lt_of_lt_of_le hi h.size_le) (h.allows hi hallows)

/-- A tree with the same nodes and settings is no narrower. -/
theorem of_nodes_eq (hnodes : t'.nodes = t.nodes) (hsettings : t'.settings = t.settings) :
    t.Widens t' := by
  have hnode (i : NodeIndex) : t'.node i = t.node i := by simp only [node, hnodes]
  refine ⟨.of_nodes_eq hnodes hsettings, fun {i j p} hj => ?_, fun {i j p} hj => ?_,
    fun {i principal} _ h => by rwa [hnode]⟩
  · rwa [mem_flagsOf, hnode, hnode, ← mem_flagsOf]
  · rwa [mem_argumentsOf, hnode, hnode, ← mem_argumentsOf]

theorem refl (t : Tree α σ) : t.Widens t := of_nodes_eq rfl rfl

/-- The children that are parameters have to go on being listed. -/
theorem of_children (hgrows : t.Grows t')
    (hflag : ∀ i j p, (j, p) ∈ t.flagsOf i → j ∈ (t'.node i).flags)
    (hargument : ∀ i j p, (j, p) ∈ t.argumentsOf i → j ∈ (t'.node i).arguments)
    (hallows : ∀ i principal, i < t.nodes.size → (t.node i).permission.allows principal = true →
      (t'.node i).permission.allows principal = true) : t.Widens t' := by
  have hparameter {j : NodeIndex} {p : Parameter α} (hp : (t.node j).label = .parameter p) :
      (t'.node j).label = .parameter p :=
    (hgrows.label_eq j (lt_of_label_ne_root (by simp [hp]))).trans hp
  refine ⟨hgrows, fun {i j p} h => ?_, fun {i j p} h => ?_,
    fun {i principal} => hallows i principal⟩
  · exact mem_flagsOf.mpr ⟨hflag i j p h, hparameter (mem_flagsOf.mp h).2⟩
  · exact mem_argumentsOf.mpr ⟨hargument i j p h, hparameter (mem_argumentsOf.mp h).2⟩

theorem of_pushNode (t : Tree α σ) (n : Tree.Node α σ) : t.Widens (t.pushNode n) := by
  have hnode {i : NodeIndex} (hi : i < t.nodes.size) : (t.pushNode n).node i = t.node i :=
    node_pushNode_of_ne n (Nat.ne_of_lt hi)
  refine .of_children (t.grows_pushNode n) (fun i j p h => ?_) (fun i j p h => ?_)
    fun i principal hi h => ?_
  · rw [hnode (child_of_mem_flagsOf h).parent_lt]
    exact (mem_flagsOf.mp h).1
  · rw [hnode (child_of_mem_argumentsOf h).parent_lt]
    exact (mem_argumentsOf.mp h).1
  · rwa [hnode hi]

/-- A node whose label, children and permissions stay may be changed. -/
theorem of_modifyNode {f : Tree.Node α σ → Tree.Node α σ} (hlabel : ∀ n, (f n).label = n.label)
    (hkeeps : ∀ n : Tree.Node α σ, n.Keeps (f n))
    (hallows : ∀ (n : Tree.Node α σ) principal, n.permission.allows principal = true →
      (f n).permission.allows principal = true) (t : Tree α σ) (i : NodeIndex) :
    t.Widens (t.modifyNode i f) := by
  refine .of_children (t.grows_modifyNode hlabel fun _ => hkeeps _) (fun k j p h => ?_)
    (fun k j p h => ?_) fun k principal _ h => ?_
  · rw [node_modifyNode]
    split
    · exact (hkeeps _).flags (mem_flagsOf.mp h).1
    · exact (mem_flagsOf.mp h).1
  · rw [node_modifyNode]
    split
    · exact (hkeeps _).arguments (mem_argumentsOf.mp h).1
    · exact (mem_argumentsOf.mp h).1
  · rw [node_modifyNode]
    split
    · exact hallows _ principal h
    · exact h

/-- The arguments of a node keep a place when a new one gets its own. -/
theorem of_addArgument (t : Tree α σ) (i : NodeIndex) (p : Parameter α) :
    t.Widens (t.addArgument i p) := by
  have hplaced := placeArgument_perm p t.nodes.size (t.argumentsOf i)
  have hpush := of_pushNode t { label := .parameter p, permission := p.permission }
  refine .of_children (t.grows_addArgument i p) (fun k j q h => ?_) (fun k j q h => ?_)
    fun k principal hk h => ?_
  all_goals rw [addArgument, node_modifyNode]
  · split <;> exact (mem_flagsOf.mp (hpush.flag h)).1
  · split
    · rename_i hk
      obtain ⟨rfl, _⟩ := hk
      refine hplaced.mem_iff.mpr (List.mem_cons_of_mem _ ?_)
      exact List.mem_map_of_mem h
    · exact (mem_argumentsOf.mp (hpush.argument h)).1
  · split <;> exact hpush.allows hk h

end Widens

/-- Whatever is done to a tree, it widens. -/
theorem changes_widens : Changes (@Widens α σ) where
  refl := .refl
  trans := .trans
  -- A bitwise union of permissions allows whoever either of them allowed.
  joinPermission t i permission := by
    refine .of_modifyNode ?_ ?_ ?_ t i
    · exact fun _ => rfl
    · exact fun n => ⟨List.Subset.refl _, List.Subset.refl _, List.Subset.refl _, id⟩
    · intro n principal h
      rw [Permission.allows_or, h, Bool.true_or]
  addFlag t i p := (Widens.of_pushNode t _).trans <|
    .of_modifyNode (f := fun n => { n with flags := n.flags ++ [t.nodes.size] }) (fun _ => rfl)
      (fun _ => ⟨List.Subset.refl _, List.subset_append_left .., List.Subset.refl _, id⟩)
      (fun _ _ => id) _ i
  shareFlag child t i := by
    unfold shareFlag
    split
    · exact .refl t
    · split
      · exact .refl t
      · exact .of_modifyNode (f := fun n => { n with flags := n.flags ++ [child] }) (fun _ => rfl)
          (fun _ => ⟨List.Subset.refl _, List.subset_append_left .., List.Subset.refl _, id⟩)
          (fun _ _ => id) t i
  -- A second binding replaces the first or is dropped, and the node stays bound either way.
  bindCommand t i c := by
    refine .of_modifyNode (fun n => ?_) (fun n => ?_) (fun n principal h => ?_) t i
    · split <;> rfl
    · split
      · exact ⟨List.Subset.refl _, List.Subset.refl _, List.Subset.refl _, fun _ => rfl⟩
      · exact .refl n
    · split <;> exact h
  addLiteral t i w permission := (Widens.of_pushNode t _).trans <|
    .of_modifyNode (f := fun n => { n with literals := n.literals ++ [(w, t.nodes.size)] })
      (fun _ => rfl)
      (fun _ => ⟨List.subset_append_left .., List.Subset.refl _, List.Subset.refl _, id⟩)
      (fun _ _ => id) _ i
  addArgument := .of_addArgument
  same := .of_nodes_eq

/-- Whatever is done to a tree, it grows. -/
theorem changes_grows : Changes (@Grows α σ) :=
  changes_widens.imp .refl .trans Widens.toGrows

end Tree

namespace Growth

open CommandLine.Tree

/-! ## Commands stay where they are -/

/-- No node has another command than before, and the same commands are listed. -/
structure SameCommands (t t' : Tree α σ) : Prop where
  node : ∀ i, (t'.node i).command = (t.node i).command
  listed : t'.commands = t.commands

theorem SameCommands.refl (t : Tree α σ) : SameCommands t t := ⟨fun _ => rfl, rfl⟩

/-- What two changes leave in place, one after the other, stays in place. -/
theorem SameCommands.trans {t'' : Tree α σ} (h : SameCommands t t') (h' : SameCommands t' t'') :
    SameCommands t t'' :=
  ⟨fun i => (h'.node i).trans (h.node i), h'.listed.trans h.listed⟩

/-- A node that keeps its command may be changed. -/
theorem SameCommands.modifyNode {f : Tree.Node α σ → Tree.Node α σ}
    (hf : ∀ n, (f n).command = n.command) (t : Tree α σ) (i : NodeIndex) :
    SameCommands t (t.modifyNode i f) := by
  refine ⟨fun l => ?_, rfl⟩
  rw [node_modifyNode]
  split
  · exact hf _
  · rfl

/-- A node without a command may be added. -/
theorem SameCommands.pushNode {n : Tree.Node α σ} (hn : n.command = none) (t : Tree α σ) :
    SameCommands t (t.pushNode n) := by
  refine ⟨fun l => ?_, rfl⟩
  by_cases hl : l = t.nodes.size
  · subst hl
    rw [node_pushNode_size, hn, node_of_size_le (Nat.le_refl _)]
  · rw [node_pushNode_of_ne n hl]

theorem SameCommands.joinPermission (t : Tree α σ) (i : NodeIndex) (permission : Permission α) :
    SameCommands t (t.joinPermission i permission) := by
  refine .modifyNode ?_ t i
  intro n
  rfl

/-- A node without a command may be added as a child of another one. -/
theorem SameCommands.add {n : Tree.Node α σ} {f : Tree.Node α σ → Tree.Node α σ}
    (hn : n.command = none) (hf : ∀ n, (f n).command = n.command) (t : Tree α σ)
    (i : NodeIndex) : SameCommands t ((t.pushNode n).modifyNode i f) :=
  (SameCommands.pushNode hn t).trans (.modifyNode hf _ i)

theorem SameCommands.addLiteral (t : Tree α σ) (i : NodeIndex) (w : String)
    (permission : Permission α) : SameCommands t (t.addLiteral i w permission) := by
  refine .add rfl ?_ t i
  intro n
  rfl

end Growth

end CommandLine
