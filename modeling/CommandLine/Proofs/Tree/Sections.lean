import Mathlib.Data.List.Nodup
import Mathlib.Data.List.Perm.Subperm
import CommandLine.Tree.Growth

/-!
# Flag sections

Behind its words and arguments a line gives flags. Which flags, and in which order, is what the plan
of the command says: all the required ones, then some of the optional ones. Within the threshold the
order is free on both sides (`Parameter.Admits`); in a chain both sides keep the order of the
declaration. Either way no flag comes twice.

* `FlagPlan.allows_ofFlags_iff` — the sections allowed within the threshold;
* `FlagPlan.Allows.exists_left` — a section is part of the command's flags;
* `FlagPlan.allows_exchange` — what may follow a flag of a chain does not depend on what came
  before it.
-/

set_option autoImplicit false

namespace CommandLine

variable {α : Type} {flags given : List (Parameter α)} {p : Parameter α}

/-- Flags as a line may give them where every order has its own path: all the required ones, then
some of the optional ones, none of them twice. -/
def Parameter.Admits (flags given : List (Parameter α)) : Prop :=
  ∃ first last, given = first ++ last ∧ first.Perm (required flags) ∧ last.Nodup ∧
    last ⊆ optionals flags

/-- A required flag is one that may not be left out. -/
theorem Parameter.mem_required : p ∈ required flags ↔ p ∈ flags ∧ p.isOptional = false := by
  simp [required]

theorem Parameter.mem_optionals : p ∈ optionals flags ↔ p ∈ flags ∧ p.isOptional = true := by
  simp [optionals]

/-- A start of an order of the flags behind which only optional flags are left. -/
theorem Parameter.exists_mem_flagOrders_iff (hnodup : flags.Nodup) :
    (∃ left, given ++ left ∈ flagOrders flags ∧ ∀ p ∈ left, p.isOptional = true) ↔
      Admits flags given := by
  constructor
  · rintro ⟨left, horder, hleft⟩
    obtain ⟨first, last, heq, hfirst, hlast⟩ := mem_flagOrders.mp horder
    -- No required flag is left, so the cut is behind the required flags.
    obtain ⟨early, rfl, rfl⟩ : ∃ early, given = first ++ early ∧ last = early ++ left := by
      rcases List.append_eq_append_iff.mp heq with ⟨late, hfirst', hleft'⟩ | ⟨early, hgiven, hlast'⟩
      · have hnone : late = [] := by
          rw [List.eq_nil_iff_forall_not_mem]
          intro p hp
          have hoptional := hleft p (hleft' ▸ List.mem_append_left _ hp)
          have hrequired := hfirst.mem_iff.mp (hfirst' ▸ List.mem_append_right _ hp)
          rw [(mem_required.mp hrequired).2] at hoptional
          cases hoptional
        subst hnone
        exact ⟨[], by simpa using hfirst'.symm, by simpa using hleft'.symm⟩
      · exact ⟨early, hgiven, hlast'⟩
    have hlastNodup : (early ++ left).Nodup := hlast.nodup_iff.mpr (hnodup.filter _)
    refine ⟨first, early, rfl, hfirst, (List.nodup_append.mp hlastNodup).1, ?_⟩
    intro p hp
    exact hlast.mem_iff.mp (List.mem_append_left _ hp)
  · rintro ⟨first, last, rfl, hfirst, hlast, hsub⟩
    obtain ⟨early, hearly, hsublist⟩ := List.subperm_of_subset hlast hsub
    obtain ⟨left, hleft⟩ := hsublist.exists_perm_append
    refine ⟨left, ?_, ?_⟩
    · rw [List.append_assoc]
      exact mem_flagOrders.mpr
        ⟨first, last ++ left, rfl, hfirst, (hleft.trans (hearly.append_right left)).symm⟩
    · intro p hp
      exact (mem_optionals.mp (hleft.mem_iff.mpr (List.mem_append_right _ hp))).2

namespace FlagPlan

variable {plan : FlagPlan α} {threshold : Nat} {rest : List (Parameter α)}

/-- The flags that a plan lets a line give, in their order. -/
def Allows : FlagPlan α → List (Parameter α) → Prop
  | .orders paths, given => ∃ left, given ++ left ∈ paths ∧ ∀ p ∈ left, p.isOptional = true
  | .chain required optionals, given => ∃ last, given = required ++ last ∧ last.Sublist optionals

/-- The flags with which a section may begin. -/
def Begins (plan : FlagPlan α) (given : List (Parameter α)) : Prop :=
  ∃ rest, plan.Allows (given ++ rest)

/-- What may be given begins something that may be given. -/
theorem Allows.begins (h : plan.Allows given) : plan.Begins given := ⟨[], by simpa using h⟩

/-- So does the beginning of what begins something. -/
theorem Begins.of_append (h : plan.Begins (given ++ rest)) : plan.Begins given := by
  obtain ⟨later, h⟩ := h
  exact ⟨rest ++ later, by rwa [← List.append_assoc]⟩

/-- The sections allowed within the threshold. -/
theorem allows_ofFlags_iff (hnodup : flags.Nodup) (h : flags.length ≤ threshold) :
    (ofFlags threshold flags).Allows given ↔ Parameter.Admits flags given := by
  rw [ofFlags, if_neg (Nat.not_lt.mpr h)]
  exact Parameter.exists_mem_flagOrders_iff hnodup

/-- The required flags in the order of their declaration make a section. -/
theorem allows_required (threshold : Nat) (flags : List (Parameter α)) :
    (ofFlags threshold flags).Allows (Parameter.required flags) := by
  unfold ofFlags
  split
  · exact ⟨[], (List.append_nil _).symm, List.nil_sublist _⟩
  · refine ⟨Parameter.optionals flags, ?_, fun p hp => (Parameter.mem_optionals.mp hp).2⟩
    exact Parameter.mem_flagOrders.mpr ⟨_, _, rfl, .refl _, .refl _⟩

/-- A section is part of the flags. -/
theorem Allows.exists_left (h : (ofFlags threshold flags).Allows given) :
    ∃ left, (given ++ left).Perm flags ∧ ∀ p ∈ left, p.isOptional = true := by
  unfold ofFlags at h
  split at h
  · obtain ⟨last, rfl, hlast⟩ := h
    obtain ⟨left, hleft⟩ := hlast.exists_perm_append
    refine ⟨left, ?_, ?_⟩
    · rw [List.append_assoc]
      exact (hleft.symm.append_left _).trans (Parameter.required_append_optionals_perm flags)
    · intro p hp
      exact (Parameter.mem_optionals.mp (hleft.mem_iff.mpr (List.mem_append_right _ hp))).2
  · obtain ⟨left, horder, hleft⟩ := h
    exact ⟨left, Parameter.perm_of_mem_flagOrders horder, hleft⟩

/-- Only flags of the command begin it. -/
theorem Begins.subset (h : (ofFlags threshold flags).Begins given) : given ⊆ flags := by
  obtain ⟨rest, h⟩ := h
  obtain ⟨left, hperm, _⟩ := h.exists_left
  intro p hp
  exact hperm.mem_iff.mp (List.mem_append_left _ (List.mem_append_left _ hp))

theorem Allows.subset (h : (ofFlags threshold flags).Allows given) : given ⊆ flags :=
  h.begins.subset

/-- A section has every required flag. -/
theorem Allows.mem_of_required (h : (ofFlags threshold flags).Allows given) (hp : p ∈ flags)
    (hrequired : p.isOptional = false) : p ∈ given := by
  obtain ⟨left, hperm, hleft⟩ := h.exists_left
  refine (List.mem_append.mp (hperm.mem_iff.mpr hp)).resolve_right ?_
  intro hmem
  rw [hleft p hmem] at hrequired
  cases hrequired

/-- What tells flags apart tells those of a section apart. -/
theorem Allows.nodup_map {β : Type} {f : Parameter α → β}
    (h : (ofFlags threshold flags).Allows given) (hnodup : (flags.map f).Nodup) :
    (given.map f).Nodup := by
  obtain ⟨left, hperm, _⟩ := h.exists_left
  have hall : ((given ++ left).map f).Nodup := (hperm.map f).nodup_iff.mpr hnodup
  rw [List.map_append] at hall
  exact (List.nodup_append.mp hall).1

/-! ## Chains -/

/-- An element of a list without repetitions says where the list is cut. -/
theorem eq_of_append_cons_eq {β : Type} {x : β} {us vs us' vs' : List β}
    (hnodup : (us ++ x :: vs).Nodup) (h : us ++ x :: vs = us' ++ x :: vs') :
    us = us' ∧ vs = vs' := by
  rw [h, List.nodup_middle, List.nodup_cons, List.mem_append, not_or] at hnodup
  obtain ⟨hus, _, hvs⟩ := (List.append_cons_inj_of_notMem hnodup.1.1 hnodup.1.2).mp h.symm
  exact ⟨hus.symm, hvs.symm⟩

/-- The parts of a sublist around one of its elements. -/
theorem exists_of_append_cons_sublist {β : Type} {x : β} {us vs xs : List β}
    (h : (us ++ x :: vs).Sublist xs) :
    ∃ before after, xs = before ++ x :: after ∧ us.Sublist before ∧ vs.Sublist after := by
  obtain ⟨xs₁, xs₂, rfl, hus, hlate⟩ := List.append_sublist_iff.mp h
  obtain ⟨mid, after, rfl, hmem, hvs⟩ := List.cons_sublist_iff.mp hlate
  obtain ⟨early, late, rfl⟩ := List.append_of_mem hmem
  exact ⟨xs₁ ++ early, late ++ after, by simp, hus.trans (List.sublist_append_left ..),
    hvs.trans (List.sublist_append_right ..)⟩

/-- What may follow a flag of a chain does not depend on what came before it. -/
theorem allows_exchange {required optionals us us' vs vs' : List (Parameter α)}
    (hnodup : (required ++ optionals).Nodup)
    (h : (chain required optionals).Allows (us ++ p :: vs))
    (h' : (chain required optionals).Allows (us' ++ p :: vs')) :
    (chain required optionals).Allows (us' ++ p :: vs) := by
  obtain ⟨last, heq, hlast⟩ := h
  obtain ⟨last', heq', hlast'⟩ := h'
  have hsection {last : List (Parameter α)} (hlast : last.Sublist optionals) :
      (required ++ last).Nodup := (hlast.append_left required).nodup hnodup
  by_cases hp : p ∈ required
  · -- A required flag has the same flags before it in every section.
    obtain ⟨before, after, rfl⟩ := List.append_of_mem hp
    have hbefore {us vs last : List (Parameter α)} (hlast : last.Sublist optionals)
        (heq : us ++ p :: vs = (before ++ p :: after) ++ last) : us = before := by
      have hnodup := heq ▸ hsection hlast
      exact (eq_of_append_cons_eq hnodup (by rw [heq, List.append_assoc, List.cons_append])).1
    obtain rfl := hbefore hlast heq
    obtain rfl := hbefore hlast' heq'
    exact ⟨last, heq, hlast⟩
  · -- An optional one stands at its own place among the optional ones.
    have hcut {us vs last : List (Parameter α)} (hlast : last.Sublist optionals)
        (heq : us ++ p :: vs = required ++ last) :
        ∃ early, us = required ++ early ∧ (early ++ p :: vs).Sublist optionals := by
      rcases List.append_eq_append_iff.mp heq with ⟨late, hreq, hcons⟩ | ⟨early, hus, hcons⟩
      · cases late with
        | nil =>
          refine ⟨[], by simpa using hreq.symm, ?_⟩
          rw [List.nil_append] at hcons ⊢
          exact hcons ▸ hlast
        | cons q late =>
          obtain ⟨rfl, _⟩ := List.cons.inj hcons
          exact absurd (hreq ▸ List.mem_append_right _ List.mem_cons_self) hp
      · exact ⟨early, hus, hcons ▸ hlast⟩
    obtain ⟨early, rfl, hsub⟩ := hcut hlast heq
    obtain ⟨early', rfl, hsub'⟩ := hcut hlast' heq'
    obtain ⟨before, after, rfl, _, hvs⟩ := exists_of_append_cons_sublist hsub
    obtain ⟨before', after', hoptionals, hearly', _⟩ := exists_of_append_cons_sublist hsub'
    obtain ⟨rfl, rfl⟩ := eq_of_append_cons_eq (List.nodup_append.mp hnodup).2.1 hoptionals
    exact ⟨early' ++ p :: vs, List.append_assoc .., hearly'.append (hvs.cons_cons p)⟩

end FlagPlan

end CommandLine
