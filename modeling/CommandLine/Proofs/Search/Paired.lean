import Mathlib.Data.List.Forall2
import CommandLine.Proofs.ReportedRejections

/-!
# Readings that go side by side

Two lines, read on one tree or on two, are resolved to the same if their readings come to the same
events one by one (`Event.Paired`): a rejection of the one line goes with a rejection of the other,
and an arrival with an arrival that has the same values. Which of several rejections is reported
depends on the order of their places only, so it is enough that the pairs keep this order
(`Rejection.Ordered`).

* `firstEnding?_paired`, `rejectionsBefore_paired`, `ReportPolicy.choose?_paired` — what ends a
  search and what is reported of it;
* `fillParameters_alike` — what is filled in for omitted parameters;
* `Chart.parse_paired` — what the lines are resolved to.
-/

set_option autoImplicit false

namespace CommandLine

variable {α σ : Type} {C : Command α σ → Command α σ → Prop} {R : Rejection → Rejection → Prop}

/-! ## Pairs -/

/-- The same values for the same principal, whatever the input. -/
structure Context.Alike (ctx ctx' : Context α) : Prop where
  principal_eq : ctx.principal = ctx'.principal
  bindings_eq : ctx.bindings = ctx'.bindings

theorem Context.Alike.bind {ctx ctx' : Context α} (h : ctx.Alike ctx') (name : String)
    (value : Value) : (ctx.bind name value).Alike (ctx'.bind name value) :=
  ⟨h.principal_eq, congrArg (·.insert name value) h.bindings_eq⟩

/-- Pairs of rejections that agree on which of two places is further. -/
def Rejection.Ordered (R : Rejection → Rejection → Prop) : Prop :=
  ∀ r r' g g', R r r' → R g g' → (r.position < g.position ↔ r'.position < g'.position)

/-- Arrivals at a pair of commands with the same values. -/
structure Arrival.Paired (C : Command α σ → Command α σ → Prop) (a a' : Arrival α σ) : Prop where
  command : C a.command a'.command
  context : a.context.Alike a'.context

/-- Events that correspond. -/
inductive Event.Paired (C : Command α σ → Command α σ → Prop) (R : Rejection → Rejection → Prop) :
    Event α σ → Event α σ → Prop
  | rejected {r r' : Rejection} : R r r' → Paired C R (.rejected r) (.rejected r')
  | denied {r r' : Rejection} : R r r' → Paired C R (.denied r) (.denied r')
  | bound {a a' : Arrival α σ} : a.Paired C a' → Paired C R (.bound a) (.bound a')

/-! ## Endings -/

namespace Event

variable {events events' : List (Event α σ)}

/-- How searches end that go through corresponding events. -/
inductive EndsPaired (C : Command α σ → Command α σ → Prop) (R : Rejection → Rejection → Prop) :
    Option (Except Rejection (Arrival α σ)) → Option (Except Rejection (Arrival α σ)) → Prop
  | none : EndsPaired C R none none
  | denied {r r' : Rejection} : R r r' → EndsPaired C R (some (.error r)) (some (.error r'))
  | bound {a a' : Arrival α σ} : a.Paired C a' → EndsPaired C R (some (.ok a)) (some (.ok a'))

theorem firstEnding?_paired (h : List.Forall₂ (Paired C R) events events') :
    EndsPaired C R (firstEnding? events) (firstEnding? events') := by
  induction h with
  | nil => exact .none
  | cons hevent _ ih =>
    cases hevent with
    | rejected => exact ih
    | denied hr => exact .denied hr
    | bound ha => exact .bound ha

theorem rejectionsBefore_paired (h : List.Forall₂ (Paired C R) events events') :
    List.Forall₂ R (rejectionsBefore events) (rejectionsBefore events') := by
  induction h with
  | nil => exact .nil
  | cons hevent _ ih =>
    cases hevent with
    | rejected hr => exact .cons hr ih
    | denied | bound => exact .nil

end Event

/-- A policy chooses a pair among pairs that agree on the order of places. -/
theorem ReportPolicy.choose?_paired (policy : ReportPolicy) (hR : Rejection.Ordered R)
    {rs rs' : List Rejection} (h : List.Forall₂ R rs rs') :
    Option.Rel R (policy.choose? rs) (policy.choose? rs') := by
  cases h with
  | nil => cases policy <;> exact .none
  | @cons f f' fs fs' hf hfs =>
    cases policy with
    | last =>
      refine .some ?_
      induction hfs generalizing f f' with
      | nil => exact hf
      | @cons g g' gs gs' hg _ ih =>
        rw [List.getLastD_cons, List.getLastD_cons]
        exact ih hg
    | furthest =>
      refine .some ?_
      induction hfs generalizing f f' with
      | nil => exact hf
      | @cons g g' gs gs' hg _ ih =>
        rw [List.foldl_cons, List.foldl_cons, if_congr (hR f f' g g' hf hg) rfl rfl]
        -- The related lists switch to the next rejection at the same places.
        by_cases hlt : f'.position < g'.position
        · rw [if_pos hlt, if_pos hlt]
          exact ih hg
        · rw [if_neg hlt, if_neg hlt]
          exact ih hf

/-! ## Omitted parameters -/

variable {ctx ctx' : Context α}

/-- What stands in for an omitted parameter does not depend on the line. -/
theorem omittedValue?_eq {p : Parameter α} (hp : p.Builtin) (ctx ctx' : Context α) :
    omittedValue? p ctx = omittedValue? p ctx' := by
  obtain ⟨b, hb⟩ := hp
  have hparse (c : Cursor) : p.type.parse ctx c = p.type.parse ctx' c := by rw [hb]; rfl
  unfold omittedValue?
  simp only [hparse]

theorem fillParameter_alike {p : Parameter α} (hp : p.Builtin) (h : ctx.Alike ctx') :
    (∃ d d', fillParameter ctx p = .ok d ∧ fillParameter ctx' p = .ok d' ∧ d.Alike d') ∨
      ∃ r, fillParameter ctx p = .error r ∧ fillParameter ctx' p = .error r := by
  unfold fillParameter
  rw [← h.bindings_eq, omittedValue?_eq hp ctx' ctx]
  split
  · exact .inl ⟨ctx, ctx', rfl, rfl, h⟩
  · split
    · rename_i value _
      exact .inl ⟨_, _, rfl, rfl, h.bind p.name value⟩
    · exact .inl ⟨ctx, ctx', rfl, rfl, h⟩
    · rename_i r _
      exact .inr ⟨r, rfl, rfl⟩

/-- The omitted parameters are filled in alike, or the same default is refused. -/
theorem fillParameters_alike {ps : List (Parameter α)} (hps : ∀ p ∈ ps, p.Builtin)
    (h : ctx.Alike ctx') :
    (∃ d d', fillParameters ctx ps = .ok d ∧ fillParameters ctx' ps = .ok d' ∧ d.Alike d') ∨
      ∃ r, fillParameters ctx ps = .error r ∧ fillParameters ctx' ps = .error r := by
  induction ps generalizing ctx ctx' with
  | nil => exact .inl ⟨ctx, ctx', rfl, rfl, h⟩
  | cons p ps ih =>
    unfold fillParameters
    rcases fillParameter_alike (hps p List.mem_cons_self) h with
      ⟨d, d', hd, hd', halike⟩ | ⟨r, hr, hr'⟩
    · rw [hd, hd']
      exact ih (fun q hq => hps q (List.mem_cons_of_mem p hq)) halike
    · rw [hr, hr']
      exact .inr ⟨r, rfl, rfl⟩

/-! ## Lines -/

/-- Two lines are resolved to a pair of commands with the same values, or rejected with a pair of
rejections. A default that its own type refuses is rejected in the same way wherever it stands in
for a value. -/
inductive Resolved.Paired (C : Command α σ → Command α σ → Prop)
    (R : Rejection → Rejection → Prop) :
    Except Rejection (Resolved α σ) → Except Rejection (Resolved α σ) → Prop
  | ok {r r' : Resolved α σ} : C r.command r'.command → r.context.bindings = r'.context.bindings →
      Paired C R (.ok r) (.ok r')
  | rejected {f f' : Rejection} : R f f' → Paired C R (.error f) (.error f')
  | omitted (f : Rejection) : Paired C R (.error f) (.error f)

namespace Tree

variable {t t' : Tree α σ} {principal : α} {line line' : String}

/-- Lines whose readings come to corresponding events are resolved to the same. -/
theorem Chart.parse_paired
    (m : Chart (fun c => c.Built ∧ ∀ p ∈ c.parameters, p.Builtin) t) (m' : Chart Command.Built t')
    (hpolicy : t.settings.policy = t'.settings.policy)
    (hC : ∀ c c', C c c' → c.parameters = c'.parameters) (hR : Rejection.Ordered R)
    (hevents : List.Forall₂ (Event.Paired C R) (t.events (start principal line))
      (t'.events (start principal line'))) :
    Resolved.Paired C R (t.parse principal line) (t'.parse principal line') := by
  let built : Chart Command.Built t := m.mono fun _ hc => hc.1
  have htook := built.took principal line
  have htook' := m'.took principal line'
  have hends := Event.firstEnding?_paired hevents
  generalize hend : Event.firstEnding? (t.events (start principal line)) = found at hends
  generalize hend' : Event.firstEnding? (t'.events (start principal line')) = found' at hends
  have hfound := htook.ending.trans hend
  have hfound' := htook'.ending.trans hend'
  cases hends with
  | none =>
    -- Something was rejected, so what is reported is one of the rejections on either line.
    have hlive : Visit.Live (start principal line) := fun h => nomatch h
    obtain ⟨r, hchoose, _⟩ := t.settings.policy.exists_choose? <|
      Event.rejectionsBefore_ne_nil (built.events_ne_nil built.size_pos hlive) hend
    have hchosen := t.settings.policy.choose?_paired hR (Event.rejectionsBefore_paired hevents)
    rw [hchoose, hpolicy] at hchosen
    generalize hchoose' : t'.settings.policy.choose?
      (Event.rejectionsBefore (t'.events (start principal line'))) = chosen' at hchosen
    cases hchosen with
    | some hr =>
      rw [parse_of_none (Searched.outcome_eq_none hfound),
        parse_of_none (Searched.outcome_eq_none hfound'), reported, reported, htook.rejections,
        htook'.rejections, List.nil_append, List.nil_append, hchoose, hchoose']
      exact .rejected hr
  | denied hr =>
    rw [parse_of_denied (Searched.outcome_eq_error hfound),
      parse_of_denied (Searched.outcome_eq_error hfound')]
    exact .rejected hr
  | @bound a a' ha =>
    obtain ⟨hout, _, hcontext⟩ := Searched.outcome_eq_ok hfound
    obtain ⟨hout', _, hcontext'⟩ := Searched.outcome_eq_ok hfound'
    obtain ⟨_, haccepts⟩ := built.exists_reading hout
    have hparameters := (m.known_of_accepts haccepts).2
    rw [parse_of_found hout, parse_of_found hout', ← hcontext, ← hcontext', ← hC _ _ ha.command]
    rcases fillParameters_alike hparameters ha.context with
      ⟨d, d', hd, hd', halike⟩ | ⟨r, hr, hr'⟩
    · rw [hd, hd']
      exact .ok ha.command halike.bindings_eq
    · rw [hr, hr']
      exact .omitted r

end Tree

end CommandLine
