import CommandLine.Proofs.SharedNodes

/-!
# Declared defaults

A default is kept as text and read by the type of its parameter only when a line leaves the
parameter out. A default that its type rejects is therefore found by the first line that needs it:
the line is rejected as the type rejects the default, attributed to the parameter. All other
omissions are harmless.

* `fillParameters_cases` — what comes of filling in parameters, one after the other;
* `omitted_default_read` — what a line comes to that leaves parameters out.
-/

set_option autoImplicit false

namespace CommandLine

variable {α σ : Type}

namespace Parameter

/-- A parameter with a default to which no value was given. -/
structure Omitted (p : Parameter α) (ctx : Context α) (text : String) : Prop where
  missing : ctx.bindings.contains p.name = false
  default_eq : p.default = some text

/-- What the type of a parameter makes of a text, whatever else is known. -/
def Yields (p : Parameter α) (text : String) (answer : Except Rejection Value) : Prop :=
  ∀ ctx, (p.type.parse ctx (Cursor.ofString text)).1 = answer

variable {p : Parameter α} {ctx ctx' : Context α} {text : String}

/-- A built-in type does not ask what else is known. -/
theorem exists_yields (hp : ∃ b : BuiltinType, p.type = b.toValueType) (text : String) :
    ∃ answer, p.Yields text answer := by
  obtain ⟨b, hb⟩ := hp
  exact ⟨(b.parse (Cursor.ofString text)).1, fun ctx => by rw [hb]; rfl⟩

theorem Yields.unique {answer answer' : Except Rejection Value} (h : p.Yields text answer)
    (h' : p.Yields text answer') (ctx : Context α) : answer = answer' :=
  (h ctx).symm.trans (h' ctx)

/-- Whether a parameter is omitted depends on the value of its own name only. -/
theorem Omitted.congr (h : p.Omitted ctx text)
    (hget : ctx'.bindings.get? p.name = ctx.bindings.get? p.name) : p.Omitted ctx' text where
  missing := by rw [← Bindings.isSome_get?, hget, Bindings.isSome_get?, h.missing]
  default_eq := h.default_eq

/-- Its default can be read, and its name has that value. -/
def Filled (p : Parameter α) (ctx ctx' : Context α) : Prop :=
  ∀ text, p.Omitted ctx text →
    ∃ value, p.Yields text (.ok value) ∧ ctx'.bindings.get? p.name = some value

end Parameter

section Filling

variable {p : Parameter α} {ps : List (Parameter α)} {ctx : Context α}

/-- Filling in one parameter either gives it the value of its default, if it is omitted, or is
rejected as its type rejects the default. -/
theorem fillParameter_cases (hp : ∃ b : BuiltinType, p.type = b.toValueType) (ctx : Context α) :
    (∃ ctx', fillParameter ctx p = .ok ctx' ∧ p.Filled ctx ctx') ∨
      ∃ text r, p.Omitted ctx text ∧ p.Yields text (.error r) ∧
        fillParameter ctx p = .error (r.atNode p.name) := by
  unfold fillParameter
  by_cases hcontains : ctx.bindings.contains p.name = true
  · refine .inl ⟨ctx, if_pos hcontains, fun text homitted => ?_⟩
    rw [homitted.missing] at hcontains
    cases hcontains
  · rw [if_neg hcontains]
    cases hdefault : p.default with
    -- Without a declared text nothing was omitted in the sense meant here, whatever is stored.
    | none =>
      have hfilled (ctx' : Context α) : p.Filled ctx ctx' := by
        intro text homitted
        rw [homitted.default_eq] at hdefault
        cases hdefault
      left
      simp only [omittedValue?, hdefault]
      split
      · exact ⟨_, rfl, hfilled _⟩
      · exact ⟨_, rfl, hfilled _⟩
      · rename_i herror
        cases herror
    | some text =>
      have homitted : p.Omitted ctx text := ⟨by simpa using hcontains, hdefault⟩
      obtain ⟨answer, hyields⟩ := p.exists_yields hp text
      simp only [omittedValue?, hdefault, hyields ctx]
      cases answer with
      | error r => exact .inr ⟨text, r, homitted, hyields, rfl⟩
      | ok value =>
        refine .inl ⟨_, rfl, fun text' homitted' => ?_⟩
        obtain rfl := Option.some.inj (hdefault.symm.trans homitted'.default_eq)
        exact ⟨value, hyields, Bindings.get?_insert_self _ _ _⟩

/-- Filling in parameters gives every omitted one the value of its default, or is rejected as a type
rejects its default, the first of those that are rejected. -/
theorem fillParameters_cases (hps : ∀ p ∈ ps, ∃ b : BuiltinType, p.type = b.toValueType)
    (hnodup : (ps.map Parameter.name).Nodup) (ctx : Context α) :
    (∃ ctx', fillParameters ctx ps = .ok ctx' ∧ ∀ p ∈ ps, p.Filled ctx ctx') ∨
      ∃ before p after text r, ps = before ++ p :: after ∧ p.Omitted ctx text ∧
        p.Yields text (.error r) ∧ fillParameters ctx ps = .error (r.atNode p.name) ∧
        ∀ q ∈ before, ∀ text, q.Omitted ctx text → ∃ value, q.Yields text (.ok value) := by
  induction ps generalizing ctx with
  | nil => exact .inl ⟨ctx, rfl, fun _ hp => absurd hp List.not_mem_nil⟩
  | cons p ps ih =>
    obtain ⟨hp, hps⟩ := List.forall_mem_cons.mp hps
    rw [List.map_cons, List.nodup_cons] at hnodup
    have hne (q : Parameter α) (hq : q ∈ ps) : q.name ≠ p.name := by
      intro heq
      exact hnodup.1 (heq ▸ List.mem_map_of_mem hq)
    rcases fillParameter_cases hp ctx with
      ⟨ctx₁, hfill, hfilled⟩ | ⟨text, r, homitted, hyields, hfill⟩
    · -- Filling in `p` leaves the names of the others alone, so the same ones are omitted.
      have hget (q : Parameter α) (hq : q ∈ ps) :
          ctx₁.bindings.get? q.name = ctx.bindings.get? q.name :=
        get?_of_fillParameter hfill (.inl (hne q hq))
      have hlater : fillParameters ctx (p :: ps) = fillParameters ctx₁ ps := by
        rw [fillParameters, hfill]
      rw [hlater]
      rcases ih hps hnodup.2 ctx₁ with
        ⟨ctx', hfills, hall⟩ | ⟨before, q, after, text, r, rfl, homitted, hyields, hfills, hbefore⟩
      · refine .inl ⟨ctx', hfills, fun q hq text homitted => ?_⟩
        rcases List.mem_cons.mp hq with rfl | hq
        · obtain ⟨value, hyields, hvalue⟩ := hfilled text homitted
          refine ⟨value, hyields, ?_⟩
          rw [get?_of_fillParameters hfills (.inl fun q' hq' => (hne q' hq').symm), hvalue]
        · exact hall q hq text (homitted.congr (hget q hq))
      · refine .inr ⟨p :: before, q, after, text, r, rfl, ?_, hyields, hfills, ?_⟩
        · exact homitted.congr (hget q (by simp)).symm
        · intro q' hq' text' homitted'
          rcases List.mem_cons.mp hq' with rfl | hq'
          · exact (hfilled text' homitted').imp fun _ h => h.1
          · exact hbefore q' hq' text' (homitted'.congr (hget q' (by simp [hq'])))
    · refine .inr ⟨[], p, ps, text, r, rfl, homitted, hyields, ?_, ?_⟩
      · rw [fillParameters, hfill]
      · exact fun _ hq => absurd hq List.not_mem_nil

end Filling

namespace Tree

variable {t : Tree α σ} {principal : α} {line : String} {c : Command α σ}

/-- The command that a search finds is registered. -/
theorem Populated.mem_commands (h : t.Populated)
    (hbound : (t.search (start principal line)).outcome = some (.ok c)) : c ∈ t.commands := by
  obtain ⟨m⟩ := h.charted.chart
  obtain ⟨given, haccepts⟩ := h.grown.exists_accepts hbound
  exact m.known_of_accepts haccepts

/-- **What comes of declared defaults.** Let a search on a populated tree of built-in types end at a
command, and call a parameter of the command omitted if it has a default and its name got no value.

* The line resolves exactly if the default of every omitted parameter is one that its type reads;
* it then resolves to the command, and the name of every omitted parameter has the value that the
  parameter's type reads in its default;
* otherwise it is rejected as the type rejects the default of the first omitted parameter whose
  default is rejected, attributed to that parameter. -/
theorem omitted_default_read (h : t.Populated) (hbuiltin : t.BuiltinOnly)
    (hbound : (t.search (start principal line)).outcome = some (.ok c)) :
    ((∃ r, t.parse principal line = .ok r) ↔ ∀ p ∈ c.parameters, ∀ text,
        p.Omitted (t.search (start principal line)).context text →
          ∃ value, p.Yields text (.ok value)) ∧
      (∀ r, t.parse principal line = .ok r → r.command = c ∧ ∀ p ∈ c.parameters, ∀ text,
        p.Omitted (t.search (start principal line)).context text →
          ∃ value, p.Yields text (.ok value) ∧ r.context.bindings.get? p.name = some value) ∧
      ∀ e, t.parse principal line = .error e → ∃ before p after text r,
        c.parameters = before ++ p :: after ∧
          p.Omitted (t.search (start principal line)).context text ∧
          p.Yields text (.error r) ∧ e = r.atNode p.name ∧
          ∀ q ∈ before, ∀ text, q.Omitted (t.search (start principal line)).context text →
            ∃ value, q.Yields text (.ok value) := by
  have hc := h.mem_commands hbound
  have hnodup := (h.charted.built c hc).sound.names_nodup
  rw [parse_of_found hbound]
  -- Filling goes down the parameters in order and stops at the first default that is refused.
  rcases fillParameters_cases (hbuiltin c hc) hnodup (t.search (start principal line)).context with
    ⟨ctx', hfill, hall⟩ | ⟨before, p, after, text, r, hsplit, homitted, hyields, hfill, hbefore⟩
  · rw [hfill]
    refine ⟨iff_of_true ⟨_, rfl⟩ ?_, ?_, nofun⟩
    · intro p hp text homitted
      exact (hall p hp text homitted).imp fun _ h => h.1
    · intro r hr
      obtain rfl := Except.ok.inj hr
      exact ⟨rfl, hall⟩
  · rw [hfill]
    refine ⟨iff_of_false nofun ?_, nofun, ?_⟩
    · intro hreadable
      have hp : p ∈ c.parameters := hsplit ▸ List.mem_append_right _ List.mem_cons_self
      obtain ⟨value, hvalue⟩ := hreadable p hp text homitted
      cases hvalue.unique hyields (t.search (start principal line)).context
    · intro e he
      obtain rfl := Except.error.inj he
      exact ⟨before, p, after, text, r, hsplit, homitted, hyields, rfl, hbefore⟩

/-- Two commands with defaults. No number is read in the first one. -/
def stallTree : Tree Unit Unit :=
  (Growth.register spawn).after ((Growth.register give).after (empty {}))
where
  amount : Parameter Unit := Parameter.withDefault (.ofBuiltin "amount" (.integer none none)) "many"
  count : Parameter Unit := Parameter.withDefault (.ofBuiltin "count" (.integer none none)) "3"
  give : Declaration Unit Unit := { name := "give", steps := [.parameter amount] }
  spawn : Declaration Unit Unit :=
    { name := "spawn"
      steps := [.parameter (.ofBuiltin "mob" (.word none none)), .parameter count] }

theorem populated_stallTree : stallTree.Populated := by
  unfold stallTree
  exact .register_after (.register_after (.empty {} (by decide)) (by decide +kernel))
    (by decide +kernel)

theorem commands_stallTree : stallTree.commands =
    #[stallTree.give.command 0 "give", stallTree.spawn.command 1 "spawn"] := rfl

theorem builtinOnly_stallTree : stallTree.BuiltinOnly := by
  intro c hc p hp
  rw [commands_stallTree] at hc
  rcases (by simpa using hc : _ ∨ _) with rfl | rfl
  · obtain rfl := List.mem_singleton.mp hp
    exact ⟨_, rfl⟩
  · rcases List.mem_cons.mp hp with rfl | hp
    · exact ⟨_, rfl⟩
    · obtain rfl := List.mem_singleton.mp hp
      exact ⟨_, rfl⟩

/-- The commands of the tree have ids of their own, so a search that ends at an id ends at its
command. -/
theorem outcome_stallTree {line : String} {c : Command Unit Unit} (hc : c ∈ stallTree.commands)
    (hfound : ∃ e ∈ (stallTree.search (start () line)).outcome, ∃ c', e = .ok c' ∧ c'.id = c.id) :
    (stallTree.search (start () line)).outcome = some (.ok c) := by
  obtain ⟨e, he, c', rfl, hid⟩ := hfound
  have hc' := populated_stallTree.mem_commands he
  simp only [commands_stallTree, List.mem_toArray, List.mem_cons, List.not_mem_nil, or_false]
    at hc hc'
  rw [he]
  rcases hc with rfl | rfl <;> rcases hc' with rfl | rfl <;> first | rfl | cases hid

/-- A default that its type does not read turns a line into a failure that finds its command. -/
theorem default_unread :
    stallTree.Populated ∧ stallTree.BuiltinOnly ∧
      ∃ c, (stallTree.search (start () "give")).outcome = some (.ok c) ∧
        (∃ p ∈ c.parameters,
          p.Omitted (stallTree.search (start () "give")).context "many") ∧
        ∀ r, stallTree.parse () "give" ≠ .ok r := by
  refine ⟨populated_stallTree, builtinOnly_stallTree, stallTree.give.command 0 "give",
    outcome_stallTree (by simp [commands_stallTree]) (by decide +kernel),
    ⟨stallTree.amount, List.mem_singleton.mpr rfl, by decide +kernel, rfl⟩, fun r hr => ?_⟩
  have hrejected : ∃ e, stallTree.parse () "give" = .error e ∧ e.node = some "amount" := by
    decide +kernel
  obtain ⟨e, he, _⟩ := hrejected
  cases hr.symm.trans he

/-- One that its type reads is the value of the omitted parameter. -/
theorem omitted_default_read_stallTree :
    stallTree.Populated ∧ stallTree.BuiltinOnly ∧
      (stallTree.search (start () "spawn bat")).outcome =
        some (.ok (stallTree.spawn.command 1 "spawn")) ∧
      ∃ r, stallTree.parse () "spawn bat" = .ok r ∧
        r.context.bindings.get? "count" = some (.integer 3) := by
  have hbound : (stallTree.search (start () "spawn bat")).outcome =
      some (.ok (stallTree.spawn.command 1 "spawn")) :=
    outcome_stallTree (by simp [commands_stallTree]) (by decide +kernel)
  obtain ⟨_, hvalues, _⟩ := omitted_default_read populated_stallTree builtinOnly_stallTree hbound
  have hparse : ∃ r, stallTree.parse () "spawn bat" = .ok r ∧ r.command.id = 1 := by
    decide +kernel
  obtain ⟨r, hr, _⟩ := hparse
  have homitted : stallTree.count.Omitted (stallTree.search (start () "spawn bat")).context "3" :=
    ⟨by decide +kernel, rfl⟩
  obtain ⟨value, hyields, hvalue⟩ :=
    (hvalues r hr).2 stallTree.count (List.mem_cons_of_mem _ List.mem_cons_self) "3" homitted
  have hthree : stallTree.count.Yields "3" (.ok (.integer 3)) := fun _ => rfl
  obtain rfl := Except.ok.inj (hyields.unique hthree r.context)
  exact ⟨populated_stallTree, builtinOnly_stallTree, hbound, r, hr, hvalue⟩

end Tree

end CommandLine
