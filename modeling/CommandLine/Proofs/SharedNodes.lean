import Mathlib.Data.List.Nodup
import CommandLine.Proofs.Received

/-!
# Values read at shared nodes

Arguments of one name share a node if their types agree in kind, priority and appetite, and so do
flags of one long name. The node keeps the parameter that made it, and reads by that one's type,
whichever command a line resolves to in the end. So a value has the kind that the command declared,
but it need not be one that the command's own parameter would have read: bounds, lengths and choices
are those of the node.

* `BuiltinType.kind_of_parse` — built-in types read values of their kind;
* `Passed.exists_maker` — whose parameter an argument's node keeps;
* `value_read_at_shared_node` — whose type read a value, and what it shares with the parameter of
  the command.
-/

set_option autoImplicit false

namespace CommandLine

variable {α σ : Type}

namespace BuiltinType

theorem exists_of_checked_eq_ok {β : Type} {start after : Cursor} {read : Reading β}
    {accept : β → Except Cause Value} {value : Value}
    (h : checked start read accept = (.ok value, after)) : ∃ x, accept x = .ok value :=
  (checked_eq_ok_iff.mp h).imp fun _ hx => hx.2

/-- A built-in type reads values of its kind. -/
theorem kind_of_parse {b : BuiltinType} {c after : Cursor} {value : Value}
    (h : b.parse c = (.ok value, after)) : value.kind = b.traits.kind := by
  -- A type accepts only values that it makes itself, and these are of its kind.
  cases b with
  | choice choices caseSensitive =>
    obtain ⟨w, haccept⟩ := exists_of_checked_eq_ok h
    unfold acceptChoice at haccept
    split at haccept
    · exact Except.ok.inj haccept ▸ rfl
    · cases haccept
  | truth =>
    rw [parse] at h
    obtain ⟨b, haccept⟩ := exists_of_checked_eq_ok h
    exact Except.ok.inj haccept ▸ rfl
  | integer least greatest =>
    obtain ⟨n, haccept⟩ := exists_of_checked_eq_ok h
    unfold acceptInteger at haccept
    simp only at haccept
    split at haccept
    · cases haccept
    · exact Except.ok.inj haccept ▸ rfl
  | decimal least greatest =>
    obtain ⟨x, haccept⟩ := exists_of_checked_eq_ok h
    unfold acceptDecimal at haccept
    simp only at haccept
    split at haccept
    · cases haccept
    · exact Except.ok.inj haccept ▸ rfl
  | word least greatest =>
    obtain ⟨w, haccept⟩ := exists_of_checked_eq_ok h
    unfold acceptWord at haccept
    simp only at haccept
    split at haccept
    · cases haccept
    · exact Except.ok.inj haccept ▸ rfl
  | greedy =>
    rw [parse] at h
    obtain ⟨s, haccept⟩ := exists_of_checked_eq_ok h
    exact Except.ok.inj haccept ▸ rfl

/-- A whole number lies within the bounds of the type that read it. -/
theorem bounds_of_parse {least greatest : Int} {c after : Cursor} {value : Value}
    (h : (integer (some least) (some greatest)).parse c = (.ok value, after)) :
    ∃ n, value = .integer n ∧ least ≤ n ∧ n ≤ greatest := by
  obtain ⟨n, haccept⟩ := exists_of_checked_eq_ok h
  unfold acceptInteger at haccept
  simp only [Option.getD_some] at haccept
  split at haccept
  · cases haccept
  · rename_i hbounds
    simp only [Bool.or_eq_true, decide_eq_true_eq, not_or, Int.not_lt] at hbounds
    exact ⟨n, (Except.ok.inj haccept).symm, hbounds⟩

/-- A word is of a length within the bounds of the type that read it. -/
theorem length_of_parse {least greatest : Nat} {c after : Cursor} {value : Value}
    (h : (word (some least) (some greatest)).parse c = (.ok value, after)) :
    ∃ w, value = .text w ∧ least ≤ w.length ∧ w.length ≤ greatest := by
  obtain ⟨w, haccept⟩ := exists_of_checked_eq_ok h
  unfold acceptWord at haccept
  simp only [Option.getD_some] at haccept
  split at haccept
  · cases haccept
  · rename_i hbounds
    simp only [Bool.or_eq_true, decide_eq_true_eq, not_or, Nat.not_lt] at hbounds
    exact ⟨w, (Except.ok.inj haccept).symm, hbounds⟩

end BuiltinType

/-- A command passes what is in front of a step on its way, and the step stands for one of its
own. -/
theorem Command.Passes.exists_step {c : Command α σ} {k : Nat} {way later : List (Step α)}
    {s : Step α} (h : c.Passes k (way ++ s :: later)) :
    c.Passes way.length way ∧ ∃ step, c.positionals[way.length]? = some step ∧ s.Fits step := by
  have hlength : way.length + (later.length + 1) ≤ k := by
    have heq := List.Forall₂.length_eq h
    rw [List.length_append, List.length_cons, List.length_take] at heq
    omega
  constructor
  · have hfront := List.forall₂_take way.length h
    rwa [List.take_left, List.take_take, Nat.min_eq_left (by omega)] at hfront
  · have hback := List.forall₂_drop way.length h
    rw [List.drop_left] at hback
    obtain ⟨step, steps, hfit, _, hsteps⟩ := List.forall₂_cons_left_iff.mp hback
    refine ⟨step, ?_, hfit⟩
    rw [← List.getElem?_take_of_lt (show way.length < k by omega), ← List.head?_drop, hsteps,
      List.head?_cons]

/-- Commands that pass one way have the same words on it. -/
theorem Command.Passes.word_eq {c c' : Command α σ} {k : Nat} {way : List (Step α)} {w : String}
    (h : c.Passes way.length way) (h' : c'.Passes way.length way) (hk : k < way.length)
    (hword : c'.positionals[k]? = some (.literal w)) : c.positionals[k]? = some (.literal w) := by
  obtain ⟨front, s, later, rfl, rfl⟩ : ∃ front s later,
      way = front ++ s :: later ∧ front.length = k :=
    ⟨way.take k, way[k], way.drop (k + 1), by simp, by simp; omega⟩
  obtain ⟨_, step, hstep, hfit⟩ := h.exists_step
  obtain ⟨_, step', hstep', hfit'⟩ := h'.exists_step
  obtain rfl := Option.some.inj (hword.symm.trans hstep')
  obtain rfl := hfit'.symm.of_literal
  rw [hstep, hfit.of_literal]

namespace Tree

variable {t : Tree α σ} {principal : α} {line : String} {r : Resolved α σ} {given : List (Given α)}
  {p : Parameter α} {g : Given α}

/-- All types in the tree are built-in ones. -/
def BuiltinOnly (t : Tree α σ) : Prop :=
  ∀ c ∈ t.commands, ∀ p ∈ c.parameters, ∃ b : BuiltinType, p.type = b.toValueType

/-- What was read at an argument's place under the name of a parameter, or anywhere on a line of an
orderly command, was read for one that stands for it. -/
theorem Passed.interchangeable (h : t.Passed principal line r given) (ht : t.Populated)
    (hp : p ∈ r.command.parameters) (hg : g ∈ given) (hname : g.parameter.name = p.name)
    (hplace : g.parameter.isNamed = false ∨ t.Orderly r.command) :
    g.parameter.longName = p.longName ∧ g.parameter.interchangeable p = true := by
  obtain ⟨p', hp', hlong, hshape⟩ := h.exists_parameter ht hg
    (hplace.imp_right Orderly.separate)
  have hnamed := Parameter.isNamed_eq_of_interchangeable hshape
  have heq : g.parameter.name = p'.name := by
    cases hflag : g.parameter.isNamed with
    | false => exact Parameter.name_eq_of_longName_eq hflag (hnamed.symm.trans hflag) hlong
    | true =>
      have ho : t.Orderly r.command := hplace.resolve_left (by rw [hflag]; simp)
      exact h.name_eq_of_orderly ht ho hg hflag
        ((h.sound ht).mem_flags hp' (hnamed.symm.trans hflag)) hlong
  -- Names are distinct within a command, so what the node's parameter stands for is `p`.
  obtain rfl : p' = p :=
    List.inj_on_of_nodup_map (h.sound ht).names_nodup hp' hp (heq.symm.trans hname)
  exact ⟨hlong, hshape⟩

/-- An argument's value was read by the type of a command that comes to the same place: it has the
same words and arguments before it. -/
theorem Passed.exists_maker (h : t.Passed principal line r given) (ht : t.Populated)
    (hg : g ∈ given) (hplace : g.parameter.isNamed = false) :
    ∃ c ∈ t.commands, g.parameter ∈ c.parameters ∧ ∃ way p, c.Passes way.length way ∧
      r.command.Passes way.length way ∧
        r.command.positionals[way.length]? = some (.parameter p) := by
  obtain ⟨steps, i, hroute, hcommand, hsteps⟩ := h.route
  obtain ⟨m⟩ := ht.charted.chart
  have hmem : .parameter g.parameter ∈ steps :=
    Step.mem_parameters.mp (hsteps ▸ List.mem_map_of_mem hg)
  obtain ⟨before, after, rfl⟩ := List.append_of_mem hmem
  have hargument : (Step.parameter g.parameter).isFlag = false := hplace
  obtain ⟨_, k, _, hpasses⟩ := m.passes_of_bound hroute hcommand
  rw [List.filter_append, List.filter_cons_of_pos (by simp [hargument])] at hpasses
  obtain ⟨hfront, step, hstep, hfit⟩ := hpasses.exists_step
  obtain ⟨p, rfl⟩ : ∃ p, step = .parameter p := by
    cases step with
    | literal w => exact hfit.elim
    | parameter p => exact ⟨p, rfl⟩
  -- The node behind the argument was made for a command that passes the same way.
  obtain ⟨l, hbefore, j, hedge, _⟩ := exists_route_append hroute
  obtain ⟨hl, hway⟩ := m.way_of_route hbefore
  have hleads := m.leads_of_edge hl hedge
  obtain ⟨c, hc, hmade⟩ := m.exists_made hleads.label_eq (Step.label_ne_root _)
  obtain ⟨k', _, hpasses'⟩ := hmade.passes
  rw [hleads.way_eq, hway, Step.shown_label, List.filter_cons_of_pos (by simp [hargument])]
    at hpasses'
  exact ⟨c, hc, hmade.mem _ rfl, _, p, hpasses'.exists_step.1, hfront, hstep⟩

/-- **Whose type read a value.** When a line resolves on a populated tree, the search took an
accepted reading such that for every parameter `p` of the command that takes a value:

* if the reading gave a value to the name of `p`, the name has such a value in the end;
* that value is what the line says, and was read for a parameter of some command with that name;
* if it was read at an argument's place, or if the command is orderly, the parameter it was read for
  has the long name of `p` and agrees with `p` in form, kind, priority and appetite; the value was
  then read by that parameter's type, and among built-in types it has the kind that `p` declares. -/
theorem value_read_at_shared_node (h : t.Populated) (hparse : t.parse principal line = .ok r) :
    ∃ given, t.Accepts (start principal line) given ⟨r.command,
        (t.search (start principal line)).cursor, (t.search (start principal line)).context⟩ ∧
      ∀ p ∈ r.command.parameters, p.isSwitch = false →
        ((∃ g ∈ given, g.parameter.name = p.name) → ∃ g, Stored given r.context p.name g) ∧
        ∀ g, Stored given r.context p.name g →
          g.Read ∧ (∃ c ∈ t.commands, g.parameter ∈ c.parameters) ∧
          (g.parameter.isNamed = false ∨ t.Orderly r.command →
            g.parameter.longName = p.longName ∧ g.parameter.interchangeable p = true ∧
            (∃ after, g.parameter.type.parse g.context g.cursor = (.ok g.value, after)) ∧
            (t.BuiltinOnly → g.value.kind = p.type.traits.kind)) := by
  obtain ⟨given, hpassed⟩ := h.exists_passed hparse
  refine ⟨given, hpassed.accepts, ?_⟩
  intro p hp hvalued
  constructor
  · intro hgiven
    obtain ⟨g, hstored, _⟩ := hpassed.received hgiven
    exact ⟨g, hstored⟩
  · rintro g ⟨hg, hname, _⟩
    have hread := hpassed.accepts.read g hg
    obtain ⟨c, hc, hmem⟩ := hpassed.registered g hg
    refine ⟨hread, ⟨c, hc, hmem⟩, ?_⟩
    intro hplace
    -- Everything else that is said of the value follows from the shape that both parameters have.
    obtain ⟨hlong, hshape⟩ := hpassed.interchangeable h hp hg hname hplace
    obtain ⟨⟨hswitch, _⟩, htraits⟩ : (g.parameter.isSwitch = p.isSwitch ∧
        g.parameter.isNamed = p.isNamed) ∧
          g.parameter.type.traits.interchangeable p.type.traits = true := by
      simpa [Parameter.interchangeable] using hshape
    have hvalue : g.parameter.isSwitch = false := hswitch.trans hvalued
    obtain ⟨after, hparsed⟩ := hread.resolve_right (by simp [hvalue])
    refine ⟨hlong, hshape, ⟨after, hparsed⟩, ?_⟩
    intro hbuiltin
    obtain ⟨b, hb⟩ := hbuiltin c hc g.parameter hmem
    have hkind : g.parameter.type.traits.kind = p.type.traits.kind := by
      simp only [TypeTraits.interchangeable, Bool.and_eq_true, decide_eq_true_eq] at htraits
      exact htraits.1.1
    rw [hb] at hparsed hkind
    exact (BuiltinType.kind_of_parse hparsed).trans hkind

/-- Two commands whose arguments share a node, the second of which declares a digit. -/
def digitTree : Tree Unit Unit :=
  (Growth.register digitSetter).after ((Growth.register setter).after (empty {}))
where
  digit : Parameter Unit := .ofBuiltin "value" (.integer (some 0) (some 9))
  digitSetter : Declaration Unit Unit :=
    { name := "set", steps := [.parameter digit], action := some (fun _ state => state) }
  setter : Declaration Unit Unit :=
    { name := "set", steps := [.parameter (.ofBuiltin "value" (.integer none none))] }

theorem populated_digitTree : digitTree.Populated := by
  unfold digitTree
  exact .register_after (.register_after (.empty {} (by decide)) (by decide +kernel))
    (by decide +kernel)

theorem commands_digitTree : digitTree.commands =
    #[digitTree.setter.command 0 "set", digitTree.digitSetter.command 1 "set"] := rfl

/-- A hundred is read for the digit. -/
theorem parse_digitTree : ∃ r, digitTree.parse () "set 100" = .ok r ∧
    r.command = digitTree.digitSetter.command 1 "set" ∧
    (digitTree.search (start () "set 100")).context.bindings.get? "value" = some (.integer 100) ∧
    r.context.bindings.get? "value" = some (.integer 100) := by
  have hparse : ∃ r, digitTree.parse () "set 100" = .ok r ∧
      (r.command.id = 1 ∧ r.context.bindings.get? "value" = some (.integer 100)) := by
    decide +kernel
  obtain ⟨r, hr, hid, hvalue⟩ := hparse
  obtain ⟨_, hpassed⟩ := populated_digitTree.exists_passed hr
  have hmem := hpassed.mem_commands
  rw [commands_digitTree] at hmem
  have hcommand : r.command = digitTree.digitSetter.command 1 "set" := by
    rcases (by simpa using hmem : _ ∨ _) with heq | heq
    · rw [heq] at hid
      cases hid
    · exact heq
  exact ⟨r, hr, hcommand, by decide +kernel, hvalue⟩

/-- The value under a parameter's name need not be one that its own type can read. -/
theorem value_outside_bounds :
    digitTree.Populated ∧ ∃ r, digitTree.parse () "set 100" = .ok r ∧
      ∃ p ∈ r.command.parameters, p.isSwitch = false ∧
        (digitTree.search (start () "set 100")).context.bindings.get? p.name =
          some (.integer 100) ∧
        r.context.bindings.get? p.name = some (.integer 100) ∧
        ∀ ctx c after, p.type.parse ctx c ≠ (.ok (.integer 100), after) := by
  obtain ⟨r, hr, hcommand, hread, hvalue⟩ := parse_digitTree
  refine ⟨populated_digitTree, r, hr, digitTree.digit, hcommand ▸ List.mem_singleton.mpr rfl, rfl,
    hread, hvalue, ?_⟩
  intro ctx c after hparse
  obtain ⟨n, hn, _, hle⟩ := BuiltinType.bounds_of_parse hparse
  obtain rfl := Value.integer.inj hn
  omega

/-- It has the kind that the parameter declares, though. -/
theorem value_read_at_shared_node_digitTree :
    digitTree.Populated ∧ digitTree.BuiltinOnly ∧
      ∃ r, digitTree.parse () "set 100" = .ok r ∧ digitTree.Orderly r.command ∧
        ∃ given g, Stored given r.context "value" g ∧
          g.parameter.interchangeable digitTree.digit = true ∧ g.value.kind = .integer := by
  have hcases {c : Command Unit Unit} (hc : c ∈ digitTree.commands) :
      c = digitTree.setter.command 0 "set" ∨ c = digitTree.digitSetter.command 1 "set" := by
    rw [commands_digitTree] at hc
    simpa using hc
  have hbuiltin : digitTree.BuiltinOnly := by
    intro c hc p hp
    rcases hcases hc with rfl | rfl <;> obtain rfl := List.mem_singleton.mp hp
    · exact ⟨_, rfl⟩
    · exact ⟨_, rfl⟩
  obtain ⟨r, hr, hcommand, hread, _⟩ := parse_digitTree
  have horderly : digitTree.Orderly r.command := orderly_of_flags_eq_nil (hcommand ▸ rfl)
  obtain ⟨given, haccepts, hvalues⟩ := value_read_at_shared_node populated_digitTree hr
  obtain ⟨hstored, hshared⟩ :=
    hvalues digitTree.digit (hcommand ▸ List.mem_singleton.mpr rfl) rfl
  have hgiven : ∃ g ∈ given, g.parameter.name = "value" := by
    rw [← haccepts.contains_iff, ← Bindings.isSome_get?, hread]
    rfl
  obtain ⟨g, hg⟩ := hstored hgiven
  obtain ⟨_, _, hstands⟩ := hshared g hg
  obtain ⟨_, hshape, _, hkind⟩ := hstands (.inr horderly)
  exact ⟨populated_digitTree, hbuiltin, r, hr, horderly, given, g, hg, hshape, hkind hbuiltin⟩

end Tree

end CommandLine
