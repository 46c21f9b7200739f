import CommandLine.Proofs.Search.Refinement

/-!
# Lines that resolve

Where everyone may use everything, no denial cuts a search short, so that it finds a command
whenever a reading is accepted. Where moreover every default can be read, filling in goes through.
So a line resolves exactly if it has an accepted reading (`Chart.exists_parse_eq_ok_iff`).
-/

set_option autoImplicit false

namespace CommandLine

variable {α σ : Type}

/-- Every default of a command can be read. -/
def Command.Readable (c : Command α σ) : Prop :=
  ∀ p ∈ c.parameters, ∀ text, p.default = some text → ∀ ctx,
    ∃ value after, p.type.parse ctx (.ofString text) = (.ok value, after)

/-- Filling in goes through if every default can be read. -/
theorem exists_fillParameters {ps : List (Parameter α)}
    (hdefaults : ∀ p ∈ ps, ∀ text, p.default = some text → ∀ ctx,
      ∃ value after, p.type.parse ctx (.ofString text) = (.ok value, after))
    (ctx : Context α) : ∃ ctx', fillParameters ctx ps = .ok ctx' := by
  induction ps generalizing ctx with
  | nil => exact ⟨ctx, rfl⟩
  | cons p ps ih =>
    obtain ⟨ctx', hfill⟩ : ∃ ctx', fillParameter ctx p = .ok ctx' := by
      unfold fillParameter omittedValue?
      split
      · exact ⟨ctx, rfl⟩
      · cases hdefault : p.default with
        | none =>
          cases (if p.isSwitch then some (Value.truth false) else p.type.traits.zero) <;> simp
        | some text =>
          obtain ⟨value, after, hparse⟩ := hdefaults p List.mem_cons_self text hdefault ctx
          simp [hparse]
    rw [fillParameters, hfill]
    exact ih (fun q hq => hdefaults q (List.mem_cons_of_mem p hq)) ctx'

namespace Tree

variable {t : Tree α σ} {known : Command α σ → Prop}

/-- Where nothing is denied and every default can be read, a line resolves exactly if one of its
readings is accepted. -/
theorem Chart.exists_parse_eq_ok_iff (m : Chart known t) (hbuilt : ∀ c, known c → c.Built)
    (hopen : ∀ c, known c → c.Open) (hdefaults : ∀ c, known c → c.Readable) (principal : α)
    (line : String) : (∃ r, t.parse principal line = .ok r) ↔
      ∃ given a, t.Accepts (start principal line) given a := by
  have mbuilt : Chart Command.Built t := m.mono hbuilt
  constructor
  · rintro ⟨r, hparse⟩
    obtain ⟨given, haccepts⟩ := mbuilt.exists_reading (exists_of_parse_eq_ok hparse).1
    exact ⟨given, _, haccepts⟩
  · rintro ⟨given, a, haccepts⟩
    have hends (i : NodeIndex) (c : Command α σ) (hc : (t.node i).command = some c)
        (principal : α) : c.permission.allows principal = true :=
      (hopen c (m.known_of_command hc)).command principal
    obtain ⟨before, after, hevents⟩ :=
      List.append_of_mem (bound_mem_events_iff.mpr ⟨given, haccepts⟩)
    obtain ⟨a, ha⟩ :
        ∃ a, Event.firstEnding? (t.events (start principal line)) = some (.ok a) := by
      rw [hevents]
      refine exists_firstEnding? fun r hr => ?_
      exact denied_notMem_events (m.allows_node hopen) hends (start principal line) r
        (hevents ▸ List.mem_append_left _ hr)
    -- The ending is what the search found, and filling in its command goes through.
    rw [← (mbuilt.took principal line).ending] at ha
    obtain ⟨hout, _⟩ := Searched.outcome_eq_ok ha
    obtain ⟨_, haccepts'⟩ := mbuilt.exists_reading hout
    obtain ⟨w, _, _, _, hbound, _⟩ := haccepts'.accepted
    rw [parse_of_found hout]
    obtain ⟨ctx, hfill⟩ := exists_fillParameters
      (hdefaults a.command (m.known_of_command hbound)) (t.search (start principal line)).context
    rw [hfill]
    exact ⟨_, rfl⟩

end Tree

end CommandLine
