import CommandLine.Proofs.Search.Renamed
import CommandLine.Proofs.SeparateNames
import CommandLine.Proofs.Tree.Registration

/-!
# Aliases

A declaration is inserted once for each of its names, so every alias has nodes of its own. Yet which
of its names a line begins with makes no difference to what the line is resolved to. The names are
different words, so a line is parsed as if the command had been inserted under its first word only
(`parse_register`). Inserted alone under either name the command makes the same nodes
(`renames_insert`), and what follows the first word is read alike at them, as far behind one name as
behind the other (`events_beside`).

* `Renames.parse_alike` — one command under two names;
* `aliases_interchangeable` — a registered declaration.
-/

set_option autoImplicit false

namespace CommandLine

open Text

variable {α σ : Type}

namespace Tree

variable {t t' : Tree α σ} {w w' : String}

/-! ## One command under two names -/

/-- The command to which a line is resolved is one of the tree's. -/
theorem Chart.known_of_parse {known : Command α σ → Prop} (m : Chart known t)
    (hbuilt : ∀ c, known c → c.Built) {principal : α} {line : String} {r : Resolved α σ}
    (hparse : t.parse principal line = .ok r) : known r.command := by
  obtain ⟨_, haccepts⟩ := (m.mono hbuilt).exists_reading (exists_of_parse_eq_ok hparse).1
  exact m.known_of_accepts haccepts

/-- Lines that differ in the first word, and in that only, are resolved alike on trees that have the
same below it. -/
theorem Renames.parse_alike (h : Renames w w' t t')
    (m : Chart (fun c => c.Built ∧ ∀ p ∈ c.parameters, p.Builtin) t)
    (m' : Chart Command.Built t') (hw : IsWord w) (hw' : IsWord w') (principal : α) {rest : String}
    (hrest : ∀ ch ∈ rest.toList.head?, isBlank ch = true) :
    (∃ r r', t.parse principal (w ++ rest) = .ok r ∧ t'.parse principal (w' ++ rest) = .ok r' ∧
        r.command.Renames r'.command ∧ r.context.bindings = r'.context.bindings) ∨
      ∃ f f', t.parse principal (w ++ rest) = .error f ∧
        t'.parse principal (w' ++ rest) = .error f' ∧ f.cause = f'.cause := by
  obtain ⟨first, hfirst, hroot, hroot'⟩ := h.exists_word
  have hfind : (t.node root).literal? w = some first := by simp [hroot, Node.literal?]
  have hfind' : (t'.node root).literal? w' = some first := by simp [hroot', Node.literal?]
  obtain ⟨hword, hbehind⟩ := Cursor.skipBlank_ofString_append hw hrest
  obtain ⟨hword', hbehind'⟩ := Cursor.skipBlank_ofString_append hw' hrest
  have hpermission := (h.node first hfirst).permission_eq
  -- A first word that the principal may not pass is told so on both lines. Otherwise the readings
  -- go on side by side from its node.
  cases hallows : (t.node first).permission.allows principal with
  | false =>
    exact .inr ⟨_, _, parse_of_denied_word hword hw.1 hfind hallows,
      parse_of_denied_word hword' hw'.1 hfind' (hpermission ▸ hallows), rfl⟩
  | true =>
    let start (line : String) : Visit α :=
      ⟨first, (Tree.start principal line).cursor.skipWord.skipBlank,
        (Tree.start principal line).context, false⟩
    have hbeside : (start (w ++ rest)).Beside w.toList.reverse w'.toList.reverse
        (start (w' ++ rest)) :=
      { node_eq := rfl
        ne_root := hfirst
        exists_cursor := by
          refine ⟨(Cursor.ofString rest).skipBlank, ?_, ?_⟩
          · exact (congrArg Cursor.skipBlank hbehind).trans Cursor.skipBlank_precededBy
          · exact (congrArg Cursor.skipBlank hbehind').trans Cursor.skipBlank_precededBy
        context := ⟨rfl, rfl⟩
        bundled_eq := rfl }
    have hevents := h.events_beside m (fun i p hlabel => m.allowed_of_label hlabel) hbeside
    rw [← m.events_start_of_word hword hw.1 hfind hallows,
      ← m'.events_start_of_word hword' hw'.1 hfind' (hpermission ▸ hallows)] at hevents
    have hpaired := m.parse_paired m' (congrArg Settings.policy h.settings_eq)
      (fun c c' hc => by rw [hc]; rfl) Rejection.ordered_beside hevents
    generalize t.parse principal (w ++ rest) = result at hpaired ⊢
    generalize t'.parse principal (w' ++ rest) = result' at hpaired ⊢
    cases hpaired with
    | ok hcommand hbindings => exact .inl ⟨_, _, rfl, rfl, hcommand, hbindings⟩
    | rejected hr => exact .inr ⟨_, _, rfl, rfl, hr.cause_eq⟩
    | omitted f => exact .inr ⟨f, f, rfl, rfl, rfl⟩

/-! ## One declaration under all its names -/

/-- Of the commands of a declaration one has a name, if the names are different. -/
theorem filter_command_eq {d : Declaration α σ} (hnodup : d.names.Nodup) {name : String}
    (hname : name ∈ d.names) (id : Nat) :
    (d.names.map (d.command id)).filter (·.name = name) = [d.command id name] := by
  have hfilter : d.names.filter (· = name) = [name] := by
    rw [List.filter_eq, List.count_eq_one_of_mem hnodup hname]
    rfl
  have hkeys : (fun c : Command α σ => decide (c.name = name)) ∘ d.command id = (· = name) := rfl
  rw [List.filter_map, hkeys, hfilter]
  rfl

section

variable {s : Settings} {d : Declaration α σ} {id : Nat} {t : Tree α σ}

/-- A registration inserts good commands one by one. -/
theorem exists_insertAll_of_register (h : Growth.register d (empty s) = .ok id t) :
    d.validate = .ok () ∧
      Growth.insertAll (d.names.map (d.command id)) { empty s with nextId := 1 } = .ok () t := by
  rw [Growth.register_eq] at h
  cases hbuild : d.build (empty s : Tree α σ).nextId with
  | error e =>
    rw [hbuild] at h
    cases h
  | ok cs =>
    obtain ⟨hvalid, rfl⟩ := Declaration.build_eq_ok_iff.mp hbuild
    rw [hbuild] at h
    simp only at h
    split at h
    · rename_i hrun
      obtain ⟨rfl, rfl⟩ := EStateM.Result.ok.inj h
      exact ⟨hvalid, hrun⟩
    · cases h

/-- A line whose first word is one of the names of a registered declaration is parsed as if the
command had been inserted under this name only. -/
theorem parse_register (hnodup : d.names.Nodup)
    (hregister : Growth.register d (empty s) = .ok id t) {name : String} (hname : name ∈ d.names)
    (principal : α) {line : String} (hline : firstWord line = name) :
    t.parse principal line =
      ((Growth.insert (d.command id name)).after (empty s)).parse principal line := by
  obtain ⟨hvalid, hrun⟩ := exists_insertAll_of_register hregister
  have hbuilt : ∀ c ∈ d.names.map (d.command id), c.Built := by
    intro c hc
    obtain ⟨name, hname, rfl⟩ := List.mem_map.mp hc
    exact Declaration.built_command hvalid id hname
  have hstart : Isolates name (empty s : Tree α σ) { empty s with nextId := 1 } :=
    (isolates_empty name s).congr rfl rfl
  have hisolates := hstart.insertEach hbuilt
  rw [filter_command_eq hnodup hname, insertEach_of_insertAll hrun] at hisolates
  obtain ⟨⟨m⟩, m', f, hmirrors, _⟩ := hisolates
  exact m.parse_eq_of_alike m' hmirrors.toAlikeBelow principal hline

/-- **Aliases are interchangeable.** Take a declaration over built-in types whose names are
different words, registered in an empty tree, and a text that is empty or starts with a blank. The
lines in which the text follows one name and another one are both resolved to the command of the
declaration, with the same values, or they are both rejected, for the same cause. -/
theorem aliases_interchangeable (hbuiltin : ∀ p ∈ d.parameters, p.Builtin) (hnodup : d.names.Nodup)
    (hwords : ∀ name ∈ d.names, IsWord name)
    (hregister : Growth.register d (empty s) = .ok id t) {a b : String} (ha : a ∈ d.names)
    (hb : b ∈ d.names) (principal : α) {rest : String}
    (hrest : ∀ ch ∈ rest.toList.head?, isBlank ch = true) :
    (∃ r r', t.parse principal (a ++ rest) = .ok r ∧ t.parse principal (b ++ rest) = .ok r' ∧
        r.command.id = id ∧ r'.command.id = id ∧ r.context.bindings = r'.context.bindings) ∨
      ∃ f f', t.parse principal (a ++ rest) = .error f ∧
        t.parse principal (b ++ rest) = .error f' ∧ f.cause = f'.cause := by
  obtain ⟨hvalid, _⟩ := exists_insertAll_of_register hregister
  have hchart {name : String} (hname : name ∈ d.names) :
      Nonempty (Chart (· = d.command id name)
        ((Growth.insert (d.command id name)).after (empty s))) :=
    (Chart.empty _ s).nonempty_insert_after rfl (Declaration.built_command hvalid id hname).sound
  have hparse {name : String} (hname : name ∈ d.names) :=
    parse_register hnodup hregister hname principal
      (Cursor.skipBlank_ofString_append (hwords name hname) hrest).1
  obtain ⟨m⟩ := hchart ha
  obtain ⟨m'⟩ := hchart hb
  have hbuilt := Declaration.built_command hvalid id ha
  have hparameters : ∀ p ∈ (d.command id a).parameters, p.Builtin := fun p hp =>
    hbuiltin p ((d.parameters_command_perm id a).mem_iff.mp hp)
  -- The two commands differ in the first word alone, so the trees grown from them are read alike.
  have hrenames : (d.command id a).Renames (d.command id b) := rfl
  rw [hparse ha, hparse hb]
  rcases (renames_insert s hrenames).parse_alike
      (m.mono fun c hc => hc ▸ ⟨hbuilt, hparameters⟩)
      (m'.mono fun c hc => hc ▸ Declaration.built_command hvalid id hb)
      (hwords a ha) (hwords b hb) principal hrest with
    ⟨r, r', hr, hr', hcommand, hbindings⟩ | hrejected
  · have hid : r.command.id = id := by rw [m.known_of_parse (fun c hc => hc ▸ hbuilt) hr]; rfl
    have hid' : r'.command.id = id := by rw [← hid, hcommand]
    exact .inl ⟨r, r', hr, hr', hid, hid', hbindings⟩
  · exact .inr hrejected

end

/-- A command with a short name. -/
def teleport : Declaration Unit Unit :=
  { name := "teleport", aliases := ["tp"]
    steps := [.parameter (.ofBuiltin "target" (.word none none)), .parameter (.switch "silent")] }

/-- A quote that is not closed is found behind either name. -/
theorem aliases_interchangeable_teleport :
    ∃ t, Growth.register teleport (empty {}) = .ok 0 t ∧
      (∃ r r', t.parse () ("teleport" ++ " steve --silent") = .ok r ∧
        t.parse () ("tp" ++ " steve --silent") = .ok r' ∧ r.command.id = 0 ∧ r'.command.id = 0 ∧
          r.context.bindings = r'.context.bindings) ∧
      ∃ f f', t.parse () ("teleport" ++ " \"steve") = .error f ∧
        t.parse () ("tp" ++ " \"steve") = .error f' ∧ f.cause = f'.cause ∧ f.position = 9 ∧
          f'.position = 3 := by
  obtain ⟨t, hregister, _⟩ :=
    (Stocked.empty (α := Unit) (σ := Unit) (s := {}) (by decide)).exists_register
      (d := teleport) (by decide) nofun
  have hbuiltin : ∀ p ∈ teleport.parameters, p.Builtin := by
    intro p hp
    rcases List.mem_cons.mp hp with rfl | hp
    · exact ⟨_, rfl⟩
    · obtain rfl := List.mem_singleton.mp hp
      exact ⟨_, rfl⟩
  have hblank {rest : String} (hrest : rest.toList.head? = some ' ') :
      ∀ ch ∈ rest.toList.head?, isBlank ch = true := by
    rw [hrest]
    rintro _ ⟨⟩
    rfl
  have hsame {rest : String} (hrest : rest.toList.head? = some ' ') :=
    aliases_interchangeable hbuiltin (by decide) (by decide +kernel) hregister
      (show "teleport" ∈ teleport.names by decide) (show "tp" ∈ teleport.names by decide) ()
      (hblank hrest)
  -- Which of the two cases a line is in is evaluated for the first name only; the theorem says the
  -- rest.
  have hfound : ∃ r, ((Growth.register teleport).after (empty {})).parse ()
      ("teleport" ++ " steve --silent") = .ok r ∧ True := by decide +kernel
  have hfails : (∃ f, ((Growth.register teleport).after (empty {})).parse ()
        ("teleport" ++ " \"steve") = .error f ∧ f.position = 9) ∧
      ∃ f, ((Growth.register teleport).after (empty {})).parse () ("tp" ++ " \"steve") =
        .error f ∧ f.position = 3 := by decide +kernel
  rw [Growth.after_of_ok hregister] at hfound hfails
  obtain ⟨r₀, hr₀, _⟩ := hfound
  obtain ⟨⟨g, hg, hposition⟩, g', hg', hposition'⟩ := hfails
  refine ⟨t, hregister, ?_, ?_⟩
  · rcases hsame (show " steve --silent".toList.head? = some ' ' by decide +kernel) with
      hok | ⟨f, _, hf, _⟩
    · exact hok
    · rw [hr₀] at hf
      cases hf
  · rcases hsame (show " \"steve".toList.head? = some ' ' by decide +kernel) with
      ⟨r, _, hr, _⟩ | ⟨f, f', hf, hf', hcause⟩
    · rw [hg] at hr
      cases hr
    · obtain rfl := Except.error.inj (hg.symm.trans hf)
      obtain rfl := Except.error.inj (hg'.symm.trans hf')
      exact ⟨g, g', hg, hg', hcause, hposition, hposition'⟩

end Tree

end CommandLine
