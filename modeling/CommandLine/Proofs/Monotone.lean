import Mathlib.Logic.Relation
import CommandLine.Proofs.Search.Followed
import CommandLine.Proofs.Search.Resolved
import CommandLine.Proofs.Tree.Changes

/-!
# Registration is monotone

Growth keeps every accepted reading: all children of a node stay, no two of them can be spelled the
same way, and a flag is added behind the flags that are there, so that a shorthand goes on finding
the flag that it found. Where nothing is denied and every default can be read, a line that resolved
therefore still does, perhaps to another command, after any call, whether it was refused or not.

* `FlagsExtend` — how the flags of all nodes grow;
* `Chart.accepts_of_grows` — accepted readings stay accepted;
* `resolves_after_call` — lines that resolve still do.
-/

set_option autoImplicit false

namespace CommandLine

open CommandLine.Tree

variable {α σ : Type}

/-! ## Calls that ask for nothing special -/

/-- A parameter for everyone, of a built-in type that reads its default if there is one. -/
structure Parameter.Plain (p : Parameter α) : Prop where
  permission_eq : p.permission = .always
  builtin : ∃ b : BuiltinType, p.type = b.toValueType ∧ ∀ text, p.default = some text →
    ∃ value after, b.parse (.ofString text) = (.ok value, after)

/-- A command for everyone with such parameters. -/
structure Command.Plain (c : Command α σ) : Prop where
  permission_eq : c.permission = .always
  parameters : ∀ p ∈ c.parameters, p.Plain

/-- A declaration for everyone with such parameters. -/
structure Declaration.Plain (d : Declaration α σ) : Prop where
  permission_eq : d.permission = .always
  parameters : ∀ p ∈ d.parameters, p.Plain

/-- Everyone may run such a command. -/
theorem Command.Plain.opened {c : Command α σ} (h : c.Plain) : c.Open where
  command _ := by
    rw [h.permission_eq]
    rfl
  parameter p hp _ := by
    rw [(h.parameters p hp).permission_eq]
    rfl

theorem Command.Plain.readable {c : Command α σ} (h : c.Plain) : c.Readable := by
  intro p hp text htext ctx
  obtain ⟨b, htype, hdefault⟩ := (h.parameters p hp).builtin
  rw [htype]
  exact hdefault text htext

/-- A declaration that asks for nothing special makes commands that do not. -/
theorem Declaration.Plain.of_build {d : Declaration α σ} {id : Nat} {cs : List (Command α σ)}
    (h : d.Plain) (hbuild : d.build id = .ok cs) : ∀ c ∈ cs, c.Plain := by
  intro c hc
  have hparameters (p : Parameter α) (hp : p ∈ c.parameters) : p ∈ d.parameters :=
    Declaration.mem_parameters_of_build hbuild hc hp
  obtain ⟨_, rfl⟩ := Declaration.build_eq_ok_iff.mp hbuild
  obtain ⟨name, _, rfl⟩ := List.mem_map.mp hc
  exact ⟨h.permission_eq, fun p hp => h.parameters p (hparameters p hp)⟩

namespace Tree

variable {t t' t'' : Tree α σ} {v w u : Visit α} {turn : Turn α} {i j : NodeIndex}
  {c : Command α σ}

/-! ## Flags are added behind flags -/

/-- The flags of every node start with those that the node had. -/
def FlagsExtend (t t' : Tree α σ) : Prop := ∀ i, (t.node i).flags <+: (t'.node i).flags

/-- A node without flags may be added. -/
theorem FlagsExtend.of_pushNode (t : Tree α σ) (n : Tree.Node α σ) :
    FlagsExtend t (t.pushNode n) := by
  intro i
  by_cases h : i = t.nodes.size
  · subst h
    rw [node_of_size_le (Nat.le_refl _)]
    exact List.nil_prefix
  · exact (node_pushNode_of_ne n h).symm ▸ List.prefix_rfl

/-- A node may be changed as long as its flags go first. -/
theorem FlagsExtend.of_modifyNode {f : Tree.Node α σ → Tree.Node α σ}
    (hf : ∀ n, n.flags <+: (f n).flags) (t : Tree α σ) (i : NodeIndex) :
    FlagsExtend t (t.modifyNode i f) := by
  intro j
  rw [node_modifyNode]
  split
  · exact hf (t.node j)
  · exact List.prefix_rfl

/-- What is added later comes still further behind. -/
theorem FlagsExtend.trans (h : FlagsExtend t t') (h' : FlagsExtend t' t'') : FlagsExtend t t'' :=
  fun i => (h i).trans (h' i)

/-- No change puts a flag in front of another one or takes one away. -/
theorem changes_flagsExtend : Changes (@FlagsExtend α σ) where
  refl _ _ := List.prefix_rfl
  trans := .trans
  joinPermission t i permission := .of_modifyNode
    (f := fun n => { n with permission := n.permission.or permission })
    (fun _ => List.prefix_rfl) t i
  addFlag t i p := (FlagsExtend.of_pushNode t _).trans <|
    .of_modifyNode (f := fun n => { n with flags := n.flags ++ [t.nodes.size] })
      (fun _ => List.prefix_append ..) _ i
  shareFlag child t i := by
    unfold shareFlag
    split
    · exact fun _ => List.prefix_rfl
    · split
      · exact fun _ => List.prefix_rfl
      · exact .of_modifyNode (f := fun n => { n with flags := n.flags ++ [child] })
          (fun _ => List.prefix_append ..) t i
  bindCommand t i c := .of_modifyNode (fun n => by split <;> exact List.prefix_rfl) t i
  addLiteral t i w permission := (FlagsExtend.of_pushNode t _).trans <|
    .of_modifyNode (f := fun n => { n with literals := n.literals ++ [(w, t.nodes.size)] })
      (fun _ => List.prefix_rfl) _ i
  addArgument t i p := (FlagsExtend.of_pushNode t _).trans <|
    .of_modifyNode
      (f := fun n => { n with arguments := placeArgument p t.nodes.size (t.argumentsOf i) })
      (fun _ => List.prefix_rfl) _ i
  same {t t'} hnodes _ i := by
    have hnode : t'.node i = t.node i := by rw [node, node, hnodes]
    exact hnode.symm ▸ List.prefix_rfl

/-! ## Calls -/

/-- One call on a tree, of a declaration or a command that asks for nothing special. It may be
refused. -/
inductive PlainCall : Tree α σ → Tree α σ → Prop
  | withHook (hook : Hook α σ) (t : Tree α σ) : PlainCall t (t.withHook hook)
  | register {d : Declaration α σ} (t : Tree α σ) :
      d.Plain → PlainCall t ((Growth.register d).after t)
  | insert {c : Command α σ} (t : Tree α σ) :
      c.Built → c.Plain → PlainCall t ((Growth.insert c).after t)

/-- The trees reached from an empty one by such calls. -/
def PlainlyGrown (t : Tree α σ) : Prop :=
  ∃ s, Relation.ReflTransGen PlainCall (Tree.empty s) t

/-- What a call leaves of a tree. -/
theorem PlainCall.grows (h : PlainCall t t') : t.Grows t' ∧ FlagsExtend t t' := by
  cases h with
  | withHook hook => exact ⟨.of_nodes_eq rfl rfl, changes_flagsExtend.same rfl rfl⟩
  | @register d _ _ =>
    exact ⟨changes_grows.steps.commands.register d t,
      changes_flagsExtend.steps.commands.register d t⟩
  | insert _ hbuilt _ =>
    exact ⟨changes_grows.steps.commands.insert hbuilt.sound t,
      changes_flagsExtend.steps.commands.insert hbuilt.sound t⟩

/-! ## Readings stay -/

namespace Chart

variable {known known' : Command α σ → Prop} (m : Chart known t) (m' : Chart known' t')
  (hgrows : t.Grows t') (hflags : FlagsExtend t t')

section
include m hgrows hflags

/-- So the flag children of a node start with those that the node had. -/
theorem flagsOf_prefix (i : NodeIndex) : t.flagsOf i <+: t'.flagsOf i := by
  have hold : t'.parametersAt (t.node i).flags = t.flagsOf i := by
    refine List.filterMap_congr fun j hj => ?_
    have hlabel := hgrows.label_eq j (m.lt_of_child (.inr (.inl hj)))
    rw [Node.parameter?, Node.parameter?, hlabel]
  obtain ⟨later, heq⟩ := hflags i
  have hnew : t'.flagsOf i = t.flagsOf i ++ t'.parametersAt later := by
    rw [flagsOf, ← heq, parametersAt, List.filterMap_append]
    exact congrArg (· ++ t'.parametersAt later) hold
  exact ⟨_, hnew.symm⟩

/-- A shorthand goes on finding the flag that it found. -/
theorem flagShort?_of_grows {ch : Char} {p : Parameter α}
    (h : t.flagShort? i ch = some (j, p)) : t'.flagShort? i ch = some (j, p) := by
  obtain ⟨later, heq⟩ := m.flagsOf_prefix hgrows hflags i
  rw [flagShort?, ← heq, List.find?_append, ← flagShort?, h]
  rfl

include m'

/-- A word or shorthand goes on naming the flag that it named. -/
theorem spells_of_grows {p : Parameter α} {cursor : Cursor} {attached : Bool}
    (hv : v.node < t.nodes.size) (h : t.Spells v turn j p cursor attached) :
    t'.Spells v turn j p cursor attached := by
  have hsettings := hgrows.settings_eq
  cases h with
  | long hspelling hchild =>
    obtain ⟨hmem, rfl⟩ := of_flagNamed?_eq_some hchild
    have hedge := hgrows.edge (.of_flag hmem)
    have hv' := Nat.lt_of_lt_of_le hv hgrows.size_le
    have hflag := m'.mem_flagsOf_of_edge hv' hedge (m.leads_of_mem_flagsOf hv hmem).1
    exact .long (hsettings ▸ hspelling) (m'.flagNamed?_of_mem_flagsOf hv' hflag)
  | short hspelling hc hrest hchild =>
    exact .short (hsettings ▸ hspelling) (hsettings ▸ hc) hrest
      (m.flagShort?_of_grows hgrows hflags hchild)
  | bundled hrest hchild => exact .bundled hrest (m.flagShort?_of_grows hgrows hflags hchild)

/-- A move stays one where everyone may pass every node. -/
theorem moves_of_grows {given : Option (Given α)}
    (hopen : ∀ i principal, (t'.node i).permission.allows principal = true)
    (hv : v.node < t.nodes.size) (hturn : turn ∈ t.turns v) (h : t.Moves v turn given w) :
    turn ∈ t'.turns v ∧ t'.Moves v turn given w := by
  have hv' := Nat.lt_of_lt_of_le hv hgrows.size_le
  have harguments {child : NodeIndex} {p : Parameter α} (hp : (child, p) ∈ t.argumentsOf v.node) :
      (child, p) ∈ t'.argumentsOf v.node :=
    m'.mem_argumentsOf_of_edge hv' (hgrows.edge (.of_argument hp))
      (m.leads_of_mem_argumentsOf hv hp).1
  -- Growing adds argument turns and takes none away; the other turns hang on the cursor alone.
  refine ⟨?_, ?_⟩
  · unfold turns at hturn ⊢
    by_cases hbundled : v.bundled = true
    · rwa [if_pos hbundled] at hturn ⊢
    · rw [if_neg hbundled] at hturn ⊢
      by_cases hend : v.cursor.atEnd = true
      · rwa [if_pos hend] at hturn ⊢
      · rw [if_neg hend] at hturn ⊢
        simp only [List.cons_append, List.mem_cons, List.mem_append, List.mem_map] at hturn ⊢
        refine hturn.imp_right (Or.imp_right (Or.imp_left ?_))
        rintro ⟨⟨child, p⟩, hp, rfl⟩
        exact ⟨(child, p), harguments hp, rfl⟩
  · have hspelled {child : NodeIndex} {p : Parameter α} {cursor : Cursor} {attached : Bool}
        (hspells : t.Spells v turn child p cursor attached) :
        t'.Spells v turn child p cursor attached :=
      m.spells_of_grows m' hgrows hflags hv hspells
    cases h with
    | literal hchild _ hbreak =>
      have hedge : t'.Edge v.node (.literal v.cursor.word) _ :=
        hgrows.edge (Node.mem_literals_of_literal? hchild)
      have hwords := (m'.stands v.node hv').words_nodup
      exact .literal ((Node.literal?_eq_some_iff hwords).mpr hedge) (hopen _ _) hbreak
    | argument _ hparse hbreak => exact .argument (hopen _ _) hparse hbreak
    | switch hspells hswitch _ hbreak =>
      exact .switch (hspelled hspells) hswitch (hopen _ _) hbreak
    | bundle hspells hswitch _ => exact .bundle (hspelled hspells) hswitch (hopen _ _)
    | value hspells hswitch _ hd hend hparse hbreak =>
      exact .value (hspelled hspells) hswitch (hopen _ _) hd hend hparse hbreak

/-- A reading goes on reading, move by move, where everyone may pass every node. -/
theorem reads_of_grows {given : List (Given α)}
    (hopen : ∀ i principal, (t'.node i).permission.allows principal = true)
    (hv : v.node < t.nodes.size) (h : t.Reads v given u) : t'.Reads v given u := by
  induction h with
  | refl v => exact .refl v
  | step hturn hmove _ ih =>
    obtain ⟨hturn', hmove'⟩ := m.moves_of_grows m' hgrows hflags hopen hv hturn hmove
    obtain ⟨_, hedge, _⟩ := hmove.exists_edge hturn
    exact .step hturn' hmove' (ih (m.leads_of_edge hv hedge).lt)

/-- An accepted reading stays one, with a command that may be another one. -/
theorem accepts_of_grows {given : List (Given α)} {a : Arrival α σ}
    (hopen : ∀ c, known' c → c.Open) (hv : v.node < t.nodes.size) (h : t.Accepts v given a) :
    ∃ a', t'.Accepts v given a' := by
  obtain ⟨u, hreads, hbundled, hend, hcommand, _⟩ := h.accepted
  obtain ⟨c, hc⟩ := Option.isSome_iff_exists.mp (hgrows.command (Option.isSome_of_eq_some hcommand))
  have hreads' := m.reads_of_grows m' hgrows hflags (m'.allows_node hopen) hv hreads
  exact ⟨⟨c, u.cursor, u.context⟩, ⟨u, hreads', hbundled, hend, hc, rfl⟩,
    (hopen c (m'.known_of_command hc)).command _⟩

end

end Chart

/-! ## Lines stay -/

/-- After a call there is a chart over plain commands again. -/
theorem PlainCall.nonempty_chart (h : PlainCall t t')
    (m : Chart (fun c => c.Built ∧ c.Plain) t) :
    Nonempty (Chart (fun c => c.Built ∧ c.Plain) t') := by
  cases h with
  | withHook hook => exact ⟨m.congr rfl rfl⟩
  | register _ hd =>
    refine m.nonempty_register_after (fun cs hbuild c hc => ?_) fun c hc => hc.1.sound
    exact ⟨⟨_, _, cs, hbuild, hc⟩, hd.of_build hbuild c hc⟩
  | insert _ hbuilt hc => exact m.nonempty_insert_after ⟨hbuilt, hc⟩ hbuilt.sound

/-- Such a tree has a chart of such commands. -/
theorem PlainlyGrown.nonempty_chart (h : t.PlainlyGrown) :
    Nonempty (Chart (fun c => c.Built ∧ c.Plain) t) := by
  obtain ⟨s, hcalls⟩ := h
  induction hcalls with
  | refl => exact ⟨.empty _ s⟩
  | tail _ hcall ih =>
    obtain ⟨m⟩ := ih
    exact hcall.nonempty_chart m

/-- **Registration is monotone.** Let every call on a tree so far have asked for no permission, only
for built-in types, and for defaults that their types read. After one more such call, whether it is
refused or not, every line that resolved before it still resolves. -/
theorem resolves_after_call (h : t.PlainlyGrown) (hcall : PlainCall t t') (principal : α)
    (line : String) (hline : ∃ r, t.parse principal line = .ok r) :
    ∃ r, t'.parse principal line = .ok r := by
  obtain ⟨m⟩ := h.nonempty_chart
  obtain ⟨m'⟩ := hcall.nonempty_chart m
  obtain ⟨hgrows, hflags⟩ := hcall.grows
  have hopen (c : Command α σ) (hc : c.Built ∧ c.Plain) : c.Open := hc.2.opened
  have hreadable (c : Command α σ) (hc : c.Built ∧ c.Plain) : c.Readable := hc.2.readable
  obtain ⟨given, a, haccepts⟩ :=
    (m.exists_parse_eq_ok_iff (fun _ hc => hc.1) hopen hreadable principal line).mp hline
  refine (m'.exists_parse_eq_ok_iff (fun _ hc => hc.1) hopen hreadable principal line).mpr ?_
  exact ⟨given, m.accepts_of_grows m' hgrows hflags hopen m.size_pos haccepts⟩

/-- A command with a switch whose shorthand is that of the switch of `hurried`. -/
def forced : Declaration Unit Unit := { name := "go", steps := [.parameter (.switch "force")] }

/-- A command with a switch and an argument with a default. -/
def hurried : Declaration Unit Unit :=
  { name := "go"
    steps := [.parameter (.switch "fast"),
      .parameter (Parameter.withDefault (.ofBuiltin "times" (.integer none none)) "1")] }

/-- A switch asks for nothing special. -/
theorem plain_switch (name : String) : (Parameter.switch name : Parameter Unit).Plain where
  permission_eq := rfl
  builtin := ⟨.truth, rfl, nofun⟩

/-- Nor does a default that can be read. -/
theorem plain_hurried : hurried.Plain where
  permission_eq := rfl
  parameters p hp := by
    rcases List.mem_cons.mp hp with rfl | hp
    · exact plain_switch "fast"
    · obtain rfl := List.mem_singleton.mp hp
      refine ⟨rfl, .integer none none, rfl, fun text htext => ?_⟩
      obtain rfl := Option.some.inj htext
      exact ⟨.integer 1, _, rfl⟩

theorem plain_forced : forced.Plain where
  permission_eq := rfl
  parameters p hp := by
    obtain rfl := List.mem_singleton.mp hp
    exact plain_switch "force"

/-- The switch that `f` stood for goes on being found when another one asks for that shorthand. -/
theorem resolves_after_call_forced :
    ∃ t t' : Tree Unit Unit, t.PlainlyGrown ∧ PlainCall t t' ∧
      (∃ r, t.parse () "go 2 -f" = .ok r) ∧ ∃ r, t'.parse () "go 2 -f" = .ok r := by
  have hcall : PlainCall (empty {}) ((Growth.register hurried).after (empty {})) :=
    .register _ plain_hurried
  have hgrown : ((Growth.register hurried).after (empty {})).PlainlyGrown := ⟨{}, .single hcall⟩
  have hparse : ∃ r, ((Growth.register hurried).after (empty {})).parse () "go 2 -f" = .ok r ∧
      r.command.id = 0 := by decide +kernel
  have hline := hparse.imp fun _ h => h.1
  exact ⟨_, _, hgrown, .register _ plain_forced, hline,
    resolves_after_call hgrown (.register _ plain_forced) () "go 2 -f" hline⟩

end Tree

end CommandLine
