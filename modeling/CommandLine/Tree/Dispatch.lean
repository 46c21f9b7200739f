import CommandLine.Tree.Search

/-!
# Dispatching lines

A line is resolved by a search from the root. If it finds a command, its omitted parameters are
filled in and the result is bound to it; otherwise one of the recorded rejections is reported, as
the policy of the settings says. Dispatching also runs the action of the command and then the hooks.
-/

set_option autoImplicit false

namespace CommandLine

variable {α σ : Type}

/-- A line resolved to a command with its values. The context's input is where reading stopped. -/
structure Resolved (α σ : Type) where
  command : Command α σ
  context : Context α

/-- What a line resolved to, for developers. -/
def Resolved.inspect (r : Resolved α σ) : String := r.context.inspect (some r.command.usage)

/-- The rejection that a policy reports among recorded ones: the first of those found furthest into
the line, or the last. -/
def ReportPolicy.choose? : ReportPolicy → List Rejection → Option Rejection
  | _, [] => none
  | last, f :: fs => some (fs.getLastD f)
  | furthest, f :: fs =>
    some (fs.foldl (fun best g => if best.position < g.position then g else best) f)

/-- The value of an omitted parameter: its default read by its type, `false` for a switch, and the
zero of its type otherwise, if the type has one. -/
def omittedValue? (p : Parameter α) (ctx : Context α) : Except Rejection (Option Value) :=
  match p.default with
  | some text =>
    match (p.type.parse ctx (Cursor.ofString text)).1 with
    | .ok value => .ok (some value)
    | .error f => .error (f.atNode p.name)
  | none => .ok (if p.isSwitch then some (.truth false) else p.type.traits.zero)

/-- Fills in one parameter, unless it has a value. -/
def fillParameter (ctx : Context α) (p : Parameter α) : Except Rejection (Context α) :=
  if ctx.bindings.contains p.name then .ok ctx
  else
    match omittedValue? p ctx with
    | .ok (some value) => .ok (ctx.bind p.name value)
    | .ok none => .ok ctx
    | .error f => .error f

/-- Fills in parameters in order; a later default may look at the values before it. -/
def fillParameters (ctx : Context α) : List (Parameter α) → Except Rejection (Context α)
  | [] => .ok ctx
  | p :: ps =>
    match fillParameter ctx p with
    | .ok ctx => fillParameters ctx ps
    | .error f => .error f

namespace Tree

/-- The visit with which the search over a line begins. -/
def start (principal : α) (line : String) : Visit α :=
  { node := root, cursor := (Cursor.ofString line).skipBlank, context := .ofLine principal line }

/-- The rejection reported for a line on which a search found nothing. -/
def reported (t : Tree α σ) (line : String) (recorded : List Rejection) : Rejection :=
  (t.settings.policy.choose? recorded).getD
    ⟨.unknownCommand (Cursor.ofString line).word, 0, none⟩

/-- Resolves a line without running anything. -/
def parse (t : Tree α σ) (principal : α) (line : String) :
    Except Rejection (Resolved α σ) :=
  let found := t.search (start principal line)
  match found.outcome with
  | none => .error (t.reported line found.rejections)
  | some (.error f) => .error f
  | some (.ok command) =>
    match fillParameters found.context command.parameters with
    | .error f => .error f
    | .ok ctx => .ok ⟨command, { ctx with input := found.cursor }⟩

section

variable {t : Tree α σ} {principal : α} {line : String}

theorem parse_of_none (h : (t.search (start principal line)).outcome = none) :
    t.parse principal line =
      .error (t.reported line (t.search (start principal line)).rejections) := by
  simp only [parse, h]

theorem parse_of_denied {r : Rejection}
    (h : (t.search (start principal line)).outcome = some (.error r)) :
    t.parse principal line = .error r := by
  simp only [parse, h]

theorem parse_of_found {c : Command α σ}
    (h : (t.search (start principal line)).outcome = some (.ok c)) :
    t.parse principal line =
      match fillParameters (t.search (start principal line)).context c.parameters with
      | .error f => .error f
      | .ok ctx =>
        .ok ⟨c, { ctx with input := (t.search (start principal line)).cursor }⟩ := by
  simp only [parse, h]

/-- A line that resolves was found by the search, and its omitted parameters were filled in. -/
theorem exists_of_parse_eq_ok {r : Resolved α σ} (h : t.parse principal line = .ok r) :
    (t.search (start principal line)).outcome = some (.ok r.command) ∧
      ∃ ctx, fillParameters (t.search (start principal line)).context r.command.parameters =
          .ok ctx ∧
        r.context = { ctx with input := (t.search (start principal line)).cursor } := by
  cases hout : (t.search (start principal line)).outcome with
  | none => rw [parse_of_none hout] at h; cases h
  | some o =>
    cases o with
    | error r' => rw [parse_of_denied hout] at h; cases h
    | ok c =>
      rw [parse_of_found hout] at h
      split at h
      · cases h
      · rename_i ctx hfill
        obtain rfl := Except.ok.inj h
        exact ⟨rfl, ctx, hfill, rfl⟩

end

/-- Runs the action of a resolved command and then every hook. A command without an action runs
nothing. -/
def run (t : Tree α σ) (r : Resolved α σ) (state : σ) : σ :=
  match r.command.action with
  | none => state
  | some action =>
    t.hooks.foldl (fun state hook => hook r.command r.context state) (action r.context state)

/-- Resolves a line and runs the command it resolves to. -/
def dispatch (t : Tree α σ) (principal : α) (line : String) (state : σ) :
    Except Rejection (Resolved α σ) × σ :=
  match t.parse principal line with
  | .ok r => (.ok r, t.run r state)
  | .error f => (.error f, state)

end Tree

end CommandLine
