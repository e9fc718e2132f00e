import CommandPack.Proofs.Lowering.Expansion
import CommandPack.Proofs.Script.Reading

/-!
# What plain statements do

Everything that a statement without a block can do to the body and to the workspace is a
sequence of a few effects. Each effect says where the names, texts and objectives in it come
from, so that an invariant of compilations is checked effect by effect and not statement by
statement.
-/

namespace CommandPack

variable {kind : Kind} {ws : Workspace} {scope : Path} {expression next path sign : String}
  {u : Unit} {start stop : Body × Workspace} {before : List Piece} {check : Check}

namespace Symbols

variable {symbols : Symbols} {path name : String}

@[simp]
theorem contains_declare :
    (symbols.declare path kind).contains name = true ↔ name = path ∨ symbols.contains name = true := by
  simp only [declare, contains, Table.contains_eq, Table.get?_insert]
  split <;> simp [*]

@[simp]
theorem contains_bind {value : String} :
    (symbols.bind path value).contains name = true ↔ name = path ∨ symbols.contains name = true := by
  simp only [bind, contains, Table.contains_eq, Table.get?_insert]
  split <;> simp [*]

@[simp]
theorem contains_remove :
    (symbols.remove path).contains name = true ↔ name ≠ path ∧ symbols.contains name = true := by
  simp only [remove, contains, Table.erase, Table.contains_eq, Table.get?_filter]
  cases symbols.kinds.get? name <;> by_cases same : name = path <;> simp [same]

theorem contains_iff : symbols.contains name = true ↔ ∃ kind, symbols.kind? name = some kind := by
  rw [contains, Table.contains_eq, Option.isSome_iff_exists]
  rfl

@[simp]
theorem kind?_declare : (symbols.declare path kind).kind? name =
    if name = path then some kind else symbols.kind? name :=
  Table.get?_insert ..

@[simp]
theorem kind?_bind {value : String} : (symbols.bind path value).kind? name =
    if name = path then some .string else symbols.kind? name :=
  Table.get?_insert ..

@[simp]
theorem string?_bind {value : String} : (symbols.bind path value).string? name =
    if name = path then some value else symbols.string? name :=
  Table.get?_insert ..

theorem remove_at : (symbols.remove path).kind? path = none ∧
    (symbols.remove path).string? path = none := by
  simp [remove, kind?, string?, Table.erase, Table.get?_filter]

theorem remove_other (other : name ≠ path) :
    (symbols.remove path).kind? name = symbols.kind? name ∧
      (symbols.remove path).string? name = symbols.string? name := by
  simp only [remove, kind?, string?, Table.erase, Table.get?_filter]
  cases symbols.kinds.get? name <;> cases symbols.strings.get? name <;> simp [other]

end Symbols

/-- The variables that a body assigns to: its own new ones, which are among its locals, and those
that a name stands for. -/
inductive Target (self : Routine) (locals : List String) (ws : Workspace) : String → Prop
  | own {name : String} (valid : Name.isVariable name = true)
      (fresh : ws.resolve? self.path name = none) (mem : self.path.qualify name ∈ locals) :
      Target self locals ws (self.path.qualify name)
  | declared {name path : String} (valid : Name.isVariable name = true)
      (resolved : ws.resolve? self.path name = some path) :
      Target self locals ws path

/-- The names that a body writes to: the variables that it assigns to and parameters of
definitions. -/
inductive Named (self : Routine) (ws : Workspace) : String → Prop
  | target {locals : List String} {path : String} (target : Target self locals ws path) :
      Named self ws path
  | param {callee : Path} {routine : Routine} {param : Param}
      (found : ws.routines.get? callee = some routine) (defined : routine.kind = .defined)
      (mem : param ∈ routine.params) : Named self ws (callee.qualify param.name)

/-- A text comes from substituting in a text of the source. -/
def Written (self : Routine) (source : String → Prop) (ws : Workspace) (out : String) : Prop :=
  ∃ text, source text ∧ Substitution.substitute ws self.path text = .ok out

/-- The commands that a plain statement adds. Only some statements make calls. -/
inductive Emission (self : Routine) (source : String → Prop) (calls : Prop) (ws : Workspace) :
    Command → Prop
  | text {out : String} (written : Written self source ws out) :
      Emission self source calls ws (.text out)
  | summon {out path : String} (written : Written self source ws out)
      (named : Named self ws path) : Emission self source calls ws (.text (Summon.withTag out path))
  | addTag {out path : String} (written : Written self source ws out)
      (named : Named self ws path) : Emission self source calls ws (.addTag out path)
  | releaseTag {path : String} (named : Named self ws path) :
      Emission self source calls ws (.releaseTag path)
  | setScore {path objective : String} {value : Int} (slot : ws.objective path = .ok objective) :
      Emission self source calls ws (.setScore objective value)
  | addScore {path objective : String} {value : Int} (slot : ws.objective path = .ok objective) :
      Emission self source calls ws (.addScore objective value)
  | removeScore {path objective : String} {value : Int}
      (slot : ws.objective path = .ok objective) :
      Emission self source calls ws (.removeScore objective value)
  | combineScores {path path' objective objective' : String} {op : ScoreOp}
      (slot : ws.objective path = .ok objective) (slot' : ws.objective path' = .ok objective') :
      Emission self source calls ws (.combineScores objective op objective')
  | call {callee : Path} {strings : List String} (allowed : calls)
      {routine : Routine} (found : ws.routines.get? callee = some routine)
      (defined : routine.kind = .defined)
      (full : strings.length = routine.params.countP (·.kind.isString))
      (written : ∀ out ∈ strings, Written self source ws out) :
      Emission self source calls ws (.invoke [] ⟨callee, strings⟩)

/-- One thing that a plain statement or a header does. -/
inductive Effect (self : Routine) (source : String → Prop) (calls : Prop) :
    Body × Workspace → Body × Workspace → Prop
  | emit {body : Body} {ws : Workspace} {command : Command}
      (emission : Emission self source calls ws command) :
      Effect self source calls (body, ws)
        ({ body with commands := body.commands ++ [command] }, ws)
  | wait {body : Body} {ws : Workspace} {path path' objective objective' : String} (op : ScoreOp)
      (slot : ws.objective path = .ok objective) (slot' : ws.objective path' = .ok objective') :
      Effect self source calls (body, ws)
        ({ body with pending := body.pending ++ [.combineScores objective op objective'] }, ws)
  | addLocal {body : Body} {ws : Workspace} {name : String} (valid : Name.isVariable name = true)
      (fresh : ws.resolve? self.path name = none) :
      Effect self source calls (body, ws)
        ({ body with locals := body.locals ++ [self.path.qualify name] }, ws)
  | declare {body : Body} {ws : Workspace} {path : String} {kind : Kind}
      (target : Target self body.locals ws path) (kindOk : kind.isString = false)
      (slot : kind = .integer → path ∈ ws.ints) :
      Effect self source calls (body, ws) (body, ws.declare path kind)
  | addInt {body : Body} {ws : Workspace} {path : String}
      (target : Target self body.locals ws path ∨
        ∃ declared, ws.symbols.contains declared = true ∧ path = Condition.scratch declared) :
      Effect self source calls (body, ws) (body, ws.addInt path)
  | bindString {body : Body} {ws : Workspace} {path value : String}
      (target : Target self body.locals ws path) (written : Written self source ws value) :
      Effect self source calls (body, ws) (body, ws.bindString path value)
  | addConstant {body : Body} {ws : Workspace} {value : Int} :
      Effect self source calls (body, ws) (body, (ws.addConstant value).2)

/-- Effects one after the other. -/
abbrev Effects (self : Routine) (source : String → Prop) (calls : Prop) :
    Body × Workspace → Body × Workspace → Prop :=
  Relation.ReflTransGen (Effect self source calls)

/-- A name stands for a declared path. -/
theorem Workspace.contains_of_resolve? {name : String} (h : ws.resolve? scope name = some path) :
    ws.symbols.contains path = true := by
  simp only [resolve?, Symbols.resolve?] at h
  split at h
  · cases h
  · exact List.find?_some h

theorem Workspace.contains_of_resolveInt? {name : String}
    (h : ws.resolveInt? scope name = some path) : ws.symbols.contains path = true :=
  contains_of_resolve? (Option.filter_eq_some_iff.1 h).1

theorem Workspace.addInt_symbols (ws : Workspace) (path : String) :
    (ws.addInt path).symbols = ws.symbols := by
  unfold Workspace.addInt
  split <;> rfl

theorem Workspace.mem_ints_addInt (ws : Workspace) (path : String) :
    path ∈ (ws.addInt path).ints := by
  unfold Workspace.addInt
  split
  · next known => exact known
  · simp

/-- It does not matter whether a variable is declared first or gets its slot first. -/
theorem Workspace.declareInt_eq (ws : Workspace) (path : String) :
    ws.declareInt path = (ws.addInt path).declare path .integer := by
  unfold Workspace.declareInt Workspace.addInt
  by_cases present : path ∈ ws.ints
  · rw [if_pos present, if_pos (show path ∈ (ws.declare path .integer).ints from present)]
  · rw [if_neg present, if_neg (show path ∉ (ws.declare path .integer).ints from present)]
    rfl

/-! ### Assignments -/

namespace Assignment

open BodyM

variable {self : Routine} {source : String → Prop} {calls : Prop} {body body' : Body}
  {ws ws' : Workspace}

theorem effects_setInt {value : Int} (h : Gives (setInt path value) body ws u body' ws') :
    Effects self source calls (body, ws) (body', ws') := by
  simp only [setInt, gives_bind, gives_lift, WorkM.gives_query, gives_emit] at h
  obtain ⟨objective, _, _, ⟨⟨slot, rfl⟩, rfl⟩, _, rfl, rfl⟩ := h
  exact .single (.emit (.setScore slot))

theorem effects_copyInt {from' : String} (h : Gives (copyInt path from') body ws u body' ws') :
    Effects self source calls (body, ws) (body', ws') := by
  simp only [copyInt, gives_bind, gives_lift, WorkM.gives_query, gives_emit] at h
  obtain ⟨target, _, _, ⟨⟨slot, rfl⟩, rfl⟩, objective, _, _, ⟨⟨slot', rfl⟩, rfl⟩, _, rfl, rfl⟩ := h
  exact .single (.emit (.combineScores slot slot'))

/-- The path to assign to is a new variable of this body or a declared one. -/
theorem effects_destination {target : String} (valid : Name.isVariable target = true)
    (h : Gives (destination self target) body ws path body' ws') :
    Effects self source calls (body, ws) (body', ws') ∧ ws' = ws ∧
      Target self body'.locals ws path ∧
      (ws.resolve? self.path target = none → path = self.path.qualify target) := by
  simp only [destination, gives_bind, gives_lift, WorkM.gives_query, Except.ok.injEq] at h
  obtain ⟨_, body, ws, ⟨⟨rfl, rfl⟩, rfl⟩, h⟩ := h
  split at h
  · next fresh =>
    simp only [gives_bind, gives_addLocal, gives_pure] at h
    obtain ⟨_, _, _, ⟨rfl, rfl⟩, rfl, rfl, rfl⟩ := h
    exact ⟨.single (.addLocal valid fresh), rfl, .own valid fresh (by simp), fun _ => rfl⟩
  · next resolved =>
    have known : Target self body.locals ws _ := .declared valid resolved
    have stale {P : Prop} (fresh : ws.resolve? self.path target = none) : P :=
      absurd (resolved.symm.trans fresh) (Option.some_ne_none _)
    split at h
    · simp at h
    · simp only [gives_bind, gives_emit, gives_pure] at h
      obtain ⟨_, _, _, ⟨_, rfl, rfl⟩, rfl, rfl, rfl⟩ := h
      exact ⟨.single (.emit (.releaseTag (.target known))), rfl, known, stale⟩
    · simp only [gives_pure] at h
      obtain ⟨rfl, rfl, rfl⟩ := h
      exact ⟨.refl, rfl, known, stale⟩

theorem isString_of_isEntity (h : kind.isEntity = true) : kind.isString = false := by
  cases kind <;> simp_all [Kind.isEntity, Kind.isString]

theorem effects_assignSummoned {value : String} {declared : Option Kind}
    (target : Target self body.locals ws path) (hsource : source value)
    (h : Gives (assignSummoned self path declared value) body ws u body' ws') :
    Effects self source calls (body, ws) (body', ws') ∧ ws'.symbols.contains path = true := by
  simp only [assignSummoned] at h
  split at h
  · next entity =>
    simp only [gives_bind, gives_substitute, gives_emit, gives_lift, WorkM.gives_update] at h
    obtain ⟨out, _, _, ⟨written, rfl, rfl⟩, _, _, _, ⟨_, rfl, rfl⟩, rfl, rfl⟩ := h
    exact ⟨.tail (.single (.emit (.summon ⟨value, hsource, written⟩ (.target target))))
      (.declare target (isString_of_isEntity entity) fun integer => by
        rw [integer] at entity
        cases entity), Symbols.contains_declare.2 (.inl rfl)⟩
  · simp at h

theorem effects_assignEntity {selector : String} {player single : Bool}
    (target : Target self body.locals ws path) (written : Written self source ws selector)
    (h : Gives (assignEntity path (.entity player single) selector) body ws u body' ws') :
    Effects self source calls (body, ws) (body', ws') ∧ ws'.symbols.contains path = true := by
  simp only [assignEntity, gives_bind, gives_emit, gives_lift, WorkM.gives_update] at h
  obtain ⟨_, _, _, ⟨rfl, rfl⟩, _, rfl, rfl⟩ := h
  -- the tag is added to the body, which does not depend on the declaration
  exact ⟨.tail (.single (.emit (.addTag written (.target target)))) (.declare target rfl (by rintro ⟨⟩)),
    Symbols.contains_declare.2 (.inl rfl)⟩

/-- An integer variable has a slot before it is declared. -/
theorem effects_declareInt (target : Target self body.locals ws path) :
    Effects self source calls (body, ws) (body, ws.declareInt path) := by
  have still : Target self body.locals (ws.addInt path) path := by
    have symbols := ws.addInt_symbols path
    cases target with
    | own valid fresh mem =>
      exact .own valid (by rw [Workspace.resolve?, symbols]; exact fresh) mem
    | declared valid resolved =>
      exact .declared valid (by rw [Workspace.resolve?, symbols]; exact resolved)
  rw [ws.declareInt_eq path]
  exact .tail (.single (.addInt (.inl target)))
    (.declare still rfl fun _ => ws.mem_ints_addInt path)

theorem contains_declareInt : (ws.declareInt path).symbols.contains path = true := by
  rw [ws.declareInt_eq path]
  exact Symbols.contains_declare.2 (.inl rfl)

theorem effects_declareOnly {clarifier : String} (target : Target self body.locals ws path)
    (h : Gives (declareOnly path expression clarifier) body ws u body' ws') :
    Effects self source calls (body, ws) (body', ws') ∧ ws'.symbols.contains path = true := by
  unfold declareOnly at h
  split at h
  · simp only [gives_lift, WorkM.gives_update] at h
    obtain ⟨rfl, rfl⟩ := h
    exact ⟨effects_declareInt target, contains_declareInt⟩
  · simp only [gives_lift, WorkM.gives_update] at h
    obtain ⟨rfl, rfl⟩ := h
    exact ⟨.single (.declare target rfl (by rintro ⟨⟩)), Symbols.contains_declare.2 (.inl rfl)⟩
  · simp at h

theorem effects_setNew {value : Int} (target : Target self body.locals ws path)
    (h : Gives (setInt path value) body (ws.declareInt path) u body' ws') :
    Effects self source calls (body, ws) (body', ws') ∧ ws'.symbols.contains path = true := by
  refine ⟨(effects_declareInt target).trans (effects_setInt h), ?_⟩
  simp only [setInt, gives_bind, gives_lift, WorkM.gives_query, gives_emit] at h
  obtain ⟨_, _, _, ⟨⟨_, rfl⟩, rfl⟩, _, _, rfl⟩ := h
  exact contains_declareInt

theorem effects_copyNew {from' : String} (target : Target self body.locals ws path)
    (h : Gives (copyInt path from') body (ws.declareInt path) u body' ws') :
    Effects self source calls (body, ws) (body', ws') ∧ ws'.symbols.contains path = true := by
  refine ⟨(effects_declareInt target).trans (effects_copyInt h), ?_⟩
  simp only [copyInt, gives_bind, gives_lift, WorkM.gives_query, gives_emit] at h
  obtain ⟨_, _, _, ⟨⟨_, rfl⟩, rfl⟩, _, _, _, ⟨⟨_, rfl⟩, rfl⟩, _, _, rfl⟩ := h
  exact contains_declareInt

theorem effects_assignInferred {from' : Option String} (target : Target self body.locals ws path)
    (written : Written self source ws expression)
    (h : Gives (assignInferred path expression from') body ws u body' ws') :
    Effects self source calls (body, ws) (body', ws') ∧ ws'.symbols.contains path = true := by
  unfold assignInferred at h
  split at h
  · simp only [gives_bind, gives_lift, WorkM.gives_update] at h
    obtain ⟨_, _, _, ⟨rfl, rfl⟩, h⟩ := h
    exact effects_setNew target h
  · simp only [gives_bind, gives_lift, WorkM.gives_update] at h
    obtain ⟨_, _, _, ⟨rfl, rfl⟩, h⟩ := h
    exact effects_copyNew target h
  · split at h
    · exact effects_assignEntity target written h
    · split at h
      · exact effects_declareOnly target h
      · simp only [gives_lift, WorkM.gives_update] at h
        obtain ⟨rfl, rfl⟩ := h
        exact ⟨.single (.bindString target written), Symbols.contains_bind.2 (.inl rfl)⟩

theorem effects_assignDeclared {from' : Option String} (target : Target self body.locals ws path)
    (written : Written self source ws expression)
    (h : Gives (assignDeclared path expression from' kind) body ws u body' ws') :
    Effects self source calls (body, ws) (body', ws') ∧ ws'.symbols.contains path = true := by
  unfold assignDeclared at h
  split at h
  · split at h
    · exact effects_assignEntity target written h
    · simp at h
  · simp only [gives_bind, gives_lift, WorkM.gives_update] at h
    obtain ⟨_, _, _, ⟨rfl, rfl⟩, h⟩ := h
    split at h
    · exact effects_setNew target h
    · exact effects_copyNew target h
    · simp at h
  · simp only [gives_lift, WorkM.gives_update] at h
    obtain ⟨rfl, rfl⟩ := h
    exact ⟨.single (.bindString target written), Symbols.contains_bind.2 (.inl rfl)⟩

theorem effects_assign {target value : String} {clarifier : Option String} (hsource : source value)
    (h : Gives (assign self target clarifier value) body ws u body' ws') :
    Effects self source calls (body, ws) (body', ws') ∧ Name.isVariable target = true ∧
      (ws.resolve? self.path target = none →
        ws'.symbols.contains (self.path.qualify target) = true) := by
  unfold assign at h
  split at h
  · simp at h
  · next valid =>
    split at h
    · simp at h
    · simp only [gives_bind, gives_lift, WorkM.gives_query] at h
      obtain ⟨declared, _, _, ⟨⟨_, rfl⟩, rfl⟩, path, mid, _, hdest, h⟩ := h
      have valid : Name.isVariable target = true := by simpa using valid
      obtain ⟨effects, rfl, isTarget, own⟩ : Effects self source calls _ _ ∧ _ ∧ _ ∧ _ :=
        effects_destination valid hdest
      suffices assigns : Effects self source calls _ (body', ws') ∧
          ws'.symbols.contains path = true from
        ⟨effects.trans assigns.1, valid, fun fresh => own fresh ▸ assigns.2⟩
      split at h
      · exact effects_assignSummoned isTarget hsource h
      · simp only [gives_bind, gives_substitute, gives_lift, WorkM.gives_query] at h
        obtain ⟨expression, _, _, ⟨written, rfl, rfl⟩, _, _, _, ⟨⟨_, rfl⟩, rfl⟩, h⟩ := h
        split at h
        · exact effects_assignInferred isTarget ⟨value, hsource, written⟩ h
        · exact effects_assignDeclared isTarget ⟨value, hsource, written⟩ h

/-! ### Changes in place -/

@[simp]
theorem gives_intTarget {target : String} :
    Gives (intTarget self target) body ws path body' ws' ↔
      ws.resolveInt? self.path target = some path ∧ body' = body ∧ ws' = ws := by
  simp only [intTarget, gives_lift, WorkM.gives_query]
  cases ws.resolveInt? self.path target <;> simp [and_comm, and_left_comm]

theorem effects_augmentByNumber {objective operand : String} {operator : Operator} {value : Int}
    (slot : ws.objective path = .ok objective)
    (h : Gives (augmentByNumber path objective operator value operand) body ws u body' ws') :
    Effects self source calls (body, ws) (body', ws') := by
  unfold augmentByNumber at h
  split at h
  · split at h <;> (rw [gives_emit] at h; obtain ⟨_, rfl, rfl⟩ := h)
    · exact .single (.emit (.removeScore slot))
    · exact .single (.emit (.addScore slot))
  · split at h <;> (rw [gives_emit] at h; obtain ⟨_, rfl, rfl⟩ := h)
    · exact .single (.emit (.addScore slot))
    · exact .single (.emit (.removeScore slot))
  · simp at h
  · simp only [internConstant, gives_bind, gives_lift, WorkM.gives_query, WorkM.gives_update,
      gives_pure, gives_emit, Except.ok.injEq] at h
    obtain ⟨constant, _, _, ⟨_, _, _, ⟨⟨rfl, rfl⟩, rfl⟩, _, _, _, ⟨rfl, rfl⟩, rfl, rfl, rfl⟩,
      target, _, _, ⟨⟨slot, rfl⟩, rfl⟩, objective', _, _, ⟨⟨slot', rfl⟩, rfl⟩, _, rfl, rfl⟩ := h
    exact .tail (.single .addConstant) (.emit (.combineScores slot slot'))

theorem effects_augment {target operand : String} {operator : Operator}
    (h : Gives (augment self target operator operand) body ws u body' ws') :
    Effects self source calls (body, ws) (body', ws') := by
  simp only [augment, gives_bind, gives_intTarget] at h
  obtain ⟨path, _, _, ⟨_, rfl, rfl⟩, h⟩ := h
  split at h
  · simp at h
  · simp only [gives_bind, gives_lift, WorkM.gives_query] at h
    obtain ⟨objective, _, _, ⟨⟨slot, rfl⟩, rfl⟩, _, _, _, ⟨⟨_, rfl⟩, rfl⟩, h⟩ := h
    split at h
    · simp only [gives_bind, gives_lift, WorkM.gives_query, gives_emit] at h
      obtain ⟨objective', _, _, ⟨⟨slot', rfl⟩, rfl⟩, _, rfl, rfl⟩ := h
      exact .single (.emit (.combineScores slot slot'))
    · exact effects_augmentByNumber slot h
    · simp at h

theorem effects_step {target : String} {up : Bool}
    (h : Gives (step self target up) body ws u body' ws') :
    Effects self source calls (body, ws) (body', ws') := by
  simp only [step, gives_bind, gives_intTarget, gives_lift, WorkM.gives_query] at h
  obtain ⟨path, _, _, ⟨_, rfl, rfl⟩, objective, _, _, ⟨⟨slot, rfl⟩, rfl⟩, h⟩ := h
  split at h <;> (rw [gives_emit] at h; obtain ⟨_, rfl, rfl⟩ := h)
  · exact .single (.emit (.addScore slot))
  · exact .single (.emit (.removeScore slot))

end Assignment

/-! ### Calls -/

namespace Invocation

open BodyM

variable {self : Routine} {source : String → Prop} {calls : Prop} {body body' : Body}
  {ws ws' : Workspace} {callee : Path} {handed : Handed} {arguments : List String}

/-- The names of parameters are written to. -/
theorem Expansion.named (e : Expansion self ws callee arguments)
    (defined : ws.isDefined callee = true) (mem : handed ∈ e.all) : Named self ws handed.slot := by
  obtain ⟨routine, found, isDefined, mem⟩ := e.registered defined mem
  exact .param found isDefined mem

theorem Passes.emission {command : Command} (h : Passes self ws handed command)
    (named : Named self ws handed.slot) (hsource : source handed.argument) :
    Emission self source calls ws command := by
  cases h with
  | mark _ written => exact .addTag ⟨_, hsource, written⟩ named
  | number _ _ _ slot => exact .setScore (Workspace.objective_eq_ok.2 slot)
  | copy _ _ slot slot' =>
    exact .combineScores (Workspace.objective_eq_ok.2 slot) (Workspace.objective_eq_ok.2 slot')

/-- Adding commands is one effect per command. -/
theorem effects_emitAll {commands : List Command}
    (emissions : ∀ command ∈ commands, Emission self source calls ws command) :
    Effects self source calls (body, ws)
      ({ body with commands := body.commands ++ commands }, ws) := by
  induction commands generalizing body with
  | nil => simpa using Relation.ReflTransGen.refl
  | cons command _ ih =>
    rw [List.forall_mem_cons] at emissions
    refine .head (.emit emissions.1) ?_
    simpa using @ih { body with commands := body.commands ++ [command] } emissions.2

theorem effects_call {arguments : String} (allowed : calls) (defined : ws.isDefined callee = true)
    (hsource : ∀ argument ∈ Argument.split arguments, source argument)
    (hdefaults : ∀ path routine, ws.routines.get? path = some routine → ∀ param ∈ routine.params,
      ∀ argument, param.default = some argument → source argument)
    (h : Gives (call self callee arguments) body ws u body' ws') :
    Effects self source calls (body, ws) (body', ws') := by
  obtain ⟨rfl, e, rfl⟩ := expansion_of_call h
  have sourced {handed : Handed} (mem : handed ∈ e.all) : source handed.argument := by
    rcases e.sourced mem with written | default
    · exact hsource _ written
    · obtain ⟨routine, found, -, mem⟩ := e.registered defined mem
      exact hdefaults _ routine found _ mem _ default
  refine effects_emitAll fun command mem => ?_
  rcases List.mem_append.1 mem with bound | mem
  · obtain ⟨handed, carried, passes⟩ := exists_left_of_forall₂ e.passes bound
    have mem : handed ∈ e.all := List.mem_of_mem_filter carried
    exact passes.emission (e.named defined mem) (sourced mem)
  · rcases List.mem_cons.1 mem with rfl | released
    · obtain ⟨routine, found, isDefined, full⟩ := e.full defined
      refine .call allowed found isDefined full fun out mem => ?_
      obtain ⟨handed, spelled, written⟩ := exists_left_of_forall₂ e.spells mem
      have mem : handed ∈ e.all := List.mem_append_right _ (List.mem_of_mem_filter spelled)
      exact ⟨_, sourced mem, written⟩
    · obtain ⟨_, tag, rfl⟩ := List.mem_map.1 released
      obtain ⟨handed, entity, rfl⟩ := List.mem_map.1 tag
      exact .releaseTag (e.named defined (List.mem_of_mem_filter entity))

end Invocation

/-! ### Headers -/

namespace Condition

open BodyM

variable {self : Routine} {source : String → Prop} {calls : Prop} {body body' : Body}
  {ws ws' : Workspace}

/-- The clauses of a header come from its arguments and from slots. A slot is read while the
header is compiled, the arguments are substituted in the workspace that it leaves. -/
inductive Checked (self : Routine) (source : String → Prop) (calls : Prop)
    (start stop : Body × Workspace) : Clause → Prop
  | words {argument out : String} (hsource : source argument)
      (written : Substitution.substituteArgument stop.2 self.path argument = .ok out) :
      Checked self source calls start stop (.words out)
  | score {mid : Body × Workspace} {path objective : String} {range : ScoreRange}
      (before : Effects self source calls start mid) (slot : mid.2.objective path = .ok objective)
      (after : Effects self source calls mid stop) :
      Checked self source calls start stop (.score objective range)

/-- The pieces of a header in the making. A score that is tested was read on the way. -/
def Sound (self : Routine) (source : String → Prop) (calls : Prop)
    (start stop : Body × Workspace) : Piece → Prop
  | .source text => source text
  | .test clause => ∃ mid path objective range, Effects self source calls start mid ∧
    mid.2.objective path = .ok objective ∧ Effects self source calls mid stop ∧
      clause = .score objective range
  | .removed => True

theorem Sound.later {mid : Body × Workspace} {piece : Piece}
    (h : Sound self source calls start mid piece) (after : Effects self source calls mid stop) :
    Sound self source calls start stop piece := by
  cases piece with
  | source => exact h
  | test =>
    obtain ⟨at', path, objective, range, before, slot, between, same⟩ := h
    exact ⟨at', path, objective, range, before, slot, between.trans after, same⟩
  | removed => trivial

/-- The slots that a comparison reads have a property. -/
def Check.All (p : String → Prop) : Check → Prop
  | .range slot _ => p slot
  | .difference left right _ => p left ∧ p right

/-- The variables that a comparison reads are declared. -/
def Check.Declared (ws : Workspace) (check : Check) : Prop :=
  check.All fun slot => ws.symbols.contains slot = true

theorem resolveInt?_of_operand {piece : Piece} (h : operand ws scope piece = .slot path) :
    ws.resolveInt? scope piece.text = some path := by
  unfold operand at h
  split at h
  · split at h
    · next found =>
      cases h
      exact found
    · split at h <;> cases h
  · cases h

/-- The checks that compare what two arguments stand for. -/
inductive Checks (ws : Workspace) (scope : Path) (left right : String) (comparison : Comparison) :
    Check → Prop
  | variableLiteral {slot : String} {value : Int}
      (hleft : operand ws scope (.source left) = .slot slot)
      (hright : operand ws scope (.source right) = .literal value) :
      Checks ws scope left right comparison (.range slot (comparison.range value))
  | literalVariable {slot : String} {value : Int}
      (hleft : operand ws scope (.source left) = .literal value)
      (hright : operand ws scope (.source right) = .slot slot) :
      Checks ws scope left right comparison (.range slot (comparison.converse.range value))
  | scores {slot slot' : String} (hleft : operand ws scope (.source left) = .slot slot)
      (hright : operand ws scope (.source right) = .slot slot') :
      Checks ws scope left right comparison (.difference slot slot' comparison)

/-- A comparison reads the arguments beside its sign, and stands where one may stand. -/
theorem of_check? (h : check? ws scope before sign next = .ok (some check)) :
    ∃ left earlier comparison, before = .source left :: earlier ∧
      Comparison.ofSymbol? sign = some comparison ∧ allowsComparison earlier = true ∧
      Checks ws scope left next comparison check := by
  unfold check? at h
  split at h
  · next piece earlier comparison symbol =>
    have isSource (some' : operand ws scope piece ≠ .other) : ∃ left, piece = .source left := by
      cases piece with
      | source left => exact ⟨left, rfl⟩
      | _ => exact absurd rfl some'
    simp only at h
    split at h
    · cases h
    · cases h
    · cases h
    · cases h
    · next hl hr =>
      obtain ⟨left, rfl⟩ := isSource (by simp [hl])
      split at h
      · next allowed =>
        cases h
        exact ⟨left, earlier, comparison, rfl, symbol, allowed, .variableLiteral hl hr⟩
      · cases h
    · next hl hr =>
      obtain ⟨left, rfl⟩ := isSource (by simp [hl])
      split at h
      · next allowed =>
        cases h
        exact ⟨left, earlier, comparison, rfl, symbol, allowed, .literalVariable hl hr⟩
      · cases h
    · next hl hr =>
      obtain ⟨left, rfl⟩ := isSource (by simp [hl])
      split at h
      · next allowed =>
        cases h
        exact ⟨left, earlier, comparison, rfl, symbol, allowed, .scores hl hr⟩
      · cases h
  · cases h

/-- A comparison reads only integer variables that stand beside its sign. -/
theorem all_of_check? {p : String → Prop}
    (ints : ∀ {name path}, name = next ∨ (∃ piece ∈ before.head?, name = piece.text) →
      ws.resolveInt? scope name = some path → p path)
    (h : check? ws scope before sign next = .ok (some check)) : check.All p := by
  obtain ⟨left, earlier, comparison, rfl, _, _, checks⟩ := of_check? h
  have first {path : String} (slot : operand ws scope (.source left) = .slot path) : p path :=
    ints (.inr ⟨_, rfl, rfl⟩) (resolveInt?_of_operand slot)
  have second {path : String} (slot : operand ws scope (.source next) = .slot path) : p path :=
    ints (.inl rfl) (resolveInt?_of_operand slot)
  cases checks with
  | variableLiteral hleft => exact first hleft
  | literalVariable _ hright => exact second hright
  | scores hleft hright => exact ⟨first hleft, second hright⟩

theorem declared_of_check? (h : check? ws scope before sign next = .ok (some check)) :
    check.Declared ws :=
  all_of_check? (fun _ => Workspace.contains_of_resolveInt?) h

/-- What compiling a part of a header leaves: the body has more pending commands, and the
variables are the same. -/
structure Waiting (start stop : Body × Workspace) : Prop where
  body : ∃ added, stop.1 = { start.1 with pending := start.1.pending ++ added } ∧
    ∀ command ∈ added, ∃ target op source, command = .combineScores target op source
  symbols : stop.2.symbols = start.2.symbols

theorem Waiting.refl (start : Body × Workspace) : Waiting start start :=
  ⟨⟨[], by simp⟩, rfl⟩

theorem Waiting.trans {mid : Body × Workspace} (h : Waiting start mid) (h' : Waiting mid stop) :
    Waiting start stop := by
  obtain ⟨⟨added, hbody, hadded⟩, hsymbols⟩ := h
  obtain ⟨⟨added', hbody', hadded'⟩, hsymbols'⟩ := h'
  refine ⟨⟨added ++ added', ?_, ?_⟩, hsymbols'.trans hsymbols⟩
  · simp [hbody', hbody]
  · intro command mem
    rcases List.mem_append.1 mem with mem | mem
    · exact hadded command mem
    · exact hadded' command mem

theorem effects_test {clause : Clause} (declared : check.Declared ws)
    (h : Gives (test check) body ws clause body' ws') :
    Effects self source calls (body, ws) (body', ws') ∧ Waiting (body, ws) (body', ws') ∧
      ∀ start, Effects self source calls start (body, ws) →
        Sound self source calls start (body', ws') (.test clause) := by
  cases check with
  | range =>
    simp only [test, gives_bind, gives_lift, WorkM.gives_query, gives_pure] at h
    obtain ⟨objective, _, _, ⟨⟨found, rfl⟩, rfl⟩, rfl, rfl, rfl⟩ := h
    exact ⟨.refl, .refl _, fun start before => ⟨_, _, _, _, before, found, .refl, rfl⟩⟩
  | difference left =>
    have scratch : Effect self source calls (body, ws) (body, ws.addInt (scratch left)) :=
      .addInt (.inr ⟨left, declared.1, rfl⟩)
    simp only [test, gives_bind, gives_lift, WorkM.gives_query, WorkM.gives_update,
      gives_modify, gives_pure] at h
    obtain ⟨_, _, _, ⟨rfl, rfl⟩, difference, _, _, ⟨⟨found, rfl⟩, rfl⟩, minuend, _, _,
      ⟨⟨foundLeft, rfl⟩, rfl⟩, subtrahend, _, _, ⟨⟨foundRight, rfl⟩, rfl⟩, _, _, _,
      ⟨rfl, rfl⟩, rfl, rfl, rfl⟩ := h
    have waits (body : Body) : Effects self source calls (body, ws.addInt (Condition.scratch left))
        ({ body with
           pending := body.pending ++ [.combineScores difference .assign minuend,
             .combineScores difference (.apply .subtract) subtrahend] },
          ws.addInt (Condition.scratch left)) := by
      refine .head (.wait .assign found foundLeft) ?_
      refine .head (.wait (.apply .subtract) found foundRight) ?_
      simpa using Relation.ReflTransGen.refl
    refine ⟨.head scratch (waits _), ⟨⟨_, rfl, ?_⟩, ws.addInt_symbols _⟩, ?_⟩
    · intro command mem
      simp only [List.mem_cons, List.not_mem_nil, or_false] at mem
      rcases mem with rfl | rfl <;> exact ⟨_, _, _, rfl⟩
    · exact fun start before => ⟨_, _, _, _, before.tail scratch, found, waits _, rfl⟩

/-- What `lower` leaves, over all the pieces of a header. -/
theorem effects_lower {pieces : List Piece} {arguments : List String}
    (hbefore : ∀ piece ∈ before, Sound self source calls start (body, ws) piece)
    (hsource : ∀ argument ∈ arguments, source argument)
    (earlier : Effects self source calls start (body, ws))
    (h : Gives (lower self.path before arguments) body ws pieces body' ws') :
    Effects self source calls (body, ws) (body', ws') ∧ Waiting (body, ws) (body', ws') ∧
      ∀ piece ∈ pieces, Sound self source calls start (body', ws') piece := by
  fun_induction lower self.path before arguments generalizing body ws with
  | case1 _ sign _ _ ihCheck ihNone =>
    simp only [gives_bind, gives_lift, WorkM.gives_query] at h
    obtain ⟨checked, _, _, ⟨⟨hcheck, rfl⟩, rfl⟩, h⟩ := h
    cases checked with
    | some =>
      simp only [gives_bind] at h
      obtain ⟨clause, mid, wsMid, htest, h⟩ := h
      obtain ⟨effects, waiting, clauseOk⟩ : Effects self source calls _ _ ∧ _ ∧ _ :=
        effects_test (declared_of_check? hcheck) htest
      obtain ⟨effects', waiting', pieces⟩ := ihCheck clause
        (by
          intro piece mem
          simp only [List.mem_cons] at mem
          rcases mem with rfl | rfl | rfl | mem
          · trivial
          · trivial
          · exact clauseOk start earlier
          · exact (hbefore piece (List.mem_of_mem_tail mem)).later effects)
        (fun a ha => hsource a (.tail _ (.tail _ ha))) (earlier.trans effects) h
      exact ⟨effects.trans effects', waiting.trans waiting', pieces⟩
    | none =>
      exact ihNone
        (by
          intro piece mem
          rcases List.mem_cons.1 mem with rfl | mem
          · exact hsource sign (.head _)
          · exact hbefore piece mem)
        (fun a ha => hsource a (.tail _ ha)) earlier h
  | case2 =>
    simp only [gives_pure] at h
    obtain ⟨rfl, rfl, rfl⟩ := h
    refine ⟨.refl, .refl _, ?_⟩
    intro piece mem
    simp only [List.mem_append, List.mem_reverse, List.mem_map] at mem
    rcases mem with mem | ⟨argument, mem, rfl⟩
    · exact hbefore piece mem
    · exact hsource argument mem

theorem checked_of_clauses {pieces : List Piece} {clauses : List Clause}
    (sound : ∀ piece ∈ pieces, Sound self source calls start stop piece)
    (h : Condition.clauses stop.2 self.path pieces = .ok clauses) :
    ∀ clause ∈ clauses, Checked self source calls start stop clause := by
  induction pieces generalizing clauses with
  | nil =>
    simp only [Condition.clauses, Except.ok.injEq] at h
    simp [← h]
  | cons piece rest ih =>
    have hrest := fun p hp => sound p (.tail _ hp)
    have here := sound piece (.head _)
    cases piece with
    | source =>
      simp only [Condition.clauses] at h
      split at h
      · cases h
      · next words written =>
        cases hc : Condition.clauses stop.2 self.path rest with
        | error => simp [hc, Except.map] at h
        | ok =>
          simp only [hc, Except.map, Except.ok.injEq] at h
          subst h
          intro clause mem
          rcases List.mem_cons.1 mem with rfl | mem
          · exact .words here written
          · exact ih hrest hc clause mem
    | test =>
      simp only [Condition.clauses] at h
      cases hc : Condition.clauses stop.2 self.path rest with
      | error => simp [hc, Except.map] at h
      | ok =>
        simp only [hc, Except.map, Except.ok.injEq] at h
        subst h
        intro c mem
        rcases List.mem_cons.1 mem with rfl | mem
        · obtain ⟨_, _, _, _, before, slot, after, rfl⟩ := here
          exact .score before slot after
        · exact ih hrest hc c mem
    | removed =>
      simp only [Condition.clauses] at h
      exact ih hrest h

/-- A header only makes commands wait and gives slots, and its clauses come from the source. -/
theorem effects_header {text : String} {clauses : List Clause}
    (hsource : ∀ argument ∈ Argument.split text, source argument)
    (h : Gives (header self.path text) body ws clauses body' ws') :
    Effects self source calls (body, ws) (body', ws') ∧ Waiting (body, ws) (body', ws') ∧
      ∀ clause ∈ clauses, Checked self source calls (body, ws) (body', ws') clause := by
  simp only [header, gives_bind, gives_lift, WorkM.gives_query] at h
  obtain ⟨pieces, _, _, hlower, ⟨hclauses, rfl⟩, rfl⟩ := h
  obtain ⟨effects, waiting, sound⟩ :
      _ ∧ _ ∧ ∀ piece ∈ pieces, Sound self source calls (body, ws) (_, _) piece :=
    effects_lower (by simp) hsource .refl hlower
  exact ⟨effects, waiting, checked_of_clauses sound hclauses⟩

end Condition

/-- The last block of a body depends on the routines alone. -/
theorem Loop.tail_congr {ws' : Workspace} (same : ws'.routines = ws.routines) (limit : Nat)
    (path : Path) : tail ws' limit path = tail ws limit path := by
  induction limit generalizing path with
  | zero => rfl
  | succ _ ih => simp only [tail, same, ih]

/-! ### Whole statements -/

namespace Lowering

open BodyM

variable {self : Routine} {source : String → Prop} {calls : Prop} {body body' : Body}
  {ws ws' : Workspace}

/-- The texts that a statement substitutes in. -/
def Sources (source : String → Prop) (ws : Workspace) : Statement → Prop
  | .assign _ _ value => source value
  | .call callee arguments =>
    ws.isDefined callee = true ∧ (∀ argument ∈ Argument.split arguments, source argument) ∧
      ∀ path routine, ws.routines.get? path = some routine → ∀ param ∈ routine.params,
        ∀ argument, param.default = some argument → source argument
  | .command text => source text
  | _ => True

/-- A plain statement is a sequence of effects. -/
theorem effects_statement {compile : Compile} {site : Site} {st : Statement}
    (plain : st.isPlain = true) (sources : Sources source ws st)
    (allowed : ∀ callee arguments, st = .call callee arguments → calls)
    (h : Gives (statement compile self site st) body ws u body' ws') :
    Effects self source calls (body, ws) (body', ws') := by
  cases st with
  | assign => exact (Assignment.effects_assign sources h).1
  | augment => exact Assignment.effects_augment h
  | step => exact Assignment.effects_step h
  | call =>
    exact Invocation.effects_call (allowed _ _ rfl) sources.1 sources.2.1 sources.2.2 h
  | command text =>
    simp only [statement, gives_bind, Assignment.gives_substitute, gives_emit] at h
    obtain ⟨out, _, _, ⟨written, rfl, rfl⟩, _, rfl, rfl⟩ := h
    exact .single (.emit (.text ⟨text, sources, written⟩))
  | _ => cases plain

end Lowering

/-! ### The journal of the lines -/

/-- The routine and the position of the line that an event is the start of. -/
def Event.start? : Event → Option (Path × Nat)
  | lineStarted path index _ => some (path, index)
  | _ => none

namespace Workspace

/-- The lines that were started, each with its routine, the first of them first. -/
def starts (ws : Workspace) : List (Path × Nat) :=
  (ws.journal.filterMap Event.start?).reverse

/-- The positions of the lines that were started. -/
def started (ws : Workspace) : List Nat :=
  ws.starts.map Prod.snd

theorem starts_record (ws : Workspace) (event : Event) :
    (ws.record event).starts = ws.starts ++ event.start?.toList := by
  unfold starts record
  cases h : event.start? <;> simp [h]

end Workspace

/-- Two workspaces have the same lines from the same sources. -/
structure Workspace.SameText (ws ws' : Workspace) : Prop where
  lines : ws'.lines = ws.lines
  sources : ws'.sources = ws.sources

namespace Workspace.SameText

variable {ws ws₁ ws' : Workspace}

theorem refl (ws : Workspace) : ws.SameText ws :=
  ⟨rfl, rfl⟩

theorem trans (h : ws.SameText ws₁) (h' : ws₁.SameText ws') : ws.SameText ws' :=
  ⟨h'.lines.trans h.lines, h'.sources.trans h.sources⟩

theorem placeAt (h : ws.SameText ws') (index : Nat) : ws'.placeAt index = ws.placeAt index := by
  unfold Workspace.placeAt
  rw [h.lines, h.sources]

theorem record (ws : Workspace) (event : Event) : ws.SameText (ws.record event) :=
  ⟨rfl, rfl⟩

end Workspace.SameText

/-- Two workspaces have the same text and the same record of the lines that were started. -/
structure Workspace.SameLog (ws ws' : Workspace) : Prop extends SameText ws ws' where
  starts : ws'.starts = ws.starts

namespace Workspace.SameLog

variable {ws ws₁ ws' : Workspace}

theorem refl (ws : Workspace) : ws.SameLog ws :=
  ⟨.refl ws, rfl⟩

theorem trans (h : ws.SameLog ws₁) (h' : ws₁.SameLog ws') : ws.SameLog ws' :=
  ⟨h.toSameText.trans h'.toSameText, h'.starts.trans h.starts⟩

theorem record (ws : Workspace) (event : Event) (other : event.start? = none) :
    ws.SameLog (ws.record event) := by
  refine ⟨⟨rfl, rfl⟩, (starts_record ws event).trans ?_⟩
  rw [other]
  exact List.append_nil _

theorem updateRoutine (ws : Workspace) (path : Path) (f : Routine → Routine) :
    ws.SameLog (ws.updateRoutine path f) :=
  ⟨⟨rfl, rfl⟩, rfl⟩

theorem declare (ws : Workspace) (path : String) (kind : Kind) :
    ws.SameLog (ws.declare path kind) :=
  ⟨⟨rfl, rfl⟩, rfl⟩

theorem bindString (ws : Workspace) (path value : String) :
    ws.SameLog (ws.bindString path value) :=
  ⟨⟨rfl, rfl⟩, rfl⟩

theorem addInt (ws : Workspace) (path : String) : ws.SameLog (ws.addInt path) := by
  unfold Workspace.addInt
  split <;> exact ⟨⟨rfl, rfl⟩, rfl⟩

theorem addConstant (ws : Workspace) (value : Int) : ws.SameLog (ws.addConstant value).2 := by
  unfold Workspace.addConstant
  split <;> exact ⟨⟨rfl, rfl⟩, rfl⟩

end Workspace.SameLog

/-- What every sequence of effects keeps. -/
structure Effects.Kept (start stop : Body × Workspace) : Prop
    extends start.2.SameLog stop.2 where
  routines : stop.2.routines = start.2.routines
  settings : stop.2.settings = start.2.settings
  commands : ∃ added, stop.1.commands = start.1.commands ++ added
  counter : stop.1.counter = start.1.counter
  mayExit : stop.1.mayExit = start.1.mayExit
  maySkip : stop.1.maySkip = start.1.maySkip
  continuation : stop.1.continuation = start.1.continuation
  previous : stop.1.previous = start.1.previous

namespace Effects

variable {self : Routine} {source : String → Prop} {calls : Prop}
  {start mid stop : Body × Workspace}

theorem Kept.refl (start : Body × Workspace) : Kept start start :=
  ⟨.refl _, rfl, rfl, ⟨[], by simp⟩, rfl, rfl, rfl, rfl, rfl⟩

theorem Kept.trans (h : Kept start mid) (h' : Kept mid stop) : Kept start stop where
  toSameLog := h.toSameLog.trans h'.toSameLog
  routines := h'.routines.trans h.routines
  settings := h'.settings.trans h.settings
  commands := by
    obtain ⟨added, ha⟩ := h.commands
    obtain ⟨added', ha'⟩ := h'.commands
    exact ⟨added ++ added', by rw [ha', ha, List.append_assoc]⟩
  counter := h'.counter.trans h.counter
  mayExit := h'.mayExit.trans h.mayExit
  maySkip := h'.maySkip.trans h.maySkip
  continuation := h'.continuation.trans h.continuation
  previous := h'.previous.trans h.previous

theorem kept_of_effect (h : Effect self source calls start stop) : Kept start stop := by
  cases h with
  | emit => exact ⟨.refl _, rfl, rfl, ⟨_, rfl⟩, rfl, rfl, rfl, rfl, rfl⟩
  | addInt =>
    unfold Workspace.addInt
    split
    · exact .refl _
    · exact ⟨⟨⟨rfl, rfl⟩, rfl⟩, rfl, rfl, ⟨[], by simp⟩, rfl, rfl, rfl, rfl, rfl⟩
  | addConstant =>
    unfold Workspace.addConstant
    split
    · exact .refl _
    · exact ⟨⟨⟨rfl, rfl⟩, rfl⟩, rfl, rfl, ⟨[], by simp⟩, rfl, rfl, rfl, rfl, rfl⟩
  | _ => exact ⟨⟨⟨rfl, rfl⟩, rfl⟩, rfl, rfl, ⟨[], by simp⟩, rfl, rfl, rfl, rfl, rfl⟩

theorem kept (h : Effects self source calls start stop) : Kept start stop := by
  induction h with
  | refl => exact .refl _
  | tail _ effect ih => exact ih.trans (kept_of_effect effect)

end Effects

namespace Effect

variable {self : Routine} {source : String → Prop} {calls : Prop} {start stop : Body × Workspace}
  {name : String}

theorem addConstant_symbols (ws : Workspace) (value : Int) :
    (ws.addConstant value).2.symbols = ws.symbols := by
  unfold Workspace.addConstant
  split <;> rfl

theorem contains (h : Effect self source calls start stop)
    (found : start.2.symbols.contains name = true) : stop.2.symbols.contains name = true := by
  cases h with
  | declare => exact Symbols.contains_declare.2 (.inr found)
  | bindString => exact Symbols.contains_bind.2 (.inr found)
  | addInt => rwa [show (Workspace.addInt _ _).symbols = _ from Workspace.addInt_symbols _ _]
  | addConstant => rwa [show (Workspace.addConstant _ _).2.symbols = _ from addConstant_symbols _ _]
  | _ => exact found

/-- A name gets a kind only where it is assigned to. -/
theorem target (h : Effect self source calls start stop)
    (found : stop.2.symbols.kind? name = some kind) :
    start.2.symbols.kind? name = some kind ∨ Target self start.1.locals start.2 name := by
  cases h with
  | declare target =>
    change (Symbols.declare ..).kind? name = some kind at found
    rw [Symbols.kind?_declare] at found
    split at found
    · next same => exact .inr (same ▸ target)
    · exact .inl found
  | bindString target =>
    change (Symbols.bind ..).kind? name = some kind at found
    rw [Symbols.kind?_bind] at found
    split at found
    · next same => exact .inr (same ▸ target)
    · exact .inl found
  | addInt =>
    rw [show (Workspace.addInt _ _).symbols = _ from Workspace.addInt_symbols _ _] at found
    exact .inl found
  | addConstant =>
    rw [show (Workspace.addConstant _ _).2.symbols = _ from addConstant_symbols _ _] at found
    exact .inl found
  | _ => exact .inl found

end Effect

end CommandPack
