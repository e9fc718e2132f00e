import CommandPack.Lowering.Definition
import CommandPack.Lowering.Invocation
import CommandPack.Lowering.Loop

/-!
# Compiling routines

A body is the lines from its first one up to a line of lesser depth. Its own lines
are compiled one by one; deeper lines belong to the blocks of its headers.
-/

namespace CommandPack

namespace Lowering

/-- Compiles one statement. -/
def statement (compile : Compile) (self : Routine) (site : Site) : Statement → BodyM Unit
  | .assign target clarifier value => Assignment.assign self target clarifier value
  | .augment target operator operand => Assignment.augment self target operator operand
  | .step target up => Assignment.step self target up
  | .define name => Definition.define compile self name
  | .call callee arguments => Invocation.call self callee arguments
  | .branch clauses => Block.branch compile self site clauses
  | .otherwise clauses => Block.otherwise compile self site clauses
  | .times count => Loop.times compile self site count
  | .loop test condition => Loop.loop compile self site test condition
  | .exitLoop => Loop.exit self
  | .nextRound => Loop.next self
  | .command text => do BodyM.emit (.text (← Assignment.substitute self text))

/-- Compiles one line. Only the statements of an `else` chain keep it open. -/
def line (compile : Compile) (self : Routine) (site : Site) (text : String) : BodyM Unit := do
  WorkM.record (.lineStarted self.path site.index text)
  modify fun body => { body with pending := [] }
  let parsed ← WorkM.query fun ws => Statement.classify (ws.resolveFunction? self.path) text
  statement compile self site parsed
  if !parsed.continuesChain then
    modify fun body => { body with previous := none }

/-- Compiles the lines of a body, given whether the last of its own lines opens a
block. After a request about the loop no line of the body runs any more. -/
def lines (compile : Compile) (self : Routine) : Bool → Nat → List Line → BodyM Unit
  | _, _, [] => pure ()
  | opensBlock, index, current :: rest => do
    if current.depth < self.depth then
      pure ()
    else if self.depth < current.depth then
      if opensBlock then
        lines compile self opensBlock (index + 1) rest
      else
        WorkM.failAt (index - 1) .incorrectIndentation
    else
      let body ← get
      if !body.mayExit && !body.maySkip then
        BodyM.locate index (line compile self ⟨index, rest⟩ current.text)
      lines compile self (Text.endsWith ":" current.text) (index + 1) rest

/-- The parameters that a routine declares, by path. -/
def declaredParams (self : Routine) : List (String × Kind) :=
  if self.kind.bindsParams then
    self.params.map fun param => (self.owner.qualify param.name, param.kind)
  else
    []

/-- Declares the parameters of a routine and binds its string values. -/
def bindParams (self : Routine) (ws : Workspace) : Workspace :=
  let declared := (declaredParams self).foldl (fun ws param => ws.declare param.1 param.2) ws
  self.bindings.foldl (fun ws binding => ws.bindString binding.1 binding.2) declared

/-- The paths of the parameters and bindings of a routine. -/
def paramPaths (self : Routine) : List String :=
  (declaredParams self).map Prod.fst ++ self.bindings.map Prod.fst

/-- Forgets the variables of a body. Integer variables stay, since their slots
outlive the routine. -/
def releaseLocals (ws : Workspace) (locals : List String) : Workspace :=
  locals.foldl
    (fun ws path =>
      if ws.symbols.kind? path = some .integer then ws else ws.removeSymbol path)
    ws

/-- Stores what was compiled. -/
def commit (self : Routine) (body : Body) : WorkM Unit := do
  WorkM.record (.routineDone self.path body.commands.length)
  WorkM.updateRoutine self.path fun routine =>
    { routine with
      commands := body.commands
      mayExit := body.mayExit
      maySkip := body.maySkip
      continuation := body.continuation
      compiled := true }

/-- Compiles a routine, given how to compile others. -/
def routine (compile : Compile) : Compile := fun path previous => do
  let self ← WorkM.routine path
  WorkM.record (.routineStarted path)
  let body := (← get).lines.drop self.start
  match body with
  | [] =>
    if self.kind = .root || self.kind.isGuard then
      commit self {}
    else
      WorkM.failAt (self.start - 1) .expectedContent
  | first :: _ =>
    if first.depth < self.depth then
      if self.kind.isGuard then
        commit self {}
      else
        WorkM.failAt (self.start - 1) .expectedContent
    else if self.depth < first.depth then
      WorkM.failAt (self.start - 1) .incorrectIndentation
    else
      WorkM.update (bindParams self)
      if !self.kind.isGuard then
        Definition.registerAll self self.start body
      let (_, result) ← (lines compile self false self.start body).run
        { locals := paramPaths self, previous }
      WorkM.update (releaseLocals · result.locals)
      commit self result

/-- Compiles a routine and the routines in it, at most `limit` levels deep. -/
def compile : Nat → Compile
  | 0 => fun _ _ => throw .exhausted
  | limit + 1 => routine (compile limit)

end Lowering

namespace Workspace

/-- The number of levels that routines can nest. Within one definition a nested
routine starts at a later line, and no definition is entered twice on the way. -/
def nesting (ws : Workspace) : Nat :=
  (ws.lines.length + 2) * (ws.routines.size + 1)

/-- Compiles the routine at a path and returns the workspace as it is afterwards,
also after a fault. -/
def compileRoutine (ws : Workspace) (path : Path) : Except Halt Unit × Workspace :=
  match Lowering.compile ws.nesting path none ws with
  | .ok () after => (.ok (), after)
  | .error halt after => (.error halt, after)

/-- Compiles the sources as the body of the root routine. -/
def compile (ws : Workspace) : Except Halt Unit × Workspace :=
  match ws.register (.ofRoot ws.settings.rootPath) with
  | .error cause => (.error (.fault { cause }), ws)
  | .ok registered => registered.compileRoutine ws.settings.rootPath

end Workspace

end CommandPack
