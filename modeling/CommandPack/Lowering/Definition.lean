import CommandPack.Lowering.Body

/-!
# Definitions

All definitions of a body are registered before its first line is compiled, so
that calls may come before them. Reaching a definition compiles it, or keeps it
for later if it has string parameters.
-/

namespace CommandPack.Definition

/-- The routine of a definition, not yet compiled. -/
def routine (self : Routine) (index : Nat) (signature : Signature) : Routine where
  path := self.path.child signature.name
  kind := .defined
  start := index + 1
  depth := self.depth + 1
  owner := self.path.child signature.name
  params := signature.params

/-- Gives the integer parameters of a routine slots. -/
def addParamSlots (ws : Workspace) (path : Path) (params : List Param) : Workspace :=
  params.foldl
    (fun ws param => if param.kind.isInteger then ws.addInt (path.qualify param.name) else ws)
    ws

/-- Registers the definition in a line. -/
def register (self : Routine) (index : Nat) (text : String) : WorkM Unit := do
  if self.kind.bindsParams && self.hasDefaults then
    WorkM.fail .defaultsWithSubfunctions
  else
    let signature ← WorkM.query fun _ => Signature.parse text
    let routine := routine self index signature
    WorkM.update (addParamSlots · routine.path routine.params)
    WorkM.update? (·.register routine)

/-- Registers the definitions of a body. -/
def registerAll (self : Routine) : Nat → List Line → WorkM Unit
  | _, [] => pure ()
  | index, line :: rest => do
    if line.depth < self.depth then
      pure ()
    else
      if line.depth = self.depth && (Statement.splitHead line.text).1 = "def" then
        WorkM.locate index (register self index line.text)
      registerAll self (index + 1) rest

/-- Compiles the definition with a name. A definition is there under its own name
even if all its calls are replaced by its commands. -/
def define (compile : Compile) (self : Routine) (name : String) : BodyM Unit := do
  let callee ← WorkM.query fun ws =>
    match ws.resolveFunction? self.path name with
    | some path => .ok path
    | none => .error (.internal ("definition \"" ++ name ++ "\" was never registered"))
  let routine ← WorkM.routine callee
  if routine.isTemplate then
    let ws ← WorkM.query .ok
    WorkM.updateRoutine callee ({ · with template := some { symbols := ws.symbols } })
    WorkM.record (.definitionDeferred callee)
  else
    compile callee none
    WorkM.updateRoutine callee ({ · with used := true })

end CommandPack.Definition
