import CommandPack.Lowering.Assignment

/-!
# Calls

A call binds its arguments to the parameters of the callee, one after the other.
Once all parameters are bound, a further argument selects a definition inside the
callee, whose parameters come next. Entity parameters are tags, which are released
after the call; integer parameters are slots; string arguments go into the call
mark.
-/

namespace CommandPack.Invocation

open BodyM

/-- A call with the arguments bound so far. -/
structure Partial where
  callee : Path
  /-- Parameters that have no argument yet. -/
  params : List Param
  /-- Arguments of string parameters of the callee. -/
  strings : List String := []
  /-- Tags to release after the call. -/
  released : List String := []

/-- A definition may call neither itself nor a definition around it. -/
def checkRecursion (self : Routine) (callee : Path) : Except Cause Unit :=
  if callee = self.owner || callee.encloses self.owner then
    .error (.recursion self.owner.artifact)
  else
    .ok ()

/-- Binds an argument to a parameter. -/
def bindArgument (self : Routine) (call : Partial) (param : Param) (argument : String) :
    BodyM Partial := do
  let path := call.callee.qualify param.name
  let expression ← Assignment.substitute self argument
  match param.kind with
  | .entity .. =>
    emit (.addTag expression path)
    return { call with released := call.released ++ [path] }
  | .integer =>
    let ws ← WorkM.query .ok
    match Condition.literal? expression, Assignment.intSource? ws self argument with
    | some value, _ => Assignment.setInt path value
    | none, some source => Assignment.copyInt path source
    | none, none => WorkM.fail (.typeMismatch "integer or integer variable" argument)
    return call
  | .string => return { call with strings := call.strings ++ [expression] }

/-- Goes on with a definition inside the callee. String arguments of the callee
itself are dropped. -/
def selectInner (self : Routine) (call : Partial) (name : String) : BodyM Partial := do
  let inner := call.callee.child name
  let ws ← WorkM.query .ok
  if ws.isDefined inner then
    WorkM.query fun _ => checkRecursion self inner
    let routine ← WorkM.routine inner
    return { call with callee := inner, params := routine.params, strings := [] }
  else
    WorkM.fail (.unknownSubfunction call.callee.artifact name)

/-- Takes the arguments of a call from left to right. -/
def bindArguments (self : Routine) : Partial → List String → BodyM Partial
  | call, [] => return call
  | call, argument :: rest => do
    match call.params with
    | param :: params =>
      let bound ← bindArgument self call param argument
      bindArguments self { bound with params } rest
    | [] => bindArguments self (← selectInner self call argument) rest

/-- Binds the defaults of parameters without an argument. -/
def bindDefaults (self : Routine) : Partial → List Param → BodyM Partial
  | call, [] => return call
  | call, param :: params => do
    match param.default with
    | some argument => bindDefaults self (← bindArgument self call param argument) params
    | none => WorkM.fail (.notEnoughParameters call.callee.artifact)

def call (self : Routine) (callee : Path) (arguments : String) : BodyM Unit := do
  WorkM.query fun _ => checkRecursion self callee
  let routine ← WorkM.routine callee
  let bound ← bindArguments self { callee, params := routine.params } (Argument.split arguments)
  let complete ← bindDefaults self bound bound.params
  emit (.invoke [] ⟨complete.callee, complete.strings⟩)
  emitAll (complete.released.map .releaseTag)

end CommandPack.Invocation
