import CommandPack.Lowering.Compile

/-!
# Resolving calls

Linking puts the final text in place of every call mark, from the used routines
on to the routines that they call. A call to an empty routine is skipped, a call
to a routine with one command is replaced by that command, and any other callee is
called by its name and kept. A call with string arguments goes to the variant of
its callee for these arguments, which is compiled when it is first needed.
-/

namespace CommandPack

/-- What linking works on. -/
structure LinkState where
  ws : Workspace
  /-- Paths of routines that wait to be linked. -/
  queue : List Path
  /-- Paths of routines that have been taken from the queue. -/
  visited : List Path := []
  /-- The variants made so far, by callee and arguments. -/
  variants : List ((Path × List String) × Path) := []

abbrev LinkM := EStateM Halt LinkState

namespace Linking

/-- Runs a step on the workspace. -/
def onWorkspace {α : Type} (step : WorkM α) : LinkM α := fun state =>
  match step state.ws with
  | .ok a ws => .ok a { state with ws }
  | .error halt ws => .error halt { state with ws }

/-- Runs a step with other variables declared and then declares the former ones
again. -/
def withSymbols {α : Type} (symbols : Symbols) (step : WorkM α) : WorkM α := fun ws =>
  match step { ws with symbols } with
  | .ok a after => .ok a { after with symbols := ws.symbols }
  | .error halt after => .error halt { after with symbols := ws.symbols }

/-- The routine of a variant, not yet compiled. -/
def variant (template : Routine) (path : Path) (arguments : List String) : Routine where
  path := path
  kind := .variant
  start := template.start
  depth := template.depth
  owner := template.path
  params := template.params
  bindings :=
    ((template.params.filter (·.kind.isString)).map (template.path.qualify ·.name)).zip arguments

/-- Makes the variant of a definition for its string arguments. -/
def makeVariant (callee : Path) (arguments : List String) : WorkM Path := do
  let routine ← WorkM.routine callee
  match routine.template with
  | none =>
    WorkM.fail (.internal (callee.render ++
      " was called with string arguments before its definition was reached"))
  | some template =>
    let path := callee.block .variant template.counter
    WorkM.updateRoutine callee
      ({ · with template := some { template with counter := template.counter + 1 } })
    WorkM.update? (·.register (variant routine path arguments))
    let ws ← get
    withSymbols template.symbols (Lowering.compile ws.nesting path none)
    WorkM.record (.variantCompiled path arguments)
    return path

/-- The variant of a definition for its string arguments. The used routines that a
new variant brings with it wait to be linked. -/
def variantFor (callee : Path) (arguments : List String) : LinkM Path := do
  let state ← get
  match state.variants.lookup (callee, arguments) with
  | some path => return path
  | none =>
    let path ← onWorkspace (makeVariant callee arguments)
    modify fun after =>
      let fresh := (after.ws.routines.values.drop state.ws.routines.size).filter Routine.used
      { after with
        queue := after.queue ++ fresh.map Routine.path
        variants := ((callee, arguments), path) :: after.variants }
    return path

/-- Lets a routine wait to be linked, unless it waits already or has been. -/
def enqueue (state : LinkState) (path : Path) : LinkState :=
  if path ∈ state.visited || path ∈ state.queue then
    state
  else
    { state with queue := state.queue ++ [path] }

/-- Keeps a routine under its own name. -/
def keep (path : Path) : LinkM Unit := do
  onWorkspace (WorkM.updateRoutine path ({ · with used := true }))
  modify fun state => enqueue state path

/-- The text of a call that is not made. -/
def skipped (called : String) : String :=
  inertText "skipped empty call" called

/-- Resolves the first call mark of a line. `depth` counts the calls replaced on
the way to this line, and more of them than there are routines mean that a routine
stands for itself. `limit` bounds the steps. -/
def resolve : Nat → Nat → String → LinkM String
  | 0, _, _ => throw .exhausted
  | limit + 1, depth, line => do
    match CallMark.find? line with
    | none =>
      match Placeholder.find? line with
      | some path => onWorkspace (WorkM.fail (.unboundString path))
      | none => return line
    | some found =>
      let mark := found.mark
      if (← get).ws.routines.size < depth then
        onWorkspace (WorkM.fail (.recursion mark.target.artifact))
      else
        let target ←
          if mark.arguments = [] then pure mark.target
          else variantFor mark.target mark.arguments
        let routine ← onWorkspace (WorkM.routine target)
        let pack := (← get).ws.settings.pack
        let called := found.before ++ callText pack target ++ found.after
        match routine.commands with
        | [] => return skipped called
        | [single] =>
          let replaced ← resolve limit (depth + 1) (single.render pack)
          if isInert replaced then
            return skipped called
          else
            return found.before ++ replaced ++ found.after
        | _ =>
          keep target
          return called

/-- Resolves lines from first to last. -/
def resolveAll (limit : Nat) : List String → LinkM (List String)
  | [] => return []
  | line :: rest => do
    let resolved ← resolve limit 0 line
    return resolved :: (← resolveAll limit rest)

/-- Gives a fault of a step the place of a routine's header, if it has none. -/
def locate {α : Type} (path : Path) (step : LinkM α) : LinkM α := fun state =>
  match step state with
  | .ok a after => .ok a after
  | .error halt after => .error (halt.locate (after.ws.placeOf path)) after

/-- Links one routine. -/
def routine (limit : Nat) (path : Path) : LinkM Unit := do
  let routine ← onWorkspace (WorkM.routine path)
  let pack := (← get).ws.settings.pack
  let lines ← locate path (resolveAll limit (routine.commands.map (·.render pack)))
  onWorkspace (WorkM.updateRoutine path ({ · with commands := lines.map .text }))

/-- Links the routines that wait, each once, in at most `limit` steps. -/
def run : Nat → LinkM Unit
  | 0 => throw .exhausted
  | limit + 1 => do
    let state ← get
    match state.queue with
    | [] => pure ()
    | path :: queue =>
      set { state with queue }
      if path ∈ state.visited then
        run limit
      else
        modify fun state => { state with visited := path :: state.visited }
        routine limit path
        run limit

end Linking

end CommandPack
