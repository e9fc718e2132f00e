import CommandPack.Mark.Shield
import CommandPack.Workspace

/-!
# The load prelude

The load routine starts by summoning the carrier and declaring an objective for
every slot. Constants also get their value there. A pack without slots needs no
prelude.
-/

namespace CommandPack.Workspace

/-- Removes the shielding from the commands of every routine. -/
def unshield (ws : Workspace) : Workspace :=
  { ws with
    routines := ws.routines.map fun _ routine =>
      { routine with
        commands := routine.commands.map fun command =>
          .text (Shield.remove (command.render ws.settings.pack)) } }

def loadPath (ws : Workspace) : Path :=
  ws.settings.rootPath.child "load"

/-- Declares the objectives of integer variables. -/
def declareInts (ws : Workspace) : List String → Except Cause (List Command)
  | [] => .ok []
  | path :: rest => do
    let objective ← ws.objective path
    return .declareScore objective :: (← declareInts ws rest)

/-- Declares and sets the objectives of constants, the first of them at `index`. -/
def declareConstants (ws : Workspace) : Nat → List Int → Except Cause (List Command)
  | _, [] => .ok []
  | index, value :: rest => do
    let objective ← ws.objective (constantPath index)
    return .declareScore objective :: .setScore objective value ::
      (← declareConstants ws (index + 1) rest)

/-- The commands that set up the scoreboard. -/
def prelude (ws : Workspace) : Except Cause (List Command) := do
  let ints ← ws.declareInts ws.ints
  let constants ← ws.declareConstants 0 ws.constants
  return .summonCarrier :: ints ++ constants

/-- Makes sure that there is a load routine. -/
def ensureLoad (ws : Workspace) : Workspace :=
  if ws.routines.contains ws.loadPath then
    ws
  else
    let load : Routine :=
      { path := ws.loadPath, kind := .defined, start := 0, depth := 1, owner := ws.loadPath }
    { ws.record (.loadCreated ws.loadPath) with
      routines := ws.routines.insert ws.loadPath load }

/-- Puts the prelude in front of the load routine, if there are slots. -/
def addPrelude (ws : Workspace) : Except Cause Workspace :=
  if ws.ints.isEmpty && ws.constants.isEmpty then
    .ok ws
  else do
    let commands ← ws.prelude
    return ws.ensureLoad.updateRoutine ws.loadPath fun routine =>
      { routine with commands := commands ++ routine.commands, used := true }

end CommandPack.Workspace
