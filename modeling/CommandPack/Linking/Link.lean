import CommandPack.Linking.Prelude
import CommandPack.Linking.Resolve
import CommandPack.Pack.Basic

/-!
# From sources to packs

Sources are read, compiled and linked. Linking follows calls wherever they lead,
so it takes a bound on its steps.
-/

namespace CommandPack

/-- The routines of a linked workspace. -/
def Pack.ofWorkspace (ws : Workspace) : Pack where
  name := ws.settings.pack
  root := ws.settings.root
  functions := Table.ofList (ws.routines.values.map fun routine =>
    (routine.path.render, routine.commands.map (·.render ws.settings.pack)))
  slots := ws.slots

namespace Workspace

/-- What linking starts from: the used routines wait. -/
def linkState (ws : Workspace) : LinkState where
  ws := ws
  queue := (ws.routines.values.filter Routine.used).map Routine.path

/-- Links a compiled workspace. The workspace is returned too, for its journal. -/
def link (limit : Nat) (ws : Workspace) : Except Halt Pack × Workspace :=
  match Linking.run limit ws.linkState with
  | .error halt state => (.error halt, state.ws)
  | .ok () state =>
    let kept := state.ws.prune.unshield
    match kept.addPrelude with
    | .error cause => (.error (.fault { cause }), kept)
    | .ok linked => (.ok (Pack.ofWorkspace linked), linked)

/-- Adds named sources in order. -/
def addSources (ws : Workspace) : List (String × String) → Except Fault Workspace
  | [] => .ok ws
  | (name, text) :: rest => do addSources (← ws.addSource name text) rest

end Workspace

namespace Pack

/-- Compiles and links sources as one body. -/
def build (limit : Nat) (settings : Settings) (sources : List (String × String)) :
    Except Halt Pack :=
  match Workspace.addSources { settings } sources with
  | .error fault => .error (.fault fault)
  | .ok read =>
    match read.compile with
    | (.error halt, _) => .error halt
    | (.ok (), compiled) => (compiled.link limit).1

/-- A bound on the steps of linking that is far above what packs need. -/
def stepLimit : Nat :=
  1000000

end Pack

end CommandPack
