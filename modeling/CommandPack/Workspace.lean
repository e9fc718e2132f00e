import CommandPack.Journal
import CommandPack.Routine
import CommandPack.Settings
import CommandPack.Source.Line

/-!
# Workspaces

A workspace holds all that a compilation builds: the lines read so far, the
routines, the declared variables, and the scoreboard slots of integer variables
and constants.
-/

namespace CommandPack

structure Workspace where
  settings : Settings := {}
  routines : Table Path Routine := {}
  /-- Paths of the integer variables, in the order of their declaration. -/
  ints : List String := []
  /-- Constants that need a slot, each value once. -/
  constants : List Int := []
  /-- Objective names by path, for integer variables and constants. -/
  slots : Table String String := {}
  symbols : Symbols := {}
  lines : List Line := []
  /-- Names of the sources, in order. -/
  sources : List String := []
  /-- What has happened, the latest event first. -/
  journal : List Event := []

namespace Workspace

def record (ws : Workspace) (event : Event) : Workspace :=
  { ws with journal := event :: ws.journal }

/-! ### Sources -/

/-- Reads a source and adds its lines at the end. -/
def addSource (ws : Workspace) (name text : String) : Except Fault Workspace :=
  let index := ws.sources.length
  match Line.read text ws.settings.defaultIndent index with
  | .ok lines =>
    .ok ({ ws with lines := ws.lines ++ lines, sources := ws.sources ++ [name] }.record
      (.sourceRead index name lines.length))
  | .error fault =>
    .error { fault with
      place := fault.place.map fun place =>
        if name = "" then place else { place with source := some name } }

/-- The place of a line. There is an empty place past the last one. -/
def placeAt (ws : Workspace) (index : Nat) : Place :=
  match ws.lines[index]? with
  | none => {}
  | some line =>
    { line := line.number
      text := Shield.remove line.text
      source := ws.sources[line.source]?.filter (· ≠ "") }

/-- The place of the header of a routine. -/
def placeOf (ws : Workspace) (path : Path) : Place :=
  ws.placeAt (((ws.routines.get? path).map fun routine => routine.start - 1).getD 0)

/-! ### Routines -/

def routine (ws : Workspace) (path : Path) : Except Cause Routine :=
  match ws.routines.get? path with
  | some routine => .ok routine
  | none => .error (.unknownFunction path.render)

/-- Changes the routine at a path, if there is one. -/
def updateRoutine (ws : Workspace) (path : Path) (f : Routine → Routine) : Workspace :=
  { ws with routines := ws.routines.modify path f }

/-- Adds a routine under a path that is free. -/
def register (ws : Workspace) (routine : Routine) : Except Cause Workspace :=
  if ws.routines.contains routine.path then
    .error (.duplicateFunction routine.path.leaf)
  else
    .ok { ws with routines := ws.routines.insert routine.path routine }

def isDefined (ws : Workspace) (path : Path) : Bool :=
  (ws.routines.get? path).any fun routine => routine.kind = .defined

/-- The definition that a name stands for in a scope, innermost first. -/
def resolveFunction? (ws : Workspace) (scope : Path) (name : String) : Option Path :=
  if name = "" then none else ((scope.candidates name).map Path.parse).find? ws.isDefined

/-- Whether a routine stays in the pack. -/
def keeps (routine : Routine) : Bool :=
  routine.used && !routine.commands.isEmpty

/-- The paths of the routines that pruning drops. -/
def dropped (ws : Workspace) : List Path :=
  (ws.routines.values.filter fun routine => !keeps routine).map Routine.path

/-- Drops the routines that are unused or empty. -/
def prune (ws : Workspace) : Workspace :=
  let kept := { ws with routines := ws.routines.filter fun _ routine => keeps routine }
  if ws.dropped.isEmpty then kept else kept.record (.routinesPruned ws.dropped)

/-! ### Variables -/

def resolve? (ws : Workspace) (scope : Path) (name : String) : Option String :=
  ws.symbols.resolve? scope name

/-- The path of the integer variable that a name stands for. -/
def resolveInt? (ws : Workspace) (scope : Path) (name : String) : Option String :=
  (ws.resolve? scope name).filter fun path => ws.symbols.kind? path = some .integer

def declare (ws : Workspace) (path : String) (kind : Kind) : Workspace :=
  { ws with symbols := ws.symbols.declare path kind }

def bindString (ws : Workspace) (path value : String) : Workspace :=
  { ws with symbols := ws.symbols.bind path value }

def removeSymbol (ws : Workspace) (path : String) : Workspace :=
  { ws with symbols := ws.symbols.remove path }

/-! ### Slots -/

/-- The last characters of a name, as many as an objective name may have. -/
def shorten (ws : Workspace) (name : String) : String :=
  let chars := Text.chars name
  String.ofList (chars.drop (chars.length - ws.settings.slotLimit))

/-- Gives an integer variable a slot, unless it has one. -/
def addInt (ws : Workspace) (path : String) : Workspace :=
  if path ∈ ws.ints then
    ws
  else
    let objective := ws.shorten (path ++ "." ++ Text.natural ws.slots.size)
    { ws with ints := ws.ints ++ [path], slots := ws.slots.insert path objective }

/-- Declares an integer variable and gives it a slot. -/
def declareInt (ws : Workspace) (path : String) : Workspace :=
  (ws.declare path .integer).addInt path

/-- The path of a constant, by its position among the constants. -/
def constantPath (index : Nat) : String :=
  "CONSTANT." ++ Text.natural index

/-- Gives a constant a slot, unless it has one, and returns its path. -/
def addConstant (ws : Workspace) (value : Int) : String × Workspace :=
  match ws.constants.findIdx? (· = value) with
  | some index => (constantPath index, ws)
  | none =>
    let path := constantPath ws.constants.length
    (path,
      { ws with
        constants := ws.constants ++ [value]
        slots := ws.slots.insert path (ws.shorten path) })

/-- The objective name of a slot. -/
def objective (ws : Workspace) (path : String) : Except Cause String :=
  match ws.slots.get? path with
  | some name => .ok name
  | none => .error (.internal ("no scoreboard slot for \"" ++ path ++ "\""))

end Workspace

end CommandPack
