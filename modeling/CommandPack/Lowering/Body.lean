import CommandPack.Workspace

/-!
# Compiling a body

Compiling changes the workspace, and the changes made before a fault stay. While
one body is compiled, its commands and its other results are collected apart and
reach the workspace only when the body is done.
-/

namespace CommandPack

/-- Why a compilation ends early. -/
inductive Halt
  | fault (fault : Fault)
  /-- The bound on the number of steps was reached. -/
  | exhausted
  deriving DecidableEq, Repr

/-- Gives a fault a place if it has none. -/
def Halt.locate (place : Place) : Halt → Halt
  | fault f => fault (f.locate place)
  | exhausted => exhausted

/-! ### Steps on the workspace -/

abbrev WorkM := EStateM Halt Workspace

namespace WorkM

variable {α : Type}

def fail (cause : Cause) : WorkM α :=
  throw (.fault { cause })

/-- Fails at the line with a given position. -/
def failAt (index : Nat) (cause : Cause) : WorkM α := do
  throw (.fault { cause, place := some ((← get).placeAt index) })

/-- Reads the workspace, or fails. -/
def query (f : Workspace → Except Cause α) : WorkM α := do
  match f (← get) with
  | .ok a => return a
  | .error cause => fail cause

/-- Changes the workspace. -/
def update (f : Workspace → Workspace) : WorkM Unit :=
  modify f

/-- Changes the workspace, or fails and leaves it. -/
def update? (f : Workspace → Except Cause Workspace) : WorkM Unit := do
  set (← query f)

def record (event : Event) : WorkM Unit :=
  update fun ws => ws.record event

def routine (path : Path) : WorkM Routine :=
  query fun ws => ws.routine path

/-- Changes the routine at a path, which must be there. -/
def updateRoutine (path : Path) (f : Routine → Routine) : WorkM Unit := do
  let _ ← routine path
  update fun ws => ws.updateRoutine path f

/-- Gives a fault of a step the place of a line, if it has none. -/
def locate (index : Nat) (step : WorkM α) : WorkM α := fun ws =>
  match step ws with
  | .ok a after => .ok a after
  | .error halt after => .error (halt.locate (after.placeAt index)) after

end WorkM

/-! ### Steps on a body -/

/-- The last branch of an `else` chain that may still go on. -/
structure Chain where
  branch : Path
  /-- The marker of the chain, once it is known to have an `else`. -/
  marker : Option String := none
  deriving DecidableEq, Repr

/-- What compiling a body has collected. -/
structure Body where
  commands : List Command := []
  /-- Commands to run just before the next execution. -/
  pending : List Command := []
  /-- Paths of the variables declared here. -/
  locals : List String := []
  /-- The number of blocks split off. -/
  counter : Nat := 0
  mayExit : Bool := false
  maySkip : Bool := false
  continuation : Option Path := none
  previous : Option Chain := none

/-- The line being compiled: its position and the lines after it. -/
structure Site where
  index : Nat
  following : List Line

abbrev BodyM := StateT Body WorkM

/-- Compiles the routine at a path, which may go on with an `else` chain. -/
abbrev Compile := Path → Option Chain → WorkM Unit

namespace BodyM

/-- Adds a command, which may not be blank. -/
def emit (command : Command) : BodyM Unit :=
  if command.isBlank then
    WorkM.fail (.malformedCommand "The command is empty.")
  else
    modify fun body => { body with commands := body.commands ++ [command] }

/-- Adds commands that are known not to be blank. -/
def emitAll (commands : List Command) : BodyM Unit :=
  modify fun body => { body with commands := body.commands ++ commands }

/-- Takes the commands that wait for the next execution. -/
def takePending : BodyM (List Command) :=
  modifyGet fun body => (body.pending, { body with pending := [] })

def addLocal (path : String) : BodyM Unit :=
  modify fun body => { body with locals := body.locals ++ [path] }

def locate {α : Type} (index : Nat) (step : BodyM α) : BodyM α := fun body =>
  WorkM.locate index (step body)

end BodyM

end CommandPack
