import CommandPack.Command.Basic
import CommandPack.Signature
import CommandPack.Symbols

/-!
# Routines

A routine is a list of commands with a name of its own. Some are written by the
user, others come from the blocks that control flow splits off.
-/

namespace CommandPack

/-- Where a routine comes from. -/
inductive RoutineKind
  | root
  | defined
  | block (role : BlockRole)
  /-- A copy of a definition for one choice of string arguments. -/
  | variant
  deriving DecidableEq, Repr

namespace RoutineKind

/-- The routines that declare their own parameters. -/
def bindsParams : RoutineKind → Bool
  | defined | variant => true
  | _ => false

def isGuard : RoutineKind → Bool
  | block .guard => true
  | _ => false

end RoutineKind

/-- What a definition with string parameters keeps until it is called. -/
structure Template where
  /-- The variables declared where the definition stands. -/
  symbols : Symbols
  /-- The number of variants made so far. -/
  counter : Nat := 0
  deriving DecidableEq

structure Routine where
  path : Path
  kind : RoutineKind
  /-- The position of the first line of the body. -/
  start : Nat
  /-- The depth of the lines of the body. -/
  depth : Nat
  /-- The nearest enclosing definition. -/
  owner : Path
  params : List Param := []
  commands : List Command := []
  /-- Whether the routine must be there under its own name. -/
  used : Bool := false
  /-- Whether the body may ask to leave its loop. -/
  mayExit : Bool := false
  /-- Whether the body may ask for the next round of its loop. -/
  maySkip : Bool := false
  /-- The nearest enclosing loop body. -/
  loop : Option Path := none
  /-- Values of string variables, by path. -/
  bindings : List (String × String) := []
  template : Option Template := none
  /-- The guarded block that the body goes on in. -/
  continuation : Option Path := none
  compiled : Bool := false
  deriving DecidableEq

namespace Routine

/-- The routine that the sources are the body of. -/
def ofRoot (path : Path) : Routine :=
  { path, kind := .root, start := 0, depth := 0, owner := path, used := true }

def isTemplate (routine : Routine) : Bool :=
  routine.params.any fun param => param.kind.isString

def hasDefaults (routine : Routine) : Bool :=
  routine.params.any fun param => param.default.isSome

end Routine

end CommandPack
