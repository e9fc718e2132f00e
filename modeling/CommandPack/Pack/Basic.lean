import CommandPack.Path
import CommandPack.Table

/-!
# Packs

A pack is the result of a compilation: the final commands of every routine that
is kept, and the objective name of every slot.
-/

namespace CommandPack

structure Pack where
  name : String
  /-- The name of the root routine. -/
  root : String
  /-- Commands by dotted path. -/
  functions : Table String (List String) := {}
  /-- Objective names by path. -/
  slots : Table String String := {}
  deriving DecidableEq

namespace Pack

def function? (pack : Pack) (path : String) : Option (List String) :=
  pack.functions.get? path

/-- The routines by the names that calls use for them. -/
def artifacts (pack : Pack) : List (String × List String) :=
  pack.functions.entries.map fun entry => ((Path.parse entry.1).artifact, entry.2)

/-- The routine to run when the pack is loaded. -/
def load? (pack : Pack) : Option (List String) :=
  pack.function? (pack.root ++ ".load")

/-- The routine to run again and again. -/
def tick? (pack : Pack) : Option (List String) :=
  pack.function? (pack.root ++ ".tick")

def objective? (pack : Pack) (path : String) : Option String :=
  pack.slots.get? path

def size (pack : Pack) : Nat :=
  pack.functions.size

def isEmpty (pack : Pack) : Bool :=
  pack.functions.isEmpty

end Pack

end CommandPack
