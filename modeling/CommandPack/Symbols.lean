import CommandPack.Kind
import CommandPack.Path
import CommandPack.Table

/-!
# Symbol tables

One table holds the declared variables of a whole compilation, by dotted path. A
name is found in the innermost scope that declares it. A string variable may also
have a value.
-/

namespace CommandPack

structure Symbols where
  kinds : Table String Kind := {}
  strings : Table String String := {}
  deriving DecidableEq

namespace Symbols

/-- Declares a variable anew. A value it had stays. -/
def declare (symbols : Symbols) (path : String) (kind : Kind) : Symbols :=
  { symbols with kinds := symbols.kinds.insert path kind }

/-- Declares a string variable with a value. -/
def bind (symbols : Symbols) (path value : String) : Symbols :=
  { kinds := symbols.kinds.insert path .string, strings := symbols.strings.insert path value }

/-- Removes a variable and its value. -/
def remove (symbols : Symbols) (path : String) : Symbols :=
  { kinds := symbols.kinds.erase path, strings := symbols.strings.erase path }

def kind? (symbols : Symbols) (path : String) : Option Kind :=
  symbols.kinds.get? path

def contains (symbols : Symbols) (path : String) : Bool :=
  symbols.kinds.contains path

def string? (symbols : Symbols) (path : String) : Option String :=
  symbols.strings.get? path

/-- The path that a name stands for in a scope. -/
def resolve? (symbols : Symbols) (scope : Path) (name : String) : Option String :=
  if name = "" then none else (scope.candidates name).find? symbols.contains

/-- The number of declared variables. -/
def size (symbols : Symbols) : Nat :=
  symbols.kinds.size

end Symbols

end CommandPack
