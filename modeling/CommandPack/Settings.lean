import CommandPack.Path

/-!
# Settings of a compilation
-/

namespace CommandPack

structure Settings where
  /-- The name of the pack in calls and in the name of the carrier. -/
  pack : String := "pack"
  /-- The name of the root routine. -/
  root : String := "main"
  /-- The number of characters an objective name may have. -/
  slotLimit : Nat := 16
  /-- The indent unit of a source without leading spaces. -/
  defaultIndent : Nat := 4
  deriving DecidableEq, Repr

namespace Settings

def withSlotLimit (settings : Settings) (limit : Nat) : Settings :=
  { settings with slotLimit := max limit 1 }

def withDefaultIndent (settings : Settings) (indent : Nat) : Settings :=
  { settings with defaultIndent := max indent 1 }

def rootPath (settings : Settings) : Path :=
  Path.root settings.root

end Settings

end CommandPack
