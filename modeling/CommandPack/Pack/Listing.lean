import CommandPack.Pack.Basic

/-!
# Listings of packs

A listing shows every routine under a heading, and then the slots.
-/

namespace CommandPack.Pack

def listRoutine (pack : Pack) (name : String) (commands : List String) : String :=
  "=== " ++ pack.name ++ ":" ++ name ++ " (" ++ Text.natural commands.length ++
    " commands) ===\n" ++ Text.concat (commands.map (· ++ "\n")) ++ "\n"

def listSlots (slots : List (String × String)) : String :=
  if slots = [] then
    ""
  else
    "=== scoreboard slots ===\n" ++
      Text.concat (slots.map fun slot => slot.1 ++ " -> " ++ slot.2 ++ "\n")

/-- The listing of a pack. -/
def listing (pack : Pack) : String :=
  Text.concat (pack.artifacts.map fun entry => listRoutine pack entry.1 entry.2) ++
    listSlots pack.slots.entries

end CommandPack.Pack
