import CommandPack.Text.Search

/-!
# Placeholders of strings without a value

A string variable that has no value where it is used is written as a placeholder
with its path. No placeholder may be left after linking.
-/

namespace CommandPack.Placeholder

def render (path : String) : String :=
  "!s\x7b" ++ path ++ "\x7d"

/-- The path in the first placeholder of a line. -/
def find? (line : String) : Option String := do
  let (_, opened) ← Text.cut? "!s\x7b" line
  let (path, _) ← Text.cut? "\x7d" opened
  return path

end CommandPack.Placeholder
