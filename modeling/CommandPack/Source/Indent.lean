import CommandPack.Text.Blank
import CommandPack.Text.Lines

/-!
# Indentation

The indent unit of a text is the number of leading spaces of its first line that
has any. A tab is one level. The levels of a line count all its leading tabs and
spaces, in whatever order they come.
-/

namespace CommandPack.Indent

def leadingSpaces (line : List Char) : Nat :=
  (line.takeWhile (· = ' ')).length

/-- The indent unit of a text, or `default` if no line starts with a space. -/
def unitOf (text : String) (default : Nat) : Nat :=
  let lines := (Text.lines text).map Text.chars
  let counts := (lines.filter fun line => Text.trimChars line ≠ []).map leadingSpaces
  max ((counts.find? (0 < ·)).getD default) 1

/-- The depth of a line, if its spaces are a multiple of the unit. -/
def depth? (line : String) (unit : Nat) : Option Nat :=
  let leading := (Text.chars line).takeWhile fun c => c = '\t' || c = ' '
  let tabs := leading.count '\t'
  let spaces := leading.count ' '
  if spaces % max unit 1 = 0 then some (tabs + spaces / max unit 1) else none

end CommandPack.Indent
