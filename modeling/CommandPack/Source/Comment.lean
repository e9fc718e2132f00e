import CommandPack.Argument

/-!
# Comments

A line whose first argument starts with `#` is a comment. Otherwise a comment
starts at the first argument that is `#` alone.
-/

namespace CommandPack.Comment

/-- A line without its comment, or `none` if it is nothing else. A line that is
cut keeps its arguments with single spaces between them. -/
def strip (line : String) : Option String :=
  match Argument.split line with
  | [] => some ""
  | first :: rest =>
    if Text.startsWith "#" first then
      none
    else if "#" ∈ first :: rest then
      some (Text.join " " ((first :: rest).takeWhile (· ≠ "#")))
    else
      some (Text.trim line)

end CommandPack.Comment
