import CommandPack.Path

/-!
# Call marks

While a pack is compiled, a call is written as a mark that names its target and
its string arguments in braces. Braces and backslashes in an argument are written
after a backslash; the target is written as it is. Linking finds the first mark of
a line and puts the final text in its place.
-/

namespace CommandPack

structure CallMark where
  target : Path
  /-- String arguments, in the order of the parameters. -/
  arguments : List String := []
  deriving DecidableEq, Repr

namespace CallMark

def escapeChars : List Char → List Char
  | [] => []
  | c :: cs =>
    if c = '\x7b' || c = '\x7d' || c = '\\' then
      '\\' :: c :: escapeChars cs
    else
      c :: escapeChars cs

def renderArgument (argument : String) : String :=
  "\x7b" ++ String.ofList (escapeChars (Text.chars argument)) ++ "\x7d"

def render (mark : CallMark) : String :=
  "!f\x7b" ++ mark.target.render ++ "\x7d" ++ Text.concat (mark.arguments.map renderArgument)

/-- Where a reader of brace groups stands. -/
inductive Cursor
  | outside
  /-- Inside a group, with its characters read backwards. -/
  | inside (held : List Char)
  /-- Just after a backslash inside a group. -/
  | escaped (held : List Char)

/-- Reads brace groups up to the first character that opens none. A group that
does not end makes the whole reading fail. -/
def readGroups : Cursor → List Char → Option (List (List Char) × List Char)
  | .outside, [] => some ([], [])
  | .outside, c :: rest =>
    if c = '\x7b' then readGroups (.inside []) rest else some ([], c :: rest)
  | .inside _, [] => none
  | .inside held, c :: rest =>
    if c = '\\' then
      readGroups (.escaped held) rest
    else if c = '\x7d' then
      (readGroups .outside rest).map fun (groups, after) => (held.reverse :: groups, after)
    else
      readGroups (.inside (c :: held)) rest
  | .escaped _, [] => none
  | .escaped held, c :: rest => readGroups (.inside (c :: held)) rest

/-- A mark and the texts around it. -/
structure Found where
  before : String
  mark : CallMark
  after : String
  deriving DecidableEq, Repr

/-- The characters that open a mark and its first group. -/
def openingChars : List Char :=
  ['!', 'f', '\x7b']

/-- Finds the first mark of a line. Only the first opening counts: if its groups
do not end, the line has no mark. -/
def find? (line : String) : Option Found := do
  let (before, opened) ← Text.cutChars openingChars (Text.chars line)
  match ← readGroups (.inside []) opened with
  | (target :: arguments, after) =>
    return {
      before := String.ofList before
      mark := ⟨Path.parse (String.ofList target), arguments.map String.ofList⟩
      after := String.ofList after }
  | ([], _) => none

/-- The offset in UTF-8 bytes at which the mark starts. -/
def Found.start (found : Found) : Nat :=
  found.before.utf8ByteSize

/-- The offset in UTF-8 bytes just after the mark. -/
def Found.stop (found : Found) (line : String) : Nat :=
  line.utf8ByteSize - found.after.utf8ByteSize

end CallMark

end CommandPack
