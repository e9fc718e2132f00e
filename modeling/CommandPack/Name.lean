import CommandPack.Path

/-!
# Names

A variable name is made of lowercase letters, digits and underscores and does not
start with a digit. A function name is a variable name that is no keyword and
does not look like a generated path segment.
-/

namespace CommandPack.Name

/-- The words that open an execution block. -/
def executeKeywords : List String :=
  ["as", "at", "positioned", "align", "facing", "rotated", "in", "anchored", "if", "unless",
    "store"]

/-- The words that a statement may start with. -/
def keywords : List String :=
  "def" :: executeKeywords ++
    ["else", "repeat", "while", "whilenot", "loop", "break", "continue"]

/-- The words that no command may start with. -/
def forbidden : List String :=
  ["function", "include", "file"]

def isStart (c : Char) : Bool :=
  ('a' ≤ c && c ≤ 'z') || c = '_'

def isPart (c : Char) : Bool :=
  isStart c || Text.isDigit c

def isVariable (name : String) : Bool :=
  match Text.chars name with
  | [] => false
  | c :: rest => isStart c && rest.all isPart

def isFunction (name : String) : Bool :=
  isVariable name && !(name ∈ keywords) && (BlockRole.ofSegment? name).isNone

end CommandPack.Name
