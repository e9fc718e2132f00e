import CommandPack.Text.Numeral
import CommandPack.Text.Search

/-!
# Routine paths

A path such as `main.w0.b1` names a routine and is also the key of its scope: a
name is looked up in the path itself, then in each enclosing path. The blocks
that control flow splits off get a generated last segment, one letter for the
role of the block and a counter.
-/

namespace CommandPack

/-- Why a block became a routine of its own. -/
inductive BlockRole
  /-- The block under an execution header or an `else`. -/
  | branch
  /-- The body of a `while`, `whilenot` or `loop`. -/
  | loop
  /-- The body of a `repeat`. -/
  | times
  /-- The rest of a block, run only if no loop exit happened before it. -/
  | guard
  /-- A copy of a routine for one choice of string arguments. -/
  | variant
  deriving DecidableEq, Repr

namespace BlockRole

def letter : BlockRole → Char
  | branch => 'e'
  | loop => 'w'
  | times => 'r'
  | guard => 'b'
  | variant => 's'

def ofLetter? : Char → Option BlockRole
  | 'e' => some branch
  | 'w' => some loop
  | 'r' => some times
  | 'b' => some guard
  | 's' => some variant
  | _ => none

theorem ofLetter?_letter (role : BlockRole) : ofLetter? role.letter = some role := by
  cases role <;> rfl

/-- The roles that a `break` or `continue` belongs to. -/
def isLoop : BlockRole → Bool
  | loop | times => true
  | _ => false

/-- The generated path segment. -/
def segment (role : BlockRole) (counter : Nat) : String :=
  String.singleton role.letter ++ Text.natural counter

/-- Reads a generated path segment: a role letter and a counter of digits only. -/
def ofSegment? (segment : String) : Option (BlockRole × Nat) :=
  match Text.chars segment with
  | [] => none
  | letter :: digits => do
    let role ← ofLetter? letter
    let counter ← (Text.naturalChars? digits).filter (· ≤ Text.maxUnsigned)
    return (role, counter)

end BlockRole

structure Path where
  segments : List String
  deriving DecidableEq, Repr

namespace Path

/-- A path of one segment, whatever that segment holds. -/
def root (name : String) : Path :=
  ⟨[name]⟩

/-- Reads a dotted path. -/
def parse (dotted : String) : Path :=
  ⟨Text.pieces '.' dotted⟩

/-- Writes a dotted path. -/
def render (path : Path) : String :=
  Text.join "." path.segments

def child (path : Path) (segment : String) : Path :=
  ⟨path.segments ++ [segment]⟩

def block (path : Path) (role : BlockRole) (counter : Nat) : Path :=
  path.child (role.segment counter)

/-- The enclosing path. A path of one segment has none. -/
def parent? (path : Path) : Option Path :=
  if path.segments.length ≤ 1 then none else some ⟨path.segments.dropLast⟩

/-- The last segment, empty for the path without segments. -/
def leaf (path : Path) : String :=
  path.segments.getLast?.getD ""

/-- Role and counter of a generated last segment. -/
def leafBlock? (path : Path) : Option (BlockRole × Nat) :=
  BlockRole.ofSegment? path.leaf

/-- The dotted name of a declaration in this scope. -/
def qualify (path : Path) (name : String) : String :=
  path.render ++ "." ++ name

/-- The nonempty initial parts of a list, the longest first. -/
def initials : List String → List (List String)
  | [] => []
  | s :: rest => (initials rest).map (s :: ·) ++ [[s]]

/-- The dotted names that `name` may stand for in this scope, innermost first. -/
def candidates (path : Path) (name : String) : List String :=
  (initials path.segments).map fun segments => Path.qualify ⟨segments⟩ name

/-- Whether a path lies strictly inside this one. -/
def encloses (path other : Path) : Bool :=
  path.segments.length < other.segments.length && path.segments.isPrefixOf other.segments

/-- The name of the output file: the path without its first segment, but a path
of one segment keeps it. -/
def artifact (path : Path) : String :=
  match path.segments with
  | [] => ""
  | [name] => name
  | _ :: rest => Text.join "." rest

def compareSegments : List String → List String → Ordering
  | [], [] => .eq
  | [], _ :: _ => .lt
  | _ :: _, [] => .gt
  | a :: as, b :: bs => (compare a b).then (compareSegments as bs)

/-- Orders paths segment by segment, each by its code points. -/
def order (path other : Path) : Ordering :=
  compareSegments path.segments other.segments

end Path

end CommandPack
