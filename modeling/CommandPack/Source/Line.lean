import CommandPack.Fault
import CommandPack.Mark.Shield
import CommandPack.Source.Comment
import CommandPack.Source.Indent

/-!
# Source lines

Reading a source drops its comments and empty lines. What is left of a line is
kept with its depth and its number, shielded against linking.
-/

namespace CommandPack

structure Line where
  depth : Nat
  /-- The shielded text, without indentation and comment. -/
  text : String
  /-- Counted from 1 in its source. -/
  number : Nat
  /-- The position of its source among the sources. -/
  source : Nat
  deriving DecidableEq, Repr

namespace Line

/-- Reads numbered raw lines. -/
def readNumbered (unit source : Nat) : Nat → List String → Except Fault (List Line)
  | _, [] => .ok []
  | number, raw :: rest =>
    match Comment.strip raw with
    | none | some "" => readNumbered unit source (number + 1) rest
    | some content =>
      match Indent.depth? raw unit with
      | none =>
        .error {
          cause := .unknownIndentation
          place := some { line := number, text := Text.trim raw } }
      | some depth =>
        (readNumbered unit source (number + 1) rest).map
          (⟨depth, Shield.apply content, number, source⟩ :: ·)

/-- Reads one source. The indent unit is its own or else the default. -/
def read (text : String) (defaultIndent source : Nat) : Except Fault (List Line) :=
  readNumbered (Indent.unitOf text defaultIndent) source 1 (Text.lines text)

end Line

end CommandPack
