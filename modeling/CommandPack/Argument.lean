import CommandPack.Token

/-!
# Arguments of a line

Arguments are separated by spaces. A space inside square or curly brackets or
inside quotes does not separate. Arguments are trimmed and never empty. A closing
bracket without an opening one changes nothing.
-/

namespace CommandPack.Argument

open Token (Shape)

/-- The bracket depth after a token. -/
def depthAfter (depth : Nat) (shape : Shape) : Nat :=
  if shape.opensBracket then depth + 1 else if shape.closesBracket then depth - 1 else depth

/-- Whether quoted text is open after a token. -/
def quotedAfter (quoted : Bool) (shape : Shape) : Bool :=
  if shape.isQuote then !quoted else quoted

/-- Cuts tokens into groups. A group ends after a token that ends in a space
outside brackets and quotes. -/
def groups (depth : Nat) (quoted : Bool) (held : List Token) : List Token → List (List Token)
  | [] => [held.reverse]
  | t :: rest =>
    let depth := depthAfter depth t.shape
    let quoted := quotedAfter quoted t.shape
    if depth = 0 && !quoted && t.endsInSpace then
      (t :: held).reverse :: groups depth quoted [] rest
    else
      groups depth quoted (t :: held) rest

/-- The arguments of a line. -/
def split (line : String) : List String :=
  ((groups 0 false [] (Token.scan line)).map fun group => Text.trim (Token.join group)).filter
    (· ≠ "")

end CommandPack.Argument
