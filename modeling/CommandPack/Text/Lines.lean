import CommandPack.Text.Chars

/-!
# Lines of a text

A newline ends a line, together with one carriage return just before it. Text
after the last newline is a line of its own, with any carriage return kept.
-/

namespace CommandPack.Text

/-- The line held so far, read backwards, once its newline has come. -/
def closeLine : List Char → List Char
  | '\r' :: held => held.reverse
  | held => held.reverse

def lineChars (held : List Char) : List Char → List (List Char)
  | [] => if held.isEmpty then [] else [held.reverse]
  | c :: cs =>
    if c = '\n' then closeLine held :: lineChars [] cs else lineChars (c :: held) cs

def lines (s : String) : List String :=
  (lineChars [] (chars s)).map String.ofList

end CommandPack.Text
