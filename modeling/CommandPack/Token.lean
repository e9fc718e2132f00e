import CommandPack.Text.Blank
import CommandPack.Text.Numeral
import CommandPack.Text.Search

/-!
# Tokens of a line

A line is cut into tokens without losing a character: the token texts, written
one after the other, give the line back. A quote character opens quoted text up
to its next occurrence. Outside quotes every punctuation mark is a token of its
own, and a word ends after a space or a digit.
-/

namespace CommandPack

namespace Token

inductive Shape
  | word
  | quote (mark : Char)
  /-- What stands between two quote characters. -/
  | quoted
  | punctuation (mark : Char)
  deriving DecidableEq, Repr

end Token

structure Token where
  shape : Token.Shape
  text : String
  deriving DecidableEq, Repr

namespace Token

def punctuationMarks : List Char :=
  ['=', ',', '\x7b', '\x7d', '[', ']', '(', ')', ':', '+', '-', '*', '<', '>', '%', '\\', '/']

def quoteMarks : List Char :=
  ['"', '\x27']

namespace Shape

def opensBracket : Shape → Bool
  | punctuation '[' | punctuation '\x7b' => true
  | _ => false

def closesBracket : Shape → Bool
  | punctuation ']' | punctuation '\x7d' => true
  | _ => false

def isQuote : Shape → Bool
  | quote _ => true
  | _ => false

end Shape

def isWord (t : Token) : Bool :=
  t.shape = .word

def endsInSpace (t : Token) : Bool :=
  Text.endsWith " " t.text

/-- The token of the characters held so far, read backwards, if there are any. -/
def held (shape : Shape) : List Char → List Token
  | [] => []
  | cs => [⟨shape, String.ofList cs.reverse⟩]

/-- Cuts the rest of a line, given the open quote and the characters held. -/
def scanFrom : Option Char → List Char → List Char → List Token
  | none, cs, [] => held .word cs
  | some _, cs, [] => held .quoted cs
  | some mark, cs, c :: rest =>
    if c = mark then
      held .quoted cs ++ ⟨.quote c, String.singleton c⟩ :: scanFrom none [] rest
    else
      scanFrom (some mark) (c :: cs) rest
  | none, cs, c :: rest =>
    if c ∈ quoteMarks then
      held .word cs ++ ⟨.quote c, String.singleton c⟩ :: scanFrom (some c) [] rest
    else if c ∈ punctuationMarks then
      held .word cs ++ ⟨.punctuation c, String.singleton c⟩ :: scanFrom none [] rest
    else if c = ' ' || Text.isDigit c then
      held .word (c :: cs) ++ scanFrom none [] rest
    else
      scanFrom none (c :: cs) rest

/-- The tokens of a line. -/
def scan (line : String) : List Token :=
  scanFrom none [] (Text.chars line)

/-- The text that tokens cover. -/
def join (tokens : List Token) : String :=
  Text.concat (tokens.map text)

/-- Joins each word to the word after it, unless it ends in a space. -/
def joinWords : List Token → List Token
  | [] => []
  | t :: rest =>
    match joinWords rest with
    | [] => [t]
    | u :: us =>
      if t.isWord && u.isWord && !t.endsInSpace then
        ⟨.word, t.text ++ u.text⟩ :: us
      else
        t :: u :: us

/-- The tokens of a line with whole words in place of word fragments. -/
def words (line : String) : List Token :=
  joinWords (scan line)

end Token

end CommandPack
