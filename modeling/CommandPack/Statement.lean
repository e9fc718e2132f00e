import CommandPack.Argument
import CommandPack.Fault
import CommandPack.Name

/-!
# Statements

Every source line is one statement. The forms are tried in a fixed order, and
what fits none of them is a command of the target language.
-/

namespace CommandPack

/-- The ways to change an integer variable in place. -/
inductive Operator
  | add
  | subtract
  | multiply
  | divide
  | modulo
  /-- Keep the smaller value. -/
  | minimum
  /-- Keep the larger value. -/
  | maximum
  /-- Exchange the two values. -/
  | swap
  deriving DecidableEq, Repr

namespace Operator

def symbol : Operator → String
  | add => "+="
  | subtract => "-="
  | multiply => "*="
  | divide => "/="
  | modulo => "%="
  | minimum => "<"
  | maximum => ">"
  | swap => "><"

/-- Takes an operator off the front of a text. A comparison sign is none. -/
def split? (text : String) : Option (Operator × String) :=
  match Text.chars text with
  | '+' :: '=' :: rest => some (add, String.ofList rest)
  | '-' :: '=' :: rest => some (subtract, String.ofList rest)
  | '*' :: '=' :: rest => some (multiply, String.ofList rest)
  | '/' :: '=' :: rest => some (divide, String.ofList rest)
  | '%' :: '=' :: rest => some (modulo, String.ofList rest)
  | '>' :: '<' :: rest => some (swap, String.ofList rest)
  | '<' :: '=' :: _ => none
  | '>' :: '=' :: _ => none
  | '<' :: rest => some (minimum, String.ofList rest)
  | '>' :: rest => some (maximum, String.ofList rest)
  | _ => none

end Operator

/-- What keeps a loop going. -/
inductive LoopTest
  /-- The condition holds (`while`). -/
  | holds
  /-- The condition fails (`whilenot`). -/
  | fails
  /-- The clauses let an execution through, or there are none (`loop`). -/
  | clauses
  deriving DecidableEq, Repr

inductive Statement
  | assign (target : String) (clarifier : Option String) (value : String)
  | augment (target : String) (operator : Operator) (operand : String)
  | step (target : String) (up : Bool)
  | define (name : String)
  | call (callee : Path) (arguments : String)
  /-- An execution block. The clauses include the keyword. -/
  | branch (clauses : String)
  | otherwise (clauses : String)
  | times (count : String)
  | loop (test : LoopTest) (condition : String)
  | exitLoop
  | nextRound
  | command (text : String)
  deriving DecidableEq, Repr

namespace Statement

/-! ### Parts of a line -/

/-- The characters of the leading word: all words up to the first that ends in a
space, without the blanks at its end. -/
def headChars : List Token → List Char
  | [] => []
  | t :: rest =>
    if !t.isWord then
      []
    else if t.endsInSpace then
      Text.dropBlanksEnd (Text.chars t.text)
    else
      Text.chars t.text ++ headChars rest

/-- The leading word of a line and the trimmed rest. -/
def splitHead (line : String) : String × String :=
  let head := headChars (Token.scan line)
  (String.ofList head, Text.trim (String.ofList ((Text.chars line).drop head.length)))

/-- Cuts a word at its first `#`. -/
def splitClarifier (word : String) : String × Option String :=
  match Text.cut? "#" word with
  | some (name, clarifier) => (name, some clarifier)
  | none => (word, none)

def startsWithElse (line : String) : Bool :=
  (splitHead line).1 = "else"

/-- A trimmed text without one colon at its end. -/
def dropColon (text : String) : String :=
  let text := Text.trim text
  match Text.dropEnd? ":" text with
  | some rest => Text.trimEnd rest
  | none => text

/-! ### Forms -/

/-- The forms that a sign after the leading word decides. -/
def ofSign? (head rest : String) : Option Statement :=
  let (target, clarifier) := splitClarifier head
  match (Text.dropStart? "=" rest).filter fun value => !Text.startsWith "=" value with
  | some value => some (assign target clarifier (Text.trim value))
  | none =>
    match Operator.split? rest with
    | some (operator, operand) => some (augment target operator (Text.trim operand))
    | none =>
      if rest = "++" then some (step target true)
      else if rest = "--" then some (step target false)
      else none

/-- The forms that the leading word decides. -/
def ofKeyword? (head rest line : String) : Except Cause (Option Statement) :=
  let after := dropColon rest
  if head = "def" then .ok (define ((Argument.split after).headD ""))
  else if head = "else" then .ok (otherwise after)
  else if head = "repeat" then .ok (times after)
  else if head = "while" then .ok (loop .holds after)
  else if head = "whilenot" then .ok (loop .fails after)
  else if head = "loop" then .ok (loop .clauses after)
  else if head = "break" && after = "" then .ok exitLoop
  else if head = "continue" && after = "" then .ok nextRound
  else if head ∈ Name.forbidden then
    .error (.malformedCommand ("\"" ++ head ++ "\" cannot be used as a command here."))
  else if head ∈ Name.executeKeywords then .ok (branch (dropColon line))
  else .ok none

/-- Classifies a line. A leading word that is no keyword is looked up among the
functions last. -/
def classify (resolve : String → Option Path) (line : String) : Except Cause Statement := do
  let line := Text.trim line
  let (head, rest) := splitHead line
  if head ≠ "" then
    if let some statement := ofSign? head rest then
      return statement
  if let some statement ← ofKeyword? head rest line then
    return statement
  if head ≠ "" && !(head ∈ Name.keywords) then
    if let some callee := resolve head then
      return call callee rest
  return command line

/-- The statements that an `else` may follow. -/
def continuesChain : Statement → Bool
  | branch _ | otherwise _ => true
  | _ => false

end Statement

end CommandPack
