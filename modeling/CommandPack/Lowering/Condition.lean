import CommandPack.Lowering.Body
import CommandPack.Lowering.Substitution

/-!
# Conditions

A comparison in the header of an execution becomes a test that a score lies in a
range. Two variables are compared through the range of their difference, which is
computed in a scratch slot just before the execution.
-/

namespace CommandPack.Condition

/-- An argument of a header on its way to becoming a clause. -/
inductive Piece
  | source (text : String)
  | test (clause : Clause)
  /-- An argument that has gone into a test. -/
  | removed

def Piece.text : Piece → String
  | source text => text
  | _ => ""

/-- A side of a comparison. -/
inductive Operand
  | slot (path : String)
  | literal (value : Int)
  | other

/-- Reads an integer literal. -/
def literal? (text : String) : Option Int :=
  Text.signed? (Text.trim text)

def operand (ws : Workspace) (scope : Path) : Piece → Operand
  | .source text =>
    match ws.resolveInt? scope text with
    | some path => .slot path
    | none =>
      match literal? text with
      | some value => .literal value
      | none => .other
  | _ => .other

/-- The words that may stand before a comparison. -/
def conditionals : List String :=
  ["if", "unless", "while", "whilenot"]

/-- Whether a comparison may stand after these arguments, the last one first. -/
def allowsComparison : List Piece → Bool
  | [] => true
  | piece :: _ => piece.text ∈ conditionals

/-- What a comparison asks for. -/
inductive Check
  | range (slot : String) (range : ScoreRange)
  | difference (left right : String) (comparison : Comparison)
  deriving DecidableEq, Repr

/-- Reads a comparison sign between the last argument before it and the next one
after it. A sign between two arguments that are no integers is left alone. -/
def check? (ws : Workspace) (scope : Path) (before : List Piece) (sign next : String) :
    Except Cause (Option Check) :=
  match before, Comparison.ofSymbol? sign with
  | left :: earlier, some comparison =>
    let accept (check : Check) : Except Cause (Option Check) :=
      if allowsComparison earlier then .ok (some check) else .error .comparisonWithoutConditional
    match operand ws scope left, operand ws scope (.source next) with
    | .other, .other => .ok none
    | .literal _, .literal _ => .error .constantComparison
    | .other, _ => .error (.invalidComparisonOperand left.text)
    | _, .other => .error (.invalidComparisonOperand next)
    | .slot slot, .literal value => accept (.range slot (comparison.range value))
    | .literal value, .slot slot => accept (.range slot (comparison.converse.range value))
    | .slot left, .slot right => accept (.difference left right comparison)
  | _, _ => .ok none

/-- The scratch slot for the difference of a variable and another one. -/
def scratch (path : String) : String :=
  path ++ ".TEST"

/-- Makes the clause of a comparison and the commands that it needs before it. -/
def test : Check → BodyM Clause
  | .range slot range => do
    let objective ← WorkM.query (·.objective slot)
    return .score objective range
  | .difference left right comparison => do
    WorkM.update (·.addInt (scratch left))
    let difference ← WorkM.query (·.objective (scratch left))
    let minuend ← WorkM.query (·.objective left)
    let subtrahend ← WorkM.query (·.objective right)
    modify fun body =>
      { body with
        pending := body.pending ++
          [.combineScores difference .assign minuend,
            .combineScores difference (.apply .subtract) subtrahend] }
    return .score difference (comparison.range 0)

/-- Turns comparisons into tests, from left to right. The arguments before the
next one are given last first. -/
def lower (scope : Path) : List Piece → List String → BodyM (List Piece)
  | before, sign :: next :: rest => do
    match ← WorkM.query fun ws => check? ws scope before sign next with
    | some check =>
      let clause ← test check
      lower scope (.removed :: .removed :: .test clause :: before.tail) rest
    | none => lower scope (.source sign :: before) (next :: rest)
  | before, rest => return before.reverse ++ rest.map .source

/-- Substitutes in the arguments that are left. -/
def clauses (ws : Workspace) (scope : Path) : List Piece → Except Cause (List Clause)
  | [] => .ok []
  | .source text :: rest =>
    match Substitution.substituteArgument ws scope text with
    | .error cause => .error cause
    | .ok words => (clauses ws scope rest).map (.words words :: ·)
  | .test clause :: rest => (clauses ws scope rest).map (clause :: ·)
  | .removed :: rest => clauses ws scope rest

/-- The clauses of a header. -/
def header (scope : Path) (text : String) : BodyM (List Clause) := do
  let pieces ← lower scope [] (Argument.split text)
  WorkM.query fun ws => clauses ws scope pieces

end CommandPack.Condition
