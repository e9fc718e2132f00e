import CommandPack.Text.Numeral

/-!
# Faults

A fault ends the compilation that meets it. It has a cause and, once known, the
source line that was being read. The causes about a missing or misplaced block
are reported after the line before the gap, all others at their own line.
-/

namespace CommandPack

inductive Cause
  /-- A block was opened and nothing stands in it. -/
  | expectedContent
  /-- A block starts at another depth than its header asks for. -/
  | incorrectIndentation
  /-- The leading spaces of a line are no multiple of the indent unit. -/
  | unknownIndentation
  | duplicateFunction (name : String)
  | missingFunctionName
  | invalidFunctionName (name : String)
  | invalidParameterName (function parameter : String)
  | invalidParameterClarifier (function parameter : String)
  /-- A parameter without a default follows one with a default. -/
  | defaultOrder
  | defaultsWithSubfunctions
  | notEnoughParameters (function : String)
  | unknownSubfunction (function name : String)
  | unknownFunction (path : String)
  | recursion (function : String)
  /-- An operator or a keyword lacks what should follow it. -/
  | expectedExpression (after : String)
  | invalidVariableName (name : String)
  | typeMismatch (expected value : String)
  | invalidDeclaration (value : String)
  | stringReassignment (name : String)
  | invalidAugmentedTarget (name : String)
  | invalidAugmentedOperand (operand : String)
  | breakOutsideLoop
  | continueOutsideLoop
  | unknownClarifier (clarifier : String)
  | invalidNumber (text : String)
  | elseWithoutDispatch
  | invalidComparisonOperand (operand : String)
  | constantComparison
  | comparisonWithoutConditional
  /-- A command that cannot be written out. The text is the whole message. -/
  | malformedCommand (text : String)
  | unboundString (path : String)
  /-- A state that the compiler itself should never reach. -/
  | internal (text : String)
  deriving DecidableEq, Repr

namespace Cause

private def quoted (text : String) : String :=
  "\"" ++ text ++ "\""

def message : Cause → String
  | expectedContent => "Expected content, nothing found."
  | incorrectIndentation => "Incorrect indentation."
  | unknownIndentation =>
    "Unknown indentation. There may be a missing or extra space character."
  | duplicateFunction name => "Duplicate function " ++ quoted name ++ "."
  | missingFunctionName => "No function name provided."
  | invalidFunctionName name => "Invalid function name: " ++ quoted name ++ "."
  | invalidParameterName function parameter =>
    "Invalid parameter name " ++ quoted parameter ++ " for function " ++ quoted function ++ "."
  | invalidParameterClarifier function parameter =>
    "Invalid parameter clarifier " ++ quoted parameter ++ " for function " ++
      quoted function ++ "."
  | defaultOrder => "Can't have a non-default parameter after a default parameter."
  | defaultsWithSubfunctions => "A function with defaults cannot have any sub-functions."
  | notEnoughParameters function =>
    "Not enough parameters for function " ++ quoted function ++ "."
  | unknownSubfunction function name =>
    quoted name ++ " is not a valid sub-function of function " ++ quoted function ++ "."
  | unknownFunction path => "Unknown function " ++ quoted path ++ "."
  | recursion function =>
    "Attempt at recursing in function " ++ function ++ ", this is not supported."
  | expectedExpression after => "Expected something after " ++ quoted after ++ "."
  | invalidVariableName name => "Invalid variable name: " ++ quoted name ++ "."
  | typeMismatch expected value => quoted value ++ " is not a valid " ++ expected ++ "."
  | invalidDeclaration value => "Invalid global variable: " ++ quoted value ++ "."
  | stringReassignment name =>
    "Strings are handled at compile time, so overwriting string " ++ quoted name ++
      " is not allowed."
  | invalidAugmentedTarget name =>
    "Cannot perform augmented assignment on " ++ quoted name ++ "."
  | invalidAugmentedOperand operand =>
    "Cannot perform augmented assignment with " ++ quoted operand ++ "."
  | breakOutsideLoop => "\"break\" outside of loop."
  | continueOutsideLoop => "\"continue\" outside of loop."
  | unknownClarifier clarifier => "Unknown clarifier: " ++ quoted clarifier ++ "."
  | invalidNumber text => quoted text ++ " is not a valid number."
  | elseWithoutDispatch => "\"else\" without a matching execution block."
  | invalidComparisonOperand operand =>
    quoted operand ++ " is not a valid integer variable or constant."
  | constantComparison => "Cannot compare two constants."
  | comparisonWithoutConditional => "Integer comparison without a conditional."
  | malformedCommand text => text
  | unboundString path => "String " ++ quoted path ++ " has no value bound at this call site."
  | internal text => "internal error: " ++ text

/-- The causes that are about the line after the reported one. -/
def isLayout : Cause → Bool
  | expectedContent | incorrectIndentation => true
  | _ => false

end Cause

/-- A source line as a report shows it. -/
structure Place where
  source : Option String := none
  /-- Counted from 1. -/
  line : Nat := 0
  text : String := ""
  deriving DecidableEq, Repr

structure Fault where
  cause : Cause
  place : Option Place := none
  deriving DecidableEq, Repr

namespace Fault

/-- Sets the place, whether or not there is one already. -/
def relocate (fault : Fault) (place : Place) : Fault :=
  { fault with place := some place }

/-- Sets the place if there is none yet. -/
def locate (fault : Fault) (place : Place) : Fault :=
  if fault.place.isSome then fault else fault.relocate place

def message (fault : Fault) : String :=
  match fault.place with
  | none => fault.cause.message
  | some place =>
    "Error " ++ (if fault.cause.isLayout then "after" else "at") ++ " line " ++
      Text.natural place.line ++
      (match place.source with
        | some source => " of " ++ source
        | none => "") ++
      ": \"" ++ place.text ++ "\"\n\t" ++ fault.cause.message

end Fault

end CommandPack
