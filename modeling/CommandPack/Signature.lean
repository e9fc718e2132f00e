import CommandPack.Argument
import CommandPack.Fault
import CommandPack.Kind
import CommandPack.Name

/-!
# Signatures

The header of a definition names a function and its parameters. A parameter may
have a clarifier for its kind and a default; after a parameter with a default all
others need one too.
-/

namespace CommandPack

structure Param where
  name : String
  kind : Kind
  /-- Read in the scope of the caller. -/
  default : Option String := none
  deriving DecidableEq, Repr

structure Signature where
  name : String
  params : List Param
  deriving DecidableEq, Repr

namespace Signature

/-- Cuts a text at the first occurrence of a separator, if there is one. -/
def cutOptional (separator text : String) : String × Option String :=
  match Text.cut? separator text with
  | some (before, after) => (before, some after)
  | none => (text, none)

/-- Reads the parameters of `function`, given whether a default has been seen. -/
def readParams (function : String) : Bool → List String → Except Cause (List Param)
  | _, [] => .ok []
  | seenDefault, token :: rest => do
    let (spec, default) := cutOptional "=" token
    if default.isNone && seenDefault then
      throw .defaultOrder
    let (name, clarifier) := cutOptional "#" spec
    if !Name.isVariable name then
      throw (.invalidParameterName function token)
    let some kind := clarifier.elim (some (.entity false false)) Kind.ofClarifier?
      | throw (.invalidParameterClarifier function token)
    let params ← readParams function (seenDefault || default.isSome) rest
    return ⟨name, kind, default⟩ :: params

/-- Reads the header of a definition. -/
def parse (line : String) : Except Cause Signature := do
  let line := Text.trim line
  let body := Text.trim ((Text.dropStart? "def" line).getD line)
  match Argument.split ((Text.dropEnd? ":" body).getD body) with
  | [] => throw .missingFunctionName
  | name :: tokens =>
    if !Name.isFunction name then
      throw (.invalidFunctionName name)
    return ⟨name, ← readParams name false tokens⟩

end Signature

end CommandPack
