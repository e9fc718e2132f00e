import CommandPack.Command.Summon
import CommandPack.Lowering.Condition

/-!
# Assignments

Assigning decides the kind of a new variable by its clarifier or else by the look
of the value: a number, an integer variable, a selector, a bare declaration, or
any other text, which makes a string. A string variable is assigned only once.
-/

namespace CommandPack.Assignment

open BodyM

def substitute (self : Routine) (text : String) : BodyM String :=
  WorkM.query fun ws => Substitution.substitute ws self.path text

/-- The integer variable that a text with or without a clarifier names. -/
def intSource? (ws : Workspace) (self : Routine) (text : String) : Option String :=
  ws.resolveInt? self.path (Statement.splitClarifier text).1

/-- Sets an integer variable to a number. -/
def setInt (path : String) (value : Int) : BodyM Unit := do
  emit (.setScore (← WorkM.query (·.objective path)) value)

/-- Sets an integer variable to another one. -/
def copyInt (path source : String) : BodyM Unit := do
  let target ← WorkM.query (·.objective path)
  emit (.combineScores target .assign (← WorkM.query (·.objective source)))

/-- The path to assign to. A new variable belongs to this body, an entity variable
gives up its tag first. -/
def destination (self : Routine) (target : String) : BodyM String := do
  let ws ← WorkM.query .ok
  match ws.resolve? self.path target with
  | none =>
    addLocal (self.path.qualify target)
    return self.path.qualify target
  | some path =>
    match ws.symbols.kind? path with
    | some .string => WorkM.fail (.stringReassignment target)
    | some (.entity ..) =>
      emit (.releaseTag path)
      return path
    | _ => return path

/-- Assigns the object that a command summons. -/
def assignSummoned (self : Routine) (path : String) (declared : Option Kind) (value : String) :
    BodyM Unit := do
  let kind := declared.getD (.entity false false)
  if kind.isEntity then
    let command ← substitute self value
    emit (.text (Summon.withTag command path))
    WorkM.update (·.declare path kind)
  else
    WorkM.fail (.typeMismatch "entity" value)

/-- Assigns the objects that a selector selects. -/
def assignEntity (path : String) (kind : Kind) (selector : String) : BodyM Unit := do
  WorkM.update (·.declare path kind)
  emit (.addTag selector path)

/-- Declares a variable without a value. -/
def declareOnly (path expression clarifier : String) : BodyM Unit :=
  match Kind.ofClarifier? clarifier with
  | some .integer => WorkM.update (·.declareInt path)
  | some (.entity player single) => WorkM.update (·.declare path (.entity player single))
  | _ => WorkM.fail (.invalidDeclaration expression)

/-- Assigns to a variable whose kind the value decides. -/
def assignInferred (path expression : String) (source : Option String) : BodyM Unit :=
  match Condition.literal? expression, source with
  | some value, _ => do
    WorkM.update (·.declareInt path)
    setInt path value
  | none, some source => do
    WorkM.update (·.declareInt path)
    copyInt path source
  | none, none =>
    if Text.startsWith "@" expression then
      assignEntity path (.entity false false) expression
    else
      match Text.dropStart? "#" expression with
      | some clarifier => declareOnly path expression clarifier
      | none => WorkM.update (·.bindString path expression)

/-- Assigns to a variable of a declared kind. -/
def assignDeclared (path expression : String) (source : Option String) : Kind → BodyM Unit
  | .entity player single =>
    if Text.startsWith "@" expression then
      assignEntity path (.entity player single) expression
    else
      WorkM.fail (.typeMismatch "entity" expression)
  | .integer => do
    WorkM.update (·.declareInt path)
    match Condition.literal? expression, source with
    | some value, _ => setInt path value
    | none, some source => copyInt path source
    | none, none => WorkM.fail (.typeMismatch "integer or integer variable" expression)
  | .string => WorkM.update (·.bindString path expression)

/-- The kind that a clarifier declares, if there is a clarifier. -/
def declaredKind : Option String → Except Cause (Option Kind)
  | none => .ok none
  | some clarifier =>
    match Kind.ofClarifier? clarifier with
    | some kind => .ok (some kind)
    | none => .error (.unknownClarifier clarifier)

def assign (self : Routine) (target : String) (clarifier : Option String) (value : String) :
    BodyM Unit := do
  if !Name.isVariable target then
    WorkM.fail (.invalidVariableName target)
  else if value = "" then
    WorkM.fail (.expectedExpression "=")
  else
    let declared ← WorkM.query fun _ => declaredKind clarifier
    let path ← destination self target
    if (Argument.split value).head? = some "summon" then
      assignSummoned self path declared value
    else
      let expression ← substitute self value
      let ws ← WorkM.query .ok
      let source := intSource? ws self value
      match declared with
      | none => assignInferred path expression source
      | some kind => assignDeclared path expression source kind

/-! ### Changes in place -/

/-- The integer variable to change. -/
def intTarget (self : Routine) (target : String) : BodyM String :=
  WorkM.query fun ws =>
    match ws.resolveInt? self.path target with
    | some path => .ok path
    | none => .error (.invalidAugmentedTarget target)

/-- Gives a constant a slot and returns its path. -/
def internConstant (value : Int) : BodyM String := do
  let ws ← WorkM.query .ok
  let (path, after) := ws.addConstant value
  WorkM.update fun _ => after
  return path

/-- Changes a score by a number. Sums and differences take the number itself, the
other operations a constant slot. A constant cannot be swapped. -/
def augmentByNumber (path objective : String) (operator : Operator) (value : Int)
    (operand : String) : BodyM Unit :=
  match operator with
  | .add =>
    if value < 0 then emit (.removeScore objective (-value)) else emit (.addScore objective value)
  | .subtract =>
    if value < 0 then emit (.addScore objective (-value)) else emit (.removeScore objective value)
  | .swap => WorkM.fail (.invalidAugmentedOperand operand)
  | _ => do
    let constant ← internConstant value
    let target ← WorkM.query (·.objective path)
    emit (.combineScores target (.apply operator) (← WorkM.query (·.objective constant)))

def augment (self : Routine) (target : String) (operator : Operator) (operand : String) :
    BodyM Unit := do
  let path ← intTarget self target
  if operand = "" then
    WorkM.fail (.expectedExpression operator.symbol)
  else
    let objective ← WorkM.query (·.objective path)
    let ws ← WorkM.query .ok
    match intSource? ws self operand, Condition.literal? operand with
    | some source, _ =>
      emit (.combineScores objective (.apply operator) (← WorkM.query (·.objective source)))
    | none, some value => augmentByNumber path objective operator value operand
    | none, none => WorkM.fail (.invalidAugmentedOperand operand)

def step (self : Routine) (target : String) (up : Bool) : BodyM Unit := do
  let path ← intTarget self target
  let objective ← WorkM.query (·.objective path)
  if up then emit (.addScore objective 1) else emit (.removeScore objective 1)

end CommandPack.Assignment
