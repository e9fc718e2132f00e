import CommandPack.Command.Comparison
import CommandPack.Command.Scoreboard
import CommandPack.Kind
import CommandPack.Mark.Call
import CommandPack.Statement

/-!
# Commands

The commands of a routine, as values of their own and as texts. An entity variable
is a tag named after the variable's path. Loop exits and `else` chains are kept in
marker objects that are summoned and killed by tag. A call stands for a routine
that linking will name.
-/

namespace CommandPack

/-! ### Tags and markers -/

/-- Selects the objects with a tag, as far as an entity kind restricts them. -/
def selectTag (tag : String) (kind : Kind) : String :=
  match kind with
  | .entity player single =>
    (if player then "@p" else "@e") ++ "[tag=" ++ tag ++ (if single then ",limit=1" else "") ++ "]"
  | _ => "@e[tag=" ++ tag ++ "]"

namespace Marker

/-- The test that an object with a tag exists. -/
def present (tag : String) : String :=
  "entity @e[tag=" ++ tag ++ "]"

def summon (tag : String) : String :=
  "summon area_effect_cloud 0 0 0 " ++
    "\x7bAge:-2147483648,Duration:-1,WaitTime:-2147483648,Tags:[\"" ++ tag ++ "\"]\x7d"

def kill (tag : String) : String :=
  "kill @e[tag=" ++ tag ++ "]"

/-- The marker that a loop is to be left. -/
def exitTag (loop : Path) : String :=
  loop.render ++ ".BREAK"

/-- The marker that a loop is to start its next round. -/
def roundTag (loop : Path) : String :=
  loop.render ++ ".CONTINUE"

/-- The marker that a branch of an `else` chain has run. -/
def chainTag (first : Path) : String :=
  first.render ++ ".ELSE"

end Marker

/-! ### Clauses -/

/-- A part of the header of an execution. -/
inductive Clause
  | words (text : String)
  /-- The test that a score lies in a range, after its `if` or `unless`. -/
  | score (objective : String) (range : ScoreRange)
  /-- The test that a marker is there, or that it is not. -/
  | marker (wanted : Bool) (tag : String)
  deriving DecidableEq, Repr

namespace Clause

def render (pack : String) : Clause → String
  | words text => text
  | score objective range => Scoreboard.inRange pack objective range.render
  | marker wanted tag => (if wanted then "if " else "unless ") ++ Marker.present tag

/-- A header, its clauses separated by spaces. -/
def renderAll (pack : String) (clauses : List Clause) : String :=
  Text.join " " (clauses.map (render pack))

end Clause

/-! ### Commands -/

/-- How one score changes another. -/
inductive ScoreOp
  | assign
  | apply (operator : Operator)
  deriving DecidableEq, Repr

def ScoreOp.symbol : ScoreOp → String
  | assign => "="
  | apply operator => operator.symbol

inductive Command
  /-- A command given by its text. -/
  | text (line : String)
  | addTag (selector tag : String)
  /-- Takes a tag from every object that has it. -/
  | releaseTag (tag : String)
  | summonMarker (tag : String)
  /-- Summons a marker unless it is there. -/
  | ensureMarker (tag : String)
  | killMarker (tag : String)
  | setScore (objective : String) (value : Int)
  | addScore (objective : String) (value : Int)
  | removeScore (objective : String) (value : Int)
  | combineScores (target : String) (op : ScoreOp) (source : String)
  | declareScore (objective : String)
  | summonCarrier
  /-- A call, made only where the clauses let it through. -/
  | invoke (clauses : List Clause) (call : CallMark)
  deriving DecidableEq, Repr

/-- Puts clauses in front of a command. An execution takes them into its header,
any other command becomes the body of one. -/
def guardText (clauses : List String) (command : String) : String :=
  if clauses = [] then
    command
  else
    match Text.dropStart? "execute " command with
    | some rest => "execute " ++ Text.join " " clauses ++ " " ++ rest
    | none => "execute " ++ Text.join " " clauses ++ " run " ++ command

/-- The text of a call to a linked routine. -/
def callText (pack : String) (path : Path) : String :=
  "function " ++ pack ++ ":" ++ path.artifact

/-- A line that is not executed and records a skipped command. -/
def inertText (reason command : String) : String :=
  "# " ++ reason ++ ": " ++ command

def isInert (command : String) : Bool :=
  Text.startsWith "#" command

namespace Command

def render (pack : String) : Command → String
  | text line => line
  | addTag selector tag => "tag " ++ selector ++ " add " ++ tag
  | releaseTag tag => "tag @e[tag=" ++ tag ++ "] remove " ++ tag
  | summonMarker tag => Marker.summon tag
  | ensureMarker tag => "execute unless " ++ Marker.present tag ++ " run " ++ Marker.summon tag
  | killMarker tag => Marker.kill tag
  | setScore objective value => Scoreboard.set pack objective value
  | addScore objective value => Scoreboard.add pack objective value
  | removeScore objective value => Scoreboard.remove pack objective value
  | combineScores target op source => Scoreboard.operation pack target op.symbol source
  | declareScore objective => Scoreboard.declare objective
  | summonCarrier => Scoreboard.summonCarrier pack
  | invoke [] call => call.render
  | invoke clauses call => "execute " ++ Clause.renderAll pack clauses ++ " run " ++ call.render

/-- Only a command given by its text can be blank. -/
def isBlank : Command → Bool
  | text line => Text.trim line = ""
  | _ => false

end Command

end CommandPack
