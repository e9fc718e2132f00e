/-!
# Kinds of variables

An entity variable is a tag on game objects, an integer variable a scoreboard
slot, and a string variable a text that is put in place while compiling.
-/

namespace CommandPack

inductive Kind
  /-- A tagged group, possibly of players only, possibly of one member only. -/
  | entity (player single : Bool)
  | integer
  | string
  deriving DecidableEq, Repr

namespace Kind

instance : Inhabited Kind := ⟨entity false false⟩

/-- Reads the clarifier of a declaration. -/
def ofClarifier? : String → Option Kind
  | "e" => some (entity false false)
  | "p" => some (entity true false)
  | "1" | "e1" | "1e" => some (entity false true)
  | "1p" | "p1" => some (entity true true)
  | "i" => some integer
  | "s" => some string
  | _ => none

/-- The canonical clarifier. -/
def clarifier : Kind → String
  | entity false false => "e"
  | entity true false => "p"
  | entity false true => "1"
  | entity true true => "1p"
  | integer => "i"
  | string => "s"

theorem ofClarifier?_clarifier (kind : Kind) : ofClarifier? kind.clarifier = some kind := by
  match kind with
  | entity false false | entity true false | entity false true | entity true true => rfl
  | integer | string => rfl

def isEntity : Kind → Bool
  | entity .. => true
  | _ => false

def isInteger : Kind → Bool
  | integer => true
  | _ => false

def isString : Kind → Bool
  | string => true
  | _ => false

/-- Restricts an entity kind further. Other kinds stay as they are. -/
def narrow (player single : Bool) : Kind → Kind
  | entity p s => entity (p || player) (s || single)
  | kind => kind

def describe : Kind → String
  | entity player single =>
    (if single then "single " else "") ++ (if player then "player" else "entity")
  | integer => "integer"
  | string => "string"

end Kind

end CommandPack
