import CommandPack.Text.Numeral

/-!
# Scoreboard texts

The integer variables of a pack are scores of one game object, the carrier, which
is named after the pack. The functions here write the texts about it.
-/

namespace CommandPack.Scoreboard

def carrierName (pack : String) : String :=
  pack ++ ".VARS"

/-- The selector of the carrier. -/
def carrier (pack : String) : String :=
  "@e[name=" ++ carrierName pack ++ ",limit=1]"

def set (pack objective : String) (value : Int) : String :=
  "scoreboard players set " ++ carrier pack ++ " " ++ objective ++ " " ++ Text.integer value

def add (pack objective : String) (value : Int) : String :=
  "scoreboard players add " ++ carrier pack ++ " " ++ objective ++ " " ++ Text.integer value

def remove (pack objective : String) (value : Int) : String :=
  "scoreboard players remove " ++ carrier pack ++ " " ++ objective ++ " " ++ Text.integer value

/-- Combines one score with another. -/
def operation (pack target symbol source : String) : String :=
  "scoreboard players operation " ++ carrier pack ++ " " ++ target ++ " " ++ symbol ++ " " ++
    carrier pack ++ " " ++ source

/-- A score named inside a command. -/
def select (pack objective : String) : String :=
  carrier pack ++ " " ++ objective

/-- A text component that shows a score. -/
def component (pack objective : String) : String :=
  "\x7b\"score\":\x7b\"name\":\"@e[name=" ++ carrierName pack ++ "]\",\"objective\":\"" ++
    objective ++ "\"\x7d\x7d"

def declare (objective : String) : String :=
  "scoreboard objectives add " ++ objective ++ " dummy"

/-- Summons the carrier unless it is there. -/
def summonCarrier (pack : String) : String :=
  "execute unless entity @e[name=" ++ carrierName pack ++
    "] run summon armor_stand 0 0 0 \x7bMarker:1b,Invisible:1b,NoGravity:1b,CustomName:\"\\\"" ++
    carrierName pack ++ "\\\"\"\x7d"

/-- The test that a score lies in a range. -/
def inRange (pack objective range : String) : String :=
  "entity @e[name=" ++ carrierName pack ++ ",scores=\x7b" ++ objective ++ "=" ++ range ++ "\x7d]"

end CommandPack.Scoreboard
