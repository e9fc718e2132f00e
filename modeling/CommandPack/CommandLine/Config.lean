import CommandPack.CommandLine.Files
import CommandPack.Journal
import CommandPack.Lowering.Body
import CommandPack.Settings

/-!
# Arguments of the command line
-/

namespace CommandPack

/-- Why a run of the command line fails. -/
inductive RunFailure
  | missingValue (option : String)
  | unknownOption (option : String)
  | noSources
  | read (path : String) (failure : ReadFailure)
  | compile (halt : Halt)
  deriving DecidableEq, Repr

def RunFailure.message : RunFailure → String
  | missingValue option => option ++ " requires a value"
  | unknownOption option => "unknown option: " ++ option
  | noSources => "no source files given (try --help)"
  | read path failure => "failed to read '" ++ path ++ "': " ++ failure.message
  | compile (.fault fault) => fault.message
  | compile .exhausted => "linking does not end"

structure Config where
  files : List String := []
  pack : Option String := none
  root : Option String := none
  /-- How often more messages were asked for, counted up to 255. -/
  verbosity : Nat := 0
  json : Bool := false
  help : Bool := false
  version : Bool := false
  deriving DecidableEq, Repr

namespace Config

/-- Reads arguments from left to right. A lone `-` is a file. -/
def parseFrom (config : Config) : List String → Except RunFailure Config
  | [] => .ok config
  | argument :: rest =>
    if argument = "-h" || argument = "--help" then
      parseFrom { config with help := true } rest
    else if argument = "-V" || argument = "--version" then
      parseFrom { config with version := true } rest
    else if argument = "-v" || argument = "--verbose" then
      parseFrom { config with verbosity := min (config.verbosity + 1) 255 } rest
    else if argument = "--json" then
      parseFrom { config with json := true } rest
    else if argument = "-p" || argument = "--pack" then
      match rest with
      | value :: rest => parseFrom { config with pack := some value } rest
      | [] => .error (.missingValue argument)
    else if argument = "-r" || argument = "--root" then
      match rest with
      | value :: rest => parseFrom { config with root := some value } rest
      | [] => .error (.missingValue argument)
    else if Text.startsWith "-" argument && argument ≠ "-" then
      .error (.unknownOption argument)
    else
      parseFrom { config with files := config.files ++ [argument] } rest

def parse (arguments : List String) : Except RunFailure Config :=
  parseFrom {} arguments

def level (config : Config) : Level :=
  match config.verbosity with
  | 0 => .warn
  | 1 => .info
  | 2 => .debug
  | _ => .trace

/-- The part of a file name before its last dot. A name that has its only dot at
the front is all stem. -/
def stem (name : String) : String :=
  let parts := Text.pieces '.' name
  match parts with
  | ["", _] => name
  | _ => if parts.length ≤ 1 then name else Text.join "." parts.dropLast

/-- The last named part of a path. A path that ends in `..` has none. -/
def fileName? (path : String) : Option String :=
  match ((Text.pieces '/' path).filter fun part => part ≠ "" && part ≠ ".").getLast? with
  | some ".." => none
  | other => other

def packChar (c : Char) : Char :=
  if 'A' ≤ c && c ≤ 'Z' then Char.ofNat (c.toNat + 32)
  else if ('a' ≤ c && c ≤ 'z') || ('0' ≤ c && c ≤ '9') then c
  else '_'

/-- The pack name that a file suggests. -/
def packName? (path : String) : Option String :=
  ((fileName? path).map fun name => String.ofList ((Text.chars (stem name)).map packChar)).filter
    (· ≠ "")

def settings (config : Config) : Settings :=
  let defaults : Settings := {}
  let suggested := config.files.head?.bind packName?
  { defaults with
    pack := (config.pack.or suggested).getD defaults.pack
    root := config.root.getD defaults.root }

end Config

end CommandPack
