import CommandPack.CommandLine.Config
import CommandPack.Linking.Link
import CommandPack.Pack.Json
import CommandPack.Pack.Listing

/-!
# Runs of the command line

A run reads the files, builds the pack and writes its listing. What happens on the
way goes to the error output as far as the arguments ask for it.
-/

namespace CommandPack

/-- How files are read. -/
abbrev Reader := String → Except ReadFailure String

namespace CommandLine

/-- Adds files in order. Each is read only after the one before it was added. -/
def addFiles (read : Reader) : Workspace → List String → Except RunFailure Unit × Workspace
  | ws, [] => (.ok (), ws)
  | ws, path :: rest =>
    match read path with
    | .error failure => (.error (.read path failure), ws)
    | .ok text =>
      match ws.addSource path text with
      | .error fault => (.error (.compile (.fault fault)), ws)
      | .ok after => addFiles read after rest

/-- Builds the pack of the configured files, with the workspace for its journal. -/
def build (read : Reader) (config : Config) : Except RunFailure Pack × Workspace :=
  let empty : Workspace := { settings := config.settings }
  if config.files.isEmpty then
    (.error .noSources, empty)
  else
    match addFiles read empty config.files with
    | (.error failure, ws) => (.error failure, ws)
    | (.ok (), filled) =>
      match filled.compile with
      | (.error halt, ws) => (.error (.compile halt), ws)
      | (.ok (), compiled) =>
        match compiled.link Pack.stepLimit with
        | (.error halt, ws) => (.error (.compile halt), ws)
        | (.ok pack, ws) => (.ok pack, ws.record (.packBuilt config.files.length pack.size))

/-- The listing of the configured files. -/
def list (read : Reader) (config : Config) : Except RunFailure String × Workspace :=
  let (result, ws) := build read config
  (result.map fun pack => if config.json then pack.toJson else pack.listing, ws)

/-! ### Output -/

def color : Level → String
  | .error => "31"
  | .warn => "33"
  | .info => "32"
  | .debug => "36"
  | .trace => "90"

/-- A text filled up with spaces in front. -/
def padStart (width : Nat) (s : String) : String :=
  String.ofList (List.replicate (width - s.length) ' ') ++ s

def logLine (event : Event) : String :=
  "\x1b[" ++ color event.level ++ "m" ++ padStart 5 event.level.name ++ "\x1b[0m " ++
    event.topic ++ ": " ++ event.message ++ "\n"

/-- The log of a workspace at a level. -/
def log (level : Level) (ws : Workspace) : String :=
  Text.concat ((ws.journal.reverse.filter fun event => event.level.rank ≤ level.rank).map logLine)

def errorLine (failure : RunFailure) : String :=
  "\x1b[31mError: " ++ failure.message ++ "\x1b[0m\n"

def versionText : String :=
  "forkpack 0.1.0\n"

def helpText : String :=
  "\x1b[1mforkpack\x1b[0m - Compile indented scripts into command functions\n" ++
  "\n" ++
  "\x1b[1mUSAGE:\x1b[0m\n" ++
  "    forkpack [OPTIONS] FILES...\n" ++
  "\n" ++
  "\x1b[1mARGUMENTS:\x1b[0m\n" ++
  "    FILES...    Source files, compiled in order as one body\n" ++
  "\n" ++
  "\x1b[1mOPTIONS:\x1b[0m\n" ++
  "    -h, --help         Print help information\n" ++
  "    -V, --version      Print version information\n" ++
  "    -p, --pack NAME    Pack identifier (default: first file's stem)\n" ++
  "    -r, --root NAME    Root function name (default: main)\n" ++
  "    -v, --verbose      Log more (repeat for debug and trace output)\n" ++
  "    --json             Print the compiled pack as JSON\n" ++
  "\n" ++
  "\x1b[1mEXAMPLES:\x1b[0m\n" ++
  "    forkpack game.fp                 List the functions of game.fp\n" ++
  "    forkpack -p demo a.fp b.fp       Compile two files as pack demo\n" ++
  "    forkpack -vv --json game.fp      JSON output with debug logging\n"

/-- What a run leaves behind. -/
structure Outcome where
  exit : Nat := 0
  stdout : String := ""
  stderr : String := ""
  deriving DecidableEq, Repr

/-- Runs the command line with its arguments. -/
def run (read : Reader) (arguments : List String) : Outcome :=
  match Config.parse arguments with
  | .error failure => { exit := 1, stderr := errorLine failure }
  | .ok config =>
    if config.help then
      { stdout := helpText }
    else if config.version then
      { stdout := versionText }
    else
      match list read config with
      | (.ok text, ws) => { stdout := text, stderr := log config.level ws }
      | (.error failure, ws) =>
        { exit := 1, stderr := log config.level ws ++ errorLine failure }

end CommandLine

end CommandPack
