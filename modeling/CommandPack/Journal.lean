import CommandPack.Path

/-!
# The journal of a compilation

What happens during a compilation is recorded as events. Writing them out is left
to whoever reads the journal: an event has a level, a topic and a message.
-/

namespace CommandPack

/-- How much a reader of the journal wants to see, from little to much. -/
inductive Level
  | error
  | warn
  | info
  | debug
  | trace
  deriving DecidableEq, Repr

namespace Level

def rank : Level → Nat
  | error => 1
  | warn => 2
  | info => 3
  | debug => 4
  | trace => 5

def name : Level → String
  | error => "ERROR"
  | warn => "WARN"
  | info => "INFO"
  | debug => "DEBUG"
  | trace => "TRACE"

end Level

inductive Event
  | sourceRead (index : Nat) (name : String) (lines : Nat)
  | routineStarted (path : Path)
  | routineDone (path : Path) (commands : Nat)
  | lineStarted (path : Path) (index : Nat) (text : String)
  /-- A definition with string parameters waits for its arguments. -/
  | definitionDeferred (path : Path)
  | blockOpened (path parent : Path)
  | variantCompiled (path : Path) (arguments : List String)
  | routinesPruned (paths : List Path)
  | loadCreated (path : Path)
  | packBuilt (files functions : Nat)
  deriving DecidableEq, Repr

namespace Event

def level : Event → Level
  | loadCreated _ | packBuilt .. => .info
  | routineDone .. | lineStarted .. => .trace
  | _ => .debug

/-- The part of the program that an event is about. -/
def topic : Event → String
  | sourceRead .. | routinesPruned _ => "forkpack_language::namespace"
  | routineStarted _ | routineDone .. | lineStarted .. | definitionDeferred _ =>
    "forkpack_language::compiler"
  | blockOpened .. => "forkpack_language::fork"
  | variantCompiled .. | loadCreated _ => "forkpack_language::linker"
  | packBuilt .. => "forkpack_runtime"

def message : Event → String
  | sourceRead index name lines =>
    "source " ++ Text.natural index ++ " (" ++ name ++ "): " ++ Text.natural lines ++ " lines"
  | routineStarted path => "compiling " ++ path.render
  | routineDone path commands => path.render ++ ": " ++ Text.natural commands ++ " commands"
  | lineStarted path index text =>
    path.render ++ " [" ++ Text.natural index ++ "]: " ++ text
  | definitionDeferred path =>
    "deferred " ++ path.render ++ " until its string arguments are known"
  | blockOpened path parent => "forked " ++ path.render ++ " from " ++ parent.render
  | variantCompiled path arguments =>
    "instantiated " ++ path.render ++ " for (" ++ Text.join ", " arguments ++ ")"
  | routinesPruned paths =>
    "pruned " ++ Text.natural paths.length ++ " functions: " ++
      Text.join ", " (paths.map Path.render)
  | loadCreated path => "no load function defined; creating " ++ path.render
  | packBuilt files functions =>
    "compiled " ++ Text.natural files ++ " files into " ++ Text.natural functions ++ " functions"

end Event

end CommandPack
