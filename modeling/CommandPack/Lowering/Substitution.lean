import CommandPack.Mark.Placeholder
import CommandPack.Workspace

/-!
# Substitution of variables

Commands are written in the target language with variable names in them. A word
that names a variable is replaced by its selector, its score or its value. All
other text stays as it is.
-/

namespace CommandPack.Substitution

/-- What stands in place of a word. -/
inductive Replacement
  /-- A selector, which a bracket after the word may narrow. -/
  | selector (text : String)
  | plain (text : String)
  deriving DecidableEq, Repr

def Replacement.text : Replacement → String
  | selector text | plain text => text

/-- The value of a string variable, or its placeholder. -/
def stringText (ws : Workspace) (path : String) : String :=
  (ws.symbols.string? path).getD (Placeholder.render path)

/-- The letters that may clarify the use of an entity variable. -/
def entityFlags : List Char :=
  ['e', 'p', '1']

/-- The replacement of a word that may have a clarifier. The clarifier `v` stands
for the word itself, without it. -/
def evaluate (ws : Workspace) (scope : Path) (word : String) :
    Except Cause (Option Replacement) :=
  let (name, clarifier) := Statement.splitClarifier word
  if clarifier = some "v" then
    .ok (some (.plain name))
  else
    match ws.resolve? scope name with
    | none => .ok none
    | some path =>
      match ws.symbols.kind? path with
      | none => .ok none
      | some (.entity player single) =>
        let flags := Text.chars (clarifier.getD "")
        if flags.all (· ∈ entityFlags) then
          let kind := (Kind.entity player single).narrow ('p' ∈ flags) ('1' ∈ flags)
          .ok (some (.selector (selectTag path kind)))
        else
          .error (.unknownClarifier (clarifier.getD ""))
      | some .integer =>
        match ws.objective path with
        | .error cause => .error cause
        | .ok objective =>
          match clarifier.getD "" with
          | "" => .ok (some (.plain (Scoreboard.select ws.settings.pack objective)))
          | "t" => .ok (some (.plain (Scoreboard.component ws.settings.pack objective)))
          | other => .error (.unknownClarifier other)
      | some .string => .ok (some (.plain (stringText ws path)))

/-- The value that quoted text stands for, if it names a string variable. -/
def quotedValue? (ws : Workspace) (scope : Path) (content : String) : Option String :=
  match ws.resolve? scope content with
  | none => none
  | some path =>
    if ws.symbols.kind? path = some .string then some (stringText ws path) else none

/-- The selector without its closing bracket, where a bracket follows the word
and goes on with the same selector. -/
def opened? (replacement : Replacement) (word : Token) (rest : List Token) : Option String :=
  match replacement, rest with
  | .selector text, next :: _ =>
    if !word.endsInSpace && next.shape = .punctuation '[' then Text.dropEnd? "]" text else none
  | _, _ => none

/-- Substitutes in words, given whether the first of them has been used up. -/
def substituteWords (ws : Workspace) (scope : Path) : Bool → List Token → Except Cause String
  | _, [] => .ok ""
  | true, _ :: rest => substituteWords ws scope false rest
  | false, t :: rest =>
    match t.shape with
    | .word =>
      match evaluate ws scope (Text.trim t.text) with
      | .error cause => .error cause
      | .ok none => (substituteWords ws scope false rest).map (t.text ++ ·)
      | .ok (some replacement) =>
        match opened? replacement t rest with
        | some text => (substituteWords ws scope true rest).map (text ++ "," ++ ·)
        | none =>
          let space := if t.endsInSpace then " " else ""
          (substituteWords ws scope false rest).map (replacement.text ++ space ++ ·)
    | .quoted =>
      let text := (quotedValue? ws scope (Text.trim t.text)).getD t.text
      (substituteWords ws scope false rest).map (text ++ ·)
    | _ => (substituteWords ws scope false rest).map (t.text ++ ·)

/-- Substitutes in one argument. -/
def substituteArgument (ws : Workspace) (scope : Path) (argument : String) :
    Except Cause String :=
  substituteWords ws scope false (Token.words argument)

/-- Substitutes in every argument, from left to right. -/
def substituteArguments (ws : Workspace) (scope : Path) :
    List String → Except Cause (List String)
  | [] => .ok []
  | argument :: rest =>
    match substituteArgument ws scope argument with
    | .error cause => .error cause
    | .ok text => (substituteArguments ws scope rest).map (text :: ·)

/-- Substitutes in a text. Its arguments end up with single spaces between them. -/
def substitute (ws : Workspace) (scope : Path) (text : String) : Except Cause String :=
  (substituteArguments ws scope (Argument.split text)).map (Text.join " ")

end CommandPack.Substitution
