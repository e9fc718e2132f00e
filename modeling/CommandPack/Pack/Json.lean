import CommandPack.Pack.Basic

/-!
# Packs as JSON

A pack is written as a JSON object with one member a line, two spaces an indent
step. Reading gives the pack back, with its routines and slots in their order.
-/

namespace CommandPack.Json

/-! ### Writing -/

def hexDigit (n : Nat) : Char :=
  if n < 10 then Char.ofNat ('0'.toNat + n) else Char.ofNat ('a'.toNat + (n - 10))

/-- The text of a character inside a string. Only quotes, backslashes and control
characters are escaped. -/
def escapeChar (c : Char) : List Char :=
  if c = '"' then ['\\', '"']
  else if c = '\\' then ['\\', '\\']
  else if c = '\x08' then ['\\', 'b']
  else if c = '\x0c' then ['\\', 'f']
  else if c = '\n' then ['\\', 'n']
  else if c = '\r' then ['\\', 'r']
  else if c = '\t' then ['\\', 't']
  else if c.toNat < 0x20 then
    ['\\', 'u', '0', '0', hexDigit (c.toNat / 16), hexDigit (c.toNat % 16)]
  else [c]

def text (s : String) : String :=
  "\"" ++ String.ofList ((Text.chars s).flatMap escapeChar) ++ "\""

def indent (level : Nat) : String :=
  String.ofList (List.replicate (2 * level) ' ')

/-- Writes items between brackets, each on a line of its own. -/
def enclose (opening closing : String) (level : Nat) (items : List String) : String :=
  if items = [] then
    opening ++ closing
  else
    opening ++ "\n" ++ Text.join ",\n" (items.map (indent (level + 1) ++ ·)) ++ "\n" ++
      indent level ++ closing

def list (level : Nat) (items : List String) : String :=
  enclose "[" "]" level items

def object (level : Nat) (members : List (String × String)) : String :=
  enclose "\x7b" "\x7d" level (members.map fun member => text member.1 ++ ": " ++ member.2)

/-! ### Reading -/

inductive Token
  | text (s : String)
  | mark (c : Char)
  deriving DecidableEq, Repr

/-- Where a reader of tokens stands. -/
inductive Cursor
  | outside
  /-- Inside a string, with its characters read backwards. -/
  | inside (held : List Char)
  /-- Just after a backslash. -/
  | escaped (held : List Char)
  /-- Inside a numbered character, with the digits still to come and its value. -/
  | numbered (held : List Char) (left : Nat) (value : Nat)

def unescape? : Char → Option Char
  | '"' => some '"'
  | '\\' => some '\\'
  | '/' => some '/'
  | 'b' => some '\x08'
  | 'f' => some '\x0c'
  | 'n' => some '\n'
  | 'r' => some '\r'
  | 't' => some '\t'
  | _ => none

def hexValue? (c : Char) : Option Nat :=
  if '0' ≤ c && c ≤ '9' then some (c.toNat - '0'.toNat)
  else if 'a' ≤ c && c ≤ 'f' then some (c.toNat - 'a'.toNat + 10)
  else if 'A' ≤ c && c ≤ 'F' then some (c.toNat - 'A'.toNat + 10)
  else none

def isSpace (c : Char) : Bool :=
  c = ' ' || c = '\n' || c = '\r' || c = '\t'

/-- Cuts a text into strings and marks. -/
def scan : Cursor → List Char → Option (List Token)
  | .outside, [] => some []
  | .outside, c :: rest =>
    if c = '"' then scan (.inside []) rest
    else if isSpace c then scan .outside rest
    else (scan .outside rest).map (.mark c :: ·)
  | .inside held, c :: rest =>
    if c = '"' then (scan .outside rest).map (.text (String.ofList held.reverse) :: ·)
    else if c = '\\' then scan (.escaped held) rest
    else if c.toNat < 0x20 then none
    else scan (.inside (c :: held)) rest
  | .escaped held, c :: rest =>
    if c = 'u' then scan (.numbered held 4 0) rest
    else
      match unescape? c with
      | some plain => scan (.inside (plain :: held)) rest
      | none => none
  | .numbered held left value, c :: rest =>
    match left, hexValue? c with
    | left + 2, some digit => scan (.numbered held (left + 1) (16 * value + digit)) rest
    | 1, some digit => scan (.inside (Char.ofNat (16 * value + digit) :: held)) rest
    | _, _ => none
  | _, [] => none

def readItems : List Token → Option (List String × List Token)
  | .text s :: .mark ',' :: rest => (readItems rest).map fun (items, after) => (s :: items, after)
  | .text s :: .mark ']' :: rest => some ([s], rest)
  | _ => none

def readList : List Token → Option (List String × List Token)
  | .mark '[' :: .mark ']' :: rest => some ([], rest)
  | .mark '[' :: rest => readItems rest
  | _ => none

def readText : List Token → Option (String × List Token)
  | .text s :: rest => some (s, rest)
  | _ => none

/-- Reads at most `limit` members. -/
def readMembers {α : Type} (value : List Token → Option (α × List Token)) :
    Nat → List Token → Option (List (String × α) × List Token)
  | limit + 1, .text key :: .mark ':' :: rest => do
    let (first, after) ← value rest
    match after with
    | .mark ',' :: after =>
      let (members, after) ← readMembers value limit after
      return ((key, first) :: members, after)
    | .mark '\x7d' :: after => return ([(key, first)], after)
    | _ => none
  | _, _ => none

def readObject {α : Type} (value : List Token → Option (α × List Token)) (tokens : List Token) :
    Option (List (String × α) × List Token) :=
  match tokens with
  | .mark '\x7b' :: .mark '\x7d' :: rest => some ([], rest)
  | .mark '\x7b' :: rest => readMembers value rest.length rest
  | _ => none

/-- Reads a token that must be there. -/
def expect (token : Token) : List Token → Option (List Token)
  | first :: rest => if first = token then some rest else none
  | [] => none

/-- Reads the name of a member and the mark after it. -/
def readKey (key : String) (tokens : List Token) : Option (List Token) := do
  expect (.mark ':') (← expect (.text key) tokens)

end CommandPack.Json

namespace CommandPack.Pack

def toJson (pack : Pack) : String :=
  let functions := pack.functions.entries.map fun entry =>
    (entry.1, Json.list 2 (entry.2.map Json.text))
  let slots := pack.slots.entries.map fun entry => (entry.1, Json.text entry.2)
  Json.object 0
    [("pack", Json.text pack.name), ("root", Json.text pack.root),
      ("functions", Json.object 1 functions), ("slots", Json.object 1 slots)]

def ofJson? (source : String) : Option Pack := do
  let tokens ← Json.scan .outside (Text.chars source)
  let tokens ← Json.readKey "pack" (← Json.expect (.mark '\x7b') tokens)
  let (name, tokens) ← Json.readText tokens
  let tokens ← Json.readKey "root" (← Json.expect (.mark ',') tokens)
  let (root, tokens) ← Json.readText tokens
  let tokens ← Json.readKey "functions" (← Json.expect (.mark ',') tokens)
  let (functions, tokens) ← Json.readObject Json.readList tokens
  let tokens ← Json.readKey "slots" (← Json.expect (.mark ',') tokens)
  let (slots, tokens) ← Json.readObject Json.readText tokens
  if tokens = [.mark '\x7d'] then
    some { name, root, functions := Table.ofList functions, slots := Table.ofList slots }
  else
    none

end CommandPack.Pack
