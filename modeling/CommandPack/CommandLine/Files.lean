import CommandPack.Text.Search

/-!
# Reading files

A source is a file with valid UTF-8 text. A directory tree held in memory answers
for the files under the current directory; nothing is known outside of it but that
the directories around it exist.
-/

namespace CommandPack

/-- Why a file could not be read. -/
inductive ReadFailure
  | notFound
  | isDirectory
  | notDirectory
  | invalidText
  /-- Any other failure, in the words of the system. -/
  | other (text : String)
  deriving DecidableEq, Repr

def ReadFailure.message : ReadFailure → String
  | notFound => "No such file or directory (os error 2)"
  | isDirectory => "Is a directory (os error 21)"
  | notDirectory => "Not a directory (os error 20)"
  | invalidText => "stream did not contain valid UTF-8"
  | other text => text

/-- Reads bytes as text. -/
def decodeText (bytes : ByteArray) : Except ReadFailure String :=
  match String.fromUTF8? bytes with
  | some text => .ok text
  | none => .error .invalidText

/-- Files by name, and names of directories, below the current directory. -/
structure FileTree where
  files : List (List String × ByteArray) := []
  directories : List (List String) := []

namespace FileTree

def isDirectory (tree : FileTree) (place : List String) : Bool :=
  tree.directories.any place.isPrefixOf || place = [] ||
    tree.files.any fun file => place.isPrefixOf file.1 && place ≠ file.1

def file? (tree : FileTree) (place : List String) : Option ByteArray :=
  tree.files.reverse.lookup place

/-- Goes along a path. The directories outside of the tree are `none`. -/
def walk (tree : FileTree) : Option (List String) → List String →
    Except ReadFailure (Option (List String))
  | place, [] => .ok place
  | none, name :: rest =>
    if name = "" || name = "." || name = ".." then tree.walk none rest else .error .notFound
  | some place, name :: rest =>
    if !tree.isDirectory place then
      .error .notDirectory
    else if name = "" || name = "." then
      tree.walk (some place) rest
    else if name = ".." then
      tree.walk (if place = [] then none else some place.dropLast) rest
    else
      let next := place ++ [name]
      if tree.isDirectory next || (tree.file? next).isSome then
        tree.walk (some next) rest
      else
        .error .notFound

/-- Reads the file at a path. -/
def read (tree : FileTree) (path : String) : Except ReadFailure String := do
  if path = "" then
    throw .notFound
  let start := if Text.startsWith "/" path then none else some []
  match ← tree.walk start (Text.pieces '/' path) with
  | none => throw .isDirectory
  | some place =>
    match tree.file? place with
    | some bytes => decodeText bytes
    | none => throw .isDirectory

/-- Adds a file, or a directory if there is no content. -/
def add (tree : FileTree) (name : String) (content : Option ByteArray) : FileTree :=
  let place := (Text.pieces '/' name).filter fun part => part ≠ "" && part ≠ "."
  match content with
  | some bytes => { tree with files := tree.files ++ [(place, bytes)] }
  | none => { tree with directories := tree.directories ++ [place] }

end FileTree

end CommandPack
