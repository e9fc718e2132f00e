import CommandPack.Text.Chars

/-!
# Finding, cutting and joining

Everything here reads a text from the left: the first occurrence wins, and
replacements do not overlap.
-/

namespace CommandPack.Text

/-! ### Characters -/

/-- The characters before and after the first occurrence of `pattern`. -/
def cutChars (pattern : List Char) : List Char → Option (List Char × List Char)
  | [] => if pattern.isEmpty then some ([], []) else none
  | c :: cs =>
    match pattern.isPrefixOf? (c :: cs) with
    | some after => some ([], after)
    | none => (cutChars pattern cs).map fun (before, after) => (c :: before, after)

/-- Replaces `pattern` wherever it starts once the `skip` characters of the last
replaced occurrence have passed. -/
def replaceChars (pattern replacement : List Char) : Nat → List Char → List Char
  | _, [] => []
  | skip + 1, _ :: cs => replaceChars pattern replacement skip cs
  | 0, c :: cs =>
    if pattern.isPrefixOf (c :: cs) then
      replacement ++ replaceChars pattern replacement (pattern.length - 1) cs
    else
      c :: replaceChars pattern replacement 0 cs

/-- The pieces of a text between the occurrences of one character. -/
def piecesChars (separator : Char) : List Char → List (List Char)
  | [] => [[]]
  | c :: cs =>
    if c = separator then
      [] :: piecesChars separator cs
    else
      match piecesChars separator cs with
      | piece :: pieces => (c :: piece) :: pieces
      | [] => [[c]]

/-! ### Texts -/

def startsWith (start s : String) : Bool :=
  (chars start).isPrefixOf (chars s)

def endsWith (ending s : String) : Bool :=
  (chars ending).isSuffixOf (chars s)

/-- What follows `start`, for a text that begins with it. -/
def dropStart? (start s : String) : Option String :=
  ((chars start).isPrefixOf? (chars s)).map String.ofList

/-- What comes before `ending`, for a text that ends with it. -/
def dropEnd? (ending s : String) : Option String :=
  ((chars ending).isSuffixOf? (chars s)).map String.ofList

/-- The texts before and after the first occurrence of `pattern`. -/
def cut? (pattern s : String) : Option (String × String) :=
  (cutChars (chars pattern) (chars s)).map fun (before, after) =>
    (String.ofList before, String.ofList after)

/-- Replaces the first occurrence of `pattern`. -/
def replaceFirst (pattern replacement s : String) : String :=
  match cut? pattern s with
  | some (before, after) => before ++ replacement ++ after
  | none => s

/-- Replaces every occurrence of a nonempty `pattern`. -/
def replaceAll (pattern replacement s : String) : String :=
  String.ofList (replaceChars (chars pattern) (chars replacement) 0 (chars s))

/-- The pieces of a text between the occurrences of one character. -/
def pieces (separator : Char) (s : String) : List String :=
  (piecesChars separator (chars s)).map String.ofList

/-- Writes texts one after the other with a separator between them. -/
def join (separator : String) : List String → String
  | [] => ""
  | [s] => s
  | s :: rest => s ++ separator ++ join separator rest

/-- Writes texts one after the other. -/
def concat : List String → String
  | [] => ""
  | s :: rest => s ++ concat rest

end CommandPack.Text
