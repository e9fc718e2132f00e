import CommandPack.Lowering.Loop
import CommandPack.Proofs.Machine
import CommandPack.Proofs.Script.Reading

/-!
# The code of a script

How the commands of an arena hold a script. The code of a block is a list of commands of one
routine; the blocks in it are routines of their own, and so is the rest of a block after a
statement that may ask to leave a loop or to start its next round. The commands that close a
loop stand at the end of the last routine that its body goes on in, so code is relative to
such a tail.
-/

namespace CommandPack

open Marker

/-- What plain statements and headers become. A header may need commands before it, and all it
asks for concerns the user state. -/
structure Dialect where
  pack : String
  emits : String → List Command → Prop
  tests : String → List Command → List Clause → Prop
  isUser_of_tests {text : String} {pending : List Command} {clauses : List Clause} :
    tests text pending clauses → ∀ c ∈ pending, c.isUser = true
  unmarked_of_tests {text : String} {pending : List Command} {clauses : List Clause} :
    tests text pending clauses → ∀ c ∈ clauses, Machine.isMarkerTest c = false

namespace Code

/-- The loop around a routine and its commands, by path. -/
abbrev View := Path → Option (Option Path × List Command)

/-- The commands that are in view. -/
def View.arena (view : View) : Arena := fun path =>
  (view path).map Prod.snd

/-- What stands at the end of the last routine of a block, by the requests that this routine
may make. -/
abbrev Tail := Bool → Bool → List Command

def noTail : Tail := fun _ _ => []

/-- The commands that let a loop body call itself again from its end. -/
def loopTail (loop : Path) (pending : List Command) (header : List Clause) : Tail :=
  fun mayExit maySkip =>
    pending ++ [.invoke (Block.absenceTests loop mayExit maySkip ++ header) ⟨loop, []⟩]

/-- What a branch summons at its start if an `else` follows it. -/
def front (tag : String) (rest : Script) : List Command :=
  if rest.startsElse then [.ensureMarker tag] else []

/-- What a loop body starts with if it may ask for the next round. -/
def roundStart (loop : Path) (maySkip : Bool) : List Command :=
  if maySkip then [.killMarker (roundTag loop)] else []

/-- How a loop body calls itself again from its head if it may ask for the next round. -/
def roundAgain (loop : Path) (pending : List Command) (header : List Clause) (maySkip : Bool) :
    List Command :=
  if maySkip then
    pending ++ [.invoke (.marker true (roundTag loop) :: header) ⟨loop, []⟩]
  else
    []

/-- A block, or the rest of one after a statement that may have asked to leave the loop or to
start its next round. -/
inductive Piece
  | block (script : Script)
  | after (mayExit maySkip : Bool) (script : Script)

def Piece.script : Piece → Script
  | .block script | .after _ _ script => script

end Code

open Code in
/-- Commands hold a piece of a script, as far as routines are in view, given the loop around it,
the tail and the marker of the `else` chain that the piece may go on with. They may ask to leave
the loop or to start its next round, and they use the routines of the last list. -/
inductive Code (D : Dialect) (view : View) : Option Path → Tail → Option String → Piece →
    List Command → Bool → Bool → List Path → Prop
  | done {lp : Option Path} {tail : Tail} {chain : Option String} :
      Code D view lp tail chain (.block .done) (tail false false) false false []
  | plain {lp : Option Path} {tail : Tail} {chain : Option String} {text : String}
      {rest : Script} {here cs : List Command} {x s : Bool} {used : List Path}
      (emits : D.emits text here) (after : Code D view lp tail none (.block rest) cs x s used) :
      Code D view lp tail chain (.block (.plain text rest)) (here ++ cs) x s used
  | define {lp : Option Path} {tail : Tail} {chain : Option String} {name : String}
      {rest : Script} {cs : List Command} {x s : Bool} {used : List Path}
      (after : Code D view lp tail none (.block rest) cs x s used) :
      Code D view lp tail chain (.block (.define name rest)) cs x s used
  | branch {lp : Option Path} {tail : Tail} {chain : Option String} {clauses : String}
      {body rest : Script} {block : Path} {pending opening inner cs : List Command}
      {header : List Clause} {x' s' x s : Bool} {used' used : List Path}
      (tests : D.tests clauses pending header)
      (inside : Code D view lp noTail none (.block body) inner x' s' used')
      (found : view block = some (lp, front (chainTag block) rest ++ inner))
      (apart : ∀ p ∈ used', chainTag p ≠ chainTag block)
      (opens : opening = [.killMarker (chainTag block)] ∨
        opening = [] ∧ rest.startsElse = false)
      (after : Code D view lp tail (some (chainTag block)) (.after x' s' rest) cs x s
        used) :
      Code D view lp tail chain (.block (.branch clauses body rest))
        (opening ++ (pending ++ .invoke header ⟨block, []⟩ :: cs)) x s (block :: used' ++ used)
  | otherwise {lp : Option Path} {tail : Tail} {tag clauses : String} {body rest : Script}
      {block : Path} {pending closing inner cs : List Command} {header : List Clause}
      {x' s' x s : Bool} {used' used : List Path}
      (tests : D.tests clauses pending header)
      (inside : Code D view lp noTail none (.block body) inner x' s' used')
      (found : view block = some (lp, front tag rest ++ inner))
      (apart : ∀ p ∈ used', chainTag p ≠ tag)
      (closes : closing = [] ∨ closing = [.killMarker tag] ∧ rest.startsElse = false)
      (after : Code D view lp tail (some tag) (.after x' s' rest) cs x s used) :
      Code D view lp tail (some tag) (.block (.otherwise clauses body rest))
        (pending ++ .invoke
          (.marker false tag :: if Clause.renderAll D.pack header = "" then [] else header)
          ⟨block, []⟩ :: (closing ++ cs)) x s (block :: used' ++ used)
  | times {lp : Option Path} {tail : Tail} {chain : Option String} {number : Nat}
      {body rest : Script} {block : Path} {inner cs : List Command} {x' s' x s : Bool}
      {used' used : List Path}
      (inside : Code D view (some block) noTail none (.block body) inner x' s' used')
      (found : view block = some (some block, roundStart block s' ++ inner))
      (after : Code D view lp tail none (.block rest) cs x s used) :
      Code D view lp tail chain (.block (.times number body rest))
        (List.replicate number (.invoke (Block.absenceTests block x' false) ⟨block, []⟩) ++
          (Loop.killMarkers block x' s' ++ cs)) x s (block :: used' ++ used)
  | loop {lp : Option Path} {tail : Tail} {chain : Option String} {test : LoopTest}
      {condition : String} {body rest : Script} {block : Path}
      {pending inner cs : List Command} {clauses : List Clause} {x' s' x s : Bool}
      {used' used : List Path}
      (tests : D.tests condition pending clauses)
      (inside : Code D view (some block)
        (loopTail block pending (Loop.header D.pack test clauses)) none (.block body) inner
        x' s' used')
      (found : view block = some (some block, roundStart block s' ++ inner ++
        roundAgain block pending (Loop.header D.pack test clauses) s'))
      (after : Code D view lp tail none (.block rest) cs x s used) :
      Code D view lp tail chain (.block (.loop test condition body rest))
        (pending ++ .invoke (Loop.header D.pack test clauses) ⟨block, []⟩ ::
          (Loop.killMarkers block x' s' ++ cs)) x s (block :: used' ++ used)
  | exit {w : Path} {tail : Tail} {chain : Option String} :
      Code D view (some w) tail chain (.block .exit)
        (.summonMarker (exitTag w) :: tail true false) true false []
  | next {w : Path} {tail : Tail} {chain : Option String} :
      Code D view (some w) tail chain (.block .next)
        (.summonMarker (roundTag w) :: tail false true) false true []
  | unguarded {lp : Option Path} {tail : Tail} {chain : Option String} {rest : Script}
      {cs : List Command} {x s : Bool} {used : List Path}
      (here : Code D view lp tail chain (.block rest) cs x s used) :
      Code D view lp tail chain (.after false false rest) cs x s used
  | guarded {w : Path} {tail : Tail} {chain : Option String} {rest : Script} {guard : Path}
      {cs : List Command} {x' s' x s : Bool} {used : List Path}
      (found : view guard = some (some w, cs))
      (inside : Code D view (some w) tail chain (.block rest) cs x s used) :
      Code D view (some w) tail chain (.after x' s' rest)
        [.invoke (Block.absenceTests w x' s') ⟨guard, []⟩] (x' || x) (s' || s) (guard :: used)
  | dropped {w : Path} {tail : Tail} {chain : Option String} {rest : Script} {guard : Path}
      {x' s' x s : Bool} {used : List Path}
      (found : view guard = some (some w, []))
      (inside : Code D view (some w) noTail chain (.block rest) [] x s used) :
      Code D view (some w) tail chain (.after x' s' rest)
        (tail (x' || x) (s' || s)) (x' || x) (s' || s) (guard :: used)

end CommandPack
