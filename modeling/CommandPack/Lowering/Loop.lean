import CommandPack.Lowering.Block

/-!
# Loops

A loop body calls itself again from its end, or from the end of the last guarded
block that it goes on in. A request to leave the loop or to start its next round
is a marker, which later commands of the round test for.
-/

namespace CommandPack.Loop

open BodyM

/-- Kills the markers that a loop body may have left. -/
def killMarkers (loop : Path) (mayExit maySkip : Bool) : List Command :=
  (if mayExit then [.killMarker (Marker.exitTag loop)] else []) ++
    (if maySkip then [.killMarker (Marker.roundTag loop)] else [])

/-- A block that runs a fixed number of times. -/
def times (compile : Compile) (self : Routine) (site : Site) (count : String) :
    BodyM Unit := do
  match Text.unsigned? (Text.trim count) with
  | none => WorkM.fail (.invalidNumber count)
  | some number =>
    let block ← Block.create compile self site .times
    let body ← WorkM.routine block
    if body.maySkip then
      WorkM.updateRoutine block fun routine =>
        { routine with commands := .killMarker (Marker.roundTag block) :: routine.commands }
    let call := Command.invoke (Block.absenceTests block body.mayExit false) ⟨block, []⟩
    emitAll (List.replicate number call)
    emitAll (killMarkers block body.mayExit body.maySkip)

/-- The last guarded block that a body goes on in, at most `limit` blocks away. -/
def tail (ws : Workspace) : Nat → Path → Path
  | 0, path => path
  | limit + 1, path =>
    match (ws.routines.get? path).bind Routine.continuation with
    | some next => tail ws limit next
    | none => path

/-- Lets a loop body call itself again: from its end while no request is there,
and from its head after a request for the next round. -/
def close (block : Path) (header : List Clause) (pending : List Command) : BodyM Unit := do
  let ws ← WorkM.query .ok
  let last := tail ws ws.routines.size block
  WorkM.updateRoutine last fun routine =>
    let tests := Block.absenceTests block routine.mayExit routine.maySkip
    { routine with
      commands := routine.commands ++ pending ++ [.invoke (tests ++ header) ⟨block, []⟩] }
  WorkM.updateRoutine block fun routine =>
    let tag := Marker.roundTag block
    if routine.maySkip then
      { routine with
        commands := .killMarker tag :: routine.commands ++ pending ++
          [.invoke (.marker true tag :: header) ⟨block, []⟩] }
    else
      routine

/-- The clauses that let a loop go on. -/
def header (pack : String) : LoopTest → List Clause → List Clause
  | .holds, clauses => .words "if" :: clauses
  | .fails, clauses => .words "unless" :: clauses
  | .clauses, clauses => if Clause.renderAll pack clauses = "" then [] else clauses

/-- The word of a loop that needs a condition. -/
def keyword? : LoopTest → Option String
  | .holds => some "while"
  | .fails => some "whilenot"
  | .clauses => none

/-- A block that runs while its condition lets it. -/
def loop (compile : Compile) (self : Routine) (site : Site) (test : LoopTest)
    (condition : String) : BodyM Unit := do
  match keyword? test, condition with
  | some word, "" => WorkM.fail (.expectedExpression word)
  | _, _ =>
    let block ← Block.create compile self site .loop
    let clauses ← Condition.header self.path condition
    let ws ← WorkM.query .ok
    let header := header ws.settings.pack test clauses
    let pending ← takePending
    emitAll pending
    emit (.invoke header ⟨block, []⟩)
    close block header pending
    let body ← WorkM.routine block
    emitAll (killMarkers block body.mayExit body.maySkip)

/-- Asks to leave the enclosing loop. -/
def exit (self : Routine) : BodyM Unit := do
  match self.loop with
  | none => WorkM.fail .breakOutsideLoop
  | some loop =>
    modify fun body => { body with mayExit := true }
    emit (.summonMarker (Marker.exitTag loop))

/-- Asks for the next round of the enclosing loop. -/
def next (self : Routine) : BodyM Unit := do
  match self.loop with
  | none => WorkM.fail .continueOutsideLoop
  | some loop =>
    modify fun body => { body with maySkip := true }
    emit (.summonMarker (Marker.roundTag loop))

end CommandPack.Loop
