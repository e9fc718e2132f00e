import CommandPack.Lowering.Condition

/-!
# Blocks

The target language has no jumps, so every block becomes a routine that its header
calls. Once a block may have asked to leave a loop or to start its next round, the
rest of the lines around it moves into a guarded block, which runs only while the
markers for that are absent.
-/

namespace CommandPack.Block

open BodyM

/-- The path of the next block. Guarded blocks follow one another as siblings. -/
def path (self : Routine) (role : BlockRole) (counter : Nat) : Path :=
  match role, self.path.leafBlock?, self.path.parent? with
  | .guard, some (.guard, n), some parent => parent.block .guard (n + 1)
  | role, _, _ => self.path.block role counter

/-- The position of the first line of a block. The guarded rest starts after the
block under the current line. -/
def start (self : Routine) (site : Site) : BlockRole → Nat
  | .guard => site.index + 1 + (site.following.takeWhile (self.depth < ·.depth)).length
  | _ => site.index + 1

/-- The routine of a block, not yet compiled. -/
def routine (self : Routine) (site : Site) (role : BlockRole) (path : Path) : Routine where
  path := path
  kind := .block role
  start := start self site role
  depth := if role = .guard then self.depth else self.depth + 1
  owner := self.owner
  loop := if role.isLoop then some path else self.loop

/-- Makes a block a routine and compiles it. A guarded block goes on with the
`else` chain of the lines before it. -/
def create (compile : Compile) (self : Routine) (site : Site) (role : BlockRole) :
    BodyM Path := do
  let body ← get
  let path := path self role body.counter
  modify fun body => { body with counter := body.counter + 1 }
  WorkM.update? (·.register (routine self site role path))
  WorkM.record (.blockOpened path self.path)
  compile path (if role = .guard then body.previous else none)
  return path

/-- The tests that neither of the requests that may be there is there. -/
def absenceTests (loop : Path) (mayExit maySkip : Bool) : List Clause :=
  (if mayExit then [.marker false (Marker.exitTag loop)] else []) ++
    (if maySkip then [.marker false (Marker.roundTag loop)] else [])

/-- Notes that this body may ask for the same as another one. -/
def inheritRequests (other : Routine) : BodyM Unit :=
  modify fun body =>
    { body with
      mayExit := body.mayExit || other.mayExit
      maySkip := body.maySkip || other.maySkip }

/-- Moves the lines after a block into a guarded block, if that block may ask to
leave the loop or to start its next round. -/
def guardRest (compile : Compile) (self : Routine) (site : Site) (block : Path) :
    BodyM Unit := do
  match self.loop with
  | none => pure ()
  | some loop =>
    let inner ← WorkM.routine block
    if inner.mayExit || inner.maySkip then
      inheritRequests inner
      let guard ← create compile self site .guard
      let rest ← WorkM.routine guard
      if !rest.commands.isEmpty then
        emit (.invoke (absenceTests loop inner.mayExit inner.maySkip) ⟨guard, []⟩)
        modify fun body => { body with continuation := some guard }
      inheritRequests rest

/-- Whether the next line at this depth is an `else`. -/
def chainContinues (self : Routine) (site : Site) : Bool :=
  match site.following.find? (·.depth ≤ self.depth) with
  | some line => line.depth = self.depth && Statement.startsWithElse line.text
  | none => false

/-- An execution block. The first of an `else` chain clears the marker of the
chain before anything else. -/
def branch (compile : Compile) (self : Routine) (site : Site) (clauses : String) :
    BodyM Unit := do
  let block ← create compile self site .branch
  let header ← Condition.header self.path clauses
  let marker := if chainContinues self site then some (Marker.chainTag block) else none
  if let some tag := marker then
    emit (.killMarker tag)
  emitAll (← takePending)
  emit (.invoke header ⟨block, []⟩)
  modify fun body => { body with previous := some ⟨block, marker⟩ }
  guardRest compile self site block

/-- An `else` block. It runs only while the marker of the chain is absent, and the
branch before it summons that marker. The last one of the chain kills it. -/
def otherwise (compile : Compile) (self : Routine) (site : Site) (clauses : String) :
    BodyM Unit := do
  match (← get).previous with
  | none => WorkM.fail .elseWithoutDispatch
  | some previous =>
    let block ← create compile self site .branch
    let tag := previous.marker.getD (Marker.chainTag previous.branch)
    WorkM.updateRoutine previous.branch fun routine =>
      { routine with commands := .ensureMarker tag :: routine.commands }
    let header ← Condition.header self.path clauses
    let ws ← WorkM.query .ok
    let extra := if Clause.renderAll ws.settings.pack header = "" then [] else header
    emitAll (← takePending)
    emit (.invoke (.marker false tag :: extra) ⟨block, []⟩)
    if !chainContinues self site then
      emit (.killMarker tag)
    modify fun body => { body with previous := some ⟨block, some tag⟩ }
    guardRest compile self site block

end CommandPack.Block
