import CommandPack.Proofs.Lowering.Program

/-!
# Traces of compilations

A successful compilation as a derivation, without the bound on its levels and without the
state monads. A derivation keeps the lines that it comes to, each with the routine that it is
compiled for and the workspace at that moment, so that statements about the course of a
compilation are proved by induction on it.
-/

namespace CommandPack

open BodyM Lowering Statement

/-- A body in the making and the workspace. -/
abbrev Stage := Body × Workspace

/-- A line that a compilation comes to. -/
structure Visit where
  /-- The routine that the line is compiled for. -/
  routine : Routine
  /-- The position of the line. -/
  index : Nat
  /-- The workspace when the line is started. -/
  ws : Workspace

/-- The parts of a compilation. -/
inductive Task
  | routine (path : Path) (previous : Option Chain)
  | lines (self : Routine) (opens : Bool) (index : Nat) (lines : List Line)
  | statement (self : Routine) (site : Site) (st : Statement)
  /-- The lines after a block that a statement has split off. -/
  | rest (self : Routine) (site : Site) (st : Statement) (block : Path)

/-- Whether a request about the loop was made. -/
def Body.asks (body : Body) : Bool :=
  body.mayExit || body.maySkip

/-- Whether running the body may leave a request about its loop. -/
def Routine.asks (routine : Routine) : Bool :=
  routine.mayExit || routine.maySkip

/-- The role of the block that a statement splits off. -/
def Statement.role? : Statement → Option BlockRole
  | branch _ | otherwise _ => some .branch
  | times _ => some .times
  | loop .. => some .loop
  | _ => none

/-- The workspace once a body is stored. -/
def Lowering.stored (self : Routine) (body : Body) (ws : Workspace) : Workspace :=
  (ws.record (.routineDone self.path body.commands.length)).updateRoutine self.path fun routine =>
    { routine with
      commands := body.commands
      mayExit := body.mayExit
      maySkip := body.maySkip
      continuation := body.continuation
      compiled := true }

/-- What happens before the first line of a body: parameters are bound and definitions are
registered. -/
def Lowering.Enters (self : Routine) (ws ws' : Workspace) : Prop :=
  WorkM.Gives (do
    WorkM.update (bindParams self)
    if !self.kind.isGuard then
      Definition.registerAll self self.start (ws.lines.drop self.start)) ws () ws'

/-- The definitions among the own lines of a routine. -/
def Routine.definitions (self : Routine) (ws : Workspace) : List (Nat × Line) :=
  if self.kind.isGuard then []
  else (Block.own self.depth self.start (ws.lines.drop self.start)).filter (·.2.defines)

theorem Routine.mem_definitions {self : Routine} {ws : Workspace} {d : Nat × Line} :
    d ∈ self.definitions ws ↔ self.kind.isGuard = false ∧
      d ∈ Block.own self.depth self.start (ws.lines.drop self.start) ∧ d.2.defines := by
  unfold Routine.definitions
  cases self.kind.isGuard <;> simp [List.mem_filter]

theorem Lowering.Enters.registered {self : Routine} {ws ws' : Workspace}
    (h : Enters self ws ws') :
    Definition.Registered self (self.definitions ws) (bindParams self ws) ws' := by
  simp only [Enters, WorkM.gives_bind, WorkM.gives_update] at h
  obtain ⟨_, _, rfl, h⟩ := h
  unfold Routine.definitions
  cases guard : self.kind.isGuard with
  | true =>
    simp only [guard, Bool.not_true, Bool.false_eq_true, if_false, WorkM.gives_pure] at h
    rw [h.2]
    exact .nil
  | false =>
    simp only [guard, Bool.not_false, if_true] at h
    exact Definition.registered h

/-- What a statement does with a block that it has split off and compiled. -/
inductive Block.Heads (self : Routine) (block : Path) : Statement → Stage → Stage → Prop
  | branch {clauses : String} {body waiting : Body} {ws ws' : Workspace} {header : List Clause}
      {opening : List Command} {marker : Option String}
      (headed : Gives (Condition.header self.path clauses) body ws header waiting ws')
      (opens : opening = [.killMarker (Marker.chainTag block)] ∨ opening = [])
      (marks : marker.getD (Marker.chainTag block) = Marker.chainTag block) :
      Heads self block (.branch clauses) (body, ws)
        ({ waiting with
           commands := waiting.commands ++
             (opening ++ (waiting.pending ++ [.invoke header ⟨block, []⟩]))
           pending := []
           previous := some ⟨block, marker⟩ }, ws')
  | otherwise {clauses : String} {body waiting : Body} {ws ws' : Workspace} {chain : Chain}
      {header : List Clause} {closes : List Command}
      (chained : body.previous = some chain)
      (headed : Gives (Condition.header self.path clauses) body
        (ws.updateRoutine chain.branch fun r =>
          { r with commands := .ensureMarker chain.tag :: r.commands }) header waiting ws')
      (closing : closes = [] ∨ closes = [.killMarker chain.tag]) :
      Heads self block (.otherwise clauses) (body, ws)
        ({ waiting with
           commands := waiting.commands ++ (waiting.pending ++
             .invoke (.marker false chain.tag ::
               if Clause.renderAll ws'.settings.pack header = "" then [] else header)
               ⟨block, []⟩ :: closes)
           pending := []
           previous := some ⟨block, some chain.tag⟩ }, ws')
  | times {count : String} {number : Nat} {body : Body} {ws : Workspace} {inner : Routine}
      (found : ws.routines.get? block = some inner) :
      Heads self block (.times count) (body, ws)
        ({ body with
           commands := body.commands ++
             (List.replicate number
                 (.invoke (Block.absenceTests block inner.mayExit false) ⟨block, []⟩) ++
               Loop.killMarkers block inner.mayExit inner.maySkip) },
          if inner.maySkip then
            ws.updateRoutine block fun r =>
              { r with commands := .killMarker (Marker.roundTag block) :: r.commands }
          else ws)
  | loop {test : LoopTest} {condition : String} {body waiting closed : Body}
      {ws ws₁ ws' : Workspace} {clauses : List Clause} {inner : Routine}
      (headed : Gives (Condition.header self.path condition) body ws clauses waiting ws₁)
      (closes : Gives
        (Loop.close block (Loop.header ws₁.settings.pack test clauses) waiting.pending)
        { waiting with
          commands := waiting.commands ++ (waiting.pending ++
            [.invoke (Loop.header ws₁.settings.pack test clauses) ⟨block, []⟩])
          pending := [] } ws₁ () closed ws') :
      Heads self block (.loop test condition) (body, ws)
        ({ closed with
           commands := closed.commands ++ Loop.killMarkers block inner.mayExit inner.maySkip },
          ws')

/-- A part of a compilation runs to its end and comes to some lines on the way. -/
inductive Ran : Task → Stage → List Visit → Stage → Prop
  | skip {path : Path} {previous : Option Chain} {body : Body} {ws : Workspace} {self : Routine}
      (found : ws.routines.get? path = some self)
      (ends : ∀ line ∈ (ws.lines.drop self.start).head?, line.depth < self.depth)
      (mayBeEmpty : self.kind = .root ∨ self.kind.isGuard = true) :
      Ran (.routine path previous) (body, ws) []
        (body, stored self {} (ws.record (.routineStarted path)))
  | run {path : Path} {previous : Option Chain} {body result : Body} {ws ws₁ ws₂ : Workspace}
      {self : Routine} {first : Line} {following : List Line} {visits : List Visit}
      (found : ws.routines.get? path = some self)
      (starts : ws.lines.drop self.start = first :: following) (here : first.depth = self.depth)
      (enters : Enters self (ws.record (.routineStarted path)) ws₁)
      (lines : Ran (.lines self false self.start (first :: following))
        ({ locals := paramPaths self, previous }, ws₁) visits (result, ws₂)) :
      Ran (.routine path previous) (body, ws) visits
        (body, stored self result (releaseLocals ws₂ result.locals))
  | nil {self : Routine} {opens : Bool} {index : Nat} {c : Stage} :
      Ran (.lines self opens index []) c [] c
  | leave {self : Routine} {opens : Bool} {index : Nat} {line : Line} {lines : List Line}
      {c : Stage} (up : line.depth < self.depth) :
      Ran (.lines self opens index (line :: lines)) c [] c
  | deeper {self : Routine} {index : Nat} {line : Line} {lines : List Line} {c c' : Stage}
      {visits : List Visit} (deeper : self.depth < line.depth)
      (after : Ran (.lines self true (index + 1) lines) c visits c') :
      Ran (.lines self true index (line :: lines)) c visits c'
  | quiet {self : Routine} {opens : Bool} {index : Nat} {line : Line} {lines : List Line}
      {c : Stage} (here : line.depth = self.depth) (asked : c.1.asks = true)
      (after : Ran (.lines self (Text.endsWith ":" line.text) (index + 1) lines) c [] c) :
      Ran (.lines self opens index (line :: lines)) c [] c
  | step {self : Routine} {opens : Bool} {index : Nat} {line : Line} {lines : List Line}
      {body mid : Body} {ws ws₁ : Workspace} {st : Statement} {c' : Stage}
      {inside later : List Visit}
      (here : line.depth = self.depth) (goesOn : body.asks = false)
      (parsed : classify (ws.resolveFunction? self.path) line.text = .ok st)
      (statement : Ran (.statement self ⟨index, lines⟩ st)
        ({ body with pending := [] }, ws.record (.lineStarted self.path index line.text)) inside
        (mid, ws₁))
      (after : Ran (.lines self (Text.endsWith ":" line.text) (index + 1) lines)
        (if st.continuesChain then mid else { mid with previous := none }, ws₁) later c') :
      Ran (.lines self opens index (line :: lines)) (body, ws)
        (⟨self, index, ws⟩ :: (inside ++ later)) c'
  | plain {compile : Compile} {self : Routine} {site : Site} {st : Statement} {body body' : Body}
      {ws ws' : Workspace} (plain : st.isPlain = true)
      (calls : ∀ callee arguments, st = .call callee arguments → ws.isDefined callee = true)
      (gives : Gives (statement compile self site st) body ws () body' ws') :
      Ran (.statement self site st) (body, ws) [] (body', ws')
  | exit {self : Routine} {site : Site} {body : Body} {ws : Workspace} {loop : Path}
      (inside : self.loop = some loop) :
      Ran (.statement self site .exitLoop) (body, ws) []
        ({ body with
           mayExit := true
           commands := body.commands ++ [.summonMarker (Marker.exitTag loop)] }, ws)
  | next {self : Routine} {site : Site} {body : Body} {ws : Workspace} {loop : Path}
      (inside : self.loop = some loop) :
      Ran (.statement self site .nextRound) (body, ws) []
        ({ body with
           maySkip := true
           commands := body.commands ++ [.summonMarker (Marker.roundTag loop)] }, ws)
  | defer {self : Routine} {site : Site} {name : String} {body : Body} {ws : Workspace}
      {callee : Path} {routine : Routine}
      (resolved : ws.resolveFunction? self.path name = some callee)
      (found : ws.routines.get? callee = some routine) (template : routine.isTemplate = true) :
      Ran (.statement self site (.define name)) (body, ws) []
        (body, (ws.updateRoutine callee
          ({ · with template := some { symbols := ws.symbols } })).record
            (.definitionDeferred callee))
  | define {self : Routine} {site : Site} {name : String} {body : Body} {ws ws' : Workspace}
      {callee : Path} {routine : Routine} {visits : List Visit}
      (resolved : ws.resolveFunction? self.path name = some callee)
      (found : ws.routines.get? callee = some routine) (template : routine.isTemplate = false)
      (compiled : Ran (.routine callee none) (body, ws) visits (body, ws')) :
      Ran (.statement self site (.define name)) (body, ws) visits
        (body, ws'.updateRoutine callee ({ · with used := true }))
  | block {self : Routine} {site : Site} {st : Statement} {role : BlockRole} {path : Path}
      {body mid : Body} {ws ws₁ ws₂ : Workspace} {c' : Stage} {inside later : List Visit}
      (splits : st.role? = some role) (hpath : path = Block.path self role body.counter)
      (free : ws.routines.get? path = none)
      (compiled : Ran (.routine path none)
        ({ body with counter := body.counter + 1 }, Block.opened self site role path ws) inside
        ({ body with counter := body.counter + 1 }, ws₁))
      (heads : Block.Heads self path st ({ body with counter := body.counter + 1 }, ws₁)
        (mid, ws₂))
      (rest : Ran (.rest self site st path) (mid, ws₂) later c') :
      Ran (.statement self site st) (body, ws) (inside ++ later) c'
  | unguarded {self : Routine} {site : Site} {st : Statement} {block : Path} {c : Stage}
      (quiet : st.continuesChain = true → self.loop = none ∨
        ∃ inner, c.2.routines.get? block = some inner ∧ inner.asks = false) :
      Ran (.rest self site st block) c [] c
  | guarded {self : Routine} {site : Site} {st : Statement} {block guard loop : Path}
      {inner rest : Routine} {body asking mid : Body} {ws ws' : Workspace} {visits : List Visit}
      (chain : st.continuesChain = true) (inside : self.loop = some loop)
      (found : ws.routines.get? block = some inner) (asks : inner.asks = true)
      (hasking : asking =
        { body with
          mayExit := body.mayExit || inner.mayExit
          maySkip := body.maySkip || inner.maySkip
          counter := body.counter + 1 })
      (hpath : guard = Block.path self .guard body.counter)
      (free : ws.routines.get? guard = none)
      (compiled : Ran (.routine guard body.previous)
        (asking, Block.opened self site .guard guard ws) visits (asking, ws'))
      (foundRest : ws'.routines.get? guard = some rest)
      (hmid : mid =
        if rest.commands.isEmpty then asking
        else
          { asking with
            commands := asking.commands ++
              [.invoke (Block.absenceTests loop inner.mayExit inner.maySkip) ⟨guard, []⟩]
            continuation := some guard }) :
      Ran (.rest self site st block) (body, ws) visits
        ({ mid with
           mayExit := mid.mayExit || rest.mayExit
           maySkip := mid.maySkip || rest.maySkip }, ws')

/-- One part of a compilation begins another one. What comes before that has run to its end, and
the first part may stop later. -/
inductive Starts : Task × Stage → Task × Stage → Prop
  | enter {path : Path} {previous : Option Chain} {body : Body} {ws ws₁ : Workspace}
      {self : Routine} (found : ws.routines.get? path = some self)
      (enters : Enters self (ws.record (.routineStarted path)) ws₁) :
      Starts (.routine path previous, (body, ws))
        (.lines self false self.start (ws.lines.drop self.start),
          ({ locals := paramPaths self, previous }, ws₁))
  | pass {self : Routine} {index : Nat} {line : Line} {lines : List Line} {c : Stage}
      (deeper : self.depth < line.depth) :
      Starts (.lines self true index (line :: lines), c) (.lines self true (index + 1) lines, c)
  | quiet {self : Routine} {opens : Bool} {index : Nat} {line : Line} {lines : List Line}
      {c : Stage} (here : line.depth = self.depth) (asked : c.1.asks = true) :
      Starts (.lines self opens index (line :: lines), c)
        (.lines self (Text.endsWith ":" line.text) (index + 1) lines, c)
  | statement {self : Routine} {opens : Bool} {index : Nat} {line : Line} {lines : List Line}
      {body : Body} {ws : Workspace} {st : Statement} (here : line.depth = self.depth)
      (goesOn : body.asks = false)
      (parsed : classify (ws.resolveFunction? self.path) line.text = .ok st) :
      Starts (.lines self opens index (line :: lines), (body, ws))
        (.statement self ⟨index, lines⟩ st,
          ({ body with pending := [] }, ws.record (.lineStarted self.path index line.text)))
  | next {self : Routine} {opens : Bool} {index : Nat} {line : Line} {lines : List Line}
      {body mid : Body} {ws ws₁ : Workspace} {st : Statement} {inside : List Visit}
      (here : line.depth = self.depth) (goesOn : body.asks = false)
      (parsed : classify (ws.resolveFunction? self.path) line.text = .ok st)
      (ran : Ran (.statement self ⟨index, lines⟩ st)
        ({ body with pending := [] }, ws.record (.lineStarted self.path index line.text)) inside
        (mid, ws₁)) :
      Starts (.lines self opens index (line :: lines), (body, ws))
        (.lines self (Text.endsWith ":" line.text) (index + 1) lines,
          (if st.continuesChain then mid else { mid with previous := none }, ws₁))
  | define {self : Routine} {site : Site} {name : String} {body : Body} {ws : Workspace}
      {callee : Path} {routine : Routine}
      (resolved : ws.resolveFunction? self.path name = some callee)
      (found : ws.routines.get? callee = some routine) (template : routine.isTemplate = false) :
      Starts (.statement self site (.define name), (body, ws)) (.routine callee none, (body, ws))
  | block {self : Routine} {site : Site} {st : Statement} {role : BlockRole} {path : Path}
      {body : Body} {ws : Workspace} (splits : st.role? = some role)
      (hpath : path = Block.path self role body.counter) (free : ws.routines.get? path = none) :
      Starts (.statement self site st, (body, ws)) (.routine path none,
        ({ body with counter := body.counter + 1 }, Block.opened self site role path ws))
  | rest {self : Routine} {site : Site} {st : Statement} {role : BlockRole} {path : Path}
      {body mid : Body} {ws ws₁ ws₂ : Workspace} {inside : List Visit}
      (splits : st.role? = some role) (hpath : path = Block.path self role body.counter)
      (free : ws.routines.get? path = none)
      (ran : Ran (.routine path none)
        ({ body with counter := body.counter + 1 }, Block.opened self site role path ws) inside
        ({ body with counter := body.counter + 1 }, ws₁))
      (heads : Block.Heads self path st ({ body with counter := body.counter + 1 }, ws₁)
        (mid, ws₂)) :
      Starts (.statement self site st, (body, ws)) (.rest self site st path, (mid, ws₂))
  | guard {self : Routine} {site : Site} {st : Statement} {block guard loop : Path}
      {inner : Routine} {mayExit maySkip : Bool} {body : Body} {ws : Workspace}
      (chain : st.continuesChain = true)
      (inside : self.loop = some loop) (found : ws.routines.get? block = some inner)
      (asks : inner.asks = true) (hpath : guard = Block.path self .guard body.counter)
      (free : ws.routines.get? guard = none) :
      Starts (.rest self site st block, (body, ws))
        (.routine guard body.previous, ({ body with mayExit, maySkip, counter := body.counter + 1 },
          Block.opened self site .guard guard ws))

/-! ### Every compilation has a trace -/

/-- Compiling a routine by some means has a trace. -/
def Traced (compile : Compile) : Prop :=
  ∀ {path : Path} {previous : Option Chain} {ws ws' : Workspace} {u : Unit} (body : Body),
    WorkM.Gives (compile path previous) ws u ws' →
      ∃ visits, Ran (.routine path previous) (body, ws) visits (body, ws')

variable {compile : Compile} {self : Routine} {site : Site} {body body' : Body}
  {ws ws' : Workspace} {u : Unit}

/-- A block that is created has a trace. -/
theorem Traced.create (traced : Traced compile) {role : BlockRole} {path : Path}
    (h : Gives (Block.create compile self site role) body ws path body' ws') :
    path = Block.path self role body.counter ∧
      body' = { body with counter := body.counter + 1 } ∧ ws.routines.get? path = none ∧
      ∃ visits, Ran (.routine path (if role = .guard then body.previous else none))
        (body', Block.opened self site role path ws) visits (body', ws') := by
  obtain ⟨hpath, hbody, free, compiled⟩ := Block.gives_create h
  exact ⟨hpath, hbody, free, traced body' compiled⟩

theorem Traced.guardRest (traced : Traced compile) {block : Path} (st : Statement)
    (chain : st.continuesChain = true)
    (h : Gives (Block.guardRest compile self site block) body ws u body' ws') :
    ∃ visits, Ran (.rest self site st block) (body, ws) visits (body', ws') := by
  unfold Block.guardRest at h
  split at h
  · next noLoop =>
    simp only [gives_pure] at h
    obtain ⟨_, rfl, rfl⟩ := h
    exact ⟨[], .unguarded fun _ => .inl noLoop⟩
  · next loop inside =>
    simp only [gives_bind, gives_lift, WorkM.gives_routine] at h
    obtain ⟨inner, body, ws, ⟨⟨found, rfl⟩, rfl⟩, h⟩ := h
    split at h
    · next asks =>
      simp only [Block.inheritRequests, gives_bind, gives_modify, gives_lift,
        WorkM.gives_routine] at h
      obtain ⟨_, _, _, ⟨rfl, rfl⟩, guard, _, ws₂, hcreate, rest, _, _,
        ⟨⟨foundRest, rfl⟩, rfl⟩, h⟩ := h
      obtain ⟨hpath, rfl, free, visits, compiled⟩ := traced.create hcreate
      refine ⟨visits, ?_⟩
      have guards := @Ran.guarded self site st block guard loop inner rest body _ _ _ _ visits
        chain inside found asks rfl hpath free compiled foundRest rfl
      cases empty : rest.commands.isEmpty with
      | true =>
        simp only [empty, Bool.not_true, Bool.false_eq_true, if_false, gives_modify] at h
        obtain ⟨rfl, rfl⟩ := h
        simpa [empty] using guards
      | false =>
        simp only [empty, Bool.not_false, if_true, gives_bind, gives_emit,
          gives_modify] at h
        obtain ⟨_, _, _, ⟨_, rfl, rfl⟩, _, _, _, ⟨rfl, rfl⟩, rfl, rfl⟩ := h
        simpa [empty] using guards
    · next quiet =>
      simp only [gives_pure] at h
      obtain ⟨_, rfl, rfl⟩ := h
      exact ⟨[], .unguarded fun _ => .inr ⟨inner, found, by simpa [Routine.asks] using quiet⟩⟩

theorem Traced.define (traced : Traced compile) {name : String}
    (h : Gives (Definition.define compile self name) body ws u body' ws') :
    ∃ visits, Ran (.statement self site (.define name)) (body, ws) visits (body', ws') := by
  obtain ⟨callee, r, resolves, found, rfl, ⟨template, rfl⟩ | ⟨template, mid, compiled, rfl⟩⟩ :=
    Definition.gives_define h
  · exact ⟨[], .defer resolves found template⟩
  · obtain ⟨visits, ran⟩ := traced _ compiled
    exact ⟨visits, .define resolves found template ran⟩

/-- A statement has a trace. -/
theorem Traced.statement (traced : Traced compile) {st : Statement}
    (calls : ∀ callee arguments, st = .call callee arguments → ws.isDefined callee = true)
    (h : Gives (statement compile self site st) body ws u body' ws') :
    ∃ visits, Ran (.statement self site st) (body, ws) visits (body', ws') := by
  cases st with
  | define => exact traced.define h
  | branch clauses =>
    obtain ⟨block, _, ws₂, header, waiting, ws₃, opening, marker, hcreate, headed, opens, marks,
      hguard⟩ := Block.gives_branch h
    obtain ⟨hpath, rfl, free, inside, compiled⟩ := traced.create hcreate
    obtain ⟨later, rest⟩ := traced.guardRest (.branch clauses) rfl hguard
    exact ⟨_, .block rfl hpath free compiled
      (.branch headed (opens.imp_right And.left) marks) rest⟩
  | otherwise clauses =>
    obtain ⟨chain, block, _, ws₂, header, waiting, ws₃, closes, chained, hcreate, headed,
      closing, hguard⟩ := Block.gives_otherwise h
    obtain ⟨hpath, rfl, free, inside, compiled⟩ := traced.create hcreate
    obtain ⟨later, rest⟩ := traced.guardRest (.otherwise clauses) rfl hguard
    exact ⟨_, .block rfl hpath free compiled
      (.otherwise chained headed (closing.imp_right And.left)) rest⟩
  | times =>
    obtain ⟨number, block, _, ws₂, inner, _, hcreate, found, rfl, rfl⟩ := Loop.gives_times h
    obtain ⟨hpath, rfl, free, inside, compiled⟩ := traced.create hcreate
    exact ⟨_, .block rfl hpath free compiled (.times found) (.unguarded nofun)⟩
  | loop =>
    obtain ⟨block, _, ws₂, clauses, waiting, ws₃, closed, inner, hcreate, headed, closes, _,
      rfl⟩ := Loop.gives_loop h
    obtain ⟨hpath, rfl, free, inside, compiled⟩ := traced.create hcreate
    exact ⟨_, .block rfl hpath free compiled (.loop headed closes) (.unguarded nofun)⟩
  | exitLoop =>
    change Gives (Loop.exit self) _ _ _ _ _ at h
    unfold Loop.exit at h
    split at h
    · simp at h
    · next loop inside =>
      simp only [gives_bind, gives_modify, gives_emit] at h
      obtain ⟨_, _, _, ⟨rfl, rfl⟩, _, rfl, rfl⟩ := h
      exact ⟨[], .exit inside⟩
  | nextRound =>
    change Gives (Loop.next self) _ _ _ _ _ at h
    unfold Loop.next at h
    split at h
    · simp at h
    · next loop inside =>
      simp only [gives_bind, gives_modify, gives_emit] at h
      obtain ⟨_, _, _, ⟨rfl, rfl⟩, _, rfl, rfl⟩ := h
      exact ⟨[], .next inside⟩
  | _ => exact ⟨[], .plain rfl calls h⟩

/-- A call is to a definition. -/
theorem Statement.defined_of_classify {scope callee : Path} {text arguments : String}
    {st : Statement} (parsed : classify (ws.resolveFunction? scope) text = .ok st)
    (isCall : st = .call callee arguments) : ws.isDefined callee = true := by
  rcases form_of_classify parsed with form | ⟨⟨_, resolved, rfl⟩, _⟩
  · rw [isCall] at form
    exact absurd form form_ne_call
  · cases isCall
    exact Workspace.isDefined_of_resolveFunction? resolved

theorem Body.asks_chained {st : Statement} {body : Body} :
    (if st.continuesChain then body else { body with previous := none }).asks = body.asks := by
  split <;> rfl

/-- After a request about the loop the lines of a body are only looked through. -/
theorem Ran.of_asks {opens : Bool} {index : Nat} {lines : List Line} {c c' : Stage}
    {visits : List Visit} (ran : Ran (.lines self opens index lines) c visits c')
    (asked : c.1.asks = true) : visits = [] ∧ c' = c := by
  generalize isLines : Task.lines self opens index lines = task at ran
  induction ran generalizing opens index lines with
  | nil | leave | quiet => exact ⟨rfl, rfl⟩
  | deeper _ _ ih =>
    cases isLines
    exact ih asked rfl
  | step _ goesOn => cases goesOn.symm.trans asked
  | _ => cases isLines

/-- The lines of a body have a trace. -/
theorem Traced.lines (traced : Traced compile) {opens : Bool} {index : Nat} {lines : List Line}
    (h : Gives (Lowering.lines compile self opens index lines) body ws u body' ws') :
    ∃ visits, Ran (.lines self opens index lines) (body, ws) visits (body', ws') := by
  induction lines generalizing opens index body ws with
  | nil =>
    simp only [Lowering.lines, gives_pure] at h
    obtain ⟨_, rfl, rfl⟩ := h
    exact ⟨[], .nil⟩
  | cons line lines ih =>
    rw [Lowering.lines] at h
    split at h
    · next up =>
      simp only [gives_pure] at h
      obtain ⟨_, rfl, rfl⟩ := h
      exact ⟨[], .leave up⟩
    · next notUp =>
      split at h
      · next deeper =>
        split at h
        · next opening =>
          subst opening
          obtain ⟨visits, ran⟩ := ih h
          exact ⟨visits, .deeper deeper ran⟩
        · simp at h
      · next notDeeper =>
        have here : line.depth = self.depth := by omega
        simp only [gives_bind, gives_get, ← Bool.not_or] at h
        obtain ⟨_, body, ws, ⟨rfl, rfl, rfl⟩, h⟩ := h
        cases asked : body.asks with
        | true =>
          rw [if_neg (by rw [← Body.asks, asked]; decide)] at h
          obtain ⟨visits, ran⟩ := ih h
          obtain ⟨rfl, same⟩ := ran.of_asks asked
          cases same
          exact ⟨[], .quiet here asked ran⟩
        | false =>
          rw [if_pos (by rw [← Body.asks, asked]; rfl)] at h
          simp only [gives_bind, gives_locate] at h
          obtain ⟨_, body₁, ws₁, hline, h⟩ := h
          obtain ⟨st, mid, parsed, hstatement, rfl⟩ := Lowering.gives_line.1 hline
          obtain ⟨inside, ran⟩ := traced.statement (by
            intro callee arguments isCall
            exact @defined_of_classify ws _ _ _ _ _ parsed isCall) hstatement
          obtain ⟨later, after⟩ := ih h
          exact ⟨_, .step here asked parsed ran after⟩

/-- A routine has a trace if the routines in it have one. -/
theorem Traced.routine (traced : Traced compile) : Traced (Lowering.routine compile) := by
  intro path previous ws ws' u body h
  simp only [Lowering.routine, WorkM.gives_bind, WorkM.gives_routine, WorkM.gives_record,
    WorkM.gives_get] at h
  obtain ⟨self, ws, ⟨found, rfl⟩, _, _, rfl, _, _, ⟨rfl, rfl⟩, h⟩ := h
  have storing {stored : Workspace} {result : Body} {v : Unit}
      (h : WorkM.Gives (Lowering.commit self result) stored v ws') :
      ws' = Lowering.stored self result stored := by
    simp only [Lowering.commit, WorkM.gives_bind, WorkM.gives_record,
      WorkM.gives_updateRoutine] at h
    obtain ⟨_, _, rfl, _, rfl⟩ := h
    rfl
  split at h
  · next none =>
    split at h
    · next mayBeEmpty =>
      rw [storing h]
      have none : ws.lines.drop self.start = [] := none
      exact ⟨[], .skip found (by simp [none]) (by simpa using mayBeEmpty)⟩
    · simp at h
  · next first following starts =>
    have starts : ws.lines.drop self.start = first :: following := starts
    split at h
    · next up =>
      split at h
      · next guard =>
        rw [storing h]
        exact ⟨[], .skip found (by simpa [starts] using up) (.inr guard)⟩
      · simp at h
    · split at h
      · simp at h
      · next notUp notDeeper =>
        obtain ⟨ws₁, ws₂, result, enters, hlines, hcommit⟩ := Lowering.gives_run h
        rw [storing hcommit]
        obtain ⟨visits, ran⟩ := traced.lines hlines
        have lines : (ws.record (.routineStarted path)).lines.drop self.start =
            first :: following := starts
        exact ⟨visits, .run found starts (by omega) enters (lines ▸ ran)⟩

/-- Every successful compilation has a trace. -/
theorem traced_compile (limit : Nat) : Traced (Lowering.compile limit) := by
  induction limit with
  | zero =>
    intro path previous ws ws' u body h
    simp [Lowering.compile] at h
  | succ _ ih => exact ih.routine

end CommandPack
