import CommandPack.Proofs.Lowering.Reaching

/-!
# Compilations that fail

A failed compilation as a derivation: the parts that ran to their end before, and the part that
failed in them. A fault gets its place at the innermost line that is being compiled. Only a new
block and a new definition can meet a path that is taken. A compilation never fails for want of
levels or of a routine, and if integer variables have slots, it never meets a state that should not
be reached. Every line that it has started is one that it came to.
-/

namespace CommandPack

open Workspace BodyM Lowering Definition Statement Condition

variable {text : String} {cause : Cause} {index : Nat} {role : BlockRole} {path : Path}

/-! ### Lines and headers -/

theorem Statement.plain_of_classify {resolve : String → Option Path}
    (h : classify resolve text = .error cause) : cause.isPlain = true := by
  rw [classify_eq] at h
  have failed := Substitution.eq_error_of_map h
  unfold fixed? at failed
  split at failed
  · cases failed
  · unfold ofKeyword? at failed
    simp only at failed
    split_ifs at failed
    all_goals
      obtain rfl := Except.error.inj failed
      rfl

theorem Signature.plain_of_readParams {function : String} {seen : Bool} {tokens : List String}
    (h : Signature.readParams function seen tokens = .error cause) : cause.isPlain = true := by
  induction tokens generalizing seen with
  | nil => cases h
  | cons _ _ ih =>
    simp only [Signature.readParams] at h
    split at h
    · obtain rfl := Except.error.inj h
      rfl
    · split at h
      · obtain rfl := Except.error.inj h
        rfl
      · split at h
        · exact ih (Substitution.eq_error_of_map h)
        · obtain rfl := Except.error.inj h
          rfl

theorem Signature.plain_of_parse {line : String} (h : Signature.parse line = .error cause) :
    cause.isPlain = true := by
  simp only [Signature.parse] at h
  split at h
  · cases h
    rfl
  · split at h
    · obtain rfl := Except.error.inj h
      rfl
    · exact plain_of_readParams (Substitution.eq_error_of_map h)

theorem Cause.plain_of_isLayout (layout : cause.isLayout = true) : cause.isPlain = true := by
  cases cause <;> first | rfl | cases layout

/-- A statement that compiles no routine is tame. -/
theorem Lowering.tame_statement {compile : Compile} {self : Routine} {site : Site} {st : Statement}
    (alone : st.role? = none) (other : ∀ name, st ≠ .define name) :
    Tame (statement compile self site st) := by
  cases st with
  | assign target clarifier value => exact Assignment.tame_assign target clarifier value
  | augment target operator operand => exact Assignment.tame_augment target operator operand
  | step target up => exact Assignment.tame_step target up
  | call callee arguments => exact Invocation.tame_call callee arguments
  | command text => exact (Assignment.tame_substitute text).bind fun _ => tame_emit _
  | exitLoop => exact Loop.tame_exit
  | nextRound => exact Loop.tame_next
  | define name => exact absurd rfl (other name)
  | _ => cases alone

/-! ### Definitions -/

section Definitions

variable {self : Routine} {ws ws' : Workspace} {halt : Halt}

/-- A definition cannot be registered because of its text or because its path is taken. -/
theorem Definition.fails_register
    (failed : WorkM.Fails (register self index text) ws halt ws') :
    ws.SameLog ws' ∧ ((∃ cause, cause.isPlain = true ∧ halt = .fault { cause }) ∨
      ∃ signature other, Signature.parse text = .ok signature ∧
        ws.routines.get? (self.path.child signature.name) = some other ∧
        halt = .fault { cause := .duplicateFunction signature.name }) := by
  unfold register at failed
  split at failed
  · obtain ⟨rfl, rfl⟩ := WorkM.fails_fail.1 failed
    exact ⟨.refl _, .inl ⟨_, rfl, rfl⟩⟩
  · rcases WorkM.fails_bind.1 failed with unread | ⟨signature, mid, read, unfit⟩
    · obtain ⟨cause, wrong, rfl, rfl⟩ := WorkM.fails_query.1 unread
      exact ⟨.refl _, .inl ⟨cause, Signature.plain_of_parse wrong, rfl⟩⟩
    · obtain ⟨parsed, rfl⟩ := WorkM.gives_query.1 read
      rcases WorkM.fails_bind.1 unfit with never | ⟨_, slotted, updated, taken⟩
      · exact absurd never WorkM.fails_update
      · obtain ⟨cause, clash, rfl, rfl⟩ := WorkM.fails_update?.1 taken
        obtain ⟨⟨other, there⟩, rfl⟩ := Workspace.register_eq_error.1 clash
        have slotted : ws' = addParamSlots mid (self.path.child signature.name)
            signature.params := WorkM.gives_update.1 updated
        have leaf : (routine self index signature).path.leaf = signature.name :=
          Path.leaf_child ..
        rw [slotted, (addParamSlots_kept ..).1] at there
        rw [leaf, slotted]
        exact ⟨sameLog_addParamSlots .., .inr ⟨signature, other, parsed, there, rfl⟩⟩

/-- Registering definitions fails at one of them, when those before it are registered. -/
theorem Definition.fails_registerAll {lines : List Line}
    (failed : WorkM.Fails (registerAll self index lines) ws halt ws') :
    ∃ i line before mid inner, (i, line) ∈ Block.own self.depth index lines ∧ line.defines ∧
      (∀ d ∈ before, d ∈ Block.own self.depth index lines ∧ d.1 < i ∧ d.2.defines) ∧
      Registered self before ws mid ∧
      WorkM.Fails (register self i line.text) mid inner ws' ∧
      halt = inner.locate (ws'.placeAt i) := by
  induction lines generalizing index ws with
  | nil => exact absurd failed WorkM.fails_pure
  | cons line lines ih =>
    rw [registerAll] at failed
    split at failed
    · exact absurd failed WorkM.fails_pure
    · next up =>
      have own {d : Nat × Line} (mem : d ∈ Block.own self.depth (index + 1) lines) :
          d ∈ Block.own self.depth index (line :: lines) := by
        rw [Block.own, if_neg up]
        split
        · exact mem
        · exact List.mem_cons_of_mem _ mem
      simp only at failed
      split at failed
      · next isDefinition =>
        simp only [Bool.and_eq_true, decide_eq_true_eq] at isDefinition
        obtain ⟨here, defines⟩ := isDefinition
        have now : (index, line) ∈ Block.own self.depth index (line :: lines) := by
          rw [Block.own, if_neg up, if_neg (by omega)]
          exact List.mem_cons_self
        rcases WorkM.fails_bind.1 failed with first | ⟨_, mid, given, later⟩
        · obtain ⟨inner, unplaced, rfl⟩ := WorkM.fails_locate.1 first
          exact ⟨index, line, [], ws, inner, now, defines, List.forall_mem_nil _, .nil, unplaced, rfl⟩
        · obtain ⟨signature, parsed, free, rfl⟩ :=
            gives_register (WorkM.gives_locate.1 given)
          obtain ⟨i, line', before, mid', inner, mem, defines', earlier, registered, fails⟩ :=
            ih later
          exact ⟨i, line', _, mid', inner, own mem, defines', List.forall_mem_cons.2
            ⟨⟨now, (Block.index_of_mem_own mem).1, defines⟩, fun d old =>
              (earlier d old).imp_left own⟩, .cons parsed free registered, fails⟩
      · obtain ⟨i, line', before, mid', inner, mem, defines', earlier, rest⟩ := ih failed
        exact ⟨i, line', before, mid', inner, own mem, defines', fun d old =>
          (earlier d old).imp_left own, rest⟩

/-- The definition at a line can be found, since all definitions of its block are registered. -/
theorem Situated.resolvable {home : Path} {site : Site} {line : Line} {name : String}
    (h : Situated home self site.index (line :: site.following) ws)
    (here : line.depth = self.depth) (form : form line.text = .ok (.define name))
    (dotless : '.' ∉ Text.chars ws.settings.root) :
    ∃ callee, ws.resolveFunction? self.path name = some callee := by
  obtain ⟨signature, r, parsed, _, _, resolves⟩ := h.finds here (h.defines form)
  obtain rfl := name_of_define (h.housed.orderly.trimmed line h.mem) form parsed
  exact ⟨_, resolves.trans (if_neg dotless)⟩

end Definitions

/-! ### Derivations -/

/-- The levels of routines that a part of a compilation takes itself. -/
def Task.levels : Task → Nat
  | .routine .. => 1
  | _ => 0

/-- The parts of a compilation that are inside one line, which gives their faults a place. -/
def Task.isInner : Task → Bool
  | .statement .. | .rest .. => true
  | _ => false

/-- A part of a compilation with so many levels left fails. Whatever is before the failure has run
to its end. -/
inductive Breaks : Nat → Task → Stage → Halt → Workspace → Prop
  | deep {path : Path} {previous : Option Chain} {c : Stage} :
      Breaks 0 (.routine path previous) c .exhausted c.2
  | unknown {n : Nat} {path : Path} {previous : Option Chain} {body : Body} {ws : Workspace}
      (unknown : ws.routines.get? path = none) :
      Breaks n (.routine path previous) (body, ws)
        (.fault { cause := .unknownFunction path.render }) ws
  | misplaced {n : Nat} {path : Path} {previous : Option Chain} {body : Body} {ws : Workspace}
      {self : Routine} {cause : Cause} (found : ws.routines.get? path = some self)
      (layout : cause.isLayout = true) (content : self.kind = .root → ws.lines ≠ []) :
      Breaks n (.routine path previous) (body, ws)
        (.fault { cause, place := some (ws.placeAt (self.start - 1)) })
        (ws.record (.routineStarted path))
  | unregistered {n : Nat} {path : Path} {previous : Option Chain} {body : Body}
      {ws ws' : Workspace} {self : Routine} {halt : Halt} (found : ws.routines.get? path = some self)
      (other : self.kind.isGuard = false)
      (failed : WorkM.Fails (registerAll self self.start (ws.lines.drop self.start))
        (bindParams self (ws.record (.routineStarted path))) halt ws') :
      Breaks n (.routine path previous) (body, ws) halt ws'
  /-- The routine has gone away before its body can be stored. -/
  | lost {n : Nat} {path : Path} {previous : Option Chain} {body : Body} {ws ws₁ ws' : Workspace}
      {self : Routine} {halt : Halt} (found : ws.routines.get? path = some self)
      (lasts : ws₁ = ws ∨ ∃ ws₀ c visits,
        Enters self (ws.record (.routineStarted path)) ws₀ ∧
        Ran (.lines self false self.start (ws.lines.drop self.start))
          ({ locals := paramPaths self, previous }, ws₀) visits c ∧ ws₁ = c.2)
      (lost : ws₁.routines.get? self.path = none) :
      Breaks n (.routine path previous) (body, ws) halt ws'
  | indentation {n : Nat} {self : Routine} {index : Nat} {line : Line} {lines : List Line}
      {body : Body} {ws : Workspace} (deeper : self.depth < line.depth) :
      Breaks n (.lines self false index (line :: lines)) (body, ws)
        (.fault { cause := .incorrectIndentation, place := some (ws.placeAt (index - 1)) }) ws
  | unreadable {n : Nat} {self : Routine} {opens : Bool} {index : Nat} {line : Line}
      {lines : List Line} {body : Body} {ws : Workspace} {cause : Cause} (here : line.depth = self.depth)
      (goesOn : body.asks = false)
      (unreadable : classify (ws.resolveFunction? self.path) line.text = .error cause) :
      Breaks n (.lines self opens index (line :: lines)) (body, ws)
        (.fault { cause, place := some (ws.placeAt index) })
        (ws.record (.lineStarted self.path index line.text))
  | statement {n : Nat} {self : Routine} {opens : Bool} {index : Nat} {line : Line}
      {lines : List Line} {body : Body} {ws ws' : Workspace} {st : Statement} {halt : Halt}
      (here : line.depth = self.depth) (goesOn : body.asks = false)
      (parsed : classify (ws.resolveFunction? self.path) line.text = .ok st)
      (inside : Breaks n (.statement self ⟨index, lines⟩ st)
        ({ body with pending := [] }, ws.record (.lineStarted self.path index line.text)) halt ws') :
      Breaks n (.lines self opens index (line :: lines)) (body, ws)
        (halt.locate (ws'.placeAt index)) ws'
  /-- A failure in a part, which keeps its place. -/
  | inside {m n : Nat} {task task' : Task} {c c' : Stage} {halt : Halt} {ws' : Workspace}
      (starts : Starts (task, c) (task', c')) (outside : task'.isInner ≤ task.isInner)
      (later : Breaks m task' c' halt ws') (levels : n = m + task.levels) : Breaks n task c halt ws'
  /-- A step that compiles no routine. -/
  | stuck {n : Nat} {task : Task} {c : Stage} {halt : Halt} {ws' : Workspace}
      (inner : task.isInner = true) (bare : halt.Bare) (left : task.Left c ws')
      (usual : ∀ {strict : Prop} {old : Path → Prop}, task.Begins strict old c →
        halt.Usual strict) : Breaks n task c halt ws'
  | taken {n : Nat} {self : Routine} {site : Site} {st : Statement} {role : BlockRole} {path : Path}
      {body : Body} {ws : Workspace} {other : Routine} (splits : st.role? = some role)
      (hpath : path = Block.path self role body.counter)
      (taken : ws.routines.get? path = some other) :
      Breaks n (.statement self site st) (body, ws)
        (.fault { cause := .duplicateFunction path.leaf }) ws
  | guardTaken {n : Nat} {self other : Routine} {site : Site} {st : Statement} {block guard : Path}
      {body : Body} {ws : Workspace} (hpath : guard = Block.path self .guard body.counter)
      (taken : ws.routines.get? guard = some other) :
      Breaks n (.rest self site st block) (body, ws)
        (.fault { cause := .duplicateFunction guard.leaf }) ws

/-! ### Every failed compilation has a derivation -/

/-- A failed compilation of a routine by some means has a derivation. -/
def Breaking (compile : Compile) (n : Nat) : Prop :=
  ∀ {path : Path} {previous : Option Chain} {ws ws' : Workspace} {halt : Halt} (body : Body),
    WorkM.Fails (compile path previous) ws halt ws' →
      Breaks n (.routine path previous) (body, ws) halt ws'

section Derivations

variable {compile : Compile} {n : Nat} {self : Routine} {site : Site} {st : Statement} {body : Body}
  {ws ws₁ ws' : Workspace} {halt : Halt} {strict : Prop} {old : Path → Prop}

/-- A block cannot be made because its path is taken or because it cannot be compiled. -/
theorem Block.fails_create (failed : Fails (Block.create compile self site role) body ws halt ws') :
    (∃ other, ws.routines.get? (Block.path self role body.counter) = some other ∧ ws' = ws ∧
      halt = .fault { cause := .duplicateFunction (Block.path self role body.counter).leaf }) ∨
    ws.routines.get? (Block.path self role body.counter) = none ∧
      WorkM.Fails (compile (Block.path self role body.counter)
        (if role = .guard then body.previous else none))
        (Block.opened self site role (Block.path self role body.counter) ws) halt ws' := by
  simp only [Block.create, fails_bind, fails_get, fails_modify, fails_lift, fails_pure, gives_get,
    gives_modify, gives_lift, WorkM.fails_update?, WorkM.gives_update?, WorkM.fails_record,
    WorkM.gives_record, register_eq_error, register_eq_ok, false_or, and_false, exists_false,
    or_false] at failed
  obtain ⟨_, _, _, ⟨rfl, rfl, rfl⟩, _, _, _, ⟨rfl, rfl⟩, failed⟩ := failed
  rcases failed with ⟨_, ⟨⟨other, taken⟩, rfl⟩, rfl, rfl⟩ |
    ⟨_, _, _, ⟨⟨free, rfl⟩, rfl⟩, _, _, _, ⟨rfl, rfl⟩, failed⟩
  · exact .inl ⟨other, taken, rfl, rfl⟩
  · exact .inr ⟨free, failed⟩

theorem Breaking.create (breaking : Breaking compile n) (splits : st.role? = some role)
    (failed : Fails (Block.create compile self site role) body ws halt ws') :
    Breaks n (.statement self site st) (body, ws) halt ws' := by
  have noGuard : role ≠ .guard := by
    rintro rfl
    cases st <;> cases splits
  rcases Block.fails_create failed with ⟨other, taken, rfl, rfl⟩ | ⟨free, failed⟩
  · exact .taken splits rfl taken
  · rw [if_neg noGuard] at failed
    exact .inside (.block splits rfl free) (Bool.false_le _) (breaking _ failed) rfl

/-- A tame step inside a line. -/
theorem Breaks.of_tame {α : Type} {step : WorkM α} {task : Task} {c : Stage}
    (inner : task.isInner = true) (tame : WorkM.Tame step) (left : task.Left c ws₁)
    (stops : ∀ {strict : Prop} {old : Path → Prop}, task.Begins strict old c →
      WorkM.Stops strict step ws₁)
    (failed : WorkM.Fails step ws₁ halt ws') : Breaks n task c halt ws' := by
  obtain ⟨bare, log⟩ := tame.bare failed
  exact .stuck inner bare (left.of_log log) fun begins => stops begins _ _ failed

theorem Breaking.guardRest (breaking : Breaking compile n) (traced : Traced compile) {block : Path}
    (chain : st.continuesChain = true)
    (failed : Fails (Block.guardRest compile self site block) body ws halt ws') :
    Breaks n (.rest self site st block) (body, ws) halt ws' := by
  unfold Block.guardRest at failed
  split at failed
  · exact absurd failed fails_pure
  · next loop inside =>
    simp only [fails_bind, fails_lift, gives_lift] at failed
    rcases failed with failed | ⟨inner, body, _, ⟨given, rfl⟩, failed⟩
    · refine .of_tame rfl (WorkM.tame_routine block) (.refl _ (body, ws))
        (fun begins => ?_) failed
      obtain ⟨_, r, found⟩ := begins.stands.leads
      exact WorkM.stops_routine found
    · obtain ⟨found, rfl⟩ := WorkM.gives_routine.1 given
      split at failed
      · next asks =>
        simp only [Block.inheritRequests, fails_bind, fails_modify, gives_modify, fails_lift,
          gives_lift, false_or] at failed
        obtain ⟨_, _, ws, ⟨rfl, rfl⟩, failed⟩ := failed
        have starts {guard : Path} (hpath : guard = Block.path self .guard body.counter)
            (free : ws.routines.get? guard = none) :=
          @Starts.guard self site st block guard loop inner (body.mayExit || inner.mayExit)
            (body.maySkip || inner.maySkip) body ws chain inside found asks hpath free
        rcases failed with failed | ⟨guard, _, ws₁, created, failed⟩
        · rcases Block.fails_create failed with ⟨other, taken, rfl, rfl⟩ | ⟨free, failed⟩
          · exact .guardTaken rfl taken
          · exact .inside (starts rfl free) (Bool.false_le _) (breaking _ failed) rfl
        · obtain ⟨hpath, rfl, free, visits, ran⟩ := traced.create created
          have left := (starts hpath free).left ran.left
          rcases failed with failed | ⟨rest, _, _, ⟨given, rfl⟩, failed⟩
          · refine .of_tame rfl (WorkM.tame_routine guard) left (fun begins => ?_) failed
            obtain ⟨_, ⟨_, r, known⟩, _⟩ := ((starts hpath free).begins begins).2.done ran
            exact WorkM.stops_routine known
          · obtain ⟨found', rfl⟩ := WorkM.gives_routine.1 given
            split at failed
            · simp [fails_bind] at failed
            · exact absurd failed fails_modify
      · exact absurd failed fails_pure

/-- A block that a statement has split off. -/
theorem Task.Begins.created {visits : List Visit}
    (h : (Task.statement self site st).Begins strict old (body, ws)) (splits : st.role? = some role)
    (hpath : path = Block.path self role body.counter) (free : ws.routines.get? path = none)
    (ran : Ran (.routine path none)
      ({ body with counter := body.counter + 1 }, Block.opened self site role path ws) visits
      ({ body with counter := body.counter + 1 }, ws₁)) :
    ws.Develops ws₁ ∧ ws₁.Apart old ∧ ws₁.Open old path ∧
      (strict → Discipline.furnished.Sound ws₁) := by
  obtain ⟨develops, begun⟩ := (Starts.block splits hpath free).begins h
  obtain ⟨fenced, inner, sound⟩ := begun.done ran
  exact ⟨develops.trans fenced.develops, fenced.apart, inner, sound⟩

/-- An execution block. -/
theorem Breaking.branch (breaking : Breaking compile n) (traced : Traced compile) {clauses : String}
    (failed : Fails (Block.branch compile self site clauses) body ws halt ws') :
    Breaks n (.statement self site (.branch clauses)) (body, ws) halt ws' := by
  simp only [Block.branch, fails_bind] at failed
  rcases failed with failed | ⟨block, _, ws₁, created, failed⟩
  · exact breaking.create rfl failed
  obtain ⟨hpath, rfl, free, visits, ran⟩ := traced.create created
  have left : (Task.statement self site (.branch clauses)).Left (body, ws) ws₁ :=
    (Starts.block rfl hpath free).left ran.left
  rcases failed with failed | ⟨header, waiting, ws₂, headed, failed⟩
  · refine .of_tame rfl (tame_header _ _ _) left (fun begins => ?_) failed
    obtain ⟨_, _, _, sound⟩ := begins.created rfl hpath free ran
    exact stops_header fun holds => (sound holds).holds
  have rest (opening : List Command) (marker : Option String)
      (opens : opening = [.killMarker (Marker.chainTag block)] ∨ opening = [])
      (marks : marker.getD (Marker.chainTag block) = Marker.chainTag block)
      (failed : Fails (Block.guardRest compile self site block) { waiting with
          commands := waiting.commands ++
            (opening ++ (waiting.pending ++ [.invoke header ⟨block, []⟩]))
          pending := []
          previous := some ⟨block, marker⟩ } ws₂ halt ws') :
      Breaks n (.statement self site (.branch clauses)) (body, ws) halt ws' :=
    .inside (.rest rfl hpath free ran (.branch headed opens marks)) le_rfl
      (breaking.guardRest traced rfl failed) rfl
  cases hc : Block.chainContinues self site with
  | true =>
    simp only [hc, if_true, fails_bind, fails_emit_killMarker, fails_emit_invoke, gives_emit,
      fails_takePending, gives_takePending, fails_emitAll, gives_emitAll, fails_modify,
      gives_modify, false_or] at failed
    obtain ⟨_, _, _, ⟨-, rfl, rfl⟩, _, _, _, ⟨rfl, rfl, rfl⟩, _, _, _, ⟨rfl, rfl⟩, _, _, _,
      ⟨-, rfl, rfl⟩, _, _, _, ⟨rfl, rfl⟩, failed⟩ := failed
    exact rest _ (some (Marker.chainTag block)) (.inl rfl) rfl (by simpa using failed)
  | false =>
    simp only [hc, Bool.false_eq_true, if_false, fails_bind, fails_emit_invoke, gives_emit,
      fails_takePending, gives_takePending, fails_emitAll, gives_emitAll, fails_modify,
      gives_modify, false_or] at failed
    obtain ⟨_, _, _, ⟨rfl, rfl, rfl⟩, _, _, _, ⟨rfl, rfl⟩, _, _, _, ⟨-, rfl, rfl⟩, _, _, _,
      ⟨rfl, rfl⟩, failed⟩ := failed
    exact rest _ none (.inr rfl) rfl (by simpa using failed)

/-- An `else` block. -/
theorem Breaking.otherwise (breaking : Breaking compile n) (traced : Traced compile)
    {clauses : String}
    (failed : Fails (Block.otherwise compile self site clauses) body ws halt ws') :
    Breaks n (.statement self site (.otherwise clauses)) (body, ws) halt ws' := by
  simp only [Block.otherwise, fails_bind, fails_get, gives_get, false_or] at failed
  obtain ⟨_, body, ws, ⟨rfl, rfl, rfl⟩, failed⟩ := failed
  split at failed
  · exact .of_tame rfl (tame_fail rfl _) (.refl _ (body, ws)) (fun _ => stops_refused rfl) failed
  · next chain chained =>
    simp only [fails_bind, fails_lift, gives_lift] at failed
    rcases failed with failed | ⟨block, _, ws₁, created, failed⟩
    · exact breaking.create rfl failed
    obtain ⟨hpath, rfl, free, visits, ran⟩ := traced.create created
    have left : (Task.statement self site (.otherwise clauses)).Left (body, ws) ws₁ :=
      (Starts.block rfl hpath free).left ran.left
    rcases failed with failed | ⟨_, _, _, ⟨marked, rfl⟩, failed⟩
    · refine .of_tame rfl (WorkM.tame_updateRoutine _ _) left (fun begins => ?_) failed
      obtain ⟨develops, _⟩ := begins.created rfl hpath free ran
      obtain ⟨_, branch, found⟩ := ((begins.stands.leading rfl).mono develops).chained chained
      exact WorkM.stops_updateRoutine found
    have left₁ := left.of_log ((WorkM.tame_updateRoutine _ _).keeps marked)
    obtain ⟨-, rfl⟩ := WorkM.gives_updateRoutine.1 marked
    rcases failed with failed | ⟨header, waiting, ws₂, headed, failed⟩
    · refine .of_tame rfl (tame_header _ _ _) left₁ (fun begins => ?_) failed
      obtain ⟨_, _, _, sound⟩ := begins.created rfl hpath free ran
      exact stops_header fun holds => ((sound holds).of_update chain.branch
        (fun r => { r with commands := .ensureMarker chain.tag :: r.commands }) (fun _ => rfl)
        (fun _ _ kept => .inl kept) fun _ _ _ => .inr trivial).2.holds
    have rest (closes : List Command) (closing : closes = [] ∨ closes = [.killMarker chain.tag])
        (failed : Fails (Block.guardRest compile self site block) { waiting with
            commands := waiting.commands ++ (waiting.pending ++
              .invoke (.marker false chain.tag ::
                if Clause.renderAll ws₂.settings.pack header = "" then [] else header)
                ⟨block, []⟩ :: closes)
            pending := []
            previous := some ⟨block, some chain.tag⟩ } ws₂ halt ws') :
        Breaks n (.statement self site (.otherwise clauses)) (body, ws) halt ws' := by
      have chained' : ({ body with counter := body.counter + 1 } : Body).previous = some chain :=
        chained
      exact .inside (.rest rfl hpath free ran
        (@Block.Heads.otherwise self block _ _ _ _ _ _ _ _ chained' headed closing)) le_rfl
        (breaking.guardRest traced rfl failed) rfl
    simp only [WorkM.fails_query, WorkM.gives_query, Except.ok.injEq, reduceCtorEq, false_and,
      exists_false, fails_takePending, gives_takePending, fails_emitAll, gives_emitAll,
      fails_emit_invoke, gives_emit, false_or] at failed
    obtain ⟨_, _, _, ⟨⟨rfl, rfl⟩, rfl⟩, _, _, _, ⟨rfl, rfl, rfl⟩, _, _, _, ⟨rfl, rfl⟩, _, _, _,
      ⟨-, rfl, rfl⟩, failed⟩ := failed
    cases hc : Block.chainContinues self site with
    | true =>
      simp only [hc, Bool.not_true, Bool.false_eq_true, if_false, fails_bind, fails_modify,
        gives_modify, false_or] at failed
      obtain ⟨_, _, _, ⟨rfl, rfl⟩, failed⟩ := failed
      exact rest [] (.inl rfl) (by simpa [Chain.tag] using failed)
    | false =>
      simp only [hc, Bool.not_false, if_true, fails_bind, fails_emit_killMarker, gives_emit,
        fails_modify, gives_modify, false_or] at failed
      obtain ⟨_, _, _, ⟨-, rfl, rfl⟩, _, _, _, ⟨rfl, rfl⟩, failed⟩ := failed
      exact rest _ (.inr rfl) (by simpa [Chain.tag] using failed)

/-- A block that runs a fixed number of times. -/
theorem Breaking.times (breaking : Breaking compile n) (traced : Traced compile) {count : String}
    (failed : Fails (Loop.times compile self site count) body ws halt ws') :
    Breaks n (.statement self site (.times count)) (body, ws) halt ws' := by
  unfold Loop.times at failed
  split at failed
  · exact .of_tame rfl (tame_fail rfl _) (.refl _ (body, ws)) (fun _ => stops_refused rfl) failed
  · next number _ =>
    rcases fails_bind.1 failed with failed | ⟨block, _, ws₁, created, failed⟩
    · exact breaking.create rfl failed
    obtain ⟨hpath, rfl, free, visits, ran⟩ := traced.create created
    refine .of_tame rfl ((tame_lift (WorkM.tame_routine block)).bind (fun inner => ?_) _)
      ((Starts.block rfl hpath free).left ran.left) (fun begins => ?_) failed
    · simp only
      split
      · exact (tame_lift (WorkM.tame_updateRoutine _ _)).bind fun _ =>
          (tame_emitAll _).bind fun _ => tame_emitAll _
      · exact (tame_emitAll _).bind fun _ => tame_emitAll _
    · obtain ⟨_, _, ⟨_, inner, found⟩, _⟩ := begins.created rfl hpath free ran
      refine stops_bind.2 ⟨stops_lift.2 (WorkM.stops_routine found), fun inner _ _ given => ?_⟩
      obtain ⟨⟨_, rfl⟩, rfl⟩ := gives_lift.1 given |>.imp_left WorkM.gives_routine.1
      simp only
      split
      · simp [stops_bind, WorkM.stops_updateRoutine found]
      · simp [stops_bind]

theorem Workspace.exists_of_updateRoutine {q : Path} {f : Routine → Routine} {r : Routine}
    (found : ws.routines.get? q = some r) :
    ∃ r', (ws.updateRoutine path f).routines.get? q = some r' := by
  rw [updateRoutine, Table.get?_modify, found]
  exact ⟨_, rfl⟩

/-- A loop that is closed. -/
theorem Loop.stops_close {block : Path} {header : List Clause}
    {pending : List Command} (apart : ws.Apart old) (opened : ws.Open old block) :
    Stops strict (Loop.close block header pending) body ws := by
  obtain ⟨_, last, foundLast⟩ := Loop.open_tail apart ws.routines.size opened
  obtain ⟨_, inner, found⟩ := opened
  refine stops_read (stops_bind.2 ⟨stops_lift.2 (WorkM.stops_updateRoutine foundLast), ?_⟩)
  intro _ _ _ given
  obtain ⟨⟨_, rfl⟩, rfl⟩ := gives_lift.1 given |>.imp_left WorkM.gives_updateRoutine.1
  obtain ⟨_, found'⟩ := exists_of_updateRoutine found
  exact stops_lift.2 (WorkM.stops_updateRoutine found')

/-- A block that runs while its condition lets it. -/
theorem Breaking.loop (breaking : Breaking compile n) (traced : Traced compile) {test : LoopTest}
    {condition : String}
    (failed : Fails (Loop.loop compile self site test condition) body ws halt ws') :
    Breaks n (.statement self site (.loop test condition)) (body, ws) halt ws' := by
  unfold Loop.loop at failed
  split at failed
  · exact .of_tame rfl (tame_fail rfl _) (.refl _ (body, ws)) (fun _ => stops_refused rfl) failed
  · rcases fails_bind.1 failed with failed | ⟨block, _, ws₁, created, failed⟩
    · exact breaking.create rfl failed
    obtain ⟨hpath, rfl, free, visits, ran⟩ := traced.create created
    refine .of_tame rfl ((tame_header _ _).bind (fun clauses => tame_read (fun _ => rfl)
      fun _ => tame_takePending.bind fun pending => (tame_emitAll _).bind fun _ =>
        (tame_emit _).bind fun _ => (Loop.tame_close _ _ _).bind fun _ =>
          (tame_lift (WorkM.tame_routine block)).bind fun _ => tame_emitAll _) _)
      ((Starts.block rfl hpath free).left ran.left) (fun begins => ?_) failed
    obtain ⟨_, apart, inner, sound⟩ := begins.created rfl hpath free ran
    refine stops_bind.2 ⟨stops_header fun holds => (sound holds).holds, ?_⟩
    intro header waiting ws₂ headed
    obtain ⟨fenced, _⟩ := header_fenced apart headed
    have inner₂ := inner.mono fenced.develops
    refine stops_read ?_
    simp only [stops_bind, stops_takePending, gives_takePending, stops_emitAll, gives_emitAll,
      stops_emit, gives_emit, true_and]
    rintro _ _ _ ⟨rfl, rfl, rfl⟩ _ _ _ ⟨rfl, rfl⟩ _ _ _ ⟨_, rfl, rfl⟩
    refine ⟨Loop.stops_close fenced.apart inner₂, fun _ _ _ closes => ?_⟩
    obtain ⟨_, _, found⟩ :=
      inner₂.mono (Loop.close_fenced fenced.apart inner₂ closes).develops
    exact ⟨stops_lift.2 (WorkM.stops_routine found), fun _ _ _ _ => trivial⟩

/-- A definition. -/
theorem Breaking.define (breaking : Breaking compile n) (traced : Traced compile) {name : String}
    (failed : Fails (Definition.define compile self name) body ws halt ws') :
    Breaks n (.statement self site (.define name)) (body, ws) halt ws' := by
  have start := Task.Left.refl (.statement self site (.define name)) (body, ws)
  unfold Definition.define at failed
  rcases fails_bind.1 failed with unresolved | ⟨callee, body, ws, queried, later⟩
  · refine .of_tame rfl (tame_query (fun ws cause missing => ?_) (fun _ => rfl) _) start
      (fun begins => stops_lift.2 (WorkM.stops_query.2 fun cause missing => ?_)) unresolved
    · split at missing <;> cases missing
      rfl
    · split at missing
      · cases missing
      · next none =>
        cases missing
        intro holds
        obtain ⟨_, _, sits⟩ := begins.stands.sits
        obtain ⟨line, situated, here, parsed⟩ := sits.at_line
        obtain ⟨_, resolved⟩ := situated.resolvable here (form_of_block parsed rfl)
          (begins.dotless holds)
        rw [none] at resolved
        cases resolved
  obtain ⟨⟨resolved, rfl⟩, rfl⟩ := gives_lift.1 queried |>.imp_left WorkM.gives_query.1
  split at resolved
  · next _ resolves =>
    cases resolved
    obtain ⟨routine, found, -⟩ := isDefined_iff.1 (isDefined_of_resolveFunction? resolves)
    rcases fails_bind.1 later with missing | ⟨_, body, ws, looked, ends⟩
    · exact .of_tame rfl (tame_lift (WorkM.tame_routine callee) _) start
        (fun _ => stops_lift.2 (WorkM.stops_routine found)) missing
    obtain ⟨⟨found', rfl⟩, rfl⟩ := gives_lift.1 looked |>.imp_left WorkM.gives_routine.1
    cases found.symm.trans found'
    split at ends
    · exact .of_tame rfl (tame_read (fun _ => rfl) (fun _ =>
        (tame_lift (WorkM.tame_updateRoutine _ _)).bind fun _ =>
          tame_lift (WorkM.tame_record rfl)) _) start (fun _ => stops_read (stops_bind.2
            ⟨stops_lift.2 (WorkM.stops_updateRoutine found), fun _ _ _ _ =>
              stops_lift.2 WorkM.stops_record⟩)) ends
    · next template =>
      have starts : Starts (.statement self site (.define name), (body, ws))
          (.routine callee none, (body, ws)) := .define resolves found (by simpa using template)
      rcases fails_bind.1 ends with inside | ⟨_, body, ws₁, compiled, lost⟩
      · exact .inside starts (Bool.false_le _) (breaking _ (fails_lift.1 inside)) rfl
      obtain ⟨compiles, rfl⟩ := gives_lift.1 compiled
      obtain ⟨visits, ran⟩ := traced body compiles
      refine .of_tame rfl (tame_lift (WorkM.tame_updateRoutine _ _) _) (starts.left ran.left)
        (fun begins => ?_) lost
      obtain ⟨_, ⟨_, _, known⟩, _⟩ := (starts.begins begins).2.done ran
      exact stops_lift.2 (WorkM.stops_updateRoutine known)
  · cases resolved

/-- A statement. -/
theorem Breaking.statement (breaking : Breaking compile n) (traced : Traced compile)
    (failed : Fails (Lowering.statement compile self site st) body ws halt ws') :
    Breaks n (.statement self site st) (body, ws) halt ws' := by
  have alone (role : st.role? = none) (other : ∀ name, st ≠ .define name)
      (stops : ∀ {strict : Prop} {old : Path → Prop},
        (Task.statement self site st).Begins strict old (body, ws) →
          Stops strict (Lowering.statement compile self site st) body ws) :
      Breaks n (.statement self site st) (body, ws) halt ws' :=
    .of_tame rfl (Lowering.tame_statement role other _) (.refl _ (body, ws)) stops failed
  have plain (isPlain : st.isPlain = true) {strict : Prop} {old : Path → Prop}
      (begins : (Task.statement self site st).Begins strict old (body, ws)) :
      Stops strict (Lowering.statement compile self site st) body ws := by
    refine Lowering.stops_plain isPlain begins.furnished begins.stands.housed ?_
    intro callee arguments isCall
    obtain ⟨_, _, sits⟩ := begins.stands.sits
    obtain ⟨line, _, _, parsed⟩ := sits.at_line
    exact defined_of_classify parsed isCall
  cases st with
  | define => exact breaking.define traced failed
  | branch => exact breaking.branch traced failed
  | otherwise => exact breaking.otherwise traced failed
  | times => exact breaking.times traced failed
  | loop => exact breaking.loop traced failed
  | exitLoop | nextRound =>
    refine alone rfl (by rintro _ ⟨⟩) fun _ => ?_
    simp only [Lowering.statement, Loop.exit, Loop.next]
    split
    · exact stops_refused rfl
    · exact stops_bind.2 ⟨stops_modify, fun _ _ _ _ => stops_emit⟩
  | _ => exact alone rfl (by rintro _ ⟨⟩) (plain rfl)

/-- A line cannot be read, or its statement fails. -/
theorem Lowering.fails_line
    (failed : Fails (line compile self site text) body ws halt ws') :
    (∃ cause, classify (ws.resolveFunction? self.path) text = .error cause ∧
      halt = .fault { cause } ∧ ws' = ws.record (.lineStarted self.path site.index text)) ∨
    ∃ parsed, classify (ws.resolveFunction? self.path) text = .ok parsed ∧
      Fails (statement compile self site parsed) { body with pending := [] }
        (ws.record (.lineStarted self.path site.index text)) halt ws' := by
  simp only [line, fails_bind, fails_lift, gives_lift, WorkM.fails_record,
    WorkM.gives_record, fails_modify, gives_modify, WorkM.fails_query, WorkM.gives_query,
    false_or] at failed
  obtain ⟨_, _, _, ⟨rfl, rfl⟩, _, _, _, ⟨rfl, rfl⟩, failed⟩ := failed
  rcases failed with ⟨cause, wrong, rfl, rfl⟩ | ⟨parsed, _, _, ⟨⟨right, rfl⟩, rfl⟩, failed⟩
  · exact .inl ⟨cause, wrong, rfl, rfl⟩
  · rcases failed with failed | ⟨_, _, _, _, failed⟩
    · exact .inr ⟨parsed, right, failed⟩
    · split at failed
      · exact absurd failed fails_modify
      · exact absurd failed fails_pure

/-- The lines of a body. -/
theorem Breaking.lines (breaking : Breaking compile n) (traced : Traced compile) {opens : Bool}
    {lines : List Line}
    (failed : Fails (Lowering.lines compile self opens index lines) body ws halt ws') :
    Breaks n (.lines self opens index lines) (body, ws) halt ws' := by
  induction lines generalizing opens index body ws with
  | nil => exact absurd failed fails_pure
  | cons line lines ih =>
    rw [Lowering.lines] at failed
    split at failed
    · exact absurd failed fails_pure
    · next notUp =>
      split at failed
      · next deeper =>
        split at failed
        · next opening =>
          subst opening
          exact .inside (.pass deeper) le_rfl (ih failed) rfl
        · next closed =>
          obtain ⟨rfl, rfl⟩ := WorkM.fails_failAt.1 (fails_lift.1 failed)
          rw [Bool.not_eq_true] at closed
          subst closed
          exact .indentation deeper
      · next notDeeper =>
        have here : line.depth = self.depth := by omega
        rcases fails_bind.1 failed with never | ⟨_, body, ws, read, later⟩
        · exact absurd never fails_get
        obtain ⟨rfl, rfl, rfl⟩ := gives_get.1 read
        clear failed read
        cases asked : body.asks with
        | true =>
          have silent : (!body.mayExit && !body.maySkip) = false := by
            rw [← Bool.not_or]
            exact congrArg not asked
          simp only [silent, Bool.false_eq_true, if_false] at later
          exact .inside (.quiet here asked) le_rfl (ih later) rfl
        | false =>
          have speaks : (!body.mayExit && !body.maySkip) = true := by
            rw [← Bool.not_or]
            exact congrArg not asked
          simp only [speaks, if_true] at later
          rcases fails_bind.1 later with now | ⟨_, mid, ws₁, given, later⟩
          · obtain ⟨inner, unplaced, rfl⟩ := fails_locate.1 now
            rcases Lowering.fails_line unplaced with ⟨cause, wrong, rfl, rfl⟩ |
              ⟨st, right, inside⟩
            · exact .unreadable here asked wrong
            · exact .statement here asked right (breaking.statement traced inside)
          · obtain ⟨st, mid, right, hstatement, rfl⟩ :=
              Lowering.gives_line.1 (gives_locate.1 given)
            obtain ⟨visits, ran⟩ := traced.statement (by
              intro callee arguments isCall
              exact @defined_of_classify ws _ _ _ _ _ right isCall) hstatement
            exact .inside (.next here asked right ran) le_rfl (ih later) rfl

/-- A body from its first line on. -/
theorem Breaking.run (breaking : Breaking compile n) (traced : Traced compile) {path : Path}
    {previous : Option Chain} (found : ws.routines.get? path = some self)
    (failed : WorkM.Fails (do
      WorkM.update (Lowering.bindParams self)
      if !self.kind.isGuard then
        registerAll self self.start (ws.lines.drop self.start)
      let (_, result) ← (Lowering.lines compile self false self.start
        (ws.lines.drop self.start)).run { locals := Lowering.paramPaths self, previous }
      WorkM.update (Lowering.releaseLocals · result.locals)
      Lowering.commit self result) (ws.record (.routineStarted path)) halt ws') :
    Breaks (n + 1) (.routine path previous) (body, ws) halt ws' := by
  have inside {ws₁ : Workspace}
      (enters : Lowering.Enters self (ws.record (.routineStarted path)) ws₁)
      (failed : WorkM.Fails (do
        let (_, result) ← (Lowering.lines compile self false self.start
          (ws.lines.drop self.start)).run { locals := Lowering.paramPaths self, previous }
        WorkM.update (Lowering.releaseLocals · result.locals)
        Lowering.commit self result) ws₁ halt ws') :
      Breaks (n + 1) (.routine path previous) (body, ws) halt ws' := by
    rcases WorkM.fails_bind.1 failed with inside | ⟨⟨_, result⟩, ws₂, given, later⟩
    · exact .inside (.enter found enters) le_rfl (breaking.lines traced inside) rfl
    · obtain ⟨visits, ran⟩ := traced.lines given
      simp only [Lowering.commit, WorkM.fails_bind, WorkM.fails_update, WorkM.gives_update,
        WorkM.fails_record, WorkM.gives_record, WorkM.fails_updateRoutine, false_or] at later
      obtain ⟨_, _, rfl, _, _, rfl, lost, -⟩ := later
      refine .lost found (.inr ⟨ws₁, _, visits, enters, ran, rfl⟩) ?_
      rw [← (Lowering.releaseLocals_kept result.locals ws₂).1]
      exact lost
  rcases WorkM.fails_bind.1 failed with never | ⟨_, bound, binds, later⟩
  · exact absurd never WorkM.fails_update
  have enters {ws₁ : Workspace} (registers : WorkM.Gives (if !self.kind.isGuard then
      registerAll self self.start (ws.lines.drop self.start) else pure ()) bound () ws₁) :
      Lowering.Enters self (ws.record (.routineStarted path)) ws₁ :=
    WorkM.gives_bind.2 ⟨(), bound, binds, registers⟩
  have bound_eq := WorkM.gives_update.1 binds
  cases hg : self.kind.isGuard with
  | true =>
    simp only [hg, Bool.not_true, Bool.false_eq_true, if_false] at later enters
    exact inside (enters (WorkM.gives_pure.2 ⟨rfl, rfl⟩)) later
  | false =>
    simp only [hg, Bool.not_false, if_true] at later enters
    rcases WorkM.fails_bind.1 later with unregistered | ⟨_, ws₁, registers, body⟩
    · rw [bound_eq] at unregistered
      exact .unregistered found hg unregistered
    · exact inside (enters registers) body

/-- A routine. -/
theorem Breaking.routine (breaking : Breaking compile n) (traced : Traced compile) :
    Breaking (Lowering.routine compile) (n + 1) := by
  intro path previous ws ws' halt body failed
  unfold Lowering.routine at failed
  rcases WorkM.fails_bind.1 failed with missing | ⟨self, ws, looked, later⟩
  · obtain ⟨unknown, rfl, rfl⟩ := WorkM.fails_routine.1 missing
    exact .unknown unknown
  obtain ⟨found, rfl⟩ := WorkM.gives_routine.1 looked
  simp only [WorkM.fails_bind, WorkM.fails_record, WorkM.gives_record, WorkM.fails_get,
    WorkM.gives_get, false_or] at later
  obtain ⟨_, _, rfl, _, _, ⟨rfl, rfl⟩, ends⟩ := later
  clear failed looked
  have unstored (lost : WorkM.Fails (Lowering.commit self {}) (ws.record (.routineStarted path)) halt
      ws') : ws.routines.get? self.path = none := by
    simp only [Lowering.commit, WorkM.fails_bind, WorkM.fails_record, WorkM.gives_record,
      WorkM.fails_updateRoutine, false_or] at lost
    obtain ⟨_, _, rfl, missing, -⟩ := lost
    exact missing
  split at ends
  · next none =>
    split at ends
    · exact .lost found (.inl rfl) (unstored ends)
    · next mayNot =>
      obtain ⟨rfl, rfl⟩ := WorkM.fails_failAt.1 ends
      refine .misplaced found rfl fun root => absurd ?_ mayNot
      simp [root]
  · next first following starts =>
    have starts : ws.lines.drop self.start = first :: following := starts
    have content : ws.lines ≠ [] := by
      intro none
      rw [none, List.drop_nil] at starts
      cases starts
    split at ends
    · split at ends
      · exact .lost found (.inl rfl) (unstored ends)
      · obtain ⟨rfl, rfl⟩ := WorkM.fails_failAt.1 ends
        exact .misplaced found rfl fun _ => content
    · split at ends
      · obtain ⟨rfl, rfl⟩ := WorkM.fails_failAt.1 ends
        exact .misplaced found rfl fun _ => content
      · exact breaking.run traced found ends

/-- Every failed compilation has a derivation. -/
theorem breaking_compile (limit : Nat) : Breaking (Lowering.compile limit) limit := by
  induction limit with
  | zero =>
    intro path previous ws ws' halt body failed
    obtain ⟨rfl, rfl⟩ := WorkM.fails_throw.1 failed
    exact .deep
  | succ limit ih => exact ih.routine (traced_compile limit)

end Derivations

/-! ### How a compilation fails -/

section Ends

variable {task : Task} {c : Stage} {a b : Task × Stage} {n : Nat} {halt : Halt} {ws' : Workspace}
  {strict : Prop} {old : Path → Prop}

/-- The levels are enough for the lines that are left. -/
def Task.Fits (n : Nat) (c : Stage) : Task → Prop
  | .routine path _ => ∀ self, c.2.routines.get? path = some self →
      c.2.lines.length - self.start < n
  | .lines _ _ index _ => c.2.lines.length ≤ index + n
  | .statement _ site _ | .rest _ site _ _ => c.2.lines.length - (site.index + 1) < n

/-- A whole compilation has enough levels. -/
theorem Task.fits_nesting {previous : Option Chain} {body : Body} {ws : Workspace} :
    (Task.routine path previous).Fits ws.nesting (body, ws) := by
  intro self _
  have levels : ws.lines.length + 2 ≤ ws.nesting := Nat.le_mul_of_pos_right _ (Nat.succ_pos _)
  show ws.lines.length - self.start < _
  omega

theorem Starts.fits (starts : Starts a b) (stands : a.1.Stands old a.2)
    (fits : a.1.Fits (n + a.1.levels) a.2) : b.1.Fits n b.2 := by
  have lines : b.2.2.lines.length = a.2.2.lines.length := by rw [(starts.stands stands).1.lines]
  cases starts with
  | enter found =>
    have := fits _ found
    simp only [Task.Fits, Task.levels] at *
    omega
  | statement =>
    obtain ⟨_, _, sits⟩ := stands.sits
    have inside := (List.getElem?_eq_some_iff.1 sits.situated.at_index.1).1
    simp only [Task.Fits, Task.levels] at *
    omega
  | define resolved found =>
    obtain ⟨start, _⟩ := stands.define resolved found
    rintro self known
    cases found.symm.trans known
    simp only [Task.Fits, Task.levels] at *
    omega
  | @block self site st role path _ _ splits =>
    rintro _ known
    rw [Block.get?_opened_self] at known
    cases known
    have start := (@Block.routine_of_role? self site st role path splits).1
    simp only [Task.Fits, Task.levels] at *
    omega
  | @guard self site _ _ guard =>
    rintro _ known
    rw [Block.get?_opened_self] at known
    cases known
    have start : (Block.routine self site .guard guard).start = _ := Block.start_guard self site
    simp only [Task.Fits, Task.levels] at *
    omega
  | pass | quiet | next | rest =>
    simp only [Task.Fits, Task.levels] at *
    omega

/-- A routine is still there when its body is to be stored. -/
theorem Task.Sits.kept {home path : Path} {previous : Option Chain} {self : Routine} {body : Body}
    {ws ws₁ : Workspace} (h : (Task.routine path previous).Sits home (body, ws))
    (found : ws.routines.get? path = some self)
    (lasts : ws₁ = ws ∨ ∃ ws₀ c visits,
      Enters self (ws.record (.routineStarted path)) ws₀ ∧
      Ran (.lines self false self.start (ws.lines.drop self.start))
        ({ locals := paramPaths self, previous }, ws₀) visits c ∧ ws₁ = c.2) :
    ws₁.routines.get? self.path ≠ none := by
  have has : ws₁.Has self := by
    rcases lasts with rfl | ⟨ws₀, c, visits, enters, ran, rfl⟩
    · exact ⟨self, by rw [h.housed.orderly.keyed found]; exact found, rfl⟩
    · obtain ⟨_, inside⟩ : ws.Develops ws₀ ∧ (Task.lines self false self.start _).Sits home
          ({ locals := paramPaths self, previous }, ws₀) := h.enter found rfl enters
      exact (inside.ran ran).1.has (inside.has self rfl)
  obtain ⟨r, known, _⟩ := has
  rw [known]
  exact Option.some_ne_none r

/-- A compilation with enough levels for the lines that are left fails with a usual fault, and the
lines that it has started are lines that it reached. -/
theorem Breaks.ends (breaks : Breaks n task c halt ws') :
    task.Begins strict old c → task.Fits n c → halt.Usual strict ∧ task.Left c ws' := by
  induction breaks with
  | deep =>
    intro begins fits
    obtain ⟨_, _, found⟩ := begins.stands.open_routine
    exact absurd (fits _ found) (Nat.not_lt_zero _)
  | unknown unknown =>
    intro begins
    obtain ⟨_, _, found⟩ := begins.stands.open_routine
    rw [unknown] at found
    cases found
  | misplaced _ layout =>
    exact fun _ _ => ⟨Cause.usual_of_isPlain (Cause.plain_of_isLayout layout),
      (Task.Left.refl ..).of_log (.record _ (.routineStarted _) rfl)⟩
  | unregistered _ _ failed =>
    intro _ _
    obtain ⟨i, line, _, mid, inner, _, _, _, registered, fails, rfl⟩ :=
      fails_registerAll failed
    obtain ⟨log', reason⟩ := fails_register fails
    refine ⟨Halt.Usual.locate ?_ _, (Task.Left.refl ..).of_log ((SameLog.record _
      (.routineStarted _) rfl).trans ((sameLog_bindParams ..).trans (registered.sameLog.trans log')))⟩
    rcases reason with ⟨cause, plain, rfl⟩ | ⟨_, _, _, _, rfl⟩
    · exact Cause.usual_of_isPlain plain
    · trivial
  | lost found lasts lost =>
    intro begins
    obtain ⟨_, _, sits⟩ := begins.stands.sits
    exact absurd lost (sits.kept found lasts)
  | indentation => exact fun _ _ => ⟨trivial, .refl ..⟩
  | unreadable here goesOn unreadable =>
    exact fun _ _ => ⟨Cause.usual_of_isPlain (plain_of_classify unreadable),
      .start here goesOn⟩
  | @statement _ self opens index line lines _ _ _ _ _ here goesOn parsed _ ih =>
    intro begins fits
    have starts := @Starts.statement self opens index line lines _ _ _ here goesOn parsed
    obtain ⟨usual, left⟩ := ih (starts.begins begins).2 (starts.fits begins.stands fits)
    exact ⟨usual.locate _, starts.left left⟩
  | inside starts _ _ levels ih =>
    intro begins fits
    subst levels
    obtain ⟨usual, left⟩ := ih (starts.begins begins).2 (starts.fits begins.stands fits)
    exact ⟨usual, starts.left left⟩
  | stuck _ _ left usual => exact fun begins _ => ⟨usual begins, left⟩
  | taken | guardTaken => exact fun _ _ => ⟨trivial, .refl ..⟩

end Ends

/-! ### Whole programs -/

namespace Workspace

variable {settings : Settings} {sources : List (String × String)} {ws : Workspace}

/-- The compilation of a whole program begins in good order. -/
theorem Unbuilt.begins {strict : Prop} {body : Body} (h : Unbuilt settings ws)
    (chained : body.previous = none) (dotless : strict → '.' ∉ Text.chars settings.root) :
    (Task.routine settings.rootPath none).Begins strict (fun _ => False) (body, ws.withRoot) := by
  have apart : ws.withRoot.Apart fun _ => False := by
    refine ⟨False.elim, False.elim, fun {q next r} foundRoot _ onward => ?_⟩
    obtain ⟨-, rfl⟩ := h.only_root foundRoot
    cases onward
  refine ⟨⟨⟨_, not_false, h.sits⟩, not_false,
    apart, nofun⟩, fun _ => h.ready _ h.furnished_withRoot ⟨fun _ _ => trivial, fun _ _ => trivial, ?_⟩, ?_⟩
  · rw [chained]
    nofun
  · rw [show ws.withRoot.settings = settings from h.settings]
    exact dotless

/-- However a compilation ends, the lines that it started are lines that it reached, and if it
stops, it stops with a usual fault. -/
theorem Unbuilt.stops_compile {strict : Prop} (h : Unbuilt settings ws)
    (dotless : strict → '.' ∉ Text.chars settings.root) :
    (Task.routine settings.rootPath none).Left ({}, ws.withRoot) ws.compile.2 ∧
      ∀ halt, ws.compile.1 = .error halt → halt.Usual strict := by
  have begins := @Unbuilt.begins settings ws strict {} h rfl dotless
  rw [compile, h.register_root]
  simp only [compileRoutine, h.settings]
  cases ended : Lowering.compile ws.withRoot.nesting settings.rootPath none ws.withRoot with
  | ok =>
    obtain ⟨visits, ran⟩ := traced_compile ws.withRoot.nesting {} ended
    exact ⟨ran.left, by rintro _ ⟨⟩⟩
  | error =>
    obtain ⟨usual, left⟩ := (breaking_compile _ {} ended).ends begins Task.fits_nesting
    refine ⟨left, ?_⟩
    rintro _ ⟨⟩
    exact usual

/-- At every line that a compilation starts, and once more when the header of a block is read,
integer variables have objectives and string variables have values, whatever effects the statement
has had by then; so a look-up never falls back on a placeholder. Whether the compilation succeeds or
stops, the lines in its journal are such lines, and it never stops for an internal reason, for want
of a function or for want of levels. The root is to be a single name. -/
theorem compile_finds_slots_and_values (dotless : '.' ∉ Text.chars settings.root)
    (read : addSources { settings } sources = .ok ws) :
    (∀ visit, Reaches (.routine settings.rootPath none) ({}, ws.withRoot) visit →
      ∀ body c, Effects visit.routine (fun _ => True) True (body, visit.ws) c →
        (∀ path, c.2.symbols.kind? path = some .integer →
          ∃ objective, c.2.slots.get? path = some objective) ∧
        ∀ path, c.2.symbols.kind? path = some .string →
          ∃ value, c.2.symbols.string? path = some value ∧
            Substitution.stringText c.2 path = value) ∧
      (∀ start ∈ ws.compile.2.starts, ∃ visit,
        Reaches (.routine settings.rootPath none) ({}, ws.withRoot) visit ∧
          visit.start = start) ∧
      ∀ halt, ws.compile.1 = .error halt → ∃ f, halt = .fault f ∧
        (∀ message, f.cause ≠ .internal message) ∧ ∀ name, f.cause ≠ .unknownFunction name := by
  have unbuilt := unbuilt_of_addSources read
  have begins := @Unbuilt.begins settings ws True {} unbuilt rfl fun _ => dotless
  obtain ⟨left, stops⟩ := @Unbuilt.stops_compile settings ws True unbuilt fun _ => dotless
  refine ⟨fun visit reaches body c effects => ?_, ?_, fun halt stopped => ?_⟩
  · have before : (body, visit.ws).2.Furnished :=
      (reaches.sound _ (begins.ready trivial)).holds
    have furnished := before.effects effects
    refine ⟨fun path integer => ?_, fun path string => ?_⟩
    · exact Option.isSome_iff_exists.1 (furnished.slotted path (furnished.integers integer))
    · exact ⟨_, furnished.stringText string, rfl⟩
  · obtain ⟨_, more, starts, reached⟩ := left
    rw [show ws.withRoot.starts = [] from starts_addSources read, List.nil_append] at starts
    rwa [starts]
  · have usual := stops halt stopped
    cases halt with
    | exhausted => exact absurd usual id
    | fault f =>
      refine ⟨f, rfl, fun message isInternal => ?_, fun name isUnknown => ?_⟩
      · rw [Halt.Usual, isInternal] at usual
        exact usual trivial
      · rw [Halt.Usual, isUnknown] at usual
        exact usual

/-- Integers and strings, and an `else` that has nothing to be the other case of. -/
def strayElse : String :=
  "x = 1\ns#s = hi\ndef f n#i t#s:\n    say t n\nsay s x\nelse:\n    say s"

theorem compile_finds_slots_and_values_strayElse :
    ∃ ws, '.' ∉ Text.chars ({} : Settings).root ∧ addSources {} [("", strayElse)] = .ok ws ∧
      ws.compile.2.started = [0, 1, 2, 4, 5] ∧
      (∀ start ∈ ws.compile.2.starts, ∃ visit,
        Reaches (.routine ({} : Settings).rootPath none) ({}, ws.withRoot) visit ∧
          visit.start = start ∧
          ∀ path, visit.ws.symbols.kind? path = some .integer →
            ∃ objective, visit.ws.slots.get? path = some objective) ∧
      ∃ f, ws.compile.1 = .error (.fault f) ∧ f.cause = .elseWithoutDispatch ∧
        ∀ message, f.cause ≠ .internal message := by
  obtain ⟨ws, read, started, f, stopped, cause⟩ : ∃ ws, addSources {} [("", strayElse)] = .ok ws ∧
      ws.compile.2.started = [0, 1, 2, 4, 5] ∧ ∃ f, ws.compile.1 = .error (.fault f) ∧
        f.cause = .elseWithoutDispatch := by decide +kernel
  obtain ⟨furnished, reached, faults⟩ := compile_finds_slots_and_values (by decide) read
  obtain ⟨_, same, internal, _⟩ := faults _ stopped
  cases same
  refine ⟨ws, by decide, read, started, fun start mem => ?_, f, stopped, cause, internal⟩
  obtain ⟨visit, reaches, same⟩ := reached start mem
  exact ⟨visit, reaches, same, (furnished visit reaches {} _ .refl).1⟩

end Workspace

end CommandPack
