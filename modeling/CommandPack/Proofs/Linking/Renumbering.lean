import CommandPack.Linking.Link
import CommandPack.Proofs.Lowering.Breaking

/-!
# Layouts of one text

No step of a build takes notice of the numbers of lines. So a text and the layout of its lines are
built alike: to the same pack, or to the same fault at another line.
-/

namespace CommandPack

open BodyM Lowering Definition Block

/-! ### Blocks -/

/-- A line being compiled, without the numbers of the lines after it. -/
def Site.unnumbered (site : Site) : Site :=
  { site with following := site.following.map Line.unnumbered }

theorem BodyM.Tame.blind {α : Type} {step : BodyM α} (h : Tame step) : Blind step :=
  fun body => (h body).blind

/-- How a routine is compiled takes no notice of line numbers. -/
def Compile.Blind (compile : Compile) : Prop :=
  ∀ path previous, WorkM.Blind (compile path previous)

section Blocks

variable {compile : Compile} {self : Routine} {site : Site} {line : Line}

theorem Block.start_unnumbered (role : BlockRole) :
    start self site.unnumbered role = start self site role := by
  cases role with
  | guard =>
    simp only [start, Site.unnumbered, List.takeWhile_map, List.length_map]
    rfl
  | _ => rfl

theorem Block.routine_unnumbered (role : BlockRole) (path : Path) :
    routine self site.unnumbered role path = routine self site role path := by
  simp only [routine, start_unnumbered]

theorem Block.chainContinues_unnumbered :
    chainContinues self site.unnumbered = chainContinues self site := by
  have found : site.unnumbered.following.find? (·.depth ≤ self.depth) =
      (site.following.find? (·.depth ≤ self.depth)).map Line.unnumbered :=
    List.find?_map
  rw [chainContinues, chainContinues, found]
  cases site.following.find? (·.depth ≤ self.depth) <;> rfl

theorem Block.create_unnumbered (role : BlockRole) :
    create compile self site.unnumbered role = create compile self site role := by
  simp only [create, routine_unnumbered]

theorem Block.guardRest_unnumbered (block : Path) :
    guardRest compile self site.unnumbered block = guardRest compile self site block := by
  simp only [guardRest, create_unnumbered]

/-- Statements do not see the numbers of the lines after them. -/
theorem Lowering.statement_unnumbered (st : Statement) :
    statement compile self site.unnumbered st =
      statement compile self site st := by
  cases st with
  | branch =>
    simp only [statement, branch, create_unnumbered,
      chainContinues_unnumbered, guardRest_unnumbered]
  | otherwise =>
    simp only [statement, otherwise, create_unnumbered,
      chainContinues_unnumbered, guardRest_unnumbered]
  | times => simp only [statement, Loop.times, create_unnumbered]
  | loop => simp only [statement, Loop.loop, create_unnumbered]
  | _ => rfl

/-- Nor do the lines of a body. -/
theorem Lowering.lines_unnumbered (opens : Bool) (index : Nat) (lines : List Line) :
    Lowering.lines compile self opens index (lines.map Line.unnumbered) =
      Lowering.lines compile self opens index lines := by
  induction lines generalizing opens index with
  | nil => rfl
  | cons current rest ih =>
    have same : Lowering.line compile self ⟨index, rest.map Line.unnumbered⟩ current.text =
        Lowering.line compile self ⟨index, rest⟩ current.text := by
      simp only [Lowering.line, ← @Lowering.statement_unnumbered compile self ⟨index, rest⟩]
      rfl
    simp only [List.map_cons, Lowering.lines, ih]
    simp only [Line.unnumbered, same]

theorem Definition.registerAll_unnumbered (index : Nat) (lines : List Line) :
    registerAll self index (lines.map Line.unnumbered) =
      registerAll self index lines := by
  induction lines generalizing index with
  | nil => rfl
  | cons _ _ ih =>
    simp only [List.map_cons, registerAll, ih]
    rfl

theorem Block.blind_create (blind : compile.Blind) (role : BlockRole) :
    Blind (create compile self site role) := by
  refine blind_get.bind fun body => (blind_modify _).bind fun _ => ?_
  refine (blind_lift (WorkM.blind_update? fun ws => ws.register_unnumbered _)).bind fun _ => ?_
  refine (blind_lift (WorkM.blind_record _)).bind fun _ => ?_
  exact (blind_lift (blind _ _)).bind fun _ => blind_pure _

theorem Block.blind_guardRest (blind : compile.Blind) (block : Path) :
    Blind (guardRest compile self site block) := by
  unfold guardRest
  split
  · exact blind_pure _
  · refine (blind_lift (WorkM.blind_routine block)).bind fun inner => ?_
    split
    · refine (blind_modify _).bind fun _ => (blind_create blind .guard).bind fun guard => ?_
      refine (blind_lift (WorkM.blind_routine guard)).bind fun rest => ?_
      split
      · exact (blind_emit _).bind fun _ => (blind_modify _).bind fun _ => blind_modify _
      · exact blind_modify _
    · exact blind_pure _

theorem Block.blind_branch (blind : compile.Blind) (clauses : String) :
    Blind (branch compile self site clauses) := by
  refine (blind_create blind .branch).bind fun block => ?_
  refine (Condition.tame_header self.path clauses).blind.bind fun header => ?_
  have rest : Blind (do
      emitAll (← takePending)
      emit (.invoke header ⟨block, []⟩)
      modify fun body => { body with
        previous := some ⟨block, if chainContinues self site
          then some (Marker.chainTag block) else none⟩ }
      guardRest compile self site block) :=
    blind_takePending.bind fun _ => (blind_emitAll _).bind fun _ => (blind_emit _).bind fun _ =>
      (blind_modify _).bind fun _ => blind_guardRest blind block
  simp only
  split
  · exact (blind_emit _).bind fun _ => rest
  · exact rest

theorem Block.blind_otherwise (blind : compile.Blind) (clauses : String) :
    Blind (otherwise compile self site clauses) := by
  refine blind_get.bind fun body => ?_
  split
  · exact blind_fail _
  · next previous _ =>
    refine (blind_create blind .branch).bind fun block => ?_
    refine (blind_lift (WorkM.blind_updateRoutine _ _)).bind fun _ => ?_
    refine (Condition.tame_header self.path clauses).blind.bind fun header => ?_
    refine blind_read (fun _ => rfl) fun ws => ?_
    refine blind_takePending.bind fun _ => (blind_emitAll _).bind fun _ =>
      (blind_emit _).bind fun _ => ?_
    split
    · exact (blind_emit _).bind fun _ => (blind_modify _).bind fun _ =>
        blind_guardRest blind block
    · exact (blind_modify _).bind fun _ => blind_guardRest blind block

theorem Loop.blind_times (blind : compile.Blind) (count : String) :
    Blind (Loop.times compile self site count) := by
  unfold Loop.times
  split
  · exact blind_fail _
  · refine (blind_create blind .times).bind fun block => ?_
    refine (blind_lift (WorkM.blind_routine block)).bind fun body => ?_
    split
    · exact (blind_lift (WorkM.blind_updateRoutine _ _)).bind fun _ =>
        (blind_emitAll _).bind fun _ => blind_emitAll _
    · exact (blind_emitAll _).bind fun _ => blind_emitAll _

theorem Loop.blind_loop (blind : compile.Blind) (test : LoopTest) (condition : String) :
    Blind (Loop.loop compile self site test condition) := by
  unfold Loop.loop
  split
  · exact blind_fail _
  · refine (blind_create blind .loop).bind fun block => ?_
    refine (Condition.tame_header self.path _).blind.bind fun clauses => ?_
    refine blind_read (fun _ => rfl) fun ws => blind_takePending.bind fun pending => ?_
    refine (blind_emitAll _).bind fun _ => (blind_emit _).bind fun _ => ?_
    refine (Loop.tame_close _ _ _).blind.bind fun _ => ?_
    exact (blind_lift (WorkM.blind_routine block)).bind fun _ => blind_emitAll _

theorem Definition.blind_define (blind : compile.Blind) (name : String) :
    Blind (define compile self name) := by
  refine (blind_query fun _ => rfl).bind fun callee => ?_
  refine (blind_lift (WorkM.blind_routine callee)).bind fun routine => ?_
  split
  · exact blind_read (fun _ => rfl) fun ws =>
      (blind_lift (WorkM.blind_updateRoutine _ _)).bind fun _ => blind_lift (WorkM.blind_record _)
  · exact (blind_lift (blind _ _)).bind fun _ => blind_lift (WorkM.blind_updateRoutine _ _)

theorem Lowering.blind_statement (blind : compile.Blind) (st : Statement) :
    Blind (statement compile self site st) := by
  cases st with
  | assign => exact (Assignment.tame_assign _ _ _).blind
  | augment => exact (Assignment.tame_augment _ _ _).blind
  | step => exact (Assignment.tame_step _ _).blind
  | define name => exact blind_define blind name
  | call => exact (Invocation.tame_call _ _).blind
  | branch clauses => exact blind_branch blind clauses
  | otherwise clauses => exact blind_otherwise blind clauses
  | times count => exact Loop.blind_times blind count
  | loop test condition => exact Loop.blind_loop blind test condition
  | exitLoop => exact Loop.tame_exit.blind
  | nextRound => exact Loop.tame_next.blind
  | command text => exact (Assignment.tame_substitute text).blind.bind fun _ => blind_emit _

theorem Lowering.blind_lines (blind : compile.Blind) (opens : Bool) (index : Nat)
    (lines : List Line) : Blind (Lowering.lines compile self opens index lines) := by
  induction lines generalizing opens index with
  | nil => exact blind_pure _
  | cons current rest ih =>
    have line : Blind (Lowering.line compile self ⟨index, rest⟩ current.text) := by
      refine (blind_lift (WorkM.blind_record _)).bind fun _ => (blind_modify _).bind fun _ => ?_
      refine (blind_query fun _ => rfl).bind fun parsed => ?_
      refine (Lowering.blind_statement blind parsed).bind fun _ => ?_
      split
      · exact blind_modify _
      · exact blind_pure _
    rw [Lowering.lines]
    split
    · exact blind_pure _
    · split
      · split
        · exact ih _ _
        · exact blind_lift (WorkM.blind_failAt _ _)
      · refine blind_get.bind fun body => ?_
        split
        · exact (line.locate index).bind fun _ => ih _ _
        · exact ih _ _

theorem Definition.addParamSlots_unnumbered (path : Path) (params : List Param) (ws : Workspace) :
    addParamSlots ws.unnumbered path params =
      (addParamSlots ws path params).unnumbered := by
  refine List.foldl_hom Workspace.unnumbered fun ws param => ?_
  split
  · exact ws.addInt_unnumbered _
  · rfl

theorem Definition.blind_registerAll (index : Nat) (lines : List Line) :
    WorkM.Blind (registerAll self index lines) := by
  induction lines generalizing index with
  | nil => exact WorkM.blind_pure _
  | cons current _ ih =>
    have register : WorkM.Blind (register self index current.text) := by
      unfold register
      split
      · exact WorkM.blind_fail _
      · refine (WorkM.blind_query fun _ => rfl).bind fun signature => ?_
        refine (WorkM.blind_update fun ws => addParamSlots_unnumbered _ _ ws).bind
          fun _ => ?_
        exact WorkM.blind_update? fun ws => ws.register_unnumbered _
    rw [registerAll]
    split
    · exact WorkM.blind_pure _
    · split
      · exact (register.locate index).bind fun _ => ih _
      · exact ih _

theorem Lowering.blind_commit (body : Body) : WorkM.Blind (commit self body) :=
  (WorkM.blind_record _).bind fun _ => WorkM.blind_updateRoutine _ _

theorem Lowering.bindParams_unnumbered (ws : Workspace) :
    bindParams self ws.unnumbered = (bindParams self ws).unnumbered := by
  have declared : (declaredParams self).foldl
      (fun ws param => ws.declare param.1 param.2) ws.unnumbered =
        ((declaredParams self).foldl
          (fun ws param => ws.declare param.1 param.2) ws).unnumbered :=
    List.foldl_hom Workspace.unnumbered fun _ _ => rfl
  rw [bindParams, declared]
  exact List.foldl_hom Workspace.unnumbered fun _ _ => rfl

theorem Lowering.releaseLocals_unnumbered (locals : List String) (ws : Workspace) :
    releaseLocals ws.unnumbered locals =
      (releaseLocals ws locals).unnumbered := by
  refine List.foldl_hom Workspace.unnumbered fun ws path => ?_
  rw [show ws.unnumbered.symbols = ws.symbols from rfl]
  split <;> rfl

/-- Compiling a routine takes no notice of line numbers. -/
theorem Lowering.blind_routine (blind : compile.Blind) :
    Compile.Blind (Lowering.routine compile) := by
  intro path previous
  refine (WorkM.blind_routine path).bind fun self => (WorkM.blind_record _).bind fun _ => ?_
  refine WorkM.blind_read (fun ws => ?_) fun ws => ?_
  · have lines : ws.unnumbered.lines.drop self.start =
        (ws.lines.drop self.start).map Line.unnumbered := List.map_drop.symm
    rw [lines]
    cases ws.lines.drop self.start with
    | nil => rfl
    | cons =>
      simp only [registerAll_unnumbered, Lowering.lines_unnumbered]
      rfl
  · simp only
    split
    · split
      · exact Lowering.blind_commit _
      · exact WorkM.blind_failAt _ _
    · split
      · split
        · exact Lowering.blind_commit _
        · exact WorkM.blind_failAt _ _
      · split
        · exact WorkM.blind_failAt _ _
        · refine (WorkM.blind_update fun ws => Lowering.bindParams_unnumbered ws).bind fun _ => ?_
          split
          refine (blind_registerAll _ _).bind fun _ => ?_
          all_goals
            exact (Lowering.blind_lines blind _ _ _ _).bind fun result =>
              (WorkM.blind_update fun ws => Lowering.releaseLocals_unnumbered _ ws).bind fun _ =>
                Lowering.blind_commit _

/-- Neither does compiling a routine and all that it holds. -/
theorem Lowering.blind_compile (limit : Nat) : Compile.Blind (Lowering.compile limit) := by
  induction limit with
  | zero => exact fun _ _ => WorkM.alike_throw rfl
  | succ _ ih => exact Lowering.blind_routine ih

end Blocks

/-! ### Linking -/

/-- What linking works on, without line numbers. -/
def LinkState.unnumbered (state : LinkState) : LinkState :=
  { state with ws := state.ws.unnumbered }

namespace Linking

variable {α β : Type}

/-- A step of linking takes no notice of line numbers. -/
def Blind (step : LinkM α) : Prop :=
  WorkM.Alike LinkState.unnumbered step step

theorem blind_pure (a : α) : Blind (pure a) := WorkM.alike_pure a

theorem Blind.bind {m : LinkM α} {f : α → LinkM β} (h : Blind m) (next : ∀ a, Blind (f a)) :
    Blind (m >>= f) :=
  WorkM.Alike.bind h next

theorem blind_modify {f : LinkState → LinkState} (same : ∀ st, f st.unnumbered = (f st).unnumbered) :
    Blind (modify f) :=
  WorkM.alike_modify same

/-- Reading what linking works on. -/
theorem blind_read {f : LinkState → LinkM α} (same : ∀ st, f st.unnumbered = f st)
    (next : ∀ st, Blind (f st)) : Blind (get >>= f) := by
  refine WorkM.Alike.get fun st => ?_
  rw [same]
  exact next st st

theorem blind_onWorkspace {step : WorkM α} (blind : WorkM.Blind step) :
    Blind (onWorkspace step) := by
  intro st
  have h := blind st.ws
  unfold onWorkspace
  rw [show st.unnumbered.ws = st.ws.unnumbered from rfl, h]
  cases step st.ws <;> rfl

theorem blind_withSymbols {step : WorkM α} (blind : WorkM.Blind step) (symbols : Symbols) :
    WorkM.Blind (withSymbols symbols step) := by
  intro ws
  have h := blind { ws with symbols }
  unfold withSymbols
  rw [show { ws.unnumbered with symbols } = Workspace.unnumbered { ws with symbols } from rfl, h]
  cases step { ws with symbols } <;> rfl

theorem blind_makeVariant (callee : Path) (arguments : List String) :
    WorkM.Blind (makeVariant callee arguments) := by
  refine (WorkM.blind_routine callee).bind fun routine => ?_
  split
  · exact WorkM.blind_fail _
  · next template _ =>
    refine (WorkM.blind_updateRoutine _ _).bind fun _ => ?_
    refine (WorkM.blind_update? fun ws => ws.register_unnumbered _).bind fun _ => ?_
    refine WorkM.blind_read (fun ws => ?_) fun ws => ?_
    · have nesting : ws.unnumbered.nesting = ws.nesting := by
        simp only [Workspace.nesting, Workspace.unnumbered, List.length_map]
      rw [nesting]
    · refine (blind_withSymbols (Lowering.blind_compile _ _ _) _).bind fun _ => ?_
      exact (WorkM.blind_record _).bind fun _ => WorkM.blind_pure _

theorem blind_variantFor (callee : Path) (arguments : List String) :
    Blind (variantFor callee arguments) := by
  refine blind_read (fun _ => rfl) fun st => ?_
  split
  · exact blind_pure _
  · refine (blind_onWorkspace (blind_makeVariant _ _)).bind fun path => ?_
    exact Blind.bind (blind_modify fun after => rfl) fun _ => blind_pure _

theorem blind_keep (path : Path) : Blind (keep path) := by
  refine (blind_onWorkspace (WorkM.blind_updateRoutine _ _)).bind fun _ => blind_modify fun st => ?_
  unfold enqueue
  split
  · next waits =>
    rw [if_pos (show (decide (path ∈ st.visited) || decide (path ∈ st.queue)) = true from waits)]
  · next new =>
    rw [if_neg (show ¬ (decide (path ∈ st.visited) || decide (path ∈ st.queue)) = true from new)]
    rfl

theorem blind_resolve (limit depth : Nat) (line : String) : Blind (resolve limit depth line) := by
  induction limit generalizing depth line with
  | zero => exact WorkM.alike_throw rfl
  | succ limit ih =>
    rw [resolve]
    split
    · split
      · exact blind_onWorkspace (WorkM.blind_fail _)
      · exact blind_pure _
    · next found _ =>
      refine blind_read (fun _ => rfl) fun st => ?_
      split
      · exact blind_onWorkspace (WorkM.blind_fail _)
      · split
        on_goal 2 => refine (blind_variantFor _ _).bind fun target => ?_
        all_goals
          refine (blind_onWorkspace (WorkM.blind_routine _)).bind fun routine => ?_
          refine blind_read (fun _ => rfl) fun st => ?_
          split
          · exact blind_pure _
          · refine (ih _ _).bind fun replaced => ?_
            split <;> exact blind_pure _
          · exact (blind_keep _).bind fun _ => blind_pure _

theorem blind_resolveAll (limit : Nat) (lines : List String) : Blind (resolveAll limit lines) := by
  induction lines with
  | nil => exact blind_pure _
  | cons _ _ ih =>
    exact (blind_resolve _ _ _).bind fun _ => ih.bind fun _ => blind_pure _

theorem Blind.locate {step : LinkM α} (h : Blind step) (path : Path) :
    Blind (Linking.locate path step) := by
  intro st
  unfold Linking.locate
  rw [h st]
  cases step st with
  | ok => rfl
  | error _ after =>
    change EStateM.Result.error _ _ = .error (Halt.unnumbered _) _
    rw [Halt.unnumbered_locate, ← after.ws.placeOf_unnumbered]
    rfl

theorem blind_routine (limit : Nat) (path : Path) : Blind (routine limit path) := by
  refine (blind_onWorkspace (WorkM.blind_routine path)).bind fun routine => ?_
  refine blind_read (fun _ => rfl) fun st => ?_
  exact ((blind_resolveAll _ _).locate path).bind fun _ =>
    blind_onWorkspace (WorkM.blind_updateRoutine _ _)

theorem blind_run (limit : Nat) : Blind (run limit) := by
  induction limit with
  | zero => exact WorkM.alike_throw rfl
  | succ limit ih =>
    refine WorkM.Alike.get fun st => ?_
    have same : st.unnumbered.queue = st.queue := rfl
    rw [same]
    match st.queue with
    | [] => rfl
    | path :: queue =>
      have taken : Blind (if path ∈ st.visited then run limit else do
          modify fun state => { state with visited := path :: state.visited }
          routine limit path
          run limit) := by
        split
        · exact ih
        · refine Blind.bind (blind_modify fun state => rfl) fun _ => ?_
          exact (blind_routine _ _).bind fun _ => ih
      exact taken { st with queue }

end Linking

/-! ### Packs -/

namespace Workspace

variable {ws ws' : Workspace}

theorem declareInts_unnumbered (ints : List String) :
    ws.unnumbered.declareInts ints = ws.declareInts ints := by
  induction ints with
  | nil => rfl
  | cons _ _ ih =>
    simp only [declareInts, ih]
    rfl

theorem declareConstants_unnumbered (index : Nat) (constants : List Int) :
    ws.unnumbered.declareConstants index constants = ws.declareConstants index constants := by
  induction constants generalizing index with
  | nil => rfl
  | cons _ _ ih =>
    simp only [declareConstants, ih]
    rfl

theorem prune_unnumbered : ws.unnumbered.prune = ws.prune.unnumbered := by
  unfold prune
  rw [show ws.unnumbered.dropped = ws.dropped from rfl]
  split <;> rfl

theorem ensureLoad_unnumbered : ws.unnumbered.ensureLoad = ws.ensureLoad.unnumbered := by
  unfold ensureLoad
  rw [show ws.unnumbered.loadPath = ws.loadPath from rfl,
    show ws.unnumbered.routines = ws.routines from rfl]
  split <;> rfl

theorem addPrelude_unnumbered : ws.unnumbered.addPrelude = ws.addPrelude.map unnumbered := by
  have same : ws.unnumbered.prelude = ws.prelude := by
    rw [prelude, declareInts_unnumbered, declareConstants_unnumbered]
    rfl
  unfold addPrelude
  rw [same, ensureLoad_unnumbered, show ws.unnumbered.ints = ws.ints from rfl,
    show ws.unnumbered.constants = ws.constants from rfl]
  split
  · rfl
  · cases ws.prelude <;> rfl

/-- Linking a workspace whose lines have no numbers. -/
theorem link_unnumbered (limit : Nat) :
    (ws.unnumbered.link limit).1 = (ws.link limit).1.mapError Halt.unnumbered := by
  have ran := Linking.blind_run limit ws.linkState
  unfold link
  rw [show ws.unnumbered.linkState = ws.linkState.unnumbered from rfl, ran]
  cases Linking.run limit ws.linkState with
  | error => rfl
  | ok _ st =>
    have kept : st.ws.unnumbered.prune.unshield = st.ws.prune.unshield.unnumbered := by
      rw [prune_unnumbered]
      rfl
    simp only [WorkM.unnumber, LinkState.unnumbered, kept, addPrelude_unnumbered]
    cases st.ws.prune.unshield.addPrelude <;> rfl

/-- Compiling and linking it. -/
theorem compile_unnumbered : ws.unnumbered.compile =
    (ws.compile.1.mapError Halt.unnumbered, ws.compile.2.unnumbered) := by
  unfold compile
  rw [show ws.unnumbered.settings = ws.settings from rfl, register_unnumbered]
  cases ws.register (.ofRoot ws.settings.rootPath) with
  | error => rfl
  | ok registered =>
    have nesting : registered.unnumbered.nesting = registered.nesting := by
      simp only [Workspace.nesting, Workspace.unnumbered, List.length_map]
    have ran := Lowering.blind_compile registered.nesting ws.settings.rootPath none registered
    simp only [Except.map, compileRoutine, nesting, ran]
    cases Lowering.compile registered.nesting ws.settings.rootPath none registered <;> rfl

/-- What is made of the lines that are read. -/
def finish (limit : Nat) (ws : Workspace) : Except Halt Pack :=
  match ws.compile with
  | (.error halt, _) => .error halt
  | (.ok (), compiled) => (compiled.link limit).1

theorem finish_unnumbered (limit : Nat) :
    ws.unnumbered.finish limit = (ws.finish limit).mapError Halt.unnumbered := by
  unfold finish
  rw [compile_unnumbered]
  rcases ws.compile with ⟨_ | _, compiled⟩
  · rfl
  · exact link_unnumbered limit

end Workspace

namespace Pack

open Workspace Text

variable {limit : Nat} {settings : Settings} {name text : String} {lines : List Line}

theorem build_of_read (h : Line.read text settings.defaultIndent 0 = .ok lines) :
    Pack.build limit settings [(name, text)] =
      (Workspace.record { settings, lines, sources := [name] }
        (.sourceRead 0 name lines.length)).finish limit := by
  have added : addSources { settings } [(name, text)] =
      .ok (Workspace.record { settings, lines, sources := [name] }
        (.sourceRead 0 name lines.length)) := by
    simp [addSources, addSource, h, bind, Except.bind]
  rw [build, added]
  rfl

/-- A text without shields and the layout of its lines are built alike: to the same pack, or to
faults that differ in nothing but the number of their line. -/
theorem build_layOut (free : '\x01' ∉ chars text)
    (read : Line.read text settings.defaultIndent 0 = .ok lines) :
    (Pack.build limit settings [(name, Line.layOut lines)]).mapError Halt.unnumbered =
      (Pack.build limit settings [(name, text)]).mapError Halt.unnumbered := by
  obtain ⟨again, readAgain, same⟩ := Line.read_layOut free read
  have length : again.length = lines.length := by
    simpa using congrArg List.length same
  rw [build_of_read read, build_of_read readAgain, ← finish_unnumbered, ← finish_unnumbered, length]
  have alike := congrArg (fun read : List Line => Workspace.record
    { settings, lines := read, sources := [name] } (.sourceRead 0 name lines.length)) same
  exact congrArg (finish limit) alike

/-- Comments, blank lines, two spaces for a level and spaces between and after arguments. -/
def spacedText : String :=
  "# doc\nx = 1 # one\n\nif x == 1:\n  # note\n  say  a \"b  c\" # x\n\n  say x\n" ++
    "  if go:\n    say d\n    say  e\n"

theorem build_layOut_spacedText :
    ∃ lines pack, '\x01' ∉ chars spacedText ∧ Line.read spacedText 4 0 = .ok lines ∧
      Line.layOut lines =
        "x = 1\nif x == 1:\n\tsay a \"b  c\"\n\tsay x\n\tif go:\n\t\tsay d\n\t\tsay  e\n" ∧
      Pack.build 100 {} [("", spacedText)] = .ok pack ∧
      Pack.build 100 {} [("", Line.layOut lines)] = .ok pack := by
  have free : '\x01' ∉ chars spacedText := by decide +kernel
  obtain ⟨lines, read, laid⟩ : ∃ lines, Line.read spacedText 4 0 = .ok lines ∧ Line.layOut lines =
      "x = 1\nif x == 1:\n\tsay a \"b  c\"\n\tsay x\n\tif go:\n\t\tsay d\n\t\tsay  e\n" := by
    decide +kernel
  obtain ⟨pack, built, -⟩ : ∃ pack, Pack.build 100 {} [("", spacedText)] = .ok pack ∧ True := by
    decide +kernel
  have alike := @build_layOut 100 {} "" spacedText lines free read
  rw [built] at alike
  refine ⟨lines, pack, free, read, laid, built, ?_⟩
  cases again : Pack.build 100 {} [("", Line.layOut lines)] with
  | ok other =>
    rw [again] at alike
    cases alike
    rfl
  | error halt =>
    rw [again] at alike
    cases alike

end Pack

end CommandPack
