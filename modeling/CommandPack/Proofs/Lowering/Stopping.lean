import CommandPack.Proofs.Lowering.Failing
import CommandPack.Proofs.Lowering.Furnishing

/-!
# Steps that stop

What is known of a step that does not succeed. A step may stop with a fault that the sources are to
blame for. The faults that only the compiler itself could cause are told apart: a routine that is
not there is never asked for, and a slot is missing only in a workspace that is not furnished.
Strings without a value are left to linking.
-/

namespace CommandPack

open Workspace

variable {α β : Type}
variable {expression path target : String} {next : String → BodyM β} {value : Int}
variable {m : WorkM α} {f : Workspace → Except Cause α} {a : α} {cause : Cause} {name : String}
  {from' : Option String} {kind : Kind} {left : List Param} {arguments : List String}

/-! ### Causes -/

/-- The causes that the sources are to blame for. Where `strict` fails, a state that should never
be reached counts as one of them. -/
def Cause.Usual (strict : Prop) : Cause → Prop
  | .unknownFunction _ | .unboundString _ => False
  | .internal _ => ¬ strict
  | _ => True

/-- A compilation stops with a fault that the sources are to blame for. -/
def Halt.Usual (strict : Prop) : Halt → Prop
  | .fault f => f.cause.Usual strict
  | .exhausted => False

theorem Halt.Usual.locate {strict : Prop} {halt : Halt} (h : halt.Usual strict) (place : Place) :
    (halt.locate place).Usual strict := by
  cases halt with
  | fault f =>
    change (f.locate place).cause.Usual strict
    unfold Fault.locate
    split <;> exact h
  | exhausted => exact h

/-! ### Steps on a workspace -/

namespace WorkM

/-- If a step does not succeed, it stops with a usual fault. -/
def Stops (strict : Prop) (step : WorkM α) (ws : Workspace) : Prop :=
  ∀ halt ws', Fails step ws halt ws' → halt.Usual strict

variable {strict : Prop} {ws : Workspace}

theorem stops_bind {f : α → WorkM β} :
    Stops strict (m >>= f) ws ↔ Stops strict m ws ∧
      ∀ a mid, Gives m ws a mid → Stops strict (f a) mid := by
  simp only [Stops, fails_bind]
  constructor
  · exact fun h => ⟨fun halt ws' failed => h halt ws' (.inl failed),
      fun a mid first halt ws' later => h halt ws' (.inr ⟨a, mid, first, later⟩)⟩
  · rintro ⟨first, later⟩ halt ws' (failed | ⟨a, mid, given, failed⟩)
    · exact first halt ws' failed
    · exact later a mid given halt ws' failed

@[simp]
theorem stops_pure : Stops strict (pure a) ws :=
  fun _ _ failed => absurd failed fails_pure

@[simp]
theorem stops_fail : Stops strict (fail cause : WorkM α) ws ↔ cause.Usual strict := by
  simp [Stops, Halt.Usual]

@[simp]
theorem stops_query :
    Stops strict (query f) ws ↔ ∀ cause, f ws = .error cause → cause.Usual strict := by
  simp only [Stops, fails_query]
  constructor
  · exact fun h cause missing => h _ _ ⟨cause, missing, rfl, rfl⟩
  · rintro h _ _ ⟨cause, missing, rfl, rfl⟩
    exact h cause missing

@[simp]
theorem stops_update {f : Workspace → Workspace} : Stops strict (update f) ws :=
  fun _ _ failed => absurd failed fails_update

@[simp]
theorem stops_record {event : Event} : Stops strict (record event) ws :=
  stops_update

/-- A routine that is there can be read. -/
theorem stops_routine {path : Path} {r : Routine} (found : ws.routines.get? path = some r) :
    Stops strict (routine path) ws := by
  simp only [routine, stops_query, Workspace.routine, found]
  rintro cause ⟨⟩

theorem stops_updateRoutine {path : Path} {f : Routine → Routine} {r : Routine}
    (found : ws.routines.get? path = some r) : Stops strict (updateRoutine path f) ws :=
  stops_bind.2 ⟨stops_routine found, fun _ _ _ => stops_update⟩

end WorkM

/-! ### Steps on a body -/

namespace BodyM

/-- If a step on a body does not succeed, it stops with a usual fault. -/
def Stops (strict : Prop) (step : BodyM α) (body : Body) (ws : Workspace) : Prop :=
  WorkM.Stops strict (step body) ws

variable {strict : Prop} {body : Body} {ws : Workspace}

theorem stops_bind {m : BodyM α} {f : α → BodyM β} :
    Stops strict (m >>= f) body ws ↔ Stops strict m body ws ∧
      ∀ a mid wsMid, Gives m body ws a mid wsMid → Stops strict (f a) mid wsMid := by
  change WorkM.Stops strict (m body >>= fun p => f p.1 p.2) ws ↔ _
  rw [WorkM.stops_bind]
  simp only [Prod.forall]
  exact Iff.rfl

@[simp]
theorem stops_pure : Stops strict (pure a) body ws :=
  WorkM.stops_pure

@[simp]
theorem stops_modify {f : Body → Body} :
    Stops strict (modify f : BodyM PUnit) body ws :=
  WorkM.stops_pure

@[simp]
theorem stops_lift : Stops strict (liftM m) body ws ↔ WorkM.Stops strict m ws := by
  change WorkM.Stops strict (m >>= fun a => pure (a, body)) ws ↔ _
  rw [WorkM.stops_bind]
  simp only [WorkM.stops_pure, implies_true, and_true]

@[simp]
theorem stops_emit {command : Command} : Stops strict (emit command) body ws := by
  unfold emit
  cases command.isBlank <;> simp [Cause.Usual]

@[simp]
theorem stops_emitAll {commands : List Command} :
    Stops strict (emitAll commands) body ws :=
  stops_modify

@[simp]
theorem stops_takePending : Stops strict takePending body ws :=
  WorkM.stops_pure

@[simp]
theorem stops_addLocal : Stops strict (addLocal path) body ws :=
  stops_modify

end BodyM

/-! ### Looking variables up -/

section Lookups

variable {strict : Prop} {ws : Workspace} {scope : Path} {cause : Cause}

/-- A slot is missing only where a workspace is not furnished. -/
theorem Workspace.usual_of_objective (furnished : strict → ws.Furnished)
    (slot : strict → path ∈ ws.ints) (h : ws.objective path = .error cause) :
    cause.Usual strict := by
  unfold Workspace.objective at h
  split at h
  · cases h
  · next none =>
    cases h
    intro holds
    obtain ⟨name, found⟩ := (furnished holds).objective (slot holds)
    rw [objective_eq_ok, none] at found
    cases found

theorem Workspace.mem_ints_of_resolveInt? (furnished : strict → ws.Furnished)
    (h : ws.resolveInt? scope name = some path) : strict → path ∈ ws.ints := by
  intro holds
  obtain ⟨_, integer⟩ := Option.filter_eq_some_iff.1 h
  exact (furnished holds).integers (by simpa using integer)

theorem Cause.usual_of_isPlain (plain : cause.isPlain = true) : cause.Usual strict := by
  cases cause <;> first | exact trivial | cases plain

theorem Workspace.Misses.usual (h : ws.Misses cause) (furnished : strict → ws.Furnished) :
    cause.Usual strict := by
  rcases h with plain | ⟨path, integer, missing⟩
  · exact Cause.usual_of_isPlain plain
  · exact usual_of_objective furnished (fun holds => (furnished holds).integers integer) missing

end Lookups

/-! ### Plain statements -/

section Plain

open BodyM

variable {strict : Prop} {self : Routine} {body : Body} {ws : Workspace}

/-- A look-up before other steps. -/
theorem BodyM.stops_query {next : α → BodyM β}
    (usual : ∀ cause, f ws = .error cause → cause.Usual strict)
    (stops : ∀ a, f ws = .ok a → Stops strict (next a) body ws) :
    Stops strict (liftM (WorkM.query f) >>= next) body ws := by
  refine stops_bind.2 ⟨stops_lift.2 (WorkM.stops_query.2 usual), fun a mid wsMid given => ?_⟩
  obtain ⟨⟨found, rfl⟩, rfl⟩ := gives_lift.1 given |>.imp_left WorkM.gives_query.1
  exact stops a found

theorem BodyM.stops_read {next : Workspace → BodyM β} (stops : Stops strict (next ws) body ws) :
    Stops strict (liftM (WorkM.query .ok) >>= next) body ws :=
  stops_query nofun fun _ same => Except.ok.inj same ▸ stops

theorem BodyM.stops_refused (plain : cause.isPlain = true) :
    Stops strict (liftM (WorkM.fail cause : WorkM α)) body ws :=
  stops_lift.2 (WorkM.stops_fail.2 (Cause.usual_of_isPlain plain))

theorem stops_objective (furnished : strict → ws.Furnished) (slot : strict → path ∈ ws.ints)
    (stops : ∀ objective, Stops strict (next objective) body ws) :
    Stops strict (liftM (WorkM.query (·.objective path)) >>= next) body ws :=
  stops_query (fun _ missing => usual_of_objective furnished slot missing) fun _ _ => stops _

namespace Assignment

theorem stops_substitute {text : String} (furnished : strict → ws.Furnished)
    (stops : ∀ out, Stops strict (next out) body ws) :
    Stops strict (substitute self text >>= next) body ws :=
  stops_query (fun _ failed => (Substitution.misses_of_substitute failed).usual furnished)
    fun _ _ => stops _

theorem stops_setInt (furnished : strict → ws.Furnished) (slot : strict → path ∈ ws.ints) :
    Stops strict (setInt path value) body ws :=
  stops_objective furnished slot fun _ => stops_emit

theorem stops_copyInt {from' : String} (furnished : strict → ws.Furnished)
    (slot : strict → path ∈ ws.ints) (slot' : strict → from' ∈ ws.ints) :
    Stops strict (copyInt path from') body ws :=
  stops_objective furnished slot fun _ => stops_objective furnished slot' fun _ => stops_emit

theorem stops_destination : Stops strict (destination self target) body ws := by
  refine stops_read ?_
  split
  · exact stops_bind.2 ⟨stops_addLocal, fun _ _ _ _ => stops_pure⟩
  · split
    · exact stops_refused rfl
    · exact stops_bind.2 ⟨stops_emit, fun _ _ _ _ => stops_pure⟩
    · exact stops_pure

theorem stops_assignSummoned {value : String} {declared : Option Kind}
    (furnished : strict → ws.Furnished) :
    Stops strict (assignSummoned self path declared value) body ws := by
  unfold assignSummoned
  simp only
  split
  · exact stops_substitute furnished fun _ => stops_bind.2 ⟨stops_emit,
      fun _ _ _ _ => stops_lift.2 WorkM.stops_update⟩
  · exact stops_refused rfl

theorem stops_assignEntity {selector : String} :
    Stops strict (assignEntity path kind selector) body ws :=
  stops_bind.2 ⟨stops_lift.2 WorkM.stops_update, fun _ _ _ _ => stops_emit⟩

theorem stops_declareOnly {clarifier : String} :
    Stops strict (declareOnly path expression clarifier) body ws := by
  unfold declareOnly
  split
  · exact stops_lift.2 WorkM.stops_update
  · exact stops_lift.2 WorkM.stops_update
  · exact stops_refused rfl

/-- Assigning a number or an integer variable, once the target is declared. -/
theorem stops_afterDeclareInt {step : BodyM Unit} (furnished : strict → ws.Furnished)
    (next : ∀ ws', (strict → ws'.Furnished) → (path ∈ ws'.ints) → ws.ints ⊆ ws'.ints →
      Stops strict step body ws') :
    Stops strict (do WorkM.update (·.declareInt path); step) body ws := by
  refine stops_bind.2 ⟨stops_lift.2 WorkM.stops_update, fun _ mid wsMid given => ?_⟩
  obtain ⟨rfl, rfl⟩ := gives_lift.1 given |>.imp_left WorkM.gives_update.1
  rw [ws.declareInt_eq path]
  refine next _ (fun holds => ?_) (ws.mem_ints_addInt path) (ws.allots_addInt path).ints
  exact ((furnished holds).addInt path).declare rfl fun _ => ws.mem_ints_addInt path

theorem stops_assignInferred (furnished : strict → ws.Furnished)
    (slot : ∀ s ∈ from', strict → s ∈ ws.ints) :
    Stops strict (assignInferred path expression from') body ws := by
  unfold assignInferred
  split
  · exact stops_afterDeclareInt furnished fun _ furnished' own _ =>
      stops_setInt furnished' fun _ => own
  · exact stops_afterDeclareInt furnished fun _ furnished' own more =>
      stops_copyInt furnished' (fun _ => own) fun holds => more (slot _ rfl holds)
  · split
    · exact stops_assignEntity
    · split
      · exact stops_declareOnly
      · exact stops_lift.2 WorkM.stops_update

theorem stops_assignDeclared (furnished : strict → ws.Furnished)
    (slot : ∀ s ∈ from', strict → s ∈ ws.ints) :
    Stops strict (assignDeclared path expression from' kind) body ws := by
  cases kind with
  | entity =>
    simp only [assignDeclared]
    split
    · exact stops_assignEntity
    · exact stops_refused rfl
  | integer =>
    refine stops_afterDeclareInt furnished fun ws' furnished' own more => ?_
    split
    · exact stops_setInt furnished' fun _ => own
    · exact stops_copyInt furnished' (fun _ => own) fun holds => more (slot _ rfl holds)
    · exact stops_refused rfl
  | string => exact stops_lift.2 WorkM.stops_update

theorem stops_assign {value : String} {clarifier : Option String}
    (furnished : strict → ws.Furnished) :
    Stops strict (assign self target clarifier value) body ws := by
  unfold assign
  split
  · exact stops_refused rfl
  · next valid =>
    split
    · exact stops_refused rfl
    · refine stops_query (fun _ failed => Cause.usual_of_isPlain (plain_of_declaredKind failed))
        fun declared _ => stops_bind.2 ⟨stops_destination, fun path mid wsMid given => ?_⟩
      obtain ⟨_, rfl, _⟩ : Effects self (fun _ => True) True _ _ ∧ _ ∧ _ :=
        effects_destination (by simpa using valid) given
      split
      · exact stops_assignSummoned furnished
      · refine stops_substitute furnished fun out => stops_read ?_
        have slot : ∀ s ∈ intSource? wsMid self value, strict → s ∈ wsMid.ints :=
          fun s resolved => mem_ints_of_resolveInt? furnished resolved
        split
        · exact stops_assignInferred furnished slot
        · exact stops_assignDeclared furnished slot

/-! ### Changes in place -/

theorem stops_intTarget (furnished : strict → ws.Furnished)
    (stops : ∀ path, (strict → path ∈ ws.ints) → Stops strict (next path) body ws) :
    Stops strict (intTarget self target >>= next) body ws := by
  refine stops_query (fun cause failed => ?_) fun path found => stops path ?_
  · split at failed <;> cases failed
    trivial
  · split at found
    · next resolved =>
      cases found
      exact mem_ints_of_resolveInt? furnished resolved
    · cases found

theorem gives_internConstant {body' : Body} {ws' : Workspace} :
    Gives (internConstant value) body ws path body' ws' ↔
      path = (ws.addConstant value).1 ∧ body' = body ∧ ws' = (ws.addConstant value).2 := by
  simp only [internConstant, gives_bind, gives_lift, gives_pure, WorkM.gives_query,
    WorkM.gives_update, Except.ok.injEq]
  constructor
  · rintro ⟨_, _, _, ⟨⟨rfl, rfl⟩, rfl⟩, _, _, _, ⟨rfl, rfl⟩, rfl, rfl, rfl⟩
    exact ⟨rfl, rfl, rfl⟩
  · rintro ⟨rfl, rfl, rfl⟩
    exact ⟨_, _, _, ⟨⟨rfl, rfl⟩, rfl⟩, (), _, _, ⟨rfl, rfl⟩, rfl, rfl, rfl⟩

theorem stops_augmentByNumber {objective operand : String} {operator : Operator}
    (furnished : strict → ws.Furnished) (slot : strict → path ∈ ws.ints) :
    Stops strict (augmentByNumber path objective operator value operand) body ws := by
  unfold augmentByNumber
  split
  · split <;> exact stops_emit
  · split <;> exact stops_emit
  · exact stops_refused rfl
  · have interns : Stops strict (internConstant value) body ws :=
      stops_read (stops_bind.2 ⟨stops_lift.2 WorkM.stops_update, fun _ _ _ _ => stops_pure⟩)
    refine stops_bind.2 ⟨interns, fun constant mid wsMid given => ?_⟩
    obtain ⟨rfl, rfl, rfl⟩ := gives_internConstant.1 given
    have ints : (ws.addConstant value).2.ints = ws.ints := by
      unfold addConstant
      split <;> rfl
    refine stops_objective (fun holds => (furnished holds).addConstant value)
      (fun holds => ints ▸ slot holds) fun _ => stops_query (fun cause failed => ?_)
        fun _ _ => stops_emit
    -- an interned constant has a slot although it is no variable
    unfold Workspace.objective at failed
    split at failed
    · cases failed
    · next none =>
      cases failed
      intro holds
      obtain ⟨name, found⟩ := (furnished holds).objective_addConstant value
      rw [objective_eq_ok, none] at found
      cases found

theorem stops_augment {operand : String} {operator : Operator} (furnished : strict → ws.Furnished) :
    Stops strict (augment self target operator operand) body ws := by
  refine stops_intTarget furnished fun path slot => ?_
  split
  · exact stops_refused rfl
  · refine stops_objective furnished slot fun _ => stops_read ?_
    split
    · next source _ resolved =>
      exact stops_objective furnished (mem_ints_of_resolveInt? furnished resolved)
        fun _ => stops_emit
    · exact stops_augmentByNumber furnished slot
    · exact stops_refused rfl

theorem stops_step {up : Bool} (furnished : strict → ws.Furnished) :
    Stops strict (step self target up) body ws := by
  refine stops_intTarget furnished fun path slot => stops_objective furnished slot fun _ => ?_
  split <;> exact stops_emit

end Assignment

/-! ### Calls -/

namespace Invocation

open Assignment

variable {callee : Path} {start : Body} {words : List String} {handed own : List Handed}
  {call : Partial}

theorem stops_bindArgument {param : Param} {argument : String} (furnished : strict → ws.Furnished)
    (housed : ws.Housed) (defined : ws.isDefined callee = true)
    (progress : Progress self ws callee start words handed own call (param :: left) body) :
    Stops strict (bindArgument self call param argument) body ws := by
  refine stops_substitute furnished fun out => ?_
  split
  · exact stops_bind.2 ⟨stops_emit, fun _ _ _ _ => stops_pure⟩
  · next integer =>
    -- the slot of a parameter is there since its definition was registered
    have slot : strict → call.callee.qualify param.name ∈ ws.ints := by
      intro holds
      obtain ⟨routine, found, defined, mem⟩ := progress.registered defined
      rw [← (housed.orderly.owned found defined).1]
      exact (furnished holds).params found (by rw [defined]; rfl) param mem integer
    have ends {step : BodyM Unit} (h : Stops strict step body ws) :
        Stops strict (do step; return call) body ws :=
      stops_bind.2 ⟨h, fun _ _ _ _ => stops_pure⟩
    refine stops_read ?_
    simp only
    split
    · exact ends (stops_setInt furnished slot)
    · next resolved =>
      exact ends (stops_copyInt furnished slot (mem_ints_of_resolveInt? furnished resolved))
    · exact ends (stops_refused rfl)
  · exact stops_pure

theorem stops_checkRecursion {next : Unit → BodyM β}
    (stops : Stops strict (next ()) body ws) :
    Stops strict (liftM (WorkM.query fun _ => checkRecursion self callee) >>= next) body ws :=
  stops_query (fun _ failed => Cause.usual_of_isPlain (plain_of_checkRecursion failed))
    fun _ _ => stops

theorem stops_selectInner : Stops strict (selectInner self call name) body ws := by
  refine stops_read ?_
  split
  · next defined =>
    obtain ⟨r, found, -⟩ := isDefined_iff.1 defined
    exact stops_checkRecursion (stops_bind.2
      ⟨stops_lift.2 (WorkM.stops_routine found), fun _ _ _ _ => stops_pure⟩)
  · exact stops_refused rfl

theorem stops_bindArguments (furnished : strict → ws.Furnished) (housed : ws.Housed)
    (defined : ws.isDefined callee = true)
    (progress : Progress self ws callee start words handed own call call.params body) :
    Stops strict (bindArguments self call arguments) body ws := by
  induction arguments generalizing call body words handed own with
  | nil => exact stops_pure
  | cons _ _ ih =>
    rw [bindArguments]
    split
    · next param params hparams =>
      rw [hparams] at progress
      refine stops_bind.2 ⟨stops_bindArgument furnished housed defined progress, ?_⟩
      intro bound mid wsMid given
      obtain ⟨rfl, next⟩ := progress.bindArgument given
      exact ih ⟨next.leads, next.params, next.bindings, next.released, next.strings⟩
    · next none =>
      rw [none] at progress
      refine stops_bind.2 ⟨stops_selectInner, fun inner mid wsMid given => ?_⟩
      obtain ⟨rfl, next⟩ := progress.selectInner given
      exact ih next

theorem stops_bindDefaults (furnished : strict → ws.Furnished) (housed : ws.Housed)
    (defined : ws.isDefined callee = true)
    (progress : Progress self ws callee start words handed own call left body) :
    Stops strict (bindDefaults self call left) body ws := by
  induction left generalizing call body own with
  | nil => exact stops_pure
  | cons _ _ ih =>
    rw [bindDefaults]
    split
    · refine stops_bind.2 ⟨stops_bindArgument furnished housed defined progress, ?_⟩
      intro bound mid wsMid given
      obtain ⟨rfl, next⟩ := progress.bindArgument given
      exact ih next
    · exact stops_refused rfl

theorem stops_call {arguments : String} (furnished : strict → ws.Furnished)
    (housed : ws.Housed) (defined : ws.isDefined callee = true) :
    Stops strict (Invocation.call self callee arguments) body ws := by
  obtain ⟨r, found, -⟩ := isDefined_iff.1 defined
  refine stops_query (fun _ failed => Cause.usual_of_isPlain (plain_of_checkRecursion failed))
    fun _ checked => stops_bind.2 ⟨stops_lift.2 (WorkM.stops_routine found), ?_⟩
  intro routine mid wsMid given
  obtain ⟨⟨found', rfl⟩, rfl⟩ := gives_lift.1 given |>.imp_left WorkM.gives_routine.1
  have progress := @Progress.initial _ _ _ mid _ (allowed_of_checkRecursion checked) found'
  refine stops_bind.2 ⟨stops_bindArguments furnished housed defined progress, ?_⟩
  intro bound mid wsMid given
  obtain ⟨rfl, _, _, _, -, progress⟩ := progress.bindArguments given
  exact stops_bind.2 ⟨stops_bindDefaults furnished housed defined progress, fun _ _ _ _ =>
    stops_bind.2 ⟨stops_emit, fun _ _ _ _ => stops_emitAll⟩⟩

end Invocation

/-! ### Headers -/

namespace Condition

theorem stops_test {check : Check} (furnished : strict → ws.Furnished)
    (slots : strict → check.All (· ∈ ws.ints)) : Stops strict (test check) body ws := by
  cases check with
  | range => exact stops_objective furnished slots fun _ => stops_pure
  | difference left =>
    have furnished' : strict → (ws.addInt (scratch left)).Furnished :=
      fun holds => (furnished holds).addInt _
    have more := (ws.allots_addInt (scratch left)).ints
    refine stops_bind.2 ⟨stops_lift.2 WorkM.stops_update, fun _ mid wsMid given => ?_⟩
    obtain ⟨rfl, rfl⟩ := gives_lift.1 given |>.imp_left WorkM.gives_update.1
    exact stops_objective furnished' (fun _ => ws.mem_ints_addInt _) fun _ =>
      stops_objective furnished' (fun holds => more (slots holds).1) fun _ =>
        stops_objective furnished' (fun holds => more (slots holds).2) fun _ =>
          stops_bind.2 ⟨stops_modify, fun _ _ _ _ => stops_pure⟩

theorem stops_lower {before : List Piece} (furnished : strict → ws.Furnished) :
    Stops strict (lower self.path before arguments) body ws := by
  fun_induction lower self.path before arguments generalizing body ws with
  | case1 _ _ _ _ ihCheck ihNone =>
    refine stops_query (fun _ failed => Cause.usual_of_isPlain (plain_of_check? failed))
      fun checked found => ?_
    cases checked with
    | some check =>
      have slots : strict → check.All (· ∈ ws.ints) := fun holds =>
        all_of_check? (fun _ resolved => mem_ints_of_resolveInt? furnished resolved holds) found
      refine stops_bind.2 ⟨stops_test furnished slots, fun clause mid wsMid given => ?_⟩
      obtain ⟨effects, _, _⟩ : Effects self (fun _ => True) True _ _ ∧ _ ∧ _ :=
        effects_test (declared_of_check? found) given
      exact ihCheck clause fun holds => (furnished holds).effects effects
    | none => exact ihNone furnished
  | case2 => exact stops_pure

theorem stops_header {text : String} (furnished : strict → ws.Furnished) :
    Stops strict (header self.path text) body ws := by
  refine stops_bind.2 ⟨stops_lower furnished, fun pieces mid wsMid given => ?_⟩
  obtain ⟨effects, _, _⟩ : Effects self (fun _ => True) True _ _ ∧ _ ∧ _ :=
    effects_lower (List.forall_mem_nil _) (fun _ _ => trivial)
      (Relation.ReflTransGen.refl : Effects self _ True (body, ws) (body, ws)) given
  exact stops_lift.2 (WorkM.stops_query.2 fun _ failed =>
    (misses_of_clauses failed).usual fun holds => (furnished holds).effects effects)

end Condition

/-- A plain statement. -/
theorem Lowering.stops_plain {compile : Compile} {site : Site} {st : Statement}
    (plain : st.isPlain = true) (furnished : strict → ws.Furnished) (housed : ws.Housed)
    (calls : ∀ callee arguments, st = .call callee arguments → ws.isDefined callee = true) :
    Stops strict (Lowering.statement compile self site st) body ws := by
  cases st with
  | assign => exact Assignment.stops_assign furnished
  | augment => exact Assignment.stops_augment furnished
  | step => exact Assignment.stops_step furnished
  | call => exact Invocation.stops_call furnished housed (calls _ _ rfl)
  | command => exact Assignment.stops_substitute furnished fun _ => stops_emit
  | _ => cases plain

end Plain

end CommandPack
