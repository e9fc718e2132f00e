import CommandPack.Proofs.Lowering.Numbering
import CommandPack.Proofs.Lowering.Visits

/-!
# Failed steps

What a step of a compilation has done once it has failed, part by part as for successful steps. The
steps that compile no routine are tame: they read no other sources, start no line, take no notice of
line numbers, and their faults have no place yet and are not about a path that is taken.
-/

namespace CommandPack

open Substitution

variable {α β : Type}
variable {m : WorkM α} {f : Workspace → Except Cause α} {cause : Cause} {index : Nat}
  {ws : Workspace}
variable {a : α} {event : Event} {path scope : Path}

/-! ### Steps on a workspace or on a larger state -/

namespace WorkM

section States

variable {σ : Type} {s s' : σ} {halt : Halt}

/-- A step does not succeed, and leaves a state. -/
def Fails (step : EStateM Halt σ α) (s : σ) (halt : Halt) (after : σ) : Prop :=
  step s = .error halt after

theorem fails_bind {m : EStateM Halt σ α} {f : α → EStateM Halt σ β} :
    Fails (m >>= f) s halt s' ↔
      Fails m s halt s' ∨ ∃ a mid, Gives m s a mid ∧ Fails (f a) mid halt s' := by
  change EStateM.bind m f s = _ ↔ m s = _ ∨ ∃ a mid, m s = _ ∧ f a mid = _
  unfold EStateM.bind
  cases m s with
  | ok a mid =>
    constructor
    · exact fun h => .inr ⟨a, mid, rfl, h⟩
    · rintro (⟨⟨⟩⟩ | ⟨_, _, ⟨⟩, h⟩)
      exact h
  | error => simp

@[simp]
theorem fails_pure : ¬ Fails (pure a : EStateM Halt σ α) s halt s' :=
  nofun

@[simp]
theorem fails_get : ¬ Fails (get : EStateM Halt σ σ) s halt s' :=
  nofun

@[simp]
theorem fails_set {new : σ} : ¬ Fails (set new : EStateM Halt σ PUnit) s halt s' :=
  nofun

@[simp]
theorem fails_modify {f : σ → σ} : ¬ Fails (modify f : EStateM Halt σ PUnit) s halt s' :=
  nofun

@[simp]
theorem fails_throw {stop : Halt} :
    Fails (throw stop : EStateM Halt σ α) s halt s' ↔ halt = stop ∧ s' = s := by
  change EStateM.Result.error stop s = _ ↔ _
  simp only [EStateM.Result.error.injEq]
  exact and_congr eq_comm eq_comm

end States

variable {ws ws' : Workspace} {halt : Halt}

@[simp]
theorem fails_fail :
    Fails (fail cause : WorkM α) ws halt ws' ↔ halt = .fault { cause } ∧ ws' = ws :=
  fails_throw

@[simp]
theorem fails_failAt :
    Fails (failAt index cause : WorkM α) ws halt ws' ↔
      halt = .fault { cause, place := some (ws.placeAt index) } ∧ ws' = ws := by
  simp only [failAt, fails_bind, fails_get, gives_get, fails_throw, false_or]
  constructor
  · rintro ⟨_, _, ⟨rfl, rfl⟩, h⟩
    exact h
  · exact fun h => ⟨ws, ws, ⟨rfl, rfl⟩, h⟩

@[simp]
theorem fails_query :
    Fails (query f) ws halt ws' ↔
      ∃ cause, f ws = .error cause ∧ halt = .fault { cause } ∧ ws' = ws := by
  simp only [query, fails_bind, fails_get, gives_get, false_or]
  constructor
  · rintro ⟨_, _, ⟨rfl, rfl⟩, h⟩
    split at h
    · exact absurd h fails_pure
    · next cause missing => exact ⟨cause, missing, fails_fail.1 h⟩
  · rintro ⟨cause, missing, h⟩
    refine ⟨ws, ws, ⟨rfl, rfl⟩, ?_⟩
    rw [missing]
    exact fails_fail.2 h

@[simp]
theorem fails_update {f : Workspace → Workspace} : ¬ Fails (update f) ws halt ws' :=
  fails_modify

@[simp]
theorem fails_record : ¬ Fails (record event) ws halt ws' :=
  fails_update

@[simp]
theorem fails_update? {f : Workspace → Except Cause Workspace} :
    Fails (update? f) ws halt ws' ↔
      ∃ cause, f ws = .error cause ∧ halt = .fault { cause } ∧ ws' = ws := by
  simp only [update?, fails_bind, fails_query, fails_set, and_false, exists_false, or_false]

@[simp]
theorem fails_routine : Fails (routine path) ws halt ws' ↔
    ws.routines.get? path = none ∧ halt = .fault { cause := .unknownFunction path.render } ∧
      ws' = ws := by
  simp only [routine, fails_query, Workspace.routine]
  cases ws.routines.get? path <;> simp

@[simp]
theorem fails_updateRoutine {f : Routine → Routine} :
    Fails (updateRoutine path f) ws halt ws' ↔ ws.routines.get? path = none ∧
      halt = .fault { cause := .unknownFunction path.render } ∧ ws' = ws := by
  simp only [updateRoutine, fails_bind, fails_routine, fails_update, and_false, exists_false,
    or_false]

@[simp]
theorem fails_locate {step : WorkM α} :
    Fails (locate index step) ws halt ws' ↔
      ∃ inner, Fails step ws inner ws' ∧ halt = inner.locate (ws'.placeAt index) := by
  unfold Fails locate
  cases step ws with
  | ok => simp
  | error inner =>
    simp only [EStateM.Result.error.injEq]
    constructor
    · rintro ⟨rfl, rfl⟩
      exact ⟨inner, ⟨rfl, rfl⟩, rfl⟩
    · rintro ⟨_, ⟨rfl, rfl⟩, rfl⟩
      exact ⟨rfl, rfl⟩

end WorkM

/-! ### Steps on a body -/

namespace BodyM

/-- A step on a body does not succeed, and leaves a workspace. -/
def Fails (step : BodyM α) (body : Body) (ws : Workspace) (halt : Halt) (wsAfter : Workspace) :
    Prop :=
  WorkM.Fails (step body) ws halt wsAfter

variable {body : Body} {ws ws' : Workspace} {halt : Halt}

theorem fails_bind {m : BodyM α} {f : α → BodyM β} :
    Fails (m >>= f) body ws halt ws' ↔ Fails m body ws halt ws' ∨
      ∃ a mid wsMid, Gives m body ws a mid wsMid ∧ Fails (f a) mid wsMid halt ws' := by
  change WorkM.Fails (m body >>= fun p => f p.1 p.2) ws halt ws' ↔ _
  rw [WorkM.fails_bind]
  simp only [Prod.exists]
  exact Iff.rfl

@[simp]
theorem fails_pure : ¬ Fails (pure a) body ws halt ws' :=
  WorkM.fails_pure

@[simp]
theorem fails_get : ¬ Fails (get : BodyM Body) body ws halt ws' :=
  WorkM.fails_pure

@[simp]
theorem fails_modify {f : Body → Body} : ¬ Fails (modify f : BodyM PUnit) body ws halt ws' :=
  WorkM.fails_pure

@[simp]
theorem fails_emitAll {commands : List Command} : ¬ Fails (emitAll commands) body ws halt ws' :=
  fails_modify

@[simp]
theorem fails_emit_killMarker {tag : String} : ¬ Fails (emit (.killMarker tag)) body ws halt ws' :=
  fails_modify

@[simp]
theorem fails_emit_invoke {clauses : List Clause} {call : CallMark} :
    ¬ Fails (emit (.invoke clauses call)) body ws halt ws' :=
  fails_modify

@[simp]
theorem fails_takePending : ¬ Fails takePending body ws halt ws' :=
  WorkM.fails_pure

@[simp]
theorem fails_lift : Fails (liftM m) body ws halt ws' ↔ WorkM.Fails m ws halt ws' := by
  change WorkM.Fails (m >>= fun a => pure (a, body)) ws halt ws' ↔ _
  simp only [WorkM.fails_bind, WorkM.fails_pure, and_false, exists_false, or_false]

@[simp]
theorem fails_locate {step : BodyM α} :
    Fails (locate index step) body ws halt ws' ↔
      ∃ inner, Fails step body ws inner ws' ∧ halt = inner.locate (ws'.placeAt index) :=
  WorkM.fails_locate

end BodyM

theorem Workspace.register_eq_error {r : Routine} :
    ws.register r = .error cause ↔ (∃ other, ws.routines.get? r.path = some other) ∧
      cause = .duplicateFunction r.path.leaf := by
  unfold register
  rw [← Table.mem_keys_iff, ← Table.contains_iff]
  split
  · next taken => simp [taken, eq_comm]
  · next free => simp [free]

/-! ### Causes -/

/-- Whether a path is taken. -/
def Cause.isClash : Cause → Bool
  | .duplicateFunction _ => true
  | _ => false

/-- The causes that a single line of the sources is to blame for. -/
def Cause.isPlain : Cause → Bool
  | .duplicateFunction _ | .unknownFunction _ | .unboundString _ | .internal _ => false
  | _ => true

theorem Cause.other_of_isPlain (plain : cause.isPlain = true) : cause.isClash = false := by
  cases cause <;> first | rfl | cases plain

/-- A look-up fails for a plain cause, or because an integer variable has no slot. -/
def Workspace.Misses (ws : Workspace) (cause : Cause) : Prop :=
  cause.isPlain = true ∨
    ∃ path, ws.symbols.kind? path = some .integer ∧ ws.objective path = .error cause

theorem Workspace.other_of_objective {path : String} (h : ws.objective path = .error cause) :
    cause.isClash = false := by
  unfold Workspace.objective at h
  split at h <;> cases h
  rfl

theorem Workspace.Misses.other {ws : Workspace} {cause : Cause} (h : ws.Misses cause) :
    cause.isClash = false := by
  rcases h with plain | ⟨path, _, missing⟩
  · exact Cause.other_of_isPlain plain
  · exact Workspace.other_of_objective missing

/-! ### Tame steps -/

/-- A fault without a place that is not about a path that is taken. -/
def Halt.Bare : Halt → Prop
  | .fault f => f.place = none ∧ f.cause.isClash = false
  | .exhausted => False

namespace WorkM

/-- A step that keeps the text that was read and starts no line, takes no notice of line numbers and
fails with bare faults only. -/
structure Tame (step : WorkM α) : Prop where
  blind : Blind step
  keeps {ws ws' : Workspace} {a : α} : Gives step ws a ws' → ws.SameLog ws'
  bare {ws ws' : Workspace} {halt : Halt} : Fails step ws halt ws' → halt.Bare ∧ ws.SameLog ws'

theorem tame_pure (a : α) : Tame (pure a : WorkM α) where
  blind := blind_pure a
  keeps given := by
    obtain ⟨-, rfl⟩ := gives_pure.1 given
    exact .refl _
  bare failed := absurd failed fails_pure

theorem Tame.bind {f : α → WorkM β} (h : Tame m) (next : ∀ a, Tame (f a)) :
    Tame (m >>= f) where
  blind := h.blind.bind fun a => (next a).blind
  keeps given := by
    obtain ⟨a, mid, first, later⟩ := gives_bind.1 given
    exact (h.keeps first).trans ((next a).keeps later)
  bare failed := by
    rcases fails_bind.1 failed with failed | ⟨a, mid, first, later⟩
    · exact h.bare failed
    · obtain ⟨bare, same⟩ := (next a).bare later
      exact ⟨bare, (h.keeps first).trans same⟩

theorem tame_fail (other : cause.isClash = false) :
    Tame (fail cause : WorkM α) where
  blind := blind_fail cause
  keeps given := (gives_fail.1 given).elim
  bare failed := by
    obtain ⟨rfl, rfl⟩ := fails_fail.1 failed
    exact ⟨⟨rfl, other⟩, .refl _⟩

theorem tame_query (other : ∀ ws cause, f ws = .error cause → cause.isClash = false)
    (blind : ∀ ws, f ws.unnumbered = f ws) : Tame (query f) where
  blind := blind_query blind
  keeps given := by
    obtain ⟨-, rfl⟩ := gives_query.1 given
    exact .refl _
  bare failed := by
    obtain ⟨cause, missing, rfl, rfl⟩ := fails_query.1 failed
    exact ⟨⟨rfl, other _ _ missing⟩, .refl _⟩

theorem tame_update {f : Workspace → Workspace} (same : ∀ ws : Workspace, ws.SameLog (f ws))
    (blind : ∀ ws, f ws.unnumbered = (f ws).unnumbered) : Tame (update f) where
  blind := blind_update blind
  keeps given := by
    obtain rfl := gives_update.1 given
    exact same _
  bare failed := absurd failed fails_update

theorem tame_routine (path : Path) : Tame (routine path) := by
  refine tame_query (fun ws cause missing => ?_) fun _ => rfl
  unfold Workspace.routine at missing
  split at missing <;> cases missing
  rfl

theorem tame_updateRoutine (path : Path) (f : Routine → Routine) : Tame (updateRoutine path f) :=
  (tame_routine path).bind fun _ =>
    tame_update (fun ws => .updateRoutine ws path f) fun _ => rfl

theorem tame_record (other : event.start? = none) : Tame (record event) :=
  tame_update (fun ws => .record ws event other) fun _ => rfl

end WorkM

namespace BodyM

/-- A step on a body that is tame whatever the body holds. -/
def Tame (step : BodyM α) : Prop :=
  ∀ body, WorkM.Tame (step body)

theorem tame_pure (a : α) : Tame (pure a) := fun _ => WorkM.tame_pure _

theorem Tame.bind {m : BodyM α} {f : α → BodyM β} (h : Tame m) (next : ∀ a, Tame (f a)) :
    Tame (m >>= f) :=
  fun body => (h body).bind fun p => next p.1 p.2

theorem tame_modify (f : Body → Body) : Tame (modify f : BodyM PUnit) :=
  fun _ => WorkM.tame_pure _

theorem tame_lift (h : WorkM.Tame m) : Tame (liftM m) :=
  fun _ => h.bind fun _ => WorkM.tame_pure _

theorem tame_fail (other : cause.isClash = false) : Tame (liftM (WorkM.fail cause : WorkM α)) :=
  tame_lift (WorkM.tame_fail other)

theorem tame_query (other : ∀ ws cause, f ws = .error cause → cause.isClash = false)
    (blind : ∀ ws, f ws.unnumbered = f ws) : Tame (liftM (WorkM.query f)) :=
  tame_lift (WorkM.tame_query other blind)

/-- Reading the workspace, but not the numbers of its lines. -/
theorem tame_read {f : Workspace → BodyM α} (blind : ∀ ws, f ws.unnumbered = f ws)
    (next : ∀ ws, Tame (f ws)) : Tame (liftM (WorkM.query .ok) >>= f) := by
  intro body
  refine ⟨?_, fun {ws ws' a} given => ?_, fun {ws ws' halt} failed => ?_⟩
  · exact BodyM.blind_read blind (fun ws body => (next ws body).blind) body
  · exact (next ws body).keeps given
  · exact (next ws body).bare failed

theorem tame_update {f : Workspace → Workspace} (same : ∀ ws : Workspace, ws.SameLog (f ws))
    (blind : ∀ ws, f ws.unnumbered = (f ws).unnumbered) : Tame (liftM (WorkM.update f)) :=
  tame_lift (WorkM.tame_update same blind)

theorem tame_emit (command : Command) : Tame (emit command) := by
  unfold emit
  split
  · exact tame_fail rfl
  · exact tame_modify _

theorem tame_emitAll (commands : List Command) : Tame (emitAll commands) :=
  tame_modify _

theorem tame_takePending : Tame takePending := fun _ => WorkM.tame_pure _

theorem tame_addLocal (path : String) : Tame (addLocal path) :=
  tame_modify _

end BodyM

/-! ### Lookups -/

theorem Substitution.eq_error_of_map {result : Except Cause α} {f : α → β}
    (h : result.map f = .error cause) : result = .error cause := by
  cases result with
  | error =>
    cases h
    rfl
  | ok => cases h

namespace Substitution

variable {ws : Workspace} {scope : Path} {cause : Cause}

theorem misses_of_evaluate {word : String} (h : evaluate ws scope word = .error cause) :
    ws.Misses cause := by
  unfold evaluate at h
  simp only at h
  split at h
  · cases h
  · split at h
    · cases h
    · split at h
      · cases h
      · split at h <;> cases h
        exact .inl rfl
      · next integer =>
        split at h
        · next missing =>
          cases h
          exact .inr ⟨_, integer, missing⟩
        · split at h <;> cases h
          exact .inl rfl
      · cases h

theorem misses_of_substituteWords {usedUp : Bool} {tokens : List Token}
    (h : substituteWords ws scope usedUp tokens = .error cause) : ws.Misses cause := by
  induction tokens generalizing usedUp with
  | nil => cases usedUp <;> cases h
  | cons _ _ ih =>
    cases usedUp with
    | true => exact ih h
    | false =>
      rw [substituteWords] at h
      split at h
      · split at h
        · next failed =>
          cases h
          exact misses_of_evaluate failed
        · exact ih (eq_error_of_map h)
        · split at h <;> exact ih (eq_error_of_map h)
      · exact ih (eq_error_of_map h)
      · exact ih (eq_error_of_map h)

theorem misses_of_substituteArguments {arguments : List String}
    (h : substituteArguments ws scope arguments = .error cause) : ws.Misses cause := by
  induction arguments with
  | nil => cases h
  | cons _ _ ih =>
    rw [substituteArguments] at h
    split at h
    · next own =>
      cases h
      exact misses_of_substituteWords own
    · exact ih (eq_error_of_map h)

theorem misses_of_substitute {text : String} (h : substitute ws scope text = .error cause) :
    ws.Misses cause :=
  misses_of_substituteArguments (eq_error_of_map h)

end Substitution

/-! ### Plain statements -/

section Plain

open BodyM

variable {self : Routine}

theorem tame_objective (path : String) : WorkM.Tame (WorkM.query (·.objective path)) :=
  WorkM.tame_query (fun _ _ => Workspace.other_of_objective) fun _ => rfl

namespace Assignment

theorem tame_substitute (text : String) : Tame (substitute self text) :=
  tame_query (fun _ _ failed => (misses_of_substitute failed).other) fun ws =>
    (ws.looksLike_unnumbered _).substitute fun _ _ _ _ => trivial

theorem tame_setInt (path : String) (value : Int) : Tame (setInt path value) :=
  (tame_lift (tame_objective path)).bind fun _ => tame_emit _

theorem tame_copyInt (path source : String) : Tame (copyInt path source) :=
  (tame_lift (tame_objective path)).bind fun _ =>
    (tame_lift (tame_objective source)).bind fun _ => tame_emit _

theorem tame_destination (target : String) : Tame (destination self target) := by
  refine tame_read (fun _ => rfl) fun ws => ?_
  split
  · exact (tame_addLocal _).bind fun _ => tame_pure _
  · split
    · exact tame_fail rfl
    · exact (tame_emit _).bind fun _ => tame_pure _
    · exact tame_pure _

theorem tame_assignSummoned (path : String) (declared : Option Kind) (value : String) :
    Tame (assignSummoned self path declared value) := by
  unfold assignSummoned
  simp only
  split
  · exact (tame_substitute _).bind fun _ => (tame_emit _).bind fun _ =>
      tame_update (fun ws => .declare ws path _) fun _ => rfl
  · exact tame_fail rfl

theorem tame_assignEntity (path : String) (kind : Kind) (selector : String) :
    Tame (assignEntity path kind selector) :=
  (tame_update (fun ws => .declare ws path kind) fun _ => rfl).bind fun _ => tame_emit _

theorem tame_declareInt (path : String) : Tame (liftM (WorkM.update (·.declareInt path))) :=
  tame_update (fun ws => (Workspace.SameLog.declare ws path .integer).trans (.addInt _ path))
    fun ws => (ws.declare path .integer).addInt_unnumbered path

theorem tame_declareOnly (path expression clarifier : String) :
    Tame (declareOnly path expression clarifier) := by
  unfold declareOnly
  split
  · exact tame_declareInt path
  · exact tame_update (fun ws => .declare ws path _) fun _ => rfl
  · exact tame_fail rfl

theorem tame_assignInferred (path expression : String) (source : Option String) :
    Tame (assignInferred path expression source) := by
  unfold assignInferred
  split
  · exact (tame_declareInt path).bind fun _ => tame_setInt _ _
  · exact (tame_declareInt path).bind fun _ => tame_copyInt _ _
  · split
    · exact tame_assignEntity _ _ _
    · split
      · exact tame_declareOnly _ _ _
      · exact tame_update (fun ws => .bindString ws path expression) fun _ => rfl

theorem tame_assignDeclared (path expression : String) (source : Option String) (kind : Kind) :
    Tame (assignDeclared path expression source kind) := by
  cases kind with
  | entity =>
    simp only [assignDeclared]
    split
    · exact tame_assignEntity _ _ _
    · exact tame_fail rfl
  | integer =>
    refine (tame_declareInt path).bind fun _ => ?_
    split
    · exact tame_setInt _ _
    · exact tame_copyInt _ _
    · exact tame_fail rfl
  | string => exact tame_update (fun ws => .bindString ws path expression) fun _ => rfl

theorem plain_of_declaredKind {clarifier : Option String}
    (h : declaredKind clarifier = .error cause) : cause.isPlain = true := by
  unfold declaredKind at h
  split at h
  · cases h
  · split at h <;> cases h
    rfl

theorem tame_assign (target : String) (clarifier : Option String) (value : String) :
    Tame (assign self target clarifier value) := by
  unfold assign
  split
  · exact tame_fail rfl
  · split
    · exact tame_fail rfl
    · refine (tame_query (fun _ _ failed => Cause.other_of_isPlain (plain_of_declaredKind failed))
        fun _ => rfl).bind fun declared => ?_
      refine (tame_destination target).bind fun path => ?_
      split
      · exact tame_assignSummoned _ _ _
      · refine (tame_substitute value).bind fun expression => tame_read (fun _ => rfl) fun ws => ?_
        split
        · exact tame_assignInferred _ _ _
        · exact tame_assignDeclared _ _ _ _

theorem tame_intTarget (target : String) : Tame (intTarget self target) := by
  refine tame_query (fun ws cause missing => ?_) fun _ => rfl
  split at missing <;> cases missing
  rfl

theorem tame_internConstant (value : Int) : Tame (internConstant value) := by
  -- the workspace that is stored is the one that was read, with a slot for the constant
  have read (body : Body) (ws : Workspace) : internConstant value body ws =
      .ok ((ws.addConstant value).1, body) (ws.addConstant value).2 := rfl
  intro body
  refine ⟨fun ws => ?_, fun {ws ws' a} given => ?_, fun {ws ws' halt} failed => ?_⟩
  · rw [read, read, ws.addConstant_unnumbered]
    rfl
  · cases (read body ws).symm.trans given
    exact .addConstant ..
  · cases (read body ws).symm.trans failed

theorem tame_augmentByNumber (path objective : String) (operator : Operator) (value : Int)
    (operand : String) : Tame (augmentByNumber path objective operator value operand) := by
  unfold augmentByNumber
  split
  · split <;> exact tame_emit _
  · split <;> exact tame_emit _
  · exact tame_fail rfl
  · exact (tame_internConstant value).bind fun constant =>
      (tame_lift (tame_objective path)).bind fun _ =>
        (tame_lift (tame_objective constant)).bind fun _ => tame_emit _

theorem tame_augment (target : String) (operator : Operator) (operand : String) :
    Tame (augment self target operator operand) := by
  refine (tame_intTarget target).bind fun path => ?_
  split
  · exact tame_fail rfl
  · refine (tame_lift (tame_objective path)).bind fun objective =>
      tame_read (fun _ => rfl) fun ws => ?_
    split
    · exact (tame_lift (tame_objective _)).bind fun _ => tame_emit _
    · exact tame_augmentByNumber _ _ _ _ _
    · exact tame_fail rfl

theorem tame_step (target : String) (up : Bool) : Tame (step self target up) := by
  refine (tame_intTarget target).bind fun path => (tame_lift (tame_objective path)).bind fun _ => ?_
  split <;> exact tame_emit _

end Assignment

namespace Invocation

open Assignment

theorem plain_of_checkRecursion {callee : Path} (h : checkRecursion self callee = .error cause) :
    cause.isPlain = true := by
  unfold checkRecursion at h
  split at h <;> cases h
  rfl

theorem tame_checkRecursion (callee : Path) :
    Tame (liftM (WorkM.query fun _ => checkRecursion self callee)) :=
  tame_query (fun _ _ failed => Cause.other_of_isPlain (plain_of_checkRecursion failed))
    fun _ => rfl

theorem tame_bindArgument (call : Partial) (param : Param) (argument : String) :
    Tame (bindArgument self call param argument) := by
  refine (tame_substitute argument).bind fun expression => ?_
  split
  · exact (tame_emit _).bind fun _ => tame_pure _
  · refine tame_read (fun _ => rfl) fun ws => ?_
    simp only
    split
    · exact (tame_setInt _ _).bind fun _ => tame_pure _
    · exact (tame_copyInt _ _).bind fun _ => tame_pure _
    · exact (tame_fail rfl).bind fun _ => tame_pure _
  · exact tame_pure _

theorem tame_selectInner (call : Partial) (name : String) : Tame (selectInner self call name) := by
  refine tame_read (fun _ => rfl) fun ws => ?_
  split
  · exact (tame_checkRecursion _).bind fun _ =>
      (tame_lift (WorkM.tame_routine _)).bind fun _ => tame_pure _
  · exact tame_fail rfl

theorem tame_bindArguments (call : Partial) (arguments : List String) :
    Tame (bindArguments self call arguments) := by
  induction arguments generalizing call with
  | nil => exact tame_pure _
  | cons _ _ ih =>
    rw [bindArguments]
    split
    · exact (tame_bindArgument _ _ _).bind fun _ => ih _
    · exact (tame_selectInner _ _).bind fun _ => ih _

theorem tame_bindDefaults (call : Partial) (params : List Param) :
    Tame (bindDefaults self call params) := by
  induction params generalizing call with
  | nil => exact tame_pure _
  | cons _ _ ih =>
    rw [bindDefaults]
    split
    · exact (tame_bindArgument _ _ _).bind fun _ => ih _
    · exact tame_fail rfl

theorem tame_call (callee : Path) (arguments : String) : Tame (call self callee arguments) :=
  (tame_checkRecursion _).bind fun _ =>
    (tame_lift (WorkM.tame_routine callee)).bind fun _ =>
      (tame_bindArguments _ _).bind fun _ => (tame_bindDefaults _ _).bind fun _ =>
        (tame_emit _).bind fun _ => tame_emitAll _

end Invocation

namespace Condition

theorem plain_of_check? {before : List Piece} {sign next : String}
    (h : check? ws scope before sign next = .error cause) : cause.isPlain = true := by
  unfold check? at h
  split at h
  · simp only at h
    split at h
    · cases h
    · cases h
      rfl
    · cases h
      rfl
    · cases h
      rfl
    all_goals
      split at h <;> cases h
      rfl
  · cases h

theorem tame_test (check : Check) : Tame (test check) := by
  cases check with
  | range slot => exact (tame_lift (tame_objective slot)).bind fun _ => tame_pure _
  | difference =>
    exact (tame_update (fun ws => .addInt ws _) fun ws => ws.addInt_unnumbered _).bind fun _ =>
      (tame_lift (tame_objective _)).bind fun _ => (tame_lift (tame_objective _)).bind fun _ =>
        (tame_lift (tame_objective _)).bind fun _ => (tame_modify _).bind fun _ => tame_pure _

theorem tame_lower (scope : Path) (before : List Piece) (arguments : List String) :
    Tame (lower scope before arguments) := by
  fun_induction lower scope before arguments with
  | case1 _ _ _ _ ihCheck ihNone =>
    refine (tame_query (fun _ _ failed => Cause.other_of_isPlain (plain_of_check? failed))
      fun ws => (ws.looksLike_unnumbered scope).check? (fun _ _ => trivial) trivial).bind
        fun checked => ?_
    cases checked with
    | some check => exact (tame_test check).bind fun clause => ihCheck clause
    | none => exact ihNone
  | case2 => exact tame_pure _

theorem misses_of_clauses {pieces : List Piece} (h : clauses ws scope pieces = .error cause) :
    ws.Misses cause := by
  induction pieces with
  | nil => cases h
  | cons piece _ ih =>
    cases piece with
    | source =>
      rw [clauses] at h
      split at h
      · next failed =>
        cases h
        exact misses_of_substituteWords failed
      · exact ih (eq_error_of_map h)
    | test => exact ih (eq_error_of_map h)
    | removed => exact ih h

theorem tame_header (scope : Path) (text : String) : Tame (header scope text) :=
  (tame_lower _ _ _).bind fun _ =>
    tame_query (fun _ _ failed => (misses_of_clauses failed).other) fun ws =>
      (ws.looksLike_unnumbered scope).clauses fun _ _ _ _ => trivial

end Condition

namespace Loop

theorem tame_close (block : Path) (header : List Clause) (pending : List Command) :
    Tame (close block header pending) := by
  refine tame_read (fun ws => ?_) fun _ => (tame_lift (WorkM.tame_updateRoutine ..)).bind fun _ =>
    tame_lift (WorkM.tame_updateRoutine ..)
  have same : ws.unnumbered.routines = ws.routines := rfl
  simp only [same, tail_congr same]

theorem tame_exit : Tame (exit self) := by
  unfold exit
  split
  · exact tame_fail rfl
  · exact (tame_modify _).bind fun _ => tame_emit _

theorem tame_next : Tame (next self) := by
  unfold next
  split
  · exact tame_fail rfl
  · exact (tame_modify _).bind fun _ => tame_emit _

end Loop

end Plain

end CommandPack
