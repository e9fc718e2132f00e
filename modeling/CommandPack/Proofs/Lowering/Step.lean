import CommandPack.Lowering.Compile
import Mathlib

/-!
# Successful steps

What a step of a compilation has done once it has succeeded. Every lemma here turns
the success of a compound step into the successes of its parts, so that later proofs
take compilations apart without opening the two state monads.
-/

namespace CommandPack

variable {α β : Type}
variable {b : β} {u : Unit} {index : Nat}

/-- A member of the second of two lists that are related has one of the first to go with it. -/
theorem exists_left_of_forall₂ {R : α → β → Prop} {as : List α} {bs : List β}
    (h : List.Forall₂ R as bs) (mem : b ∈ bs) : ∃ a ∈ as, R a b := by
  induction h with
  | nil => cases mem
  | cons first _ ih =>
    rcases List.mem_cons.1 mem with rfl | mem
    · exact ⟨_, .head _, first⟩
    · obtain ⟨a, mem, related⟩ := ih mem
      exact ⟨a, .tail _ mem, related⟩

/-! ### Steps on a workspace or on a larger state -/

namespace WorkM

/-- A step succeeds with a result and leaves a state, a workspace in most cases. -/
def Gives {σ : Type} (step : EStateM Halt σ α) (s : σ) (a : α) (after : σ) : Prop :=
  step s = .ok a after

section States

variable {σ : Type} {s s' : σ} {a : α}

theorem gives_bind {m : EStateM Halt σ α} {f : α → EStateM Halt σ β} :
    Gives (m >>= f) s b s' ↔ ∃ a mid, Gives m s a mid ∧ Gives (f a) mid b s' := by
  change EStateM.bind m f s = _ ↔ ∃ a mid, m s = _ ∧ f a mid = _
  unfold EStateM.bind
  cases m s with
  | ok a mid =>
    constructor
    · intro h
      exact ⟨a, mid, rfl, h⟩
    · rintro ⟨_, _, ⟨⟩, h⟩
      exact h
  | error => simp

@[simp]
theorem gives_pure {b : α} :
    Gives (pure b : EStateM Halt σ α) s a s' ↔ a = b ∧ s' = s := by
  change EStateM.Result.ok b s = _ ↔ _
  simp only [EStateM.Result.ok.injEq]
  constructor <;> rintro ⟨rfl, rfl⟩ <;> exact ⟨rfl, rfl⟩

@[simp]
theorem gives_throw {halt : Halt} : Gives (throw halt : EStateM Halt σ α) s a s' ↔ False := by
  change EStateM.Result.error halt s = _ ↔ _
  simp

@[simp]
theorem gives_get {a : σ} : Gives (get : EStateM Halt σ σ) s a s' ↔ a = s ∧ s' = s := by
  change EStateM.Result.ok s s = _ ↔ _
  simp only [EStateM.Result.ok.injEq]
  constructor <;> rintro ⟨rfl, rfl⟩ <;> exact ⟨rfl, rfl⟩

@[simp]
theorem gives_set {new : σ} {u : PUnit} :
    Gives (set new : EStateM Halt σ PUnit) s u s' ↔ s' = new := by
  change EStateM.Result.ok PUnit.unit new = _ ↔ _
  simp [eq_comm]

@[simp]
theorem gives_modify {f : σ → σ} {u : PUnit} :
    Gives (modify f : EStateM Halt σ PUnit) s u s' ↔ s' = f s := by
  change EStateM.Result.ok PUnit.unit (f s) = _ ↔ _
  simp [eq_comm]

end States

variable {ws ws' : Workspace} {a : α}

@[simp]
theorem gives_fail {cause : Cause} : Gives (fail cause) ws a ws' ↔ False :=
  gives_throw

@[simp]
theorem gives_failAt {cause : Cause} : Gives (failAt index cause) ws a ws' ↔ False := by
  simp [failAt, gives_bind]

@[simp]
theorem gives_query {f : Workspace → Except Cause α} :
    Gives (query f) ws a ws' ↔ f ws = .ok a ∧ ws' = ws := by
  simp only [query, gives_bind, gives_get]
  constructor
  · rintro ⟨_, _, ⟨rfl, rfl⟩, h⟩
    split at h
    · next b hb =>
      obtain ⟨rfl, rfl⟩ := gives_pure.1 h
      exact ⟨hb, rfl⟩
    · exact (gives_fail.1 h).elim
  · rintro ⟨h, rfl⟩
    refine ⟨_, _, ⟨rfl, rfl⟩, ?_⟩
    rw [h]
    exact gives_pure.2 ⟨rfl, rfl⟩

@[simp]
theorem gives_update {f : Workspace → Workspace} : Gives (update f) ws u ws' ↔ ws' = f ws := by
  change EStateM.Result.ok () (f ws) = _ ↔ _
  simp [eq_comm]

@[simp]
theorem gives_update? {f : Workspace → Except Cause Workspace} :
    Gives (update? f) ws u ws' ↔ f ws = .ok ws' := by
  simp only [update?, gives_bind, gives_query, gives_set]
  constructor
  · rintro ⟨new, _, ⟨h, rfl⟩, rfl⟩
    exact h
  · intro h
    exact ⟨ws', ws, ⟨h, rfl⟩, rfl⟩

@[simp]
theorem gives_record {event : Event} : Gives (record event) ws u ws' ↔ ws' = ws.record event :=
  gives_update

@[simp]
theorem gives_routine {path : Path} {r : Routine} :
    Gives (routine path) ws r ws' ↔ ws.routines.get? path = some r ∧ ws' = ws := by
  simp only [routine, gives_query, Workspace.routine]
  cases ws.routines.get? path <;> simp

@[simp]
theorem gives_updateRoutine {path : Path} {f : Routine → Routine} :
    Gives (updateRoutine path f) ws u ws' ↔
      (∃ r, ws.routines.get? path = some r) ∧ ws' = ws.updateRoutine path f := by
  simp only [updateRoutine, gives_bind, gives_routine, gives_update]
  constructor
  · rintro ⟨r, _, ⟨h, rfl⟩, rfl⟩
    exact ⟨⟨r, h⟩, rfl⟩
  · rintro ⟨⟨r, h⟩, rfl⟩
    exact ⟨r, ws, ⟨h, rfl⟩, rfl⟩

@[simp]
theorem gives_locate {step : WorkM α} :
    Gives (locate index step) ws a ws' ↔ Gives step ws a ws' := by
  unfold Gives locate
  cases step ws <;> simp

end WorkM

/-- A routine of a workspace in which one routine was updated. -/
theorem Workspace.found_before {ws : Workspace} {path q : Path} {f : Routine → Routine} {r' : Routine}
    (found : (ws.updateRoutine path f).routines.get? q = some r') :
    ∃ r, ws.routines.get? q = some r ∧ (if q = path then f r else r) = r' := by
  rwa [updateRoutine, Table.get?_modify, Option.map_eq_some_iff] at found

/-! ### Steps on a body -/

namespace BodyM

/-- A step on a body succeeds with a result and leaves a body and a workspace. -/
def Gives (step : BodyM α) (body : Body) (ws : Workspace) (a : α) (after : Body)
    (wsAfter : Workspace) : Prop :=
  WorkM.Gives (step body) ws (a, after) wsAfter

variable {body body' : Body} {ws ws' : Workspace} {a : α}

theorem gives_bind {m : BodyM α} {f : α → BodyM β} :
    Gives (m >>= f) body ws b body' ws' ↔
      ∃ a mid wsMid, Gives m body ws a mid wsMid ∧ Gives (f a) mid wsMid b body' ws' := by
  change WorkM.Gives (m body >>= fun p => f p.1 p.2) ws (b, body') ws' ↔ _
  rw [WorkM.gives_bind]
  simp only [Prod.exists]
  exact Iff.rfl

@[simp]
theorem gives_pure {b : α} :
    Gives (pure b) body ws a body' ws' ↔ a = b ∧ body' = body ∧ ws' = ws := by
  change WorkM.Gives (pure (b, body)) ws (a, body') ws' ↔ _
  simp [and_assoc]

@[simp]
theorem gives_get {a : Body} :
    Gives get body ws a body' ws' ↔ a = body ∧ body' = body ∧ ws' = ws := by
  change WorkM.Gives (pure (body, body)) ws (a, body') ws' ↔ _
  simp [and_assoc]

@[simp]
theorem gives_modify {f : Body → Body} {u : PUnit} :
    Gives (modify f) body ws u body' ws' ↔ body' = f body ∧ ws' = ws := by
  change WorkM.Gives (pure (PUnit.unit, f body)) ws (u, body') ws' ↔ _
  simp

@[simp]
theorem gives_lift {m : WorkM α} :
    Gives (liftM m) body ws a body' ws' ↔ WorkM.Gives m ws a ws' ∧ body' = body := by
  change WorkM.Gives (m >>= fun a => pure (a, body)) ws (a, body') ws' ↔ _
  simp only [WorkM.gives_bind, WorkM.gives_pure, Prod.mk.injEq]
  constructor
  · rintro ⟨_, _, h, ⟨rfl, rfl⟩, rfl⟩
    exact ⟨h, rfl⟩
  · rintro ⟨h, rfl⟩
    exact ⟨_, _, h, ⟨rfl, rfl⟩, rfl⟩

@[simp]
theorem gives_emit {command : Command} :
    Gives (emit command) body ws u body' ws' ↔
      command.isBlank = false ∧
        body' = { body with commands := body.commands ++ [command] } ∧ ws' = ws := by
  unfold emit
  cases command.isBlank <;> simp

@[simp]
theorem gives_emitAll {commands : List Command} :
    Gives (emitAll commands) body ws u body' ws' ↔
      body' = { body with commands := body.commands ++ commands } ∧ ws' = ws :=
  gives_modify

@[simp]
theorem gives_takePending {commands : List Command} :
    Gives takePending body ws commands body' ws' ↔
      commands = body.pending ∧ body' = { body with pending := [] } ∧ ws' = ws := by
  change WorkM.Gives (pure (body.pending, { body with pending := [] })) ws (commands, body') ws' ↔ _
  simp [and_assoc]

@[simp]
theorem gives_addLocal {path : String} :
    Gives (addLocal path) body ws u body' ws' ↔
      body' = { body with locals := body.locals ++ [path] } ∧ ws' = ws :=
  gives_modify

@[simp]
theorem gives_locate {step : BodyM α} :
    Gives (locate index step) body ws a body' ws' ↔ Gives step body ws a body' ws' :=
  WorkM.gives_locate

end BodyM

/-! ### Results that can be evaluated -/

section Evaluation

variable {ε δ : Type} {p : α → Prop} {q : α → β → Prop}

instance decidableExistsOk [DecidablePred p] : (e : Except ε α) →
    Decidable (∃ a, e = .ok a ∧ p a)
  | .ok a => decidable_of_iff (p a)
    ⟨fun h => ⟨a, rfl, h⟩, fun ⟨_, same, h⟩ => Except.ok.inj same ▸ h⟩
  | .error _ => isFalse nofun

instance decidableExistsFault {p : Fault → Prop} [DecidablePred p] : (e : Except Halt α) →
    Decidable (∃ fault, e = .error (.fault fault) ∧ p fault)
  | .error (.fault fault) => decidable_of_iff (p fault)
    ⟨fun h => ⟨fault, rfl, h⟩, fun ⟨_, same, h⟩ => by cases same; exact h⟩
  | .error .exhausted | .ok _ => isFalse nofun

instance decidableExistsPair [∀ a b, Decidable (q a b)] : (x : Except ε α × β) →
    Decidable (∃ a b, x = (.ok a, b) ∧ q a b)
  | (.ok a, b) => decidable_of_iff (q a b)
    ⟨fun h => ⟨a, b, rfl, h⟩, fun ⟨_, _, same, h⟩ => by cases same; exact h⟩
  | (.error _, _) => isFalse nofun

/-- Whether two steps, such as reading and compiling, succeed with results that have a property. -/
instance decidableExistsBoth [∀ a b, Decidable (q a b)] (f : α → Except δ Unit × β) :
    (e : Except ε α) → Decidable (∃ a b, e = .ok a ∧ f a = (.ok (), b) ∧ q a b)
  | .error _ => isFalse nofun
  | .ok a => match result : f a with
    | (.ok (), b) => decidable_of_iff (q a b)
      ⟨fun h => ⟨a, b, rfl, result, h⟩, fun ⟨_, _, same, given, h⟩ => by
        cases same
        cases result.symm.trans given
        exact h⟩
    | (.error _, _) => isFalse fun ⟨_, _, same, given, _⟩ => by
        cases same
        cases result.symm.trans given

end Evaluation

end CommandPack
