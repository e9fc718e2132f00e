import CommandPack.Proofs.Lowering.Looking
import CommandPack.Proofs.Source.Formatting

/-!
# Line numbers

The numbers of lines are read only to give a fault its place. So a compilation runs in the same way
on lines with other numbers: it does the same steps, leaves the same workspace apart from the
numbers, and stops with the same fault apart from the number of its line.
-/

namespace CommandPack

variable {α β : Type}

/-! ### Without numbers -/

/-- A place without its line number. -/
def Place.unnumbered (place : Place) : Place :=
  { place with line := 0 }

/-- A fault without its line number. -/
def Fault.unnumbered (fault : Fault) : Fault :=
  { fault with place := fault.place.map Place.unnumbered }

def Halt.unnumbered : Halt → Halt
  | fault f => fault f.unnumbered
  | exhausted => exhausted

theorem Halt.unnumbered_locate (halt : Halt) (place : Place) :
    (halt.locate place).unnumbered = halt.unnumbered.locate place.unnumbered := by
  cases halt with
  | exhausted => rfl
  | fault f =>
    obtain ⟨cause, here⟩ := f
    cases here <;> rfl

namespace Workspace

/-- A workspace without the numbers of its lines. -/
def unnumbered (ws : Workspace) : Workspace :=
  { ws with lines := ws.lines.map Line.unnumbered }

theorem placeAt_unnumbered (ws : Workspace) (index : Nat) :
    ws.unnumbered.placeAt index = (ws.placeAt index).unnumbered := by
  unfold placeAt
  rw [show ws.unnumbered.lines[index]? = ws.lines[index]?.map Line.unnumbered from
    List.getElem?_map]
  cases ws.lines[index]? <;> rfl

theorem placeOf_unnumbered (ws : Workspace) (path : Path) :
    ws.unnumbered.placeOf path = (ws.placeOf path).unnumbered :=
  ws.placeAt_unnumbered _

theorem looksLike_unnumbered (ws : Workspace) (scope : Path) :
    LooksLike (fun _ => True) scope ws ws.unnumbered :=
  ⟨fun _ _ => rfl, fun _ _ => rfl, fun _ _ => rfl⟩

theorem addInt_unnumbered (ws : Workspace) (path : String) :
    ws.unnumbered.addInt path = (ws.addInt path).unnumbered := by
  unfold addInt
  split
  · next mem => rw [if_pos (show path ∈ ws.ints from mem)]
  · next other =>
    rw [if_neg (show path ∉ ws.ints from other)]
    rfl

theorem addConstant_unnumbered (ws : Workspace) (value : Int) :
    ws.unnumbered.addConstant value = ((ws.addConstant value).1, (ws.addConstant value).2.unnumbered) := by
  unfold addConstant
  rw [show ws.unnumbered.constants = ws.constants from rfl]
  split <;> rfl

theorem register_unnumbered (ws : Workspace) (routine : Routine) :
    ws.unnumbered.register routine = (ws.register routine).map unnumbered := by
  unfold register
  split
  · next taken =>
    rw [if_pos (show ws.routines.contains routine.path = true from taken)]
    rfl
  · next free =>
    rw [if_neg (show ¬ ws.routines.contains routine.path = true from free)]
    rfl

end Workspace

/-! ### Steps on a workspace or on a larger state -/

namespace WorkM

/-- What a step ends with, without line numbers. -/
def unnumber {σ : Type} (erase : σ → σ) : EStateM.Result Halt σ α → EStateM.Result Halt σ α
  | .ok a s => .ok a (erase s)
  | .error halt s => .error halt.unnumbered (erase s)

/-- One step does without line numbers what the other one does with them. -/
def Alike {σ : Type} (erase : σ → σ) (step step' : EStateM Halt σ α) : Prop :=
  ∀ s, step' (erase s) = unnumber erase (step s)

section States

variable {σ : Type} {erase : σ → σ}

theorem alike_pure (a : α) : Alike erase (pure a) (pure a) := fun _ => rfl

theorem Alike.bind {m m' : EStateM Halt σ α} {f f' : α → EStateM Halt σ β}
    (h : Alike erase m m') (next : ∀ a, Alike erase (f a) (f' a)) :
    Alike erase (m >>= f) (m' >>= f') := by
  intro s
  change EStateM.bind m' f' (erase s) = unnumber erase (EStateM.bind m f s)
  unfold EStateM.bind
  rw [h s]
  cases m s with
  | ok a mid => exact next a mid
  | error => rfl

theorem alike_throw {halt : Halt} (same : halt.unnumbered = halt) :
    Alike erase (throw halt : EStateM Halt σ α) (throw halt) := by
  intro s
  change EStateM.Result.error halt (erase s) = .error halt.unnumbered (erase s)
  rw [same]

/-- Reading the state. -/
theorem Alike.get {f f' : σ → EStateM Halt σ α}
    (next : ∀ s, f' (erase s) (erase s) = unnumber erase (f s s)) :
    Alike erase (get >>= f) (get >>= f') := next

theorem alike_modify {f : σ → σ} (same : ∀ s, f (erase s) = erase (f s)) :
    Alike erase (modify f : EStateM Halt σ PUnit) (modify f) := by
  intro s
  change EStateM.Result.ok PUnit.unit (f (erase s)) = .ok PUnit.unit (erase (f s))
  rw [same]

end States

/-- A step on a workspace takes no notice of line numbers. -/
def Blind (step : WorkM α) : Prop :=
  Alike Workspace.unnumbered step step

theorem blind_pure (a : α) : Blind (pure a) := alike_pure a

theorem Blind.bind {m : WorkM α} {f : α → WorkM β} (h : Blind m) (next : ∀ a, Blind (f a)) :
    Blind (m >>= f) :=
  Alike.bind h next

theorem blind_fail (cause : Cause) : Blind (fail cause : WorkM α) := alike_throw rfl

theorem blind_failAt (index : Nat) (cause : Cause) : Blind (failAt index cause : WorkM α) := by
  refine Alike.get fun ws => ?_
  rw [ws.placeAt_unnumbered]
  rfl

/-- Reading the workspace. -/
theorem blind_read {f : Workspace → WorkM α} (same : ∀ ws, f ws.unnumbered = f ws)
    (next : ∀ ws, Blind (f ws)) : Blind (get >>= f) := by
  refine Alike.get fun ws => ?_
  rw [same]
  exact next ws ws

theorem blind_query {f : Workspace → Except Cause α} (same : ∀ ws, f ws.unnumbered = f ws) :
    Blind (query f) := by
  refine Alike.get fun ws => ?_
  rw [same]
  cases f ws <;> rfl

theorem blind_update {f : Workspace → Workspace}
    (same : ∀ ws, f ws.unnumbered = (f ws).unnumbered) : Blind (update f) :=
  alike_modify same

theorem blind_update? {f : Workspace → Except Cause Workspace}
    (same : ∀ ws, f ws.unnumbered = (f ws).map Workspace.unnumbered) : Blind (update? f) := by
  intro ws
  have read (ws : Workspace) : update? f ws =
      match f ws with
      | .ok after => .ok () after
      | .error cause => .error (.fault { cause }) ws := by
    unfold update? query
    simp only [bind, EStateM.bind, get, getThe, MonadStateOf.get, EStateM.get]
    cases f ws <;> rfl
  rw [read, read, same]
  cases f ws <;> rfl

theorem blind_record (event : Event) : Blind (record event) :=
  blind_update fun _ => rfl

theorem blind_routine (path : Path) : Blind (routine path) :=
  blind_query fun _ => rfl

theorem blind_updateRoutine (path : Path) (f : Routine → Routine) :
    Blind (updateRoutine path f) :=
  (blind_routine path).bind fun _ => blind_update fun _ => rfl

theorem Blind.locate {step : WorkM α} (h : Blind step) (index : Nat) :
    Blind (locate index step) := by
  intro ws
  unfold WorkM.locate
  rw [h ws]
  cases step ws with
  | ok => rfl
  | error _ after =>
    change EStateM.Result.error _ _ = .error (Halt.unnumbered _) _
    rw [Halt.unnumbered_locate, after.placeAt_unnumbered]

end WorkM

/-! ### Steps on a body -/

namespace BodyM

/-- A step on a body takes no notice of line numbers. -/
def Blind (step : BodyM α) : Prop :=
  ∀ body, WorkM.Blind (step body)

theorem blind_pure (a : α) : Blind (pure a) := fun _ => WorkM.blind_pure _

theorem Blind.bind {m : BodyM α} {f : α → BodyM β} (h : Blind m) (next : ∀ a, Blind (f a)) :
    Blind (m >>= f) :=
  fun body => (h body).bind fun p => next p.1 p.2

theorem blind_get : Blind (get : BodyM Body) := fun _ => WorkM.blind_pure _

theorem blind_modify (f : Body → Body) : Blind (modify f : BodyM PUnit) :=
  fun _ => WorkM.blind_pure _

theorem blind_lift {m : WorkM α} (h : WorkM.Blind m) : Blind (liftM m) :=
  fun _ => h.bind fun _ => WorkM.blind_pure _

theorem blind_fail (cause : Cause) : Blind (liftM (WorkM.fail cause : WorkM α)) :=
  blind_lift (WorkM.blind_fail cause)

theorem blind_query {f : Workspace → Except Cause α} (same : ∀ ws, f ws.unnumbered = f ws) :
    Blind (liftM (WorkM.query f)) :=
  blind_lift (WorkM.blind_query same)

/-- Reading the workspace. -/
theorem blind_read {f : Workspace → BodyM α} (same : ∀ ws, f ws.unnumbered = f ws)
    (next : ∀ ws, Blind (f ws)) : Blind (liftM (WorkM.query .ok) >>= f) := by
  intro body ws
  change f ws.unnumbered body ws.unnumbered = _
  rw [same]
  exact next ws body ws

theorem blind_emit (command : Command) : Blind (emit command) := by
  unfold emit
  split
  · exact blind_fail _
  · exact blind_modify _

theorem blind_emitAll (commands : List Command) : Blind (emitAll commands) :=
  blind_modify _

theorem blind_takePending : Blind takePending := fun _ => WorkM.blind_pure _

theorem Blind.locate {step : BodyM α} (h : Blind step) (index : Nat) : Blind (locate index step) :=
  fun body => (h body).locate index

end BodyM

end CommandPack
