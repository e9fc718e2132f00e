import CommandPack.Proofs.Lowering.Declaring
import CommandPack.Proofs.Lowering.Disciplines
import CommandPack.Proofs.Lowering.Visits

/-!
# Variables in their scopes

A variable belongs to the routine whose line declares it and is visible in all routines inside
that one. If this is the first routine of a block, then the variable is visible in the rest of
the block, however often the block goes on in a guarded one. A variable that a guarded block
declares is lost in the next guarded block, which stands beside it.
-/

namespace CommandPack

open Workspace BodyM Lowering Statement Block

variable {block path scope : Path} {source : String → Prop} {calls : Prop} {c c' start stop : Stage}
  {self : Routine} {index : Nat} {x : String} {old ws ws' : Workspace} {body : Body} {task : Task}
  {visits : List Visit} {line : Line}

/-! ### Every declared name is the name of a routine's variable -/

namespace Path

variable {root : String} {path path' : Path} {name name' : String}

/-- A declared name has one scope only. -/
theorem qualify_injective (h : path.Below root) (h' : path'.Below root)
    (dotless : '.' ∉ Text.chars name) (dotless' : '.' ∉ Text.chars name')
    (same : path.qualify name = path'.qualify name') : path = path' ∧ name = name' := by
  rw [← render_child h.ne_nil, ← render_child h'.ne_nil] at same
  exact child_injective (render_injective (h.child dotless) (h'.child dotless') same)

end Path

namespace Workspace

variable {ws ws' : Workspace} {name : String}

/-- The name of a variable of a routine. -/
def Scopes (ws : Workspace) (name : String) : Prop :=
  ∃ path r own, ws.routines.get? path = some r ∧ '.' ∉ Text.chars own ∧ name = path.qualify own

theorem Scopes.mono (h : ws.Scopes name) (develops : ws.Develops ws') : ws'.Scopes name := by
  obtain ⟨path, r, own, found, dotless, rfl⟩ := h
  obtain ⟨r', found', _⟩ := develops.kept found
  exact ⟨path, r', own, found', dotless, rfl⟩

/-- Declared names and parameters belong to routines. -/
structure Scoped (ws : Workspace) : Prop where
  declared {name : String} : ws.symbols.contains name = true → ws.Scopes name
  params {path : Path} {r : Routine} : ws.routines.get? path = some r →
    ∀ name ∈ paramPaths r, ws.Scopes name

end Workspace

/-- Every name that is declared belongs to a routine. -/
def Discipline.ByEffect.scoping : ByEffect where
  Holds ws := ws.Scoped
  effect {self calls start stop} scopes housed has h := by
    have kept := Effects.kept_of_effect h
    have develops := kept.alike.develops
    refine ⟨⟨fun {name} found => ?_, fun found name mem => ?_⟩, trivial⟩
    · -- only declarations add names, and they are those of this routine
      obtain ⟨kind, found⟩ := Symbols.contains_iff.1 found
      refine Scopes.mono ?_ develops
      rcases h.target found with old | target
      · exact scopes.declared (Symbols.contains_iff.2 ⟨kind, old⟩)
      · obtain ⟨r, foundSelf, _⟩ := has
        cases target with
        | own valid fresh => exact ⟨self.path, r, _, foundSelf, Name.dot_not_mem valid, rfl⟩
        | declared _ resolved => exact scopes.declared (contains_of_resolve? resolved)
    · rw [kept.routines] at found
      exact (scopes.params found name mem).mono develops
  enter {self ws ws'} scopes housed foundSelf _ enters := by
    obtain ⟨develops, _, _⟩ := enters.housed housed ⟨self, foundSelf, rfl⟩
    refine ⟨fun {name} found => ?_, fun {path r} found name mem => ?_⟩
    · rcases enters.contains_iff.1 found with param | found
      · exact (scopes.params foundSelf name param).mono develops
      · exact (scopes.declared found).mono develops
    · rcases enters.adds found with old | ⟨_, i, line, signature, _, _, parsed, hpath, rfl⟩
      · exact (scopes.params old name mem).mono develops
      · simp only [paramPaths, declaredParams, Definition.routine,
          RoutineKind.bindsParams, if_true, List.map_map, List.map_nil, List.append_nil,
          List.mem_map, Function.comp_apply] at mem
        obtain ⟨param, mem, rfl⟩ := mem
        exact ⟨_, _, param.name, hpath ▸ found,
          Name.dot_not_mem (Signature.isVariable_of_parse parsed param mem), rfl⟩
  release {ws locals} scopes := by
    have develops := (releaseLocals_alike locals ws).develops
    refine ⟨fun found => (scopes.declared (contains_releaseLocals.1 found)).mono develops,
      fun found name mem => ?_⟩
    rw [(releaseLocals_kept ..).1] at found
    exact (scopes.params found name mem).mono develops
  stable {ws ws'} scopes same develops origins := by
    have symbols : ws'.base.symbols = ws.base.symbols := by rw [same]
    change ws'.symbols = ws.symbols at symbols
    refine ⟨fun found => ?_, fun {path r'} found name mem => ?_⟩
    · rw [symbols] at found
      exact (scopes.declared found).mono develops
    · rcases origins path r' found with ⟨r, old, origin⟩ | ⟨_, params, bindings⟩
      · rw [paramPaths_of_origin origin] at mem
        exact (scopes.params old name mem).mono develops
      · simp [paramPaths, declaredParams, params, bindings] at mem

/-! ### A declaration that stays visible -/

/-- A variable is declared in a routine, and no guarded block inside that routine declares a
variable with the same name. Only the blocks that are new since an earlier moment count. -/
structure Declared (home : Path) (x : String) (old ws : Workspace) : Prop where
  here : ws.symbols.contains (home.qualify x) = true
  inner {q : Path} : q.Below ws.settings.root → home.segments <+: q.segments →
    home.segments.length < q.segments.length →
    (∀ r, ws.routines.get? q = some r → r.kind.isGuard = true) → old.routines.get? q = none →
    ws.symbols.contains (q.qualify x) = false

namespace Declared

variable {home scope : Path} {x : String} {old ws ws' : Workspace} {self : Routine}

/-- The name is not free inside the routine. -/
theorem resolve?_ne_none (h : Declared home x old ws) (valid : Name.isVariable x = true)
    (some' : home.segments ≠ []) (inside : home.segments <+: scope.segments) :
    ws.resolve? scope x ≠ none := by
  have ne : x ≠ "" := by
    rintro rfl
    cases valid
  rw [Workspace.resolve?, Symbols.resolve?, if_neg ne, Ne, List.find?_eq_none]
  intro none
  refine none (home.qualify x) ?_ h.here
  exact List.mem_map.2 ⟨home.segments, Path.mem_initials.2 ⟨some', inside⟩, rfl⟩

/-- The name stands for the declared variable in the routines of the block that lie inside its
routine and are new. -/
theorem resolves (h : Declared home x old ws) (valid : Name.isVariable x = true)
    (housed : ws.Housed) (has : ws.Has self) (within : self.Within block ws)
    (outer : block.segments <+: home.segments) (inside : home.segments <+: self.path.segments)
    (new : ∀ q : Path, q.segments <+: self.path.segments →
      home.segments.length < q.segments.length → old.routines.get? q = none) :
    ws.resolve? self.path x = some (home.qualify x) := by
  have ne : x ≠ "" := by
    rintro rfl
    cases valid
  have some' : home.segments ≠ [] := fun none => within.some' (List.prefix_nil.1 (none ▸ outer))
  rw [Workspace.resolve?, Symbols.resolve?, if_neg ne]
  refine Path.find?_candidates inside some' h.here fun q inside' longer => ?_
  have below := has.below housed.orderly
  have someQ : q.segments ≠ [] := by
    intro none
    simp [none] at longer
  refine h.inner (below.of_shorter someQ inside')
    (List.prefix_of_prefix_length_le inside inside' (by omega)) longer (fun r found => ?_)
    (new q inside' longer)
  obtain ⟨g, foundGuard, guard⟩ :=
    within.guards q inside' (Nat.lt_of_le_of_lt outer.length_le longer)
  rw [found] at foundGuard
  cases foundGuard
  exact guard

theorem develops (h : Declared home x old ws) (develops : ws.Develops ws')
    (symbols : ws'.symbols = ws.symbols) : Declared home x old ws' where
  here := symbols ▸ h.here
  inner {q} below inside longer guards new := by
    rw [symbols]
    refine h.inner (develops.settings ▸ below) inside longer (fun r found => ?_) new
    obtain ⟨r', found', origin⟩ := develops.kept found
    rw [← Routine.kind_of_origin origin]
    exact guards r' found'

/-- Adding names of other variables and of routines that are no guarded blocks. -/
theorem of_contains (h : Declared home x old ws) (develops : ws.Develops ws')
    (keeps : ∀ name, ws.symbols.contains name = true → name = home.qualify x →
      ws'.symbols.contains name = true)
    (adds : ∀ q : Path, q.Below ws.settings.root → home.segments <+: q.segments →
      home.segments.length < q.segments.length →
      (∀ r, ws.routines.get? q = some r → r.kind.isGuard = true) →
      ws'.symbols.contains (q.qualify x) = true → ws.symbols.contains (q.qualify x) = true) :
    Declared home x old ws' where
  here := keeps _ h.here rfl
  inner {q} below inside longer guards new := by
    have below' : q.Below ws.settings.root := develops.settings ▸ below
    have guards' : ∀ r, ws.routines.get? q = some r → r.kind.isGuard = true := by
      intro r found
      obtain ⟨r', found', origin⟩ := develops.kept found
      rw [← Routine.kind_of_origin origin]
      exact guards r' found'
    rw [Bool.eq_false_iff]
    intro found
    have none := h.inner below' inside longer guards' new
    rw [adds q below' inside longer guards' found] at none
    cases none

/-- Plain statements do not declare the name again inside the routine. -/
theorem effect (h : Declared home x old start.2) (valid : Name.isVariable x = true)
    (housed : start.2.Housed) (has : start.2.Has self) (some' : home.segments ≠ [])
    (effect : Effect self source calls start stop) : Declared home x old stop.2 := by
  have kept := Effects.kept_of_effect effect
  have develops := kept.alike.develops
  refine h.of_contains develops (fun name found _ => effect.contains found)
    fun q belowQ inside _ _ found => ?_
  obtain ⟨kind, found⟩ := Symbols.contains_iff.1 found
  rcases effect.target found with old | target
  · exact Symbols.contains_iff.2 ⟨kind, old⟩
  · -- a name that this routine assigns to is declared already, or it is another name
    generalize same : q.qualify x = path at target
    cases target with
    | own valid' fresh =>
      obtain ⟨rfl, rfl⟩ := Path.qualify_injective belowQ (has.below housed.orderly)
        (Name.dot_not_mem valid) (Name.dot_not_mem valid') same
      exact absurd fresh (h.resolve?_ne_none valid some' inside)
    | declared _ resolved => exact contains_of_resolve? resolved

theorem effects (h : Declared home x old start.2) (valid : Name.isVariable x = true)
    (housed : start.2.Housed) (has : start.2.Has self) (some' : home.segments ≠ [])
    (effects : Effects self source calls start stop) : Declared home x old stop.2 := by
  induction effects with
  | refl => exact h
  | tail before effect ih =>
    have kept := Effects.kept before
    have alike := kept.alike
    exact ih.effect valid (housed.of_alike alike) (alike.develops.has has) some' effect

end Declared

/-! ### Compilations inside the routine -/

/-- The names that a body may release: those it starts with and its own variables. -/
def Locals (self : Routine) (before after : Body) : Prop :=
  ∀ name ∈ after.locals, name ∈ before.locals ∨
    ∃ own, Name.isVariable own = true ∧ name = self.path.qualify own

theorem Locals.of_eq {before after : Body} (same : after.locals = before.locals) :
    Locals self before after := fun _ mem => .inl (same ▸ mem)

theorem Locals.trans {before mid after : Body} (h : Locals self before mid)
    (h' : Locals self mid after) : Locals self before after := by
  intro name mem
  rcases h' name mem with mem | own
  · exact h name mem
  · exact .inr own

theorem Effects.locals (h : Effects self source calls start stop) : Locals self start.1 stop.1 := by
  induction h with
  | refl => exact .of_eq rfl
  | tail _ effect ih =>
    refine ih.trans ?_
    cases effect with
    | addLocal valid =>
      intro name mem
      rcases List.mem_append.1 mem with mem | mem
      · exact .inl mem
      · exact .inr ⟨_, valid, List.mem_singleton.1 mem⟩
    | _ => exact .of_eq rfl

/-- The parameters of a routine that is compiled inside another one are its own. -/
def Routine.OwnParams (routine : Routine) : Prop :=
  ∀ name ∈ paramPaths routine, routine.kind.isGuard = false ∧
    ∃ own, Name.isVariable own = true ∧ name = routine.path.qualify own

theorem Block.ownParams_routine (self : Routine) (site : Site) (role : BlockRole) (path : Path) :
    (routine self site role path).OwnParams := by
  intro name mem
  simp [paramPaths, declaredParams, routine] at mem

theorem Definition.ownParams_of_entry {home : Path} {depth : Nat} {text : String}
    {signature : Signature} {routine : Routine} (parsed : Signature.parse text = .ok signature)
    (origin : routine.origin = Definition.entry home depth index signature) :
    routine.OwnParams := by
  have same : routine.origin = (Definition.entry home depth index signature).origin := origin
  intro name mem
  rw [paramPaths_of_origin same] at mem
  simp only [paramPaths, declaredParams, Definition.entry,
    RoutineKind.bindsParams, if_true, List.map_map, List.map_nil, List.append_nil, List.mem_map,
    Function.comp_apply] at mem
  obtain ⟨param, mem, rfl⟩ := mem
  refine ⟨by rw [Routine.kind_of_origin same]; rfl, param.name,
    Signature.isVariable_of_parse parsed param mem, ?_⟩
  rw [Routine.path_of_origin same]
  rfl

/-- Entering a routine inside another one. -/
theorem Declared.enters {home : Path} (h : Declared home x old ws)
    (valid : Name.isVariable x = true) (housed : ws.Housed)
    (found : ws.routines.get? self.path = some self) (params : self.OwnParams)
    (enters : Enters self ws ws') : Declared home x old ws' := by
  obtain ⟨develops, _, _⟩ := enters.housed housed ⟨self, found, rfl⟩
  refine h.of_contains develops (fun name found _ => enters.contains_iff.2 (.inr found)) ?_
  intro q below _ _ guards contained
  rcases enters.contains_iff.1 contained with param | old
  · obtain ⟨other, own, valid', same⟩ := params _ param
    obtain ⟨rfl, _⟩ := Path.qualify_injective below (housed.orderly.below found)
      (Name.dot_not_mem valid) (Name.dot_not_mem valid') same
    have guard := guards self found
    rw [other] at guard
    cases guard
  · exact old

/-- Leaving a routine inside another one. -/
theorem Declared.release {home : Path} (h : Declared home x old ws)
    (valid : Name.isVariable x = true) (housed : ws.Housed) (has : ws.Has self)
    (belowHome : home.Below ws.settings.root) (params : self.OwnParams) (other : self.path ≠ home)
    (locals : Locals self { locals := paramPaths self } body) :
    Declared home x old (releaseLocals ws body.locals) := by
  have below := has.below housed.orderly
  -- all that is released belongs to the inner routine
  have own : ∀ name ∈ body.locals, ∃ own, Name.isVariable own = true ∧
      name = self.path.qualify own := by
    intro name mem
    rcases locals name mem with param | own
    · exact (params name param).2
    · exact own
  refine h.of_contains (releaseLocals_alike ..).develops (fun name found same => ?_)
    fun q _ _ _ _ found => contains_releaseLocals.1 found
  refine contains_releaseLocals.2 found fun mem => ?_
  obtain ⟨own, valid', hname⟩ := own name mem
  obtain ⟨same, _⟩ := Path.qualify_injective belowHome below (Name.dot_not_mem valid)
    (Name.dot_not_mem valid') (same.symm.trans hname)
  exact other same.symm

/-- The routine of a variable and a block that is compiled meanwhile: the block lies inside the
routine, unless this is a guarded block. -/
def Meanwhile (home block : Path) (ws : Workspace) : Prop :=
  ∃ r, ws.routines.get? home = some r ∧
    (r.kind.isGuard = false → home.segments <+: block.segments)

theorem Meanwhile.mono {home : Path} (h : Meanwhile home block ws) (develops : ws.Develops ws') :
    Meanwhile home block ws' := by
  obtain ⟨r, found, inside⟩ := h
  obtain ⟨r', found', origin⟩ := develops.kept found
  exact ⟨r', found', Routine.kind_of_origin origin ▸ inside⟩

theorem Meanwhile.inner {home block inner : Path} {ws : Workspace} (h : Meanwhile home block ws)
    (longer : block.segments <+: inner.segments) : Meanwhile home inner ws := by
  obtain ⟨r, found, inside⟩ := h
  exact ⟨r, found, fun other => (inside other).trans longer⟩

theorem Meanwhile.ne {home : Path} (h : Meanwhile home block ws)
    (free : ws.routines.get? path = none) : path ≠ home := by
  obtain ⟨r, found, _⟩ := h
  rintro rfl
  rw [free] at found
  cases found

/-- A body releases its own variables only. -/
theorem Ran.locals (ran : Ran task c visits c') :
    ∀ self, task.self? = some self → Locals self c.1 c'.1 := by
  induction ran with
  | skip | run => rintro _ ⟨⟩
  | nil | leave | quiet | exit | next | defer | define | unguarded =>
    exact fun _ _ => .of_eq rfl
  | deeper _ _ ih => exact ih
  | @step self _ _ _ _ body mid _ _ st _ _ _ _ _ _ _ _ ihStatement ihAfter =>
    rintro _ ⟨⟩
    have same : (if st.continuesChain then mid else { mid with previous := none }).locals =
        mid.locals := by
      split <;> rfl
    have first : Locals self body mid := ihStatement self rfl
    exact (first.trans (.of_eq same)).trans (ihAfter self rfl)
  | plain plain calls gives =>
    rintro _ ⟨⟩
    exact (effects_plain plain calls gives).locals
  | block _ _ _ _ heads _ _ ihRest =>
    rintro _ ⟨⟩
    obtain ⟨_, _, _, locals, _⟩ := heads.reworks
    exact (Locals.of_eq locals).trans (ihRest _ rfl)
  | guarded _ _ _ _ hasking _ _ _ _ hmid =>
    intro _ _
    rw [hmid, hasking]
    split <;> exact .of_eq rfl

/-- A part of a compilation that does not end the routine of a variable. -/
def Task.Inner (home : Path) (ws : Workspace) : Task → Prop
  | .routine path _ => path ≠ home ∧
      ∀ self, ws.routines.get? path = some self → self.OwnParams
  | _ => True

theorem Block.ownParams_opened {site : Site} {role : BlockRole} : ∀ routine,
      (opened self site role path ws).routines.get? path = some routine →
        routine.OwnParams := by
  intro routine found
  cases get?_opened_self.symm.trans found
  exact ownParams_routine self site role path

/-- A variable stays declared while a part of a compilation runs that does not end its routine. -/
theorem Ran.keeps {home : Path} (valid : Name.isVariable x = true) (some' : home.segments ≠ [])
    (ran : Ran task c visits c') : ∀ {home'}, task.Sits home' c → task.Inner home c.2 →
      Meanwhile home home' c.2 → Declared home x old c.2 → Declared home x old c'.2 := by
  induction ran with
  | @skip path _ _ ws self =>
    intro home' _ _ _ h
    have alike : Alike ws (stored self {} (ws.record (.routineStarted path))) :=
      (Alike.record ws (.routineStarted path)).trans (stored_alike ..)
    exact h.develops alike.develops rfl
  | @run path _ _ result ws ws₁ _ self _ _ _ found starts _ enters lines ih =>
    rintro home' sits ⟨other, params⟩ meanwhile h
    have started := Alike.record ws (.routineStarted path)
    have hpath := sits.housed.orderly.keyed found
    obtain ⟨develops, inside⟩ := sits.enter found starts enters
    have entered := (h.develops started.develops rfl).enters valid
      (sits.housed.of_alike started) (by rw [hpath]; exact found) (params self found) enters
    have ended := ih inside trivial (meanwhile.mono develops) entered
    obtain ⟨develops₂, housed₂⟩ := inside.ran lines
    obtain ⟨r, foundHome, _⟩ := meanwhile
    have belowHome : home.Below ws₁.settings.root :=
      develops.settings ▸ sits.housed.orderly.below foundHome
    have released := ended.release valid housed₂ (develops₂.has (inside.has self rfl))
      (develops₂.settings ▸ belowHome) (params self found) (hpath ▸ other) (lines.locals self rfl)
    exact released.develops (stored_alike self result _).develops rfl
  | nil | leave | exit | next | unguarded | quiet => exact fun _ _ _ h => h
  | deeper deeper _ ih => exact fun sits => ih (sits.pass deeper.le)
  | @step self _ index line _ _ _ ws _ _ _ _ _ here _ parsed statement _ ihStatement ihAfter =>
    intro home' sits _ meanwhile h
    have record := Alike.record ws (.lineStarted self.path index line.text)
    obtain ⟨develops, next⟩ := sits.next here parsed statement
    exact ihAfter next trivial (meanwhile.mono develops) (ihStatement (sits.start here parsed)
      trivial (meanwhile.mono record.develops) (h.develops record.develops rfl))
  | plain plain calls gives =>
    intro home' sits _ _ h
    exact h.effects valid sits.housed (sits.has _ rfl) some'
      (effects_plain plain calls gives)
  | defer => exact fun _ _ _ h => h.develops (Alike.deferred ..).develops rfl
  | @define self _ _ _ ws _ callee routine _ resolved found _ compiled ih =>
    intro home' sits _ meanwhile h
    obtain ⟨begun, line, signature, parsed, hcallee, origin⟩ := sits.define resolved found
    have kind : routine.kind = .defined := congrArg Routine.kind origin
    have other : callee ≠ home := by
      rintro rfl
      obtain ⟨r, found', inside⟩ := meanwhile
      cases found.symm.trans found'
      have short := (inside (by rw [kind]; rfl)).length_le
      rw [hcallee, Path.child, List.length_append, List.length_singleton] at short
      omega
    have params : ∀ self, ws.routines.get? callee = some self → self.OwnParams := by
      intro self found'
      cases found.symm.trans found'
      exact Definition.ownParams_of_entry parsed origin
    have compiled := ih begun ⟨other, params⟩
      (meanwhile.inner (hcallee ▸ List.prefix_append _ _)) h
    exact compiled.develops (Alike.used ..).develops rfl
  | block splits hpath free compiled heads _ ihCompiled ihRest =>
    intro home' sits _ meanwhile h
    obtain ⟨opened, begun⟩ := sits.block splits hpath free
    obtain ⟨develops, onward⟩ := sits.after splits hpath free compiled heads
    obtain ⟨reworks, _⟩ := heads.reworks
    have h₁ := ihCompiled begun ⟨meanwhile.ne free, ownParams_opened⟩
      ((meanwhile.mono opened).inner (sits.prefix_block splits hpath)) (h.develops opened rfl)
    exact ihRest onward trivial (meanwhile.mono develops)
      (h₁.develops reworks.alike.develops reworks.symbols)
  | guarded _ _ _ _ _ hpath free _ _ _ ih =>
    intro home' sits _ meanwhile h
    obtain ⟨opened, begun⟩ := sits.guard hpath free
    exact ih begun ⟨meanwhile.ne free, ownParams_opened⟩ (meanwhile.mono opened)
      (h.develops opened rfl)

/-! ### The lines that see the variable -/

/-- The lines of a block that are not in a block under one of them, up to the first request. -/
def Block.reached (depth : Nat) : Nat → List Line → List (Nat × Line)
  | _, [] => []
  | index, line :: rest =>
    if line.depth < depth then []
    else if depth < line.depth then reached depth (index + 1) rest
    else (index, line) :: if line.isRequest then [] else reached depth (index + 1) rest

theorem Block.reached_beyond (depth index : Nat) (lines : List Line) :
    reached depth index lines = reached depth
      (index + size (depth + 1) lines) (lines.drop (size (depth + 1) lines)) := by
  induction lines generalizing index with
  | nil => rfl
  | cons line _ ih =>
    by_cases deeper : depth + 1 ≤ line.depth
    · rw [size_here deeper, List.drop_succ_cons, reached, if_neg (by omega),
        if_pos (by omega), ih, Nat.add_assoc, Nat.add_comm 1]
    · rw [size_up (by omega), List.drop_zero, Nat.add_zero]

/-- A variable is visible inside its routine only. -/
theorem Workspace.prefix_of_resolve? {root : String} (belowScope : scope.Below root)
    (below : path.Below root) (dotless : '.' ∉ Text.chars x)
    (h : ws.resolve? path x = some (scope.qualify x)) : scope.segments <+: path.segments := by
  rw [Workspace.resolve?, Symbols.resolve?] at h
  split at h
  · cases h
  · obtain ⟨initial, mem, same⟩ := List.mem_map.1 (List.mem_of_find?_eq_some h)
    obtain ⟨some', inside⟩ := Path.mem_initials.1 mem
    obtain ⟨rfl, _⟩ := Path.qualify_injective (below.of_shorter some' inside) belowScope dotless
      dotless same
    exact inside

/-- A line of the block of `home` is come to, and a name stands there for the variable of
`scope` if the line is compiled inside that routine, and only then. -/
def Sees (home scope : Path) (x : String) (index : Nat) (visits : List Visit) : Prop :=
  ∃ visit ∈ visits, visit.index = index ∧ home.segments <+: visit.routine.path.segments ∧
    (visit.ws.resolve? visit.routine.path x = some (scope.qualify x) ↔
      scope.segments <+: visit.routine.path.segments)

theorem Sees.mono {home : Path} {more : List Visit} (h : Sees home scope x index visits)
    (subset : visits ⊆ more) : Sees home scope x index more := by
  obtain ⟨visit, mem, seen⟩ := h
  exact ⟨visit, subset mem, seen⟩

/-- A variable of a routine of the block of `home`, seen from a routine of the same block. -/
structure Tracked (home scope : Path) (x : String) (old : Workspace) (path : Path)
    (ws : Workspace) : Prop where
  outer : home.segments <+: scope.segments
  meanwhile : Meanwhile scope home ws
  /-- The routines between the variable and this one are new. -/
  new (q : Path) : q.segments <+: path.segments →
    scope.segments.length < q.segments.length → old.routines.get? q = none
  develops : old.Develops ws
  declared : Declared scope x old ws

theorem Tracked.mono {home : Path} (h : Tracked home scope x old path ws)
    (develops : ws.Develops ws') (declared : Declared scope x old ws') :
    Tracked home scope x old path ws' :=
  { h with
    meanwhile := h.meanwhile.mono develops
    develops := h.develops.trans develops
    declared }

/-- The guarded block of a routine sees the variable too. -/
theorem Tracked.guarded {home scope guard : Path} {self : Routine} {x : String}
    {old ws : Workspace} {n : Nat} (h : Tracked home scope x old self.path ws)
    (within : self.Within home ws) (housed : ws.Housed) (has : ws.Has self)
    (hpath : guard = Block.path self .guard n) (free : ws.routines.get? guard = none) :
    Tracked home scope x old guard ws :=
  { h with
    new := by
      intro q inside longer
      obtain ⟨outer, m, hguard, _, upper⟩ := within.guard_scope housed has hpath
      rw [hguard] at inside
      rcases Path.prefix_child.1 inside with rfl | inside
      · rw [hguard] at free
        exact h.develops.free free
      · exact h.new q (inside.trans upper) longer }

/-- The lines of the block of `home` that a part of a compilation comes to, and the variable of
`scope`. -/
def Task.Seeing (home scope : Path) (x : String) (old : Workspace) :
    Task → Stage → List Visit → Stage → Prop
  | .routine path _, c, visits, _ => ∀ self, c.2.routines.get? path = some self →
      self.OwnParams → Tracked home scope x old path c.2 →
      ∀ own ∈ reached self.depth self.start (c.2.lines.drop self.start),
        Sees home scope x own.1 visits
  | .lines self _ index remaining, c, visits, _ =>
    c.1.asks = false → Tracked home scope x old self.path c.2 →
    ∀ own ∈ reached self.depth index remaining, Sees home scope x own.1 visits
  | .statement self site st, c, visits, c' => c.1.asks = false →
      Tracked home scope x old self.path c.2 → c'.1.asks = true → st.isRequest = false →
      ∀ own ∈ reached self.depth (site.index + 1) site.following,
        Sees home scope x own.1 visits
  | .rest self site _ _, c, visits, c' => c.1.asks = false →
      Tracked home scope x old self.path c.2 → c'.1.asks = true →
      ∀ own ∈ reached self.depth (site.index + 1) site.following,
        Sees home scope x own.1 visits

theorem Ran.seeing {home : Path} (valid : Name.isVariable x = true) (some' : scope.segments ≠ [])
    (ran : Ran task c visits c') : task.Sits home c → task.Seeing home scope x old c visits c' := by
  induction ran with
  | @skip _ _ _ ws self found ends =>
    intro _ self' found' _ _ own mem
    cases found.symm.trans found'
    cases hlines : ws.lines.drop self.start with
    | nil =>
      rw [hlines] at mem
      cases mem
    | cons line =>
      rw [hlines] at ends mem
      rw [Block.reached, if_pos (ends line rfl)] at mem
      cases mem
  | @run path _ _ _ ws _ _ _ _ _ _ found starts _ enters _ ih =>
    intro sits self' found' params tracked own mem
    cases found.symm.trans found'
    have started := Alike.record ws (.routineStarted path)
    have hpath := sits.housed.orderly.keyed found
    obtain ⟨develops, inside⟩ := sits.enter found starts enters
    have entered := (tracked.declared.develops started.develops rfl).enters valid
      (sits.housed.of_alike started) (by rw [hpath]; exact found) params enters
    refine ih inside rfl (hpath ▸ tracked.mono develops entered) own ?_
    rwa [← starts]
  | nil => exact fun _ _ _ own mem => nomatch mem
  | leave up =>
    intro _ _ _ own mem
    rw [Block.reached, if_pos up] at mem
    cases mem
  | deeper deeper _ ih =>
    intro sits quiet tracked own mem
    rw [Block.reached, if_neg (by omega), if_pos deeper] at mem
    exact ih (sits.pass deeper.le) quiet tracked own mem
  | quiet _ asked => exact fun _ quiet => absurd asked (by simp [quiet])
  | @step self _ index line lines _ mid ws _ st _ inside _ here goesOn parsed statement after
      ihStatement ihAfter =>
    intro sits _ tracked own mem
    have situated := sits.situated
    rw [Block.reached, if_neg (by omega), if_neg (by omega)] at mem
    rcases List.mem_cons.1 mem with rfl | mem
    · obtain ⟨r, found, _⟩ := tracked.meanwhile
      refine ⟨_, .head _, rfl, situated.within.inside, fun resolved => ?_, fun inside => ?_⟩
      · exact prefix_of_resolve? (situated.housed.orderly.below found)
          (situated.has.below situated.housed.orderly) (Name.dot_not_mem valid) resolved
      · exact tracked.declared.resolves valid situated.housed situated.has situated.within
          tracked.outer inside tracked.new
    · -- no request was made here, so the lines after this one are compiled too
      split at mem
      · cases mem
      · next noRequest =>
        have record := Alike.record ws (.lineStarted self.path index line.text)
        have tracked₀ := tracked.mono record.develops
          (tracked.declared.develops record.develops rfl)
        obtain ⟨develops, next⟩ := sits.next here parsed statement
        have isRequest : line.isRequest = st.isRequest :=
          Line.hasForm_of_classify (by simp [isRequest]) parsed
        cases asks : mid.asks with
        | false =>
          have declared := statement.keeps valid some' (sits.start here parsed) trivial
            tracked₀.meanwhile tracked₀.declared
          refine (ihAfter next (Body.asks_chained.trans asks) (tracked.mono develops declared) own
            mem).mono ?_
          exact List.subset_cons_of_subset _ (List.subset_append_right _ _)
        | true =>
          refine (ihStatement (sits.start here parsed) goesOn tracked₀ asks
            (by simpa [isRequest] using noRequest) own mem).mono ?_
          exact List.subset_cons_of_subset _ (List.subset_append_left _ _)
  | plain plain calls gives =>
    intro _ quiet _ asks
    have kept := (effects_plain plain calls gives).kept
    have still := (congrArg₂ (· || ·) kept.mayExit kept.maySkip).trans quiet
    exact absurd (still.symm.trans asks) nofun
  | exit | next => exact fun _ _ _ _ request => nomatch request
  | defer | define | unguarded => exact fun _ quiet _ asks => absurd (quiet.symm.trans asks) nofun
  | block splits hpath free compiled heads _ _ ihRest =>
    intro sits quiet tracked asks _ own mem
    obtain ⟨opened, begun⟩ := sits.block splits hpath free
    obtain ⟨develops, onward⟩ := sits.after splits hpath free compiled heads
    have declared := compiled.keeps valid some' begun
      ⟨tracked.meanwhile.ne free, Block.ownParams_opened⟩
      ((tracked.meanwhile.mono opened).inner (sits.prefix_block splits hpath))
      (tracked.declared.develops opened rfl)
    obtain ⟨reworks, exits, skips, _⟩ := heads.reworks
    refine (ihRest onward ((congrArg₂ (· || ·) exits skips).trans quiet)
      (tracked.mono develops (declared.develops reworks.alike.develops reworks.symbols)) asks
      own mem).mono ?_
    exact List.subset_append_right _ _
  | @guarded self site _ _ guard _ _ _ _ _ _ _ _ _ _ _ _ _ _ hpath free _ _ _ ih =>
    intro sits quiet tracked _ own mem
    have situated := sits.situated_rest
    obtain ⟨opened, begun⟩ := sits.guard hpath free
    obtain ⟨beyond, _⟩ := situated.placed_guard hpath free
    have tracked₀ := tracked.guarded situated.within situated.housed situated.has hpath free
    refine ih begun _ Block.get?_opened_self (Block.ownParams_routine self site .guard guard)
      (tracked₀.mono opened (tracked.declared.develops opened rfl)) own ?_
    rw [Block.reached_beyond] at mem
    rw [opened.lines, beyond]
    exact mem

/-! ### Assignments to new names -/

theorem Workspace.Scoped.effects (h : start.2.Scoped) (housed : start.2.Housed)
    (has : start.2.Has self) (effects : Effects self (fun _ => True) True start stop) :
    stop.2.Scoped := by
  induction effects with
  | refl => exact h
  | tail before effect ih =>
    have kept := Effects.kept before
    have alike := kept.alike
    exact (Discipline.ByEffect.scoping.effect ih (housed.of_alike alike)
      (alike.develops.has has) effect).1

/-- A variable that is declared in a routine is the only one with its name inside this routine,
as far as new routines go. -/
theorem Declared.of_assign {body' : Body} {value : String} {clarifier : Option String}
    (housed : ws.Housed) (has : ws.Has self) (scopes : ws.Scoped)
    (fresh : ws.resolve? self.path x = none)
    (h : Gives (Assignment.assign self x clarifier value) body ws () body' ws') :
    Declared self.path x ws ws' := by
  obtain ⟨effects, valid, declares⟩ : Effects self (fun _ => True) True (body, ws) (body', ws') ∧ _ :=
    Assignment.effects_assign trivial h
  have kept := effects.kept
  have alike := kept.alike
  refine ⟨declares fresh, fun {q} below _ _ _ new => ?_⟩
  rw [Bool.eq_false_iff]
  intro found
  obtain ⟨path, r, own, foundPath, dotless, same⟩ :=
    (scopes.effects housed has effects).declared found
  obtain ⟨rfl, _⟩ := Path.qualify_injective below
    ((housed.of_alike alike).orderly.below foundPath) (Name.dot_not_mem valid) dotless same
  rw [show ws'.routines = ws.routines from kept.routines, new] at foundPath
  cases foundPath

/-- What becomes of the variable that a line declares at the lines of its block after it. -/
def Shows (lines : List Line) (visits : List Visit) (visit : Visit) : Prop :=
  ∀ line x clarifier value, lines[visit.index]? = some line →
    form line.text = .ok (.assign x clarifier value) →
    visit.ws.resolve? visit.routine.path x = none →
    ∃ home, (visit.routine.kind.isGuard = false → home = visit.routine.path) ∧
      ∀ own ∈ reached line.depth (visit.index + 1) (lines.drop (visit.index + 1)),
        Sees home visit.routine.path x own.1 visits

theorem Shows.mono {lines : List Line} {more : List Visit} {visit : Visit}
    (h : Shows lines visits visit) (subset : visits ⊆ more) : Shows lines more visit := by
  intro line x clarifier value atLine form fresh
  obtain ⟨home, own, sees⟩ := h line x clarifier value atLine form fresh
  exact ⟨home, own, fun line mem => (sees line mem).mono subset⟩

/-- The line that declares a variable. -/
theorem Ran.shows {home : Path} {opens : Bool} {lines : List Line} {mid : Body} {ws₁ : Workspace}
    {st : Statement} {inside later : List Visit} (here : line.depth = self.depth)
    (goesOn : body.asks = false)
    (parsed : classify (ws.resolveFunction? self.path) line.text = .ok st)
    (statement : Ran (.statement self ⟨index, lines⟩ st)
      ({ body with pending := [] }, ws.record (.lineStarted self.path index line.text)) inside
      (mid, ws₁)) (after : Ran (.lines self opens (index + 1) lines)
      (if st.continuesChain then mid else { mid with previous := none }, ws₁) later c')
    (situated : Situated home self index (line :: lines) ws) (scopes : ws.Scoped) :
    Shows ws.lines later ⟨self, index, ws⟩ := by
  intro line' x clarifier value atLine form fresh
  have following : ws.lines.drop (index + 1) = lines := by
    rw [← List.drop_drop, situated.here, List.drop_one, List.tail_cons]
  obtain rfl : line = line' := by
    have first := congrArg List.head? situated.here
    rw [List.head?_drop, atLine] at first
    exact (Option.some.inj first).symm
  -- the statement is the assignment
  obtain rfl : st = .assign x clarifier value := by
    rcases form_of_classify parsed with same | ⟨_, same⟩
    · rw [form] at same
      exact (Except.ok.inj same).symm
    · rw [form] at same
      cases same
  cases statement with
  | plain plain calls gives =>
    have record := Alike.record ws (.lineStarted self.path index line.text)
    have started := situated.of_alike record
    have scopes₀ : (ws.record (.lineStarted self.path index line.text)).Scoped :=
      Discipline.ByEffect.scoping.stable scopes rfl record.develops fun _ r found =>
        .inl ⟨r, found, rfl⟩
    have kept := (effects_plain plain calls gives).kept
    have alike := kept.alike
    obtain ⟨_, valid, _⟩ : Effects self (fun _ => True) True _ _ ∧ _ :=
      Assignment.effects_assign trivial gives
    have tracked : Tracked home self.path x
        (ws.record (.lineStarted self.path index line.text)) self.path ws₁ := by
      refine ⟨situated.within.inside, ?_, fun q inside longer => ?_, alike.develops,
        .of_assign started.housed started.has scopes₀ fresh gives⟩
      · obtain ⟨r, found, origin⟩ := alike.develops.has started.has
        refine ⟨r, found, fun other => ?_⟩
        have own := situated.within.own (Routine.kind_of_origin origin ▸ other)
        exact own ▸ List.prefix_rfl
      · exact absurd inside.length_le (by omega)
    have asks : mid.asks = false :=
      (congrArg₂ (· || ·) kept.mayExit kept.maySkip).trans goesOn
    have next := (started.mono alike.develops (started.housed.of_alike alike)).next here.ge
    refine ⟨home, situated.within.own, fun own mem => ?_⟩
    rw [following, here] at mem
    exact after.seeing valid (situated.has.below situated.housed.orderly).ne_nil (.lines next)
      asks tracked own mem
  | block splits => cases splits

theorem Ran.showing (ran : Ran task c visits c') : ∀ {home}, task.Sits home c →
      (∀ visit ∈ visits, visit.ws.Scoped) → ∀ visit ∈ visits, Shows c.2.lines visits visit := by
  induction ran with
  | skip | nil | leave | quiet | plain | exit | next | defer | unguarded =>
    exact fun _ _ visit mem => nomatch mem
  | run found starts _ enters _ ih =>
    intro home sits scopes visit mem
    obtain ⟨develops, inside⟩ := sits.enter found starts enters
    exact develops.lines ▸ ih inside scopes visit mem
  | deeper deeper _ ih => exact fun sits => ih (sits.pass deeper.le)
  | @step self _ index _ lines _ _ ws _ _ _ inside later here goesOn parsed statement after
      ihStatement ihAfter =>
    intro home sits scopes visit mem
    obtain ⟨develops, next⟩ := sits.next here parsed statement
    have inner : inside ⊆ ⟨self, index, ws⟩ :: (inside ++ later) :=
      List.subset_cons_of_subset _ (List.subset_append_left _ _)
    have outer : later ⊆ ⟨self, index, ws⟩ :: (inside ++ later) :=
      List.subset_cons_of_subset _ (List.subset_append_right _ _)
    rcases List.mem_cons.1 mem with rfl | mem
    · exact (Ran.shows here goesOn parsed statement after sits.situated
        (scopes _ (.head _))).mono outer
    · rcases List.mem_append.1 mem with mem | mem
      · exact (ihStatement (sits.start here parsed) (fun v mem => scopes v (inner mem)) visit
          mem).mono inner
      · exact develops.lines ▸ (ihAfter next (fun v mem => scopes v (outer mem)) visit
          mem).mono outer
  | define resolved found _ _ ih => exact fun sits => ih (sits.define resolved found).1
  | @block _ _ _ _ _ _ _ _ _ _ _ inside later splits hpath free compiled heads _ ihCompiled
      ihRest =>
    intro home sits scopes visit mem
    obtain ⟨opened, begun⟩ := sits.block splits hpath free
    obtain ⟨develops, onward⟩ := sits.after splits hpath free compiled heads
    rcases List.mem_append.1 mem with mem | mem
    · exact (ihCompiled begun (fun v mem => scopes v (List.mem_append_left _ mem)) visit
        mem).mono (List.subset_append_left inside later)
    · exact develops.lines ▸ (ihRest onward (fun v mem => scopes v (List.mem_append_right _ mem))
        visit mem).mono (List.subset_append_right inside later)
  | guarded _ _ _ _ _ hpath free _ _ _ ih => exact fun sits => ih (sits.guard hpath free).2

/-! ### Whole programs -/

/-- Before the first line nothing is declared. -/
theorem Workspace.Unbuilt.scoped_withRoot {settings : Settings} (h : Unbuilt settings ws) :
    ws.withRoot.Scoped where
  declared {name} found := by
    rw [show ws.withRoot.symbols = {} from h.symbols] at found
    cases found
  params {path r} found name mem := by
    obtain ⟨-, rfl⟩ := h.only_root found
    cases mem

/-- A routine that is compiled comes to its first line before anything else. -/
theorem Ran.first_visit {previous : Option Chain}
    (ran : Ran (.routine path previous) (body, ws) visits c')
    (found : ws.routines.get? path = some self) (atStart : ws.lines[self.start]? = some line)
    (here : line.depth = self.depth) :
    ∃ ws₁ st following inside later c₁,
      Enters self (ws.record (.routineStarted path)) ws₁ ∧
      classify (ws₁.resolveFunction? self.path) line.text = .ok st ∧
      Ran (.statement self ⟨self.start, following⟩ st)
        ({ locals := paramPaths self, previous },
          ws₁.record (.lineStarted self.path self.start line.text)) inside c₁ ∧
      visits = ⟨self, self.start, ws₁⟩ :: (inside ++ later) := by
  cases ran with
  | skip found' ends =>
    rw [found] at found'
    cases found'
    rw [List.head?_drop, atStart] at ends
    exact absurd (ends line rfl) (by omega)
  | @run _ _ _ _ _ _ _ _ first _ _ found' starts _ enters lines =>
    rw [found] at found'
    cases found'
    obtain rfl : first = line := by
      have same := congrArg List.head? starts
      rw [List.head?_drop, atStart] at same
      exact (Option.some.inj same).symm
    cases lines with
    | leave => omega
    | quiet _ asked => cases asked
    | step _ _ parsed statement =>
      exact ⟨_, _, _, _, _, _, enters, parsed, statement, rfl⟩

/-- Nothing is declared yet at the second line of a program, if it is in the block of the first. -/
theorem Workspace.Unbuilt.blank_under_header {settings : Settings} {final : Workspace}
    {header : Line} {st : Statement} {role : BlockRole} (h : Unbuilt settings ws)
    (ran : Ran (.routine settings.rootPath none) ({}, ws.withRoot) visits ({}, final))
    (atHeader : ws.lines[0]? = some header) (outer : header.depth = 0)
    (form : form header.text = .ok st) (splits : st.role? = some role)
    (atLine : ws.lines[1]? = some line) (inner : line.depth = 1) :
    ∃ visit ∈ visits, visit.index = 1 ∧ visit.routine.kind = .block role ∧
      visit.routine.path = settings.rootPath.block role 0 ∧
      ∀ name, visit.ws.symbols.contains name = false := by
  obtain ⟨ws₁, st', following, inside, later, c₁, enters, parsed, statement, rfl⟩ :=
    ran.first_visit h.found_root atHeader outer
  obtain rfl : st' = st := by
    rcases form_of_classify parsed with same | ⟨⟨_, _, rfl⟩, same⟩
    · rw [form] at same
      exact (Except.ok.inj same).symm
    · rw [form] at same
      cases same
      cases splits
  have started := Alike.record ws.withRoot (.routineStarted settings.rootPath)
  obtain ⟨develops, _⟩ := enters.housed (h.housed_withRoot.of_alike started)
    (started.develops.has ⟨_, h.found_root, rfl⟩)
  cases statement with
  | plain plain =>
    have block : st'.isPlain = false := by
      cases st' <;> cases splits <;> rfl
    rw [block] at plain
    cases plain
  | @block _ _ _ _ path _ _ _ _ _ _ _ _ splits' hpath _ compiled =>
    rw [splits] at splits'
    cases splits'
    obtain ⟨start, depth, -, named⟩ := @Block.routine_of_role? (.ofRoot settings.rootPath)
      ⟨0, following⟩ st' role path splits
    have lines : ws₁.lines = ws.lines := develops.lines
    obtain ⟨ws₂, _, _, _, _, _, enters₂, _, _, rfl⟩ := compiled.first_visit
      Block.get?_opened_self ((congrArg (ws₁.lines[·]?) start).trans (lines ▸ atLine))
      (inner.trans depth.symm)
    refine ⟨_, .tail _ (List.mem_append_left _ (List.mem_append_left _ (.head _))), start, rfl,
      hpath.trans (named 0), fun name => Bool.eq_false_iff.2 fun found => ?_⟩
    -- neither the block nor the root has parameters, and there were no names before
    rcases enters₂.contains_iff.1 found with param | found
    · cases param
    · rcases enters.contains_iff.1 found with param | found
      · cases param
      · rw [show (ws.withRoot.record _).symbols = {} from h.symbols] at found
        cases found
  | _ => cases splits

namespace Workspace

variable {settings : Settings} {sources : List (String × String)} {ws final : Workspace}

/-- A variable that a line declares is visible at a later line of the same block, up to the first
request in the block, if and only if the later line is compiled inside the routine of the first
one. This is always so if the variable is not declared in a guarded block. -/
theorem variable_visible_in_block (read : addSources { settings } sources = .ok ws)
    (compiled : ws.compile = (.ok (), final)) :
    (∃ visits, Ran (.routine settings.rootPath none) ({}, ws.withRoot) visits ({}, final)) ∧
      ∀ visits, Ran (.routine settings.rootPath none) ({}, ws.withRoot) visits ({}, final) →
        final.starts = visits.map Visit.start ∧
        ∀ visit ∈ visits, ∀ line x clarifier value, ws.lines[visit.index]? = some line →
          Statement.form line.text = .ok (.assign x clarifier value) →
          visit.ws.resolve? visit.routine.path x = none →
          ∀ later ∈ Block.reached line.depth (visit.index + 1) (ws.lines.drop (visit.index + 1)),
            (∃ seen ∈ visits, seen.index = later.1) ∧ ∀ seen ∈ visits, seen.index = later.1 →
              (seen.ws.resolve? seen.routine.path x = some (visit.routine.path.qualify x) ↔
                visit.routine.kind.isGuard = false ∨
                  visit.routine.path.segments <+: seen.routine.path.segments) := by
  have unbuilt := unbuilt_of_addSources read
  refine ⟨unbuilt.ran compiled, fun visits ran => ?_⟩
  have started : final.starts = visits.map Visit.start := by
    rw [ran.logs.2, show ws.withRoot.starts = [] from starts_addSources read, List.nil_append]
  refine ⟨started, fun visit mem line x clarifier value atLine form fresh => ?_⟩
  obtain ⟨_, sound⟩ := unbuilt.disciplined Discipline.ByEffect.scoping.discipline unbuilt.scoped_withRoot ran
  obtain ⟨home, own, sees⟩ := ran.showing unbuilt.sits (fun visit mem => (sound visit mem).holds) visit mem
    line x clarifier value atLine form fresh
  -- no line is visited twice, so that one visit speaks for all
  obtain ⟨tour, _⟩ := ran.toured unbuilt.sits _ unbuilt.found_root
  have nodup : (visits.map Visit.index).Nodup := tour.ordered.nodup List.nodup_range'
  intro later mem
  obtain ⟨seen, memSeen, index, inside, visible⟩ := sees later mem
  refine ⟨⟨seen, memSeen, index⟩, fun seen' memSeen' index' => ?_⟩
  obtain rfl : seen' = seen :=
    List.inj_on_of_nodup_map nodup memSeen' memSeen (index'.trans index.symm)
  rw [visible]
  refine ⟨.inr, fun seesIt => seesIt.elim (fun other => ?_) id⟩
  rwa [own other] at inside

/-- A loop that goes on in two guarded blocks. -/
def split : String :=
  "while go:\n    x = 1\n    if a:\n        break\n    if b:\n        continue\n    say x"

theorem variable_visible_in_block_split :
    ∃ ws final visits, addSources {} [("", split)] = .ok ws ∧ ws.compile = (.ok (), final) ∧
      Ran (.routine ⟨["main"]⟩ none) ({}, ws.withRoot) visits ({}, final) ∧
      (∃ visit ∈ visits, visit.start = (⟨["main", "w0"]⟩, 1) ∧
        visit.ws.resolve? visit.routine.path "x" = none) ∧
      ∃ seen ∈ visits, seen.start = (⟨["main", "w0", "b2"]⟩, 6) ∧
        seen.ws.resolve? seen.routine.path "x" = some "main.w0.x" := by
  obtain ⟨ws, final, read, compiled, ⟨header, atHeader, depth₀, form₀⟩,
      ⟨line, atLine, depth₁, form₁⟩, reached, atSix⟩ : ∃ ws final,
      addSources {} [("", split)] = .ok ws ∧ ws.compile = (.ok (), final) ∧
      (∃ line ∈ ws.lines[0]?, line.depth = 0 ∧
        Statement.form line.text = .ok (.loop .holds "go")) ∧
      (∃ line ∈ ws.lines[1]?, line.depth = 1 ∧
        Statement.form line.text = .ok (.assign "x" none "1")) ∧
      (6 ∈ (Block.reached 1 2 (ws.lines.drop 2)).map Prod.fst) ∧
      ∀ start ∈ final.starts, start.2 = 6 → start = (⟨["main", "w0", "b2"]⟩, 6) := by
    decide +kernel
  obtain ⟨⟨visits, ran⟩, all⟩ := variable_visible_in_block read compiled
  obtain ⟨starts, visible⟩ := all visits ran
  obtain ⟨visit, mem, index, kind, path, blank⟩ :=
    (unbuilt_of_addSources read).blank_under_header ran atHeader depth₀ form₀ rfl atLine depth₁
  have fresh : visit.ws.resolve? visit.routine.path "x" = none := by
    rw [resolve?, Symbols.resolve?, if_neg (by decide), List.find?_eq_none]
    exact fun name _ => Bool.eq_false_iff.1 (blank name)
  obtain ⟨later, memLater, six⟩ := List.mem_map.1 reached
  have atLine' : ws.lines[visit.index]? = some line := index ▸ atLine
  obtain ⟨⟨seen, memSeen, atLater⟩, resolves⟩ := visible visit mem line "x" none "1" atLine' form₁
    fresh later (by rw [index, depth₁]; exact memLater)
  have place : seen.start = (⟨["main", "w0", "b2"]⟩, 6) :=
    atSix _ (starts ▸ List.mem_map_of_mem memSeen) (atLater.trans six)
  refine ⟨ws, final, visits, read, compiled, ran, ⟨visit, mem, Prod.ext path index, fresh⟩, seen,
    memSeen, place, ?_⟩
  rw [(resolves seen memSeen atLater).2 (.inl (by rw [kind]; rfl)), path]
  rfl

/-- A variable that a guarded block declares is lost in the next one: `x` has a slot, and the last
line of the block, which no request stands before, does not know it. -/
theorem guard_loses_variable :
    ∃ ws final, addSources {} [("",
        "while go:\n    if a:\n        break\n    x = 1\n    if b:\n        break\n    say x")] = .ok ws ∧
      ws.compile = (.ok (), final) ∧
      (∃ line ∈ ws.lines[3]?, Statement.form line.text = .ok (.assign "x" none "1") ∧
        6 ∈ (Block.reached line.depth 4 (ws.lines.drop 4)).map Prod.fst) ∧
      (⟨["main", "w0", "b1"]⟩, 3) ∈ final.starts ∧ (⟨["main", "w0", "b2"]⟩, 6) ∈ final.starts ∧
      final.resolve? ⟨["main", "w0", "b1"]⟩ "x" = some "main.w0.b1.x" ∧
      final.resolve? ⟨["main", "w0", "b2"]⟩ "x" = none ∧
      (∃ routine ∈ final.routines.get? ⟨["main", "w0", "b2"]⟩,
        Command.text "say x" ∈ routine.commands) := by
  set_option synthInstance.maxSize 256 in decide +kernel

end Workspace

end CommandPack
