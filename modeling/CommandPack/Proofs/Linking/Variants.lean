import CommandPack.Proofs.Linking.Resolving
import CommandPack.Proofs.Lowering.Breaking
import CommandPack.Proofs.Lowering.Registering

/-!
# Making variants

A variant is compiled in the middle of linking. It adds routines behind the ones that are there, no
more of them than the lines allow, and of the others it changes only the count of variants that the
template keeps.
-/

namespace CommandPack

open Workspace Linking WorkM

/-- A workspace has some routine at a path. -/
def Workspace.Knows (ws : Workspace) (path : Path) : Prop :=
  ∃ r, ws.routines.get? path = some r

namespace Linking

variable {ws ws' : Workspace} {callee path : Path} {arguments : List String} {r : Routine}
  {template : Template}

@[simp]
theorem gives_withSymbols {α : Type} {symbols : Symbols} {step : WorkM α} {a : α} :
    Gives (withSymbols symbols step) ws a ws' ↔
      ∃ after, Gives step { ws with symbols } a after ∧
        ws' = { after with symbols := ws.symbols } := by
  unfold Gives withSymbols
  cases step { ws with symbols } with
  | ok b after =>
    simp only [EStateM.Result.ok.injEq]
    constructor
    · rintro ⟨rfl, rfl⟩
      exact ⟨after, ⟨rfl, rfl⟩, rfl⟩
    · rintro ⟨_, ⟨rfl, rfl⟩, rfl⟩
      exact ⟨rfl, rfl⟩
  | error => simp

/-- Where the next variant of a template is registered. -/
def nextPath (callee : Path) (template : Template) : Path :=
  callee.block .variant template.counter

/-- The workspace with one more variant of a template counted. -/
def counted (callee : Path) (template : Template) (ws : Workspace) : Workspace :=
  ws.updateRoutine callee
    ({ · with template := some { template with counter := template.counter + 1 } })

/-- The workspace in which a variant is compiled. -/
def prepared (callee : Path) (r : Routine) (template : Template) (arguments : List String)
    (ws : Workspace) : Workspace :=
  { counted callee template ws with
    routines := (counted callee template ws).routines.insert (nextPath callee template)
      (variant r (nextPath callee template) arguments)
    symbols := template.symbols }

theorem get?_counted (q : Path) : (counted callee template ws).routines.get? q =
    (ws.routines.get? q).map fun r => if q = callee then
      { r with template := some { template with counter := template.counter + 1 } } else r :=
  Table.get?_modify ..

theorem knows_counted (q : Path) : (counted callee template ws).Knows q ↔ ws.Knows q := by
  simp [Knows, get?_counted]

theorem gives_makeVariant : Gives (makeVariant callee arguments) ws path ws' ↔
    ∃ r template after, ws.routines.get? callee = some r ∧ r.template = some template ∧
      path = nextPath callee template ∧ ws.routines.get? path = none ∧
      Gives (Lowering.compile (prepared callee r template arguments ws).nesting path none)
        (prepared callee r template arguments ws) () after ∧
      ws' = { after with symbols := ws.symbols }.record (.variantCompiled path arguments) := by
  have free (template : Template) (q : Path) :
      (counted callee template ws).routines.get? q = none ↔ ws.routines.get? q = none := by
    rw [get?_counted, Option.map_eq_none_iff]
  simp only [makeVariant, gives_bind, gives_routine]
  constructor
  · rintro ⟨r, _, ⟨found, rfl⟩, given⟩
    split at given
    · simp at given
    · next template isTemplate =>
      simp only [gives_bind, gives_updateRoutine, gives_update?,
        gives_get, gives_withSymbols, gives_record, gives_pure,
        register_eq_ok] at given
      obtain ⟨_, _, ⟨_, rfl⟩, _, _, ⟨unused, rfl⟩, _, _, ⟨rfl, rfl⟩, _, _, ⟨after, compiled, rfl⟩,
        _, _, rfl, rfl, rfl⟩ := given
      exact ⟨r, template, after, found, isTemplate, rfl, (free template _).1 unused, compiled, rfl⟩
  · rintro ⟨r, template, after, found, isTemplate, rfl, unused, compiled, rfl⟩
    refine ⟨r, ws, ⟨found, rfl⟩, ?_⟩
    rw [isTemplate]
    simp only [gives_bind, gives_updateRoutine, gives_update?,
      gives_get, gives_withSymbols, gives_record, gives_pure, register_eq_ok]
    exact ⟨(), _, ⟨⟨r, found⟩, rfl⟩, (), _, ⟨(free template _).2 unused, rfl⟩, _, _, ⟨rfl, rfl⟩,
      (), _, ⟨after, compiled, rfl⟩, (), _, rfl, rfl, rfl⟩

/-- The variant is there before it is compiled, in front of nothing. -/
theorem get?_prepared (q : Path) : (prepared callee r template arguments ws).routines.get? q =
    if q = nextPath callee template then some (variant r (nextPath callee template) arguments)
    else (counted callee template ws).routines.get? q :=
  Table.get?_insert ..

theorem alike_counted : Alike ws (counted callee template ws) :=
  .of_update callee fun _ => rfl

theorem prepared_housed (housed : ws.Housed) (found : ws.routines.get? callee = some r)
    (free : ws.routines.get? (nextPath callee template) = none) :
    ws.Develops (prepared callee r template arguments ws) ∧
      (prepared callee r template arguments ws).Housed := by
  have housed' := housed.of_alike (@alike_counted ws callee template)
  have below := housed.orderly.below found
  have free' : (counted callee template ws).routines.get?
      (variant r (nextPath callee template) arguments).path = none := by
    rw [get?_counted, Option.map_eq_none_iff]
    exact free
  have symbols : Alike { counted callee template ws with
      routines := (counted callee template ws).routines.insert (nextPath callee template)
        (variant r (nextPath callee template) arguments) }
      (prepared callee r template arguments ws) := .of_routines rfl rfl rfl
  refine ⟨alike_counted.develops.trans ((Develops.insert free').trans symbols.develops),
    Housed.of_alike (housed'.insert free' (below.child (BlockRole.dot_not_mem_segment _ _))
      ((housed.spelled found).child below.ne_nil (BlockRole.isPart_of_mem_segment _ _)) nofun
      fun _ => Block.path_guard_of_leaf fun m ends => ?_) symbols⟩
  rw [show (variant r (nextPath callee template) arguments).path =
    callee.block .variant template.counter from rfl, Path.leafBlock?, Path.block,
    Path.leaf_child] at ends
  cases BlockRole.eq_of_ofSegment? ends

/-- A variant is compiled apart from all routines that are there. -/
theorem prepared_stands {body : Body} (housed : ws.Housed)
    (found : ws.routines.get? callee = some r)
    (free : ws.routines.get? (nextPath callee template) = none) :
    (Task.routine (nextPath callee template) none).Stands ws.Knows
      (body, prepared callee r template arguments ws) := by
  obtain ⟨develops, housed'⟩ :=
    @prepared_housed ws callee arguments r template housed found free
  have unknown : ¬ ws.Knows (nextPath callee template) := by
    rintro ⟨_, known⟩
    rw [free] at known
    cases known
  have apart : (prepared callee r template arguments ws).Apart ws.Knows := by
    refine ⟨fun known => ?_, fun {q home r' name} known found' defined hq => ?_,
      fun {q next r'} found' other onward => ?_⟩
    · obtain ⟨_, known⟩ := known
      obtain ⟨r', found', _⟩ := develops.kept known
      exact ⟨r', found'⟩
    · obtain ⟨old, foundOld⟩ := known
      obtain ⟨r'', found'', origin⟩ := develops.kept foundOld
      rw [found'] at found''
      cases found''
      obtain ⟨home', name', owner, hq', foundHome, _⟩ :=
        housed.homes foundOld ((Routine.kind_of_origin origin).symm.trans defined)
      rw [hq] at hq'
      obtain ⟨rfl, -⟩ := Path.child_injective hq'
      exact ⟨owner, foundHome⟩
    · rw [get?_prepared] at found'
      split at found'
      · cases found'
        cases onward
      · exact absurd ((knows_counted q).1 ⟨r', found'⟩) other
  exact ⟨⟨_, unknown, .routine housed' (by rw [get?_prepared, if_pos rfl])
    (Routine.placed_self rfl)⟩, unknown, apart, by rintro _ ⟨⟩⟩

/-- How many routines come with a variant at most, by the number of lines. -/
def variantCost (lines : Nat) : Nat :=
  1 + (lines + lines * (2 * lines + 2))

/-- What making a variant does to a workspace. -/
structure Made (ws : Workspace) (path : Path) (ws' : Workspace) : Prop where
  housed : ws'.Housed
  develops : ws.Develops ws'
  free : ws.routines.get? path = none
  kept {q : Path} {r : Routine} : ws.routines.get? q = some r →
    ∃ template, ws'.routines.get? q = some { r with template } ∧
      template.map Template.symbols = r.template.map Template.symbols
  variant : ∃ r, ws'.routines.get? path = some r ∧ r.kind = .variant
  appends : ws.Appends (variantCost ws.lines.length) ws'
  usage : ws'.Usage ws.Knows fun _ => False

theorem prepared_kept (found : ws.routines.get? callee = some r) (isTemplate : r.template = some template)
    (free : ws.routines.get? (nextPath callee template) = none) {q : Path} {other : Routine}
    (known : ws.routines.get? q = some other) :
    ∃ template', (prepared callee r template arguments ws).routines.get? q =
        some { other with template := template' } ∧
      template'.map Template.symbols = other.template.map Template.symbols := by
  have ne : q ≠ nextPath callee template := by
    rintro rfl
    rw [free] at known
    cases known
  rw [get?_prepared, if_neg ne, get?_counted, known, Option.map_some]
  split
  · next same =>
    rw [same, found] at known
    cases known
    exact ⟨_, rfl, by rw [isTemplate]; rfl⟩
  · exact ⟨_, rfl, rfl⟩

/-- The variant of a template is compiled. -/
theorem made_of_ran {visits : List Visit} {after : Workspace} (housed : ws.Housed)
    (found : ws.routines.get? callee = some r) (isTemplate : r.template = some template)
    (free : ws.routines.get? (nextPath callee template) = none)
    (ran : Ran (.routine (nextPath callee template) none)
      ({}, prepared callee r template arguments ws) visits ({}, after)) :
    Made ws (nextPath callee template) ({ after with symbols := ws.symbols }.record
      (.variantCompiled (nextPath callee template) arguments)) := by
  have stands := @prepared_stands ws callee arguments r template {} housed found free
  obtain ⟨develops, housed'⟩ := @prepared_housed ws callee arguments r template housed found free
  have isVariant : (prepared callee r template arguments ws).routines.get?
      (nextPath callee template) = some (variant r (nextPath callee template) arguments) := by
    rw [get?_prepared, if_pos rfl]
  have sits : (Task.routine (nextPath callee template) none).Sits _
      ({}, prepared callee r template arguments ws) :=
    .routine housed' isVariant (Routine.placed_self rfl)
  obtain ⟨fenced, _⟩ := ran.fenced stands
  have recorded : Alike after
      ({ after with symbols := ws.symbols }.record
        (.variantCompiled (nextPath callee template) arguments)) := .of_routines rfl rfl rfl
  obtain ⟨develops', housedAfter⟩ := ran.housed housed' stands.has
  obtain ⟨last, foundLast, origin⟩ := develops'.kept isVariant
  have lastKind : last.kind = .variant := Routine.kind_of_origin origin
  refine ⟨housedAfter.of_alike recorded, (develops.trans develops').trans recorded.develops, free,
    fun {q r'} known => ?_, ⟨last, foundLast, lastKind⟩, ?_, ?_⟩
  · -- the new routines are compiled behind a fence
    obtain ⟨template', prepared, same⟩ := @prepared_kept ws callee arguments r template found
      isTemplate free q r' known
    exact ⟨template', (fenced.same ⟨r', known⟩).trans prepared, same⟩
  · have counts : ws.Appends 0 (counted callee template ws) :=
      .of_keys (Table.keys_modify ..)
    have registered : (counted callee template ws).Appends 1
        (prepared callee r template arguments ws) :=
      .insert (r := variant r (nextPath callee template) arguments)
        (by rw [get?_counted, Option.map_eq_none_iff]; exact free) rfl
    have inside := ran.registers sits
    obtain ⟨tour, -⟩ := ran.toured sits _ isVariant
    have few : visits.length ≤ ws.lines.length := by
      have ordered := tour.ordered.length_le
      rw [List.length_map, List.length_range'] at ordered
      refine ordered.trans ((List.takeWhile_sublist _).length_le.trans ?_)
      rw [List.length_drop]
      exact Nat.sub_le ..
    refine ((counts.trans registered).trans inside).mono (Nat.add_le_add_left ?_ 1)
    exact Nat.add_le_add_left (Nat.mul_le_mul_right _ few) _
  · have started : (prepared callee r template arguments ws).Usage ws.Knows fun _ => False := by
      have fresh {q : Path} {r' : Routine}
          (found' : (prepared callee r template arguments ws).routines.get? q = some r')
          (other : ¬ ws.Knows q) : r' = variant r (nextPath callee template) arguments := by
        rw [get?_prepared] at found'
        split at found'
        · exact (Option.some.inj found').symm
        · exact absurd ((knows_counted q).1 ⟨r', found'⟩) other
      refine ⟨fun found' other used => ?_, fun found' other isRoot => ?_,
        fun found' other isDefined => ?_, fun {q r'} found' other _ _ => ?_⟩
      · rw [fresh found' other] at used
        cases used
      · rw [fresh found' other] at isRoot
        cases isRoot
      · rw [fresh found' other] at isDefined
        cases isDefined
      · rw [get?_prepared] at found'
        split at found'
        · next same => exact ⟨callee, .variant, template.counter, same⟩
        · exact absurd ((knows_counted q).1 ⟨r', found'⟩) other
    refine Usage.of_routines (Usage.of_kind (ran.usage sits started) ?_) rfl
    intro r' found'
    rw [foundLast] at found'
    cases found'
    rw [lastKind]
    exact RoutineKind.noConfusion

theorem made_of_makeVariant (housed : ws.Housed)
    (given : Gives (makeVariant callee arguments) ws path ws') : Made ws path ws' := by
  obtain ⟨r, template, after, found, isTemplate, rfl, free, compiled, rfl⟩ :=
    gives_makeVariant.1 given
  obtain ⟨visits, ran⟩ := traced_compile _ {} compiled
  exact made_of_ran housed found isTemplate free ran

end Linking

end CommandPack
