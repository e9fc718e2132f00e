import CommandPack.Linking.Link
import CommandPack.Proofs.Linking.Disciplines

/-!
# What linking runs into

A linking that fails does so at a command of the workspace as it is then, and the workspace has kept
the discipline up to there. Apart from marks and placeholders that lead nowhere, a linking fails
only where it has gone too deep, or where a variant cannot be made.
-/

namespace CommandPack

open Workspace CallMark Linking
open WorkM hiding record routine updateRoutine

variable {st st' : LinkState} {halt : Halt}

/-! ### Steps that fail -/

@[simp]
theorem Linking.fails_locate {α : Type} {path : Path} {step : LinkM α} :
    Fails (locate path step) st halt st' ↔
      ∃ inner, Fails step st inner st' ∧ halt = inner.locate (st'.ws.placeOf path) := by
  unfold Fails locate
  cases step st with
  | ok => simp
  | error inner =>
    simp only [EStateM.Result.error.injEq]
    constructor
    · rintro ⟨rfl, rfl⟩
      exact ⟨inner, ⟨rfl, rfl⟩, rfl⟩
    · rintro ⟨_, ⟨rfl, rfl⟩, rfl⟩
      exact ⟨rfl, rfl⟩

namespace Linking

/-- Linking a routine fails at one of its lines. -/
theorem fails_routine {limit : Nat} {path : Path} {r : Routine} (tidy : st.Tidy)
    (found : st.ws.routines.get? path = some r)
    (failed : WorkM.Fails (routine limit path) st halt st') :
    ∃ inner, WorkM.Fails (resolveAll limit (r.commands.map (·.render st.ws.settings.pack))) st inner
      st' ∧ halt = inner.locate (st'.ws.placeOf path) := by
  simp only [routine, WorkM.fails_bind, WorkM.fails_onWorkspace, WorkM.fails_routine, found,
    reduceCtorEq, false_and, exists_false, false_or, LinkM.gives_onWorkspace, WorkM.gives_routine,
    WorkM.fails_get, WorkM.gives_get, fails_locate, LinkM.gives_locate, WorkM.fails_updateRoutine]
    at failed
  obtain ⟨_, _, ⟨_, ⟨same, rfl⟩, rfl⟩, _, _, ⟨rfl, rfl⟩, failed⟩ := failed
  cases same
  rcases failed with inside | ⟨lines, mid, given, _, ⟨missing, -⟩, -⟩
  · exact inside
  · -- a routine does not go away while its lines are resolved
    obtain ⟨r', found', -⟩ := (Moves.of_resolveAll given).moved tidy found
    rw [found'] at missing
    cases missing

/-- One round of a linking that fails. -/
theorem fails_run {limit : Nat} (tidy : st.Tidy)
    (failed : Fails (run (limit + 1)) st halt st') :
    ∃ path queue, st.queue = path :: queue ∧
      (Fails (routine limit path) (st.taking path queue) halt st' ∨
        ∃ mid, Gives (routine limit path) (st.taking path queue) () mid ∧
          Fails (run limit) mid halt st') := by
  simp only [run, fails_bind, fails_get, gives_get, false_or] at failed
  obtain ⟨_, st, ⟨rfl, rfl⟩, failed⟩ := failed
  cases waiting : st.queue with
  | nil =>
    rw [waiting] at failed
    exact absurd failed fails_pure
  | cons path queue =>
    obtain ⟨new, -⟩ := tidy.take waiting
    rw [waiting] at failed
    simp only [fails_bind, fails_set, gives_set, if_neg new,
      fails_modify, gives_modify, false_or] at failed
    obtain ⟨_, _, rfl, _, _, rfl, failed⟩ := failed
    exact ⟨path, queue, rfl, failed.imp_right fun later => later.elim fun _ later => later⟩

/-! ### Variants that cannot be made -/

section Variants

variable {ws ws' : Workspace} {callee : Path} {arguments : List String} {halt : Halt}

@[simp]
theorem fails_withSymbols {α : Type} {symbols : Symbols} {step : WorkM α} :
    Fails (withSymbols symbols step) ws halt ws' ↔
      ∃ after, Fails step { ws with symbols } halt after ∧
        ws' = { after with symbols := ws.symbols } := by
  unfold Fails withSymbols
  cases step { ws with symbols } with
  | ok => simp
  | error _ after =>
    simp only [EStateM.Result.error.injEq]
    constructor
    · rintro ⟨rfl, rfl⟩
      exact ⟨after, ⟨rfl, rfl⟩, rfl⟩
    · rintro ⟨_, ⟨rfl, rfl⟩, rfl⟩
      exact ⟨rfl, rfl⟩

/-- Why a variant cannot be made, and the workspace after that. -/
inductive Unmade (ws : Workspace) (callee : Path) (arguments : List String) :
    Halt → Workspace → Prop
  | unknown (unknown : ws.routines.get? callee = none) :
      Unmade ws callee arguments (.fault { cause := .unknownFunction callee.render }) ws
  | early {r : Routine} {text : String} (found : ws.routines.get? callee = some r)
      (none : r.template = none) :
      Unmade ws callee arguments (.fault { cause := .internal text }) ws
  | taken {r other : Routine} {template : Template} (found : ws.routines.get? callee = some r)
      (isTemplate : r.template = some template)
      (taken : ws.routines.get? (nextPath callee template) = some other) :
      Unmade ws callee arguments
        (.fault { cause := .duplicateFunction (nextPath callee template).leaf })
        (counted callee template ws)
  | inside {r : Routine} {template : Template} {after : Workspace} {halt : Halt}
      (found : ws.routines.get? callee = some r) (isTemplate : r.template = some template)
      (free : ws.routines.get? (nextPath callee template) = none)
      (failed : Fails (Lowering.compile (prepared callee r template arguments ws).nesting
        (nextPath callee template) none) (prepared callee r template arguments ws) halt after) :
      Unmade ws callee arguments halt { after with symbols := ws.symbols }

theorem unmade_of_fails (failed : WorkM.Fails (makeVariant callee arguments) ws halt ws') :
    Unmade ws callee arguments halt ws' := by
  simp only [makeVariant, WorkM.fails_bind, WorkM.fails_routine, WorkM.gives_routine] at failed
  rcases failed with ⟨unknown, rfl, rfl⟩ | ⟨r, ws, ⟨found, rfl⟩, failed⟩
  · exact .unknown unknown
  · cases isTemplate : r.template with
    | none =>
      simp only [isTemplate, WorkM.fails_fail] at failed
      obtain ⟨rfl, rfl⟩ := failed
      exact .early found isTemplate
    | some template =>
      have known (q : Path) : (∃ other, ws.routines.get? q = some other) ↔
          ∃ other, (counted callee template ws).routines.get? q = some other :=
        (knows_counted q).symm
      simp only [isTemplate, WorkM.fails_bind, WorkM.fails_updateRoutine, found, reduceCtorEq,
        false_and, false_or, WorkM.gives_updateRoutine, WorkM.fails_update?, register_eq_error,
        WorkM.gives_update?, register_eq_ok, WorkM.fails_get, WorkM.gives_get, fails_withSymbols,
        WorkM.fails_record, WorkM.fails_pure, and_false, exists_false, or_false] at failed
      obtain ⟨_, _, ⟨-, rfl⟩, failed⟩ := failed
      rcases failed with ⟨_, ⟨taken, rfl⟩, rfl, rfl⟩ |
        ⟨_, _, ⟨free, rfl⟩, _, _, ⟨rfl, rfl⟩, after, failed, rfl⟩
      · obtain ⟨other, taken⟩ := (known _).2 taken
        exact .taken found isTemplate taken
      · have free : ws.routines.get? (nextPath callee template) = none := by
          rw [← Option.map_eq_none_iff, ← get?_counted]
          exact free
        exact .inside found isTemplate free failed

end Variants

/-! ### States that keep a discipline -/

/-- A state of linking in good order, in which every variant that was made is there. -/
structure Fit (D : Discipline) (st : LinkState) : Prop where
  sound : D.Sound st.ws
  tidy : st.Tidy
  stocked : ∀ entry ∈ st.variants, st.ws.Knows entry.2

variable {D : Discipline} {st mid st' : LinkState} {command : Command} {found : Found}
  {target path : Path} {limit depth : Nat} {halt : Halt} {line' : String}
  {lines lines' : List String}

theorem Move.stocked (move : Move st st') (housed : st.ws.Housed)
    (stocked : ∀ entry ∈ st.variants, st.ws.Knows entry.2) :
    ∀ entry ∈ st'.variants, st'.ws.Knows entry.2 := by
  cases move with
  | make found isTemplate free compiled =>
    have made := made_of_ran housed found isTemplate free compiled
    intro entry mem
    rcases List.mem_cons.1 mem with rfl | old
    · obtain ⟨r, found, -⟩ := made.variant
      exact ⟨r, found⟩
    · obtain ⟨r, found⟩ := stocked entry old
      obtain ⟨template, kept, -⟩ := made.kept found
      exact ⟨_, kept⟩
  | @keep target =>
    have same : (st.keeping target).variants = st.variants := by
      unfold LinkState.keeping enqueue
      split <;> rfl
    intro entry mem
    rw [same] at mem
    obtain ⟨r, found⟩ := stocked entry mem
    rw [Knows, LinkState.ws_keeping, updateRoutine]
    exact ⟨_, by rw [Table.get?_modify, found]; rfl⟩

theorem Moves.stocked (moves : Moves st st') (tidy : st.Tidy)
    (stocked : ∀ entry ∈ st.variants, st.ws.Knows entry.2) :
    ∀ entry ∈ st'.variants, st'.ws.Knows entry.2 := by
  induction moves with
  | refl => exact stocked
  | tail earlier move ih => exact move.stocked (tidy.moves earlier).housed ih

namespace Fit

theorem moves (fit : Fit D st) (moves : Moves st st') (sound : D.Sound st'.ws) : Fit D st' :=
  ⟨sound, fit.tidy.moves moves, moves.stocked fit.tidy fit.stocked⟩

theorem take (fit : Fit D st) {queue : List Path} (waiting : st.queue = path :: queue) :
    Fit D (st.taking path queue) :=
  ⟨fit.sound, (fit.tidy.take waiting).2, fit.stocked⟩

theorem store (fit : Fit D st) (path : Path)
    (written : ∀ line ∈ lines, D.Writes st.ws (.text line)) : Fit D (st.storing path lines) where
  sound := (Discipline.Linked.store fit.sound path written).sound
  tidy := fit.tidy.store lines
  stocked entry mem := by
    obtain ⟨r, found⟩ := fit.stocked entry mem
    exact ⟨_, by rw [LinkState.storing, updateRoutine, Table.get?_modify, found]; rfl⟩

theorem callee (fit : Fit D st) (links : D.Links) (writes : D.Writes st.ws command)
    (marked : find? (command.render st.ws.settings.pack) = some found)
    (called : Gives (callee found.mark) st target mid) : Fit D mid := by
  obtain ⟨visits, finds⟩ := finds_of_callee called
  exact fit.moves (.of_callee called)
    (Discipline.Linked.finds fit.sound links writes marked finds).sound

theorem resolve (fit : Fit D st) (links : D.Links) (writes : D.Writes st.ws command)
    (given : Gives (resolve limit depth (command.render st.ws.settings.pack)) st line' st') :
    Fit D st' ∧ D.Follows st.ws st'.ws ∧ D.Writes st'.ws (.text line') := by
  obtain ⟨visits, callee, resolves⟩ := traced_resolve given
  obtain ⟨linked, written⟩ := Discipline.Linked.resolves links resolves command rfl fit.sound writes
  exact ⟨fit.moves (.of_resolve given) linked.sound, linked.course.follows, written⟩

theorem routine (fit : Fit D st) (links : D.Links)
    (given : Gives (routine limit path) st () st') : Fit D st' := by
  obtain ⟨r, lines, mid, found, resolved, -, rfl⟩ := gives_routine.1 given
  obtain ⟨visits, outs, resolves, rfl⟩ := traced_resolveAll resolved
  obtain ⟨linked, written⟩ := Discipline.Linked.resolvesAll links resolves r.commands rfl fit.sound
    (fit.sound.stored found)
  exact (fit.moves (.of_resolveAll resolved) linked.sound).store path written

theorem linkState {ws : Workspace} (sound : D.Sound ws) : Fit D ws.linkState :=
  ⟨sound, .linkState sound.housed, List.forall_mem_nil _⟩

end Fit

/-! ### Hitches -/

/-- Why a linking that keeps a discipline fails. -/
inductive Hitch (D : Discipline) : Halt → Prop
  | unbound {st : LinkState} {command : Command} {name : String} (fit : Fit D st)
      (writes : D.Writes st.ws command)
      (unmarked : find? (command.render st.ws.settings.pack) = none)
      (held : Placeholder.find? (command.render st.ws.settings.pack) = some name) :
      Hitch D (.fault { cause := .unboundString name })
  | unknown {st : LinkState} {command : Command} {found : Found} (fit : Fit D st)
      (writes : D.Writes st.ws command)
      (marked : find? (command.render st.ws.settings.pack) = some found)
      (unknown : st.ws.routines.get? found.mark.target = none) :
      Hitch D (.fault { cause := .unknownFunction found.mark.target.render })
  | deep {name : String} : Hitch D (.fault { cause := .recursion name })
  | variant {st : LinkState} {command : Command} {found : Found} {halt : Halt}
      {ws' : Workspace} (fit : Fit D st) (writes : D.Writes st.ws command)
      (marked : find? (command.render st.ws.settings.pack) = some found)
      (unmade : Unmade st.ws found.mark.target found.mark.arguments halt ws') : Hitch D halt
  | exhausted : Hitch D .exhausted
  | located {halt : Halt} (place : Place) (hitch : Hitch D halt) : Hitch D (halt.locate place)

namespace Hitch

/-- A mark that leads to nothing is one without arguments: every variant that was made is there. -/
theorem of_unknown (fit : Fit D st) (writes : D.Writes st.ws command)
    (marked : find? (command.render st.ws.settings.pack) = some found)
    (called : Gives (callee found.mark) st target mid)
    (unknown : mid.ws.routines.get? target = none) :
    Hitch D (.fault { cause := .unknownFunction target.render }) := by
  have missing : ¬ mid.ws.Knows target := by
    rintro ⟨r, known⟩
    rw [unknown] at known
    cases known
  unfold callee at called
  split_ifs at called
  · obtain ⟨rfl, rfl⟩ := gives_pure.1 called
    exact .unknown fit writes marked unknown
  · rcases gives_variantFor.1 called with ⟨listed, rfl⟩ | ⟨-, ws, made, rfl⟩
    · obtain ⟨front, back, same, -⟩ := List.lookup_eq_some_iff.1 listed
      exact absurd (fit.stocked ((found.mark.target, found.mark.arguments), target) (by simp [same]))
        missing
    · obtain ⟨r, known, -⟩ := (made_of_makeVariant fit.tidy.housed made).variant
      exact absurd ⟨r, known⟩ missing

theorem of_resolve (links : D.Links) (fit : Fit D st) (writes : D.Writes st.ws command)
    (failed : Fails (resolve limit depth (command.render st.ws.settings.pack)) st halt
      st') : Hitch D halt := by
  induction limit generalizing depth command st with
  | zero =>
    rw [resolve, fails_throw] at failed
    rw [failed.1]
    exact .exhausted
  | succ _ ih =>
    cases trouble_of_fails failed with
    | unbound unmarked held => exact .unbound fit writes unmarked held
    | deep => exact .deep
    | variant marked _ _ _ unmade => exact .variant fit writes marked (unmade_of_fails unmade)
    | unknown marked _ called unknown => exact .of_unknown fit writes marked called unknown
    | inside marked _ called known commands inside =>
      have fit := fit.callee links writes marked called
      exact ih fit (fit.sound.stored known _ (commands ▸ .head _)) inside

theorem of_resolveAll (links : D.Links) {commands : List Command} (fit : Fit D st)
    (writes : ∀ command ∈ commands, D.Writes st.ws command)
    (failed : Fails (resolveAll limit (commands.map (·.render st.ws.settings.pack))) st halt
      st') : Hitch D halt := by
  induction commands generalizing st with
  | nil => exact absurd failed fails_pure
  | cons command _ ih =>
    simp only [List.map_cons, resolveAll, fails_bind, fails_pure, and_false,
      exists_false, or_false] at failed
    rcases failed with failed | ⟨out, mid, given, failed⟩
    · exact .of_resolve links fit (writes command (.head _)) failed
    · obtain ⟨fit', follows, -⟩ := fit.resolve links (writes command (.head _)) given
      refine ih fit' (fun command mem => follows.writes (writes command (.tail _ mem))) ?_
      rw [follows.develops.settings]
      exact failed

theorem of_routine (links : D.Links) (fit : Fit D st) (known : st.ws.Knows path)
    (failed : Fails (routine limit path) st halt st') : Hitch D halt := by
  obtain ⟨r, found⟩ := known
  obtain ⟨inner, inside, rfl⟩ := fails_routine fit.tidy found failed
  exact .located _ (.of_resolveAll links fit (fit.sound.stored found) inside)

theorem of_run (links : D.Links) (fit : Fit D st)
    (failed : Fails (run limit) st halt st') : Hitch D halt := by
  induction limit generalizing st with
  | zero =>
    rw [run, fails_throw] at failed
    rw [failed.1]
    exact .exhausted
  | succ _ ih =>
    obtain ⟨path, queue, waiting, failed⟩ := fails_run fit.tidy failed
    have taken := fit.take waiting
    have known : (st.taking path queue).ws.Knows path := taken.tidy.known (.inl (.head _))
    rcases failed with now | ⟨mid, given, later⟩
    · exact .of_routine links taken known now
    · exact ih (taken.routine links given) later

end Hitch

end Linking

end CommandPack
