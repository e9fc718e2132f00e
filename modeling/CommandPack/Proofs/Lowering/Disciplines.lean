import CommandPack.Proofs.Lowering.Scopes

/-!
# Disciplines

A discipline is a property of workspaces with a property of commands. A compilation declares
variables, adds routines and writes commands in a few ways, and a discipline that each of them
keeps is kept by every compilation: all commands that it stores have the property.
-/

namespace CommandPack

open Workspace BodyM Marker

variable {clauses : List Clause} {role : BlockRole} {r : Routine}

namespace Statement

/-- The text that becomes the clauses of a header. -/
def header? : Statement → Option String
  | branch clauses | otherwise clauses | loop _ clauses => some clauses
  | _ => none

/-- The clauses that a statement makes of those of its header. -/
def lead (pack : String) : Statement → List Clause → List Clause
  | .loop test _, clauses => Loop.header pack test clauses
  | .otherwise _, clauses => if Clause.renderAll pack clauses = "" then [] else clauses
  | _, clauses => clauses

/-- The texts that a statement substitutes in. -/
def texts : Statement → List String
  | assign _ _ value => [value]
  | call _ arguments => [arguments]
  | branch clauses | otherwise clauses | loop _ clauses => [clauses]
  | command text => [text]
  | _ => []

end Statement

/-- A command is in a body or waits there, and did not before. -/
def Body.Adds (body body' : Body) (command : Command) : Prop :=
  command ∈ body'.commands ++ body'.pending ∧ command ∉ body.commands ++ body.pending

namespace Workspace

/-- The tag of a marker that belongs to a routine. -/
def Tagged (ws : Workspace) (tag : String) : Prop :=
  ∃ path r, ws.routines.get? path = some r ∧
    (tag = exitTag path ∨ tag = roundTag path ∨ tag = chainTag path)

/-- A line has a given statement. -/
def States (ws : Workspace) (st : Statement) : Prop :=
  ∃ line ∈ ws.lines, ∃ resolve, Statement.classify resolve line.text = .ok st

/-- A workspace without its routines and its journal. -/
def base (ws : Workspace) : Workspace :=
  { ws with routines := {}, journal := [] }

variable {ws ws' : Workspace}

theorem Tagged.mono {tag : String} (h : ws.Tagged tag) (develops : ws.Develops ws') :
    ws'.Tagged tag := by
  obtain ⟨path, r, found, owns⟩ := h
  obtain ⟨r', found', _⟩ := develops.kept found
  exact ⟨path, r', found', owns⟩

end Workspace

/-- Every string parameter of a routine has a value. -/
def Routine.Full (routine : Routine) : Prop :=
  ∀ param ∈ Lowering.declaredParams routine, param.2 = .string →
    param.1 ∈ routine.bindings.map Prod.fst

theorem Routine.full_of_not_isTemplate {routine : Routine} (h : routine.isTemplate = false) :
    routine.Full := by
  intro param mem string
  unfold Lowering.declaredParams at mem
  split at mem
  · obtain ⟨own, inside, rfl⟩ := List.mem_map.1 mem
    rw [Routine.isTemplate, List.any_eq_false] at h
    refine absurd ?_ (h own inside)
    rw [show own.kind = .string from string]
    rfl
  · cases mem

/-- A property of workspaces that compiling keeps, and what it says about commands. -/
structure Discipline.Base where
  Holds : Workspace → Prop
  Writes : Workspace → Command → Prop := fun _ _ => True
  /-- The routines that may be compiled. -/
  Apt : Routine → Prop := Routine.Full
  apt {routine : Routine} : routine.isTemplate = false → Apt routine := by
    exact Routine.full_of_not_isTemplate
  /-- How the workspaces of a compilation follow one another. -/
  Leads : Workspace → Workspace → Prop := fun _ _ => True
  leads_refl (ws : Workspace) : Leads ws ws := by intros; trivial
  leads_trans {ws ws₁ ws' : Workspace} : Leads ws ws₁ → Leads ws₁ ws' → Leads ws ws' := by
    intros; trivial
  writes_mono {ws ws' : Workspace} {command : Command} : Writes ws command → ws.Develops ws' →
    Leads ws ws' → Writes ws' command := by intros; trivial
  /-- The variables that a definition may keep until it is called. -/
  Keeps : Workspace → Symbols → Prop := fun _ _ => True
  keeps {ws : Workspace} : Holds ws → Keeps ws ws.symbols := by intros; trivial
  keeps_mono {ws ws' : Workspace} {symbols : Symbols} : Keeps ws symbols → ws.Develops ws' →
    Leads ws ws' → Keeps ws' symbols := by intros; trivial
  markers {ws : Workspace} {tag : String} : Holds ws → ws.Housed → ws.Tagged tag →
    Writes ws (.summonMarker tag) ∧ Writes ws (.ensureMarker tag) ∧ Writes ws (.killMarker tag) := by
    intros; trivial
  enter {self : Routine} {ws ws' : Workspace} : Holds ws → ws.Housed →
    ws.routines.get? self.path = some self → Apt self → Lowering.Enters self ws ws' → Holds ws'
  enter_leads {self : Routine} {ws ws' : Workspace} : Holds ws → ws.Housed →
    ws.routines.get? self.path = some self → Apt self → Lowering.Enters self ws ws' →
    Leads ws ws' := by intros; trivial
  release {ws : Workspace} {locals : List String} : Holds ws →
    Holds (Lowering.releaseLocals ws locals)
  release_leads (ws : Workspace) (locals : List String) :
    Leads ws (Lowering.releaseLocals ws locals) := by intros; trivial
  /-- The property depends on routines only by their origins, and blocks are free. -/
  stable {ws ws' : Workspace} : Holds ws → ws'.base = ws.base → ws.Develops ws' →
    (∀ q r', ws'.routines.get? q = some r' →
      (∃ r, ws.routines.get? q = some r ∧ r'.origin = r.origin) ∨
        r'.kind.isBlock = true ∧ r'.params = [] ∧ r'.bindings = []) → Holds ws'
  stable_leads {ws ws' : Workspace} : ws'.base = ws.base → Leads ws ws' := by intros; trivial

/-- A property that every statement keeps, with a property of the commands that it writes and one of
the clauses that a block is called under. -/
structure Discipline extends Discipline.Base where
  Guards : Workspace → List Clause → Prop
  plain {compile : Compile} {self : Routine} {site : Site} {st : Statement} {body body' : Body}
    {ws ws' : Workspace} : Holds ws → ws.Housed → ws.Has self → ws.States st →
    st.isPlain = true →
    (∀ callee arguments, st = .call callee arguments → ws.isDefined callee = true) →
    Gives (Lowering.statement compile self site st) body ws () body' ws' →
    Holds ws' ∧ Leads ws ws' ∧ ∀ command, body.Adds body' command → Writes ws' command
  header {self : Routine} {st : Statement} {text : String} {clauses : List Clause}
    {body body' : Body} {ws ws' : Workspace} : Holds ws → ws.Housed → ws.Has self →
    ws.States st → st.header? = some text →
    Gives (Condition.header self.path text) body ws clauses body' ws' →
    Holds ws' ∧ Leads ws ws' ∧ (∀ command, body.Adds body' command → Writes ws' command) ∧
      Guards ws' (st.lead ws'.settings.pack clauses)
  guards_nil (ws : Workspace) : Guards ws []
  guards_marker {ws : Workspace} {tag : String} {clauses : List Clause} (wanted : Bool) : Holds ws →
    ws.Housed → ws.Tagged tag → Guards ws clauses → Guards ws (.marker wanted tag :: clauses)
  invoke {ws : Workspace} {block : Path} {r : Routine} {clauses : List Clause} : Holds ws →
    ws.Housed → ws.routines.get? block = some r → r.kind.isBlock = true → r.params = [] →
    Guards ws clauses → Writes ws (.invoke clauses ⟨block, []⟩)

/-! ### Disciplines of effects -/

/-- A property that every effect keeps, as far as the texts of the lines allow, with properties of
single commands and clauses. -/
structure Discipline.ByEffect extends Discipline.Base where
  Source : String → Prop := fun _ => True
  Tests : Workspace → Clause → Prop := fun _ _ => True
  tests_mono {ws ws' : Workspace} {clause : Clause} : Tests ws clause → ws.Develops ws' →
    Leads ws ws' → Tests ws' clause := by intros; trivial
  sources {ws : Workspace} {st : Statement} : Holds ws → ws.States st → ∀ text ∈ st.texts,
    Source text ∧ ∀ argument ∈ Argument.split text, Source argument := by
    exact fun _ _ _ _ => ⟨trivial, fun _ _ => trivial⟩
  defaults {ws : Workspace} {path : Path} {routine : Routine} {param : Param} {argument : String} :
    Holds ws → ws.routines.get? path = some routine → param ∈ routine.params →
    param.default = some argument → Source argument := by intros; trivial
  effect {self : Routine} {calls : Prop} {start stop : Stage} : Holds start.2 →
    start.2.Housed → start.2.Has self → Effect self Source calls start stop →
    Holds stop.2 ∧ Leads start.2 stop.2
  emission {self : Routine} {calls : Prop} {ws : Workspace} {command : Command} : Holds ws →
    ws.Housed → ws.Has self → Emission self Source calls ws command → Writes ws command := by
    intros; trivial
  words {self : Routine} {ws : Workspace} {argument out : String} : Holds ws → ws.Has self →
    Source argument → Substitution.substituteArgument ws self.path argument = .ok out →
    Tests ws (.words out) := by intros; trivial
  score {ws : Workspace} {path objective : String} {range : ScoreRange} : Holds ws →
    ws.objective path = .ok objective → Tests ws (.score objective range) := by intros; trivial
  keyword (ws : Workspace) : Tests ws (.words "if") ∧ Tests ws (.words "unless") := by
    intros; trivial
  marker {ws : Workspace} {tag : String} (wanted : Bool) : Holds ws → ws.Housed → ws.Tagged tag →
    Tests ws (.marker wanted tag) := by intros; trivial
  invoke {ws : Workspace} {block : Path} {r : Routine} {clauses : List Clause} : Holds ws →
    ws.Housed → ws.routines.get? block = some r → r.kind.isBlock = true → r.params = [] →
    (∀ clause ∈ clauses, Tests ws clause) → Writes ws (.invoke clauses ⟨block, []⟩) := by
    intros; trivial

namespace Discipline.ByEffect

variable {E : ByEffect} {self : Routine} {st : Statement} {ws : Workspace}

/-- What effects one after the other keep and write. -/
theorem effects {calls : Prop} {start stop : Stage} (h : Effects self E.Source calls start stop)
    (holds : E.Holds start.2) (housed : start.2.Housed) (has : start.2.Has self) :
    E.Holds stop.2 ∧ E.Leads start.2 stop.2 ∧ ∀ command ∈ stop.1.commands ++ stop.1.pending,
      command ∈ start.1.commands ++ start.1.pending ∨ E.Writes stop.2 command := by
  induction h with
  | refl => exact ⟨holds, E.leads_refl _, fun _ mem => .inl mem⟩
  | @tail mid stop before effect ih =>
    obtain ⟨holds₁, leads₁, written⟩ := ih
    have kept := Effects.kept before
    have alike := kept.alike
    have housed₁ := housed.of_alike alike
    have has₁ := alike.develops.has has
    have kept₂ := Effects.kept_of_effect effect
    have alike₂ := Alike.of_routines kept₂.routines kept₂.lines kept₂.settings
    obtain ⟨holds₂, leads₂⟩ := E.effect holds₁ housed₁ has₁ effect
    have new : ∀ command ∈ stop.1.commands ++ stop.1.pending,
        command ∈ mid.1.commands ++ mid.1.pending ∨ E.Writes stop.2 command := by
      intro command mem
      cases effect with
      | emit emission =>
        simp only [List.mem_append, List.mem_singleton] at mem ⊢
        rcases mem with (mem | rfl) | mem
        · exact .inl (.inl mem)
        · exact .inr (E.emission holds₁ housed₁ has₁ emission)
        · exact .inl (.inr mem)
      | wait _ slot slot' =>
        simp only [List.mem_append, List.mem_singleton] at mem ⊢
        rcases mem with mem | mem | rfl
        · exact .inl (.inl mem)
        · exact .inl (.inr mem)
        · refine .inr (E.emission holds₁ housed₁ has₁ (?_ : Emission self E.Source calls _ _))
          exact .combineScores slot slot'
      | _ => exact .inl mem
    refine ⟨holds₂, E.leads_trans leads₁ leads₂, fun command mem => ?_⟩
    rcases new command mem with old | writes
    · exact (written command old).imp_right (E.writes_mono · alike₂.develops leads₂)
    · exact .inr writes

/-- The texts of a plain statement. -/
theorem sources_statement (holds : E.Holds ws) (states : ws.States st)
    (calls : ∀ callee arguments, st = .call callee arguments → ws.isDefined callee = true) :
    Lowering.Sources E.Source ws st := by
  have texts := E.sources holds states
  cases st with
  | assign _ _ value => exact (texts value (.head _)).1
  | call callee arguments =>
    exact ⟨calls callee arguments rfl, (texts arguments (.head _)).2,
      fun _ _ found _ mem _ default => E.defaults holds found mem default⟩
  | command text => exact (texts text (.head _)).1
  | _ => trivial

/-- The clauses that a statement adds to its header may be tested. -/
theorem tests_lead {pack : String} (tests : ∀ clause ∈ clauses, E.Tests ws clause) :
    ∀ clause ∈ st.lead pack clauses, E.Tests ws clause := by
  have orNone {p : Prop} [Decidable p] :
      ∀ clause ∈ if p then [] else clauses, E.Tests ws clause := by
    intro clause mem
    split at mem
    · cases mem
    · exact tests clause mem
  cases st with
  | otherwise => exact orNone
  | loop test =>
    cases test with
    | holds => exact List.forall_mem_cons.2 ⟨(E.keyword ws).1, tests⟩
    | fails => exact List.forall_mem_cons.2 ⟨(E.keyword ws).2, tests⟩
    | clauses => exact orNone
  | _ => exact tests

/-- A property that effects keep is kept by statements. -/
def discipline (E : ByEffect) : Discipline where
  toBase := E.toBase
  Guards ws clauses := ∀ clause ∈ clauses, E.Tests ws clause
  plain holds housed has states plain calls gives := by
    obtain ⟨holds', leads, written⟩ := effects (Lowering.effects_statement plain
      (E.sources_statement holds states calls) (fun _ _ _ => trivial) gives) holds housed has
    exact ⟨holds', leads, fun command adds => (written command adds.1).resolve_left adds.2⟩
  header {self st text clauses body body' ws ws'} holds housed has states headed gives := by
    have texts := E.sources holds states
    have sources : ∀ argument ∈ Argument.split text, E.Source argument := by
      cases st <;> cases headed <;> exact (texts _ (.head _)).2
    obtain ⟨header, -, checked⟩ : Effects self E.Source False (body, ws) (body', ws') ∧ _ ∧ _ :=
      Condition.effects_header sources gives
    obtain ⟨holds', leads, written⟩ := effects header holds housed has
    refine ⟨holds', leads, fun command adds => (written command adds.1).resolve_left adds.2,
      tests_lead fun clause mem => ?_⟩
    have alike {start stop : Stage} (h : Effects self E.Source False start stop) :
        Alike start.2 stop.2 := .of_routines h.kept.routines h.kept.lines h.kept.settings
    cases checked clause mem with
    | words source written => exact E.words holds' ((alike header).develops.has has) source written
    | score before slot after =>
      obtain ⟨holdsMid, -⟩ := effects before holds housed has
      obtain ⟨-, later, -⟩ := effects after holdsMid (housed.of_alike (alike before))
        ((alike before).develops.has has)
      exact E.tests_mono (E.score holdsMid slot) (alike after).develops later
  guards_nil _ := List.forall_mem_nil _
  guards_marker wanted holds housed tagged tests :=
    List.forall_mem_cons.2 ⟨E.marker wanted holds housed tagged, tests⟩
  invoke := E.invoke

end Discipline.ByEffect

namespace Discipline

variable {D : Discipline} {self : Routine} {site : Site} {body body' : Body}
  {ws ws' : Workspace}

/-- A later workspace of a compilation. -/
structure Follows (D : Discipline) (ws ws' : Workspace) : Prop where
  develops : ws.Develops ws'
  leads : D.Leads ws ws'

theorem Follows.refl (ws : Workspace) : D.Follows ws ws :=
  ⟨.refl ws, D.leads_refl ws⟩

theorem Follows.trans {ws₁ : Workspace} (h : D.Follows ws ws₁) (h' : D.Follows ws₁ ws') :
    D.Follows ws ws' :=
  ⟨h.develops.trans h'.develops, D.leads_trans h.leads h'.leads⟩

/-- Only routines and the journal have changed. -/
theorem Follows.of_base (develops : ws.Develops ws') (base : ws'.base = ws.base) :
    D.Follows ws ws' :=
  ⟨develops, D.stable_leads base⟩

theorem Follows.record (ws : Workspace) (event : Event) : D.Follows ws (ws.record event) :=
  .of_base (Alike.record ws event).develops rfl

theorem Follows.update (path : Path) {f : Routine → Routine}
    (origin : ∀ r, (f r).origin = r.origin) : D.Follows ws (ws.updateRoutine path f) :=
  .of_base (Alike.of_update path origin).develops rfl

theorem Follows.release (ws : Workspace) (locals : List String) :
    D.Follows ws (Lowering.releaseLocals ws locals) :=
  ⟨(Lowering.releaseLocals_alike locals ws).develops, D.release_leads ws locals⟩

theorem Follows.stored (self : Routine) (body : Body) (ws : Workspace) :
    D.Follows ws (Lowering.stored self body ws) :=
  .of_base (Lowering.stored_alike self body ws).develops rfl

/-- The workspaces at some lines, each later than the one before it. -/
inductive Course (D : Discipline) : Workspace → List Visit → Workspace → Prop
  | done {ws ws' : Workspace} (follows : D.Follows ws ws') : Course D ws [] ws'
  | visit {ws ws' : Workspace} {visit : Visit} {visits : List Visit}
      (follows : D.Follows ws visit.ws) (later : Course D visit.ws visits ws') :
      Course D ws (visit :: visits) ws'

namespace Course

variable {ws₁ : Workspace} {visits visits' : List Visit}

theorem refl (ws : Workspace) : D.Course ws [] ws :=
  .done (.refl ws)

theorem follows (h : D.Course ws visits ws') : D.Follows ws ws' := by
  induction h with
  | done follows => exact follows
  | visit follows _ ih => exact follows.trans ih

theorem front (h : D.Course ws₁ visits ws') (before : D.Follows ws ws₁) :
    D.Course ws visits ws' := by
  cases h with
  | done follows => exact .done (before.trans follows)
  | visit follows later => exact .visit (before.trans follows) later

theorem back (h : D.Course ws visits ws₁) (after : D.Follows ws₁ ws') : D.Course ws visits ws' := by
  induction h with
  | done follows => exact .done (follows.trans after)
  | visit follows _ ih => exact .visit follows (ih after)

theorem trans (h : D.Course ws visits ws₁) (h' : D.Course ws₁ visits' ws') :
    D.Course ws (visits ++ visits') ws' := by
  induction h with
  | done follows => exact h'.front follows
  | visit follows _ ih => exact .visit follows (ih h')

end Course

/-- A workspace in the course of a compilation. Markers of loops belong to routines. -/
structure Sound (D : Discipline) (ws : Workspace) : Prop where
  housed : ws.Housed
  holds : D.Holds ws
  looped {q loop : Path} {r : Routine} : ws.routines.get? q = some r → r.loop = some loop →
    ∃ inner, ws.routines.get? loop = some inner
  deferred {q : Path} {r : Routine} {template : Template} : ws.routines.get? q = some r →
    r.template = some template → D.Keeps ws template.symbols
  stored {q : Path} {r : Routine} : ws.routines.get? q = some r →
    ∀ command ∈ r.commands, D.Writes ws command

/-- A body in the course of a compilation. -/
structure Fits (D : Discipline) (body : Body) (ws : Workspace) : Prop where
  commands : ∀ command ∈ body.commands, D.Writes ws command
  pending : ∀ command ∈ body.pending, D.Writes ws command
  chained : ∀ chain, body.previous = some chain → ws.Tagged chain.tag

theorem Follows.writes {command : Command} (h : D.Follows ws ws') (writes : D.Writes ws command) :
    D.Writes ws' command :=
  D.writes_mono writes h.develops h.leads

theorem Follows.keeps {symbols : Symbols} (h : D.Follows ws ws') (keeps : D.Keeps ws symbols) :
    D.Keeps ws' symbols :=
  D.keeps_mono keeps h.develops h.leads

theorem Fits.mono (h : D.Fits body ws) (follows : D.Follows ws ws') : D.Fits body ws' where
  commands command mem := follows.writes (h.commands command mem)
  pending command mem := follows.writes (h.pending command mem)
  chained chain previous := (h.chained chain previous).mono follows.develops

/-- Changing a routine by commands that may be written. -/
theorem Sound.of_update (h : D.Sound ws) (path : Path) (f : Routine → Routine)
    (origin : ∀ r, (f r).origin = r.origin)
    (templates : ∀ r template, (f r).template = some template →
      r.template = some template ∨ D.Keeps ws template.symbols)
    (commands : ∀ r, ∀ command ∈ (f r).commands, command ∈ r.commands ∨ D.Writes ws command) :
    Alike ws (ws.updateRoutine path f) ∧ D.Sound (ws.updateRoutine path f) := by
  have alike : Alike ws (ws.updateRoutine path f) := .of_update path origin
  have follows : D.Follows ws (ws.updateRoutine path f) := .update path origin
  refine ⟨alike, h.housed.of_alike alike,
    D.stable h.holds rfl alike.develops fun q r' found => .inl (alike.found found), ?_, ?_, ?_⟩
  · intro q loop r' found inside
    obtain ⟨r, old, same⟩ := alike.found found
    obtain ⟨inner, foundLoop⟩ := h.looped old ((Routine.loop_of_origin same).symm.trans inside)
    obtain ⟨inner', foundLoop', _⟩ := alike.develops.kept foundLoop
    exact ⟨inner', foundLoop'⟩
  · intro q r' template found kept
    obtain ⟨r, old, rfl⟩ := found_before found
    refine follows.keeps ?_
    split at kept
    · exact (templates r template kept).elim (h.deferred old) id
    · exact h.deferred old kept
  · intro q r' found command mem
    obtain ⟨r, old, rfl⟩ := found_before found
    refine follows.writes ?_
    split at mem
    · rcases commands r command mem with mem | writes
      · exact h.stored old command mem
      · exact writes
    · exact h.stored old command mem

theorem Sound.record (h : D.Sound ws) (event : Event) : D.Sound (ws.record event) where
  housed := h.housed.of_alike (.record ws event)
  holds := D.stable h.holds rfl (Alike.record ws event).develops
    fun _ r found => .inl ⟨r, found, rfl⟩
  looped := h.looped
  deferred found kept := (Follows.record ws event).keeps (h.deferred found kept)
  stored found command mem := (Follows.record ws event).writes (h.stored found command mem)

/-- A workspace with the same routines. -/
theorem Sound.of_routines (h : D.Sound ws) (holds : D.Holds ws') (alike : Alike ws ws')
    (leads : D.Leads ws ws') (routines : ws'.routines = ws.routines) : D.Sound ws' where
  housed := h.housed.of_alike alike
  holds := holds
  looped := by
    rw [routines]
    exact h.looped
  deferred {q r template} found kept := by
    rw [routines] at found
    exact D.keeps_mono (h.deferred found kept) alike.develops leads
  stored {q r} found command mem := by
    rw [routines] at found
    exact D.writes_mono (h.stored found command mem) alike.develops leads

theorem Sound.stores (h : D.Sound ws) (fits : D.Fits body ws) (self : Routine) :
    D.Sound (Lowering.stored self body ws) := by
  have recorded := h.record (.routineDone self.path body.commands.length)
  unfold Lowering.stored
  refine (recorded.of_update self.path _ ?_ ?_ fun r command mem => .inr ?_).2
  · exact fun r => rfl
  · exact fun r template kept => .inl kept
  · exact (Follows.record ..).writes (fits.commands command mem)

/-- A block that is opened. -/
theorem Sound.opened {path : Path} {n : Nat} (h : D.Sound ws) (has : ws.Has self)
    (hpath : path = Block.path self role n) (free : ws.routines.get? path = none) :
    D.Follows ws (Block.opened self site role path ws) ∧
      D.Sound (Block.opened self site role path ws) := by
  obtain ⟨develops, housed⟩ : ws.Develops (Block.opened self site role path ws) ∧ _ :=
    Block.opened_housed h.housed has hpath free
  have follows : D.Follows ws (Block.opened self site role path ws) := .of_base develops rfl
  refine ⟨follows, housed, ?_, ?_, ?_, ?_⟩
  · refine D.stable h.holds rfl develops fun q r' found => ?_
    rw [Block.get?_opened] at found
    split at found
    · cases found
      exact .inr ⟨rfl, rfl, rfl⟩
    · exact .inl ⟨r', found, rfl⟩
  · intro q loop r found inside
    have known : ∀ {inner : Path} {b : Routine}, ws.routines.get? inner = some b →
        ∃ b', (Block.opened self site role path ws).routines.get? inner = some b' := by
      intro inner b found
      obtain ⟨b', found', _⟩ := develops.kept found
      exact ⟨b', found'⟩
    rw [Block.get?_opened] at found
    split at found
    · cases found
      have inside : (if role.isLoop then some path else self.loop) = some loop := inside
      split at inside
      · cases inside
        exact ⟨_, by rw [Block.get?_opened, if_pos rfl]⟩
      · obtain ⟨r, found, origin⟩ := has
        obtain ⟨b, found⟩ := h.looped found ((Routine.loop_of_origin origin).trans inside)
        exact known found
    · obtain ⟨b, found⟩ := h.looped found inside
      exact known found
  · intro q r template found kept
    rw [Block.get?_opened] at found
    split at found
    · cases found
      cases kept
    · exact follows.keeps (h.deferred found kept)
  · intro q r found command mem
    rw [Block.get?_opened] at found
    split at found
    · cases found
      cases mem
    · exact follows.writes (h.stored found command mem)

/-- Entering a body. -/
theorem Sound.enters (h : D.Sound ws) (found : ws.routines.get? self.path = some self)
    (apt : D.Apt self) (enters : Lowering.Enters self ws ws') : D.Follows ws ws' ∧ D.Sound ws' := by
  obtain ⟨develops, housed, _⟩ := enters.housed h.housed ⟨self, found, rfl⟩
  have follows : D.Follows ws ws' := ⟨develops, D.enter_leads h.holds h.housed found apt enters⟩
  refine ⟨follows, housed, D.enter h.holds h.housed found apt enters, ?_, ?_, ?_⟩
  · intro q loop r found inside
    rcases enters.adds found with old | ⟨_, _, _, _, _, _, _, _, rfl⟩
    · obtain ⟨inner, foundLoop⟩ := h.looped old inside
      obtain ⟨inner', foundLoop', _⟩ := develops.kept foundLoop
      exact ⟨inner', foundLoop'⟩
    · cases inside
  · intro q r template found kept
    rcases enters.adds found with old | ⟨_, _, _, _, _, _, _, _, rfl⟩
    · exact follows.keeps (h.deferred old kept)
    · cases kept
  · intro q r found command mem
    rcases enters.adds found with old | ⟨_, _, _, _, _, _, _, _, rfl⟩
    · exact follows.writes (h.stored old command mem)
    · cases mem

/-! ### Plain statements and headers -/

/-- A step that leaves the routines alone and adds commands that may be written. -/
theorem Sound.of_kept (h : D.Sound ws) (fits : D.Fits body ws)
    (kept : Effects.Kept (body, ws) (body', ws')) (holds : D.Holds ws') (leads : D.Leads ws ws')
    (adds : ∀ command, body.Adds body' command → D.Writes ws' command) :
    Alike ws ws' ∧ D.Follows ws ws' ∧ D.Sound ws' ∧ D.Fits body' ws' := by
  have alike := kept.alike
  have follows : D.Follows ws ws' := ⟨alike.develops, leads⟩
  have writes : ∀ command ∈ body'.commands ++ body'.pending, D.Writes ws' command := by
    intro command mem
    by_cases old : command ∈ body.commands ++ body.pending
    · exact follows.writes ((List.mem_append.1 old).elim (fits.commands command)
        (fits.pending command))
    · exact adds command ⟨mem, old⟩
  refine ⟨alike, follows, h.of_routines holds alike leads kept.routines,
    fun command mem => writes command (List.mem_append_left _ mem),
    fun command mem => writes command (List.mem_append_right _ mem), fun chain previous => ?_⟩
  exact (fits.chained chain (kept.previous.symm.trans previous)).mono alike.develops

/-- A header leaves clauses that a block may be called under. -/
theorem Sound.header {st : Statement} {text : String} (sound : D.Sound ws) (has : ws.Has self)
    (fits : D.Fits body ws) (states : ws.States st) (headed : st.header? = some text)
    (h : Gives (Condition.header self.path text) body ws clauses body' ws') :
    Alike ws ws' ∧ D.Follows ws ws' ∧ D.Sound ws' ∧ D.Fits body' ws' ∧
      D.Guards ws' (st.lead ws'.settings.pack clauses) := by
  obtain ⟨effects, -⟩ : Effects self (fun _ => True) False (body, ws) (body', ws') ∧ _ ∧ _ :=
    Condition.effects_header (fun _ _ => trivial) h
  obtain ⟨holds, leads, adds, guards⟩ := D.header sound.holds sound.housed has states headed h
  obtain ⟨alike, follows, sound', fits'⟩ := sound.of_kept fits effects.kept holds leads adds
  exact ⟨alike, follows, sound', fits', guards⟩

/-! ### Blocks -/

/-- The tests that guard the blocks of a loop. -/
theorem Sound.absenceTests (h : D.Sound ws) {loop : Path} (found : ws.routines.get? loop = some r)
    (mayExit maySkip : Bool) (guards : D.Guards ws clauses) :
    D.Guards ws (Block.absenceTests loop mayExit maySkip ++ clauses) := by
  have tests {tag : String} {clauses : List Clause} (tagged : ws.Tagged tag) :
      D.Guards ws clauses → D.Guards ws (.marker false tag :: clauses) :=
    D.guards_marker false h.holds h.housed tagged
  have exits : ws.Tagged (exitTag loop) := ⟨loop, r, found, .inl rfl⟩
  have rounds : ws.Tagged (roundTag loop) := ⟨loop, r, found, .inr (.inl rfl)⟩
  cases mayExit <;> cases maySkip
  · exact guards
  · exact tests rounds guards
  · exact tests exits guards
  · exact tests exits (tests rounds guards)

theorem Sound.killMarkers (h : D.Sound ws) {loop : Path} (found : ws.routines.get? loop = some r)
    (mayExit maySkip : Bool) :
    ∀ command ∈ Loop.killMarkers loop mayExit maySkip, D.Writes ws command := by
  have writes (tag : String) (tagged : ws.Tagged tag) : D.Writes ws (.killMarker tag) :=
    (D.markers h.holds h.housed tagged).2.2
  have exits := writes (exitTag loop) ⟨loop, r, found, .inl rfl⟩
  have rounds := writes (roundTag loop) ⟨loop, r, found, .inr (.inl rfl)⟩
  intro command mem
  rcases List.mem_append.1 mem with mem | mem <;> split at mem <;> cases mem
  · exact exits
  · contradiction
  · exact rounds
  · contradiction

/-- Closing a loop lets its body call itself again. -/
theorem Sound.close {block : Path} {header : List Clause} {pending : List Command} {u : Unit}
    (h : D.Sound ws) (found : ws.routines.get? block = some r) (isBlock : r.kind.isBlock = true)
    (params : r.params = []) (guards : D.Guards ws header)
    (waits : ∀ command ∈ pending, D.Writes ws command)
    (gives : Gives (Loop.close block header pending) body ws u body' ws') :
    Alike ws ws' ∧ D.Follows ws ws' ∧ D.Sound ws' := by
  obtain ⟨-, rfl⟩ := Loop.eq_of_close gives
  -- both changes add the pending commands and a call of the body
  have calls {clauses : List Clause} (guards : D.Guards ws clauses) :
      ∀ command ∈ pending ++ [.invoke clauses ⟨block, []⟩], D.Writes ws command := by
    intro command mem
    rcases List.mem_append.1 mem with mem | mem
    · exact waits command mem
    · rw [List.mem_singleton.1 mem]
      exact D.invoke h.holds h.housed found isBlock params guards
  obtain ⟨alike, sound⟩ := h.of_update (Loop.tail ws ws.routines.size block)
    (fun r => { r with
      commands := r.commands ++ Code.loopTail block pending header r.mayExit r.maySkip })
    (fun r => rfl) (fun r template kept => .inl kept)
    fun r' command mem => (List.mem_append.1 mem).imp_right
      (calls (h.absenceTests found r'.mayExit r'.maySkip guards) command)
  have follows : D.Follows ws _ := .of_base alike.develops rfl
  have tagged : ws.Tagged (roundTag block) := ⟨block, r, found, .inr (.inl rfl)⟩
  have closed := sound.of_update block
    (fun r => { r with
      commands := Code.roundStart block r.maySkip ++ r.commands ++
        Code.roundAgain block pending header r.maySkip })
    (fun r => rfl) (fun r template kept => .inl kept) fun r' command mem => by
      rcases List.mem_append.1 mem with mem | mem
      · rcases List.mem_append.1 mem with mem | mem
        · rw [Code.roundStart] at mem
          split at mem
          · rw [List.mem_singleton.1 mem]
            exact .inr (follows.writes (D.markers h.holds h.housed tagged).2.2)
          · cases mem
        · exact .inl mem
      · rw [Code.roundAgain] at mem
        split at mem
        · exact .inr (follows.writes
            (calls (D.guards_marker true h.holds h.housed tagged guards) command mem))
        · cases mem
  exact ⟨alike.trans closed.1, follows.trans (.of_base closed.1.develops rfl), closed.2⟩

/-- A branch of an `else` chain leaves its marker. -/
theorem Sound.ensures (h : D.Sound ws) {tag : String} (tagged : ws.Tagged tag) (branch : Path) :
    Alike ws (ws.updateRoutine branch fun r =>
        { r with commands := .ensureMarker tag :: r.commands }) ∧
      D.Sound (ws.updateRoutine branch fun r =>
        { r with commands := .ensureMarker tag :: r.commands }) := by
  refine h.of_update branch _ ?_ ?_ fun r command mem => ?_
  · exact fun r => rfl
  · exact fun r template kept => .inl kept
  · rcases List.mem_cons.1 mem with rfl | mem
    · exact .inr (D.markers h.holds h.housed tagged).2.1
    · exact .inl mem

/-- What a statement does with a block that it has split off. -/
theorem Sound.heads {block : Path} {st : Statement} {c c' : Stage} (h : D.Sound c.2)
    (has : c.2.Has self) (fits : D.Fits c.1 c.2) (found : c.2.routines.get? block = some r)
    (isBlock : r.kind.isBlock = true) (params : r.params = []) (states : c.2.States st)
    (heads : Block.Heads self block st c c') :
    D.Follows c.2 c'.2 ∧ D.Sound c'.2 ∧ D.Fits c'.1 c'.2 := by
  have chain : c.2.Tagged (chainTag block) := ⟨block, r, found, .inr (.inr rfl)⟩
  -- the routine of the block is there whatever the header does
  have still {ws' : Workspace} (alike : Alike c.2 ws') : ∃ r', ws'.routines.get? block = some r' ∧
      r'.kind.isBlock = true ∧ r'.params = [] := by
    obtain ⟨r', found', origin⟩ := alike.develops.kept found
    exact ⟨r', found', by rw [Routine.kind_of_origin origin, isBlock],
      (Routine.params_of_origin origin).trans params⟩
  cases heads with
  | @branch _ _ _ _ _ header _ _ headed opens marks =>
    obtain ⟨alike, follows, sound', fits', guards⟩ := h.header has fits states rfl headed
    obtain ⟨r', found', isBlock', params'⟩ := still alike
    have call := D.invoke sound'.holds sound'.housed found' isBlock' params' guards
    refine ⟨follows, sound', fun command mem => ?_, nofun, fun chain' hchain => ?_⟩
    · simp only [List.mem_append, List.mem_singleton] at mem
      rcases mem with mem | mem | mem | rfl
      · exact fits'.commands command mem
      · rcases opens with rfl | rfl
        · rw [List.mem_singleton.1 mem]
          exact (D.markers sound'.holds sound'.housed (chain.mono alike.develops)).2.2
        · cases mem
      · exact fits'.pending command mem
      · exact call
    · cases hchain
      rw [Chain.tag, marks]
      exact chain.mono alike.develops
  | @otherwise _ _ _ ws _ previous header _ chained headed closing =>
    have tagged := fits.chained previous chained
    obtain ⟨alike₁, sound₁⟩ := h.ensures tagged previous.branch
    have follows₁ : D.Follows ws _ := .of_base alike₁.develops rfl
    obtain ⟨alike, follows, sound', fits', guards⟩ := sound₁.header (alike₁.develops.has has)
      (fits.mono follows₁) states rfl headed
    have develops := (alike₁.trans alike).develops
    obtain ⟨r', found', isBlock', params'⟩ := still (alike₁.trans alike)
    have tagged' := tagged.mono develops
    refine ⟨follows₁.trans follows, sound', fun command mem => ?_, nofun, fun chain' hchain => ?_⟩
    · simp only [List.mem_append, List.mem_cons] at mem
      rcases mem with mem | mem | rfl | mem
      · exact fits'.commands command mem
      · exact fits'.pending command mem
      · exact D.invoke sound'.holds sound'.housed found' isBlock' params'
          (D.guards_marker false sound'.holds sound'.housed tagged' guards)
      · rcases closing with rfl | rfl
        · cases mem
        · rw [List.mem_singleton.1 mem]
          exact (D.markers sound'.holds sound'.housed tagged').2.2
    · cases hchain
      exact tagged'
  | @times _ _ _ ws inner =>
    have guards := h.absenceTests found inner.mayExit false (D.guards_nil ws)
    rw [List.append_nil] at guards
    have call := D.invoke h.holds h.housed found isBlock params guards
    obtain ⟨follows, sound'⟩ : D.Follows ws (if inner.maySkip then
          ws.updateRoutine block fun r =>
            { r with commands := .killMarker (roundTag block) :: r.commands }
        else ws) ∧ D.Sound (if inner.maySkip then
          ws.updateRoutine block fun r =>
            { r with commands := .killMarker (roundTag block) :: r.commands }
        else ws) := by
      split
      · obtain ⟨alike, sound⟩ := h.of_update block
          (fun r => { r with commands := .killMarker (roundTag block) :: r.commands })
          (fun r => rfl) (fun r template kept => .inl kept) fun r' command mem => by
            rcases List.mem_cons.1 mem with rfl | mem
            · exact .inr
                (D.markers h.holds h.housed ⟨block, r, found, .inr (.inl rfl)⟩).2.2
            · exact .inl mem
        exact ⟨.of_base alike.develops rfl, sound⟩
      · exact ⟨.refl ws, h⟩
    refine ⟨follows, sound', ?_⟩
    refine Fits.mono ⟨fun command mem => ?_, fits.pending, fits.chained⟩ follows
    simp only [List.mem_append, List.mem_replicate] at mem
    rcases mem with mem | ⟨_, rfl⟩ | mem
    · exact fits.commands command mem
    · exact call
    · exact h.killMarkers found inner.mayExit inner.maySkip command mem
  | @loop _ _ _ _ _ _ _ _ _ inner headed closes =>
    obtain ⟨alike, follows, sound₁, fits₁, guards⟩ := h.header has fits states rfl headed
    obtain ⟨r₁, found₁, isBlock₁, params₁⟩ := still alike
    obtain ⟨rfl, _⟩ := Loop.close_reworks closes
    obtain ⟨_, follows', sound'⟩ := sound₁.close found₁ isBlock₁ params₁ guards fits₁.pending closes
    have call := D.invoke sound₁.holds sound₁.housed found₁ isBlock₁ params₁ guards
    refine ⟨follows.trans follows', sound',
      Fits.mono ⟨fun command mem => ?_, nofun, fits₁.chained⟩ follows'⟩
    simp only [List.mem_append, List.mem_singleton] at mem
    rcases mem with (mem | mem | rfl) | mem
    · exact fits₁.commands command mem
    · exact fits₁.pending command mem
    · exact call
    · exact sound₁.killMarkers found₁ inner.mayExit inner.maySkip command mem

/-! ### Compilations -/

/-- What a part of a compilation starts from: a routine that may be compiled and a chain with a
marker, or lines of the sources. -/
def Starts (D : Discipline) (ws : Workspace) : Task → Prop
  | .routine path previous => (∀ self, ws.routines.get? path = some self → D.Apt self) ∧
    ∀ chain, previous = some chain → ws.Tagged chain.tag
  | .lines _ _ _ lines => ∀ line ∈ lines, line ∈ ws.lines
  | .statement self _ st =>
    ∃ line ∈ ws.lines, Statement.classify (ws.resolveFunction? self.path) line.text = .ok st
  | .rest .. => True

theorem apt_opened {path : Path} :
    ∀ routine, (Block.opened self site role path ws).routines.get? path = some routine →
      D.Apt routine := by
  intro routine found
  rw [Block.get?_opened, if_pos rfl] at found
  cases found
  exact D.apt rfl

/-- A part of a compilation is about to begin under a discipline. -/
structure Ready (D : Discipline) (task : Task) (c : Stage) : Prop where
  has : ∀ self, task.self? = some self → c.2.Has self
  starts : D.Starts c.2 task
  sound : D.Sound c.2
  fits : D.Fits c.1 c.2

namespace Ready

variable {path : Path} {previous : Option Chain} {index : Nat} {opens opens' : Bool}
  {line : Line} {lines : List Line} {st : Statement} {mid : Body} {ws₁ : Workspace}

/-- The lines of a routine, once its definitions are registered. -/
theorem enter (h : D.Ready (.routine path previous) (body, ws))
    (found : ws.routines.get? path = some self)
    (enters : Lowering.Enters self (ws.record (.routineStarted path)) ws₁) :
    D.Follows ws ws₁ ∧ D.Ready (.lines self opens self.start (ws.lines.drop self.start))
      ({ locals := Lowering.paramPaths self, previous }, ws₁) := by
  obtain ⟨apt, chained⟩ := h.starts
  have found' : ws.routines.get? self.path = some self := by
    rw [h.sound.housed.orderly.keyed found, found]
  obtain ⟨entered, sound⟩ :=
    (h.sound.record (.routineStarted path)).enters found' (apt self found) enters
  have follows := (Follows.record ws (.routineStarted path)).trans entered
  refine ⟨follows, ?_, fun line mem => ?_, sound, nofun, nofun,
    fun chain hchain => (chained chain hchain).mono follows.develops⟩
  · rintro _ ⟨⟩
    exact follows.develops.has ⟨self, found', rfl⟩
  · rw [follows.develops.lines]
    exact List.mem_of_mem_drop mem

/-- The lines after one that is not compiled. -/
theorem skip {c : Stage} (h : D.Ready (.lines self opens index (line :: lines)) c) :
    D.Ready (.lines self opens' (index + 1) lines) c :=
  ⟨h.has, fun own mem => h.starts own (.tail _ mem), h.sound, h.fits⟩

/-- The statement of a line. -/
theorem start (h : D.Ready (.lines self opens index (line :: lines)) (body, ws))
    (parsed : Statement.classify (ws.resolveFunction? self.path) line.text = .ok st) :
    D.Ready (.statement self ⟨index, lines⟩ st)
      ({ body with pending := [] }, ws.record (.lineStarted self.path index line.text)) := by
  have started : D.Follows ws (ws.record (.lineStarted self.path index line.text)) := .record ..
  refine ⟨?_, ⟨line, h.starts line (.head _), parsed⟩, h.sound.record _,
    Fits.mono ⟨h.fits.commands, nofun, h.fits.chained⟩ started⟩
  rintro _ ⟨⟩
  exact started.develops.has (h.has self rfl)

/-- The lines after a statement. -/
theorem next (h : D.Ready (.lines self opens index (line :: lines)) (body, ws))
    (develops : ws.Develops ws₁) (sound : D.Sound ws₁) (fits : D.Fits mid ws₁) :
    D.Ready (.lines self opens' (index + 1) lines)
      (if st.continuesChain then mid else { mid with previous := none }, ws₁) := by
  refine ⟨?_, fun own mem => ?_, sound, ?_⟩
  · rintro _ ⟨⟩
    exact develops.has (h.has self rfl)
  · rw [develops.lines]
    exact h.starts own (.tail _ mem)
  · simp only
    split
    · exact fits
    · exact ⟨fits.commands, fits.pending, nofun⟩

/-- The body of a definition. -/
theorem define {name : String} {callee : Path} {routine : Routine}
    (h : D.Ready (.statement self site (.define name)) (body, ws))
    (found : ws.routines.get? callee = some routine) (template : routine.isTemplate = false) :
    D.Ready (.routine callee none) (body, ws) := by
  refine ⟨by rintro _ ⟨⟩, ⟨fun self found' => ?_, nofun⟩, h.sound, h.fits⟩
  rw [found] at found'
  cases found'
  exact D.apt template

/-- The block under a header. -/
theorem block {role : BlockRole} (h : D.Ready (.statement self site st) (body, ws))
    (hpath : path = Block.path self role body.counter) (free : ws.routines.get? path = none) :
    D.Follows ws (Block.opened self site role path ws) ∧
      D.Ready (.routine path none)
        ({ body with counter := body.counter + 1 }, Block.opened self site role path ws) := by
  obtain ⟨opened, sound⟩ : D.Follows ws (Block.opened self site role path ws) ∧ _ :=
    h.sound.opened (h.has self rfl) hpath free
  exact ⟨opened, by rintro _ ⟨⟩, ⟨apt_opened, nofun⟩, sound,
    Fits.mono ⟨h.fits.commands, h.fits.pending, h.fits.chained⟩ opened⟩

/-- The lines after a block. -/
theorem after {waiting : Body} {ws₂ : Workspace} (h : D.Ready (.statement self site st) (body, ws))
    (hpath : path = Block.path self role body.counter) (free : ws.routines.get? path = none)
    (develops : (Block.opened self site role path ws).Develops ws₁) (sound : D.Sound ws₁)
    (fits : D.Fits waiting ws₁) (heads : Block.Heads self path st (waiting, ws₁) (mid, ws₂)) :
    D.Follows ws₁ ws₂ ∧ D.Ready (.rest self site st path) (mid, ws₂) := by
  obtain ⟨line, mem, parsed⟩ := h.starts
  obtain ⟨opened, _⟩ := h.block hpath free
  have has₁ := (opened.develops.trans develops).has (h.has self rfl)
  have found : (Block.opened self site role path ws).routines.get? path =
      some (Block.routine self site role path) := by
    rw [Block.get?_opened, if_pos rfl]
  obtain ⟨r, found₁, origin⟩ := develops.kept found
  obtain ⟨follows, sound₂, fits₂⟩ := sound.heads has₁ fits found₁
    (by rw [Routine.kind_of_origin origin]; rfl) (Routine.params_of_origin origin)
    ⟨line, (opened.develops.trans develops).lines.symm ▸ mem, _, parsed⟩ heads
  refine ⟨follows, ?_, trivial, sound₂, fits₂⟩
  rintro _ ⟨⟩
  exact follows.develops.has has₁

/-- The guarded block with the rest of the lines. -/
theorem guard {block : Path} {mayExit maySkip : Bool}
    (h : D.Ready (.rest self site st block) (body, ws))
    (hpath : path = Block.path self .guard body.counter) (free : ws.routines.get? path = none) :
    D.Follows ws (Block.opened self site .guard path ws) ∧
      D.Ready (.routine path body.previous)
        ({ body with mayExit, maySkip, counter := body.counter + 1 },
          Block.opened self site .guard path ws) := by
  obtain ⟨opened, sound⟩ : D.Follows ws (Block.opened self site .guard path ws) ∧ _ :=
    h.sound.opened (h.has self rfl) hpath free
  exact ⟨opened, by rintro _ ⟨⟩,
    ⟨apt_opened, fun chain hchain => (h.fits.chained chain hchain).mono opened.develops⟩, sound,
    Fits.mono ⟨h.fits.commands, h.fits.pending, h.fits.chained⟩ opened⟩

end Ready

end Discipline

/-- A compilation keeps every discipline, and each of its workspaces follows the one before. -/
theorem Ran.disciplined (D : Discipline) {task : Task} {c c' : Stage} {visits : List Visit}
    (ran : Ran task c visits c') : D.Ready task c →
      D.Sound c'.2 ∧ D.Fits c'.1 c'.2 ∧ (∀ visit ∈ visits, D.Sound visit.ws) ∧
        D.Course c.2 visits c'.2 := by
  induction ran with
  | @skip path _ _ ws self =>
    intro ready
    have follows : D.Follows ws (Lowering.stored self {} (ws.record (.routineStarted path))) :=
      (Discipline.Follows.record ..).trans (.stored ..)
    have empty : D.Fits {} (ws.record (.routineStarted path)) := ⟨nofun, nofun, nofun⟩
    exact ⟨(ready.sound.record _).stores empty self, ready.fits.mono follows,
      List.forall_mem_nil _, .done follows⟩
  | @run _ _ _ result _ _ ws₂ self _ _ _ found starts _ enters _ ih =>
    intro ready
    obtain ⟨follows₁, inside⟩ := ready.enter found enters
    rw [starts] at inside
    obtain ⟨sound₂, fits₂, visited, course⟩ := ih inside
    have released : D.Follows ws₂ (Lowering.releaseLocals ws₂ result.locals) := .release ..
    have sound₃ := sound₂.of_routines (D.release sound₂.holds)
      (Lowering.releaseLocals_alike result.locals ws₂) released.leads
      (Lowering.releaseLocals_kept ..).1
    have whole := (course.front follows₁).back (released.trans (.stored self result _))
    exact ⟨sound₃.stores (fits₂.mono released) self, ready.fits.mono whole.follows, visited, whole⟩
  | nil | leave | unguarded =>
    exact fun ready => ⟨ready.sound, ready.fits, List.forall_mem_nil _, .refl _⟩
  | deeper _ _ ih | quiet _ _ _ ih => exact fun ready => ih ready.skip
  | @step self _ index line _ _ _ ws _ _ _ _ _ _ _ parsed _ _ ihStatement ihAfter =>
    intro ready
    obtain ⟨sound₁, fits₁, insideOk, course₁⟩ := ihStatement (ready.start parsed)
    have started := course₁.front (.record ws (.lineStarted self.path index line.text))
    obtain ⟨sound₂, fits₂, laterOk, course₂⟩ :=
      ihAfter (ready.next started.follows.develops sound₁ fits₁)
    refine ⟨sound₂, fits₂, fun visit mem => ?_, .visit (.refl ws) (started.trans course₂)⟩
    rw [List.mem_cons, List.mem_append] at mem
    rcases mem with rfl | mem | mem
    · exact ready.sound
    · exact insideOk visit mem
    · exact laterOk visit mem
  | @plain _ self _ _ _ _ _ _ plain calls gives =>
    intro ready
    obtain ⟨line, mem, parsed⟩ := ready.starts
    have kept := (Lowering.effects_plain plain calls gives).kept
    obtain ⟨holds, leads, adds⟩ := D.plain ready.sound.holds ready.sound.housed
      (ready.has self rfl) ⟨line, mem, _, parsed⟩ plain calls gives
    obtain ⟨-, follows, sound', fits'⟩ := ready.sound.of_kept ready.fits kept holds leads adds
    exact ⟨sound', fits', List.forall_mem_nil _, .done follows⟩
  | @exit self site body ws loop inside | @next self site body ws loop inside =>
    rintro ⟨has, _, sound, fits⟩
    obtain ⟨r, found, origin⟩ := has self rfl
    obtain ⟨inner, foundLoop⟩ :=
      sound.looped found ((Routine.loop_of_origin origin).trans inside)
    have writes {tag : String} (owns : tag = exitTag loop ∨ tag = roundTag loop) :
        D.Writes ws (.summonMarker tag) :=
      (D.markers sound.holds sound.housed ⟨loop, inner, foundLoop, owns.imp_right .inl⟩).1
    exact ⟨sound, ⟨by simpa [or_imp, forall_and] using ⟨fits.commands, writes (by simp)⟩,
      fits.pending, fits.chained⟩, List.forall_mem_nil _, .refl ws⟩
  | @defer _ _ _ _ ws callee _ _ _ template =>
    intro ready
    obtain ⟨alike, sound'⟩ := ready.sound.of_update callee
      ({ · with template := some { symbols := ws.symbols } }) (fun _ => rfl)
      (fun _ _ kept => .inr (Option.some.inj kept ▸ D.keeps ready.sound.holds))
      fun _ _ mem => .inl mem
    have follows : D.Follows ws ((ws.updateRoutine callee
        ({ · with template := some { symbols := ws.symbols } })).record
          (.definitionDeferred callee)) := .of_base (alike.trans (.record ..)).develops rfl
    exact ⟨sound'.record _, ready.fits.mono follows, List.forall_mem_nil _, .done follows⟩
  | @define _ _ _ _ _ ws' callee _ _ _ found template _ ih =>
    intro ready
    obtain ⟨sound', fits', visited, course⟩ := ih (ready.define found template)
    have used : D.Follows ws' (ws'.updateRoutine callee ({ · with used := true })) :=
      .update callee fun _ => rfl
    exact ⟨(sound'.of_update callee ({ · with used := true }) (fun _ => rfl)
      (fun _ _ kept => .inl kept) fun _ _ mem => .inl mem).2, fits'.mono used, visited, course.back used⟩
  | block _ hpath free _ heads _ ihCompiled ihRest =>
    intro ready
    obtain ⟨opened, begun⟩ := ready.block hpath free
    obtain ⟨sound₁, fits₁, insideOk, course₁⟩ := ihCompiled begun
    obtain ⟨headed, onward⟩ :=
      ready.after hpath free course₁.follows.develops sound₁ fits₁ heads
    obtain ⟨sound₃, fits₃, laterOk, course₃⟩ := ihRest onward
    refine ⟨sound₃, fits₃, fun visit mem => ?_,
      ((course₁.front opened).back headed).trans course₃⟩
    rcases List.mem_append.1 mem with mem | mem
    · exact insideOk visit mem
    · exact laterOk visit mem
  | @guarded self site _ _ guard _ inner _ _ _ mid ws ws' _ _ inside _ _ hasking hpath free _ _ hmid
      ih =>
    intro ready
    obtain ⟨opened, begun⟩ := ready.guard hpath free
    rw [← hasking] at begun
    obtain ⟨sound', fits', visited, course⟩ := ih begun
    have foundGuard : (Block.opened self site .guard guard ws).routines.get? guard =
        some (Block.routine self site .guard guard) := by
      rw [Block.get?_opened, if_pos rfl]
    obtain ⟨r, foundGuard', origin⟩ := course.follows.develops.kept foundGuard
    have whole := course.front opened
    obtain ⟨own, foundOwn, originOwn⟩ := whole.follows.develops.has (ready.has self rfl)
    obtain ⟨_, foundLoop⟩ :=
      sound'.looped foundOwn ((Routine.loop_of_origin originOwn).trans inside)
    have guards := sound'.absenceTests foundLoop inner.mayExit inner.maySkip (D.guards_nil ws')
    rw [List.append_nil] at guards
    have call := D.invoke sound'.holds sound'.housed foundGuard'
      (by rw [Routine.kind_of_origin origin]; rfl) (Routine.params_of_origin origin) guards
    have fitsMid : D.Fits mid ws' := by
      rw [hmid]
      split
      · exact fits'
      · exact ⟨by simpa [or_imp, forall_and] using ⟨fits'.commands, call⟩, fits'.pending,
          fits'.chained⟩
    exact ⟨sound', ⟨fitsMid.commands, fitsMid.pending, fitsMid.chained⟩, visited, whole⟩

/-- The compilation of a whole program begins under every discipline that holds at its start. -/
theorem Workspace.Unbuilt.ready {settings : Settings} {ws : Workspace} {body : Body}
    (D : Discipline) (h : Unbuilt settings ws) (holds : D.Holds ws.withRoot)
    (fits : D.Fits body ws.withRoot) :
    D.Ready (.routine settings.rootPath none) (body, ws.withRoot) := by
  have sound : D.Sound ws.withRoot := by
    refine ⟨h.housed_withRoot, holds, ?_, ?_, ?_⟩
    · intro q loop r found inside
      obtain ⟨-, rfl⟩ := h.only_root found
      cases inside
    · intro q r template found kept
      obtain ⟨-, rfl⟩ := h.only_root found
      cases kept
    · intro q r found command mem
      obtain ⟨-, rfl⟩ := h.only_root found
      cases mem
  refine ⟨by rintro _ ⟨⟩, ⟨fun self found => ?_, nofun⟩, sound, fits⟩
  obtain ⟨-, rfl⟩ := h.only_root found
  exact D.apt rfl

/-- A whole compilation keeps every discipline that holds at its start. -/
theorem Workspace.Unbuilt.disciplined {settings : Settings} {ws final : Workspace}
    {visits : List Visit} (D : Discipline) (h : Unbuilt settings ws) (holds : D.Holds ws.withRoot)
    (ran : Ran (.routine settings.rootPath none) ({}, ws.withRoot) visits ({}, final)) :
    D.Sound final ∧ ∀ visit ∈ visits, D.Sound visit.ws := by
  obtain ⟨sound, _, visited, _⟩ := ran.disciplined D (h.ready D holds ⟨nofun, nofun, nofun⟩)
  exact ⟨sound, visited⟩

end CommandPack
