import CommandPack.Proofs.Linking.Faults
import CommandPack.Proofs.Linking.Marks
import CommandPack.Proofs.Lowering.Calls

/-!
# When builds end

Compiling always ends. Linking takes steps as long as there are routines to link, and replaces calls
as long as no more of them are nested than there are routines. So it ends unless ever more variants
are made, and then it does not.
-/

namespace CommandPack

open Workspace Linking Text Definition Statement Substitution
open WorkM (Gives Fails gives_bind gives_get fails_bind)

variable {ws ws' : Workspace} {limit : Nat} {self : Routine}

/-! ### More steps -/

namespace WorkM

variable {α β σ : Type}

/-- One step goes on where the other one runs out of steps, and ends like it where it does not. -/
def Prolongs (step step' : EStateM Halt σ α) : Prop :=
  ∀ s, (∃ s', step s = .error .exhausted s') ∨ step' s = step s

theorem Prolongs.refl (step : EStateM Halt σ α) : Prolongs step step :=
  fun _ => .inr rfl

theorem prolongs_exhausted (step : EStateM Halt σ α) : Prolongs (throw .exhausted) step :=
  fun s => .inl ⟨s, rfl⟩

theorem Prolongs.bind {m m' : EStateM Halt σ α} {f f' : α → EStateM Halt σ β}
    (h : Prolongs m m') (next : ∀ a, Prolongs (f a) (f' a)) : Prolongs (m >>= f) (m' >>= f') := by
  intro s
  change (∃ s', EStateM.bind m f s = _) ∨ EStateM.bind m' f' s = EStateM.bind m f s
  unfold EStateM.bind
  rcases h s with ⟨s', out⟩ | same
  · rw [out]
    exact .inl ⟨s', rfl⟩
  · rw [same]
    cases m s with
    | ok a mid => exact next a mid
    | error => exact .inr rfl

end WorkM

namespace Linking

variable {limit limit' depth : Nat} {line : String} {lines : List String} {path : Path}
  {st st' : LinkState} {α : Type}

open WorkM

theorem prolongs_locate {step step' : LinkM α} (h : Prolongs step step') (path : Path) :
    Prolongs (locate path step) (locate path step') := by
  intro st
  unfold locate
  rcases h st with ⟨st', out⟩ | same
  · rw [out]
    exact .inl ⟨st', rfl⟩
  · rw [same]
    exact .inr rfl

theorem prolongs_resolve (more : limit ≤ limit') :
    Prolongs (resolve limit depth line) (resolve limit' depth line) := by
  induction limit generalizing limit' depth line with
  | zero => exact prolongs_exhausted _
  | succ _ ih =>
    obtain ⟨limit', rfl⟩ : ∃ n, limit' = n + 1 := ⟨limit' - 1, by omega⟩
    cases marked : CallMark.find? line with
    | none =>
      rw [resolve, resolve, marked]
      exact .refl _
    | some =>
      rw [resolve_of_find? marked, resolve_of_find? marked]
      refine (Prolongs.refl _).bind fun st => ?_
      split
      · exact .refl _
      · refine (Prolongs.refl _).bind fun target => (Prolongs.refl _).bind fun r =>
          (Prolongs.refl _).bind fun st => ?_
        rcases r.commands with _ | ⟨single, _ | ⟨_, _⟩⟩
        · exact .refl _
        · exact (ih (by omega)).bind fun _ => .refl _
        · exact .refl _

theorem prolongs_resolveAll (more : limit ≤ limit') :
    Prolongs (resolveAll limit lines) (resolveAll limit' lines) := by
  induction lines with
  | nil => exact .refl _
  | cons _ _ ih =>
    exact (prolongs_resolve more).bind fun _ => ih.bind fun _ => .refl _

theorem prolongs_routine (more : limit ≤ limit') :
    Prolongs (routine limit path) (routine limit' path) :=
  (Prolongs.refl _).bind fun _ => (Prolongs.refl _).bind fun _ =>
    (prolongs_locate (prolongs_resolveAll more) path).bind fun _ => .refl _

/-- Linking that ends within some steps ends in the same way within more. -/
theorem prolongs_run (more : limit ≤ limit') : Prolongs (run limit) (run limit') := by
  induction limit generalizing limit' with
  | zero => exact prolongs_exhausted _
  | succ limit ih =>
    obtain ⟨limit', rfl⟩ : ∃ n, limit' = n + 1 := ⟨limit' - 1, by omega⟩
    have more : limit ≤ limit' := Nat.le_of_succ_le_succ more
    rw [run, run]
    refine (Prolongs.refl _).bind fun st => ?_
    split
    · exact .refl _
    · refine (Prolongs.refl _).bind fun _ => ?_
      split
      · exact ih more
      · exact (Prolongs.refl _).bind fun _ => (prolongs_routine more).bind fun _ => ih more

/-! ### Running out of steps -/

/-- Making a variant never takes too many levels. -/
theorem makeVariant_ne_exhausted {callee : Path} {arguments : List String} (housed : ws.Housed) :
    ¬ Fails (makeVariant callee arguments) ws .exhausted ws' := by
  intro failed
  generalize isExhausted : Halt.exhausted = halt at failed
  cases unmade_of_fails failed with
  | unknown | early | taken => cases isExhausted
  | @inside r template _ _ found _ free inside =>
    subst isExhausted
    have begins : (Task.routine (nextPath callee template) none).Begins False ws.Knows
        ({}, prepared callee r template arguments ws) :=
      ⟨prepared_stands housed found free, False.elim, False.elim⟩
    exact ((breaking_compile _ {} inside).ends begins Task.fits_nesting).1

/-- Resolving a line runs out of steps only once as many calls are nested as there are routines. -/
theorem limit_of_resolve (tidy : st.Tidy) (shallow : depth ≤ st.ws.routines.size + 1)
    (failed : Fails (resolve limit depth line) st .exhausted st') :
    Moves st st' ∧ limit + depth ≤ st'.ws.routines.size + 1 := by
  induction limit generalizing depth line st with
  | zero =>
    obtain ⟨-, rfl⟩ := fails_throw.1 failed
    exact ⟨.refl, by omega⟩
  | succ _ ih =>
    generalize isExhausted : Halt.exhausted = halt at failed
    cases trouble_of_fails failed with
    | unbound | deep | unknown => cases isExhausted
    | variant _ _ _ _ unmade =>
      subst isExhausted
      exact absurd unmade (makeVariant_ne_exhausted tidy.housed)
    | inside _ _ called _ _ inside =>
      subst isExhausted
      have moves := Moves.of_callee called
      have grown := (moves.progress tidy).grown
      obtain ⟨moves', bound⟩ := ih (tidy.moves moves) (by omega) inside
      exact ⟨moves.trans moves', by omega⟩

theorem limit_of_resolveAll (tidy : st.Tidy)
    (failed : Fails (resolveAll limit lines) st .exhausted st') :
    Moves st st' ∧ limit ≤ st'.ws.routines.size + 1 := by
  induction lines generalizing st with
  | nil => exact absurd failed fails_pure
  | cons _ _ ih =>
    simp only [resolveAll, fails_bind, fails_pure, and_false, exists_false, or_false] at failed
    rcases failed with first | ⟨out, mid, given, later⟩
    · obtain ⟨moves, bound⟩ := limit_of_resolve tidy (Nat.zero_le _) first
      exact ⟨moves, by omega⟩
    · have moves := Moves.of_resolve given
      obtain ⟨moves', bound⟩ := ih (tidy.moves moves) later
      exact ⟨moves.trans moves', bound⟩

theorem limit_of_routine (tidy : st.Tidy) (known : st.ws.Knows path)
    (failed : Fails (routine limit path) st .exhausted st') :
    Moves st st' ∧ limit ≤ st'.ws.routines.size + 1 := by
  obtain ⟨r, found⟩ := known
  obtain ⟨inner, inside, located⟩ := fails_routine tidy found failed
  cases inner with
  | fault => cases located
  | exhausted => exact limit_of_resolveAll tidy inside

theorem visited_of_routine (given : Gives (routine limit path) st () st') :
    st'.visited = st.visited := by
  obtain ⟨r, lines, mid, -, resolved, -, rfl⟩ := gives_routine.1 given
  exact (Moves.of_resolveAll resolved).visited_eq

end Linking

namespace LinkState.Untemplated

variable {limit : Nat} {path : Path} {st st' : LinkState}

theorem move (h : st.Untemplated) (move : Linking.Move st st') : st'.Untemplated := by
  cases move with
  | make found isTemplate =>
    rw [h.template _ _ found] at isTemplate
    cases isTemplate
  | keep =>
    refine ⟨?_, fun q r found => ?_⟩
    · unfold LinkState.keeping enqueue
      split <;> exact h.variants
    · obtain ⟨r₀, found₀, rfl⟩ := found_before (LinkState.ws_keeping ▸ found)
      have untemplated := h.template q r₀ found₀
      split <;> exact untemplated

theorem moves (h : st.Untemplated) (moves : Moves st st') : st'.Untemplated := by
  induction moves with
  | refl => exact h
  | tail _ move ih => exact ih.move move

theorem routine (h : st.Untemplated) (given : Gives (Linking.routine limit path) st () st') :
    st'.Untemplated := by
  obtain ⟨_, lines, mid, -, resolved, -, rfl⟩ := gives_routine.1 given
  have h := h.moves (Linking.Moves.of_resolveAll resolved)
  refine ⟨h.variants, fun q r found => ?_⟩
  obtain ⟨r₀, found₀, rfl⟩ := found_before found
  have untemplated := h.template q r₀ found₀
  split <;> exact untemplated

end LinkState.Untemplated

namespace Linking

variable {limit : Nat} {st st' : LinkState}

open WorkM

/-- Linking runs out of steps only once it has taken as many as there are routines to be linked and
calls to be nested, and no variants are made without templates. -/
theorem limit_of_run (tidy : st.Tidy) (failed : Fails (run limit) st .exhausted st') :
    Progress st st' ∧ limit + st.visited.length ≤ 2 * st'.ws.routines.size + 2 ∧
      (st.Untemplated → st'.Untemplated) := by
  induction limit generalizing st with
  | zero =>
    obtain ⟨-, rfl⟩ := fails_throw.1 failed
    have few := tidy.length_le
    exact ⟨.refl _, by omega, id⟩
  | succ _ ih =>
    obtain ⟨path, queue, waiting, failed⟩ := fails_run tidy failed
    obtain ⟨-, taken⟩ := tidy.take waiting
    have known : (st.taking path queue).ws.Knows path := taken.known (.inl (.head _))
    have few : st.visited.length + 1 + queue.length ≤ st.ws.routines.size := taken.length_le
    rcases failed with now | ⟨mid, given, later⟩
    · obtain ⟨moves, bound⟩ := limit_of_routine taken known now
      have progress := moves.progress taken
      have grown : st.ws.routines.size ≤ st'.ws.routines.size := progress.grown
      refine ⟨⟨progress.lines, progress.settings, progress.grown, progress.budget⟩, by omega,
        fun none => ?_⟩
      have none : (st.taking path queue).Untemplated := ⟨none.variants, none.template⟩
      exact none.moves moves
    · obtain ⟨tidy', progress⟩ := tidy_of_routine taken given
      obtain ⟨progress', bound, untemplated⟩ := ih tidy' later
      have visited : mid.visited.length = st.visited.length + 1 :=
        congrArg List.length (visited_of_routine given)
      refine ⟨Progress.trans ⟨progress.lines, progress.settings, progress.grown, progress.budget⟩
        progress', by omega, fun none => ?_⟩
      have none : (st.taking path queue).Untemplated := ⟨none.variants, none.template⟩
      exact untemplated (none.routine given)

end Linking

/-! ### Whole programs -/

namespace Workspace

variable {limit limit' : Nat} {ws : Workspace}

/-- How many variants there are once linking has ended or run out of steps. -/
def variantsMade (limit : Nat) (ws : Workspace) : Nat :=
  match Linking.run limit ws.linkState with
  | .ok () st | .error _ st => st.variants.length

theorem link_eq_exhausted_iff : (ws.link limit).1 = .error .exhausted ↔
    ∃ st, Fails (run limit) ws.linkState .exhausted st := by
  unfold link Fails
  cases run limit ws.linkState with
  | error => simp
  | ok =>
    simp only [reduceCtorEq, exists_false, iff_false]
    split <;> simp

/-- Linking that ends within some steps ends within more, with the same variants. -/
theorem link_of_le (more : limit ≤ limit') (ended : (ws.link limit).1 ≠ .error .exhausted) :
    ws.link limit' = ws.link limit ∧ ws.variantsMade limit' = ws.variantsMade limit := by
  rcases prolongs_run more ws.linkState with ⟨st, out⟩ | same
  · exact absurd (link_eq_exhausted_iff.2 ⟨st, out⟩) ended
  · unfold link variantsMade
    rw [same]
    exact ⟨rfl, rfl⟩

/-- Linking ends, within so many steps, if only so many variants are made. -/
theorem link_ne_exhausted (housed : ws.Housed)
    (enough : 2 * (ws.routines.size + ws.variantsMade limit * variantCost ws.lines.length) + 2 <
      limit) : (ws.link limit).1 ≠ .error .exhausted := by
  intro out
  obtain ⟨st, failed⟩ := link_eq_exhausted_iff.1 out
  obtain ⟨progress, bound, -⟩ := limit_of_run (.linkState housed) failed
  have budget : st.ws.routines.size + 0 * variantCost ws.lines.length ≤
      ws.routines.size + st.variants.length * variantCost ws.lines.length := progress.budget
  have made : ws.variantsMade limit = st.variants.length := by
    unfold variantsMade
    rw [show run limit ws.linkState = _ from failed]
  have visited : ws.linkState.visited.length = 0 := rfl
  rw [made] at enough
  omega

theorem link_ends_iff (housed : ws.Housed) :
    (∃ limit, (ws.link limit).1 ≠ .error .exhausted) ↔
      ∃ bound, ∀ limit, ws.variantsMade limit ≤ bound := by
  constructor
  · rintro ⟨last, ended⟩
    refine ⟨(Finset.range (last + 1)).sup (ws.variantsMade ·), fun limit => ?_⟩
    rcases Nat.le_total limit last with early | late
    · exact Finset.le_sup (f := (ws.variantsMade ·)) (Finset.mem_range_succ_iff.2 early)
    · rw [(link_of_le late ended).2]
      exact Finset.le_sup (f := (ws.variantsMade ·)) (Finset.self_mem_range_succ last)
  · rintro ⟨bound, few⟩
    refine ⟨2 * (ws.routines.size + bound * variantCost ws.lines.length) + 3,
      link_ne_exhausted housed ?_⟩
    have := Nat.mul_le_mul_right (variantCost ws.lines.length)
      (few (2 * (ws.routines.size + bound * variantCost ws.lines.length) + 3))
    omega

/-- Without templates linking takes no more steps than there are routines to be linked and calls to
be nested. -/
theorem link_ne_exhausted_of_untemplated (housed : ws.Housed)
    (none : ∀ path r, ws.routines.get? path = some r → r.template = none)
    (enough : 2 * ws.routines.size + 2 < limit) : (ws.link limit).1 ≠ .error .exhausted := by
  intro out
  obtain ⟨st, failed⟩ := link_eq_exhausted_iff.1 out
  obtain ⟨progress, bound, untemplated⟩ := limit_of_run (.linkState housed) failed
  have few : st.variants = [] := (untemplated ⟨rfl, none⟩).variants
  have budget : st.ws.routines.size + 0 * variantCost ws.lines.length ≤
      ws.routines.size + st.variants.length * variantCost ws.lines.length := progress.budget
  have visited : ws.linkState.visited.length = 0 := rfl
  rw [few] at budget
  simp only [List.length_nil, Nat.zero_mul] at budget
  omega

end Workspace

namespace Pack

variable {settings : Settings} {sources : List (String × String)} {read compiled : Workspace}

/-- A program runs out of steps only while it is linked. -/
theorem build_eq_exhausted_iff :
    build limit settings sources = .error .exhausted ↔
      ∃ read compiled, addSources { settings } sources = .ok read ∧
        read.compile = (.ok (), compiled) ∧ (compiled.link limit).1 = .error .exhausted := by
  unfold build
  cases reads : addSources { settings } sources with
  | error => simp
  | ok read =>
    obtain ⟨-, usual⟩ := @Unbuilt.stops_compile settings read False (unbuilt_of_addSources reads)
      False.elim
    cases compiles : read.compile with
    | mk outcome =>
      cases outcome with
      | error halt =>
        have regular := usual halt (by rw [compiles])
        have ended : halt ≠ .exhausted := by
          rintro rfl
          exact regular
        simp [compiles, ended]
      | ok => simp [compiles]

theorem build_of_compile (reads : addSources { settings } sources = .ok read)
    (compiles : read.compile = (.ok (), compiled)) :
    build limit settings sources = (compiled.link limit).1 := by
  rw [build, reads]
  simp only [compiles]

/-- A program that is not linked is built in no steps. -/
theorem build_congr_of_uncompiled (limit limit' : Nat)
    (uncompiled : ∀ read compiled, addSources { settings } sources = .ok read →
      read.compile ≠ (.ok (), compiled)) :
    build limit' settings sources = build limit settings sources := by
  unfold build
  cases reads : addSources { settings } sources with
  | error => rfl
  | ok read =>
    cases compiles : read.compile with
    | mk outcome compiled =>
      cases outcome with
      | error => simp only [compiles]
      | ok => exact absurd compiles (uncompiled read compiled reads)

theorem housed_of_compile (reads : addSources { settings } sources = .ok read)
    (compiles : read.compile = (.ok (), compiled)) : compiled.Housed := by
  have unbuilt := unbuilt_of_addSources reads
  obtain ⟨visits, ran⟩ := unbuilt.ran compiles
  exact (ran.housed unbuilt.housed_withRoot (by rintro _ ⟨⟩)).2

end Pack

/-- Compiling a line of a body and the lines after it. -/
theorem Lowering.gives_lines_cons {compile : Compile} {opens : Bool} {index : Nat} {line : Line}
    {lines : List Line} {body mid result : Body} {ws after : Workspace}
    (level : line.depth = self.depth) (goesOn : body.asks = false)
    (first : BodyM.Gives (Lowering.line compile self ⟨index, lines⟩ line.text) body ws () mid ws')
    (later : BodyM.Gives (Lowering.lines compile self (endsWith ":" line.text) (index + 1) lines)
      mid ws' () result after) :
    BodyM.Gives (Lowering.lines compile self opens index (line :: lines)) body ws () result after := by
  rw [Lowering.lines, if_neg (by omega), if_neg (by omega), BodyM.gives_bind]
  refine ⟨body, body, ws, BodyM.gives_get.2 ⟨rfl, rfl, rfl⟩, ?_⟩
  rw [if_pos (by rw [← Bool.not_or]; exact congrArg not goesOn), BodyM.gives_bind]
  exact ⟨(), mid, ws', BodyM.gives_locate.2 first, later⟩

/-- Compiling a routine whose body is there. -/
theorem Lowering.gives_routine {compile : Compile} {path : Path}
    {previous : Option Chain} {ws registered after : Workspace} {first : Line} {rest : List Line}
    {result : Body} (found : ws.routines.get? path = some self)
    (body : ws.lines.drop self.start = first :: rest) (level : first.depth = self.depth)
    (unguarded : self.kind.isGuard = false)
    (registers : Gives (registerAll self self.start (first :: rest))
      (bindParams self (ws.record (.routineStarted path))) () registered)
    (ran : BodyM.Gives (lines compile self false self.start (first :: rest))
      { locals := paramPaths self, previous } registered () result after)
    (known : (releaseLocals after result.locals).Knows self.path) :
    Gives (routine compile path previous) ws ()
      (stored self result (releaseLocals after result.locals)) := by
  have lines : (ws.record (.routineStarted path)).lines.drop self.start = first :: rest := body
  have level' : ¬ first.depth < self.depth ∧ ¬ self.depth < first.depth := by omega
  simp only [Lowering.routine, Lowering.commit, gives_bind, WorkM.gives_routine,
    WorkM.gives_record, gives_get]
  refine ⟨self, _, ⟨found, rfl⟩, (), _, rfl, _, _, ⟨rfl, rfl⟩, ?_⟩
  simp only [lines, if_neg level'.1, if_neg level'.2, unguarded, Bool.not_false, if_true,
    gives_bind, WorkM.gives_update, WorkM.gives_record, WorkM.gives_updateRoutine]
  exact ⟨(), _, rfl, (), _, registers, ((), result), after, ran, (), _, rfl, (), _, rfl, known, rfl⟩

/-! ### A relay -/

/-- Two definitions that hand a text on to each other, with one more comma each time. -/
def relay : String :=
  "def f x#s:\n    g x,\ndef g x#s:\n    f x,\nf a"

/-- The definitions of the relay. -/
inductive Leg
  | f
  | g

namespace Leg

variable {leg : Leg} {i : Nat} {ws ws' : Workspace} {text : String}

def name : Leg → String
  | f => "f"
  | g => "g"

/-- The definition that this one hands on to. -/
def next : Leg → Leg
  | f => g
  | g => f

def path (leg : Leg) : Path :=
  ⟨["main", leg.name]⟩

/-- The definition, before a variant of it is made. -/
def routine (leg : Leg) : Routine where
  path := leg.path
  kind := .defined
  start := match leg with
    | f => 1
    | g => 3
  depth := 1
  owner := leg.path
  params := [⟨"x", .string, none⟩]
  template := some { symbols := {} }

/-- The variant of the definition for a text. -/
def variant (leg : Leg) (i : Nat) (text : String) : Routine :=
  Linking.variant leg.routine (leg.path.block .variant i) [text]

/-- A call of the definition. -/
def mark (leg : Leg) (text : String) : CallMark :=
  ⟨leg.path, [text]⟩

theorem isFunction_name (leg : Leg) : Name.isFunction leg.name = true := by
  cases leg <;> decide +kernel

theorem dotless_name (leg : Leg) : '.' ∉ chars leg.name :=
  Name.dot_not_mem (Name.isVariable_of_isFunction leg.isFunction_name)

theorem below (leg : Leg) : leg.path.Below "main" := by
  refine ⟨[leg.name], rfl, ?_⟩
  cases leg <;> decide

theorem parse_qualify_block (leg : Leg) (i : Nat) {name : String} (dotless : '.' ∉ chars name) :
    Path.parse ((leg.path.block .variant i).qualify name) =
      (leg.path.block .variant i).child name :=
  (leg.below.child (BlockRole.dot_not_mem_segment .variant i)).parse_qualify (by decide) dotless

theorem candidates_block (leg : Leg) (i : Nat) (name : String) :
    (leg.path.block .variant i).candidates name =
      [(leg.path.block .variant i).qualify name, leg.path.qualify name,
        Path.qualify ⟨["main"]⟩ name] :=
  rfl

theorem find?_mark (leg : Leg) (text : String) :
    CallMark.find? (leg.mark text).render = some ⟨"", leg.mark text, ""⟩ := by
  have plain : leg.path.Plain := by
    cases leg <;> decide
  have read := @CallMark.find?_render "" (leg.mark text) (by decide) plain
  rwa [String.empty_append] at read

/-- The lines of the relay. -/
def lines : List Line :=
  [⟨0, "def f x#s:", 1, 0⟩, ⟨1, "g x,", 2, 0⟩, ⟨0, "def g x#s:", 3, 0⟩, ⟨1, "f x,", 4, 0⟩,
    ⟨0, "f a", 5, 0⟩]

/-- The only line of the definition, with a line of another block behind it. -/
theorem drop_lines (leg : Leg) : ∃ first second rest,
    lines.drop leg.routine.start = first :: second :: rest ∧ first.depth = 1 ∧
      first.text = leg.next.name ++ " x," ∧ second.depth = 0 := by
  cases leg
  · exact ⟨_, _, _, rfl, rfl, by decide, rfl⟩
  · exact ⟨_, _, _, rfl, rfl, by decide, rfl⟩

/-- A variant of the definition is about to be compiled. -/
structure Runs (leg : Leg) (i : Nat) (text : String) (ws : Workspace) : Prop where
  lines : ws.lines = lines
  self : ws.routines.get? (leg.path.block .variant i) = some (leg.variant i text)
  callee : ∃ r, ws.routines.get? leg.next.path = some r ∧ leg.next.routine.Moved r
  inner : ws.routines.get? ((leg.path.block .variant i).child leg.next.name) = none
  beside : ws.routines.get? (leg.path.child leg.next.name) = none

theorem Runs.congr (h : leg.Runs i text ws) (lines : ws'.lines = ws.lines)
    (routines : ws'.routines = ws.routines) : leg.Runs i text ws' :=
  ⟨lines.trans h.lines, routines ▸ h.self, routines ▸ h.callee, routines ▸ h.inner,
    routines ▸ h.beside⟩

/-- In a variant of one definition the name of the other one is found. -/
theorem Runs.resolveFunction? (h : leg.Runs i text ws) :
    ws.resolveFunction? (leg.path.block .variant i) leg.next.name = some leg.next.path := by
  have dotless := leg.next.dotless_name
  have named : leg.next.name ≠ "" := by
    cases leg <;> decide
  have known : ws.isDefined leg.next.path = true := by
    obtain ⟨r, found, moved⟩ := h.callee
    rw [isDefined, found, moved.same]
    rfl
  have root : (⟨["main"]⟩ : Path).Below "main" := ⟨[], rfl, List.forall_mem_nil _⟩
  rw [Workspace.resolveFunction?, if_neg named, candidates_block, List.map_cons, List.map_cons,
    List.map_cons, leg.parse_qualify_block i dotless, leg.below.parse_qualify (by decide) dotless,
    root.parse_qualify (by decide) dotless, List.find?_cons_of_neg, List.find?_cons_of_neg,
    List.find?_cons_of_pos]
  · rfl
  · exact known
  · rw [isDefined, h.beside]
    exact Bool.false_ne_true
  · rw [isDefined, h.inner]
    exact Bool.false_ne_true

/-- The variables of a variant. -/
def symbols (leg : Leg) (text : String) : Symbols :=
  (({} : Symbols).declare (leg.path.qualify "x") .string).bind (leg.path.qualify "x") text

theorem substitute (bound : ws.symbols = symbols leg text) :
    substitute ws (leg.path.block .variant i) "x," = .ok (text ++ ",") := by
  have contains {name : String} :
      ws.symbols.contains name = true ↔ name = leg.path.qualify "x" := by
    rw [bound, symbols, Symbols.contains_bind, Symbols.contains_declare]
    simp [Symbols.contains, Table.contains_eq, Table.get?]
  have resolved : ws.resolve? (leg.path.block .variant i) "x" = some (leg.path.qualify "x") := by
    have inner : (leg.path.block .variant i).qualify "x" ≠ leg.path.qualify "x" := by
      intro same
      have read := congrArg Path.parse same
      rw [leg.below.parse_qualify (by decide) (by decide),
        leg.parse_qualify_block i (by decide)] at read
      exact absurd (congrArg (·.segments.length) read) (by simp [Path.child, Path.block])
    rw [resolve?, Symbols.resolve?, if_neg (by decide), candidates_block,
      List.find?_cons_of_neg (by rwa [contains]), List.find?_cons_of_pos (contains.2 rfl)]
  have kind : ws.symbols.kind? (leg.path.qualify "x") = some .string := by
    rw [bound]
    simp [symbols, Symbols.kind?, Symbols.bind, Table.get?_insert]
  have value : stringText ws (leg.path.qualify "x") = text := by
    rw [stringText, bound]
    simp [symbols, Symbols.string?, Symbols.bind, Table.get?_insert]
  have split : Argument.split "x," = ["x,"] := by decide +kernel
  have words : Token.words "x," = [⟨.word, "x"⟩, ⟨.punctuation ',', ","⟩] := by decide +kernel
  have evaluated : evaluate ws (leg.path.block .variant i) "x" =
      .ok (some (.plain text)) := by
    have bare : splitClarifier "x" = ("x", none) := by decide +kernel
    simp [evaluate, bare, resolved, kind, value]
  have trimmed : trim "x" = "x" := by decide +kernel
  have joined : (⟨.word, "x"⟩ : Token).endsInSpace = false := by decide +kernel
  simp [Substitution.substitute, Substitution.substituteArguments, Substitution.substituteArgument,
    substituteWords, split, words, trimmed, evaluated, joined, opened?,
    Replacement.text, Except.map, join]

/-- A variant hands its text on. -/
theorem Runs.gives_call {body : Body} (h : leg.Runs i text ws)
    (bound : ws.symbols = symbols leg text) :
    BodyM.Gives (Invocation.call (leg.variant i text) leg.next.path "x,") body ws ()
      { body with commands := body.commands ++ [.invoke [] (leg.next.mark (text ++ ","))] } ws := by
  obtain ⟨r, found, moved⟩ := h.callee
  have acyclic : Invocation.checkRecursion (leg.variant i text) leg.next.path = .ok () := by
    cases leg <;> rfl
  have split : Argument.split "x," = ["x,"] := by decide +kernel
  simp only [Invocation.call, BodyM.gives_bind, BodyM.gives_lift, WorkM.gives_query,
    WorkM.gives_routine, split]
  refine ⟨(), body, ws, ⟨⟨acyclic, rfl⟩, rfl⟩, _, body, ws, ⟨⟨found, rfl⟩, rfl⟩,
    ⟨leg.next.path, [], [text ++ ","], []⟩, body, ws, ?_, ⟨leg.next.path, [], [text ++ ","], []⟩,
    body, ws, ?_, (), _, ws, BodyM.gives_emit.2 ⟨rfl, rfl, rfl⟩, ?_⟩
  · rw [moved.same]
    simp only [routine, Invocation.bindArguments, Invocation.bindArgument,
      Assignment.substitute, BodyM.gives_bind, BodyM.gives_lift, WorkM.gives_query]
    exact ⟨_, _, _, ⟨_, _, _, ⟨⟨substitute bound, rfl⟩, rfl⟩, BodyM.gives_pure.2 ⟨rfl, rfl, rfl⟩⟩,
      BodyM.gives_pure.2 ⟨rfl, rfl, rfl⟩⟩
  · simp [Invocation.bindDefaults]
  · simp [mark]

/-- What is compiled for a variant. -/
theorem Runs.gives_compile (h : leg.Runs i text ws) (empty : ws.symbols = {}) (limit : Nat) :
    ∃ after r, Gives (Lowering.compile (limit + 1) (leg.path.block .variant i) none) ws ()
      after ∧ after.routines.get? (leg.path.block .variant i) = some r ∧
        r.commands = [.invoke [] (leg.next.mark (text ++ ","))] := by
  obtain ⟨first, second, rest, drop, level, isLine, outside⟩ := leg.drop_lines
  let started := Lowering.bindParams (leg.variant i text)
    (ws.record (.routineStarted (leg.path.block .variant i)))
  have bound : started.symbols = symbols leg text := by
    change ((ws.symbols.declare _ _).bind _ _) = _
    rw [empty]
    rfl
  obtain ⟨routines, lines, settings⟩ := Lowering.bindParams_kept (leg.variant i text)
    (ws.record (.routineStarted (leg.path.block .variant i)))
  have runs : leg.Runs i text started := h.congr lines routines
  have registered : Gives (registerAll (leg.variant i text) leg.routine.start
      (first :: second :: rest)) started () started := by
    have other : (splitHead first.text).1 ≠ "def" := by
      rw [isLine]
      cases leg <;> decide +kernel
    simp [registerAll, level, outside, other, variant, Linking.variant, routine]
  have parsed : classify (started.resolveFunction? (leg.path.block .variant i))
      first.text = .ok (.call leg.next.path "x,") := by
    have trimmed : trim " x," = "x," := by decide +kernel
    have starts : (chars (trim " x,")).head? = some 'x' := by decide +kernel
    rw [isLine, classify_name leg.next.isFunction_name runs.resolveFunction?
      (.inr (by decide)) (by rw [starts]; rintro _ ⟨⟩; decide), trimmed,
      if_neg (by cases leg <;> decide)]
  have ran : BodyM.Gives (Lowering.lines (Lowering.compile limit) (leg.variant i text) false
      leg.routine.start (first :: second :: rest))
      { locals := Lowering.paramPaths (leg.variant i text) } started ()
      { locals := Lowering.paramPaths (leg.variant i text)
        commands := [.invoke [] (leg.next.mark (text ++ ","))] }
      (started.record (.lineStarted (leg.path.block .variant i) leg.routine.start first.text)) := by
    have recorded : leg.Runs i text (started.record (.lineStarted (leg.path.block .variant i)
        leg.routine.start first.text)) := runs.congr rfl rfl
    refine Lowering.gives_lines_cons level rfl
      (Lowering.gives_line.2 ⟨_, _, parsed, recorded.gives_call bound, rfl⟩) ?_
    rw [Lowering.lines, if_pos (by rw [outside]; exact Nat.zero_lt_one)]
    exact BodyM.gives_pure.2 ⟨rfl, rfl, rfl⟩
  obtain ⟨routines', -⟩ := Lowering.releaseLocals_kept (Lowering.paramPaths (leg.variant i text))
    (started.record (.lineStarted (leg.path.block .variant i) leg.routine.start first.text))
  have known := (congrArg (Table.get? · (leg.path.block .variant i))
    (routines'.trans routines)).trans h.self
  have given := Lowering.gives_routine h.self (by rw [h.lines]; exact drop) level rfl registered ran
    ⟨_, known⟩
  refine ⟨_, { leg.variant i text with
    commands := [.invoke [] (leg.next.mark (text ++ ","))], compiled := true }, given, ?_, rfl⟩
  rw [Lowering.stored, updateRoutine, Table.get?_modify]
  exact (congrArg (Option.map _) known).trans (congrArg some (if_pos rfl))

end Leg

theorem Linking.gives_callee_of_new {st : LinkState} {mark : CallMark} {path : Path}
    (isCall : mark.arguments ≠ []) (new : st.variants.lookup (mark.target, mark.arguments) = none)
    (made : Gives (makeVariant mark.target mark.arguments) st.ws path ws) :
    Gives (callee mark) st path (st.adding (mark.target, mark.arguments) path ws) := by
  rw [callee, if_neg isCall, variantFor]
  simp only [gives_bind, gives_get]
  refine ⟨_, _, ⟨rfl, rfl⟩, ?_⟩
  rw [new]
  simp only [gives_bind, LinkM.gives_onWorkspace, WorkM.gives_modify]
  exact ⟨path, _, ⟨ws, made, rfl⟩, (), _, rfl, WorkM.gives_pure.2 ⟨rfl, rfl⟩⟩

/-- The relay while it is linked. -/
structure Relaying (st : LinkState) : Prop where
  grounded : st.Grounded
  lines : st.ws.lines = Leg.lines
  legs (leg : Leg) : ∃ r, st.ws.routines.get? leg.path = some r ∧ leg.routine.Moved r

namespace Relaying

variable {st st' : LinkState} {limit depth : Nat}

theorem moves (h : Relaying st) (moves : Moves st st') : Relaying st' := by
  refine ⟨(h.grounded.moves moves).1, (moves.progress h.grounded.tidy).lines.trans h.lines,
    fun leg => ?_⟩
  obtain ⟨r, found, moved⟩ := h.legs leg
  obtain ⟨r', found', moved'⟩ := moves.moved h.grounded.tidy found
  exact ⟨r', found', moved.trans moved'⟩

/-- One more variant can be made, which hands its text on. -/
theorem makeVariant (h : Relaying st) (leg : Leg) (text : String) : ∃ path ws r,
    Gives (Linking.makeVariant leg.path [text]) st.ws path ws ∧
      ws.routines.get? path = some r ∧
        r.commands = [.invoke [] (leg.next.mark (text ++ ","))] := by
  obtain ⟨r, found, moved⟩ := h.legs leg
  obtain ⟨template, isTemplate, empty⟩ := Option.map_eq_some_iff.1 moved.symbols
  have rooted := h.grounded.rooted
  have free := rooted.free_nextPath found isTemplate
  have runs : leg.Runs template.counter text (prepared leg.path r template [text] st.ws) := by
    refine ⟨h.lines, ?_, ?_, ?_, ?_⟩
    · rw [moved.same]
      exact (get?_prepared _).trans (if_pos rfl)
    · obtain ⟨other, known, moved'⟩ := h.legs leg.next
      obtain ⟨_, known', symbols⟩ := prepared_kept found isTemplate free known
      exact ⟨_, known', moved'.trans ⟨rfl, id, symbols⟩⟩
    · cases @prepared_clear st.ws leg.path [text] r template {} h.grounded.tidy.housed rooted found
        isTemplate with
      | routine _ _ _ _ childless => exact childless _
    · cases known : (prepared leg.path r template [text] st.ws).routines.get?
          (leg.path.child leg.next.name) with
      | none => rfl
      | some =>
        obtain ⟨_, again, symbols⟩ := prepared_kept found isTemplate free found
        obtain ⟨_, isTemplate', -⟩ := Option.map_eq_some_iff.1 (symbols.trans moved.symbols)
        obtain ⟨n, -, same⟩ := (rooted.prepared found isTemplate).counted again isTemplate' known
        have first : (chars leg.next.name).head? = some 's' := by
          rw [same, BlockRole.segment, chars_append]
          rfl
        cases leg <;> exact absurd first (by decide)
  obtain ⟨after, r', compiled, known, commands⟩ := runs.gives_compile empty _
  exact ⟨_, _, r', gives_makeVariant.2 ⟨r, template, after, found, isTemplate, rfl, free, compiled,
    rfl⟩, known, commands⟩

/-- The relay is run without end, since each text that is handed on is longer than all before. -/
theorem exhausted (h : Relaying st) (leg : Leg) {text : String}
    (shallow : depth ≤ st.ws.routines.size)
    (longer : ∀ entry ∈ st.variants, ∀ earlier ∈ entry.1.2, earlier.length < text.length) :
    ∃ st', Fails (resolve limit depth (leg.mark text).render) st .exhausted st' := by
  induction limit generalizing depth leg text st with
  | zero => exact ⟨st, WorkM.fails_throw.2 ⟨rfl, rfl⟩⟩
  | succ _ ih =>
    obtain ⟨path, ws, r, given, known, commands⟩ := h.makeVariant leg text
    have new : st.variants.lookup (leg.path, [text]) = none := by
      rw [List.lookup_eq_none_iff]
      intro entry mem
      rw [bne_iff_ne]
      intro isEntry
      exact Nat.lt_irrefl _ (longer entry mem text (isEntry ▸ List.mem_singleton_self text))
    have called : Gives (callee (leg.mark text)) st path _ :=
      gives_callee_of_new (by rintro ⟨⟩) new given
    have deeper : depth + 1 ≤ (st.adding (leg.path, [text]) path ws).ws.routines.size := by
      have made := made_of_makeVariant h.grounded.tidy.housed given
      obtain ⟨added, keys, -⟩ := made.appends
      have size := congrArg List.length keys
      rw [Table.length_keys, List.length_append, Table.length_keys] at size
      have brought : path ∈ added := by
        refine (List.mem_append.1 (keys ▸ Table.mem_keys_iff.2 ⟨r, known⟩)).resolve_left fun old => ?_
        obtain ⟨_, taken⟩ := Table.mem_keys_iff.1 old
        cases made.free.symm.trans taken
      exact (Nat.succ_le_succ shallow).trans (size ▸ Nat.add_le_add_left (List.length_pos_of_mem brought) _)
    have longer' : ∀ entry ∈ (st.adding (leg.path, [text]) path ws).variants,
        ∀ earlier ∈ entry.1.2, earlier.length < (text ++ ",").length := by
      intro entry mem earlier isEarlier
      have comma : (text ++ ",").length = text.length + 1 := String.length_append ..
      rcases List.mem_cons.1 mem with rfl | mem
      · obtain rfl := List.mem_singleton.1 isEarlier
        omega
      · have := longer entry mem earlier isEarlier
        omega
    obtain ⟨st', inside⟩ := ih (h.moves (.of_callee called)) leg.next deeper longer'
    exact ⟨st', fails_of_inside (leg.find?_mark text) shallow called known commands inside⟩

end Relaying

/-- The routines that the relay is compiled to. -/
def Leg.routines : List (Path × Routine) :=
  [(⟨["main"]⟩, { Routine.ofRoot ⟨["main"]⟩ with
    commands := [.invoke [] (Leg.f.mark "a")], compiled := true }),
    (Leg.f.path, Leg.f.routine), (Leg.g.path, Leg.g.routine)]

theorem relay_compiles : ∃ read compiled, addSources {} [("", relay)] = .ok read ∧
    read.compile = (.ok (), compiled) ∧ compiled.lines = Leg.lines ∧
      compiled.routines.entries = Leg.routines := by
  decide +kernel

/-- Linking runs out of steps in the first routine that waits. -/
theorem Linking.exhausted_of_first {st st' : LinkState} {path : Path} {queue : List Path} {r : Routine}
    (waiting : st.queue = path :: queue) (new : path ∉ st.visited)
    (found : st.ws.routines.get? path = some r)
    (inside : Fails (resolveAll limit (r.commands.map (·.render st.ws.settings.pack)))
      (st.taking path queue) .exhausted st') : Fails (run (limit + 1)) st .exhausted st' := by
  have linked : Fails (Linking.routine limit path) (st.taking path queue) .exhausted st' := by
    simp only [Linking.routine, fails_bind, LinkM.gives_onWorkspace, WorkM.gives_routine,
      gives_get, fails_locate]
    exact .inr ⟨r, _, ⟨_, ⟨found, rfl⟩, rfl⟩, .inr ⟨_, _, ⟨rfl, rfl⟩, .inl ⟨_, inside, rfl⟩⟩⟩
  simp only [run, fails_bind, WorkM.fails_get, gives_get, false_or]
  refine ⟨_, _, ⟨rfl, rfl⟩, ?_⟩
  rw [waiting]
  simp only [fails_bind, WorkM.fails_set, WorkM.gives_set, if_neg new, WorkM.fails_modify,
    WorkM.gives_modify, false_or]
  exact ⟨(), _, rfl, (), _, rfl, .inl linked⟩

namespace Pack

/-- A program can be built within some number of steps, or is refused, if and only if only so many
variants are made while it is linked, however many steps are taken; and more steps than it needs
make no difference. Compiling always ends, and so does linking if no definition has string
parameters. -/
theorem build_ends_iff (settings : Settings) (sources : List (String × String)) :
    ((∃ limit, Pack.build limit settings sources ≠ .error .exhausted) ↔
      ∀ read compiled, addSources { settings } sources = .ok read →
        read.compile = (.ok (), compiled) →
          ∃ bound, ∀ limit, compiled.variantsMade limit ≤ bound) ∧
    (∀ limit, Pack.build limit settings sources ≠ .error .exhausted → ∀ limit', limit ≤ limit' →
      Pack.build limit' settings sources = Pack.build limit settings sources) ∧
    ∀ read compiled, addSources { settings } sources = .ok read →
      read.compile = (.ok (), compiled) →
        (∀ path r, compiled.routines.get? path = some r → r.template = none) →
          ∀ limit, 2 * compiled.routines.size + 2 < limit →
            Pack.build limit settings sources ≠ .error .exhausted := by
  refine ⟨⟨?_, fun few => ?_⟩, fun limit ended limit' more => ?_, ?_⟩
  · rintro ⟨limit, ended⟩ read compiled reads compiles
    rw [build_of_compile reads compiles] at ended
    exact (link_ends_iff (housed_of_compile reads compiles)).1 ⟨limit, ended⟩
  · by_contra endless
    push Not at endless
    obtain ⟨read, compiled, reads, compiles, -⟩ := build_eq_exhausted_iff.1 (endless 0)
    obtain ⟨limit, ended⟩ := (link_ends_iff (housed_of_compile reads compiles)).2
      (few read compiled reads compiles)
    exact ended (build_of_compile reads compiles ▸ endless limit)
  · by_cases linked : ∃ read compiled, addSources { settings } sources = .ok read ∧
        read.compile = (.ok (), compiled)
    · obtain ⟨read, compiled, reads, compiles⟩ := linked
      rw [build_of_compile reads compiles] at ended ⊢
      rw [build_of_compile reads compiles, (link_of_le more ended).1]
    · exact build_congr_of_uncompiled limit limit' fun read compiled reads compiles =>
        linked ⟨read, compiled, reads, compiles⟩
  · intro read compiled reads compiles none limit enough
    rw [build_of_compile reads compiles]
    exact link_ne_exhausted_of_untemplated (housed_of_compile reads compiles) none enough

/-- A definition that is called with two texts. -/
def greetings : String :=
  "def greet who#s:\n    say who\n    say bye\ngreet ann\ngreet bob"

/-- However many steps are taken, no more than so many variants are made of the greetings. -/
theorem build_ends_iff_greetings : ∀ read compiled, addSources {} [("", greetings)] = .ok read →
    read.compile = (.ok (), compiled) → ∃ bound, ∀ limit, compiled.variantsMade limit ≤ bound :=
  (build_ends_iff {} [("", greetings)]).1.1 ⟨100, by decide +kernel⟩

/-- The relay is built in no number of steps: the text that is handed on grows with each call, and
with each variant one more call may be nested. -/
theorem build_relay_endless :
    ¬ ∃ limit, Pack.build limit {} [("", relay)] ≠ .error .exhausted := by
  obtain ⟨read, compiled, reads, compiles, lines, entries⟩ := relay_compiles
  rintro ⟨limit, ended⟩
  refine ended (build_eq_exhausted_iff.2 ⟨read, compiled, reads, compiles,
    link_eq_exhausted_iff.2 ?_⟩)
  have found {q : Path} {r : Routine} (mem : (q, r) ∈ Leg.routines) :
      compiled.routines.get? q = some r := (Table.get?_eq_some_iff ..).2 (entries ▸ mem)
  have relaying : Relaying compiled.linkState :=
    ⟨((unbuilt_of_addSources reads).grounded_linkState compiles).1, lines, fun leg =>
      ⟨leg.routine, found (by cases leg <;> simp [Leg.routines]), .refl _⟩⟩
  cases limit with
  | zero => exact ⟨_, WorkM.fails_throw.2 ⟨rfl, rfl⟩⟩
  | succ limit =>
    have waiting : compiled.linkState.queue = [⟨["main"]⟩] := by
      rw [linkState, Table.values, entries]
      rfl
    have taken : Relaying (compiled.linkState.taking ⟨["main"]⟩ []) :=
      ⟨relaying.grounded.take waiting, relaying.lines, relaying.legs⟩
    obtain ⟨st, inside⟩ : ∃ st, Fails (resolve limit 0 (Leg.f.mark "a").render) _ _ st :=
      taken.exhausted .f (Nat.zero_le _) (List.forall_mem_nil _)
    exact ⟨st, exhausted_of_first waiting List.not_mem_nil (found (.head _))
      (fails_bind.2 (.inl inside))⟩

end Pack

end CommandPack
