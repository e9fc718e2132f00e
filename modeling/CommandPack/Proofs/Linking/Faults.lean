import CommandPack.Proofs.Linking.Hitches
import CommandPack.Proofs.Linking.Objectives
import CommandPack.Proofs.Lowering.Clashes
import CommandPack.Proofs.Source.Places

/-!
# Faults of builds

A build that fails names a line of its sources that has text, whether it fails in reading, in
compiling, in linking or in a variant that linking compiles. It fails for a path that is taken only
if two definitions of one block have the same name.
-/

namespace CommandPack

open Workspace Linking WorkM Text

/-! ### Variants have room -/

section Variants

variable {ws ws' : Workspace} {callee path : Path} {arguments : List String} {r : Routine}
  {template : Template} {halt : Halt}

/-- The next number of a template is free. -/
theorem Workspace.Rooted.free_nextPath (rooted : ws.Rooted)
    (found : ws.routines.get? callee = some r) (isTemplate : r.template = some template) :
    ws.routines.get? (nextPath callee template) = none := by
  cases taken : ws.routines.get? (nextPath callee template) with
  | none => rfl
  | some =>
    obtain ⟨n, early, same⟩ := rooted.counted found isTemplate taken
    have := (BlockRole.segment_injective same).2
    omega

/-- One more variant of a template. -/
theorem Workspace.Rooted.prepared (rooted : ws.Rooted)
    (found : ws.routines.get? callee = some r) (isTemplate : r.template = some template) :
    (prepared callee r template arguments ws).Rooted := by
  -- a routine is the new one, or it was there and at most its count has changed
  have before {q : Path} {r' : Routine}
      (now : (Linking.prepared callee r template arguments ws).routines.get? q = some r') :
      q = nextPath callee template ∧ r' = variant r (nextPath callee template) arguments ∨
        ∃ r₀, ws.routines.get? q = some r₀ ∧ r' = if q = callee then
          { r₀ with template := some { template with counter := template.counter + 1 } }
          else r₀ := by
    rw [get?_prepared, get?_counted] at now
    split at now
    · next here => exact .inl ⟨here, (Option.some.inj now).symm⟩
    · obtain ⟨r₀, known, rfl⟩ := Option.map_eq_some_iff.1 now
      exact .inr ⟨r₀, known, rfl⟩
  obtain ⟨defined, strings⟩ := rooted.deferred found isTemplate
  obtain ⟨early, late⟩ := rooted.anchored found
  have length : (nextPath callee template).segments.length = callee.segments.length + 1 := by
    simp [nextPath, Path.block, Path.child]
  constructor
  · intro q r' now
    rcases before now with ⟨_, rfl⟩ | ⟨r₀, known, rfl⟩
    · exact ⟨early, fun _ => late (by rw [defined]; rintro ⟨⟩)⟩
    · have still := rooted.anchored known
      split <;> exact still
  · intro q r' name some' now
    have above : ∃ parent, ws.routines.get? q = some parent := by
      rcases before now with ⟨here, _⟩ | ⟨_, known, _⟩
      · obtain ⟨rfl, _⟩ := Path.child_injective here
        exact ⟨r, found⟩
      · exact rooted.parents some' known
    obtain ⟨parent, known⟩ := above
    rw [get?_prepared, get?_counted, known]
    split <;> exact ⟨_, rfl⟩
  · intro q r' template' now isTemplate'
    rcases before now with ⟨_, rfl⟩ | ⟨r₀, known, rfl⟩
    · cases isTemplate'
    · split at isTemplate'
      · next here =>
        subst here
        rw [found] at known
        cases known
        rw [if_pos rfl]
        exact ⟨defined, strings⟩
      · next other =>
        rw [if_neg other]
        exact rooted.deferred known isTemplate'
  · intro q r' inner template' name now isTemplate' nowInner
    rcases before now with ⟨_, rfl⟩ | ⟨r₀, known, rfl⟩
    · cases isTemplate'
    · split at isTemplate'
      · next here =>
        subst here
        cases isTemplate'
        rcases before nowInner with ⟨here, _⟩ | ⟨_, knownInner, _⟩
        · exact ⟨template.counter, Nat.lt_succ_self _, (Path.child_injective here).2⟩
        · obtain ⟨n, small, same⟩ := rooted.counted found isTemplate knownInner
          exact ⟨n, Nat.lt_succ_of_lt small, same⟩
      · next other =>
        rcases before nowInner with ⟨here, _⟩ | ⟨_, knownInner, _⟩
        · exact absurd (Path.child_injective here).1 other
        · exact rooted.counted known isTemplate' knownInner

/-- A variant has room for all that is compiled in it. -/
theorem Linking.prepared_clear {body : Body} (housed : ws.Housed) (rooted : ws.Rooted)
    (found : ws.routines.get? callee = some r) (isTemplate : r.template = some template) :
    (Task.routine (nextPath callee template) none).Clear (nextPath callee template)
      (body, prepared callee r template arguments ws) := by
  have free := rooted.free_nextPath found isTemplate
  obtain ⟨_, housed'⟩ := @prepared_housed ws callee arguments r template housed found free
  have rooted' : (prepared callee r template arguments ws).Rooted :=
    rooted.prepared found isTemplate
  have known : (prepared callee r template arguments ws).routines.get? (nextPath callee template) =
      some (variant r (nextPath callee template) arguments) := by
    rw [get?_prepared, if_pos rfl]
  have childless (name : String) : (prepared callee r template arguments ws).routines.get?
      ((nextPath callee template).child name) = none := by
    rw [get?_prepared, if_neg, get?_counted, Option.map_eq_none_iff]
    · exact rooted.childless (by simp [nextPath, Path.block, Path.child]) free name
    · intro same
      have := congrArg (List.length ∘ Path.segments) same
      simp [Path.child] at this
  have direct : (variant r (nextPath callee template) arguments).Direct := by
    rintro ⟨⟩
  have room : Room (variant r (nextPath callee template) arguments).path
      (variant r (nextPath callee template) arguments) r.start (ws.lines.drop r.start) {}
      (prepared callee r template arguments ws) :=
    .of_childless rooted' rfl known direct childless
  exact .routine housed' rooted' known (Routine.placed_self rfl) childless room

theorem Linking.sameText_prepared :
    ws.SameText (prepared callee r template arguments ws) :=
  ⟨rfl, rfl⟩

/-- A variant that cannot be made. -/
theorem Linking.told_of_unmade (rooted : ws.Rooted) (housed : ws.Housed)
    (unmade : Unmade ws callee arguments halt ws') :
    ws.SameText ws' ∧ ∀ fault, halt = .fault fault →
      fault.Told true ws ∧ (fault.place = none → ws.Develops ws') := by
  cases unmade with
  | unknown =>
    refine ⟨.refl ws, ?_⟩
    rintro _ ⟨⟩
    exact ⟨⟨.inr ⟨rfl, rfl⟩, fun _ => Fault.repeated_of_other rfl⟩, fun _ => .refl ws⟩
  | early =>
    refine ⟨.refl ws, ?_⟩
    rintro _ ⟨⟩
    exact ⟨⟨.inr ⟨rfl, rfl⟩, fun _ => Fault.repeated_of_other rfl⟩, fun _ => .refl ws⟩
  | taken found isTemplate taken =>
    rw [rooted.free_nextPath found isTemplate] at taken
    cases taken
  | inside found isTemplate _ failed =>
    obtain ⟨same, told⟩ := (breaking_compile _ {} failed).told
      (prepared_clear housed rooted found isTemplate)
    refine ⟨⟨same.lines, same.sources⟩, fun fault isFault => ?_⟩
    have told : fault.Told false ws := (told fault isFault).of_sameText sameText_prepared id
    refine ⟨⟨told.placed.imp_right nofun, told.repeated⟩, fun none => ?_⟩
    rcases told.placed with ⟨_, _, place⟩ | ⟨never, _⟩
    · rw [none] at place
      cases place
    · cases never

end Variants

/-! ### States of linking -/

/-- A state of linking in good order. Without lines there are no commands. -/
structure LinkState.Grounded (st : LinkState) : Prop where
  tidy : st.Tidy
  rooted : st.ws.Rooted
  blank {q : Path} {r : Routine} : st.ws.lines = [] → st.ws.routines.get? q = some r →
    r.commands = []

namespace LinkState.Grounded

variable {st mid st' : LinkState} {path : Path} {limit depth : Nat} {line : String}
  {lines : List String} {halt : Halt}

theorem move (h : st.Grounded) (move : Move st st') :
    st'.Grounded ∧ st.ws.SameText st'.ws ∧ st.ws.Develops st'.ws := by
  have tidy := h.tidy.move move
  cases move with
  | make found isTemplate free compiled =>
    obtain ⟨rooted, _⟩ := compiled.rooted (prepared_clear h.tidy.housed h.rooted found isTemplate)
    have same := sameText_prepared.trans compiled.logs.1
    refine ⟨⟨tidy, rooted.of_akin (.of_routines rfl rfl), fun none _ => ?_⟩,
      ⟨same.lines, same.sources⟩,
      (made_of_ran h.tidy.housed found isTemplate free compiled).develops⟩
    -- a template has a header
    obtain ⟨early, late⟩ := h.rooted.anchored found
    have := late (by rw [(h.rooted.deferred found isTemplate).1]; nofun)
    have length := congrArg List.length (same.lines.symm.trans none)
    rw [List.length_nil] at length
    omega
  | @keep target =>
    have akin : st.ws.Akin (st.ws.updateRoutine target ({ · with used := true })) :=
      .of_update target fun _ => rfl
    refine ⟨⟨tidy, ?_, fun none found => ?_⟩, ?_, ?_⟩
    · rw [ws_keeping]
      exact h.rooted.of_akin akin
    · rw [ws_keeping] at none found
      obtain ⟨r₀, found₀, rfl⟩ := found_before found
      have still := h.blank none found₀
      split <;> exact still
    · rw [ws_keeping]
      exact ⟨rfl, rfl⟩
    · rw [ws_keeping]
      exact (Alike.used ..).develops

theorem moves (h : st.Grounded) (moves : Moves st st') :
    st'.Grounded ∧ st.ws.SameText st'.ws ∧ st.ws.Develops st'.ws := by
  induction moves with
  | refl => exact ⟨h, .refl _, .refl _⟩
  | tail _ last ih =>
    obtain ⟨grounded, same, develops⟩ := ih
    obtain ⟨grounded', same', develops'⟩ := grounded.move last
    exact ⟨grounded', same.trans same', develops.trans develops'⟩

/-- Resolving a line fails at the line of a variant, or leaves the place open. -/
theorem told_of_resolve (h : st.Grounded)
    (failed : Fails (resolve limit depth line) st halt st') :
    st.ws.SameText st'.ws ∧ ∀ fault, halt = .fault fault →
      fault.Told true st.ws ∧ (fault.place = none → st.ws.Develops st'.ws) := by
  induction limit generalizing depth line st with
  | zero =>
    obtain ⟨rfl, rfl⟩ := fails_throw.1 failed
    exact ⟨.refl _, nofun⟩
  | succ _ ih =>
    -- a fault that linking itself finds
    have bare {st' : LinkState} {cause : Cause} (other : cause.isClash = false)
        (develops : st.ws.Develops st'.ws) : ∀ fault, Halt.fault { cause } = .fault fault →
          fault.Told true st.ws ∧ (fault.place = none → st.ws.Develops st'.ws) := by
      rintro _ ⟨⟩
      exact ⟨⟨.inr ⟨rfl, rfl⟩, fun _ => Fault.repeated_of_other other⟩, fun _ => develops⟩
    cases trouble_of_fails failed with
    | unbound => exact ⟨.refl _, bare rfl (.refl _)⟩
    | deep => exact ⟨.refl _, bare rfl (.refl _)⟩
    | variant _ _ _ _ unmade =>
      exact told_of_unmade h.rooted h.tidy.housed (unmade_of_fails unmade)
    | unknown _ _ called =>
      obtain ⟨_, same, develops⟩ := h.moves (.of_callee called)
      exact ⟨same, bare rfl develops⟩
    | inside _ _ called _ _ inside =>
      obtain ⟨grounded, same, develops⟩ := h.moves (.of_callee called)
      obtain ⟨same', told⟩ := ih grounded inside
      exact ⟨same.trans same', fun fault isFault =>
        ⟨(told fault isFault).1.of_sameText same id, fun none =>
          develops.trans ((told fault isFault).2 none)⟩⟩

theorem told_of_resolveAll (h : st.Grounded)
    (failed : Fails (resolveAll limit lines) st halt st') :
    st.ws.SameText st'.ws ∧ ∀ fault, halt = .fault fault →
      fault.Told true st.ws ∧ (fault.place = none → st.ws.Develops st'.ws) := by
  induction lines generalizing st with
  | nil => exact absurd failed fails_pure
  | cons _ _ ih =>
    simp only [resolveAll, fails_bind, fails_pure, and_false, exists_false,
      or_false] at failed
    rcases failed with first | ⟨out, mid, given, later⟩
    · exact h.told_of_resolve first
    · obtain ⟨grounded, same, develops⟩ := h.moves (.of_resolve given)
      obtain ⟨same', told⟩ := ih grounded later
      exact ⟨same.trans same', fun fault isFault =>
        ⟨(told fault isFault).1.of_sameText same id, fun none =>
          develops.trans ((told fault isFault).2 none)⟩⟩

/-- Linking a routine fails at the line of a variant or at the header of the routine. -/
theorem told_of_routine (h : st.Grounded) (known : st.ws.Knows path)
    (failed : Fails (routine limit path) st halt st') :
    ∀ fault, halt = .fault fault → fault.Told false st.ws := by
  obtain ⟨r, found⟩ := known
  obtain ⟨inner, unplaced, rfl⟩ := fails_routine h.tidy found failed
  obtain ⟨same, told⟩ := h.told_of_resolveAll unplaced
  intro fault isFault
  cases inner with
  | exhausted => cases isFault
  | fault inner =>
    cases isFault
    obtain ⟨told, develops⟩ := told inner rfl
    cases place : inner.place with
    | some =>
      have still : inner.locate (st'.ws.placeOf path) = inner := by
        rw [Fault.locate, place, Option.isSome_some, if_pos rfl]
      rw [still]
      refine ⟨told.placed.imp_right fun open' => ?_, told.repeated⟩
      rw [place] at open'
      cases open'.2
    | none =>
      obtain ⟨r', found', origin⟩ := (develops place).kept found
      have header : st'.ws.placeOf path = st'.ws.placeAt (r.start - 1) := by
        rw [placeOf, found', Option.map_some, Option.getD_some,
          Routine.start_of_origin origin]
      rw [header]
      refine told.locate same ?_
      -- a routine with commands has a header, unless it is the root of some lines
      have early := (h.rooted.anchored found).1
      have some' : st.ws.lines ≠ [] := by
        intro none
        rw [h.blank none found] at unplaced
        exact absurd unplaced fails_pure
      have := List.length_pos_iff.2 some'
      omega

theorem take (h : st.Grounded) {queue : List Path} (waiting : st.queue = path :: queue) :
    (st.taking path queue).Grounded :=
  ⟨(h.tidy.take waiting).2, h.rooted, h.blank⟩

/-- Linking a routine. -/
theorem routine (h : st.Grounded) (given : Gives (routine limit path) st () st') :
    st'.Grounded ∧ st.ws.SameText st'.ws := by
  obtain ⟨tidy, -⟩ := tidy_of_routine h.tidy given
  obtain ⟨r, lines, mid, found, resolved, -, rfl⟩ := gives_routine.1 given
  obtain ⟨grounded, same, -⟩ := h.moves (.of_resolveAll resolved)
  refine ⟨⟨tidy, grounded.rooted.of_akin (.of_update path fun _ => rfl), fun none now => ?_⟩,
    ⟨same.lines, same.sources⟩⟩
  have none' : st.ws.lines = [] := same.lines.symm.trans none
  obtain ⟨r₀, found₀, rfl⟩ := found_before now
  split
  · have empty : lines = [] := by
      rw [h.blank none' found] at resolved
      exact (gives_pure.1 resolved).1
    rw [empty]
    rfl
  · exact grounded.blank none found₀

/-- Linking fails at one of the lines. -/
theorem told_of_run (h : st.Grounded) (failed : Fails (run limit) st halt st') :
    ∀ fault, halt = .fault fault → fault.Told false st.ws := by
  induction limit generalizing st with
  | zero =>
    obtain ⟨rfl, -⟩ := fails_throw.1 failed
    exact nofun
  | succ _ ih =>
    obtain ⟨path, queue, waiting, failed⟩ := fails_run h.tidy failed
    have taken := h.take waiting
    have known : (st.taking path queue).ws.Knows path := taken.tidy.known (.inl (.head _))
    rcases failed with now | ⟨mid, given, later⟩
    · exact taken.told_of_routine known now
    · obtain ⟨grounded, same⟩ := taken.routine given
      exact fun fault isFault => (ih grounded later fault isFault).of_sameText same id

end LinkState.Grounded

/-! ### The prelude -/

namespace Workspace

variable {ws : Workspace}

/-- All that the prelude declares has a slot. -/
theorem Booked.addPrelude (h : ws.Booked) : ∃ final, ws.prune.unshield.addPrelude = .ok final := by
  obtain ⟨-, sameInts, sameConstants⟩ := ws.prune_unshield_frame
  unfold Workspace.addPrelude
  split
  · exact ⟨_, rfl⟩
  · rcases prelude_cases ws.prune.unshield with ⟨_, _, -, -, made⟩ | ⟨⟨path, declared, none⟩, -⟩
    · rw [made]
      exact ⟨_, rfl⟩
    · rw [sameInts, sameConstants] at declared
      rw [slots_prune_unshield] at none
      exact absurd (h.keys.2 declared) none

end Workspace

/-! ### Builds -/

namespace Workspace.Unbuilt

variable {settings : Settings} {ws compiled final : Workspace} {limit : Nat} {halt : Halt}

/-- The root has room for all that is compiled in it. -/
theorem clear_withRoot (h : Unbuilt settings ws) :
    (Task.routine settings.rootPath none).Clear settings.rootPath ({}, ws.withRoot) := by
  have alone {q : Path} {name : String} (some' : q.segments ≠ []) :
      ws.withRoot.routines.get? (q.child name) = none := by
    rw [h.get?_withRoot, if_neg]
    intro same
    have length := congrArg (List.length ∘ Path.segments) same
    simp only [Function.comp_apply, Path.child, Settings.rootPath, Path.root,
      List.length_append, List.length_singleton, Nat.add_eq_right, List.length_eq_zero_iff] at length
    exact some' length
  have rooted : ws.withRoot.Rooted := by
    constructor
    · intro q r known
      obtain ⟨-, rfl⟩ := h.only_root known
      exact ⟨Nat.zero_le _, fun other => absurd rfl other⟩
    · intro q r name some' known
      rw [alone some'] at known
      cases known
    · intro q r template known isTemplate
      obtain ⟨-, rfl⟩ := h.only_root known
      cases isTemplate
    · intro q r inner template name known isTemplate
      obtain ⟨-, rfl⟩ := h.only_root known
      cases isTemplate
  have childless (name : String) :
      ws.withRoot.routines.get? (settings.rootPath.child name) = none :=
    alone (by rintro ⟨⟩)
  have direct : (Routine.ofRoot settings.rootPath).Direct := by
    rintro ⟨⟩
  have room : Room (Routine.ofRoot settings.rootPath).path (.ofRoot settings.rootPath) 0
      (ws.lines.drop 0) {} ws.withRoot :=
    .of_childless rooted rfl h.found_root direct childless
  exact .routine h.housed_withRoot rooted h.found_root (Routine.placed_self rfl) childless room

theorem told_of_compile (h : Unbuilt settings ws) (failed : ws.compile = (.error halt, final)) :
    ∀ fault, halt = .fault fault → fault.Told false ws := by
  rw [compile, h.register_root] at failed
  simp only [compileRoutine, h.settings] at failed
  split at failed
  · cases failed
  · next stuck =>
    cases failed
    obtain ⟨-, told⟩ := (breaking_compile _ {} stuck).told h.clear_withRoot
    exact fun fault isFault => (told fault isFault).of_sameText ⟨rfl, rfl⟩ id

theorem grounded_linkState (h : Unbuilt settings ws) (compiled : ws.compile = (.ok (), final)) :
    final.linkState.Grounded ∧ ws.SameText final := by
  obtain ⟨visits, ran⟩ := h.ran compiled
  obtain ⟨-, housed⟩ := ran.housed h.housed_withRoot (by rintro _ ⟨⟩)
  obtain ⟨rooted, -, -⟩ := ran.rooted h.clear_withRoot
  have same : ws.SameText final := ⟨ran.logs.1.lines, ran.logs.1.sources⟩
  refine ⟨⟨.linkState housed, rooted, fun {q r} none known => ?_⟩, same⟩
  -- without lines the root is passed over and stays empty
  cases ran with
  | @skip _ _ _ _ self =>
    change (Lowering.stored self {} _).routines.get? q = some r at known
    rw [Lowering.stored, updateRoutine, Table.get?_modify] at known
    obtain ⟨r₀, known₀, rfl⟩ := Option.map_eq_some_iff.1 known
    have before : ws.withRoot.routines.get? q = some r₀ := known₀
    obtain ⟨-, rfl⟩ := h.only_root before
    split <;> rfl
  | run _ starts =>
    have empty : ws.lines = [] := same.lines.symm.trans none
    change ws.lines.drop _ = _ at starts
    rw [empty, List.drop_nil] at starts
    cases starts

theorem booked_of_run {linked : LinkState} (h : Unbuilt settings ws)
    (compiled : ws.compile = (.ok (), final))
    (runs : Gives (run limit) final.linkState () linked) : linked.ws.Booked := by
  obtain ⟨visits, ran⟩ := h.ran compiled
  obtain ⟨-, housed⟩ := ran.housed h.housed_withRoot (by rintro _ ⟨⟩)
  obtain ⟨_, _, rounds⟩ := traced_run (.linkState housed) runs
  obtain ⟨sound, -⟩ := ran.disciplined (Discipline.scoring ws.lines)
    (h.ready _ h.composing_withRoot ⟨nofun, nofun, nofun⟩)
  exact (Discipline.Linked.rounds (Discipline.links_scoring _) rounds sound).sound.holds.booked

end Workspace.Unbuilt

namespace Pack

variable {limit : Nat} {settings : Settings} {sources : List (String × String)} {fault : Fault}

/-- A build fails in reading, or with a fault that is about the lines that are read. -/
theorem told_of_build (failed : Pack.build limit settings sources = .error (.fault fault)) :
    addSources { settings } sources = .error fault ∨
      ∃ read, addSources { settings } sources = .ok read ∧ fault.Told false read := by
  unfold build at failed
  split at failed
  · next unread =>
    cases failed
    exact .inl unread
  · next read reads =>
    have unbuilt := unbuilt_of_addSources reads
    refine .inr ⟨read, reads, ?_⟩
    split at failed
    · next uncompiled =>
      cases failed
      exact unbuilt.told_of_compile uncompiled fault rfl
    · next compiled compiles =>
      obtain ⟨grounded, same⟩ := unbuilt.grounded_linkState compiles
      have linking : compiled.link limit = (.error (.fault fault), (compiled.link limit).2) :=
        Prod.ext failed rfl
      unfold link at linking
      split at linking
      · next stuck =>
        cases linking
        exact (grounded.told_of_run stuck fault rfl).of_sameText same id
      · next linked runs =>
        -- the prelude cannot fail, since every variable and constant has a slot
        obtain ⟨final, added⟩ := (unbuilt.booked_of_run compiles runs).addPrelude
        simp only [added] at linking
        cases linking

/-- If a build fails with a fault, then the fault has a place, which names one of the sources, or
none if its name is empty, and a line of it with text. -/
theorem build_places_faults (failed : Pack.build limit settings sources = .error (.fault fault)) :
    ∃ place, fault.place = some place ∧ place.PointsInto sources := by
  rcases told_of_build failed with unread | ⟨read, reads, told⟩
  · obtain ⟨-, place, placed, points⟩ := pointsInto_of_addSources unread
    exact ⟨place, placed, points⟩
  · rcases told.placed with ⟨i, within, placed⟩ | ⟨never, -⟩
    · exact ⟨_, placed, (cites_of_addSources reads).placeAt within⟩
    · cases never

/-- A block of a variant, which is compiled when the call in the other source is linked. -/
def faultyVariant : List (String × String) :=
  [("a", "# note\n\ndef f x#s:\n    say x\n    if go:\n        x = 1\n        say 1"),
    ("b", "say 1\nf hi")]

theorem build_places_faults_faultyVariant :
    ∃ fault, Pack.build 100 {} faultyVariant = .error (.fault fault) ∧
      fault.cause = .stringReassignment "x" ∧
      fault.place.map (fun place => (place.source, place.line)) = some (some "a", 6) ∧
      ∃ place, fault.place = some place ∧ place.PointsInto faultyVariant := by
  obtain ⟨fault, failed, cause, placed⟩ : ∃ fault,
      Pack.build 100 {} faultyVariant = .error (.fault fault) ∧
        fault.cause = .stringReassignment "x" ∧
        fault.place.map (fun place => (place.source, place.line)) = some (some "a", 6) := by
    decide +kernel
  exact ⟨fault, failed, cause, placed, build_places_faults failed⟩

/-- If a build of at most as many lines as an unsigned number can count fails because a path is
taken, then the path is that of a definition: the fault is at the second of two lines of one block
that define the same name, and never at a block, a rest of a block or a variant. -/
theorem build_clashes_only_definitions {name : String}
    (failed : Pack.build limit settings sources = .error (.fault fault))
    (clash : fault.cause = .duplicateFunction name)
    (short : (sources.map fun source => (lines source.2).length).sum ≤ maxUnsigned) :
    Name.isFunction name = true ∧ ∃ read i j, addSources { settings } sources = .ok read ∧
      Repeats read.lines i j name ∧ fault.place = some (read.placeAt j) := by
  rcases told_of_build failed with unread | ⟨read, reads, told⟩
  · obtain ⟨cause, -⟩ := pointsInto_of_addSources unread
    rw [clash] at cause
    cases cause
  · have length : read.lines.length ≤ maxUnsigned := by
      refine (length_addSources reads).trans ?_
      rwa [List.length_nil, Nat.zero_add]
    obtain ⟨i, j, repeats, placed⟩ := told.repeated length name clash
    obtain ⟨_, _, _, _, -, -, -, -, -, parsed, -, rfl, -⟩ := repeats.headers
    exact ⟨Signature.isFunction_of_parse parsed, read, i, j, reads, repeats, placed⟩

/-- A block may define a name again, but not the same block. -/
def twoDefinitions : List (String × String) :=
  [("", "def f:\n    say 1\nif a:\n    def f:\n        say 2\n    f\ndef f x#i:\n    say 2")]

theorem build_clashes_only_definitions_twoDefinitions :
    ∃ fault, Pack.build 100 {} twoDefinitions = .error (.fault fault) ∧
      fault.cause = .duplicateFunction "f" ∧
      (twoDefinitions.map fun source => (lines source.2).length).sum ≤ maxUnsigned ∧
      fault.place.map Place.line = some 7 ∧
      Name.isFunction "f" = true ∧ ∃ read i j, addSources { settings := {} } twoDefinitions =
        .ok read ∧ Repeats read.lines i j "f" ∧ fault.place = some (read.placeAt j) := by
  obtain ⟨fault, failed, clash, placed⟩ : ∃ fault,
      Pack.build 100 {} twoDefinitions = .error (.fault fault) ∧
        fault.cause = .duplicateFunction "f" ∧ fault.place.map Place.line = some 7 := by
    decide +kernel
  have short : (twoDefinitions.map fun source => (lines source.2).length).sum ≤
      maxUnsigned := by decide +kernel
  exact ⟨fault, failed, clash, short, placed, build_clashes_only_definitions failed clash short⟩

end Pack

end CommandPack
