import CommandPack.Proofs.Lowering.Visits

/-!
# What a compilation leaves alone

A part of a compilation changes the routines that it makes, the definitions of its own block and
what these go on in. Routines that stand apart from all of them are the same afterwards, so a
variant can be compiled in a workspace without touching the routines that are there.
-/

namespace CommandPack

open Workspace BodyM Lowering

namespace Workspace

variable {old : Path → Prop} {ws ws₁ ws' : Workspace} {path : Path}

/-- A routine that a compilation may change. -/
def Open (old : Path → Prop) (ws : Workspace) (path : Path) : Prop :=
  ¬ old path ∧ ∃ r, ws.routines.get? path = some r

theorem Open.mono (h : ws.Open old path) (develops : ws.Develops ws') : ws'.Open old path := by
  obtain ⟨other, r, found⟩ := h
  obtain ⟨r', found', _⟩ := develops.kept found
  exact ⟨other, r', found'⟩

/-- Some routines stand apart from all others: a definition among them is one of a routine among
them, and no other routine goes on in one of them. -/
structure Apart (old : Path → Prop) (ws : Workspace) : Prop where
  known {q : Path} : old q → ∃ r, ws.routines.get? q = some r
  homes {q home : Path} {r : Routine} {name : String} : old q → ws.routines.get? q = some r →
    r.kind = .defined → q = home.child name → old home
  joined {q next : Path} {r : Routine} : ws.routines.get? q = some r → ¬ old q →
    r.continuation = some next → ws.Open old next

theorem Apart.not_old (h : ws.Apart old) (free : ws.routines.get? path = none) : ¬ old path := by
  intro isOld
  obtain ⟨r, found⟩ := h.known isOld
  rw [free] at found
  cases found

theorem Apart.develop (h : ws.Apart old) (develops : ws.Develops ws')
    (joined : ∀ {q next r'}, ws'.routines.get? q = some r' → ¬ old q →
      r'.continuation = some next →
        (∃ r, ws.routines.get? q = some r ∧ r.continuation = some next) ∨ ws'.Open old next) :
    ws'.Apart old where
  known isOld := by
    obtain ⟨r, found⟩ := h.known isOld
    obtain ⟨r', found', _⟩ := develops.kept found
    exact ⟨r', found'⟩
  homes {q home r' name} isOld found' defined hq := by
    obtain ⟨r, found⟩ := h.known isOld
    obtain ⟨r'', found'', origin⟩ := develops.kept found
    rw [found'] at found''
    cases found''
    exact h.homes isOld found ((Routine.kind_of_origin origin).symm.trans defined) hq
  joined found' other onward := by
    rcases joined found' other onward with ⟨r, found, before⟩ | opened
    · exact (h.joined found other before).mono develops
    · exact opened

/-- From one workspace to a later one the routines that stand apart are the same. -/
structure Fenced (old : Path → Prop) (ws ws' : Workspace) : Prop where
  develops : ws.Develops ws'
  apart : ws'.Apart old
  same {q : Path} : old q → ws'.routines.get? q = ws.routines.get? q

theorem Fenced.trans (h : Fenced old ws ws₁) (h' : Fenced old ws₁ ws') : Fenced old ws ws' :=
  ⟨h.develops.trans h'.develops, h'.apart, fun isOld => (h'.same isOld).trans (h.same isOld)⟩

theorem Fenced.refl (h : ws.Apart old) : Fenced old ws ws :=
  ⟨.refl ws, h, fun _ => rfl⟩

theorem Fenced.of_routines (h : ws.Apart old) (routines : ws'.routines = ws.routines)
    (lines : ws'.lines = ws.lines) (settings : ws'.settings = ws.settings) :
    Fenced old ws ws' where
  develops := (Alike.of_routines routines lines settings).develops
  apart := h.develop (Alike.of_routines routines lines settings).develops fun found _ onward =>
    .inl ⟨_, routines ▸ found, onward⟩
  same _ := by rw [routines]

theorem Fenced.record (h : ws.Apart old) (event : Event) : Fenced old ws (ws.record event) :=
  .of_routines h rfl rfl rfl

/-- Changing a routine that does not stand apart. -/
theorem Fenced.of_update (h : ws.Apart old) (other : ¬ old path) {f : Routine → Routine}
    (origin : ∀ r, (f r).origin = r.origin)
    (joined : ∀ {r next}, ws.routines.get? path = some r → (f r).continuation = some next →
      r.continuation = some next ∨ ws.Open old next) :
    Fenced old ws (ws.updateRoutine path f) := by
  have develops : ws.Develops (ws.updateRoutine path f) := (Alike.of_update path origin).develops
  refine ⟨develops, h.develop develops ?_, fun {q} isOld => ?_⟩
  · intro q next r' found _ onward
    obtain ⟨r, old, rfl⟩ := found_before found
    split at onward
    · next same =>
      subst same
      exact (joined old onward).imp (fun before => ⟨r, old, before⟩)
        fun opened => opened.mono develops
    · exact .inl ⟨r, old, onward⟩
  · have ne : q ≠ path := fun same => other (same ▸ isOld)
    rw [updateRoutine, Table.get?_modify]
    simp only [ne, if_false, Option.map_id']

end Workspace

/-- What a body goes on with is there and does not stand apart. -/
structure Body.Apart (old : Path → Prop) (body : Body) (ws : Workspace) : Prop where
  onward {next : Path} : body.continuation = some next → ws.Open old next
  chained {chain : Chain} : body.previous = some chain → ws.Open old chain.branch

section Parts

variable {old : Path → Prop} {ws ws' : Workspace} {self : Routine} {site : Site} {body body' : Body}

theorem Body.Apart.mono (h : body.Apart old ws) (develops : ws.Develops ws') :
    body.Apart old ws' where
  onward next := (h.onward next).mono develops
  chained chain := (h.chained chain).mono develops

/-- Entering a body leaves the routines outside alone. -/
theorem Lowering.Enters.fenced (enters : Enters self ws ws') (housed : ws.Housed)
    (has : ws.Has self) (apart : ws.Apart old) (other : ¬ old self.path) :
    ws.Fenced old ws' := by
  obtain ⟨develops, housed', _⟩ := enters.housed housed has
  refine ⟨develops, apart.develop develops ?_, fun {q} isOld => ?_⟩
  · intro q next r' found _ onward
    rcases enters.adds found with old | ⟨_, _, _, _, _, _, _, _, rfl⟩
    · exact .inl ⟨r', old, onward⟩
    · cases onward
  · obtain ⟨r, found⟩ := apart.known isOld
    obtain ⟨r', found', origin⟩ := develops.kept found
    rcases enters.adds found' with same | ⟨_, _, _, _, _, _, _, hq, rfl⟩
    · rw [found', same]
    · -- a definition of this body is none of the routines outside
      have defined : r.kind = .defined := (Routine.kind_of_origin origin).symm
      exact absurd (apart.homes isOld found defined hq) other

/-- Opening a block leaves the routines outside alone. -/
theorem Block.opened_fenced {role : BlockRole} {path : Path} {n : Nat} (housed : ws.Housed)
    (has : ws.Has self) (apart : ws.Apart old) (hpath : path = Block.path self role n)
    (free : ws.routines.get? path = none) :
    ws.Fenced old (Block.opened self site role path ws) := by
  obtain ⟨develops, _⟩ : ws.Develops (Block.opened self site role path ws) ∧ _ :=
    Block.opened_housed housed has hpath free
  refine ⟨develops, apart.develop develops ?_, fun {q} isOld => ?_⟩
  · intro q next r' found _ onward
    rw [Block.get?_opened] at found
    split at found
    · cases found
      cases onward
    · exact .inl ⟨r', found, onward⟩
  · rw [Block.get?_opened, if_neg]
    rintro rfl
    exact apart.not_old free isOld

theorem Lowering.stored_fenced (apart : ws.Apart old) (other : ¬ old self.path)
    (onward : ∀ {next}, body.continuation = some next → ws.Open old next) :
    ws.Fenced old (stored self body ws) := by
  have recorded := Fenced.record apart (.routineDone self.path body.commands.length)
  refine recorded.trans (.of_update recorded.apart other (fun _ => rfl) fun _ next => .inr ?_)
  exact (onward next).mono (Alike.record ..).develops

/-- The last guarded block that a body goes on in. -/
theorem Loop.open_tail (apart : ws.Apart old) (limit : Nat) {path : Path}
    (h : ws.Open old path) : ws.Open old (Loop.tail ws limit path) := by
  induction limit generalizing path with
  | zero => exact h
  | succ _ ih =>
    rw [Loop.tail]
    split
    · next next found =>
      obtain ⟨r, foundRoutine, onward⟩ := Option.bind_eq_some_iff.1 found
      exact ih (apart.joined foundRoutine h.1 onward)
    · exact h

/-- Closing a loop changes its block and the last guarded block in it. -/
theorem Loop.close_fenced {block : Path} {header : List Clause} {pending : List Command} {u : Unit}
    (apart : ws.Apart old) (opened : ws.Open old block)
    (h : Gives (Loop.close block header pending) body ws u body' ws') : ws.Fenced old ws' := by
  obtain ⟨-, rfl⟩ := Loop.eq_of_close h
  refine have appended := ?_; Fenced.trans appended
    (.of_update appended.apart opened.1 (fun _ => rfl) fun _ next => .inl next)
  exact .of_update apart (Loop.open_tail apart _ opened).1 (fun _ => rfl) fun _ next => .inl next

/-- A header leaves all routines alone. -/
theorem Condition.header_fenced {text : String} {clauses : List Clause} (apart : ws.Apart old)
    (headed : Gives (Condition.header self.path text) body ws clauses body' ws') :
    ws.Fenced old ws' ∧ body'.continuation = body.continuation ∧
      body'.previous = body.previous := by
  obtain ⟨effects, _, _⟩ :
      Effects self (fun _ => True) False (body, ws) (body', ws') ∧ _ ∧ _ :=
    Condition.effects_header (fun _ _ => trivial) headed
  have kept := effects.kept
  exact ⟨.of_routines apart kept.routines kept.lines kept.settings, kept.continuation,
    kept.previous⟩

/-- What a statement does with its block leaves the routines outside alone. -/
theorem Block.Heads.fenced {block : Path} {st : Statement} {c c' : Stage}
    (heads : Block.Heads self block st c c') (apart : c.2.Apart old)
    (leads : c.1.Apart old c.2) (opened : c.2.Open old block) :
    c.2.Fenced old c'.2 ∧ c'.1.Apart old c'.2 := by
  obtain ⟨reworks, _⟩ := heads.reworks
  have develops := reworks.alike.develops
  have leads' := leads.mono develops
  have opened' := opened.mono develops
  cases heads with
  | branch headed =>
    obtain ⟨fenced, onward, _⟩ := Condition.header_fenced apart headed
    refine ⟨fenced, fun next => leads'.onward (onward ▸ next), fun chain => ?_⟩
    cases chain
    exact opened'
  | @otherwise _ _ _ ws _ previous _ _ chained headed =>
    have updated : ws.Fenced old (ws.updateRoutine previous.branch fun r =>
        { r with commands := .ensureMarker previous.tag :: r.commands }) :=
      .of_update apart (leads.chained chained).1 (fun _ => rfl) fun _ next => .inl next
    obtain ⟨fenced, onward, _⟩ := Condition.header_fenced updated.apart headed
    refine ⟨updated.trans fenced, fun next => leads'.onward (onward ▸ next), fun chain => ?_⟩
    cases chain
    exact opened'
  | times =>
    refine ⟨?_, leads'.onward, leads'.chained⟩
    split
    · exact .of_update apart opened.1 (fun _ => rfl) fun _ next => .inl next
    · exact .refl apart
  | @loop _ _ _ _ _ _ _ _ _ _ headed closes =>
    obtain ⟨fenced, onward, chain⟩ := Condition.header_fenced apart headed
    obtain ⟨rfl, _⟩ := Loop.close_reworks closes
    exact ⟨fenced.trans (Loop.close_fenced fenced.apart (opened.mono fenced.develops) closes),
      fun next => leads'.onward (onward ▸ next), fun next => leads'.chained (chain ▸ next)⟩

end Parts

/-! ### Where a part of a compilation stands -/

/-- The routine that a part of a compilation is about. -/
def Task.path : Task → Path
  | .routine path _ => path
  | .lines self .. | .statement self .. | .rest self .. => self.path

/-- What a part of a compilation goes on with does not stand apart. -/
def Task.Leads (old : Path → Prop) (c : Stage) : Task → Prop
  | .routine _ previous => ∀ chain, previous = some chain → c.2.Open old chain.branch
  | .lines .. | .statement .. => c.1.Apart old c.2
  | .rest _ _ _ block => c.1.Apart old c.2 ∧ ∃ r, c.2.routines.get? block = some r

/-- A part of a compilation is about to begin, and what it may change does not stand apart. -/
structure Task.Stands (old : Path → Prop) (task : Task) (c : Stage) : Prop where
  sits : ∃ home, ¬ old home ∧ task.Sits home c
  other : ¬ old task.path
  apart : c.2.Apart old
  leads : task.Leads old c

namespace Task.Stands

variable {old : Path → Prop} {path : Path} {previous : Option Chain} {self : Routine}
  {site : Site} {line : Line} {lines : List Line} {index : Nat} {opens opens' : Bool}
  {st : Statement} {body mid waiting : Body} {ws ws₁ : Workspace} {task : Task} {c c' : Stage}
  {visits : List Visit}

theorem housed (h : task.Stands old c) : c.2.Housed := by
  obtain ⟨_, _, sits⟩ := h.sits
  exact sits.housed

theorem has (h : task.Stands old c) : ∀ self, task.self? = some self → c.2.Has self := by
  obtain ⟨_, _, sits⟩ := h.sits
  exact sits.has

theorem leading (h : task.Stands old c) (isBody : task.self? = some self) : c.1.Apart old c.2 := by
  obtain ⟨_, _, _, leads⟩ := h
  cases task with
  | routine => cases isBody
  | lines | statement => exact leads
  | rest => exact leads.1

theorem open_routine (h : (Task.routine path previous).Stands old c) : c.2.Open old path := by
  obtain ⟨home, _, sits⟩ := h.sits
  cases sits with
  | routine _ found => exact ⟨h.other, _, found⟩

/-- The lines of a routine, once its definitions are registered. -/
theorem enter (h : (Task.routine path previous).Stands old (body, ws))
    (found : ws.routines.get? path = some self)
    (enters : Enters self (ws.record (.routineStarted path)) ws₁) :
    ws.Fenced old ws₁ ∧ (Task.lines self opens self.start (ws.lines.drop self.start)).Stands old
      ({ locals := paramPaths self, previous }, ws₁) := by
  obtain ⟨⟨home, otherHome, sits⟩, other, apart, chained⟩ := h
  have keyed := sits.housed.orderly.keyed found
  obtain ⟨develops, inside⟩ := sits.enter found rfl enters
  have started := Fenced.record apart (.routineStarted path)
  have other : ¬ old self.path := keyed ▸ other
  have entered := started.trans (enters.fenced (sits.housed.of_alike (Alike.record ..))
    ⟨self, by rw [keyed]; exact found, rfl⟩ started.apart other)
  exact ⟨entered, ⟨home, otherHome, inside⟩, other, entered.apart,
    ⟨nofun, fun chain => (chained _ chain).mono develops⟩⟩

/-- The lines after one that is passed over. -/
theorem pass (h : (Task.lines self opens index (line :: lines)).Stands old c)
    (here : self.depth ≤ line.depth) :
    (Task.lines self opens' (index + 1) lines).Stands old c := by
  obtain ⟨⟨home, otherHome, sits⟩, other, apart, leads⟩ := h
  exact ⟨⟨home, otherHome, sits.pass here⟩, other, apart, leads⟩

/-- The statement of a line. -/
theorem start (h : (Task.lines self opens index (line :: lines)).Stands old (body, ws))
    (here : line.depth = self.depth)
    (parsed : Statement.classify (ws.resolveFunction? self.path) line.text = .ok st) :
    (Task.statement self ⟨index, lines⟩ st).Stands old
      ({ body with pending := [] }, ws.record (.lineStarted self.path index line.text)) := by
  obtain ⟨⟨home, otherHome, sits⟩, other, apart, leads⟩ := h
  have leads' := Body.Apart.mono leads
    (Alike.record ws (.lineStarted self.path index line.text)).develops
  exact ⟨⟨home, otherHome, sits.start here parsed⟩, other, (Fenced.record apart _).apart,
    ⟨leads'.onward, leads'.chained⟩⟩

/-- The lines after a statement. -/
theorem next (h : (Task.lines self opens index (line :: lines)).Stands old (body, ws))
    (here : line.depth = self.depth)
    (parsed : Statement.classify (ws.resolveFunction? self.path) line.text = .ok st)
    (ran : Ran (.statement self ⟨index, lines⟩ st)
      (waiting, ws.record (.lineStarted self.path index line.text)) visits (mid, ws₁))
    (apart : ws₁.Apart old) (leads : mid.Apart old ws₁) :
    (Task.lines self opens' (index + 1) lines).Stands old
      (if st.continuesChain then mid else { mid with previous := none }, ws₁) := by
  obtain ⟨⟨home, otherHome, sits⟩, other, _, _⟩ := h
  refine ⟨⟨home, otherHome, (sits.next here parsed ran).2⟩, other, apart, ?_⟩
  simp only [Task.Leads]
  split
  · exact leads
  · exact ⟨leads.onward, nofun⟩

/-- The body of a definition. -/
theorem define {name : String} {callee : Path} {routine : Routine}
    (h : (Task.statement self site (.define name)).Stands old (body, ws))
    (resolved : ws.resolveFunction? self.path name = some callee)
    (found : ws.routines.get? callee = some routine) :
    routine.start = site.index + 1 ∧ (Task.routine callee none).Stands old (body, ws) := by
  obtain ⟨⟨home, otherHome, sits⟩, _, apart, _⟩ := h
  obtain ⟨begun, _, signature, _, hcallee, origin⟩ := sits.define resolved found
  have other : ¬ old callee := fun isOld =>
    otherHome (apart.homes isOld found (congrArg Routine.kind origin) hcallee)
  exact ⟨congrArg Routine.start origin, ⟨callee, other, begun⟩, other, apart, nofun⟩

/-- The block under a header. -/
theorem block {role : BlockRole}
    (h : (Task.statement self site st).Stands old (body, ws)) (splits : st.role? = some role)
    (hpath : path = Block.path self role body.counter) (free : ws.routines.get? path = none) :
    ws.Fenced old (Block.opened self site role path ws) ∧
      (Task.routine path none).Stands old (mid, Block.opened self site role path ws) := by
  have opened : ws.Fenced old (Block.opened self site role path ws) :=
    Block.opened_fenced h.housed (h.has self rfl) h.apart hpath free
  obtain ⟨⟨home, _, sits⟩, _, apart, _⟩ := h
  have other := apart.not_old free
  exact ⟨opened, ⟨path, other, (sits.block splits hpath free).2⟩, other, opened.apart, nofun⟩

/-- The lines after a block. -/
theorem after {role : BlockRole} (h : (Task.statement self site st).Stands old (body, ws))
    (splits : st.role? = some role) (hpath : path = Block.path self role body.counter)
    (free : ws.routines.get? path = none)
    (ran : Ran (.routine path none) (waiting, Block.opened self site role path ws) visits c)
    (heads : Block.Heads self path st c c') (apart : c'.2.Apart old) (leads : c'.1.Apart old c'.2)
    (inner : c'.2.Open old path) : (Task.rest self site st path).Stands old c' := by
  obtain ⟨⟨home, otherHome, sits⟩, other, _, _⟩ := h
  exact ⟨⟨home, otherHome, (sits.after splits hpath free ran heads).2⟩, other, apart, leads,
    inner.2⟩

/-- The guarded block with the rest of the lines. -/
theorem guard {block : Path} (h : (Task.rest self site st block).Stands old (body, ws))
    (hpath : path = Block.path self .guard body.counter) (free : ws.routines.get? path = none) :
    ws.Fenced old (Block.opened self site .guard path ws) ∧
      (Task.routine path body.previous).Stands old
        (mid, Block.opened self site .guard path ws) := by
  have opened : ws.Fenced old (Block.opened self site .guard path ws) :=
    Block.opened_fenced h.housed (h.has self rfl) h.apart hpath free
  obtain ⟨⟨home, otherHome, sits⟩, _, apart, leads, _⟩ := h
  exact ⟨opened, ⟨home, otherHome, (sits.guard hpath free).2⟩, apart.not_old free, opened.apart,
    fun chain hchain => (leads.chained hchain).mono opened.develops⟩

end Task.Stands

/-- A compilation leaves the routines alone that stand apart from it. -/
theorem Ran.fenced {old : Path → Prop} {task : Task} {c c' : Stage} {visits : List Visit}
    (ran : Ran task c visits c') : task.Stands old c →
      c.2.Fenced old c'.2 ∧ ∀ self, task.self? = some self → c'.1.Apart old c'.2 := by
  induction ran with
  | @skip path _ _ _ _ found =>
    intro stands
    have started := Fenced.record stands.apart (.routineStarted path)
    refine ⟨started.trans (stored_fenced started.apart ?_ nofun), by rintro _ ⟨⟩⟩
    rw [stands.housed.orderly.keyed found]
    exact stands.other
  | @run _ _ _ result _ _ ws₂ self _ _ _ found starts _ enters lines ih =>
    intro stands
    obtain ⟨entered, inside⟩ := stands.enter found enters
    obtain ⟨ran, leads⟩ := ih (starts ▸ inside)
    have released : ws₂.Fenced old (releaseLocals ws₂ result.locals) :=
      .of_routines ran.apart (releaseLocals_kept ..).1
        (releaseLocals_alike ..).lines (releaseLocals_alike ..).settings
    refine ⟨((entered.trans ran).trans released).trans (stored_fenced released.apart
      inside.other fun next => ?_), by rintro _ ⟨⟩⟩
    exact ((leads self rfl).onward next).mono released.develops
  | nil | leave | quiet | unguarded =>
    exact fun stands => ⟨.refl stands.apart, fun _ isBody => stands.leading isBody⟩
  | deeper deeper _ ih => exact fun stands => ih (stands.pass deeper.le)
  | @step self _ _ _ _ _ _ _ _ _ _ _ _ here _ parsed statement _ ihStatement ihAfter =>
    intro stands
    have begun := stands.start here parsed
    obtain ⟨fenced, leads⟩ := ihStatement begun
    have upTo := (Fenced.record stands.apart _).trans fenced
    obtain ⟨fenced', leads'⟩ :=
      ihAfter (stands.next here parsed statement fenced.apart (leads self rfl))
    exact ⟨upTo.trans fenced', leads'⟩
  | @plain _ _ _ _ _ _ ws ws' plain calls gives =>
    intro stands
    have kept := (effects_plain plain calls gives).kept
    have fenced : ws.Fenced old ws' :=
      .of_routines stands.apart kept.routines kept.lines kept.settings
    have leads := (stands.leading rfl).mono fenced.develops
    exact ⟨fenced, fun _ _ => ⟨fun next => leads.onward (kept.continuation ▸ next),
      fun chain => leads.chained (kept.previous ▸ chain)⟩⟩
  | exit | next =>
    intro stands
    have leads := stands.leading rfl
    exact ⟨.refl stands.apart, fun _ _ => ⟨leads.onward, leads.chained⟩⟩
  | @defer _ _ _ _ ws callee _ resolved found template =>
    intro stands
    have other := (stands.define resolved found).2.other
    have updated : ws.Fenced old (ws.updateRoutine callee
        ({ · with template := some { symbols := ws.symbols } })) :=
      .of_update stands.apart other (fun _ => rfl) fun _ next => .inl next
    have fenced := updated.trans (.record updated.apart (.definitionDeferred callee))
    exact ⟨fenced, fun _ _ => (stands.leading rfl).mono fenced.develops⟩
  | @define _ _ _ _ _ ws' callee _ _ resolved found _ compiled ih =>
    intro stands
    obtain ⟨_, begun⟩ := stands.define resolved found
    have other := begun.other
    obtain ⟨compiled, _⟩ := ih begun
    have used : ws'.Fenced old (ws'.updateRoutine callee ({ · with used := true })) :=
      .of_update compiled.apart other (fun _ => rfl) fun _ next => .inl next
    have fenced := compiled.trans used
    exact ⟨fenced, fun _ _ => (stands.leading rfl).mono fenced.develops⟩
  | block splits hpath free compiled heads _ ihCompiled ihRest =>
    intro stands
    obtain ⟨opened, begun⟩ := stands.block splits hpath free
    obtain ⟨done, _⟩ := ihCompiled begun
    have fenced := opened.trans done
    have leads := (stands.leading rfl).mono fenced.develops
    have inner := begun.open_routine.mono done.develops
    obtain ⟨headed, leads'⟩ := heads.fenced done.apart ⟨leads.onward, leads.chained⟩ inner
    obtain ⟨fenced', leads''⟩ := ihRest (stands.after splits hpath free compiled heads
      headed.apart leads' (inner.mono headed.develops))
    exact ⟨(fenced.trans headed).trans fenced', leads''⟩
  | @guarded _ _ _ _ guard _ _ _ _ _ _ _ _ _ chain _ _ _ hasking hpath free _ _ hmid ih =>
    intro stands
    obtain ⟨opened, begun⟩ := stands.guard hpath free
    obtain ⟨done, _⟩ := ih begun
    have fenced := opened.trans done
    have leads := (stands.leading rfl).mono fenced.develops
    refine ⟨fenced, fun _ _ => ⟨fun {next} onward => ?_, fun {chain} chained => ?_⟩⟩
    · rw [hmid, hasking] at onward
      split at onward
      · exact leads.onward onward
      · cases onward
        exact begun.open_routine.mono done.develops
    · rw [hmid, hasking] at chained
      split at chained <;> exact leads.chained chained

end CommandPack
