import CommandPack.Proofs.Lowering.Fencing
import CommandPack.Proofs.Lowering.Stopping

/-!
# The lines that are reached

A compilation comes to lines whether it succeeds or stops. All disciplines hold at each of these
moments. What is known where one part of a compilation begins is known where a part of that part
begins, and the lines that the inner part reaches or starts are lines of the outer one.
-/

namespace CommandPack

open Workspace BodyM

variable {self : Routine} {opens : Bool} {index : Nat} {lines : List Line}

/-! ### The lines that a compilation comes to -/

/-- A part of a compilation comes to a line, to start it or to read its header once the block under
it is compiled. Whatever is before that has run to its end, and the part itself may stop later. -/
inductive Reaches : Task → Stage → Visit → Prop
  | enter {path : Path} {previous : Option Chain} {body : Body} {ws ws₁ : Workspace}
      {self : Routine} {visit : Visit} (found : ws.routines.get? path = some self)
      (enters : Lowering.Enters self (ws.record (.routineStarted path)) ws₁)
      (inside : Reaches (.lines self false self.start (ws.lines.drop self.start))
        ({ locals := Lowering.paramPaths self, previous }, ws₁) visit) :
      Reaches (.routine path previous) (body, ws) visit
  | deeper {self : Routine} {index : Nat} {line : Line} {lines : List Line} {c : Stage}
      {visit : Visit} (deeper : self.depth < line.depth)
      (later : Reaches (.lines self true (index + 1) lines) c visit) :
      Reaches (.lines self true index (line :: lines)) c visit
  | start {self : Routine} {opens : Bool} {index : Nat} {line : Line} {lines : List Line}
      {c : Stage} (here : line.depth = self.depth) (goesOn : c.1.asks = false) :
      Reaches (.lines self opens index (line :: lines)) c ⟨self, index, c.2⟩
  | statement {self : Routine} {opens : Bool} {index : Nat} {line : Line} {lines : List Line}
      {body : Body} {ws : Workspace} {st : Statement} {visit : Visit}
      (here : line.depth = self.depth) (goesOn : body.asks = false)
      (parsed : Statement.classify (ws.resolveFunction? self.path) line.text = .ok st)
      (inside : Reaches (.statement self ⟨index, lines⟩ st)
        ({ body with pending := [] }, ws.record (.lineStarted self.path index line.text)) visit) :
      Reaches (.lines self opens index (line :: lines)) (body, ws) visit
  | next {self : Routine} {opens : Bool} {index : Nat} {line : Line} {lines : List Line}
      {body mid : Body} {ws ws₁ : Workspace} {st : Statement} {inside : List Visit} {visit : Visit}
      (here : line.depth = self.depth) (goesOn : body.asks = false)
      (parsed : Statement.classify (ws.resolveFunction? self.path) line.text = .ok st)
      (ran : Ran (.statement self ⟨index, lines⟩ st)
        ({ body with pending := [] }, ws.record (.lineStarted self.path index line.text)) inside
        (mid, ws₁))
      (later : Reaches (.lines self (Text.endsWith ":" line.text) (index + 1) lines)
        (if st.continuesChain then mid else { mid with previous := none }, ws₁) visit) :
      Reaches (.lines self opens index (line :: lines)) (body, ws) visit
  | define {self : Routine} {site : Site} {name : String} {body : Body} {ws : Workspace}
      {callee : Path} {routine : Routine} {visit : Visit}
      (resolved : ws.resolveFunction? self.path name = some callee)
      (found : ws.routines.get? callee = some routine) (template : routine.isTemplate = false)
      (inside : Reaches (.routine callee none) (body, ws) visit) :
      Reaches (.statement self site (.define name)) (body, ws) visit
  | block {self : Routine} {site : Site} {st : Statement} {role : BlockRole} {path : Path}
      {body : Body} {ws : Workspace} {visit : Visit} (splits : st.role? = some role)
      (hpath : path = Block.path self role body.counter) (free : ws.routines.get? path = none)
      (inside : Reaches (.routine path none)
        ({ body with counter := body.counter + 1 }, Block.opened self site role path ws) visit) :
      Reaches (.statement self site st) (body, ws) visit
  | header {self : Routine} {site : Site} {st : Statement} {role : BlockRole} {path : Path}
      {body : Body} {ws ws₁ : Workspace} {inside : List Visit} (splits : st.role? = some role)
      (hpath : path = Block.path self role body.counter) (free : ws.routines.get? path = none)
      (ran : Ran (.routine path none)
        ({ body with counter := body.counter + 1 }, Block.opened self site role path ws) inside
        ({ body with counter := body.counter + 1 }, ws₁)) :
      Reaches (.statement self site st) (body, ws) ⟨self, site.index, ws₁⟩
  | rest {self : Routine} {site : Site} {st : Statement} {role : BlockRole} {path : Path}
      {body mid : Body} {ws ws₁ ws₂ : Workspace} {inside : List Visit} {visit : Visit}
      (splits : st.role? = some role) (hpath : path = Block.path self role body.counter)
      (free : ws.routines.get? path = none)
      (ran : Ran (.routine path none)
        ({ body with counter := body.counter + 1 }, Block.opened self site role path ws) inside
        ({ body with counter := body.counter + 1 }, ws₁))
      (heads : Block.Heads self path st ({ body with counter := body.counter + 1 }, ws₁)
        (mid, ws₂))
      (later : Reaches (.rest self site st path) (mid, ws₂) visit) :
      Reaches (.statement self site st) (body, ws) visit
  | guard {self : Routine} {site : Site} {st : Statement} {block guard : Path}
      {mayExit maySkip : Bool} {body : Body} {ws : Workspace} {visit : Visit}
      (hpath : guard = Block.path self .guard body.counter)
      (free : ws.routines.get? guard = none)
      (inside : Reaches (.routine guard body.previous)
        ({ body with mayExit, maySkip, counter := body.counter + 1 },
          Block.opened self site .guard guard ws) visit) :
      Reaches (.rest self site st block) (body, ws) visit

/-- A part of a compilation that runs to its end has reached all its lines. -/
theorem Ran.reaches {task : Task} {c c' : Stage} {visits : List Visit}
    (ran : Ran task c visits c') : ∀ visit ∈ visits, Reaches task c visit := by
  induction ran with
  | skip | nil | leave | quiet | plain | exit | next | defer | unguarded =>
    exact List.forall_mem_nil _
  | run found starts _ enters _ ih =>
    exact fun visit mem => .enter found enters (starts ▸ ih visit mem)
  | deeper deeper _ ih => exact fun visit mem => .deeper deeper (ih visit mem)
  | step here goesOn parsed statement _ ihStatement ihAfter =>
    intro visit mem
    rw [List.mem_cons, List.mem_append] at mem
    rcases mem with rfl | mem | mem
    · exact .start here goesOn
    · exact .statement here goesOn parsed (ihStatement visit mem)
    · exact .next here goesOn parsed statement (ihAfter visit mem)
  | define resolved found template _ ih =>
    exact fun visit mem => .define resolved found template (ih visit mem)
  | block splits hpath free compiled heads _ ihCompiled ihRest =>
    intro visit mem
    rcases List.mem_append.1 mem with mem | mem
    · exact .block splits hpath free (ihCompiled visit mem)
    · exact .rest splits hpath free compiled heads (ihRest visit mem)
  | guarded _ _ _ _ hasking hpath free _ _ _ ih =>
    subst hasking
    exact fun visit mem => .guard hpath free (ih visit mem)

/-! ### Where a part of a compilation begins -/

section Parts

variable {task task' : Task} {c c' : Stage} {a b : Task × Stage} {visits : List Visit}
  {visit : Visit} {ws ws' : Workspace} {strict : Prop} {old : Path → Prop}

theorem Starts.ready (D : Discipline) (starts : Starts a b) (h : D.Ready a.1 a.2) :
    D.Ready b.1 b.2 := by
  cases starts with
  | enter found enters => exact (h.enter found enters).2
  | pass => exact h.skip
  | quiet => exact h.skip
  | statement _ _ parsed => exact h.start parsed
  | next _ _ parsed ran =>
    have begun := h.start parsed
    obtain ⟨sound, fits, _⟩ := ran.disciplined D begun
    obtain ⟨develops, _⟩ := ran.housed begun.sound.housed begun.has
    exact h.next ((Alike.record ..).develops.trans develops) sound fits
  | define _ found template => exact h.define found template
  | block _ hpath free => exact (h.block hpath free).2
  | rest _ hpath free ran heads =>
    obtain ⟨_, begun⟩ := h.block hpath free
    obtain ⟨sound, fits, _⟩ := ran.disciplined D begun
    obtain ⟨develops, _⟩ := ran.housed begun.sound.housed begun.has
    exact (h.after hpath free develops sound fits heads).2
  | guard _ _ _ _ hpath free => exact (h.guard hpath free).2

/-- A discipline holds at every line that is reached. -/
theorem Reaches.sound (D : Discipline) (reaches : Reaches task c visit) :
    D.Ready task c → D.Sound visit.ws := by
  induction reaches with
  | enter found enters _ ih => exact fun ready => ih ((Starts.enter found enters).ready D ready)
  | deeper _ _ ih => exact fun ready => ih ready.skip
  | start => exact fun ready => ready.sound
  | statement _ _ parsed _ ih => exact fun ready => ih (ready.start parsed)
  | next here goesOn parsed ran _ ih =>
    exact fun ready => ih ((Starts.next here goesOn parsed ran).ready D ready)
  | define _ found template _ ih => exact fun ready => ih (ready.define found template)
  | block _ hpath free _ ih => exact fun ready => ih (ready.block hpath free).2
  | header _ hpath free ran =>
    exact fun ready => (ran.disciplined D (ready.block hpath free).2).1
  | rest splits hpath free ran heads _ ih =>
    exact fun ready => ih ((Starts.rest splits hpath free ran heads).ready D ready)
  | guard hpath free _ ih => exact fun ready => ih (ready.guard hpath free).2

theorem Starts.stands (starts : Starts a b) (h : a.1.Stands old a.2) :
    a.2.2.Develops b.2.2 ∧ b.1.Stands old b.2 := by
  cases starts with
  | enter found enters =>
    obtain ⟨fenced, stands⟩ := h.enter found enters
    exact ⟨fenced.develops, stands⟩
  | pass deeper => exact ⟨.refl _, h.pass deeper.le⟩
  | quiet here => exact ⟨.refl _, h.pass here.ge⟩
  | statement here _ parsed => exact ⟨(Alike.record ..).develops, h.start here parsed⟩
  | next here _ parsed ran =>
    obtain ⟨fenced, leads⟩ := ran.fenced (h.start here parsed)
    exact ⟨(Alike.record ..).develops.trans fenced.develops,
      h.next here parsed ran fenced.apart (leads _ rfl)⟩
  | define resolved found => exact ⟨.refl _, (h.define resolved found).2⟩
  | block splits hpath free =>
    obtain ⟨opened, stands⟩ := h.block splits hpath free
    exact ⟨opened.develops, stands⟩
  | @rest self site _ role path body _ ws _ _ _ splits hpath free ran heads =>
    obtain ⟨opened, begun⟩ : ws.Fenced old (Block.opened self site role path ws) ∧
        (Task.routine path none).Stands old
          ({ body with counter := body.counter + 1 }, Block.opened self site role path ws) :=
      h.block splits hpath free
    obtain ⟨compiled, _⟩ := ran.fenced begun
    have inner := begun.open_routine.mono compiled.develops
    have fenced := opened.trans compiled
    have leads := (h.leading rfl).mono fenced.develops
    obtain ⟨headed, leads'⟩ := heads.fenced fenced.apart ⟨leads.onward, leads.chained⟩ inner
    exact ⟨(fenced.trans headed).develops, h.after splits hpath free ran heads headed.apart leads'
      (inner.mono headed.develops)⟩
  | guard _ _ _ _ hpath free =>
    obtain ⟨opened, stands⟩ := h.guard hpath free
    exact ⟨opened.develops, stands⟩

/-- A part of a compilation is about to begin. Where `strict` holds, the workspace is furnished and
the path of the root is read as it is written. -/
structure Task.Begins (strict : Prop) (old : Path → Prop) (task : Task) (c : Stage) : Prop where
  stands : task.Stands old c
  ready : strict → Discipline.furnished.Ready task c
  dotless : strict → '.' ∉ Text.chars c.2.settings.root

theorem Task.Begins.furnished (h : task.Begins strict old c) : strict → c.2.Furnished :=
  fun holds => (h.ready holds).sound.holds

theorem Starts.begins (starts : Starts a b) (h : a.1.Begins strict old a.2) :
    a.2.2.Develops b.2.2 ∧ b.1.Begins strict old b.2 := by
  obtain ⟨develops, stands⟩ := starts.stands h.stands
  refine ⟨develops, stands, fun holds => starts.ready _ (h.ready holds), ?_⟩
  rw [develops.settings]
  exact h.dotless

/-- A routine that is compiled. -/
theorem Task.Begins.done {path : Path} {previous : Option Chain}
    (h : (Task.routine path previous).Begins strict old c)
    (ran : Ran (.routine path previous) c visits c') :
    c.2.Fenced old c'.2 ∧ c'.2.Open old path ∧ (strict → Discipline.furnished.Sound c'.2) := by
  obtain ⟨fenced, _⟩ := ran.fenced h.stands
  exact ⟨fenced, h.stands.open_routine.mono fenced.develops,
    fun holds => (ran.disciplined _ (h.ready holds)).1⟩

/-! ### What a part of a compilation leaves -/

/-- A workspace that a part of a compilation leaves: the text is as it was, and the lines that were
started since its beginning are lines that it reached. -/
structure Task.Left (task : Task) (c : Stage) (ws : Workspace) : Prop extends c.2.SameText ws where
  reached : ∃ more, ws.starts = c.2.starts ++ more ∧
    ∀ start ∈ more, ∃ visit, Reaches task c visit ∧ visit.start = start

theorem Task.Left.refl (task : Task) (c : Stage) : task.Left c c.2 :=
  ⟨.refl _, [], (List.append_nil _).symm, List.forall_mem_nil _⟩

theorem Task.Left.of_log (h : task.Left c ws) (log : ws.SameLog ws') : task.Left c ws' := by
  obtain ⟨same, more, starts, reached⟩ := h
  exact ⟨same.trans log.toSameText, more, log.starts.trans starts, reached⟩

theorem Ran.left (ran : Ran task c visits c') : task.Left c c'.2 := by
  refine ⟨ran.logs.1, visits.map Visit.start, ran.logs.2, fun start mem => ?_⟩
  obtain ⟨visit, visited, rfl⟩ := List.mem_map.1 mem
  exact ⟨visit, ran.reaches visit visited, rfl⟩

/-- After a request about the loop no line of a body is reached. -/
theorem Reaches.not_asks (reaches : Reaches task c visit)
    (isLines : task = .lines self opens index lines) : c.1.asks = false := by
  induction reaches generalizing opens index lines with
  | enter | define | block | header | rest | guard => cases isLines
  | deeper _ _ ih => exact ih (by cases isLines; rfl)
  | start _ goesOn | statement _ goesOn | next _ goesOn => exact goesOn

/-- The lines of a part of a part. -/
theorem Starts.reaches (starts : Starts a b) (reaches : Reaches b.1 b.2 visit) :
    Reaches a.1 a.2 visit := by
  cases starts with
  | enter found enters => exact .enter found enters reaches
  | pass deeper => exact .deeper deeper reaches
  | quiet _ asked => exact absurd asked (by rw [reaches.not_asks rfl]; exact Bool.false_ne_true)
  | statement here goesOn parsed => exact .statement here goesOn parsed reaches
  | next here goesOn parsed ran => exact .next here goesOn parsed ran reaches
  | define resolved found template => exact .define resolved found template reaches
  | block splits hpath free => exact .block splits hpath free reaches
  | rest splits hpath free ran heads => exact .rest splits hpath free ran heads reaches
  | guard _ _ _ _ hpath free => exact .guard hpath free reaches

/-- What a part of a part leaves. -/
theorem Task.Left.lift (begun : task.Left c c'.2)
    (up : ∀ {visit}, Reaches task' c' visit → Reaches task c visit) (h : task'.Left c' ws) :
    task.Left c ws := by
  obtain ⟨same, before, starts, reached⟩ := begun
  obtain ⟨same', more, starts', reached'⟩ := h
  refine ⟨same.trans same', before ++ more, by rw [starts', starts, List.append_assoc],
    fun start mem => ?_⟩
  rcases List.mem_append.1 mem with mem | mem
  · exact reached start mem
  · obtain ⟨visit, inside, same⟩ := reached' start mem
    exact ⟨visit, up inside, same⟩

/-- A line that is started. -/
theorem Task.Left.start {line : Line} {body : Body} (here : line.depth = self.depth)
    (goesOn : body.asks = false) :
    (Task.lines self opens index (line :: lines)).Left (body, ws)
      (ws.record (.lineStarted self.path index line.text)) := by
  refine ⟨.record .., [(self.path, index)], starts_record .., fun start mem => ?_⟩
  obtain rfl := List.mem_singleton.1 mem
  exact ⟨_, .start here goesOn, rfl⟩

theorem Starts.left (starts : Starts (task, c) (task', c')) (h : task'.Left c' ws) :
    task.Left c ws := by
  refine .lift ?_ starts.reaches h
  cases starts with
  | enter _ enters => exact (Task.Left.refl ..).of_log enters.sameLog
  | pass | quiet | define => exact .refl ..
  | statement here goesOn => exact .start here goesOn
  | next here goesOn parsed ran =>
    exact .lift (.start here goesOn) (Starts.statement here goesOn parsed).reaches ran.left
  | block | guard => exact (Task.Left.refl ..).of_log Block.sameLog_opened
  | rest splits hpath free ran heads =>
    exact (Task.Left.lift ((Task.Left.refl ..).of_log Block.sameLog_opened)
      (Starts.block splits hpath free).reaches ran.left).of_log heads.reworks.1.toSameLog

end Parts

end CommandPack
