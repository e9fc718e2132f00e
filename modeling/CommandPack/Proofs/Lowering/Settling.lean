import CommandPack.Proofs.Lowering.Disciplines
import CommandPack.Proofs.Lowering.Visits

/-!
# Calls of definitions that come later

All definitions of a body are registered before its first line, so a call may come before the
definition that it leads to. Once a compilation is done, every routine is compiled or keeps what
its variants need, unless a definition stands behind a `break` or `continue` of its own block:
the lines there are never reached.
-/

namespace CommandPack

open Workspace BodyM Definition

/-- A routine that a call may lead to: it is compiled, or it takes strings and keeps what its
variants are compiled with. -/
def Routine.Settled (routine : Routine) : Prop :=
  routine.compiled = true ∨ routine.isTemplate = true ∧ routine.template.isSome = true

instance (routine : Routine) : Decidable routine.Settled :=
  inferInstanceAs (Decidable (_ ∨ _))

/-- No definition stands behind a request of its own block. -/
def Timely (lines : List Line) : Prop :=
  ∀ i < lines.length, ∀ line ∈ lines[i]?, line.isRequest = true →
    ∀ own ∈ Block.own line.depth (i + 1) (lines.drop (i + 1)), ¬ own.2.defines

instance (lines : List Line) : Decidable (Timely lines) := by
  unfold Timely
  infer_instance

namespace Definition

/-- A line is the header of the definition at a path below `home`. -/
def Heads (home : Path) (line : Line) (q : Path) : Prop :=
  line.defines ∧ ∃ signature, Signature.parse line.text = .ok signature ∧
    q = home.child signature.name

/-- The definitions among the lines of a block. -/
def Among (home : Path) (depth index : Nat) (lines : List Line) (q : Path) : Prop :=
  ∃ own ∈ Block.own depth index lines, Heads home own.2 q

theorem among_cons {home q : Path} {depth index : Nat} {line : Line} {lines : List Line}
    (here : line.depth = depth) : Among home depth index (line :: lines) q ↔
      Heads home line q ∨ Among home depth (index + 1) lines q := by
  simp [Among, Block.own, here]

end Definition

/-! ### Routines become settled -/

/-- From one workspace to a later one no routine becomes unsettled, and the routines at some
paths are settled afterwards. -/
def Settles (names : Path → Prop) (ws ws' : Workspace) : Prop :=
  ∀ q r', ws'.routines.get? q = some r' → ¬ r'.Settled →
    ¬ names q ∧ ∃ r, ws.routines.get? q = some r ∧ ¬ r.Settled

namespace Settles

variable {names names' : Path → Prop} {ws ws₁ ws' : Workspace}

theorem mono (h : Settles names ws ws') (fewer : ∀ q, names' q → names q) :
    Settles names' ws ws' := by
  intro q r' found unsettled
  obtain ⟨absent, before⟩ := h q r' found unsettled
  exact ⟨fun name => absent (fewer q name), before⟩

theorem trans (h : Settles names ws ws₁) (h' : Settles names' ws₁ ws') :
    Settles (fun q => names q ∨ names' q) ws ws' := by
  intro q r' found unsettled
  obtain ⟨absent', r₁, found₁, unsettled₁⟩ := h' q r' found unsettled
  obtain ⟨absent, before⟩ := h q r₁ found₁ unsettled₁
  exact ⟨by simp [absent, absent'], before⟩

/-- Routines that are added have to become settled. -/
theorem of_adds (h : Settles names ws₁ ws')
    (adds : ∀ q r, ws₁.routines.get? q = some r → ws.routines.get? q = some r ∨ names q) :
    Settles names ws ws' := by
  intro q r' found unsettled
  obtain ⟨absent, r₁, found₁, unsettled₁⟩ := h q r' found unsettled
  exact ⟨absent, r₁, (adds q r₁ found₁).resolve_right absent, unsettled₁⟩

theorem of_routines (routines : ws'.routines = ws.routines) :
    Settles (fun _ => False) ws ws' := by
  intro q r' found unsettled
  exact ⟨not_false, r', routines ▸ found, unsettled⟩

theorem of_update (path : Path) {f : Routine → Routine}
    (settled : ∀ r, ws.routines.get? path = some r → r.Settled → (f r).Settled) :
    Settles (fun _ => False) ws (ws.updateRoutine path f) := by
  intro q r' found unsettled
  obtain ⟨r, old, rfl⟩ := found_before found
  refine ⟨not_false, r, old, fun before => unsettled ?_⟩
  split
  · next same => exact settled r (same ▸ old) before
  · exact before

/-- A routine that is changed to a settled one. -/
theorem at_update (path : Path) {f : Routine → Routine}
    (settled : ∀ r, ws.routines.get? path = some r → (f r).Settled) :
    Settles (· = path) ws (ws.updateRoutine path f) := by
  intro q r' found unsettled
  obtain ⟨r, old, rfl⟩ := found_before found
  split at unsettled
  · next same => exact absurd (settled r (same ▸ old)) unsettled
  · next other => exact ⟨other, r, old, unsettled⟩

/-- Changing commands settles and unsettles nothing. -/
theorem of_reworks (h : ws.Reworks ws') : Settles (fun _ => False) ws ws' := by
  obtain ⟨patch, routines⟩ := h.routines
  intro q r' found unsettled
  rw [routines, Option.map_eq_some_iff] at found
  obtain ⟨r, old, rfl⟩ := found
  exact ⟨not_false, r, old, unsettled⟩

/-- A body that is stored settles its routine. -/
theorem of_stored (self : Routine) (body : Body) :
    Settles (· = self.path) ws (Lowering.stored self body ws) := by
  unfold Lowering.stored
  have recorded : Settles (fun _ => False) ws
      (ws.record (.routineDone self.path body.commands.length)) := of_routines rfl
  exact (recorded.trans (at_update self.path fun r _ => .inl rfl)).mono fun _ => .inr

end Settles

/-- What a part of a compilation compiles of what was registered before: the routine itself, and
the definitions among the lines that it comes to. A statement that leaves a request has also come
to the lines after it. -/
def Task.compiles (home : Path) (c c' : Stage) (q : Path) : Task → Prop
  | .routine path _ => q = path ∨ ∃ self, c.2.routines.get? path = some self ∧
      self.kind.isGuard = true ∧
      Among home self.depth self.start (c.2.lines.drop self.start) q
  | .lines self _ index remaining => Among home self.depth index remaining q
  | .statement self site _ => (∃ line, c.2.lines[site.index]? = some line ∧
      Heads home line q) ∨ c'.1.asks = true ∧
        Among home self.depth (site.index + 1) site.following q
  | .rest self site _ _ => c'.1.asks = true ∧
      Among home self.depth (site.index + 1) site.following q

section Sits

variable {home q : Path} {self : Routine} {site : Site} {st : Statement} {c : Stage}

/-- A line that can be registered as a definition is compiled as one. -/
theorem Task.Sits.define_of_heads (h : (Task.statement self site st).Sits home c)
    (heads : ∃ line, c.2.lines[site.index]? = some line ∧ Heads home line q) :
    ∃ signature : Signature, q = home.child signature.name ∧ st = .define signature.name := by
  obtain ⟨line, situated, _, parsed⟩ := h.at_line
  obtain ⟨line', atLine, defines, signature, hsignature, rfl⟩ := heads
  obtain rfl := Option.some.inj (situated.at_index.1.symm.trans atLine)
  have form := Statement.form_of_parse (situated.housed.orderly.trimmed line situated.mem) defines
    hsignature
  refine ⟨signature, rfl, ?_⟩
  rcases Statement.form_of_classify parsed with same | ⟨_, command⟩
  · rw [form] at same
    cases same
    rfl
  · rw [form] at command
    cases command

/-- The definition that a line is the header of. -/
theorem Task.Sits.eq_of_heads {name : String} {callee : Path} {routine : Routine}
    (h : (Task.statement self site (.define name)).Sits home c)
    (resolved : c.2.resolveFunction? self.path name = some callee)
    (found : c.2.routines.get? callee = some routine)
    (heads : ∃ line, c.2.lines[site.index]? = some line ∧ Heads home line q) :
    q = callee := by
  obtain ⟨signature, rfl, define⟩ := h.define_of_heads heads
  obtain ⟨line, situated, here, parsed⟩ := h.at_line
  have form := Statement.form_of_block parsed rfl
  obtain ⟨signature', hsignature, rfl, _⟩ := situated.callee here form resolved found
  cases define
  rw [Statement.name_of_define (situated.housed.orderly.trimmed line situated.mem) form hsignature]

/-- A request leaves no definition behind. -/
theorem Task.Sits.not_among (h : (Task.statement self site st).Sits home c)
    (timely : Timely c.2.lines) (request : st.isRequest = true) :
    ¬ Among home self.depth (site.index + 1) site.following q := by
  rintro ⟨own, mem, defines, _⟩
  obtain ⟨line, situated, here, parsed⟩ := h.at_line
  have bound := (List.getElem?_eq_some_iff.1 situated.at_index.1).1
  have isRequest : line.isRequest = true :=
    (Line.hasForm_of_classify (by simp [Statement.isRequest]) parsed).trans request
  refine timely site.index bound line situated.at_index.1 isRequest own ?_ defines
  rwa [here, (situated.next here.ge).here]

end Sits

/-- A compilation settles the definitions that it comes to. -/
theorem Ran.settling {task : Task} {c c' : Stage} {visits : List Visit}
    (ran : Ran task c visits c') : ∀ {home}, task.Sits home c → Timely c.2.lines →
      (∀ self, task.self? = some self → c.1.asks = false) →
      Settles (fun q => task.compiles home c c' q) c.2 c'.2 := by
  induction ran with
  | @skip path _ _ ws self found ends =>
    intro home sits _ _
    have started : Settles (fun _ => False) ws (ws.record (.routineStarted path)) :=
      .of_routines rfl
    refine (started.trans (.of_stored self {})).mono ?_
    rintro q (rfl | ⟨self', found', _, own, mem, _⟩)
    · exact .inr (sits.housed.orderly.keyed found).symm
    · -- no line is left for the guarded block
      cases found.symm.trans found'
      have none : Block.own self.depth self.start (ws.lines.drop self.start) = [] := by
        cases hlines : ws.lines.drop self.start with
        | nil => rfl
        | cons line =>
          rw [hlines] at ends
          rw [Block.own, if_pos (ends line rfl)]
      rw [none] at mem
      cases mem
  | @run path _ _ result ws _ ws₂ self first following _ found starts _ enters lines ih =>
    intro home sits timely _
    obtain ⟨develops, inside⟩ := sits.enter found starts enters
    have settled := ih inside (develops.lines ▸ timely) fun _ _ => rfl
    have entered : Settles (Among home self.depth self.start (first :: following))
        ws ws₂ := by
      refine Settles.of_adds settled fun q r found' => ?_
      rcases enters.adds found' with old | ⟨other, i, line, signature, mem, defines, parsed, hq, _⟩
      · exact .inl old
      · have lines : (ws.record (.routineStarted path)).lines.drop self.start =
            first :: following := starts
        exact .inr ⟨(i, line), lines ▸ mem, defines, signature, parsed, by
          rw [hq, (sits.placed found).own other]⟩
    have released : Settles (fun _ => False) ws₂ (Lowering.releaseLocals ws₂ result.locals) :=
      .of_routines (Lowering.releaseLocals_kept ..).1
    refine ((entered.trans released).trans (.of_stored self result)).mono ?_
    rintro q (rfl | ⟨self', found', _, among⟩)
    · exact .inr (sits.housed.orderly.keyed found).symm
    · cases found.symm.trans found'
      exact .inl (.inl (starts ▸ among))
  | nil =>
    intro home _ _ _
    refine (Settles.of_routines rfl).mono ?_
    rintro q ⟨own, mem, _⟩
    cases mem
  | leave up =>
    intro home _ _ _
    refine (Settles.of_routines rfl).mono ?_
    rintro q ⟨own, mem, _⟩
    rw [Block.own, if_pos up] at mem
    cases mem
  | deeper deeper _ ih =>
    intro home sits timely quiet
    refine (ih (sits.pass deeper.le) timely fun _ _ => quiet _ rfl).mono ?_
    rintro q ⟨own, mem, heads⟩
    rw [Block.own, if_neg (by omega), if_pos deeper] at mem
    exact ⟨own, mem, heads⟩
  | quiet _ asked => exact fun _ _ quiet => absurd asked (by simp [quiet _ rfl])
  | @step self _ index line lines _ mid ws _ st _ _ _ here goesOn parsed statement after ihStatement
      ihAfter =>
    intro home sits timely _
    obtain ⟨develops, next⟩ := sits.next here parsed statement
    have recorded : Settles (fun _ => False) ws
        (ws.record (.lineStarted self.path index line.text)) := .of_routines rfl
    have first := recorded.trans (ihStatement (sits.start here parsed) timely fun _ _ => goesOn)
    have atLine := sits.situated.at_index.1
    cases asks : mid.asks with
    | false =>
      have second := ihAfter next (develops.lines ▸ timely) fun _ _ => Body.asks_chained.trans asks
      refine (first.trans second).mono fun q among => ?_
      rcases (among_cons here).1 among with heads | among
      · exact .inl (.inr (.inl ⟨line, atLine, heads⟩))
      · exact .inr among
    | true =>
      obtain ⟨rfl, rfl⟩ := after.of_asks (Body.asks_chained.trans asks)
      refine first.mono fun q among => ?_
      rcases (among_cons here).1 among with heads | among
      · exact .inr (.inl ⟨line, atLine, heads⟩)
      · exact .inr (.inr ⟨asks, among⟩)
  | plain plain calls gives =>
    intro home sits _ quiet
    have kept := (Lowering.effects_plain plain calls gives).kept
    refine (Settles.of_routines kept.routines).mono ?_
    rintro q (heads | ⟨asks, _⟩)
    · obtain ⟨signature, _, rfl⟩ := sits.define_of_heads heads
      cases plain
    · have still := (congrArg₂ (· || ·) kept.mayExit kept.maySkip).trans (quiet _ rfl)
      cases still.symm.trans asks
  | exit | next =>
    intro home sits timely _
    refine (Settles.of_routines rfl).mono ?_
    rintro q (heads | ⟨_, among⟩)
    · obtain ⟨signature, _, define⟩ := sits.define_of_heads heads
      cases define
    · exact sits.not_among timely rfl among
  | @defer _ _ _ _ ws callee _ resolved found template =>
    intro home sits _ quiet
    have stored : Settles (· = callee) ws (ws.updateRoutine callee
        ({ · with template := some { symbols := ws.symbols } })) := by
      refine .at_update callee fun r found' => .inr ?_
      rw [found] at found'
      cases found'
      exact ⟨template, rfl⟩
    refine Settles.mono (show Settles (· = callee) ws _ from stored) ?_
    rintro q (heads | ⟨asks, _⟩)
    · exact sits.eq_of_heads resolved found heads
    · cases (quiet _ rfl).symm.trans asks
  | @define _ _ _ _ _ ws' callee _ _ resolved found _ _ ih =>
    intro home sits timely quiet
    obtain ⟨begun, _⟩ := sits.define resolved found
    have settled := ih begun timely (by rintro _ ⟨⟩)
    have used : Settles (fun _ => False) ws' (ws'.updateRoutine callee
        ({ · with used := true })) := .of_update callee fun r _ settled => settled
    refine (settled.trans used).mono ?_
    rintro q (heads | ⟨asks, _⟩)
    · exact .inl (.inl (sits.eq_of_heads resolved found heads))
    · cases (quiet _ rfl).symm.trans asks
  | @block _ _ _ _ path _ _ ws ws₁ _ _ _ later splits hpath free compiled heads _ ihCompiled
      ihRest =>
    intro home sits timely quiet
    obtain ⟨opened, begun⟩ := sits.block splits hpath free
    obtain ⟨develops, onward⟩ := sits.after splits hpath free compiled heads
    have compiles : Settles (· = path) ws ws₁ := by
      refine ((ihCompiled begun timely (by rintro _ ⟨⟩)).mono fun q hq => .inl hq).of_adds
        fun q r found => ?_
      rw [Block.get?_opened] at found
      split at found
      · next same => exact .inr same
      · exact .inl found
    obtain ⟨reworks, exits, skips, _⟩ := heads.reworks
    have later := ihRest onward (develops.lines ▸ timely)
      fun _ _ => (congrArg₂ (· || ·) exits skips).trans (quiet _ rfl)
    refine ((compiles.trans (.of_reworks reworks)).trans later).mono ?_
    rintro q (isHeader | among)
    · obtain ⟨signature, _, rfl⟩ := sits.define_of_heads isHeader
      cases splits
    · exact .inr among
  | unguarded =>
    intro home _ _ quiet
    refine (Settles.of_routines rfl).mono ?_
    rintro q ⟨asks, _⟩
    cases (quiet _ rfl).symm.trans asks
  | @guarded _ _ _ _ guard _ _ _ _ _ _ _ _ _ _ _ found _ _ hpath free _ _ _ ih =>
    intro home sits timely _
    obtain ⟨opened, begun⟩ := sits.guard hpath free
    obtain ⟨beyond, _⟩ := sits.situated_rest.placed_guard hpath free
    refine ((ih begun timely (by rintro _ ⟨⟩)).of_adds fun q r found => ?_).mono ?_
    · rw [Block.get?_opened] at found
      split at found
      · next same => exact .inr (.inl same)
      · exact .inl found
    · rintro q ⟨_, among⟩
      refine .inr ⟨_, Block.get?_opened_self, rfl, ?_⟩
      rw [Among, Block.own_beyond] at among
      rw [opened.lines, beyond]
      exact among

/-! ### Calls -/

/-- The target of a call is there and takes as many strings as the call has. -/
def Workspace.Answers (ws : Workspace) (mark : CallMark) : Prop :=
  ∃ callee, ws.routines.get? mark.target = some callee ∧
    mark.arguments.length = callee.params.countP (·.kind.isString)

theorem Workspace.Answers.mono {ws ws' : Workspace} {mark : CallMark} (h : ws.Answers mark)
    (develops : ws.Develops ws') : ws'.Answers mark := by
  obtain ⟨callee, found, full⟩ := h
  obtain ⟨callee', found', origin⟩ := develops.kept found
  exact ⟨callee', found', by rw [full, Routine.params_of_origin origin]⟩

/-- Every call that is written leads to a routine. -/
def Discipline.ByEffect.calls : ByEffect where
  Holds _ := True
  Writes ws command := ∀ clauses mark, command = .invoke clauses mark → ws.Answers mark
  writes_mono writes develops _ clauses mark isCall := (writes clauses mark isCall).mono develops
  effect _ _ _ _ := ⟨trivial, trivial⟩
  emission {self calls ws command} _ _ _ emission clauses mark isCall := by
    cases emission with
    | call _ found _ full _ =>
      cases isCall
      exact ⟨_, found, full⟩
    | _ => cases isCall
  markers _ _ _ := ⟨nofun, nofun, nofun⟩
  invoke {ws block r clauses} _ _ found _ params _ clauses' mark isCall := by
    cases isCall
    exact ⟨r, found, by simp [params]⟩
  enter _ _ _ _ _ := trivial
  release _ := trivial
  stable _ _ _ _ := trivial

namespace Workspace

variable {settings : Settings} {sources : List (String × String)} {ws final : Workspace}

/-- Calls before their definitions, one of them with a string, and a definition in the lines that
a guarded block goes on with. -/
def forward : String :=
  "f hello\nwhile go:\n    g\n    if a:\n        break\n    def g:\n        say hi\n        say ho\n" ++
    "def f x#s:\n    say x"

end Workspace

end CommandPack
