import CommandPack.Proofs.Lowering.Furnishing
import CommandPack.Proofs.Lowering.Rooting
import CommandPack.Proofs.Lowering.Variables

/-!
# Released variables

Leaving a body takes away its variables except for the integers, which stay declared. While the
body is compiled the blocks and definitions inside it may change the kinds of its variables, in
any direction. The integers that stay are safe from this: a name stands for them only in routines
inside their own one, and that one is done.
-/

namespace CommandPack

open Workspace BodyM Lowering

variable {name : String} {c c' : Stage} {visits : List Visit}

/-! ### Names that are added -/

/-- The name of a variable of a routine inside a path. -/
def Workspace.ScopesIn (ws : Workspace) (home : Path) (name : String) : Prop :=
  ∃ path r own, ws.routines.get? path = some r ∧ '.' ∉ Text.chars own ∧
    name = path.qualify own ∧ home.segments <+: path.segments

theorem Workspace.ScopesIn.mono {ws ws' : Workspace} {home inner : Path}
    (h : ws.ScopesIn inner name) (develops : ws.Develops ws')
    (inside : home.segments <+: inner.segments) : ws'.ScopesIn home name := by
  obtain ⟨path, r, own, found, dotless, same, within⟩ := h
  obtain ⟨r', found', _⟩ := develops.kept found
  exact ⟨path, r', own, found', dotless, same, inside.trans within⟩

/-- Plain statements declare variables of their own routine. -/
theorem Effects.contains_or_own {self : Routine} {source : String → Prop} {calls : Prop}
    {start stop : Stage} (h : Effects self source calls start stop)
    (found : stop.2.symbols.contains name = true) : start.2.symbols.contains name = true ∨
      ∃ own, '.' ∉ Text.chars own ∧ name = self.path.qualify own := by
  induction h with
  | refl => exact .inl found
  | tail _ effect ih =>
    obtain ⟨kind, found⟩ := Symbols.contains_iff.1 found
    rcases effect.target found with old | target
    · exact ih (Symbols.contains_iff.2 ⟨kind, old⟩)
    · cases target with
      | own valid => exact .inr ⟨_, Name.dot_not_mem valid, rfl⟩
      | declared _ resolved => exact ih (contains_of_resolve? resolved)

/-- A routine that is about to be compiled declares its own parameters only. -/
def Task.Owns (ws : Workspace) : Task → Prop
  | .routine path _ => ∀ self, ws.routines.get? path = some self → self.OwnParams
  | _ => True

/-- A part of a compilation adds variables of the routines inside its block. -/
theorem Ran.contains_or_scopesIn {task : Task} (ran : Ran task c visits c') :
    ∀ {home}, task.Sits home c → task.Owns c.2 →
      c'.2.symbols.contains name = true →
        c.2.symbols.contains name = true ∨ c'.2.ScopesIn home name := by
  induction ran with
  | skip | nil | leave | quiet | exit | next | defer | unguarded =>
    exact fun _ _ found => .inl found
  | @run path _ _ result _ _ ws₂ self _ _ _ found starts _ enters lines ih =>
    intro home sits owns contained
    obtain ⟨_, begun⟩ := sits.enter found starts enters
    have later := ((releaseLocals_alike result.locals ws₂).trans
      (stored_alike self result _)).develops
    rcases ih begun trivial (contains_releaseLocals.1 contained) with old | new
    · rcases enters.contains_iff.1 old with param | old
      · obtain ⟨_, own, valid, same⟩ := owns self found name param
        obtain ⟨r, known, _⟩ := ((begun.ran lines).1.trans later).has begun.situated.has
        exact .inr ⟨self.path, r, own, known, Name.dot_not_mem valid, same,
          begun.situated.within.inside⟩
      · exact .inl old
    · exact .inr (new.mono later List.prefix_rfl)
  | deeper deeper _ ih => exact fun sits => ih (sits.pass deeper.le)
  | step here _ parsed statement after ihStatement ihAfter =>
    intro home sits _ contained
    obtain ⟨_, next⟩ := sits.next here parsed statement
    rcases ihAfter next trivial contained with old | new
    · exact (ihStatement (sits.start here parsed) trivial old).imp_right fun new =>
        new.mono (next.ran after).1 List.prefix_rfl
    · exact .inr new
  | plain plain calls gives =>
    intro home sits _ contained
    have effects := effects_plain plain calls gives
    refine (effects.contains_or_own contained).imp_right fun ⟨own, dotless, same⟩ => ?_
    obtain ⟨_, situated, _⟩ := sits.at_line
    obtain ⟨r, known, _⟩ := situated.has
    exact ⟨_, r, own, effects.kept.routines ▸ known, dotless, same, situated.within.inside⟩
  | @define self _ _ _ ws _ callee _ _ resolved found _ _ ih =>
    intro home sits _ contained
    obtain ⟨begun, line, signature, parsed, hcallee, origin⟩ := sits.define resolved found
    have owns : ∀ self, ws.routines.get? callee = some self → self.OwnParams := by
      intro self found'
      cases found.symm.trans found'
      exact Definition.ownParams_of_entry parsed origin
    exact (ih begun owns contained).imp_right fun new => new.mono (Alike.used ..).develops
      (hcallee ▸ List.prefix_append _ _)
  | block splits hpath free compiled heads rest ihCompiled ihRest =>
    intro home sits _ contained
    obtain ⟨_, begun⟩ := sits.block splits hpath free
    obtain ⟨_, onward⟩ := sits.after splits hpath free compiled heads
    obtain ⟨reworks, _⟩ := heads.reworks
    rcases ihRest onward trivial contained with old | new
    · rw [reworks.symbols] at old
      exact (ihCompiled begun Block.ownParams_opened old).imp_right fun new => new.mono
        (reworks.alike.develops.trans (onward.ran rest).1) (sits.prefix_block splits hpath)
    · exact .inr new
  | guarded _ _ _ _ _ hpath free _ _ _ ih =>
    exact fun sits _ => ih (sits.guard hpath free).2 Block.ownParams_opened

/-! ### Variables out of reach -/

namespace Workspace

variable {home inner : Path} {self : Routine} {index : Nat} {line : Line} {lines : List Line}
  {known known' outer : String → Prop} {opens opens' : Path → Prop} {ws ws' : Workspace}

/-- The scopes of the variables that a routine may declare or change from one of its lines on:
the routines around the line, the definitions to come, and all paths that are free. -/
def Opens (ws : Workspace) (home : Path) (self : Routine) (index : Nat) (q : Path) : Prop :=
  q.Below ws.settings.root ∧ (q.segments <+: self.path.segments ∨
    Definition.Among home self.depth index (ws.lines.drop index) q ∨ ws.routines.get? q = none)

/-- Later on fewer scopes are open. -/
theorem Opens.before {q : Path} (h : ws'.Opens home self (index + 1) q)
    (situated : Situated home self index (line :: lines) ws) (here : self.depth ≤ line.depth)
    (develops : ws.Develops ws') : ws.Opens home self index q := by
  obtain ⟨below, around | ⟨own, mem, heads⟩ | free⟩ := h
  · exact ⟨develops.settings ▸ below, .inl around⟩
  · refine ⟨develops.settings ▸ below, .inr (.inl ⟨own, ?_, heads⟩)⟩
    rw [develops.lines, (situated.next here).here] at mem
    rw [situated.here, Block.own, if_neg here.not_gt]
    split
    · exact mem
    · exact .tail _ mem
  · exact ⟨develops.settings ▸ below, .inr (.inr (develops.free free))⟩

/-- Every variable is a known one, or it is an integer and its scope is not open. -/
def Tidy (known : String → Prop) (opens : Path → Prop) (ws : Workspace) : Prop :=
  ∀ name kind, ws.symbols.kind? name = some kind → known name ∨
    kind = .integer ∧ ∀ q own, opens q → '.' ∉ Text.chars own → name ≠ q.qualify own

namespace Tidy

theorem mono (h : ws.Tidy known opens) (symbols : ws'.symbols = ws.symbols)
    (more : ∀ name, known name → known' name) (fewer : ∀ q, opens' q → opens q) :
    ws'.Tidy known' opens' := by
  intro name kind found
  rw [symbols] at found
  exact (h name kind found).imp (more name) fun ⟨integer, closed⟩ =>
    ⟨integer, fun q own isOpen => closed q own (fewer q isOpen)⟩

/-- Plain statements assign to variables of the scopes around them. -/
theorem effects {source : String → Prop} {calls : Prop} {start stop : Stage}
    (h : start.2.Tidy (fun name => outer name ∨ name ∈ start.1.locals) opens)
    (around : ∀ q : Path, q.segments ≠ [] → q.segments <+: self.path.segments → opens q)
    (effects : Effects self source calls start stop) :
    stop.2.Tidy (fun name => outer name ∨ name ∈ stop.1.locals) opens := by
  induction effects with
  | refl => exact h
  | @tail mid stop _ effect ih =>
    have more : ∀ name, outer name ∨ name ∈ mid.1.locals → outer name ∨ name ∈ stop.1.locals := by
      cases effect with
      | addLocal => exact fun _ => Or.imp_right (List.mem_append_left _)
      | _ => exact fun _ => id
    intro name kind found
    rcases effect.target found with old | target
    · exact (ih name kind old).imp_left (more name)
    · cases target with
      | own _ _ mem => exact .inl (more _ (.inr mem))
      | declared valid resolved =>
        obtain ⟨_, old⟩ := Symbols.contains_iff.1 (contains_of_resolve? resolved)
        refine .inl (more _ ((ih _ _ old).resolve_right fun ⟨_, closed⟩ => ?_))
        rw [Workspace.resolve?, Symbols.resolve?] at resolved
        split at resolved
        · cases resolved
        · obtain ⟨q, some', inside, same⟩ := Path.exists_of_find?_candidates resolved
          exact closed q _ (around q some' inside) (Name.dot_not_mem valid) same

/-- A routine that is compiled inside a part of a compilation closes the scopes that it adds. -/
theorem later (h : ws.Tidy known opens) (after : ws'.Tidy known fun _ => False)
    (housed : ws'.Housed) (fewer : ∀ q, opens' q → opens q ∧ q.Below ws'.settings.root)
    (adds : ∀ name, ws'.symbols.contains name = true →
      ws.symbols.contains name = true ∨ ws'.ScopesIn inner name)
    (apart : ∀ q r, ws'.routines.get? q = some r → inner.segments <+: q.segments → ¬ opens' q) :
    ws'.Tidy known opens' := by
  intro name kind found
  rcases after name kind found with knows | ⟨integer, _⟩
  · exact .inl knows
  rcases adds name (Symbols.contains_iff.2 ⟨kind, found⟩) with old | ⟨q, r, own, registered, dotless,
    rfl, inside⟩
  · obtain ⟨_, old⟩ := Symbols.contains_iff.1 old
    exact (h name _ old).imp_right fun ⟨_, closed⟩ =>
      ⟨integer, fun q own isOpen => closed q own (fewer q isOpen).1⟩
  · refine .inr ⟨integer, fun q' own' isOpen dotless' same => ?_⟩
    obtain ⟨rfl, _⟩ := Path.qualify_injective (housed.orderly.below registered) (fewer q' isOpen).2
      dotless dotless' same
    exact apart q r registered inside isOpen

end Tidy

end Workspace

namespace Task

variable {home path q : Path} {previous : Option Chain} {self r : Routine} {site : Site}
  {st : Statement} {role : BlockRole} {body : Body} {c : Stage} {ws ws₁ ws' : Workspace}

/-- The variables that may have any kind: those from outside, and the locals of a body. -/
def knows (outer : String → Prop) (body : Body) : Task → String → Prop
  | .routine .., name => outer name
  | _, name => outer name ∨ name ∈ body.locals

/-- The scopes that a part of a compilation may add variables to. The definitions of a routine are
registered when it is entered, unless it is a guarded block. -/
def Opens (home : Path) (ws : Workspace) (q : Path) : Task → Prop
  | .routine path _ => q.Below ws.settings.root ∧ (q.segments <+: path.segments ∨
      (∃ self, ws.routines.get? path = some self ∧ self.kind.isGuard = true ∧
        Definition.Among home self.depth self.start (ws.lines.drop self.start) q) ∨
      ws.routines.get? q = none)
  | .lines self _ index _ => ws.Opens home self index q
  | .statement self site _ => ws.Opens home self site.index q
  | .rest self site _ _ => ws.Opens home self (site.index + 1) q

/-- The scopes that are still open after a part of a compilation. After a request nothing comes. -/
def keepsOpen (home : Path) (c : Stage) (q : Path) : Task → Prop
  | .routine .. | .lines .. => False
  | .statement self site _ | .rest self site _ _ =>
    c.1.asks = false ∧ c.2.Opens home self (site.index + 1) q

namespace Sits

/-- Entering a routine registers its definitions. -/
theorem opens_enter (h : (Task.routine path previous).Sits home (body, ws))
    (found : ws.routines.get? path = some self)
    (enters : Enters self (ws.record (.routineStarted path)) ws₁)
    (develops : ws.Develops ws₁) (isOpen : ws₁.Opens home self self.start q) :
    (Task.routine path previous).Opens home ws q := by
  have keyed := h.housed.orderly.keyed found
  obtain ⟨below, around | ⟨own, mem, defines, signature, parsed, rfl⟩ | free⟩ := isOpen
  · exact ⟨develops.settings ▸ below, .inl (keyed ▸ around)⟩
  · refine ⟨develops.settings ▸ below, .inr ?_⟩
    rw [develops.lines] at mem
    cases guard : self.kind.isGuard with
    | true => exact .inl ⟨self, found, guard, own, mem, defines, signature, parsed, rfl⟩
    | false =>
      obtain ⟨-, -, scans⟩ := enters.housed (h.housed.of_alike (.record ..))
        ⟨self, keyed ▸ found, rfl⟩
      rw [(h.placed found).own guard]
      exact .inr ((scans guard).2 own mem defines signature parsed)
  · exact ⟨develops.settings ▸ below, .inr (.inr (develops.free free))⟩

/-- The body of a definition lies in the scopes that are open at its header. -/
theorem opens_define {callee : Path} {routine : Routine}
    (h : (Task.statement self site (.define name)).Sits home (body, ws))
    (resolved : ws.resolveFunction? self.path name = some callee)
    (found : ws.routines.get? callee = some routine)
    (isOpen : (Task.routine callee previous).Opens callee ws q) :
    ws.Opens home self site.index q := by
  obtain ⟨line, situated, here, parsed⟩ := h.at_line
  obtain ⟨signature, hsignature, rfl, defines, own, origin⟩ := situated.definition here
    (Statement.form_of_block parsed rfl) resolved found
  obtain ⟨below, around | ⟨self', found', guard, _⟩ | free⟩ := isOpen
  · rcases Path.prefix_child.1 around with same | around
    · exact ⟨below, .inr (.inl (situated.here ▸ ⟨_, own, defines, signature, hsignature, same⟩))⟩
    · exact ⟨below, .inl (around.trans situated.within.inside)⟩
  · cases found.symm.trans found'
    rw [show routine.kind = .defined from congrArg Routine.kind origin] at guard
    cases guard
  · exact ⟨below, .inr (.inr free)⟩

/-- What a definition adds is apart from the lines after it. -/
theorem define_apart {callee : Path} {routine : Routine}
    (h : (Task.statement self site (.define name)).Sits home (body, ws))
    (resolved : ws.resolveFunction? self.path name = some callee)
    (found : ws.routines.get? callee = some routine) (develops : ws.Develops ws')
    (registered : ws'.routines.get? q = some r) (inside : callee.segments <+: q.segments) :
    ¬ ws'.Opens home self (site.index + 1) q := by
  obtain ⟨line, situated, here, parsed⟩ := h.at_line
  obtain ⟨signature, hsignature, rfl, defines, own, _⟩ :=
    situated.definition here (Statement.form_of_block parsed rfl) resolved found
  rintro ⟨-, around | ⟨⟨i, line'⟩, mem, defines', signature', hsignature', rfl⟩ | free⟩
  · exact situated.not_inside own defines hsignature (inside.trans around)
  · rw [develops.lines, (situated.next here.ge).here] at mem
    refine situated.name_ne here defines hsignature mem defines' hsignature' ?_
    simpa using (List.prefix_append_right_inj home.segments).1 inside
  · rw [free] at registered
    cases registered

/-- A block lies in the scopes that are open at its header. -/
theorem opens_block (h : (Task.statement self site st).Sits home (body, ws))
    (splits : st.role? = some role) (hpath : path = Block.path self role body.counter)
    (free : ws.routines.get? path = none)
    (isOpen : (Task.routine path previous).Opens path (Block.opened self site role path ws) q) :
    ws.Opens home self site.index q := by
  obtain ⟨below, around | ⟨self', found', guard, _⟩ | none⟩ := isOpen
  · rw [hpath, (@Block.routine_of_role? self site st role path splits).2.2.2] at around free
    exact ⟨below, (Path.prefix_child.1 around).elim (fun same => .inr (.inr (same ▸ free))) .inl⟩
  · cases Block.get?_opened_self.symm.trans found'
    rw [(Block.routine_of_role? splits).2.2.1] at guard
    cases guard
  · obtain ⟨opened, _⟩ : ws.Develops (Block.opened self site role path ws) ∧ _ :=
      Block.opened_housed h.housed (h.has self rfl) hpath free
    exact ⟨below, .inr (.inr (opened.free none))⟩

/-- What a block adds is apart from the lines after it. -/
theorem block_apart (h : (Task.statement self site st).Sits home c)
    (splits : st.role? = some role) (hpath : path = Block.path self role c.1.counter)
    (free : c.2.routines.get? path = none) (develops : c.2.Develops ws')
    (registered : ws'.routines.get? q = some r) (inside : path.segments <+: q.segments) :
    ¬ ws'.Opens home self (site.index + 1) q := by
  obtain ⟨line, situated, here, _⟩ := h.at_line
  have later := situated.next here.ge
  rw [(@Block.routine_of_role? self site st role path splits).2.2.2] at hpath
  rintro ⟨-, around | ⟨⟨i, line'⟩, mem, defines, signature, parsed, rfl⟩ | none⟩
  · have := (inside.trans around).length_le
    simp only [hpath, Path.block, Path.child, List.length_append, List.length_singleton] at this
    omega
  · rw [develops.lines, later.here] at mem
    have outside : path.encloses ((home.child signature.name).child "") = false :=
      (Clear.outside_block later hpath free (.inner mem defines parsed)).2
    refine Bool.eq_false_iff.1 outside (Path.encloses_iff.2 ⟨?_, inside.trans (List.prefix_append ..)⟩)
    exact inside.length_le.trans_lt (by simp [Path.child])
  · rw [none] at registered
    cases registered

/-- A guarded block lies in the scopes that are open at the lines it has. -/
theorem opens_guard {block : Path} {n : Nat} (h : (Task.rest self site st block).Sits home (body, ws))
    (hpath : path = Block.path self .guard n) (free : ws.routines.get? path = none)
    (isOpen : (Task.routine path previous).Opens home (Block.opened self site .guard path ws) q) :
    ws.Opens home self (site.index + 1) q := by
  have situated := h.situated_rest
  obtain ⟨beyond, _⟩ := situated.placed_guard hpath free
  obtain ⟨opened, _⟩ : ws.Develops (Block.opened self site .guard path ws) ∧ _ :=
    Block.opened_housed situated.housed situated.has hpath free
  obtain ⟨below, around | ⟨self', found', _, among⟩ | none⟩ := isOpen
  · obtain ⟨scope, m, rfl, _, upper⟩ := situated.within.guard_scope situated.housed situated.has hpath
    exact ⟨below, (Path.prefix_child.1 around).elim (fun same => .inr (.inr (same ▸ free)))
      fun inside => .inl (inside.trans upper)⟩
  · cases Block.get?_opened_self.symm.trans found'
    rw [opened.lines, beyond] at among
    refine ⟨below, .inr (.inl ?_)⟩
    rw [Definition.Among, situated.here, Block.own_beyond]
    exact among
  · exact ⟨below, .inr (.inr (opened.free none))⟩

end Sits

end Task

/-- Leaving a body takes away all of its locals but the integers. -/
theorem Lowering.kind?_releaseLocals {locals : List String} {ws : Workspace} {kind : Kind}
    (found : (releaseLocals ws locals).symbols.kind? name = some kind) :
    ws.symbols.kind? name = some kind ∧ (name ∈ locals → kind = .integer) := by
  have old {locals : List String} {ws : Workspace}
      (found : (releaseLocals ws locals).symbols.kind? name = some kind) :
      ws.symbols.kind? name = some kind := by
    rcases symbols_releaseLocals locals ws name with ⟨same, _⟩ | ⟨none, _⟩
    · exact same ▸ found
    · rw [none] at found
      cases found
  refine ⟨old found, fun mem => ?_⟩
  induction locals generalizing ws with
  | nil => cases mem
  | cons _ _ ih =>
    rcases List.mem_cons.1 mem with rfl | mem
    · rw [releaseLocals, List.foldl_cons] at found
      split at found
      · next integer => exact Option.some.inj ((old found).symm.trans integer)
      · have gone := (@Symbols.remove_at ws.symbols name).1
        exact absurd ((old found).symm.trans gone) (Option.some_ne_none _)
    · exact ih found mem

/-- Whatever a part of a compilation does to the kinds of variables, in the end all but those that
it knows from outside and its locals are integers. -/
theorem Ran.tidy {task : Task} (ran : Ran task c visits c') :
    ∀ {home : Path} {outer : String → Prop}, task.Sits home c →
      c.2.Tidy (task.knows outer c.1) (task.Opens home c.2 ·) →
      c'.2.Tidy (task.knows outer c'.1) (task.keepsOpen home c' ·) := by
  induction ran with
  | skip | nil | leave | quiet => exact fun _ tidy => tidy.mono rfl (fun _ => id) nofun
  | @run _ _ _ _ _ ws₁ _ self _ _ _ found starts _ enters _ ih =>
    intro home outer sits tidy
    obtain ⟨develops, begun⟩ := sits.enter found starts enters
    have entered : ws₁.Tidy (fun name => outer name ∨ name ∈ paramPaths self)
        (ws₁.Opens home self self.start) := by
      intro name kind declared
      rw [enters.symbols] at declared
      rcases kind?_bindParams declared with ⟨_, bound⟩ | param | old
      · exact .inl (.inr (List.mem_append_right _ bound))
      · exact .inl (.inr (List.mem_append_left _ (List.mem_map_of_mem param)))
      · exact (tidy name kind old).imp .inl fun ⟨integer, closed⟩ =>
          ⟨integer, fun q own isOpen =>
            closed q own (sits.opens_enter found enters develops isOpen)⟩
    intro name kind declared
    obtain ⟨declared, released⟩ := kind?_releaseLocals declared
    rcases ih begun entered name kind declared with (outside | mem) | ⟨integer, _⟩
    · exact .inl outside
    · exact .inr ⟨released mem, nofun⟩
    · exact .inr ⟨integer, nofun⟩
  | deeper deeper _ ih =>
    exact fun sits tidy => ih (sits.pass deeper.le) (tidy.mono rfl (fun _ => id) fun _ later =>
      later.before sits.situated deeper.le (.refl _))
  | @step _ _ _ _ _ _ mid _ _ st _ _ _ here _ parsed statement after ihStatement ihAfter =>
    intro home outer sits tidy
    have tidy₁ := ihStatement (sits.start here parsed) (tidy.mono rfl (fun _ => id) fun _ => id)
    have known (name : String) : outer name ∨ name ∈ mid.locals → outer name ∨
        name ∈ (if st.continuesChain then mid else { mid with previous := none }).locals := by
      split <;> exact id
    cases asks : mid.asks with
    | false =>
      obtain ⟨_, next⟩ := sits.next here parsed statement
      exact ihAfter next (tidy₁.mono rfl known fun _ isOpen => ⟨asks, isOpen⟩)
    | true =>
      obtain ⟨rfl, rfl⟩ := after.of_asks (Body.asks_chained.trans asks)
      exact tidy₁.mono rfl known nofun
  | plain plain calls gives =>
    intro home outer sits tidy
    have effects := effects_plain plain calls gives
    have kept := effects.kept
    obtain ⟨line, situated, here, _⟩ := sits.at_line
    have below := situated.has.below situated.housed.orderly
    exact (tidy.effects (fun q some' inside => ⟨below.of_shorter some' inside, .inl inside⟩)
      effects).mono rfl (fun _ => id) fun _ later => later.2.before situated here.ge
        kept.alike.develops
  | exit | next =>
    intro home outer sits tidy
    obtain ⟨line, situated, here, _⟩ := sits.at_line
    exact tidy.mono rfl (fun _ => id) fun _ later => later.2.before situated here.ge (.refl _)
  | defer =>
    intro home outer sits tidy
    obtain ⟨line, situated, here, _⟩ := sits.at_line
    exact tidy.mono rfl (fun _ => id) fun _ later => later.2.before situated here.ge
      (Alike.deferred ..).develops
  | @define self _ name body _ ws' callee _ _ resolved found _ compiled ih =>
    intro home outer sits tidy
    obtain ⟨begun, text, signature, parsed, hcallee, origin⟩ := sits.define resolved found
    obtain ⟨line, situated, here, classified⟩ := sits.at_line
    obtain ⟨develops, housed⟩ := begun.ran compiled
    have inner : ws'.Tidy (fun name => outer name ∨ name ∈ body.locals) fun _ => False := by
      exact ih begun (tidy.mono rfl (fun _ => id) fun _ => sits.opens_define resolved found)
    have used := Alike.used ws' callee
    refine tidy.later (inner.mono rfl (fun _ => id) fun _ => id) (housed.of_alike used)
      (fun q later => ⟨later.2.before situated here.ge (develops.trans used.develops),
        later.2.1⟩)
      (fun name contained => ?_)
      fun q r registered inside later => sits.define_apart resolved found
        (develops.trans used.develops) registered inside later.2
    refine (compiled.contains_or_scopesIn begun (fun self found' => ?_) contained).imp_right
      fun new => new.mono used.develops List.prefix_rfl
    cases found.symm.trans found'
    exact Definition.ownParams_of_entry parsed origin
  | @block _ _ _ _ _ body mid _ ws₁ _ _ inside later splits hpath free compiled heads _ ihCompiled
      ihRest =>
    intro home outer sits tidy
    obtain ⟨opened, begun⟩ := sits.block splits hpath free
    obtain ⟨develops, onward⟩ := sits.after splits hpath free compiled heads
    obtain ⟨line, situated, here, _⟩ := sits.at_line
    obtain ⟨reworks, _, _, (locals : mid.locals = body.locals), _⟩ := heads.reworks
    have inner : ws₁.Tidy (fun name => outer name ∨ name ∈ body.locals) fun _ => False := by
      exact ihCompiled begun (tidy.mono rfl (fun _ => id) fun _ =>
        sits.opens_block splits hpath free)
    refine ihRest onward ((tidy.later (inner.mono reworks.symbols (fun _ => id) fun _ => id)
      onward.housed
      (fun q later => ⟨later.before situated here.ge develops, later.1⟩)
      (fun name contained => ?_)
      fun q r registered inside later => sits.block_apart splits hpath free develops registered
        inside later).mono rfl (fun name => ?_) fun _ => id)
    · rw [reworks.symbols] at contained
      exact (compiled.contains_or_scopesIn begun Block.ownParams_opened contained).imp_right
        fun new => new.mono reworks.alike.develops List.prefix_rfl
    · exact Or.imp_right fun mem => locals ▸ mem
  | unguarded => exact fun sits tidy => tidy.mono rfl (fun _ => id) fun _ later => later.2
  | @guarded _ _ _ _ guard _ inner rest body _ mid _ _ _ _ _ _ asks hasking hpath free _ _ hmid
      ih =>
    intro home outer sits tidy
    obtain ⟨opened, begun⟩ := sits.guard hpath free
    have still := @Body.asks_of_inner inner rest body mid asks
      (by rw [hmid, hasking]; split <;> rfl) (by rw [hmid, hasking]; split <;> rfl)
    have locals : mid.locals = body.locals := by
      rw [hmid, hasking]
      split <;> rfl
    exact (ih begun (tidy.mono rfl (fun _ => id) fun _ => sits.opens_guard hpath free)).mono rfl
      (fun _ => Or.imp_right fun mem => locals ▸ mem) fun _ later =>
        Bool.noConfusion (still.symm.trans later.1)

/-! ### Compilations inside compilations -/

/-- What is declared during the compilation of a routine is an integer in the end. -/
theorem Task.Sits.releases {home path : Path} {previous : Option Chain}
    (h : (Task.routine path previous).Sits home c) (ran : Ran (.routine path previous) c visits c')
    {kind : Kind} (declared : c'.2.symbols.kind? name = some kind)
    (new : c.2.symbols.contains name = false) : kind = .integer := by
  have start : c.2.Tidy ((Task.routine path previous).knows (c.2.symbols.contains · = true) c.1)
      ((Task.routine path previous).Opens home c.2 ·) :=
    fun _ kind found => .inl (Symbols.contains_iff.2 ⟨kind, found⟩)
  rcases ran.tidy h start name kind declared with old | ⟨integer, _⟩
  · exact absurd old (Bool.eq_false_iff.1 new)
  · exact integer

namespace Workspace

variable {settings : Settings} {sources : List (String × String)} {ws : Workspace}

/-- A compilation leaves nothing declared but integers, all with slots. More than that, every
routine that is compiled, at whatever depth, leaves nothing declared but integers and what was
declared before it. -/
theorem compile_releases_locals (read : addSources { settings } sources = .ok ws) :
    (∀ final, ws.compile = (.ok (), final) → ∀ name kind, final.symbols.kind? name = some kind →
      kind = .integer ∧ name ∈ final.ints) ∧
    ws.withRoot.Housed ∧ ∀ start : Workspace, start.Housed → ∀ first r,
      start.routines.get? first = some r → r.kind.isGuard = false →
        ∀ body path previous body' before,
          Relation.ReflTransGen Starts (.routine first none, (body, start))
            (.routine path previous, (body', before)) →
          ∀ limit after, WorkM.Gives (Lowering.compile limit path previous) before () after →
            ∀ name kind, after.symbols.kind? name = some kind →
              before.symbols.contains name = false → kind = .integer := by
  have unbuilt := unbuilt_of_addSources read
  refine ⟨fun final compiled name kind declared => ?_, unbuilt.housed_withRoot,
    fun start housed first r found other body path previous body' before starts limit after gives
      name kind declared new => ?_⟩
  · obtain ⟨visits, ran⟩ := unbuilt.ran compiled
    obtain ⟨sound, _⟩ := unbuilt.disciplined .furnished unbuilt.furnished_withRoot ran
    have integer := Task.Sits.releases unbuilt.sits ran declared (by
      rw [show ws.withRoot.symbols = {} from unbuilt.symbols]
      rfl)
    exact ⟨integer, sound.holds.integers (integer ▸ declared)⟩
  · have sits : ∃ home, (Task.routine path previous).Sits home (body', before) := by
      generalize hb : (Task.routine path previous, (body', before)) = b at starts
      rw [show Task.routine path previous = b.1 by rw [← hb],
        show ((body', before) : Stage) = b.2 by rw [← hb]]
      clear hb
      induction starts with
      | refl => exact ⟨_, .routine housed found (Routine.placed_self other)⟩
      | tail _ step ih =>
        obtain ⟨_, sits⟩ := ih
        exact step.sits sits
    obtain ⟨home, sits⟩ := sits
    obtain ⟨visits, ran⟩ := traced_compile limit body' gives
    exact sits.releases ran declared new

/-- A block that makes an entity of an integer and declares variables of its own. -/
def retyping : String :=
  "x = 1\nif a:\n    x = @p\n    y = 2\n    s = hi"

theorem compile_releases_locals_retyping :
    ∃ ws final limit, addSources {} [("", retyping)] = .ok ws ∧ ws.compile = (.ok (), final) ∧
      WorkM.Gives (Lowering.compile limit ⟨["main"]⟩ none) ws.withRoot () final ∧
      final.symbols.kind? "main.e0.y" = some .integer ∧ "main.e0.y" ∈ final.ints ∧
      final.symbols.contains "main.x" = false ∧ ∀ name kind,
        final.symbols.kind? name = some kind → ws.withRoot.symbols.contains name = false →
          kind = .integer := by
  obtain ⟨ws, final, read, compiled, integer, released⟩ : ∃ ws final,
      addSources {} [("", retyping)] = .ok ws ∧ ws.compile = (.ok (), final) ∧
        final.symbols.kind? "main.e0.y" = some .integer ∧
          final.symbols.contains "main.x" = false := by decide +kernel
  obtain ⟨integers, housed, inner⟩ := compile_releases_locals read
  have unbuilt := unbuilt_of_addSources read
  obtain ⟨limit, gives⟩ := unbuilt.gives_compile compiled
  exact ⟨ws, final, limit, read, compiled, gives, integer, (integers final compiled _ _ integer).2,
    released, inner _ housed _ _ unbuilt.found_root rfl {} _ none {} _
      .refl limit final gives⟩

end Workspace

end CommandPack
