import CommandPack.Proofs.Lowering.Growth

/-!
# Where the code of a script ends up

Compiling a piece of a script leaves commands in the body and new blocks in the workspace.
Together they hold the piece, in every arena that agrees with the workspace on these blocks up
to the tail of a loop around them. The statements here put pieces together; what they say about
the commands of single statements is left to a regime.
-/

namespace CommandPack

variable {D : Dialect} {busy : Path → Prop} {q : Path}

/-! ### Regimes -/

/-- A property of workspaces that compiling keeps, as far as the texts of the plain statements
and headers allow, with the dialect that follows from it. -/
structure Regime where
  dialect : Dialect
  Holds : Workspace → Prop
  Text : String → Prop
  Test : String → Prop
  pack {ws : Workspace} : Holds ws → ws.settings.pack = dialect.pack
  /-- The property depends on routines only by their origins, and blocks are free. -/
  stable {ws ws' : Workspace} : Holds ws → ws'.symbols = ws.symbols → ws'.lines = ws.lines →
    ws'.settings = ws.settings →
    (∀ q r', ws'.routines.get? q = some r' →
      (∃ r, ws.routines.get? q = some r ∧ r'.origin = r.origin) ∨
        r'.kind.isBlock = true ∧ r'.params = [] ∧ r'.bindings = []) → Holds ws'
  plain {compile : Compile} {self : Routine} {site : Site} {st : Statement} {body body' : Body}
    {ws ws' : Workspace} {text : String} {u : Unit} : Text text → Holds ws →
    Statement.classify (ws.resolveFunction? self.path) text = .ok st → st.isPlain = true →
    BodyM.Gives (Lowering.statement compile self site st) body ws u body' ws' →
      Holds ws' ∧ ∃ cs, body'.commands = body.commands ++ cs ∧ dialect.emits text cs
  header {self : Routine} {body body' : Body} {ws ws' : Workspace} {text : String}
    {clauses : List Clause} : Test text → Holds ws → body.pending = [] →
    BodyM.Gives (Condition.header self.path text) body ws clauses body' ws' →
      dialect.tests text body'.pending clauses
  enter {ws : Workspace} {path : Path} {self : Routine} : Holds ws →
    ws.routines.get? path = some self → Holds (Lowering.bindParams self ws)
  scan {ws ws' : Workspace} {self : Routine} {index : Nat} {u : Unit} : Holds ws →
    WorkM.Gives (Definition.registerAll self index (ws.lines.drop index)) ws u ws' → Holds ws'
  release {ws : Workspace} {locals : List String} : Holds ws →
    Holds (Lowering.releaseLocals ws locals)

/-! ### Blocks that a body has split off -/

/-- A block that was registered and compiled meanwhile. -/
structure Fresh (owner : Path) (ws ws' : Workspace) (p : Path) : Prop where
  absent : ws.routines.get? p = none
  present : ∃ b, ws'.routines.get? p = some b ∧ b.kind.isBlock = true ∧ b.compiled = true ∧
    b.owner = owner

/-- The guarded blocks that a body goes on in, one after the other. -/
inductive Linked (ws : Workspace) : Option Path → List Path → Prop
  | nil : Linked ws none []
  | cons {p : Path} {b : Routine} {rest : List Path} (found : ws.routines.get? p = some b)
      (goesOn : Linked ws b.continuation rest) : Linked ws (some p) (p :: rest)

/-- The new blocks are in view, with the tail in the last one that the body goes on in. -/
def Agrees (view : Code.View) (ws : Workspace) (used links : List Path) (tail : Code.Tail) :
    Prop :=
  ∀ p ∈ used, ∀ b, ws.routines.get? p = some b →
    view p = some (b.loop, b.commands ++
      if links.getLast? = some p then tail b.mayExit b.maySkip else [])

/-- All routines of a workspace. -/
def Workspace.view (ws : Workspace) : Code.View := fun path =>
  (ws.routines.get? path).map fun r => (r.loop, r.commands)

theorem Workspace.arena_view (ws : Workspace) : ws.view.arena = ws.arena := by
  funext path
  simp [Code.View.arena, Workspace.view, Workspace.arena, Function.comp_def]

/-- The tail stands in the body itself if the body does not go on elsewhere. -/
def closing (links : List Path) (tail : Code.Tail) (x s : Bool) : List Command :=
  if links = [] then tail x s else []

/-! ### Definitions -/

/-- The commands of a routine hold the script of its lines, by blocks of its own. -/
def Coded (D : Dialect) (ws : Workspace) (r : Routine) : Prop :=
  ∃ script x s used, Script.Reads r.depth (ws.lines.drop r.start) script ∧ used.Nodup ∧
    (∀ p ∈ used, ∃ b, ws.routines.get? p = some b ∧ b.kind.isBlock = true ∧
      b.compiled = true ∧ b.owner = r.owner) ∧
    ∀ view : Code.View, (∀ p ∈ used, view p = ws.view p) →
      Code D view r.loop Code.noTail none (.block script) r.commands x s used

/-- All compiled definitions but those that are being compiled are coded. -/
def DefsCoded (D : Dialect) (busy : Path → Prop) (ws : Workspace) : Prop :=
  ∀ q r, ws.routines.get? q = some r → r.kind = .defined → r.compiled = true → ¬ busy q →
    Coded D ws r

/-- Changes to blocks of busy definitions do not matter to the other ones. -/
theorem DefsCoded.of_change {ws ws' : Workspace} (h : DefsCoded D busy ws) (orderly : ws.Orderly)
    (lines : ws'.lines = ws.lines)
    (defs : ∀ q r', ws'.routines.get? q = some r' → r'.kind = .defined → r'.compiled = true →
      ¬ busy q → ∃ r, ws.routines.get? q = some r ∧ r'.origin = r.origin ∧ r.compiled = true ∧
        r'.commands = r.commands)
    (blocks : ∀ p b, ws.routines.get? p = some b → b.kind.isBlock = true → b.compiled = true →
      ¬ busy b.owner → ws'.routines.get? p = some b) : DefsCoded D busy ws' := by
  intro q r' found' defined' compiled' free
  obtain ⟨r, found, origin, compiled, commands⟩ := defs q r' found' defined' compiled' free
  have defined : r.kind = .defined := (Routine.kind_of_origin origin).symm.trans defined'
  obtain ⟨script, x, s, used, reads, nodup, present, code⟩ := h q r found defined compiled free
  have owner : r.owner = q := (orderly.owned found defined).1
  have same : ∀ p ∈ used, ∃ b, ws.routines.get? p = some b ∧ ws'.routines.get? p = some b ∧
      b.kind.isBlock = true ∧ b.compiled = true ∧ b.owner = r.owner := by
    intro p mem
    obtain ⟨b, foundBlock, block, compiledBlock, ownerBlock⟩ := present p mem
    refine ⟨b, foundBlock, blocks p b foundBlock block compiledBlock ?_, block, compiledBlock,
      ownerBlock⟩
    rwa [ownerBlock, owner]
  refine ⟨script, x, s, used, ?_, nodup, ?_, ?_⟩
  · rwa [lines, Routine.depth_of_origin origin, Routine.start_of_origin origin]
  · intro p mem
    obtain ⟨b, _, foundBlock, block, compiledBlock, ownerBlock⟩ := same p mem
    exact ⟨b, foundBlock, block, compiledBlock,
      ownerBlock.trans (Routine.owner_of_origin origin).symm⟩
  · intro view agrees
    rw [commands, Routine.loop_of_origin origin]
    refine code view fun p mem => ?_
    obtain ⟨b, before, after, _⟩ := same p mem
    rw [agrees p mem, Workspace.view, Workspace.view, before, after]

theorem DefsCoded.of_routines {ws ws' : Workspace} (h : DefsCoded D busy ws) (orderly : ws.Orderly)
    (routines : ws'.routines = ws.routines) (lines : ws'.lines = ws.lines) : DefsCoded D busy ws' :=
  h.of_change orderly lines
    (fun q r' found _ compiled _ => ⟨r', routines ▸ found, rfl, compiled, rfl⟩)
    (fun p b found _ _ _ => by rw [routines, found])

/-! ### Patches -/

/-- The commands of some routines are replaced. All of them are blocks of one owner. -/
structure Patched (owner : Path) (patch : Path → Routine → List Command) (ws ws' : Workspace) :
    Prop where
  settings : ws'.settings = ws.settings
  lines : ws'.lines = ws.lines
  symbols : ws'.symbols = ws.symbols
  routines (q : Path) : ws'.routines.get? q =
    (ws.routines.get? q).map fun r => { r with commands := patch q r }
  owned {q : Path} {r : Routine} : ws.routines.get? q = some r → patch q r ≠ r.commands →
    r.kind.isBlock = true ∧ r.owner = owner

namespace Patched

variable {owner : Path} {patch patch' : Path → Routine → List Command} {ws ws₁ ws' : Workspace}

theorem found (h : Patched owner patch ws ws') {r : Routine} (old : ws.routines.get? q = some r) :
    ws'.routines.get? q = some { r with commands := patch q r } := by
  rw [h.routines, old, Option.map_some]

theorem origins (h : Patched owner patch ws ws') {r' : Routine}
    (found : ws'.routines.get? q = some r') :
    ∃ r, ws.routines.get? q = some r ∧ r'.origin = r.origin := by
  rw [h.routines, Option.map_eq_some_iff] at found
  obtain ⟨r, old, rfl⟩ := found
  exact ⟨r, old, rfl⟩

theorem orderly (h : Patched owner patch ws ws') (orderly : ws.Orderly) : ws'.Orderly :=
  orderly.of_origins h.lines h.settings h.origins

theorem defsCoded (h : Patched owner patch ws ws') (orderly : ws.Orderly) (hbusy : busy owner)
    (coded : DefsCoded D busy ws) : DefsCoded D busy ws' := by
  refine coded.of_change orderly h.lines ?_ ?_
  · intro q r' found defined compiled _
    rw [h.routines, Option.map_eq_some_iff] at found
    obtain ⟨r, found, rfl⟩ := found
    refine ⟨r, found, rfl, compiled, ?_⟩
    by_contra changed
    have block := (h.owned found changed).1
    rw [show r.kind = .defined from defined] at block
    cases block
  · intro p b found block compiled free
    rw [h.routines, found, Option.map_some]
    by_cases same : patch p b = b.commands
    · rw [same]
    · rw [(h.owned found same).2] at free
      exact absurd hbusy free

theorem holds (h : Patched owner patch ws ws') {R : Regime} (hw : R.Holds ws) : R.Holds ws' :=
  R.stable hw h.symbols h.lines h.settings fun _ _ found => .inl (h.origins found)

/-- A patch that changes nothing. -/
theorem of_routines (settings : ws'.settings = ws.settings) (lines : ws'.lines = ws.lines)
    (symbols : ws'.symbols = ws.symbols) (routines : ws'.routines = ws.routines) :
    Patched owner (fun _ r => r.commands) ws ws' where
  settings := settings
  lines := lines
  symbols := symbols
  routines q := by rw [routines]; simp
  owned _ changed := absurd rfl changed

theorem of_update {p : Path} {f : Routine → List Command}
    (owned : ∀ r, ws.routines.get? p = some r → r.kind.isBlock = true ∧ r.owner = owner) :
    Patched owner (fun q r => if q = p then f r else r.commands) ws
      (ws.updateRoutine p fun r => { r with commands := f r }) where
  settings := rfl
  lines := rfl
  symbols := rfl
  routines q := by
    simp only [Workspace.updateRoutine, Table.get?_modify]
    congr 1
    funext r
    split <;> rfl
  owned {q r} found changed := by
    split at changed
    · next same =>
      subst same
      exact owned r found
    · exact absurd rfl changed

theorem trans (h : Patched owner patch ws ws₁) (h' : Patched owner patch' ws₁ ws') :
    Patched owner (fun q r => patch' q { r with commands := patch q r }) ws ws' where
  settings := h'.settings.trans h.settings
  lines := h'.lines.trans h.lines
  symbols := h'.symbols.trans h.symbols
  routines q := by
    rw [h'.routines, h.routines, Option.map_map]
    rfl
  owned {q r} found changed := by
    by_cases same : patch q r = r.commands
    · rw [same] at changed
      refine h'.owned ?_ changed
      rw [h.routines, found, Option.map_some, same]
    · exact h.owned found same

theorem congr (h : Patched owner patch ws ws')
    (same : ∀ q r, ws.routines.get? q = some r → patch q r = patch' q r) :
    Patched owner patch' ws ws' where
  settings := h.settings
  lines := h.lines
  symbols := h.symbols
  routines q := by
    rw [h.routines]
    cases found : ws.routines.get? q with
    | none => rfl
    | some r => simp [same q r found]
  owned {q r} found changed := h.owned found (by rwa [same q r found])

end Patched

/-! ### Pieces -/

/-- The marker that an `else` after a branch uses. -/
def Chain.tag (chain : Chain) : String :=
  chain.marker.getD (Marker.chainTag chain.branch)

/-- The branch of a chain is a compiled block, and the marker belongs to some routine. -/
structure Chain.Open (owner : Path) (ws : Workspace) (chain : Chain) : Prop where
  branch : ∃ b, ws.routines.get? chain.branch = some b ∧ b.kind.isBlock = true ∧
    b.compiled = true ∧ b.owner = owner
  tag : ∃ q r, ws.routines.get? q = some r ∧ chain.tag = Marker.chainTag q

/-- What a script puts in front of the branch of the chain that it may go on with. -/
def touch (prev : Option Chain) (script : Script) (q : Path) : List Command :=
  match prev with
  | some chain => if q = chain.branch then Code.front chain.tag script else []
  | none => []

@[simp]
theorem touch_none (script : Script) : touch none script = untouched := rfl

theorem touch_of_ne {chain : Chain} (ne : q ≠ chain.branch) (script : Script) :
    touch (some chain) script q = [] := by
  simp [touch, ne]

/-- Compiling a piece of a body of an owner in a loop has added commands to the body and
blocks to the workspace, and they hold the piece. -/
structure Laid (R : Regime) (owner : Path) (lp : Option Path) (prev : Option Chain)
    (piece : Code.Piece) (ws ws' : Workspace) (cs : List Command) (x s : Bool)
    (next : Option Path) (used : List Path) : Prop where
  grows : Grows (touch prev piece.script) ws ws'
  orderly : ws'.Orderly
  fresh : ∀ p ∈ used, Fresh owner ws ws' p
  nodup : used.Nodup
  loopless : lp = none → x = false ∧ s = false
  code : ∃ links, Linked ws' next links ∧ links.Nodup ∧ links ⊆ used ∧
    (R.Holds ws → piece.script.All R.Text R.Test →
      R.Holds ws' ∧
      (∀ busy : Path → Prop, busy owner → DefsCoded R.dialect busy ws →
        DefsCoded R.dialect busy ws') ∧
      ∀ view tail, Agrees view ws' used links tail →
        Code R.dialect view lp tail (prev.map Chain.tag) piece (cs ++ closing links tail x s)
          x s used)

/-- A block that was split off: it is new, and its commands hold its script. -/
structure Split (R : Regime) (owner : Path) (lp : Option Path) (prev : Option Chain)
    (script : Script) (ws ws' : Workspace) (block : Path) (inner : Routine) (used : List Path) :
    Prop where
  laid : Laid R owner lp prev (.block script) ws ws' inner.commands inner.mayExit inner.maySkip
    inner.continuation used
  absent : ws.routines.get? block = none
  found : ws'.routines.get? block = some inner
  isBlock : inner.kind.isBlock = true
  compiled : inner.compiled = true
  owned : inner.owner = owner
  inLoop : inner.loop = lp
  apart : block ∉ used

end CommandPack
