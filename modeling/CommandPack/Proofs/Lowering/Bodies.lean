import CommandPack.Proofs.Lowering.Assembly

/-!
# Compiled bodies hold their scripts

Compiling a routine reads a script off its lines and lays out its code. The proof goes along
the lines of a body, with the blocks in it left to the compilation of routines on a lower
level.
-/

namespace CommandPack

open BodyM Marker Block Script

variable {role : BlockRole} {block path : Path} {inner : Routine} {clauses : String}

/-- A compilation of single routines that lays out the scripts of their lines. -/
def Sound (R : Regime) (compile : Compile) : Prop :=
  ∀ {path : Path} {prev : Option Chain} {ws ws' : Workspace} {r : Routine} {u : Unit},
    WorkM.Gives (compile path prev) ws u ws' → ws.Orderly → ws.routines.get? path = some r →
    (r.kind.isBlock = true → r.compiled = false) →
    (∀ chain, prev = some chain → chain.Open r.owner ws) →
    ∃ script inner used, Reads r.depth (ws.lines.drop r.start) script ∧
      Laid R r.owner r.loop prev (.block script) ws ws' inner.commands inner.mayExit
        inner.maySkip inner.continuation used ∧
      ws'.routines.get? path = some inner ∧ inner.origin = r.origin ∧ inner.compiled = true

variable {R : Regime} {compile : Compile} {self : Routine} {site : Site} {body body₁ body' : Body}
  {ws ws₁ ws' : Workspace} {u : Unit}

/-! ### Blocks -/

theorem Block.below_path {root : String} (below : self.path.Below root) (counter : Nat) :
    (Block.path self role counter).Below root := by
  unfold Block.path
  split
  · next parent found =>
    exact (below.parent found).child (BlockRole.dot_not_mem_segment _ _)
  · exact below.child (BlockRole.dot_not_mem_segment _ _)

/-- A chain stays open while routines are added. -/
theorem Chain.Open.mono {chain : Chain} {owner : Path} (h : chain.Open owner ws)
    (grows : Grows untouched ws ws') : chain.Open owner ws' := by
  obtain ⟨⟨b, found, isBlock, compiled, owned⟩, q, r, foundTag, tag⟩ := h
  obtain ⟨r', foundTag', _⟩ := grows.kept foundTag
  exact ⟨⟨_, grows.settled found isBlock compiled, isBlock, compiled, owned⟩, q, r', foundTag',
    tag⟩

/-- The depth of a block under a line. -/
def Block.depth (self : Routine) (role : BlockRole) : Nat :=
  if role = .guard then self.depth else self.depth + 1

/-- A workspace with a new block, not yet compiled. -/
def Block.opened (self : Routine) (site : Site) (role : BlockRole) (path : Path)
    (ws : Workspace) : Workspace :=
  { ws with routines := ws.routines.insert path (routine self site role path) }.record
    (.blockOpened path self.path)

theorem Block.gives_create
    (h : Gives (Block.create compile self site role) body ws path body' ws') :
    path = Block.path self role body.counter ∧
      body' = { body with counter := body.counter + 1 } ∧ ws.routines.get? path = none ∧
      WorkM.Gives (compile path (if role = .guard then body.previous else none))
        (Block.opened self site role path ws) () ws' := by
  simp only [Block.create, gives_bind, gives_get, gives_modify, gives_lift, WorkM.gives_update?,
    WorkM.gives_record, gives_pure, Workspace.register_eq_ok] at h
  obtain ⟨_, _, _, ⟨rfl, rfl, rfl⟩, _, _, _, ⟨rfl, rfl⟩, _, _, _, ⟨⟨absent, rfl⟩, rfl⟩, _, _, _,
    ⟨rfl, rfl⟩, _, _, _, ⟨compiled, rfl⟩, rfl, rfl, rfl⟩ := h
  exact ⟨rfl, rfl, absent, compiled⟩

theorem Block.get?_opened {q : Path} :
    (opened self site role path ws).routines.get? q =
      if q = path then some (routine self site role path) else ws.routines.get? q :=
  Table.get?_insert ..

theorem Block.get?_opened_self :
    (opened self site role path ws).routines.get? path =
      some (routine self site role path) := by
  rw [get?_opened, if_pos rfl]

/-- Creating a block splits it off. -/
theorem Block.create_splits (sound : Sound R compile)
    (h : Gives (Block.create compile self site role) body ws path body' ws') (orderly : ws.Orderly)
    (below : self.path.Below ws.settings.root)
    (isOpen : ∀ chain, body.previous = some chain → chain.Open self.owner ws) :
    body' = { body with counter := body.counter + 1 } ∧
      ∃ script inner used,
        Reads (Block.depth self role) (ws.lines.drop (Block.start self site role)) script ∧
        Split R self.owner (if role.isLoop then some path else self.loop)
          (if role = .guard then body.previous else none) script ws ws' path inner used := by
  obtain ⟨hpath, rfl, absent, compiled⟩ := Block.gives_create h
  have belowPath : path.Below ws.settings.root := hpath ▸ Block.below_path below _
  have grows : Grows untouched ws (Block.opened self site role path ws) :=
    (@Grows.of_insert ws (Block.routine self site role path) absent).trans_untouched
      (.of_routines rfl rfl rfl)
  have orderlyOpened : (Block.opened self site role path ws).Orderly :=
    (@Workspace.Orderly.insert ws orderly (Block.routine self site role path) belowPath
      nofun).of_routines rfl rfl rfl
  have found : (Block.opened self site role path ws).routines.get? path =
      some (Block.routine self site role path) := by
    rw [Block.get?_opened, if_pos rfl]
  have stillOpen : ∀ chain, (if role = .guard then body.previous else none) = some chain →
      chain.Open self.owner (Block.opened self site role path ws) := by
    intro chain hchain
    split at hchain
    · exact (isOpen chain hchain).mono grows
    · cases hchain
  obtain ⟨script, inner, used, reads, laid, foundInner, origin, compiledInner⟩ :=
    sound compiled orderlyOpened found (fun _ => rfl) stillOpen
  refine ⟨rfl, script, inner, used, reads, laid.before grows ?_ ?_, absent, foundInner, ?_,
    compiledInner, ?_, ?_, ?_⟩
  · intro holds _
    refine R.stable holds rfl rfl rfl fun q r' found' => ?_
    rw [Block.get?_opened] at found'
    split at found'
    · cases found'
      exact .inr ⟨rfl, rfl, rfl⟩
    · exact .inl ⟨r', found', rfl⟩
  · intro _ _ busy _ coded
    refine coded.of_change orderly rfl ?_ ?_
    · intro q r' found' defined compiled _
      rw [Block.get?_opened] at found'
      split at found'
      · cases found'
        cases defined
      · exact ⟨r', found', rfl, compiled, rfl⟩
    · intro p b foundBlock isBlock compiled _
      exact grows.settled foundBlock isBlock compiled
  · rw [Routine.kind_of_origin origin]
    rfl
  · rw [Routine.owner_of_origin origin]
    rfl
  · rw [Routine.loop_of_origin origin]
    rfl
  · intro mem
    have free := (laid.fresh path mem).absent
    rw [found] at free
    cases free

/-! ### The lines of a body -/

/-- The lines after some commands of a body, given the open chain, have been compiled. -/
def Compiles (R : Regime) (self : Routine) (prev : Option Chain) (lines : List Line)
    (commands : List Command) (ws : Workspace) (body' : Body) (ws' : Workspace) : Prop :=
  ∃ script cs used, Reads self.depth (beyond self.depth lines) script ∧
    Laid R self.owner self.loop prev (.block script) ws ws' cs body'.mayExit body'.maySkip
      body'.continuation used ∧
    body'.commands = commands ++ cs

/-- What holds before a statement of a body is compiled. -/
structure Ready (routine : Routine) (site : Site) (body : Body) (ws : Workspace) : Prop where
  orderly : ws.Orderly
  below : routine.path.Below ws.settings.root
  here : ws.lines.drop (site.index + 1) = site.following
  isOpen : ∀ chain, body.previous = some chain → chain.Open routine.owner ws
  noExit : body.mayExit = false
  noSkip : body.maySkip = false
  noLink : body.continuation = none

/-- What the rest of a body does after a statement, which may have asked to leave the loop or to
start its next round. -/
structure Remainder (R : Regime) (routine : Routine) (site : Site) (body : Body) (ws : Workspace)
    (body' : Body) (ws' : Workspace) : Prop where
  goesOn : Ready routine site body ws →
    Compiles R routine body.previous site.following body.commands ws body' ws'
  stops : (body.mayExit || body.maySkip) = true →
    ws' = ws ∧ body'.commands = body.commands ∧ body'.mayExit = body.mayExit ∧
      body'.maySkip = body.maySkip ∧ body'.continuation = body.continuation

/-- The lines of the guarded rest of a block. -/
theorem Block.drop_start_guard (here : ws.lines.drop (site.index + 1) = site.following) :
    ws.lines.drop (start self site .guard) = beyond self.depth site.following := by
  rw [start, ← List.drop_drop, here, beyond]
  generalize site.following = lines
  induction lines with
  | nil => rfl
  | cons line _ ih =>
    by_cases deeper : self.depth < line.depth
    · simpa [deeper] using ih
    · simp [deeper]

/-- The rest of the lines after a block, in the body itself or in a guarded block. -/
theorem Block.guardRest_compiles (sound : Sound R compile) (ready : Ready self site body ws)
    (found : ws.routines.get? block = some inner)
    (loopless : self.loop = none → inner.mayExit = false ∧ inner.maySkip = false)
    (h : Gives (guardRest compile self site block) body ws u body₁ ws₁)
    (rest : Remainder R self site body₁ ws₁ body' ws') :
    ∃ script cs used,
      Reads self.depth (beyond self.depth site.following) script ∧
      Laid R self.owner self.loop body.previous (.after inner.mayExit inner.maySkip script) ws ws'
        cs body'.mayExit body'.maySkip body'.continuation used ∧
      body'.commands = body.commands ++ cs := by
  have unguarded (hbody : body₁ = body) (hws : ws₁ = ws)
      (quiet : inner.mayExit = false ∧ inner.maySkip = false) :
      ∃ script cs used,
        Reads self.depth (beyond self.depth site.following) script ∧
        Laid R self.owner self.loop body.previous (.after inner.mayExit inner.maySkip script) ws
          ws' cs body'.mayExit body'.maySkip body'.continuation used ∧
        body'.commands = body.commands ++ cs := by
    subst hbody hws
    obtain ⟨script, cs, used, reads, laid, commands⟩ := rest.goesOn ready
    rw [quiet.1, quiet.2]
    exact ⟨script, cs, used, reads, laid.unguarded, commands⟩
  unfold guardRest at h
  split at h
  · next noLoop =>
    simp only [gives_pure] at h
    exact unguarded h.2.1 h.2.2 (loopless noLoop)
  · next w hloop =>
    simp only [gives_bind, gives_lift, WorkM.gives_routine] at h
    obtain ⟨r, _, _, ⟨⟨hr, rfl⟩, rfl⟩, h⟩ := h
    rw [found] at hr
    cases hr
    split at h
    · next asks =>
      simp only [inheritRequests, gives_bind, gives_modify, gives_lift,
        WorkM.gives_routine] at h
      obtain ⟨_, _, _, ⟨rfl, rfl⟩, guard, _, ws₂, hcreate, r, _, _, ⟨⟨hr, rfl⟩, rfl⟩, h⟩ := h
      obtain ⟨rfl, script, rest', used, reads, split⟩ :=
        create_splits sound hcreate ready.orderly ready.below ready.isOpen
      rw [drop_start_guard ready.here] at reads
      rw [split.found] at hr
      cases hr
      simp only [depth, BlockRole.isLoop, if_true, hloop] at reads split
      rw [Bool.or_eq_true] at asks
      split at h
      · simp only [gives_bind, gives_emit, gives_modify] at h
        obtain ⟨_, _, _, ⟨_, rfl, rfl⟩, _, _, _, ⟨rfl, rfl⟩, rfl, rfl⟩ := h
        obtain ⟨rfl, commands, exits, skips, link⟩ := rest.stops (by
          rcases asks with asks | asks <;> simp [asks])
        refine ⟨script, _, guard :: used, reads, ?_, commands⟩
        rw [exits, skips, link]
        simpa [ready.noExit, ready.noSkip, hloop] using split.guarded inner.mayExit inner.maySkip
      · next empty =>
        simp only [gives_modify] at h
        obtain ⟨rfl, rfl⟩ := h
        obtain ⟨rfl, commands, exits, skips, link⟩ := rest.stops (by
          rcases asks with asks | asks <;> simp [asks])
        refine ⟨script, [], guard :: used, reads, ?_, by simpa using commands⟩
        rw [exits, skips, link]
        have nothing : r.commands = [] := by simpa using empty
        simpa [ready.noExit, ready.noSkip, ready.noLink, hloop] using
          split.dropped inner.mayExit inner.maySkip nothing
    · next quiet =>
      simp only [gives_pure] at h
      exact unguarded h.2.1 h.2.2 (by simpa using quiet)

/-! ### Branches -/

/-- The lines after the current one belong to the workspace. -/
theorem Ready.mem_lines (ready : Ready self site body ws) :
    ∀ line ∈ site.following, line ∈ ws.lines := by
  intro line mem
  rw [← ready.here] at mem
  exact List.mem_of_mem_drop mem

/-- If the compiler sees no further `else`, then none follows. -/
theorem Block.startsElse_eq_false {after : Script} (ready : Ready self site body ws)
    (reads : Reads self.depth (beyond self.depth site.following) after)
    (stops : chainContinues self site = false) : after.startsElse = false := by
  have next : site.following.find? (·.depth ≤ self.depth) =
      (beyond self.depth site.following).head? := by
    rw [List.find?_eq_head?_dropWhile_not, beyond]
    congr 2
    funext line
    rw [Bool.eq_iff_iff]
    simp
  unfold chainContinues at stops
  rw [next] at stops
  generalize hl : beyond self.depth site.following = remaining at reads stops
  cases reads with
  | @otherwise _ line following _ _ _ here form =>
    have mem : line ∈ site.following :=
      List.dropWhile_subset _ (show line ∈ beyond self.depth _ by simp [hl])
    have head := Statement.head_of_form_otherwise form
    rw [ready.orderly.trimmed line (ready.mem_lines line mem)] at head
    simp [Statement.startsWithElse, head, here] at stops
  | _ => rfl

/-- Compiling a header leaves the routines and the open chain as they are. -/
theorem Condition.header_patched (owner : Path) {text : String} {clauses : List Clause}
    (h : Gives (Condition.header self.path text) body ws clauses body' ws') :
    Patched owner (fun _ r => r.commands) ws ws' ∧ ws'.routines = ws.routines ∧
      ∃ pending, body' = { body with pending := body.pending ++ pending } := by
  obtain ⟨effects, waiting, _⟩ :
      Effects self (fun _ => True) False (body, ws) (body', ws') ∧ _ ∧ _ :=
    Condition.effects_header (fun _ _ => trivial) h
  have kept := effects.kept
  obtain ⟨added, hbody, _⟩ := waiting.body
  exact ⟨.of_routines kept.settings kept.lines waiting.symbols kept.routines, kept.routines,
    added, hbody⟩

/-- The commands of the header of an execution block and the state that it leaves. -/
theorem Block.gives_branch
    (h : Gives (branch compile self site clauses) body ws u body₁ ws₁) :
    ∃ block created ws₂ header waiting ws₃ opening marker,
      Gives (create compile self site .branch) body ws block created ws₂ ∧
      Gives (Condition.header self.path clauses) created ws₂ header waiting ws₃ ∧
      (opening = [.killMarker (chainTag block)] ∨
        opening = [] ∧ chainContinues self site = false) ∧
      marker.getD (chainTag block) = chainTag block ∧
      Gives (guardRest compile self site block)
        { waiting with
          commands := waiting.commands ++
            (opening ++ (waiting.pending ++ [.invoke header ⟨block, []⟩]))
          pending := []
          previous := some ⟨block, marker⟩ } ws₃ u body₁ ws₁ := by
  simp only [branch, gives_bind] at h
  obtain ⟨block, created, ws₂, hcreate, header, waiting, ws₃, hheader, h⟩ := h
  cases hc : chainContinues self site with
  | true =>
    simp only [hc, if_true, gives_bind, gives_emit, gives_takePending, gives_emitAll,
      gives_modify] at h
    obtain ⟨_, _, _, ⟨_, rfl, rfl⟩, _, _, _, ⟨rfl, rfl, rfl⟩, _, _, _, ⟨rfl, rfl⟩, _, _, _,
      ⟨_, rfl, rfl⟩, _, _, _, ⟨rfl, rfl⟩, h⟩ := h
    refine ⟨block, created, ws₂, header, waiting, _, [.killMarker (chainTag block)],
      some (chainTag block), hcreate, hheader, .inl rfl, rfl, ?_⟩
    simpa using h
  | false =>
    simp only [hc, Bool.false_eq_true, if_false, gives_bind, gives_emit, gives_takePending,
      gives_emitAll, gives_modify] at h
    obtain ⟨_, _, _, ⟨rfl, rfl, rfl⟩, _, _, _, ⟨rfl, rfl⟩, _, _, _,
      ⟨_, rfl, rfl⟩, _, _, _, ⟨rfl, rfl⟩, h⟩ := h
    refine ⟨block, created, ws₂, header, waiting, _, [], none, hcreate, hheader,
      .inr ⟨rfl, rfl⟩, rfl, ?_⟩
    simpa using h

/-- After a block was split off, the body is ready for the rest of its lines. -/
theorem Split.ready {lp : Option Path} {inside : Script} {ws₂ : Workspace} {used : List Path}
    {patch : Path → Routine → List Command} (ready : Ready self site body ws)
    (split : Split R self.owner lp none inside ws ws₁ block inner used)
    (patched : Patched self.owner patch ws₁ ws₂) {after : Body}
    (chain : ∀ chain, after.previous = some chain → chain.branch = block ∧
      ∃ q r, ws₁.routines.get? q = some r ∧ chain.tag = chainTag q)
    (exits : after.mayExit = body.mayExit) (skips : after.maySkip = body.maySkip)
    (link : after.continuation = body.continuation) :
    Ready self site after ws₂ where
  orderly := patched.orderly split.laid.orderly
  below := by
    rw [patched.settings, split.laid.grows.settings]
    exact ready.below
  here := by
    rw [patched.lines, split.laid.grows.lines]
    exact ready.here
  isOpen c hc := by
    obtain ⟨hbranch, q, r, found, tag⟩ := chain c hc
    refine ⟨⟨{ inner with commands := patch block inner }, ?_, split.isBlock, split.compiled,
      split.owned⟩, q, { r with commands := patch q r }, ?_, tag⟩
    · rw [hbranch, patched.found split.found]
    · exact patched.found found
  noExit := exits.trans ready.noExit
  noSkip := skips.trans ready.noSkip
  noLink := link.trans ready.noLink

theorem Block.branch_compiles (sound : Sound R compile) (ready : Ready self site body ws)
    (noPending : body.pending = [])
    (h : Gives (branch compile self site clauses) body ws u body₁ ws₁)
    (rest : Remainder R self site body₁ ws₁ body' ws') :
    ∃ inside after cs used, Reads (self.depth + 1) site.following inside ∧
      Reads self.depth (beyond self.depth site.following) after ∧
      Laid R self.owner self.loop body.previous (.block (.branch clauses inside after)) ws ws' cs
        body'.mayExit body'.maySkip body'.continuation used ∧
      body'.commands = body.commands ++ cs := by
  obtain ⟨block, created, ws₂, header, waiting, ws₃, opening, marker, hcreate, hheader, opens,
    hmarker, hguard⟩ := gives_branch h
  obtain ⟨rfl, inside, inner, used', readsInside, split⟩ :=
    create_splits sound hcreate ready.orderly ready.below ready.isOpen
  obtain ⟨patched, _, pending, rfl⟩ := Condition.header_patched self.owner hheader
  simp only [reduceCtorEq, BlockRole.isLoop, Bool.false_eq_true, if_false] at split
  have readyAfter : Ready self site
      { body with
        counter := body.counter + 1
        commands := body.commands ++ (opening ++ (body.pending ++ pending ++
          [.invoke header ⟨block, []⟩]))
        pending := []
        previous := some ⟨block, marker⟩ } ws₃ :=
    split.ready ready patched
      (by
        rintro chain ⟨⟩
        exact ⟨rfl, block, inner, split.found, hmarker⟩) rfl rfl rfl
  have found := patched.found split.found
  obtain ⟨after, cs, used, readsAfter, laid, commands⟩ :=
    guardRest_compiles sound readyAfter found split.laid.loopless hguard rest
  refine ⟨inside, after,
    opening ++ (body.pending ++ pending ++ [.invoke header ⟨block, []⟩]) ++ cs,
    block :: used' ++ used, ?_, readsAfter, split.branch patched ?_ hmarker ?_ laid, ?_⟩
  · simpa [depth, start, ready.here] using readsInside
  · intro test holds
    exact R.header test holds (by exact noPending) hheader
  · rcases opens with opens | ⟨opens, stops⟩
    · exact .inl opens
    · exact .inr ⟨opens, startsElse_eq_false ready readsAfter stops⟩
  · rw [commands]
    simp

/-- The commands of an `else` and the state that it leaves. -/
theorem Block.gives_otherwise
    (h : Gives (otherwise compile self site clauses) body ws u body₁ ws₁) :
    ∃ chain block created ws₂ header waiting ws₃ closes,
      body.previous = some chain ∧
      Gives (create compile self site .branch) body ws block created ws₂ ∧
      Gives (Condition.header self.path clauses) created
        (ws₂.updateRoutine chain.branch fun r =>
          { r with commands := .ensureMarker chain.tag :: r.commands }) header waiting ws₃ ∧
      (closes = [] ∨
        closes = [.killMarker chain.tag] ∧ chainContinues self site = false) ∧
      Gives (guardRest compile self site block)
        { waiting with
          commands := waiting.commands ++ (waiting.pending ++
            .invoke (.marker false chain.tag ::
              if Clause.renderAll ws₃.settings.pack header = "" then [] else header)
              ⟨block, []⟩ :: closes)
          pending := []
          previous := some ⟨block, some chain.tag⟩ } ws₃ u body₁ ws₁ := by
  simp only [otherwise, gives_bind, gives_get] at h
  obtain ⟨_, _, _, ⟨rfl, rfl, rfl⟩, h⟩ := h
  split at h
  · simp at h
  · next chain hchain =>
    simp only [gives_bind, gives_lift, WorkM.gives_updateRoutine, WorkM.gives_query,
      Except.ok.injEq, gives_takePending, gives_emitAll, gives_emit] at h
    obtain ⟨block, created, ws₂, hcreate, _, _, _, ⟨⟨_, rfl⟩, rfl⟩, header, waiting, ws₃,
      hheader, _, _, _, ⟨⟨rfl, rfl⟩, rfl⟩, _, _, _, ⟨rfl, rfl, rfl⟩, _, _, _, ⟨rfl, rfl⟩,
      _, _, _, ⟨_, rfl, rfl⟩, h⟩ := h
    cases hc : chainContinues self site with
    | true =>
      simp only [hc, Bool.not_true, Bool.false_eq_true, if_false, gives_bind,
        gives_modify] at h
      obtain ⟨_, _, _, ⟨rfl, rfl⟩, h⟩ := h
      refine ⟨chain, block, _, ws₂, header, _, _, [], hchain, hcreate, hheader, .inl rfl, ?_⟩
      simpa [Chain.tag] using h
    | false =>
      simp only [hc, Bool.not_false, if_true, gives_bind, gives_emit, gives_modify] at h
      obtain ⟨_, _, _, ⟨_, rfl, rfl⟩, _, _, _, ⟨rfl, rfl⟩, h⟩ := h
      refine ⟨chain, block, _, ws₂, header, _, _, [.killMarker chain.tag], hchain, hcreate,
        hheader, .inr ⟨rfl, rfl⟩, ?_⟩
      simpa [Chain.tag] using h

theorem Block.otherwise_compiles (sound : Sound R compile) (ready : Ready self site body ws)
    (noPending : body.pending = [])
    (h : Gives (otherwise compile self site clauses) body ws u body₁ ws₁)
    (rest : Remainder R self site body₁ ws₁ body' ws') :
    ∃ inside after cs used, Reads (self.depth + 1) site.following inside ∧
      Reads self.depth (beyond self.depth site.following) after ∧
      Laid R self.owner self.loop body.previous (.block (.otherwise clauses inside after)) ws ws'
        cs body'.mayExit body'.maySkip body'.continuation used ∧
      body'.commands = body.commands ++ cs := by
  obtain ⟨chain, block, created, ws₂, header, waiting, ws₃, closes, hchain, hcreate, hheader,
    hcloses, hguard⟩ := gives_otherwise h
  obtain ⟨rfl, inside, inner, used', readsInside, split⟩ :=
    create_splits sound hcreate ready.orderly ready.below ready.isOpen
  obtain ⟨patched, _, pending, rfl⟩ := Condition.header_patched self.owner hheader
  simp only [reduceCtorEq, BlockRole.isLoop, Bool.false_eq_true, if_false] at split
  have isOpen := ready.isOpen chain hchain
  have ensured : Patched self.owner _ ws₂ (ws₂.updateRoutine chain.branch fun r =>
      { r with commands := .ensureMarker chain.tag :: r.commands }) :=
    Patched.of_update (by
      intro r found
      obtain ⟨b, foundBranch, isBlock, compiled, owned⟩ := isOpen.branch
      rw [split.laid.grows.settled foundBranch isBlock compiled] at found
      cases found
      exact ⟨isBlock, owned⟩)
  have readyAfter : Ready self site
      { body with
        counter := body.counter + 1
        commands := body.commands ++ (body.pending ++ pending ++
          .invoke (.marker false chain.tag ::
            if Clause.renderAll ws₃.settings.pack header = "" then [] else header)
            ⟨block, []⟩ :: closes)
        pending := []
        previous := some ⟨block, some chain.tag⟩ } ws₃ :=
    split.ready ready (ensured.trans patched)
      (by
        rintro c ⟨⟩
        obtain ⟨q, r, foundTag, tag⟩ := isOpen.tag
        obtain ⟨r₂, foundTag₂, _⟩ := split.laid.grows.kept foundTag
        exact ⟨rfl, q, r₂, foundTag₂, tag⟩) rfl rfl rfl
  have found := (ensured.trans patched).found split.found
  obtain ⟨after, cs, used, readsAfter, laid, commands⟩ :=
    guardRest_compiles sound readyAfter found split.laid.loopless hguard rest
  have bothPatched : Patched self.owner
      (fun q r => touch (some chain) (.otherwise clauses inside after) q ++ r.commands) ws₂ ws₃ :=
    (ensured.trans patched).congr fun q r _ => by
      by_cases same : q = chain.branch <;>
        simp [same, touch, Code.front, startsElse]
  have tests : R.Test clauses → R.Holds ws₂ →
      R.dialect.tests clauses (body.pending ++ pending) header ∧
        (if Clause.renderAll ws₃.settings.pack header = "" then [] else header) =
          if Clause.renderAll R.dialect.pack header = "" then [] else header := by
    intro test holds
    refine ⟨R.header test (ensured.holds holds) (by exact noPending) hheader, ?_⟩
    rw [R.pack (bothPatched.holds holds)]
  have closed : closes = [] ∨ closes = [.killMarker chain.tag] ∧ after.startsElse = false := by
    rcases hcloses with closes | ⟨closes, stops⟩
    · exact .inl closes
    · exact .inr ⟨closes, startsElse_eq_false ready readsAfter stops⟩
  refine ⟨inside, after, _, _, ?_, readsAfter,
    hchain ▸ split.otherwise isOpen bothPatched tests closed laid, ?_⟩
  · simpa [depth, start, ready.here] using readsInside
  · rw [commands]
    simp

/-! ### Loops -/

/-- The commands of a `repeat` and the state that it leaves. -/
theorem Loop.gives_times {count : String}
    (h : Gives (Loop.times compile self site count) body ws u body₁ ws₁) :
    ∃ number block created ws₂ inner, Text.unsigned? (Text.trim count) = some number ∧
      Gives (create compile self site .times) body ws block created ws₂ ∧
      ws₂.routines.get? block = some inner ∧
      ws₁ = (if inner.maySkip then
          ws₂.updateRoutine block fun r =>
            { r with commands := .killMarker (roundTag block) :: r.commands }
        else ws₂) ∧
      body₁ = { created with
        commands := created.commands ++
          (List.replicate number
              (.invoke (absenceTests block inner.mayExit false) ⟨block, []⟩) ++
            Loop.killMarkers block inner.mayExit inner.maySkip) } := by
  unfold Loop.times at h
  split at h
  · simp at h
  · next number hnumber =>
    simp only [gives_bind, gives_lift, WorkM.gives_routine] at h
    obtain ⟨block, created, ws₂, hcreate, inner, _, _, ⟨⟨found, rfl⟩, rfl⟩, h⟩ := h
    refine ⟨number, block, _, _, inner, hnumber, hcreate, found, ?_⟩
    cases hs : inner.maySkip with
    | true =>
      simp only [hs, if_true, gives_bind, gives_lift, WorkM.gives_updateRoutine,
        gives_emitAll] at h
      obtain ⟨_, _, _, ⟨⟨_, rfl⟩, rfl⟩, _, _, _, ⟨rfl, rfl⟩, rfl, rfl⟩ := h
      simp
    | false =>
      simp only [hs, Bool.false_eq_true, if_false, gives_bind, gives_emitAll] at h
      obtain ⟨_, _, _, ⟨rfl, rfl⟩, rfl, rfl⟩ := h
      simp

theorem Loop.times_compiles (sound : Sound R compile) {count : String}
    (ready : Ready self site body ws)
    (h : Gives (Loop.times compile self site count) body ws u body₁ ws₁)
    (rest : Remainder R self site { body₁ with previous := none } ws₁ body' ws') :
    ∃ number inside after cs used, Text.unsigned? (Text.trim count) = some number ∧
      Reads (self.depth + 1) site.following inside ∧
      Reads self.depth (beyond self.depth site.following) after ∧
      Laid R self.owner self.loop body.previous (.block (.times number inside after)) ws ws' cs
        body'.mayExit body'.maySkip body'.continuation used ∧
      body'.commands = body.commands ++ cs := by
  obtain ⟨number, block, created, ws₂, inner, hnumber, hcreate, foundInner, rfl, rfl⟩ :=
    Loop.gives_times h
  obtain ⟨rfl, inside, inner', used', readsInside, split⟩ :=
    create_splits sound hcreate ready.orderly ready.below ready.isOpen
  rw [split.found] at foundInner
  cases foundInner
  simp only [reduceCtorEq, BlockRole.isLoop, if_true, if_false] at split
  have patched : Patched self.owner
      (fun q r => if q = block then Code.roundStart block r.maySkip ++ r.commands else r.commands)
      ws₂ (if inner.maySkip then
          ws₂.updateRoutine block fun r =>
            { r with commands := .killMarker (roundTag block) :: r.commands }
        else ws₂) := by
    have owned : ∀ r, ws₂.routines.get? block = some r →
        r.kind.isBlock = true ∧ r.owner = self.owner := by
      intro r found
      rw [split.found] at found
      cases found
      exact ⟨split.isBlock, split.owned⟩
    cases hs : inner.maySkip with
    | true =>
      refine (Patched.of_update owned).congr fun q r found => ?_
      by_cases same : q = block
      · subst same
        rw [split.found] at found
        cases found
        simp [Code.roundStart, hs]
      · simp [same]
    | false =>
      refine (Patched.of_routines rfl rfl rfl rfl).congr fun q r found => ?_
      by_cases same : q = block
      · subst same
        rw [split.found] at found
        cases found
        simp [Code.roundStart, hs]
      · simp [same]
  obtain ⟨after, cs, used, readsAfter, laid, commands⟩ :=
    rest.goesOn (split.ready ready patched (by simp) rfl rfl rfl)
  refine ⟨number, inside, after, _, _, hnumber, ?_, readsAfter, split.times patched laid, ?_⟩
  · simpa [depth, start, ready.here] using readsInside
  · rw [commands]
    simp

/-- Closing a loop changes the commands of its last block and of its first one. -/
theorem Loop.eq_of_close {header : List Clause} {pending : List Command}
    (h : Gives (Loop.close block header pending) body ws u body' ws') :
    body' = body ∧ ws' = (ws.updateRoutine (Loop.tail ws ws.routines.size block) fun r =>
      { r with commands := r.commands ++
          Code.loopTail block pending header r.mayExit r.maySkip }).updateRoutine block fun r =>
      { r with commands := Code.roundStart block r.maySkip ++ r.commands ++
          Code.roundAgain block pending header r.maySkip } := by
  simp only [Loop.close, gives_bind, gives_lift, WorkM.gives_query, Except.ok.injEq,
    WorkM.gives_updateRoutine] at h
  obtain ⟨start, _, after, ⟨⟨hstart, hafter⟩, rfl⟩, _, _, _, ⟨⟨_, rfl⟩, rfl⟩, ⟨_, rfl⟩, rfl⟩ := h
  subst hstart hafter
  refine ⟨rfl, ?_⟩
  congr 1
  · simp only [Code.loopTail, List.append_assoc]
  · funext r
    rw [Code.roundStart, Code.roundAgain]
    split <;> simp

theorem Loop.gives_close {owner : Path} {header : List Clause} {pending : List Command}
    (owned : ∀ q r, q = block ∨ q = Loop.tail ws ws.routines.size block →
      ws.routines.get? q = some r → r.kind.isBlock = true ∧ r.owner = owner)
    (h : Gives (Loop.close block header pending) body ws u body' ws') :
    body' = body ∧ Patched owner
      (Loop.closed block (Loop.tail ws ws.routines.size block) pending header) ws ws' := by
  obtain ⟨rfl, rfl⟩ := Loop.eq_of_close h
  refine ⟨rfl, ?_⟩
  generalize Loop.tail ws ws.routines.size block = last at *
  have first := @Patched.of_update owner ws last
    (fun r => r.commands ++ Code.loopTail block pending header r.mayExit r.maySkip)
    fun r found => owned last r (.inr rfl) found
  refine (first.trans (Patched.of_update fun r found => ?_)).congr fun q r _ => ?_
  · obtain ⟨r₀, found₀, same⟩ := first.origins found
    rw [Routine.kind_of_origin same, Routine.owner_of_origin same]
    exact owned block r₀ (.inl rfl) found₀
  · by_cases isBlock : q = block <;> by_cases isLast : q = last <;>
      simp [Loop.closed, isBlock, isLast]

/-- The commands of a loop and the state that it leaves. -/
theorem Loop.gives_loop {test : LoopTest} {condition : String}
    (h : Gives (Loop.loop compile self site test condition) body ws u body₁ ws₁) :
    ∃ block created ws₂ clauses waiting ws₃ closed inner,
      Gives (create compile self site .loop) body ws block created ws₂ ∧
      Gives (Condition.header self.path condition) created ws₂ clauses waiting ws₃ ∧
      Gives (Loop.close block (Loop.header ws₃.settings.pack test clauses) waiting.pending)
        { waiting with
          commands := waiting.commands ++ (waiting.pending ++
            [.invoke (Loop.header ws₃.settings.pack test clauses) ⟨block, []⟩])
          pending := [] } ws₃ () closed ws₁ ∧
      ws₁.routines.get? block = some inner ∧
      body₁ = { closed with
        commands := closed.commands ++ Loop.killMarkers block inner.mayExit inner.maySkip } := by
  unfold Loop.loop at h
  split at h
  · simp at h
  · simp only [gives_bind, gives_lift, WorkM.gives_query, WorkM.gives_routine, Except.ok.injEq,
      gives_takePending, gives_emitAll, gives_emit] at h
    obtain ⟨block, created, ws₂, hcreate, clauses, waiting, ws₃, hheader, _, _, _,
      ⟨⟨rfl, rfl⟩, rfl⟩, _, _, _, ⟨rfl, rfl, rfl⟩, _, _, _, ⟨rfl, rfl⟩, _, _, _,
      ⟨_, rfl, rfl⟩, _, closed, _, hclose, inner, _, _, ⟨⟨found, rfl⟩, rfl⟩, rfl, rfl⟩ := h
    refine ⟨block, _, ws₂, clauses, _, _, _, inner, hcreate, hheader, ?_, found, rfl⟩
    simpa using hclose

theorem Loop.loop_compiles (sound : Sound R compile) {test : LoopTest} {condition : String}
    (ready : Ready self site body ws) (noPending : body.pending = [])
    (h : Gives (Loop.loop compile self site test condition) body ws u body₁ ws₁)
    (rest : Remainder R self site { body₁ with previous := none } ws₁ body' ws') :
    ∃ inside after cs used, Reads (self.depth + 1) site.following inside ∧
      Reads self.depth (beyond self.depth site.following) after ∧
      Laid R self.owner self.loop body.previous (.block (.loop test condition inside after)) ws
        ws' cs body'.mayExit body'.maySkip body'.continuation used ∧
      body'.commands = body.commands ++ cs := by
  obtain ⟨block, created, ws₂, clauses, waiting, ws₃, closed, inner, hcreate, hheader, hclose,
    foundInner, rfl⟩ := Loop.gives_loop h
  obtain ⟨rfl, inside, inner', used', readsInside, split⟩ :=
    create_splits sound hcreate ready.orderly ready.below ready.isOpen
  obtain ⟨headed, routines, pending, rfl⟩ := Condition.header_patched self.owner hheader
  simp only [reduceCtorEq, BlockRole.isLoop, if_true, if_false] at split
  have owned : ∀ q r, q = block ∨ q = Loop.tail ws₃ ws₃.routines.size block →
      ws₃.routines.get? q = some r → r.kind.isBlock = true ∧ r.owner = self.owner := by
    intro q r hq found
    rw [Loop.tail_congr routines, routines] at hq
    rw [routines] at found
    have mem : q ∈ block :: used' := by
      rcases hq with rfl | rfl
      · exact .head _
      · exact split.tail_mem
    obtain ⟨_, b, present, isBlock, _, owned⟩ := split.fresh q mem
    rw [found] at present
    cases present
    exact ⟨isBlock, owned⟩
  obtain ⟨rfl, patched⟩ := Loop.gives_close owned hclose
  rw [Loop.tail_congr routines, routines] at patched
  have closed := headed.trans patched
  have found := closed.found split.found
  rw [foundInner] at found
  cases found
  obtain ⟨after, cs, used, readsAfter, laid, commands⟩ :=
    rest.goesOn (split.ready ready closed (by simp) rfl rfl rfl)
  have tests : R.Test condition → R.Holds ws₂ →
      R.dialect.tests condition (body.pending ++ pending) clauses ∧
        Loop.header ws₃.settings.pack test clauses =
          Loop.header R.dialect.pack test clauses := by
    intro test holds
    refine ⟨R.header test holds (by exact noPending) hheader, ?_⟩
    rw [R.pack (headed.holds holds)]
  refine ⟨inside, after, _, _, ?_, readsAfter, split.loop closed tests laid, ?_⟩
  · simpa [depth, start, ready.here] using readsInside
  · rw [commands]
    simp

/-! ### Definitions and plain statements -/

/-- The code of a body without a loop around it. -/
theorem Laid.coded {r : Routine} {script : Script} {used : List Path}
    (h : Laid R r.owner r.loop none (.block script) ws ws' inner.commands inner.mayExit
      inner.maySkip inner.continuation used)
    (reads : Reads r.depth (ws.lines.drop r.start) script) (origin : inner.origin = r.origin)
    (holds : R.Holds ws) (all : script.All R.Text R.Test) : Coded R.dialect ws' inner := by
  obtain ⟨links, _, _, _, code⟩ := h.code
  obtain ⟨_, _, code⟩ := code holds all
  refine ⟨script, inner.mayExit, inner.maySkip, used, ?_, h.nodup, ?_, ?_⟩
  · rwa [h.grows.lines, Routine.depth_of_origin origin, Routine.start_of_origin origin]
  · intro p mem
    rw [Routine.owner_of_origin origin]
    exact (h.fresh p mem).present
  · intro view agrees
    have whole := code view Code.noTail fun p mem b found => by
      rw [agrees p mem, Workspace.view, found]
      simp [Code.noTail]
    rw [Routine.loop_of_origin origin]
    simpa [closing, Code.noTail] using whole

theorem Workspace.isDefined_of_resolveFunction? {scope callee : Path} {name : String}
    (h : ws.resolveFunction? scope name = some callee) : ws.isDefined callee = true := by
  unfold resolveFunction? at h
  split at h
  · cases h
  · exact List.find?_some h

/-- Changing only marks of a definition. -/
theorem Definition.mark_keeps {callee : Path} {r : Routine} (f : Routine → Routine)
    (orderly : ws.Orderly) (found : ws.routines.get? callee = some r) (defined : r.kind = .defined)
    (origin : ∀ r, (f r).origin = r.origin) (compiled : ∀ r, (f r).compiled = r.compiled)
    (commands : ∀ r, (f r).commands = r.commands) :
    Grows untouched ws (ws.updateRoutine callee f) ∧ (ws.updateRoutine callee f).Orderly ∧
      (R.Holds ws → R.Holds (ws.updateRoutine callee f)) ∧
      ∀ busy : Path → Prop, DefsCoded R.dialect busy ws →
        DefsCoded R.dialect busy (ws.updateRoutine callee f) := by
  have loose : ∀ r, ws.routines.get? callee = some r → r.kind.isBlock = true →
      r.compiled = false := by
    intro r' found' isBlock
    rw [found] at found'
    cases found'
    rw [defined] at isBlock
    cases isBlock
  have grows := Grows.of_update origin loose
  refine ⟨grows, orderly.of_origins rfl rfl (Workspace.origins_updateRoutine origin), ?_, ?_⟩
  · intro holds
    exact R.stable holds rfl rfl rfl fun _ _ found =>
      .inl (Workspace.origins_updateRoutine origin found)
  · intro busy coded
    refine coded.of_change orderly rfl ?_ ?_
    · intro q r' found' _ compiled' _
      obtain ⟨r₀, found₀, rfl⟩ := Workspace.found_before found'
      refine ⟨r₀, found₀, ?_, ?_, ?_⟩
      · split
        · exact origin r₀
        · rfl
      · split at compiled'
        · rwa [compiled] at compiled'
        · exact compiled'
      · split
        · exact commands r₀
        · rfl
    · intro p b foundBlock isBlock compiledBlock _
      exact grows.settled foundBlock isBlock compiledBlock

theorem Definition.gives_define {name : String}
    (h : Gives (Definition.define compile self name) body ws u body' ws₁) :
    ∃ callee r, ws.resolveFunction? self.path name = some callee ∧
      ws.routines.get? callee = some r ∧ body' = body ∧
      (r.isTemplate = true ∧ ws₁ = (ws.updateRoutine callee
          ({ · with template := some { symbols := ws.symbols } })).record
            (.definitionDeferred callee) ∨
        r.isTemplate = false ∧ ∃ mid, WorkM.Gives (compile callee none) ws () mid ∧
          ws₁ = mid.updateRoutine callee ({ · with used := true })) := by
  simp only [Definition.define, gives_bind, gives_lift, WorkM.gives_query,
    WorkM.gives_routine] at h
  obtain ⟨callee, _, _, ⟨⟨resolved, rfl⟩, rfl⟩, r, _, _, ⟨⟨found, rfl⟩, rfl⟩, h⟩ := h
  split at resolved
  · next resolves =>
    cases resolved
    cases template : r.isTemplate with
    | true =>
      simp only [template, if_true, gives_bind, gives_lift, WorkM.gives_query,
        WorkM.gives_updateRoutine, WorkM.gives_record, Except.ok.injEq] at h
      obtain ⟨_, _, _, ⟨⟨rfl, rfl⟩, rfl⟩, _, _, _, ⟨⟨_, rfl⟩, rfl⟩, rfl, rfl⟩ := h
      exact ⟨callee, r, resolves, found, rfl, .inl ⟨template, rfl⟩⟩
    | false =>
      simp only [template, Bool.false_eq_true, if_false, gives_bind, gives_lift,
        WorkM.gives_updateRoutine] at h
      obtain ⟨_, _, _, ⟨compiled, rfl⟩, ⟨_, rfl⟩, rfl⟩ := h
      exact ⟨callee, r, resolves, found, rfl, .inr ⟨template, _, compiled, rfl⟩⟩
  · cases resolved

/-- Reaching a definition compiles it or leaves it for later. -/
theorem Definition.define_keeps (sound : Sound R compile) {name : String} (orderly : ws.Orderly)
    (h : Gives (Definition.define compile self name) body ws u body₁ ws₁) :
    body₁ = body ∧ Grows untouched ws ws₁ ∧ ws₁.Orderly ∧
      (R.Holds ws → ((∀ t, R.Text t) ∧ ∀ t, R.Test t) →
        R.Holds ws₁ ∧ ∀ busy : Path → Prop, DefsCoded R.dialect busy ws →
          DefsCoded R.dialect busy ws₁) := by
  obtain ⟨callee, r, resolves, found, rfl, ⟨-, rfl⟩ | ⟨-, mid, compiled, rfl⟩⟩ :=
    Definition.gives_define h
  all_goals
    have defined := Workspace.kind_of_isDefined
      (Workspace.isDefined_of_resolveFunction? resolves) found
  · obtain ⟨grows, orderly', holds, defs⟩ := Definition.mark_keeps
      ({ · with template := some { symbols := ws.symbols } }) orderly found defined
      (fun _ => rfl) (fun _ => rfl) (fun _ => rfl)
    refine ⟨rfl, grows.trans_untouched (.of_routines rfl rfl rfl),
      orderly'.of_routines rfl rfl rfl, fun hw _ => ⟨?_, fun busy coded => ?_⟩⟩
    · exact R.stable (holds hw) rfl rfl rfl fun _ r found => .inl ⟨r, found, rfl⟩
    · exact (defs busy coded).of_routines orderly' rfl rfl
  · have noBlock : r.kind.isBlock = true → r.compiled = false := by
      intro isBlock
      rw [defined] at isBlock
      cases isBlock
    obtain ⟨script, inner, used, reads, laid, foundInner, origin, _⟩ :=
      sound compiled orderly found noBlock (by simp)
    obtain ⟨owner, _⟩ := orderly.owned found defined
    obtain ⟨grows, orderly', holds, defs⟩ := Definition.mark_keeps ({ · with used := true })
      laid.orderly foundInner ((Routine.kind_of_origin origin).trans defined)
      (fun _ => rfl) (fun _ => rfl) (fun _ => rfl)
    refine ⟨rfl, laid.grows.trans_untouched grows, orderly', fun hw texts => ?_⟩
    have all := All.of_forall texts.1 texts.2 script
    obtain ⟨_, _, _, _, code⟩ := laid.code
    obtain ⟨holds₂, defs₂, _⟩ := code hw all
    refine ⟨holds holds₂, fun busy coded => defs busy ?_⟩
    intro q r' found' defined' compiled' free
    by_cases isCallee : q = callee
    · subst isCallee
      rw [foundInner] at found'
      cases found'
      exact laid.coded reads origin hw all
    · -- while the callee is compiled, its own blocks are not yet settled
      refine defs₂ (fun p => busy p ∨ p = callee) (.inr owner) ?_ q r' found' defined' compiled'
        (not_or.2 ⟨free, isCallee⟩)
      exact fun p b found isDefined compiled free =>
        coded p b found isDefined compiled fun h => free (.inl h)

end CommandPack
