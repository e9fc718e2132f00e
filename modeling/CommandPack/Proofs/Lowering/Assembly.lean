import CommandPack.Proofs.Lowering.Layout

/-!
# Putting pieces together

From the pieces that a statement is compiled to, the block under it and the rest of the lines,
to the statement with the rest of the lines. Each kind of statement adds its own commands; what
happens to the workspace is the same for all statements that split off a block.
-/

namespace CommandPack

open Marker

variable {R : Regime} {owner : Path} {lp lp' : Option Path} {prev prev₂ : Option Chain}
  {script body rest : Script} {piece : Code.Piece} {ws ws₁ ws₂ ws' : Workspace} {block : Path}
  {inner : Routine} {patch : Path → Routine → List Command} {here cs : List Command}
  {x s : Bool} {onward : Option Path} {used used' : List Path}
variable {links : List Path} {r : Routine} {p : Path}

/-! ### Statements without a block -/

/-- Only an `else` puts something in front of a block. -/
theorem Grows.of_untouched (h : Grows untouched ws ws') (noElse : script.startsElse = false) :
    Grows (touch prev script) ws ws' := by
  refine h.congr fun {q r} _ => ?_
  cases prev <;> simp [untouched, touch, Code.front, noElse]

theorem Grows.trans_untouched (h : Grows untouched ws ws₁) (h' : Grows untouched ws₁ ws') :
    Grows untouched ws ws' :=
  h.trans h'

theorem Laid.done (orderly : ws.Orderly) :
    Laid R owner lp prev (.block .done) ws ws [] false false none [] where
  grows := (Grows.of_routines rfl rfl rfl).of_untouched rfl
  orderly := orderly
  fresh := by simp
  nodup := .nil
  loopless _ := ⟨rfl, rfl⟩
  code := ⟨[], .nil, by simp, by simp, fun holds _ => ⟨holds, fun _ _ coded => coded,
    fun _ _ _ => by simpa [closing] using Code.done⟩⟩

/-- A statement that leaves the routines as they are and goes on. -/
theorem Laid.plain {text : String} (routines : ws₁.routines = ws.routines)
    (lines : ws₁.lines = ws.lines) (settings : ws₁.settings = ws.settings)
    (orderly : ws.Orderly)
    (emits : R.Text text → R.Holds ws → R.Holds ws₁ ∧ R.dialect.emits text here)
    (after : Laid R owner lp none (.block rest) ws₁ ws' cs x s onward used) :
    Laid R owner lp prev (.block (.plain text rest)) ws ws' (here ++ cs) x s onward used where
  grows := ((Grows.of_routines routines lines settings).trans_untouched after.grows).of_untouched rfl
  orderly := after.orderly
  fresh p mem := ⟨routines ▸ (after.fresh p mem).absent, (after.fresh p mem).present⟩
  nodup := after.nodup
  loopless := after.loopless
  code := by
    obtain ⟨links, linked, nodup, subset, code⟩ := after.code
    refine ⟨links, linked, nodup, subset, ?_⟩
    rintro holds ⟨text, all⟩
    obtain ⟨holds₁, emitted⟩ := emits text holds
    obtain ⟨holds', defs, code⟩ := code holds₁ all
    refine ⟨holds', fun busy hbusy coded => defs busy hbusy (coded.of_routines orderly routines
      lines), fun view tail agrees => ?_⟩
    rw [List.append_assoc]
    exact .plain emitted (code view tail agrees)

theorem Laid.exit {w : Path} (orderly : ws.Orderly) :
    Laid R owner (some w) prev (.block .exit) ws ws [.summonMarker (exitTag w)] true false
      none [] where
  grows := (Grows.of_routines rfl rfl rfl).of_untouched rfl
  orderly := orderly
  fresh := by simp
  nodup := .nil
  loopless none := by cases none
  code := ⟨[], .nil, by simp, by simp, fun holds _ => ⟨holds, fun _ _ coded => coded,
    fun _ _ _ => Code.exit⟩⟩

theorem Laid.next {w : Path} (orderly : ws.Orderly) :
    Laid R owner (some w) prev (.block .next) ws ws [.summonMarker (roundTag w)] false true
      none [] where
  grows := (Grows.of_routines rfl rfl rfl).of_untouched rfl
  orderly := orderly
  fresh := by simp
  nodup := .nil
  loopless none := by cases none
  code := ⟨[], .nil, by simp, by simp, fun holds _ => ⟨holds, fun _ _ coded => coded,
    fun _ _ _ => Code.next⟩⟩

/-! ### The rest after a block -/

theorem Laid.unguarded (h : Laid R owner lp prev (.block rest) ws ws' cs x s onward used) :
    Laid R owner lp prev (.after false false rest) ws ws' cs x s onward used where
  grows := h.grows
  orderly := h.orderly
  fresh := h.fresh
  nodup := h.nodup
  loopless := h.loopless
  code := by
    obtain ⟨links, linked, nodup, subset, code⟩ := h.code
    refine ⟨links, linked, nodup, subset, fun holds all => ?_⟩
    obtain ⟨holds', defs, code⟩ := code holds all
    exact ⟨holds', defs, fun view tail agrees => .unguarded (code view tail agrees)⟩

/-- The new blocks of a split together with the split block itself. -/
theorem Split.fresh (hs : Split R owner lp prev script ws ws' block inner used) :
    ∀ p ∈ block :: used, Fresh owner ws ws' p := by
  intro p mem
  rcases List.mem_cons.1 mem with rfl | mem
  · exact ⟨hs.absent, inner, hs.found, hs.isBlock, hs.compiled, hs.owned⟩
  · exact hs.laid.fresh p mem

/-- The rest of the lines goes on in a guarded block. -/
theorem Split.guarded {w guard : Path} (x' s' : Bool)
    (hs : Split R owner (some w) prev rest ws ws' guard inner used) :
    Laid R owner (some w) prev (.after x' s' rest) ws ws'
      [.invoke (Block.absenceTests w x' s') ⟨guard, []⟩] (x' || inner.mayExit)
      (s' || inner.maySkip) (some guard) (guard :: used) where
  grows := hs.laid.grows
  orderly := hs.laid.orderly
  fresh := hs.fresh
  nodup := List.nodup_cons.2 ⟨hs.apart, hs.laid.nodup⟩
  loopless none := by cases none
  code := by
    obtain ⟨links, linked, nodup, subset, code⟩ := hs.laid.code
    have apart : guard ∉ links := fun mem => hs.apart (subset mem)
    refine ⟨guard :: links, .cons hs.found linked, List.nodup_cons.2 ⟨apart, nodup⟩,
      List.cons_subset_cons _ subset, fun holds all => ?_⟩
    obtain ⟨holds', defs, code⟩ := code holds all
    refine ⟨holds', defs, fun view tail agrees => ?_⟩
    -- the tail is in the guarded block itself or in the last one that this block goes on in
    have last : ∀ p ∈ used, ((guard :: links).getLast? = some p ↔ links.getLast? = some p) := by
      intro p mem
      cases links with
      | nil =>
        simp only [List.getLast?_singleton, Option.some.injEq, List.getLast?_nil, reduceCtorEq,
          iff_false]
        rintro rfl
        exact hs.apart mem
      | cons => rw [List.getLast?_cons_cons]
    have inside := code view tail fun p mem b found => by
      have := agrees p (.tail _ mem) b found
      simpa only [last p mem] using this
    refine .guarded ?_ inside
    have := agrees guard (.head _) inner hs.found
    rw [this, hs.inLoop]
    cases links with
    | nil => simp [closing]
    | cons q links =>
      have other : ((guard :: q :: links).getLast? = some guard) = False := by
        rw [List.getLast?_cons_cons, eq_iff_iff, iff_false]
        intro h
        exact apart (List.mem_of_getLast? h)
      simp only [other, if_false, closing, reduceCtorEq]

/-- The rest of the lines has no commands and is not called. -/
theorem Split.dropped {w guard : Path} (x' s' : Bool)
    (hs : Split R owner (some w) prev rest ws ws' guard inner used) (empty : inner.commands = []) :
    Laid R owner (some w) prev (.after x' s' rest) ws ws' [] (x' || inner.mayExit)
      (s' || inner.maySkip) none (guard :: used) where
  grows := hs.laid.grows
  orderly := hs.laid.orderly
  fresh := hs.fresh
  nodup := List.nodup_cons.2 ⟨hs.apart, hs.laid.nodup⟩
  loopless none := by cases none
  code := by
    obtain ⟨links, _, _, _, code⟩ := hs.laid.code
    refine ⟨[], .nil, by simp, by simp, fun holds all => ?_⟩
    obtain ⟨holds', defs, code⟩ := code holds all
    refine ⟨holds', defs, fun view tail agrees => ?_⟩
    have inside := code view Code.noTail fun p mem b found => by
      simpa [Code.noTail] using agrees p (.tail _ mem) b found
    have nothing : closing links Code.noTail inner.mayExit inner.maySkip = [] := by
      simp [closing, Code.noTail]
    rw [empty, nothing] at inside
    have found := agrees guard (.head _) inner hs.found
    simp only [empty, List.getLast?_nil, reduceCtorEq, if_false, List.append_nil,
      hs.inLoop] at found
    exact .dropped found inside

/-! ### Steps before and after -/

/-- A step that comes before a piece and only adds to the workspace. -/
theorem Laid.before (h : Laid R owner lp prev piece ws₁ ws' cs x s onward used)
    (grows : Grows untouched ws ws₁)
    (holds : R.Holds ws → piece.script.All R.Text R.Test → R.Holds ws₁)
    (defs : R.Holds ws → piece.script.All R.Text R.Test → ∀ busy : Path → Prop, busy owner →
      DefsCoded R.dialect busy ws → DefsCoded R.dialect busy ws₁) :
    Laid R owner lp prev piece ws ws' cs x s onward used where
  grows := (grows.trans h.grows).congr fun _ => by simp [untouched]
  orderly := h.orderly
  fresh p mem := ⟨grows.absent (h.fresh p mem).absent, (h.fresh p mem).present⟩
  nodup := h.nodup
  loopless := h.loopless
  code := by
    obtain ⟨links, linked, nodup, subset, code⟩ := h.code
    refine ⟨links, linked, nodup, subset, fun hw all => ?_⟩
    obtain ⟨holds', defs', code⟩ := code (holds hw all) all
    exact ⟨holds', fun busy hbusy coded => defs' busy hbusy (defs hw all busy hbusy coded), code⟩

/-- A step before a piece that leaves the routines alone. -/
theorem Laid.quiet (h : Laid R owner lp prev piece ws₁ ws' cs x s onward used)
    (orderly : ws.Orderly) (routines : ws₁.routines = ws.routines)
    (lines : ws₁.lines = ws.lines) (settings : ws₁.settings = ws.settings)
    (holds : R.Holds ws → piece.script.All R.Text R.Test → R.Holds ws₁) :
    Laid R owner lp prev piece ws ws' cs x s onward used :=
  h.before (.of_routines routines lines settings) holds
    fun _ _ _ _ coded => coded.of_routines orderly routines lines

theorem Laid.define {name : String}
    (h : Laid R owner lp none (.block rest) ws ws' cs x s onward used) :
    Laid R owner lp prev (.block (.define name rest)) ws ws' cs x s onward used where
  grows := Grows.of_untouched h.grows rfl
  orderly := h.orderly
  fresh := h.fresh
  nodup := h.nodup
  loopless := h.loopless
  code := by
    obtain ⟨links, linked, nodup, subset, code⟩ := h.code
    refine ⟨links, linked, nodup, subset, fun holds all => ?_⟩
    obtain ⟨holds', defs, code⟩ := code holds all.2
    exact ⟨holds', defs, fun view tail agrees => .define (code view tail agrees)⟩

theorem Linked.mono (linked : Linked ws onward links)
    (same : ∀ p ∈ links, ws'.routines.get? p = ws.routines.get? p) : Linked ws' onward links := by
  induction linked with
  | nil => exact .nil
  | cons found _ ih =>
    exact .cons ((same _ (.head _)).trans found) (ih fun p mem => same p (.tail _ mem))

/-- Storing what was compiled in the routine that was there from the start. -/
theorem Laid.commit {path : Path} {f : Routine → Routine}
    (h : Laid R owner lp prev piece ws ws₁ cs x s onward used)
    (found : ws.routines.get? path = some r) (loose : r.kind.isBlock = true → r.compiled = false)
    (owned : r.owner = owner) (self : r.kind = .defined → owner = path)
    (routines : ws₂.routines = ws₁.routines) (lines : ws₂.lines = ws₁.lines)
    (settings : ws₂.settings = ws₁.settings) (holds : R.Holds ws₁ → R.Holds ws₂)
    (origin : ∀ r, (f r).origin = r.origin) :
    Laid R owner lp prev piece ws (ws₂.updateRoutine path f) cs x s onward used := by
  have get : ∀ q, (ws₂.updateRoutine path f).routines.get? q =
      (ws₁.routines.get? q).map fun r => if q = path then f r else r := by
    intro q
    rw [← routines]
    exact Table.get?_modify ..
  have other : ∀ q, q ≠ path →
      (ws₂.updateRoutine path f).routines.get? q = ws₁.routines.get? q := by
    intro q ne
    simp [get, ne]
  have apart : ∀ p ∈ used, p ≠ path := by
    rintro p mem rfl
    rw [(h.fresh p mem).absent] at found
    cases found
  have orderly₂ : ws₂.Orderly := h.orderly.of_routines routines lines settings
  constructor
  · constructor
    · exact settings.trans h.grows.settings
    · exact lines.trans h.grows.lines
    · intro q r found
      obtain ⟨r₁, found₁, same⟩ := h.grows.kept found
      refine ⟨_, by rw [get, found₁, Option.map_some], ?_⟩
      split
      · exact (origin r₁).trans same
      · exact same
    · intro q r' foundBlock isBlock compiled
      have ne : q ≠ path := by
        rintro rfl
        rw [found] at foundBlock
        cases foundBlock
        rw [loose isBlock] at compiled
        cases compiled
      rw [other q ne, h.grows.settled foundBlock isBlock compiled]
  · exact orderly₂.of_origins rfl rfl (Workspace.origins_updateRoutine origin)
  · intro p mem
    refine ⟨(h.fresh p mem).absent, ?_⟩
    rw [other p (apart p mem)]
    exact (h.fresh p mem).present
  · exact h.nodup
  · exact h.loopless
  · obtain ⟨links, linked, nodup, subset, code⟩ := h.code
    refine ⟨links, linked.mono fun p mem => other p (apart p (subset mem)), nodup, subset, ?_⟩
    intro hw all
    obtain ⟨holds₁, defs, code⟩ := code hw all
    refine ⟨?_, ?_, ?_⟩
    · exact R.stable (holds holds₁) rfl rfl rfl fun q r' found =>
        .inl (Workspace.origins_updateRoutine origin found)
    · intro busy hbusy coded
      obtain ⟨r₁, found₁, same⟩ := h.grows.kept found
      refine (defs busy hbusy coded).of_change h.orderly lines ?_ ?_
      · intro q r' found' defined compiled free
        have ne : q ≠ path := by
          rintro rfl
          rw [get, found₁, Option.map_some, if_pos rfl, Option.some.injEq] at found'
          rw [← found', Routine.kind_of_origin ((origin r₁).trans same)] at defined
          exact free (self defined ▸ hbusy)
        rw [other q ne] at found'
        exact ⟨r', found', rfl, compiled, rfl⟩
      · intro p b foundBlock isBlock compiled free
        have ne : p ≠ path := by
          rintro rfl
          rw [found₁] at foundBlock
          cases foundBlock
          rw [Routine.owner_of_origin same, owned] at free
          exact free hbusy
        rw [other p ne, foundBlock]
    · intro view tail agrees
      refine code view tail fun p mem b present => ?_
      exact agrees p mem b (by rw [other p (apart p mem), present])

/-! ### Statements with a block -/

/-- What becomes of a compiled block after a patch and the rest of the lines. -/
theorem Laid.later (patched : Patched owner patch ws₁ ws₂)
    (after : Laid R owner lp prev₂ piece ws₂ ws' cs x s onward used) {b : Routine}
    (found : ws₁.routines.get? p = some b) (isBlock : b.kind.isBlock = true)
    (compiled : b.compiled = true) :
    ws'.routines.get? p =
      some { b with commands := touch prev₂ piece.script p ++ patch p b } := by
  exact after.grows.settled (patched.found found) isBlock compiled

/-- The workspace grows over a split, a patch of blocks of the owner and the rest. -/
theorem Split.grows (hs : Split R owner lp' none body ws ws₁ block inner used')
    (patched : Patched owner patch ws₁ ws₂)
    (after : Laid R owner lp prev₂ piece ws₂ ws' cs x s onward used)
    (hprev : ∀ chain, prev₂ = some chain → chain.branch = block)
    (hpatch : ∀ q r, q ≠ block → q ∉ used' → patch q r = touch prev script q ++ r.commands) :
    Grows (touch prev script) ws ws' where
  settings := after.grows.settings.trans (patched.settings.trans hs.laid.grows.settings)
  lines := after.grows.lines.trans (patched.lines.trans hs.laid.grows.lines)
  kept {q r} found := by
    obtain ⟨r₁, found₁, origin₁⟩ := hs.laid.grows.kept found
    obtain ⟨r', found', origin'⟩ := after.grows.kept (patched.found found₁)
    exact ⟨r', found', origin'.trans origin₁⟩
  settled {q r} found isBlock compiled := by
    have old : ∀ p ∈ block :: used', q ≠ p := by
      rintro p mem rfl
      rw [(hs.fresh q mem).absent] at found
      cases found
    have found₁ : ws₁.routines.get? q = some r := hs.laid.grows.settled found isBlock compiled
    rw [after.later patched found₁ isBlock compiled,
      hpatch q r (old block (.head _)) fun mem => old q (.tail _ mem) rfl]
    have nothing : touch prev₂ piece.script q = [] := by
      cases prev₂ with
      | none => rfl
      | some chain =>
        refine touch_of_ne ?_ _
        rw [hprev chain rfl]
        exact old block (.head _)
    rw [nothing, List.nil_append]

theorem Split.fresh_append (hs : Split R owner lp' none body ws ws₁ block inner used')
    (patched : Patched owner patch ws₁ ws₂)
    (after : Laid R owner lp prev₂ piece ws₂ ws' cs x s onward used) :
    ∀ p ∈ block :: used' ++ used, Fresh owner ws ws' p := by
  intro p mem
  rcases List.mem_append.1 mem with mem | mem
  · obtain ⟨absent, b, found, isBlock, compiled, owned⟩ := hs.fresh p mem
    exact ⟨absent, _, after.later patched found isBlock compiled, isBlock, compiled, owned⟩
  · obtain ⟨absent, present⟩ := after.fresh p mem
    refine ⟨hs.laid.grows.absent ?_, present⟩
    rw [patched.routines] at absent
    simpa using absent

theorem Split.nodup_append (hs : Split R owner lp' none body ws ws₁ block inner used')
    (patched : Patched owner patch ws₁ ws₂)
    (after : Laid R owner lp prev₂ piece ws₂ ws' cs x s onward used) :
    (block :: used' ++ used).Nodup := by
  refine List.nodup_append.2 ⟨List.nodup_cons.2 ⟨hs.apart, hs.laid.nodup⟩, after.nodup, ?_⟩
  rintro p mem q mem' rfl
  obtain ⟨_, b, found, _⟩ := hs.fresh p mem
  have absent := (after.fresh p mem').absent
  rw [patched.found found] at absent
  cases absent

/-- The blocks of a split in view. -/
theorem Split.view_eq (hs : Split R owner lp' none body ws ws₁ block inner used')
    (patched : Patched owner patch ws₁ ws₂)
    (after : Laid R owner lp prev₂ piece ws₂ ws' cs x s onward used) {view : Code.View}
    {tail : Code.Tail} (subset : links ⊆ used)
    (agrees : Agrees view ws' (block :: used' ++ used) links tail) {b : Routine}
    (mem : p ∈ block :: used') (found : ws₁.routines.get? p = some b) :
    view p = some (b.loop, touch prev₂ piece.script p ++ patch p b) := by
  obtain ⟨_, b', found', isBlock, compiled, _⟩ := hs.fresh p mem
  rw [found] at found'
  cases found'
  rw [agrees p (List.mem_append_left _ mem) _ (after.later patched found isBlock compiled)]
  have notLast : links.getLast? ≠ some p := by
    intro last
    have absent := (after.fresh p (subset (List.mem_of_getLast? last))).absent
    rw [patched.routines, found] at absent
    cases absent
  rw [if_neg notLast, List.append_nil]

/-- A statement with a block under it and the rest of the lines. What is left to say is how
its own commands and the code of the two parts are the code of the whole. -/
theorem Split.assemble (hs : Split R owner lp' none body ws ws₁ block inner used')
    (patched : Patched owner patch ws₁ ws₂)
    (after : Laid R owner lp prev₂ piece ws₂ ws' cs x s onward used)
    (hprev : ∀ chain, prev₂ = some chain → chain.branch = block)
    (hpatch : ∀ q r, q ≠ block → q ∉ used' → patch q r = touch prev script q ++ r.commands)
    (hall : script.All R.Text R.Test →
      body.All R.Text R.Test ∧ piece.script.All R.Text R.Test)
    (hcode : ∀ (view : Code.View) (tail : Code.Tail) (links : List Path) (cs' : List Command),
      R.Holds ws₁ → script.All R.Text R.Test → Linked ws₁ inner.continuation links →
      links.Nodup → links ⊆ used' →
      (∀ tail', Agrees view ws₁ used' links tail' →
        Code R.dialect view lp' tail' none (.block body)
          (inner.commands ++ closing links tail' inner.mayExit inner.maySkip) inner.mayExit
          inner.maySkip used') →
      (∀ p ∈ block :: used', ∀ b, ws₁.routines.get? p = some b →
        view p = some (b.loop, touch prev₂ piece.script p ++ patch p b)) →
      Code R.dialect view lp tail (prev₂.map Chain.tag) piece cs' x s used →
      Code R.dialect view lp tail (prev.map Chain.tag) (.block script) (here ++ cs') x s
        (block :: used' ++ used)) :
    Laid R owner lp prev (.block script) ws ws' (here ++ cs) x s onward
      (block :: used' ++ used) where
  grows := hs.grows patched after hprev hpatch
  orderly := after.orderly
  fresh := hs.fresh_append patched after
  nodup := hs.nodup_append patched after
  loopless := after.loopless
  code := by
    obtain ⟨links', linked', nodup', subset', inside⟩ := hs.laid.code
    obtain ⟨links, linked, nodup, subset, code⟩ := after.code
    refine ⟨links, linked, nodup, fun p mem => List.mem_append_right _ (subset mem), ?_⟩
    intro holds all
    obtain ⟨holds₁, defs₁, inside⟩ := inside holds (hall all).1
    obtain ⟨holds', defs', code⟩ := code (patched.holds holds₁) (hall all).2
    refine ⟨holds', ?_, ?_⟩
    · intro busy hbusy coded
      exact defs' busy hbusy
        (patched.defsCoded hs.laid.orderly hbusy (defs₁ busy hbusy coded))
    · intro view tail agrees
      rw [List.append_assoc]
      refine hcode view tail links' _ holds₁ all linked' nodup' subset' (inside view) ?_ ?_
      · intro p mem b found
        exact hs.view_eq patched after subset agrees mem found
      · exact code view tail fun p mem => agrees p (List.mem_append_right _ mem)

/-! ### Branches -/

theorem touch_eq_nil (noElse : script.startsElse = false) (q : Path) : touch prev script q = [] := by
  cases prev <;> simp [touch, Code.front, noElse]

/-- The markers of chains in a block differ from those of routines that were there before. -/
theorem Split.chainTag_ne (hs : Split R owner lp' none body ws ws₁ block inner used') {q : Path}
    (mem : p ∈ used') (found : ws₁.routines.get? q = some r) (ne : p ≠ q) :
    chainTag p ≠ chainTag q := by
  obtain ⟨b, present, _⟩ := (hs.laid.fresh p mem).present
  exact fun same => ne (Path.chainTag_injective (hs.laid.orderly.below present)
    (hs.laid.orderly.below found) same)

theorem Split.branch {clauses : String} {marker : Option String} {header : List Clause}
    {opening pending : List Command}
    (hs : Split R owner lp none body ws ws₁ block inner used')
    (patched : Patched owner (fun _ r => r.commands) ws₁ ws₂)
    (tests : R.Test clauses → R.Holds ws₁ → R.dialect.tests clauses pending header)
    (hmarker : marker.getD (chainTag block) = chainTag block)
    (opens : opening = [.killMarker (chainTag block)] ∨
      opening = [] ∧ rest.startsElse = false)
    (after : Laid R owner lp (some ⟨block, marker⟩) (.after inner.mayExit inner.maySkip rest)
      ws₂ ws' cs x s onward used) :
    Laid R owner lp prev (.block (.branch clauses body rest)) ws ws'
      (opening ++ (pending ++ [.invoke header ⟨block, []⟩]) ++ cs) x s onward
      (block :: used' ++ used) := by
  refine hs.assemble patched after ?_ ?_ (fun all => all.2) ?_
  · rintro chain ⟨⟩
    rfl
  · intro q r _ _
    rw [touch_eq_nil rfl, List.nil_append]
  · intro view tail links cs' holds all linked _ subset inside found code
    have ne : ∀ p ∈ used', p ≠ block := fun p mem same => hs.apart (same ▸ mem)
    have inside := inside Code.noTail fun p mem b present => by
      rw [found p (.tail _ mem) b present, touch_of_ne (ne p mem)]
      simp [Code.noTail]
    have foundBlock := found block (.head _) inner hs.found
    have front : touch (some ⟨block, marker⟩) rest block =
        Code.front (chainTag block) rest := by
      simp [touch, Chain.tag, hmarker]
    have tag : Option.map Chain.tag (some ⟨block, marker⟩) = some (chainTag block) := by
      simp [Chain.tag, hmarker]
    rw [Code.Piece.script, front, hs.inLoop] at foundBlock
    rw [tag] at code
    simp only [closing, Code.noTail, ite_self, List.append_nil] at inside
    have whole : Code R.dialect view lp tail (prev.map Chain.tag) _ _ _ _ _ :=
      .branch (tests all.1 holds) inside foundBlock
        (fun p mem => hs.chainTag_ne mem hs.found (ne p mem)) opens code
    simpa using whole

theorem Split.otherwise {clauses : String} {chain : Chain} {header extra : List Clause}
    {closes pending : List Command}
    (hs : Split R owner lp none body ws ws₁ block inner used')
    (isOpen : chain.Open owner ws)
    (patched : Patched owner
      (fun q r => touch (some chain) (.otherwise clauses body rest) q ++ r.commands) ws₁ ws₂)
    (tests : R.Test clauses → R.Holds ws₁ → R.dialect.tests clauses pending header ∧
      extra = if Clause.renderAll R.dialect.pack header = "" then [] else header)
    (hcloses : closes = [] ∨ closes = [.killMarker chain.tag] ∧ rest.startsElse = false)
    (after : Laid R owner lp (some ⟨block, some chain.tag⟩)
      (.after inner.mayExit inner.maySkip rest) ws₂ ws' cs x s onward used) :
    Laid R owner lp (some chain) (.block (.otherwise clauses body rest)) ws ws'
      (pending ++ .invoke (.marker false chain.tag :: extra) ⟨block, []⟩ :: closes ++ cs) x s
      onward (block :: used' ++ used) := by
  obtain ⟨⟨b, foundBranch, _⟩, q, r, foundTag, htag⟩ := isOpen
  have old : ∀ {q r}, ws.routines.get? q = some r → ∀ p ∈ block :: used', p ≠ q := by
    rintro q r found p mem rfl
    rw [(hs.fresh p mem).absent] at found
    cases found
  refine hs.assemble patched after ?_ (fun _ _ _ _ => rfl) (fun all => all.2) ?_
  · rintro chain ⟨⟩
    rfl
  · intro view tail links cs' holds all linked _ subset inside found code
    obtain ⟨tested, rfl⟩ := tests all.1 holds
    -- neither the branch nor a block in it is the branch before
    have patchless : ∀ p ∈ block :: used', ∀ b : Routine,
        touch (some chain) (.otherwise clauses body rest) p ++ b.commands = b.commands := by
      intro p mem b
      rw [touch_of_ne (old foundBranch p mem), List.nil_append]
    have inside := inside Code.noTail fun p mem b present => by
      have ne : p ≠ block := fun same => hs.apart (same ▸ mem)
      rw [found p (.tail _ mem) b present, touch_of_ne ne, patchless p (.tail _ mem)]
      simp [Code.noTail]
    have foundBlock := found block (.head _) inner hs.found
    have front : touch (some ⟨block, some chain.tag⟩) rest block = Code.front chain.tag rest := by
      simp [touch, Chain.tag]
    rw [Code.Piece.script, front, patchless block (.head _), hs.inLoop] at foundBlock
    simp only [closing, Code.noTail, ite_self, List.append_nil] at inside
    have apart : ∀ p ∈ used', chainTag p ≠ chain.tag := by
      intro p mem
      obtain ⟨r₁, found₁, _⟩ := hs.laid.grows.kept foundTag
      rw [htag]
      exact hs.chainTag_ne mem found₁ (old foundTag p (.tail _ mem))
    have whole := Code.otherwise tested inside foundBlock apart hcloses code
    simpa using whole

/-! ### Loops -/

theorem Split.times {number : Nat}
    (hs : Split R owner (some block) none body ws ws₁ block inner used')
    (patched : Patched owner
      (fun q r => if q = block then Code.roundStart block r.maySkip ++ r.commands else r.commands)
      ws₁ ws₂)
    (after : Laid R owner lp none (.block rest) ws₂ ws' cs x s onward used) :
    Laid R owner lp prev (.block (.times number body rest)) ws ws'
      (List.replicate number (.invoke (Block.absenceTests block inner.mayExit false) ⟨block, []⟩) ++
        Loop.killMarkers block inner.mayExit inner.maySkip ++ cs) x s onward
      (block :: used' ++ used) := by
  refine hs.assemble patched after (by simp) ?_ (fun all => all) ?_
  · intro q r ne _
    rw [if_neg ne, touch_eq_nil rfl, List.nil_append]
  · intro view tail links cs' holds all linked _ subset inside found code
    have inside := inside Code.noTail fun p mem b present => by
      have ne : p ≠ block := fun same => hs.apart (same ▸ mem)
      rw [found p (.tail _ mem) b present, touch_none, if_neg ne]
      simp [Code.noTail, untouched]
    have foundBlock := found block (.head _) inner hs.found
    simp only [touch_none, untouched, List.nil_append, if_true, hs.inLoop] at foundBlock
    simp only [closing, Code.noTail, ite_self, List.append_nil] at inside
    have whole : Code R.dialect view lp tail (prev.map Chain.tag)
        (.block (.times number body rest)) _ _ _ _ := .times inside foundBlock code
    simpa using whole

/-- The last block that a body goes on in is found along its links. -/
theorem Loop.tail_eq {limit : Nat} (found : ws.routines.get? p = some r)
    (linked : Linked ws r.continuation links) (short : links.length ≤ limit) :
    (p :: links).getLast? = some (Loop.tail ws limit p) := by
  induction links generalizing p r limit with
  | nil =>
    have stop : r.continuation = none := by
      generalize r.continuation = c at linked
      cases linked
      rfl
    cases limit <;> simp [Loop.tail, found, stop]
  | cons _ _ ih =>
    cases limit with
    | zero => simp at short
    | succ =>
      generalize hc : r.continuation = c at linked
      cases linked with
      | cons foundNext goesOn =>
        rw [List.getLast?_cons_cons, ih foundNext goesOn (by simpa using short)]
        simp [Loop.tail, found, hc]

theorem Linked.mem (linked : Linked ws onward links) (mem : p ∈ links) : p ∈ ws.routines.keys := by
  induction linked with
  | nil => cases mem
  | cons found _ ih =>
    rcases List.mem_cons.1 mem with rfl | mem
    · rw [← Table.contains_iff, Table.contains_eq, found]
      rfl
    · exact ih mem

theorem Linked.length_le (linked : Linked ws onward links) (nodup : links.Nodup) :
    links.length ≤ ws.routines.size := by
  have short := (List.subperm_of_subset nodup fun p mem => linked.mem mem).length_le
  simpa [Table.keys, Table.size] using short

theorem Split.tail_mem (hs : Split R owner lp none body ws ws₁ block inner used') :
    Loop.tail ws₁ ws₁.routines.size block ∈ block :: used' := by
  obtain ⟨links, linked, nodup, subset, _⟩ := hs.laid.code
  have last := Loop.tail_eq hs.found linked (linked.length_le nodup)
  exact List.cons_subset_cons _ subset (List.mem_of_getLast? last)

/-- What closing a loop makes of the commands of its blocks. -/
def Loop.closed (block last : Path) (pending : List Command) (header : List Clause) (q : Path)
    (r : Routine) : List Command :=
  let commands :=
    if q = last then r.commands ++ Code.loopTail block pending header r.mayExit r.maySkip
    else r.commands
  if q = block then
    Code.roundStart block r.maySkip ++ commands ++ Code.roundAgain block pending header r.maySkip
  else
    commands

theorem Split.loop {test : LoopTest} {condition : String} {clauses header : List Clause}
    {pending : List Command}
    (hs : Split R owner (some block) none body ws ws₁ block inner used')
    (patched : Patched owner
      (Loop.closed block (Loop.tail ws₁ ws₁.routines.size block) pending header) ws₁ ws₂)
    (tests : R.Test condition → R.Holds ws₁ → R.dialect.tests condition pending clauses ∧
      header = Loop.header R.dialect.pack test clauses)
    (after : Laid R owner lp none (.block rest) ws₂ ws' cs x s onward used) :
    Laid R owner lp prev (.block (.loop test condition body rest)) ws ws'
      (pending ++ .invoke header ⟨block, []⟩ ::
        Loop.killMarkers block inner.mayExit inner.maySkip ++ cs) x s onward
      (block :: used' ++ used) := by
  refine hs.assemble patched after (by simp) ?_ (fun all => all.2) ?_
  · intro q r ne notMem
    have notLast : q ≠ Loop.tail ws₁ ws₁.routines.size block := fun same =>
      (List.mem_cons.1 (same ▸ hs.tail_mem)).elim ne notMem
    rw [Loop.closed, if_neg notLast, if_neg ne, touch_eq_nil rfl, List.nil_append]
  · intro view tail links cs' holds all linked nodup subset inside found code
    obtain ⟨tested, rfl⟩ := tests all.1 holds
    have last := Loop.tail_eq hs.found linked (linked.length_le nodup)
    generalize Loop.tail ws₁ ws₁.routines.size block = lastBlock at last found
    have inside := inside (Code.loopTail block pending (Loop.header R.dialect.pack test clauses))
      fun p mem b present => by
        have ne : p ≠ block := fun same => hs.apart (same ▸ mem)
        rw [found p (.tail _ mem) b present, touch_none, Loop.closed, if_neg ne]
        have same : links.getLast? = some p ↔ p = lastBlock := by
          cases links with
          | nil =>
            simp only [List.getLast?_singleton, Option.some.injEq] at last
            simp [← last, ne]
          | cons =>
            rw [List.getLast?_cons_cons] at last
            rw [last, Option.some.injEq, eq_comm]
        simp only [same]
        by_cases isLast : p = lastBlock
        · rw [if_pos isLast, if_pos isLast]
          rfl
        · rw [if_neg isLast, if_neg isLast, List.append_nil]
          rfl
    have foundBlock := found block (.head _) inner hs.found
    have here : (if block = lastBlock then inner.commands ++
          Code.loopTail block pending (Loop.header R.dialect.pack test clauses) inner.mayExit
            inner.maySkip else inner.commands) =
        inner.commands ++ closing links
          (Code.loopTail block pending (Loop.header R.dialect.pack test clauses)) inner.mayExit
          inner.maySkip := by
      cases links with
      | nil =>
        simp only [List.getLast?_singleton, Option.some.injEq] at last
        simp [closing, last]
      | cons =>
        rw [List.getLast?_cons_cons] at last
        have other : block ≠ lastBlock := by
          rintro rfl
          exact hs.apart (subset (List.mem_of_getLast? last))
        simp [closing, other]
    simp only [touch_none, untouched, List.nil_append, Loop.closed, if_true, here,
      hs.inLoop] at foundBlock
    have whole : Code R.dialect view lp tail (prev.map Chain.tag)
        (.block (.loop test condition body rest)) _ _ _ _ := .loop tested inside foundBlock code
    simpa using whole

end CommandPack
