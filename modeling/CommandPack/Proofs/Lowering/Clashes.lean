import CommandPack.Proofs.Lowering.Breaking
import CommandPack.Proofs.Lowering.Rooting

/-!
# Faults of compilations

A compilation that has room fails at a line that it has read, and it never comes to a path that is
taken, unless two definitions of one block have the same name.
-/

namespace CommandPack

open Workspace BodyM

variable {ws ws' : Workspace} {fault : Fault} {inner : Bool} {halt : Halt}

/-! ### The lines of a block -/

/-- Two lines of one block define the same name. -/
structure Repeats (lines : List Line) (i j : Nat) (name : String) : Prop where
  ordered : i < j
  headers : ∃ first second signature signature', lines[i]? = some first ∧
    lines[j]? = some second ∧ first.depth = second.depth ∧ first.defines ∧ second.defines ∧
    Signature.parse first.text = .ok signature ∧ Signature.parse second.text = .ok signature' ∧
    signature.name = name ∧ signature'.name = name
  together : ∀ k, i < k → k < j → ∀ first between, lines[i]? = some first →
    lines[k]? = some between → first.depth ≤ between.depth

/-- Own lines of one block that define the same name. -/
theorem Repeats.of_own {lines : List Line} {depth start i j : Nat} {first second : Line}
    {signature signature' : Signature}
    (own : (i, first) ∈ Block.own depth start (lines.drop start))
    (own' : (j, second) ∈ Block.own depth start (lines.drop start)) (ordered : i < j)
    (defines : first.defines) (defines' : second.defines)
    (parsed : Signature.parse first.text = .ok signature)
    (parsed' : Signature.parse second.text = .ok signature')
    (same : signature.name = signature'.name) : Repeats lines i j signature'.name := by
  obtain ⟨here, k, rfl, at', _⟩ := Block.at_of_mem_own own
  obtain ⟨here', k', rfl, at'', between⟩ := Block.at_of_mem_own own'
  rw [List.getElem?_drop] at at' at''
  refine ⟨ordered, ⟨first, second, signature, signature', at', at'', here.trans here'.symm, defines,
    defines', parsed, parsed', same, rfl⟩, fun m after before first' line atFirst atLine => ?_⟩
  rw [at'] at atFirst
  cases atFirst
  rw [here]
  refine between (m - start) (by omega) line ?_
  rw [List.getElem?_drop, show start + (m - start) = m by omega]
  exact atLine

/-! ### Placed faults -/

/-- A fault is at one of the lines. -/
def Fault.Placed (ws : Workspace) (fault : Fault) : Prop :=
  ∃ i < ws.lines.length, fault.place = some (ws.placeAt i)

/-- A fault about a path that is taken is at the second of two lines that define the same name. -/
def Fault.Repeated (ws : Workspace) (fault : Fault) : Prop :=
  ∀ name, fault.cause = .duplicateFunction name →
    ∃ i j, Repeats ws.lines i j name ∧ fault.place = some (ws.placeAt j)

theorem Fault.Placed.of_sameText (h : fault.Placed ws') (same : ws.SameText ws') :
    fault.Placed ws := by
  obtain ⟨i, within, place⟩ := h
  exact ⟨i, same.lines ▸ within, by rw [place, same.placeAt]⟩

theorem Fault.Repeated.of_sameText (h : fault.Repeated ws') (same : ws.SameText ws') :
    fault.Repeated ws := by
  intro name clash
  obtain ⟨i, j, repeats, place⟩ := h name clash
  exact ⟨i, j, same.lines ▸ repeats, by rw [place, same.placeAt]⟩

theorem Fault.repeated_of_other (other : fault.cause.isClash = false) : fault.Repeated ws := by
  intro name clash
  rw [clash] at other
  cases other

/-- What a fault says: its place, which may be open inside a line, and, as long as the numbers of
lines fit, the two lines that a clash is about. -/
structure Fault.Told (inner : Bool) (ws : Workspace) (fault : Fault) : Prop where
  placed : fault.Placed ws ∨ inner = true ∧ fault.place = none
  repeated : ws.lines.length ≤ Text.maxUnsigned → fault.Repeated ws

theorem Fault.Told.of_sameText {inner' : Bool} (h : fault.Told inner' ws') (same : ws.SameText ws')
    (weaker : inner' = true → inner = true) :
    fault.Told inner ws where
  placed := h.placed.imp (·.of_sameText same) (And.imp_left weaker)
  repeated short := (h.repeated (same.lines ▸ short)).of_sameText same

theorem Fault.told_of_placed (placed : fault.Placed ws) (other : fault.cause.isClash = false) :
    fault.Told inner ws :=
  ⟨.inl placed, fun _ => repeated_of_other other⟩

/-- A tame step leaves the place to the line around it. -/
theorem Halt.Bare.told (bare : halt.Bare) : ∀ fault, halt = .fault fault → fault.Told true ws := by
  rintro fault rfl
  exact ⟨.inr ⟨rfl, bare.1⟩, fun _ => Fault.repeated_of_other bare.2⟩

/-- A line gives a fault its place. -/
theorem Fault.Told.locate {inner' : Bool} {index : Nat} (h : fault.Told inner' ws)
    (same : ws.SameText ws') (within : index < ws.lines.length) :
    (fault.locate (ws'.placeAt index)).Told inner ws := by
  rcases h.placed with ⟨i, early, place⟩ | ⟨_, none⟩
  · have still : fault.locate (ws'.placeAt index) = fault := by
      rw [Fault.locate, place, Option.isSome_some, if_pos rfl]
    rw [still]
    exact ⟨.inl ⟨i, early, place⟩, h.repeated⟩
  · have placed : fault.locate (ws'.placeAt index) = fault.relocate (ws.placeAt index) := by
      rw [Fault.locate, none, Option.isSome_none, if_neg Bool.false_ne_true, same.placeAt]
    rw [placed]
    refine ⟨.inl ⟨index, within, rfl⟩, fun short name clash => ?_⟩
    obtain ⟨_, j, _, place⟩ := h.repeated short name clash
    rw [none] at place
    cases place

/-- Definitions of one block that cannot be registered. -/
theorem Definition.told_of_fails {self : Routine}
    (childless : ∀ name, ws.routines.get? (self.path.child name) = none) (failed : WorkM.Fails
      (Definition.registerAll self self.start (ws.lines.drop self.start)) ws halt ws') :
    ws.SameText ws' ∧ ∀ fault, halt = .fault fault → fault.Told false ws := by
  obtain ⟨i, line, before, mid, inner, own, defines, earlier, registered, fails, rfl⟩ :=
    Definition.fails_registerAll failed
  obtain ⟨log', reason⟩ := Definition.fails_register fails
  have same := (registered.sameLog.trans log').toSameText
  have within : i < ws.lines.length := by
    have := Block.index_of_mem_own own
    rw [List.length_drop] at this
    omega
  refine ⟨same, fun fault isFault => ?_⟩
  rcases reason with ⟨cause, plain, rfl⟩ | ⟨signature, other, parsed, taken, rfl⟩
  · cases isFault
    have bare : (Halt.fault { cause }).Bare := ⟨rfl, Cause.other_of_isPlain plain⟩
    exact (bare.told _ rfl).locate same within
  · obtain ⟨j, line', signature', mem, parsed', names, -⟩ :=
      (registered.adds taken).resolve_left fun old => by
        rw [childless] at old
        cases old
    obtain ⟨own', before, defines'⟩ := earlier _ mem
    have name : signature'.name = signature.name := (Path.child_injective names).2.symm
    cases isFault
    have placed : (Fault.locate { cause := .duplicateFunction signature.name }
        (ws'.placeAt i)).place = some (ws.placeAt i) := by
      rw [same.placeAt]
      rfl
    refine ⟨.inl ⟨i, within, placed⟩, fun _ name' clash => ⟨j, i, ?_, placed⟩⟩
    cases clash
    exact .of_own own' own before defines' defines parsed' parsed name

/-- A part of a compilation that has room leaves room for its own parts. -/
theorem Starts.clear {a b : Task × Stage} (starts : Starts a b) {home : Path}
    (clear : a.1.Clear home a.2) : ∃ home', b.1.Clear home' b.2 := by
  cases starts with
  | enter found enters => exact ⟨_, (clear.enter found enters).2.2⟩
  | pass deeper => exact ⟨_, clear.pass deeper.le⟩
  | quiet here => exact ⟨_, clear.pass here.ge⟩
  | statement here goesOn parsed => exact ⟨_, clear.start here goesOn parsed⟩
  | next here goesOn parsed ran =>
    have begun := clear.start here goesOn parsed
    obtain ⟨rooted, _, leaves⟩ := ran.rooted begun
    obtain ⟨develops, housed⟩ := ran.housed begun.housed begun.has
    exact ⟨_, clear.next here ((Alike.record ..).develops.trans develops) housed rooted leaves⟩
  | define resolved found template => exact ⟨_, clear.define resolved found template⟩
  | block splits hpath free => exact ⟨_, (clear.block splits hpath free).2.2⟩
  | rest splits hpath free ran heads =>
    obtain ⟨_, _, begun⟩ := clear.block splits hpath free
    obtain ⟨rooted, spares, _⟩ := ran.rooted begun
    obtain ⟨develops, housed⟩ := ran.housed begun.housed begun.has
    exact ⟨_, clear.after splits hpath free develops housed rooted spares heads⟩
  | guard _ _ _ _ hpath free => exact ⟨_, (clear.guard hpath free).2.2⟩

/-- A compilation that has room fails at one of its lines, and it meets a path that is taken only
where two definitions of one block have the same name. -/
theorem Breaks.told {n : Nat} {task : Task} {c : Stage} (breaks : Breaks n task c halt ws') :
    ∀ {home}, task.Clear home c →
      c.2.SameText ws' ∧ ∀ fault, halt = .fault fault → fault.Told task.isInner c.2 := by
  induction breaks with
  | deep => exact fun _ => ⟨.refl _, nofun⟩
  | unknown unknown =>
    rintro home ⟨_, _, found⟩
    rw [unknown] at found
    cases found
  | @misplaced _ _ _ _ ws self _ found layout content =>
    intro home clear
    obtain ⟨early, deep⟩ := clear.rooted.anchored found
    refine ⟨.record .., ?_⟩
    rintro _ ⟨⟩
    have within : self.start - 1 < ws.lines.length := by
      have early : self.start ≤ ws.lines.length := early
      by_cases root : self.kind = .root
      · have := List.length_pos_iff.2 (content root)
        omega
      · have := deep root
        omega
    exact Fault.told_of_placed ⟨self.start - 1, within, rfl⟩
      (Cause.other_of_isPlain (Cause.plain_of_isLayout layout))
  | @unregistered _ path _ _ ws _ self _ found _ failed =>
    intro home clear
    have bound := Lowering.sameLog_bindParams self (ws.record (.routineStarted path))
    have entered : ws.SameText (Lowering.bindParams self (ws.record (.routineStarted path))) :=
      (SameText.record ..).trans bound.toSameText
    have childless (name : String) : (Lowering.bindParams self
        (ws.record (.routineStarted path))).routines.get? (self.path.child name) = none := by
      rw [(Lowering.bindParams_kept self _).1]
      cases clear with
      | routine housed _ _ _ childless =>
        rw [housed.orderly.keyed found]
        exact childless name
    rw [← entered.lines] at failed
    obtain ⟨same, told⟩ := Definition.told_of_fails childless failed
    exact ⟨entered.trans same, fun fault isFault => (told fault isFault).of_sameText entered id⟩
  | lost found lasts lost =>
    intro home clear
    exact absurd lost (clear.sits.kept found lasts)
  | @indentation _ _ index _ lines _ ws =>
    intro home clear
    refine ⟨.refl _, ?_⟩
    rintro _ ⟨⟩
    cases clear with
    | lines situated =>
      have within := (List.getElem?_eq_some_iff.1 situated.at_index.1).1
      exact Fault.told_of_placed ⟨index - 1, by show index - 1 < ws.lines.length; omega, rfl⟩ rfl
  | @unreadable _ _ _ index _ lines _ _ _ _ _ unreadable =>
    intro home clear
    refine ⟨.record .., ?_⟩
    rintro _ ⟨⟩
    cases clear with
    | lines situated =>
      exact Fault.told_of_placed
        ⟨index, (List.getElem?_eq_some_iff.1 situated.at_index.1).1, rfl⟩
        (Cause.other_of_isPlain (Statement.plain_of_classify unreadable))
  | @statement _ self _ index line lines _ ws _ _ halt here goesOn parsed _ ih =>
    intro home clear
    obtain ⟨same, told⟩ := ih (clear.start here goesOn parsed)
    have recorded := SameText.record ws (.lineStarted self.path index line.text)
    refine ⟨recorded.trans same, ?_⟩
    rintro fault isFault
    cases clear with
    | lines situated =>
      have within := (List.getElem?_eq_some_iff.1 situated.at_index.1).1
      cases halt with
      | exhausted => cases isFault
      | fault inner =>
        cases isFault
        exact ((told inner rfl).of_sameText recorded id).locate (recorded.trans same) within
  | inside starts outside _ _ ih =>
    intro home clear
    obtain ⟨_, begun⟩ := starts.clear clear
    obtain ⟨same, told⟩ := ih begun
    have upTo := (starts.left (.refl ..)).toSameText
    exact ⟨upTo.trans same, fun fault isFault =>
      (told fault isFault).of_sameText upTo (Bool.le_iff_imp.1 outside)⟩
  | stuck inner bare left =>
    intro home _
    rw [inner]
    exact ⟨left.toSameText, bare.told⟩
  | @taken _ self site st role path body ws _ splits hpath taken =>
    intro home clear
    refine ⟨.refl _, ?_⟩
    rintro _ ⟨⟩
    refine ⟨.inr ⟨rfl, rfl⟩, fun short => ?_⟩
    cases clear with
    | statement situated _ _ _ _ room =>
      have within := (List.getElem?_eq_some_iff.1 situated.at_index.1).1
      have early := room.counter
      have short : ws.lines.length ≤ Text.maxUnsigned := short
      have free : ws.routines.get? (self.path.block role body.counter) = none :=
        room.free (.block le_rfl (by omega))
      rw [← (@Block.routine_of_role? self site st role path splits).2.2.2, ← hpath, taken] at free
      cases free
  | @guardTaken _ _ _ _ _ block guard _ ws hpath taken =>
    intro home clear
    refine ⟨.refl _, ?_⟩
    rintro _ ⟨⟩
    refine ⟨.inr ⟨rfl, rfl⟩, fun short => ?_⟩
    have short : ws.lines.length ≤ Text.maxUnsigned := short
    cases clear with
    | rest situated rooted _ _ _ room =>
      have early := room.counter
      have free : ws.routines.get? guard = none := by
        rw [hpath]
        rcases room.path_guard situated rooted with ⟨below, _⟩ |
          ⟨isGuard, scope, n, numbered, low, beside⟩
        · rw [below]
          exact room.free (.block le_rfl (by omega))
        · rw [beside]
          exact room.free (.guard isGuard numbered n.lt_succ_self (by omega))
      rw [taken] at free
      cases free

end CommandPack
