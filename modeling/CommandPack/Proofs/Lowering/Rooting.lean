import CommandPack.Proofs.Lowering.Slots
import CommandPack.Proofs.Lowering.Visits

/-!
# Free paths

Every routine but the root lies directly below another one, and a compilation adds routines only
inside the block that it is in. The numbers that blocks will take, the numbers that further guarded
blocks will take and everything below the definitions that are still to come stay free until it is
their turn. So a compilation never comes to a path that is taken.
-/

namespace CommandPack

open Workspace BodyM Text

variable {signature : Signature} {role : BlockRole} {n : Nat} {r r' : Routine} {task : Task}
  {c : Stage}

/-! ### Numbered segments -/

theorem Text.digitsValue_append (value : Nat) (cs : List Char) (c : Char) :
    digitsValue value (cs ++ [c]) = (digitsValue value cs).bind fun front =>
      if isDigit c then some (10 * front + digitValue c) else none := by
  induction cs generalizing value with
  | nil => rfl
  | cons _ _ ih =>
    simp only [List.cons_append, digitsValue]
    split
    · exact ih _
    · rfl

theorem Text.digitsValue_toDigits (n : Nat) :
    digitsValue 0 (Nat.toDigits 10 n) = some n := by
  have digit : ∀ d < 10, isDigit (Nat.digitChar d) = true ∧
      digitValue (Nat.digitChar d) = d := by decide
  induction n using Nat.strongRecOn with
  | ind n ih =>
    by_cases small : n < 10
    · obtain ⟨isDigit, value⟩ := digit n small
      rw [Nat.toDigits_of_lt_base small, digitsValue, if_pos isDigit, value]
      simp [digitsValue]
    · obtain ⟨isDigit, value⟩ := digit (n % 10) (Nat.mod_lt n (by decide))
      rw [Nat.toDigits_of_base_le (by decide) (by omega), digitsValue_append,
        ih (n / 10) (by omega), Option.bind_some, if_pos isDigit, value]
      exact congrArg some (by omega)

theorem Text.naturalChars?_natural (n : Nat) :
    naturalChars? (chars (natural n)) = some n := by
  have value := digitsValue_toDigits n
  rw [natural, chars_ofList]
  cases digits : Nat.toDigits 10 n with
  | nil => exact absurd digits (List.ne_nil_of_length_pos Nat.length_toDigits_pos)
  | cons => rwa [digits] at value

namespace BlockRole

variable {role role' : BlockRole} {m n : Nat}

theorem chars_segment (role : BlockRole) (n : Nat) :
    chars (role.segment n) = role.letter :: chars (natural n) := by
  rw [segment, chars_append, chars_singleton, List.singleton_append]

/-- A generated segment is read back, as long as its number fits. -/
theorem ofSegment?_segment (fits : n ≤ maxUnsigned) :
    ofSegment? (role.segment n) = some (role, n) := by
  have read : (some n).filter (· ≤ maxUnsigned) = some n := by
    rw [Option.filter_some, if_pos (decide_eq_true fits)]
  simp only [ofSegment?, chars_segment, ofLetter?_letter, naturalChars?_natural, read,
    Option.bind_eq_bind, Option.bind_some, Option.pure_def]

theorem ofSegment?_segment_of_lt (large : maxUnsigned < n) :
    ofSegment? (role.segment n) = none := by
  have read : (some n).filter (· ≤ maxUnsigned) = none := by
    rw [Option.filter_some, if_neg (by simpa using large)]
  simp only [ofSegment?, chars_segment, ofLetter?_letter, naturalChars?_natural, read,
    Option.bind_eq_bind, Option.bind_some, Option.bind_none]

theorem segment_injective (same : role.segment m = role'.segment n) : role = role' ∧ m = n := by
  have chars := congrArg chars same
  rw [chars_segment, chars_segment, List.cons.injEq] at chars
  obtain ⟨letter, digits⟩ := chars
  have roles : some role = some role' := by
    rw [← ofLetter?_letter role, letter, ofLetter?_letter]
  exact ⟨Option.some.inj roles, natural_injective (chars_inj.1 digits)⟩

end BlockRole

/-- No definition has the name of a block. -/
theorem Signature.name_ne_segment {line : String} (parsed : Signature.parse line = .ok signature)
    (fits : n ≤ maxUnsigned) : signature.name ≠ role.segment n := by
  intro same
  have isFunction := Signature.isFunction_of_parse parsed
  rw [same, Name.isFunction, BlockRole.ofSegment?_segment fits] at isFunction
  simp at isFunction

/-! ### Paths inside others -/

namespace Path

variable {path other : Path} {name : String}

theorem encloses_iff : path.encloses other = true ↔
    path.segments.length < other.segments.length ∧ path.segments <+: other.segments := by
  simp [encloses]

theorem encloses_child (path : Path) (name : String) : path.encloses (path.child name) = true :=
  encloses_iff.2 ⟨by simp [child], List.prefix_append ..⟩

/-- What encloses a child encloses the path itself, or is the path. -/
theorem of_encloses_child (h : path.encloses (other.child name) = true) :
    path.segments <+: other.segments := by
  obtain ⟨shorter, inside⟩ := encloses_iff.1 h
  rw [child, List.length_append] at shorter
  exact (List.prefix_concat_iff.1 inside).resolve_left fun same => by
    rw [same] at shorter
    simp at shorter

end Path

/-! ### Routines below one another -/

/-- A routine as it was registered, with what its variants need. -/
def Routine.seed (routine : Routine) : Routine :=
  { routine.origin with template := routine.template }

theorem Routine.origin_of_seed (h : r'.seed = r.seed) : r'.origin = r.origin :=
  show r'.seed.origin = r.seed.origin from congrArg Routine.origin h

theorem Routine.template_of_seed (h : r'.seed = r.seed) : r'.template = r.template :=
  show r'.seed.template = r.seed.template from congrArg Routine.template h

/-- A definition that is compiled where it stands, or no definition. -/
def Routine.Direct (routine : Routine) : Prop :=
  routine.kind = .defined → routine.isTemplate = false

theorem Routine.Direct.of_origin (h : r.Direct) (origin : r'.origin = r.origin) : r'.Direct := by
  intro defined
  rw [Routine.isTemplate, Routine.params_of_origin origin]
  exact h (Routine.kind_of_origin origin ▸ defined)

namespace Workspace

variable {ws ws₁ ws' : Workspace} {home path q : Path} {r : Routine}

/-- Two workspaces with the same lines and with the same routines, up to what was compiled of
them. -/
structure Akin (ws ws' : Workspace) : Prop where
  lines : ws'.lines = ws.lines
  seeds (q : Path) :
    (ws'.routines.get? q).map Routine.seed = (ws.routines.get? q).map Routine.seed

theorem Akin.of_routines (routines : ws'.routines = ws.routines) (lines : ws'.lines = ws.lines) :
    ws.Akin ws' :=
  ⟨lines, fun q => by rw [routines]⟩

theorem Akin.of_update (path : Path) {f : Routine → Routine} (seed : ∀ r, (f r).seed = r.seed) :
    ws.Akin (ws.updateRoutine path f) where
  lines := rfl
  seeds q := by
    simp only [updateRoutine, Table.get?_modify, Option.map_map]
    refine congrArg (Option.map · _) (funext fun r => ?_)
    simp only [Function.comp_apply]
    split
    · exact seed r
    · rfl

theorem Akin.trans (h : ws.Akin ws₁) (h' : ws₁.Akin ws') : ws.Akin ws' :=
  ⟨h'.lines.trans h.lines, fun q => (h'.seeds q).trans (h.seeds q)⟩

theorem Akin.of_reworks (h : ws.Reworks ws') : ws.Akin ws' where
  lines := h.lines
  seeds q := by
    obtain ⟨patch, same⟩ := h.routines
    rw [same, Option.map_map]
    rfl

theorem Akin.of_stored (self : Routine) (body : Body) (ws : Workspace) :
    ws.Akin (Lowering.stored self body ws) := by
  have recorded : ws.Akin (ws.record (.routineDone self.path body.commands.length)) :=
    .of_routines rfl rfl
  exact recorded.trans (.of_update self.path fun _ => rfl)

theorem Akin.found (h : ws.Akin ws') (found : ws'.routines.get? q = some r) :
    ∃ r₀, ws.routines.get? q = some r₀ ∧ r.origin = r₀.origin ∧ r.template = r₀.template := by
  have same := h.seeds q
  rw [found, Option.map_some] at same
  obtain ⟨r₀, found₀, seed⟩ := Option.map_eq_some_iff.1 same.symm
  exact ⟨r₀, found₀, Routine.origin_of_seed seed.symm, Routine.template_of_seed seed.symm⟩

theorem Akin.symm (h : ws.Akin ws') : ws'.Akin ws :=
  ⟨h.lines.symm, fun q => (h.seeds q).symm⟩

theorem Akin.free (h : ws.Akin ws') (free : ws.routines.get? q = none) :
    ws'.routines.get? q = none := by
  have same := h.seeds q
  rwa [free, Option.map_none, Option.map_eq_none_iff] at same

/-- The headers of routines are among the lines, and routines lie directly below one another. A
definition that waits for its arguments has nothing below it but the variants that it counts. -/
structure Rooted (ws : Workspace) : Prop where
  anchored {q : Path} {r : Routine} : ws.routines.get? q = some r →
    r.start ≤ ws.lines.length ∧ (r.kind ≠ .root → 1 ≤ r.start)
  parents {q : Path} {r : Routine} {name : String} : q.segments ≠ [] →
    ws.routines.get? (q.child name) = some r → ∃ parent, ws.routines.get? q = some parent
  deferred {q : Path} {r : Routine} {template : Template} : ws.routines.get? q = some r →
    r.template = some template → r.kind = .defined ∧ r.isTemplate = true
  counted {q : Path} {r inner : Routine} {template : Template} {name : String} :
    ws.routines.get? q = some r → r.template = some template →
      ws.routines.get? (q.child name) = some inner →
        ∃ n < template.counter, name = BlockRole.variant.segment n

theorem Rooted.of_akin (h : ws.Rooted) (akin : ws.Akin ws') : ws'.Rooted where
  anchored found := by
    obtain ⟨r₀, found₀, origin, _⟩ := akin.found found
    rw [Routine.start_of_origin origin, Routine.kind_of_origin origin, akin.lines]
    exact h.anchored found₀
  parents some' found := by
    obtain ⟨_, found₀, _⟩ := akin.found found
    obtain ⟨_, parent⟩ := h.parents some' found₀
    obtain ⟨r, known, _⟩ := akin.symm.found parent
    exact ⟨r, known⟩
  deferred found template := by
    obtain ⟨r₀, found₀, origin, same⟩ := akin.found found
    rw [Routine.isTemplate, Routine.kind_of_origin origin, Routine.params_of_origin origin]
    exact h.deferred found₀ (same ▸ template)
  counted found template inner := by
    obtain ⟨_, found₀, _, same⟩ := akin.found found
    obtain ⟨_, inner₀, _⟩ := akin.found inner
    exact h.counted found₀ (same ▸ template) inner₀

theorem Rooted.direct (h : ws.Rooted) (found : ws.routines.get? q = some r) (direct : r.Direct) :
    r.template = none := by
  cases template : r.template with
  | none => rfl
  | some =>
    obtain ⟨defined, isTemplate⟩ := h.deferred found template
    rw [direct defined] at isTemplate
    cases isTemplate

/-- Nothing lies below a path that is free. -/
theorem Rooted.childless (h : ws.Rooted) (some' : q.segments ≠ [])
    (free : ws.routines.get? q = none) (name : String) :
    ws.routines.get? (q.child name) = none := by
  cases found : ws.routines.get? (q.child name) with
  | none => rfl
  | some =>
    obtain ⟨parent, known⟩ := h.parents some' found
    rw [free] at known
    cases known

/-- A routine that may be added below another one. -/
structure Grafts (ws : Workspace) (q : Path) (r : Routine) : Prop where
  free : ws.routines.get? q = none
  template : r.template = none
  anchored : r.start ≤ ws.lines.length ∧ 1 ≤ r.start
  below : ∃ p name parent, q = p.child name ∧ ws.routines.get? p = some parent ∧
    parent.template = none

/-- Adding routines below others. -/
theorem Rooted.of_adds (h : ws.Rooted) (lines : ws'.lines = ws.lines)
    (kept : ∀ {q r}, ws.routines.get? q = some r → ws'.routines.get? q = some r)
    (adds : ∀ {q r}, ws'.routines.get? q = some r → ws.routines.get? q = some r ∨ ws.Grafts q r) :
    ws'.Rooted where
  anchored found := by
    rw [lines]
    rcases adds found with old | new
    · exact h.anchored old
    · exact ⟨new.anchored.1, fun _ => new.anchored.2⟩
  parents some' found := by
    rcases adds found with old | new
    · obtain ⟨parent, known⟩ := h.parents some' old
      exact ⟨parent, kept known⟩
    · obtain ⟨p, name, parent, same, known, _⟩ := new.below
      obtain ⟨rfl, _⟩ := Path.child_injective same
      exact ⟨parent, kept known⟩
  deferred found template := by
    rcases adds found with old | new
    · exact h.deferred old template
    · rw [new.template] at template
      cases template
  counted found template inner := by
    rcases adds found with old | new
    · rcases adds inner with oldInner | newInner
      · exact h.counted old template oldInner
      · obtain ⟨p, name, parent, same, known, none⟩ := newInner.below
        obtain ⟨rfl, _⟩ := Path.child_injective same
        rw [known] at old
        cases old
        rw [none] at template
        cases template
    · rw [new.template] at template
      cases template

/-- Paths that are free and not inside another path stay free. -/
structure Spares (home : Path) (ws ws' : Workspace) : Prop where
  stays {q : Path} : home.encloses q = false → ws.routines.get? q = none →
    ws'.routines.get? q = none

theorem Spares.refl (home : Path) (ws : Workspace) : Spares home ws ws :=
  ⟨fun _ => id⟩

theorem Spares.trans (h : Spares home ws ws₁) (h' : Spares home ws₁ ws') : Spares home ws ws' :=
  ⟨fun outside free => h'.stays outside (h.stays outside free)⟩

theorem Spares.of_akin (akin : ws.Akin ws') : Spares home ws ws' :=
  ⟨fun _ => akin.free⟩

/-- What stays inside a path stays inside the paths around it. -/
theorem Spares.widen (h : Spares path ws ws') (inside : home.segments <+: path.segments) :
    Spares home ws ws' := by
  refine ⟨fun {q} outside free => h.stays ?_ free⟩
  rw [Bool.eq_false_iff] at outside ⊢
  intro encloses
  obtain ⟨shorter, inner⟩ := Path.encloses_iff.1 encloses
  exact outside (Path.encloses_iff.2 ⟨inside.length_le.trans_lt shorter, inside.trans inner⟩)

end Workspace

/-! ### What the lines of a body still need -/

section Room

variable {home path q : Path} {self r : Routine} {site : Site} {index counter : Nat}
  {line : Line} {lines remaining : List Line} {body : Body} {ws ws₁ ws' : Workspace}

/-- The paths that are kept free for the lines of a body: those of its next blocks, those of the
guarded blocks after it, and all below the definitions among the lines. -/
inductive Reserved (home : Path) (self : Routine) (counter index : Nat) (remaining : List Line) :
    Path → Prop
  | block {role : BlockRole} {n : Nat} (later : counter ≤ n) (fits : n ≤ maxUnsigned) :
      Reserved home self counter index remaining (self.path.block role n)
  | guard {scope : Path} {m n : Nat} (isGuard : self.kind.isGuard = true)
      (numbered : self.path = scope.block .guard n) (later : n < m) (fits : m ≤ maxUnsigned) :
      Reserved home self counter index remaining (scope.block .guard m)
  | inner {i : Nat} {line : Line} {signature : Signature} {name : String}
      (own : (i, line) ∈ Block.own self.depth index remaining) (defines : line.defines)
      (parsed : Signature.parse line.text = .ok signature) :
      Reserved home self counter index remaining ((home.child signature.name).child name)

/-- Later on less is reserved. -/
theorem Reserved.earlier {counter' index' : Nat} {remaining' : List Line}
    (h : Reserved home self counter' index' remaining' q) (counters : counter ≤ counter')
    (owns : ∀ own ∈ Block.own self.depth index' remaining',
      own ∈ Block.own self.depth index remaining) :
    Reserved home self counter index remaining q := by
  cases h with
  | block later fits => exact .block (counters.trans later) fits
  | guard isGuard numbered later fits => exact .guard isGuard numbered later fits
  | inner own defines parsed => exact .inner (owns _ own) defines parsed

/-- A body has room: nothing that it still needs is taken, and its numbers stay below those of its
lines. -/
structure Room (home : Path) (routine : Routine) (index : Nat) (remaining : List Line) (body : Body)
    (ws : Workspace) : Prop where
  counter : body.counter + routine.start ≤ index
  numbered : routine.kind.isGuard = true →
    ∃ (scope : Path) (n : Nat), routine.path = scope.block .guard n ∧ n ≤ routine.start
  free {q : Path} : Reserved home routine body.counter index remaining q → ws.routines.get? q = none
  direct : ∃ r, ws.routines.get? home = some r ∧ r.Direct

theorem Room.mono (h : Room home self index remaining body ws) (develops : ws.Develops ws')
    (stays : ∀ {q}, Reserved home self body.counter index remaining q →
      ws.routines.get? q = none → ws'.routines.get? q = none) :
    Room home self index remaining body ws' where
  counter := h.counter
  numbered := h.numbered
  free reserved := stays reserved (h.free reserved)
  direct := by
    obtain ⟨r, found, direct⟩ := h.direct
    obtain ⟨r', found', origin⟩ := develops.kept found
    exact ⟨r', found', direct.of_origin origin⟩

/-- Going on to the next line. -/
theorem Room.next (h : Room home self index (line :: lines) body ws)
    (here : self.depth ≤ line.depth) : Room home self (index + 1) lines body ws where
  counter := h.counter.trans index.le_succ
  numbered := h.numbered
  free reserved := h.free <| reserved.earlier le_rfl fun own mem => by
    rw [Block.own, if_neg (by omega)]
    split
    · exact mem
    · exact List.mem_cons_of_mem _ mem
  direct := h.direct

/-- A body with more blocks split off. -/
theorem Room.count (h : Room home self index remaining body ws) {body' : Body}
    (counter : body'.counter + self.start ≤ index) (more : body.counter ≤ body'.counter) :
    Room home self index remaining body' ws :=
  ⟨counter, h.numbered, fun reserved => h.free (reserved.earlier more fun _ => id), h.direct⟩

/-- A routine with nothing below it that is no guarded block has room for all its lines. -/
theorem Room.of_childless (rooted : ws.Rooted) (other : self.kind.isGuard = false)
    (found : ws.routines.get? self.path = some r) (direct : r.Direct)
    (childless : ∀ name, ws.routines.get? (self.path.child name) = none) :
    Room self.path self self.start remaining {} ws where
  counter := (Nat.zero_add _).le
  numbered isGuard := by
    rw [other] at isGuard
    cases isGuard
  free reserved := by
    cases reserved with
    | block => exact childless _
    | guard isGuard =>
      rw [other] at isGuard
      cases isGuard
    | inner => exact rooted.childless (by simp [Path.child]) (childless _) _
  direct := ⟨r, found, direct⟩

/-- The body of a definition does not lie around the lines of its block. -/
theorem Situated.not_inside {i : Nat} (h : Situated home self index remaining ws)
    (own : (i, line) ∈ Block.own self.depth index remaining) (defines : line.defines)
    (parsed : Signature.parse line.text = .ok signature) :
    ¬ (home.child signature.name).segments <+: self.path.segments := by
  intro inside
  obtain ⟨signature', r, parsed', found, origin⟩ := h.scanned i line own defines
  rw [parsed] at parsed'
  cases parsed'
  obtain ⟨r', found', isGuard⟩ := h.within.guards _ inside (by simp [Path.child])
  rw [found] at found'
  cases found'
  have kind : r.kind = .defined := congrArg Routine.kind origin
  rw [kind] at isGuard
  cases isGuard

/-- The definition at a line is among the lines of the block. -/
theorem Situated.definition {name : String} {callee : Path}
    (h : Situated home self site.index (line :: site.following) ws)
    (here : line.depth = self.depth) (form : Statement.form line.text = .ok (.define name))
    (resolved : ws.resolveFunction? self.path name = some callee)
    (found : ws.routines.get? callee = some r) :
    ∃ signature, Signature.parse line.text = .ok signature ∧ callee = home.child signature.name ∧
      line.defines ∧
      (site.index, line) ∈ Block.own self.depth site.index (line :: site.following) ∧
      r.origin = Definition.entry home self.depth site.index signature := by
  obtain ⟨signature, parsed, hcallee, origin⟩ := h.callee here form resolved found
  exact ⟨signature, parsed, hcallee, h.defines form, h.own_here here, origin⟩

/-- Two definitions of a block have two names: only one of them can be registered under each. -/
theorem Situated.name_ne {i : Nat} {line' : Line} {signature' : Signature}
    (h : Situated home self index (line :: lines) ws) (here : line.depth = self.depth)
    (defines : line.defines) (parsed : Signature.parse line.text = .ok signature)
    (own : (i, line') ∈ Block.own self.depth (index + 1) lines) (defines' : line'.defines)
    (parsed' : Signature.parse line'.text = .ok signature') : signature.name ≠ signature'.name := by
  intro same
  obtain ⟨_, r, again, found, origin⟩ := h.scanned index line (h.own_here here) defines
  cases parsed.symm.trans again
  obtain ⟨_, r', again', found', origin'⟩ := (h.next here.ge).scanned i line' own defines'
  cases parsed'.symm.trans again'
  rw [same, found'] at found
  cases found
  have starts := congrArg Routine.start (origin.symm.trans origin')
  have := (Block.index_of_mem_own own).1
  simp only [Definition.entry] at starts
  omega

/-- The routine of some lines waits for no arguments. -/
theorem Room.untemplated (room : Room home self index remaining body ws)
    (h : Situated home self index remaining ws) (rooted : ws.Rooted) :
    ∃ r, ws.routines.get? self.path = some r ∧ r.template = none := by
  cases isGuard : self.kind.isGuard with
  | false =>
    obtain ⟨r, found, direct⟩ := room.direct
    rw [h.within.own isGuard] at found
    exact ⟨r, found, rooted.direct found direct⟩
  | true =>
    obtain ⟨r, found, origin⟩ := h.has
    refine ⟨r, found, rooted.direct found fun defined => ?_⟩
    rw [← Routine.kind_of_origin origin, defined] at isGuard
    cases isGuard

/-- The routine around a guarded block waits for no arguments. -/
theorem Room.untemplated_scope {scope : Path} (room : Room home self index remaining body ws)
    (h : Situated home self index remaining ws) (rooted : ws.Rooted)
    (isGuard : self.kind.isGuard = true) (numbered : self.path = scope.block .guard n) :
    home.segments <+: scope.segments ∧
      ∃ r, ws.routines.get? scope = some r ∧ r.template = none := by
  have front : scope.segments <+: self.path.segments := by
    rw [numbered]
    exact List.prefix_append ..
  have longer := h.within.proper isGuard
  have length : self.path.segments.length = scope.segments.length + 1 := by
    rw [numbered]
    simp [Path.block, Path.child]
  have inside : home.segments <+: scope.segments :=
    List.prefix_of_prefix_length_le h.within.inside front (by omega)
  refine ⟨inside, ?_⟩
  by_cases same : home.segments.length = scope.segments.length
  · have equal : home = scope := by
      rw [Path.mk.injEq]
      exact inside.eq_of_length same
    obtain ⟨r, found, direct⟩ := room.direct
    rw [equal] at found
    exact ⟨r, found, rooted.direct found direct⟩
  · have := inside.length_le
    obtain ⟨r, found, guard⟩ := h.within.guards scope front (by omega)
    refine ⟨r, found, rooted.direct found fun defined => ?_⟩
    rw [defined] at guard
    cases guard

/-- Where the next guarded block is put: below its routine, or beside it as long as the number of
the routine can be read. -/
theorem Room.path_guard (room : Room home self index remaining body ws)
    (h : Situated home self index remaining ws) (rooted : ws.Rooted) :
    Block.path self .guard body.counter = self.path.block .guard body.counter ∧
        (self.kind.isGuard = true → maxUnsigned < self.start) ∨
      self.kind.isGuard = true ∧ ∃ (scope : Path) (n : Nat), self.path = scope.block .guard n ∧
        n ≤ self.start ∧ Block.path self .guard body.counter = scope.block .guard (n + 1) := by
  cases isGuard : self.kind.isGuard with
  | false =>
    obtain ⟨r, found, origin⟩ := h.has
    have other : r.kind.isGuard = false := by
      rw [Routine.kind_of_origin origin, isGuard]
    have path := h.housed.children found other body.counter
    refine .inl ⟨?_, nofun⟩
    rw [← path]
    unfold Block.path
    rw [h.housed.orderly.keyed found]
  | true =>
    obtain ⟨scope, n, numbered, early⟩ := room.numbered isGuard
    have leaf : self.path.leaf = BlockRole.guard.segment n := by
      rw [numbered]
      exact Path.leaf_child ..
    by_cases fits : n ≤ maxUnsigned
    · have ends : self.path.leafBlock? = some (.guard, n) := by
        rw [Path.leafBlock?, leaf, BlockRole.ofSegment?_segment fits]
      have some' : scope.segments ≠ [] := fun none => h.within.some' (List.prefix_nil.1
        (none ▸ (room.untemplated_scope h rooted isGuard numbered).1))
      have parent : self.path.parent? = some scope := by
        rw [numbered]
        exact Path.parent?_child some' _
      refine .inr ⟨rfl, scope, n, numbered, early, ?_⟩
      simp only [Block.path, ends, parent]
    · have ends : self.path.leafBlock? = none := by
        rw [Path.leafBlock?, leaf, BlockRole.ofSegment?_segment_of_lt (by omega)]
      refine .inl ⟨?_, fun _ => by omega⟩
      simp only [Block.path, ends]

end Room

/-! ### Parts of a compilation -/

/-- A part of a compilation is about to begin, and all paths that it will take are free. -/
inductive Task.Clear (home : Path) : Task → Stage → Prop
  | routine {path : Path} {previous : Option Chain} {self : Routine} {body : Body}
      {ws : Workspace} (housed : ws.Housed) (rooted : ws.Rooted)
      (found : ws.routines.get? path = some self) (placed : self.Placed home ws)
      (childless : ∀ name, ws.routines.get? (path.child name) = none)
      (room : Room home self self.start (ws.lines.drop self.start) {} ws) :
      Clear home (.routine path previous) (body, ws)
  | lines {self : Routine} {opens : Bool} {index : Nat} {remaining : List Line} {body : Body}
      {ws : Workspace} (situated : Situated home self index remaining ws) (rooted : ws.Rooted)
      (room : body.asks = false → Room home self index remaining body ws) :
      Clear home (.lines self opens index remaining) (body, ws)
  | statement {self : Routine} {site : Site} {line : Line} {st : Statement} {body : Body}
      {ws : Workspace} (situated : Situated home self site.index (line :: site.following) ws)
      (rooted : ws.Rooted) (here : line.depth = self.depth)
      (parsed : Statement.classify (ws.resolveFunction? self.path) line.text = .ok st)
      (quiet : body.asks = false)
      (room : Room home self site.index (line :: site.following) body ws) :
      Clear home (.statement self site st) (body, ws)
  | rest {block : Path} {self : Routine} {site : Site} {st : Statement} {body : Body}
      {ws : Workspace} (situated : Situated home self (site.index + 1) site.following ws)
      (rooted : ws.Rooted) (within : site.index < ws.lines.length) (quiet : body.asks = false)
      (split : 0 < body.counter) (room : Room home self (site.index + 1) site.following body ws) :
      Clear home (.rest self site st block) (body, ws)

namespace Task.Clear

variable {home path : Path} {previous : Option Chain} {self : Routine} {site : Site}
  {line : Line} {lines : List Line} {index : Nat} {opens opens' : Bool} {st : Statement}
  {body mid : Body} {ws ws₁ ws₂ : Workspace}

theorem sits (h : task.Clear home c) : task.Sits home c := by
  cases h with
  | routine housed _ found placed => exact .routine housed found placed
  | lines situated => exact .lines situated
  | statement situated _ here parsed => exact .statement situated here parsed
  | rest situated => exact .rest situated

theorem housed (h : task.Clear home c) : c.2.Housed :=
  h.sits.housed

theorem rooted (h : task.Clear home c) : c.2.Rooted := by
  cases h with
  | routine _ rooted | lines _ rooted | statement _ rooted | rest _ rooted => exact rooted

theorem has (h : task.Clear home c) : ∀ self, task.self? = some self → c.2.Has self :=
  h.sits.has

/-- The lines of a routine, once its definitions are registered. -/
theorem enter (h : (Task.routine path previous).Clear home (body, ws))
    (found : ws.routines.get? path = some self)
    (enters : Lowering.Enters self (ws.record (.routineStarted path)) ws₁) :
    ws₁.Rooted ∧ Spares home ws ws₁ ∧
      (Task.lines self opens self.start (ws.lines.drop self.start)).Clear home
        ({ locals := Lowering.paramPaths self, previous }, ws₁) := by
  cases h with
  | routine housed rooted found' placed childless room =>
    rw [found] at found'
    cases found'
    have keyed := housed.orderly.keyed found
    obtain ⟨develops, situated⟩ := enters.situated housed found placed
    have adds {q : Path} {r : Routine} (now : ws₁.routines.get? q = some r) :
        ws.routines.get? q = some r ∨ ws.Grafts q r ∧ self.kind.isGuard = false ∧
          ∃ line signature, Signature.parse line = .ok signature ∧
            q = self.path.child signature.name := by
      rcases enters.adds now with old | ⟨other, i, line, signature, own, _, parsed, rfl, rfl⟩
      · exact .inl old
      · have bounds := Block.index_of_mem_own own
        have length : ((ws.record (.routineStarted path)).lines.drop self.start).length =
            ws.lines.length - self.start := List.length_drop ..
        obtain ⟨r, known, direct⟩ := room.direct
        rw [placed.own other] at known
        exact .inr ⟨⟨keyed ▸ childless _, rfl, ⟨by
            show i + 1 ≤ _
            omega, i.succ_pos⟩, self.path, signature.name, r, rfl, known,
          rooted.direct known direct⟩, other, line.text, signature, parsed, rfl⟩
    have kept {q : Path} {r : Routine} (before : ws.routines.get? q = some r) :
        ws₁.routines.get? q = some r := by
      obtain ⟨r', now, _⟩ := develops.kept before
      rcases adds now with same | ⟨graft, _⟩
      · rw [now, ← same, before]
      · rw [graft.free] at before
        cases before
    have rooted₁ : ws₁.Rooted :=
      rooted.of_adds develops.lines kept fun now => (adds now).imp_right And.left
    refine ⟨rooted₁, ⟨fun {q} outside free => ?_⟩, .lines situated rooted₁ fun _ => ?_⟩
    · cases now : ws₁.routines.get? q with
      | none => rfl
      | some =>
        rcases adds now with old | ⟨_, other, _, signature, _, rfl⟩
        · rw [free] at old
          cases old
        · rw [placed.own other, Path.encloses_child] at outside
          cases outside
    · have entered := room.mono develops fun {q} reserved free => by
        cases now : ws₁.routines.get? q with
        | none => rfl
        | some =>
          rcases adds now with old | ⟨_, other, _, signature, parsed, same⟩
          · rw [free] at old
            cases old
          · cases reserved with
            | block _ fits =>
              exact absurd (Path.child_injective same).2.symm
                (Signature.name_ne_segment parsed fits)
            | guard isGuard =>
              rw [other] at isGuard
              cases isGuard
            | inner =>
              have longer := (Path.child_injective same).1
              rw [placed.own other] at longer
              have := congrArg (List.length ∘ Path.segments) longer
              simp [Path.child] at this
      exact ⟨entered.counter, entered.numbered, entered.free, entered.direct⟩

/-- The lines after one that is passed over. -/
theorem pass (h : (Task.lines self opens index (line :: lines)).Clear home (body, ws))
    (here : self.depth ≤ line.depth) :
    (Task.lines self opens' (index + 1) lines).Clear home (body, ws) := by
  cases h with
  | lines situated rooted room =>
    exact .lines (situated.next here) rooted fun quiet => (room quiet).next here

/-- The statement of a line. -/
theorem start (h : (Task.lines self opens index (line :: lines)).Clear home (body, ws))
    (here : line.depth = self.depth) (goesOn : body.asks = false)
    (parsed : Statement.classify (ws.resolveFunction? self.path) line.text = .ok st) :
    (Task.statement self ⟨index, lines⟩ st).Clear home
      ({ body with pending := [] }, ws.record (.lineStarted self.path index line.text)) := by
  cases h with
  | lines situated rooted room =>
    have akin : ws.Akin (ws.record (.lineStarted self.path index line.text)) :=
      .of_routines rfl rfl
    have room := room goesOn
    exact .statement (situated.of_alike (.record ..)) (rooted.of_akin akin) here parsed goesOn
      ⟨room.counter, room.numbered, room.free, room.direct⟩

/-- The lines after a statement. -/
theorem next (h : (Task.lines self opens index (line :: lines)).Clear home (body, ws))
    (here : line.depth = self.depth) (develops : ws.Develops ws₁) (housed : ws₁.Housed)
    (rooted : ws₁.Rooted) (room : mid.asks = false → Room home self (index + 1) lines mid ws₁) :
    (Task.lines self opens' (index + 1) lines).Clear home
      (if st.continuesChain then mid else { mid with previous := none }, ws₁) := by
  cases h with
  | lines situated =>
    refine .lines ((situated.mono develops housed).next here.ge) rooted ?_
    split
    · exact room
    · exact fun quiet => ⟨(room quiet).counter, (room quiet).numbered, (room quiet).free,
        (room quiet).direct⟩

/-- The definition at a line has nothing below it, and nothing that is kept for later lines lies
inside it. -/
theorem callee {name : String} {callee : Path} {routine : Routine}
    (h : (Task.statement self site (.define name)).Clear home (body, ws))
    (resolved : ws.resolveFunction? self.path name = some callee)
    (found : ws.routines.get? callee = some routine) :
    routine.kind = .defined ∧ home.segments <+: callee.segments ∧
      (∀ inner, ws.routines.get? (callee.child inner) = none) ∧
      ∀ {q}, Reserved home self body.counter (site.index + 1) site.following q →
        callee.encloses q = false := by
  cases h with
  | @statement _ _ _ _ _ _ situated _ here parsed _ room =>
    have form := Statement.form_of_block parsed rfl
    obtain ⟨signature, hsignature, rfl, defines, own, origin⟩ :=
      situated.definition here form resolved found
    have outside := situated.not_inside own defines hsignature
    refine ⟨congrArg Routine.kind origin, List.prefix_append ..,
      fun inner => room.free (.inner own defines hsignature),
      fun {q} reserved => ?_⟩
    rw [Bool.eq_false_iff]
    intro encloses
    cases reserved with
    | block => exact outside (Path.of_encloses_child encloses)
    | guard _ numbered =>
      refine outside ((Path.of_encloses_child encloses).trans ?_)
      rw [numbered]
      exact List.prefix_append ..
    | inner own' defines' parsed' =>
      refine situated.name_ne here defines hsignature own' defines' parsed' ?_
      simpa using (List.prefix_append_right_inj home.segments).1
        (Path.of_encloses_child encloses)

/-- The body of a definition. -/
theorem define {name : String} {callee : Path} {routine : Routine}
    (h : (Task.statement self site (.define name)).Clear home (body, ws))
    (resolved : ws.resolveFunction? self.path name = some callee)
    (found : ws.routines.get? callee = some routine) (template : routine.isTemplate = false) :
    (Task.routine callee none).Clear callee (body, ws) := by
  obtain ⟨kind, _, childless, _⟩ := h.callee resolved found
  have other : routine.kind.isGuard = false := by rw [kind]; rfl
  obtain rfl := h.housed.orderly.keyed found
  exact .routine h.housed h.rooted found (Routine.placed_self other) childless
    (.of_childless h.rooted other found (fun _ => template) childless)

/-- Opening a block that may be added. -/
theorem opened (rooted : ws.Rooted) (grafts : ws.Grafts path (Block.routine self site role path)) :
    (Block.opened self site role path ws).Rooted := by
  refine rooted.of_adds rfl (fun {q r} found => ?_) fun {q r} found => ?_
  · rw [Block.get?_opened, if_neg, found]
    rintro rfl
    rw [grafts.free] at found
    cases found
  · rw [Block.get?_opened] at found
    split at found
    · next same =>
      cases found
      exact .inr (same ▸ grafts)
    · exact .inl found

theorem free_opened {q : Path} (other : q ≠ path) (free : ws.routines.get? q = none) :
    (Block.opened self site role path ws).routines.get? q = none := by
  rw [Block.get?_opened, if_neg other, free]

theorem spares_opened (inside : home.encloses path = true) :
    Spares home ws (Block.opened self site role path ws) := by
  refine ⟨fun {q} outside free => free_opened ?_ free⟩
  rintro rfl
  rw [inside] at outside
  cases outside

/-- A block that is opened is inside, and there is nothing in it yet. -/
theorem opened_block {scope : Path} (rooted : ws.Rooted) (free : ws.routines.get? path = none)
    (numbered : path = scope.block role n) (inside : home.segments <+: scope.segments) :
    home.encloses path = true ∧ ∀ name,
      (Block.opened self site role path ws).routines.get? (path.child name) = none := by
  subst numbered
  refine ⟨Path.encloses_iff.2 ⟨?_, inside.trans (List.prefix_append ..)⟩, fun name =>
    free_opened (fun same => ?_) (rooted.childless (by simp [Path.block, Path.child]) free name)⟩
  · have := inside.length_le
    simp only [Path.block, Path.child, List.length_append, List.length_singleton]
    omega
  · have := congrArg (List.length ∘ Path.segments) same
    simp [Path.child] at this

/-- The block under a header. -/
theorem block {role : BlockRole}
    (h : (Task.statement self site st).Clear home (body, ws)) (splits : st.role? = some role)
    (hpath : path = Block.path self role body.counter) (free : ws.routines.get? path = none) :
    home.encloses path = true ∧ (Block.opened self site role path ws).Rooted ∧
      (Task.routine path none).Clear path (mid, Block.opened self site role path ws) := by
  obtain ⟨start, -, other, named⟩ := @Block.routine_of_role? self site st role path splits
  cases h with
  | statement situated rooted _ _ _ room =>
    obtain ⟨_, housed⟩ : ws.Develops (Block.opened self site role path ws) ∧ _ :=
      Block.opened_housed situated.housed situated.has hpath free
    rw [named] at hpath
    obtain ⟨owner, known, template⟩ := room.untemplated situated rooted
    have within : site.index < ws.lines.length :=
      (List.getElem?_eq_some_iff.1 situated.at_index.1).1
    have opens : (Block.opened self site role path ws).Rooted := opened rooted
      ⟨free, rfl, by rw [start]; omega, self.path, _, owner, hpath, known, template⟩
    obtain ⟨encloses, childless⟩ := opened_block rooted free hpath situated.within.inside
    exact ⟨encloses, opens, .routine housed opens Block.get?_opened_self
      (Routine.placed_self other) childless
      (.of_childless opens other Block.get?_opened_self (by rintro ⟨⟩) childless)⟩

/-- What is kept for later lines is apart from the block of a line. -/
theorem outside_block {q : Path} (situated : Situated home self (site.index + 1) site.following ws)
    (hpath : path = self.path.block role n) (free : ws.routines.get? path = none)
    (reserved : Reserved home self (n + 1) (site.index + 1) site.following q) :
    q ≠ path ∧ path.encloses q = false := by
  have length : path.segments.length = self.path.segments.length + 1 := by
    rw [hpath]
    simp [Path.block, Path.child]
  -- a path that is not longer is not inside
  have apart (short : q.segments.length ≤ path.segments.length) : path.encloses q = false := by
    rw [Bool.eq_false_iff, ne_eq, Path.encloses_iff]
    omega
  cases reserved with
  | block =>
    refine ⟨fun same => ?_, apart (by rw [length]; simp [Path.block, Path.child])⟩
    rw [hpath] at same
    have := (BlockRole.segment_injective (Path.child_injective same).2).2
    omega
  | guard _ numbered =>
    have shorter := congrArg (List.length ∘ Path.segments) numbered
    simp only [Function.comp_apply, Path.block, Path.child, List.length_append,
      List.length_singleton] at shorter
    refine ⟨fun same => ?_, apart ?_⟩
    · have := congrArg (List.length ∘ Path.segments) same
      simp only [Function.comp_apply, length, Path.block, Path.child, List.length_append,
        List.length_singleton] at this
      omega
    · rw [length]
      simp only [Path.block, Path.child, List.length_append, List.length_singleton]
      omega
  | @inner i line _ _ own defines parsed =>
    have outside := situated.not_inside own defines parsed
    refine ⟨fun same => ?_, ?_⟩
    · rw [hpath] at same
      exact outside ((Path.child_injective same).1 ▸ List.prefix_rfl)
    · rw [Bool.eq_false_iff]
      intro encloses
      have inside := Path.of_encloses_child encloses
      -- the definition is registered and the block is not
      obtain ⟨_, r, parsed', found, _⟩ := situated.scanned i line own defines
      rw [parsed] at parsed'
      cases parsed'
      rcases Path.prefix_child.1 inside with same | shorter
      · rw [← same, free] at found
        cases found
      · have := shorter.length_le
        have := situated.within.inside.length_le
        omega

/-- The lines after a block. -/
theorem after (h : (Task.statement self site st).Clear home (body, ws))
    (splits : st.role? = some role) (hpath : path = Block.path self role body.counter)
    (free : ws.routines.get? path = none)
    (develops : (Block.opened self site role path ws).Develops ws₁) (housed : ws₁.Housed)
    (rooted : ws₁.Rooted) (spares : Spares path (Block.opened self site role path ws) ws₁)
    (heads : Block.Heads self path st ({ body with counter := body.counter + 1 }, ws₁)
      (mid, ws₂)) : (Task.rest self site st path).Clear home (mid, ws₂) := by
  cases h with
  | statement situated _ here _ quiet room =>
    obtain ⟨opens, _⟩ : ws.Develops (Block.opened self site role path ws) ∧ _ :=
      Block.opened_housed situated.housed situated.has hpath free
    rw [(@Block.routine_of_role? self site st role path splits).2.2.2] at hpath
    obtain ⟨reworks, exit, skip, -, (counter : mid.counter = body.counter + 1)⟩ := heads.reworks
    have within : site.index < ws.lines.length :=
      (List.getElem?_eq_some_iff.1 situated.at_index.1).1
    have forth : ws.Develops ws₂ := (opens.trans develops).trans reworks.alike.develops
    have after := situated.next here.ge
    have count : mid.counter + self.start ≤ site.index + 1 := by
      have := room.counter
      omega
    refine .rest (after.mono forth (housed.of_alike reworks.alike))
      (rooted.of_akin (.of_reworks reworks)) (by rw [forth.lines]; exact within) ?_ ?_ ?_
    · rw [Body.asks, exit, skip]
      exact quiet
    · rw [counter]
      exact Nat.succ_pos _
    · refine ((room.next here.ge).count count ?_).mono forth fun {q} reserved free' => ?_
      · rw [counter]
        exact Nat.le_succ _
      · rw [counter] at reserved
        obtain ⟨other, outside⟩ := outside_block after hpath free reserved
        exact (Akin.of_reworks reworks).free (spares.stays outside (free_opened other free'))

/-- The guarded block with the rest of the lines. -/
theorem guard {block : Path} (h : (Task.rest self site st block).Clear home (body, ws))
    (hpath : path = Block.path self .guard body.counter) (free : ws.routines.get? path = none) :
    home.encloses path = true ∧ (Block.opened self site .guard path ws).Rooted ∧
      (Task.routine path body.previous).Clear home
        (mid, Block.opened self site .guard path ws) := by
  cases h with
  | rest situated rooted within _ _ room =>
    obtain ⟨develops, housed⟩ : ws.Develops (Block.opened self site .guard path ws) ∧ _ :=
      Block.opened_housed situated.housed situated.has hpath free
    obtain ⟨beyond, placed⟩ := situated.placed_guard hpath free
    have bound : Block.size (self.depth + 1) site.following ≤ site.following.length :=
      (List.takeWhile_prefix _).length_le
    have length : site.following.length = ws.lines.length - (site.index + 1) := by
      rw [← situated.here, List.length_drop]
    have start : (Block.routine self site .guard path).start =
        site.index + 1 + Block.size (self.depth + 1) site.following := Block.start_guard self site
    have early := room.counter
    -- the routine below which the guarded block is put, its number, and what is behind it
    obtain ⟨scope, n, owner, numbered, low, inside, around, known, template, further⟩ :
        ∃ (scope : Path) (n : Nat) (owner : Routine), path = scope.block .guard n ∧
          n ≤ (Block.routine self site .guard path).start ∧ home.segments <+: scope.segments ∧
          scope.segments <+: self.path.segments ∧ ws.routines.get? scope = some owner ∧
          owner.template = none ∧ ∀ m, n < m → m ≤ maxUnsigned →
            ws.routines.get? (scope.block .guard m) = none := by
      rcases room.path_guard situated rooted with ⟨below, _⟩ |
        ⟨isGuard, scope, n, numbered, low, beside⟩
      · obtain ⟨owner, known, template⟩ := room.untemplated situated rooted
        exact ⟨self.path, body.counter, owner, hpath.trans below, by omega,
          situated.within.inside, List.prefix_rfl, known, template,
          fun m later fits => room.free (.block later.le fits)⟩
      · obtain ⟨inside, owner, known, template⟩ :=
          room.untemplated_scope situated rooted isGuard numbered
        refine ⟨scope, n + 1, owner, hpath.trans beside, by omega, inside, ?_, known, template,
          fun m later fits => room.free (.guard isGuard numbered (by omega) fits)⟩
        rw [numbered]
        exact List.prefix_append ..
    have opens : (Block.opened self site .guard path ws).Rooted := opened rooted
      ⟨free, rfl, by omega, scope, _, owner, numbered, known, template⟩
    obtain ⟨encloses, childless⟩ := opened_block rooted free numbered inside
    refine ⟨encloses, opens, .routine housed opens Block.get?_opened_self placed childless
      ⟨by simp, fun _ => ⟨scope, n, numbered, low⟩, fun {q} reserved => ?_, ?_⟩⟩
    · cases reserved with
      | block => exact childless _
      | guard _ numbered' later fits =>
        obtain ⟨rfl, segments⟩ := Path.child_injective (numbered'.symm.trans numbered)
        obtain ⟨_, rfl⟩ := BlockRole.segment_injective segments
        refine free_opened (fun same => ?_) (further _ later fits)
        rw [numbered] at same
        have := (BlockRole.segment_injective (Path.child_injective same).2).2
        omega
      | @inner i line _ _ own defines parsed =>
        rw [develops.lines, beyond, start] at own
        have own : (i, line) ∈ Block.own self.depth (site.index + 1) site.following := by
          rw [Block.own_beyond]
          exact own
        refine free_opened (fun same => ?_) (room.free (.inner own defines parsed))
        rw [numbered] at same
        exact situated.not_inside own defines parsed ((Path.child_injective same).1 ▸ around)
    · obtain ⟨r, found, direct⟩ := room.direct
      obtain ⟨r', found', origin⟩ := develops.kept found
      exact ⟨r', found', direct.of_origin origin⟩

end Task.Clear

/-- A definition begins to wait for its arguments. -/
theorem Workspace.Rooted.defer {ws : Workspace} {callee : Path} {routine : Routine}
    {symbols : Symbols} (h : ws.Rooted) (found : ws.routines.get? callee = some routine)
    (defined : routine.kind = .defined) (template : routine.isTemplate = true)
    (childless : ∀ name, ws.routines.get? (callee.child name) = none) :
    (ws.updateRoutine callee ({ · with template := some { symbols } })).Rooted := by
  have before {q : Path} {r : Routine} (now : (ws.updateRoutine callee
      ({ · with template := some { symbols } })).routines.get? q = some r) :
      ∃ r₀, ws.routines.get? q = some r₀ ∧ r.origin = r₀.origin ∧
        (q ≠ callee → r.template = r₀.template) := by
    obtain ⟨r₀, found₀, rfl⟩ := found_before now
    refine ⟨r₀, found₀, ?_, fun other => by rw [if_neg other]⟩
    split <;> rfl
  constructor
  · intro q r now
    obtain ⟨r₀, found₀, origin, _⟩ := before now
    rw [Routine.start_of_origin origin, Routine.kind_of_origin origin]
    exact h.anchored found₀
  · intro q r name some' now
    obtain ⟨_, found₀, _⟩ := before now
    obtain ⟨parent, known⟩ := h.parents some' found₀
    exact ⟨_, by rw [updateRoutine, Table.get?_modify, known, Option.map_some]⟩
  · intro q r _ now isTemplate
    obtain ⟨r₀, found₀, origin, same⟩ := before now
    rw [Routine.isTemplate, Routine.kind_of_origin origin, Routine.params_of_origin origin]
    by_cases here : q = callee
    · rw [here, found] at found₀
      cases found₀
      exact ⟨defined, template⟩
    · exact h.deferred found₀ (same here ▸ isTemplate)
  · intro q r inner _ name now isTemplate nowInner
    obtain ⟨r₀, found₀, _, same⟩ := before now
    obtain ⟨inner₀, foundInner, _⟩ := before nowInner
    by_cases here : q = callee
    · rw [here, childless] at foundInner
      cases foundInner
    · exact h.counted found₀ (same here ▸ isTemplate) foundInner

/-- What a statement leaves for the lines after it, unless it leaves a request. -/
def Task.Leaves (home : Path) : Task → Stage → Prop
  | .statement self site _, c | .rest self site _ _, c =>
    c.1.asks = false → Room home self (site.index + 1) site.following c.1 c.2
  | _, _ => True

/-- A compilation that has room adds routines inside its block only, and leaves room for what comes
after it. -/
theorem Ran.rooted {c' : Stage} {visits : List Visit} (ran : Ran task c visits c') :
    ∀ {home}, task.Clear home c →
      c'.2.Rooted ∧ Spares home c.2 c'.2 ∧ task.Leaves home c' := by
  induction ran with
  | @skip path _ _ ws self =>
    intro home clear
    have started : ws.Akin (ws.record (.routineStarted path)) := .of_routines rfl rfl
    have akin := started.trans (.of_stored self {} _)
    exact ⟨clear.rooted.of_akin akin, .of_akin akin, trivial⟩
  | @run _ _ _ result _ _ ws₂ self _ _ _ found starts _ enters _ ih =>
    intro home clear
    obtain ⟨_, entered, inside⟩ := clear.enter found enters
    obtain ⟨rooted, spares, _⟩ := ih (starts ▸ inside)
    have released : ws₂.Akin (Lowering.releaseLocals ws₂ result.locals) :=
      .of_routines (Lowering.releaseLocals_kept ..).1 (Lowering.releaseLocals_kept ..).2.1
    have akin := released.trans (.of_stored self result _)
    exact ⟨rooted.of_akin akin, (entered.trans spares).trans (.of_akin akin), trivial⟩
  | nil | leave | quiet => exact fun clear => ⟨clear.rooted, .refl .., trivial⟩
  | deeper deeper _ ih => exact fun clear => ih (clear.pass deeper.le)
  | @step self _ index line _ _ _ ws _ _ _ _ _ here goesOn parsed statement _ ihStatement ihAfter =>
    intro home clear
    have begun := clear.start here goesOn parsed
    obtain ⟨rooted, spares, leaves⟩ := ihStatement begun
    obtain ⟨develops, housed⟩ := statement.housed begun.housed begun.has
    have recorded := Alike.record ws (.lineStarted self.path index line.text)
    obtain ⟨rooted', spares', _⟩ :=
      ihAfter (clear.next here (recorded.develops.trans develops) housed rooted leaves)
    exact ⟨rooted', .trans ⟨spares.stays⟩ spares', trivial⟩
  | @plain _ _ _ _ _ _ ws ws' plain calls gives =>
    intro home clear
    have kept := (Lowering.effects_plain plain calls gives).kept
    have akin : ws.Akin ws' := .of_routines kept.routines kept.lines
    cases clear with
    | statement _ rooted here _ _ room =>
      have develops := kept.alike.develops
      refine ⟨rooted.of_akin akin, .of_akin akin, fun _ => ?_⟩
      have later := room.next here.ge
      exact (later.count (kept.counter ▸ later.counter) kept.counter.ge).mono develops
        fun _ => akin.free
  | exit => exact fun clear => ⟨clear.rooted, .refl .., by rintro ⟨⟩⟩
  | next =>
    refine fun clear => ⟨clear.rooted, .refl .., fun quiet => ?_⟩
    simp [Body.asks] at quiet
  | @defer _ _ _ _ ws callee _ resolved found template =>
    intro home clear
    obtain ⟨defined, _, childless, _⟩ := clear.callee resolved found
    have rooted : (ws.updateRoutine callee
        ({ · with template := some { symbols := ws.symbols } })).Rooted :=
      clear.rooted.defer found defined template childless
    have free {q : Path} (free : ws.routines.get? q = none) : (ws.updateRoutine callee
        ({ · with template := some { symbols := ws.symbols } })).routines.get? q = none := by
      rw [updateRoutine, Table.get?_modify, free, Option.map_none]
    refine ⟨rooted.of_akin (.of_routines rfl rfl), ⟨fun _ => free⟩, fun _ => ?_⟩
    cases clear with
    | statement _ _ here _ _ room =>
      exact (room.next here.ge).mono (Alike.deferred ..).develops fun _ => free
  | @define _ _ _ _ _ ws' callee _ _ resolved found template compiled ih =>
    intro home clear
    obtain ⟨_, inside, _, outside⟩ := clear.callee resolved found
    have begun := clear.define resolved found template
    obtain ⟨rooted, spares, _⟩ := ih begun
    obtain ⟨develops, _⟩ := compiled.housed begun.housed begun.has
    have used : ws'.Akin (ws'.updateRoutine callee ({ · with used := true })) :=
      .of_update callee fun _ => rfl
    refine ⟨rooted.of_akin used, (spares.widen inside).trans (.of_akin used), fun _ => ?_⟩
    cases clear with
    | statement _ _ here _ _ room =>
      exact (room.next here.ge).mono (develops.trans (Alike.used ..).develops) fun reserved free =>
        used.free (spares.stays (outside reserved) free)
  | @block _ _ _ _ _ _ _ _ ws₁ ws₂ _ _ _ splits hpath free compiled heads _ ihCompiled ihRest =>
    intro home clear
    obtain ⟨within, _, begun⟩ := clear.block splits hpath free
    obtain ⟨rooted, spares, _⟩ := ihCompiled begun
    obtain ⟨develops, housed⟩ := compiled.housed begun.housed begun.has
    obtain ⟨rooted', spares', leaves⟩ :=
      ihRest (clear.after splits hpath free develops housed rooted spares heads)
    have headed : Spares home ws₁ ws₂ := .of_akin (.of_reworks heads.reworks.1)
    exact ⟨rooted', (((Task.Clear.spares_opened within).trans
      (spares.widen (Path.encloses_iff.1 within).2)).trans headed).trans spares', leaves⟩
  | unguarded =>
    intro home clear
    cases clear with
    | rest _ rooted _ _ _ room => exact ⟨rooted, .refl .., fun _ => room⟩
  | @guarded _ _ _ _ guard _ inner rest body _ mid _ _ _ _ _ _ asks hasking hpath free _ _ hmid
      ih =>
    intro home clear
    obtain ⟨within, _, begun⟩ := clear.guard hpath free
    obtain ⟨rooted, spares, _⟩ := ih begun
    refine ⟨rooted, (Task.Clear.spares_opened within).trans spares, fun quiet => ?_⟩
    have still := @Body.asks_of_inner inner rest body mid asks
      (by rw [hmid, hasking]; split <;> rfl) (by rw [hmid, hasking]; split <;> rfl)
    cases still.symm.trans quiet

end CommandPack
