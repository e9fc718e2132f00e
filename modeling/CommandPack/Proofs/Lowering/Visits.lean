import CommandPack.Proofs.Lowering.Scopes

/-!
# The lines that a compilation comes to

A compilation goes through the lines from the first to the last, whichever routine a line ends
up in, and comes to none of them twice. It comes to all of them if no loop is left early, no
definition waits for string arguments, and only headers end in a colon.
-/

namespace CommandPack

open Workspace BodyM Lowering Definition Statement Block

variable {line : Line} {home : Path} {self : Routine} {ws : Workspace} {c c' : Stage}
  {visits : List Visit}
variable {p : Statement → Bool} {site : Site} {index n : Nat} {name : String} {lines : List Line}
  {task : Task}

/-! ### Headers and requests -/

/-- The statements that a block may stand under. -/
def Statement.isHeader : Statement → Bool
  | define _ | branch _ | otherwise _ | times _ | loop .. => true
  | _ => false

/-- The statements that ask to leave the loop or to start its next round. -/
def Statement.isRequest : Statement → Bool
  | exitLoop | nextRound => true
  | _ => false

namespace Line

/-- Whether a line has a form with some property. -/
def hasForm (p : Statement → Bool) (line : Line) : Bool :=
  match form line.text with
  | .ok st => p st
  | .error _ => false

def isHeader (line : Line) : Bool :=
  line.hasForm Statement.isHeader

def isRequest (line : Line) : Bool :=
  line.hasForm Statement.isRequest

/-- Whether a line defines a function with a string parameter. -/
def takesStrings (line : Line) : Bool :=
  decide line.defines && match Signature.parse line.text with
    | .ok signature => signature.params.any fun param => param.kind.isString
    | .error _ => false

theorem hasForm_of_form {st : Statement} (form : form line.text = .ok st) :
    line.hasForm p = p st := by
  rw [hasForm, form]

/-- A property that tells no call from a command depends on the form of a line only. -/
theorem hasForm_of_classify (calls : ∀ callee arguments text,
      p (.call callee arguments) = p (.command text)) {resolve : String → Option Path}
    {st : Statement} (parsed : classify resolve line.text = .ok st) : line.hasForm p = p st := by
  rcases form_of_classify parsed with form | ⟨⟨callee, _, rfl⟩, form⟩
  · exact hasForm_of_form form
  · rw [hasForm_of_form form]
    exact (calls ..).symm

end Line

/-- Lines that are all compiled when they are reached, with blocks under headers only. -/
structure Straight (lines : List Line) : Prop where
  requests : ∀ line ∈ lines, line.isRequest = false
  strings : ∀ line ∈ lines, line.takesStrings = false
  colons : ∀ line ∈ lines, Text.endsWith ":" line.text = true → line.isHeader = true

/-- If the line after the line at a position is deeper, then the two are a header and the first
line of its block. -/
def Headed (lines : List Line) (index : Nat) : Prop :=
  ∀ line next, lines[index]? = some line → lines[index + 1]? = some next →
    line.depth < next.depth → line.isHeader = true ∧ next.depth = line.depth + 1

/-! ### Lines one after the other -/

/-- The number of lines from the front on that are at least as deep as a block. -/
def Block.size (depth : Nat) (lines : List Line) : Nat :=
  (lines.takeWhile (depth ≤ ·.depth)).length

section Size

variable {depth : Nat} {line : Line} {lines : List Line}

theorem Block.size_up (up : line.depth < depth) : size depth (line :: lines) = 0 := by
  simp [size, Nat.not_le.2 up]

theorem Block.size_here (here : depth ≤ line.depth) :
    size depth (line :: lines) = size depth lines + 1 := by
  simp [size, here]

theorem Block.size_succ_le (depth : Nat) (lines : List Line) :
    size (depth + 1) lines ≤ size depth lines := by
  induction lines with
  | nil => exact le_rfl
  | cons line =>
    by_cases deeper : depth + 1 ≤ line.depth
    · rw [size_here deeper, size_here (by omega)]
      omega
    · rw [size_up (by omega)]
      exact Nat.zero_le _

/-- The lines of a block after the block under one of them. -/
theorem Block.size_beyond (depth : Nat) (lines : List Line) :
    size depth (lines.drop (size (depth + 1) lines)) =
      size depth lines - size (depth + 1) lines := by
  induction lines with
  | nil => rfl
  | cons line _ ih =>
    by_cases deeper : depth + 1 ≤ line.depth
    · rw [size_here deeper, size_here (by omega), List.drop_succ_cons, ih]
      omega
    · rw [size_up (by omega), List.drop_zero, Nat.sub_zero]

theorem Block.size_eq_zero (ends : ∀ line ∈ lines.head?, line.depth < depth) :
    size depth lines = 0 := by
  cases lines with
  | nil => rfl
  | cons line => exact size_up (ends line rfl)

/-- The lines under one of the lines of a block are no lines of its own. -/
theorem Block.own_beyond (depth index : Nat) (lines : List Line) :
    own depth index lines = own depth (index + size (depth + 1) lines)
      (lines.drop (size (depth + 1) lines)) := by
  induction lines generalizing index with
  | nil => rfl
  | cons line _ ih =>
    by_cases deeper : depth + 1 ≤ line.depth
    · rw [size_here deeper, List.drop_succ_cons, own, if_neg (by omega),
        if_pos (by omega), ih, Nat.add_assoc, Nat.add_comm 1]
    · rw [size_up (by omega), List.drop_zero, Nat.add_zero]

theorem Block.start_guard (self : Routine) (site : Site) :
    start self site .guard = site.index + 1 + size (self.depth + 1) site.following :=
  rfl

end Size

/-- Some lines from a position on are visited, in their order, and under the conditions of
`Straight` all of them. -/
structure Tour (lines : List Line) (visits : List Visit) (first size : Nat) : Prop where
  ordered : (visits.map Visit.index).Sublist (List.range' first size)
  complete : Straight lines → visits.map Visit.index = List.range' first size ∧
    ∀ i, first ≤ i → i < first + size → Headed lines i

namespace Tour

variable {lines : List Line} {visits later : List Visit} {first size more : Nat}

/-- No line is left. -/
theorem nil : Tour lines [] first 0 :=
  ⟨.slnil, fun _ => ⟨rfl, fun i _ _ => by omega⟩⟩

/-- Lines that are passed over. -/
theorem passed (never : Straight lines → size = 0) : Tour lines [] first size :=
  ⟨List.nil_sublist _, fun straight => by
    rw [never straight]
    exact ⟨rfl, fun i _ _ => by omega⟩⟩

theorem append (h : Tour lines visits first size) (h' : Tour lines later (first + size) more) :
    Tour lines (visits ++ later) first (size + more) := by
  constructor
  · rw [List.map_append, ← List.range'_append_1]
    exact h.ordered.append h'.ordered
  · intro straight
    obtain ⟨all, headed⟩ := h.complete straight
    obtain ⟨all', headed'⟩ := h'.complete straight
    refine ⟨by rw [List.map_append, all, all', List.range'_append_1], fun i low high => ?_⟩
    by_cases inside : i < first + size
    · exact headed i low inside
    · exact headed' i (by omega) (by omega)

/-- A line that is visited. -/
theorem visit {visit : Visit} (index : visit.index = first)
    (headed : Straight lines → Headed lines first) : Tour lines [visit] first 1 := by
  refine ⟨by simp [index], fun straight => ⟨by simp [index], fun i low high => ?_⟩⟩
  obtain rfl : i = first := by omega
  exact headed straight

end Tour

/-! ### Lines of a block -/

/-- A routine is at some lines of the block of `home`. -/
structure Situated (home : Path) (routine : Routine) (index : Nat) (remaining : List Line)
    (ws : Workspace) : Prop where
  housed : ws.Housed
  has : ws.Has routine
  within : routine.Within home ws
  here : ws.lines.drop index = remaining
  scanned : Scanned home routine.depth index remaining ws

section Situated

variable {home : Path} {self : Routine} {index : Nat} {line : Line} {remaining : List Line}
  {ws ws' : Workspace}

theorem Situated.mono (h : Situated home self index remaining ws) (develops : ws.Develops ws')
    (housed : ws'.Housed) : Situated home self index remaining ws' where
  housed := housed
  has := develops.has h.has
  within := h.within.mono develops
  here := by rw [develops.lines, h.here]
  scanned := h.scanned.mono develops

theorem Situated.of_alike (h : Situated home self index remaining ws) (alike : Alike ws ws') :
    Situated home self index remaining ws' :=
  h.mono alike.develops (h.housed.of_alike alike)

/-- Going on to the next line. -/
theorem Situated.next (h : Situated home self index (line :: remaining) ws)
    (here : self.depth ≤ line.depth) : Situated home self (index + 1) remaining ws :=
  { h with
    here := by rw [← List.drop_drop, h.here, List.drop_one, List.tail_cons]
    scanned := by
      intro i own mem defines
      refine h.scanned i own ?_ defines
      rw [Block.own, if_neg (Nat.not_lt.2 here)]
      split
      · exact mem
      · exact List.mem_cons_of_mem _ mem }

theorem Situated.mem (h : Situated home self index (line :: remaining) ws) : line ∈ ws.lines := by
  apply List.mem_of_mem_drop (i := index)
  rw [h.here]
  exact .head _

theorem Situated.not_straight {st : Statement} (h : Situated home self index (line :: remaining) ws)
    (form : Statement.form line.text = .ok st) (request : st.isRequest = true) :
    ¬ Straight ws.lines := by
  intro straight
  have none := straight.requests line h.mem
  rw [Line.isRequest, Line.hasForm_of_form form, request] at none
  cases none

theorem Situated.at_index (h : Situated home self index (line :: remaining) ws) :
    ws.lines[index]? = some line ∧ ws.lines[index + 1]? = remaining.head? := by
  constructor
  · rw [← List.head?_drop, h.here]
    rfl
  · rw [← List.head?_drop, ← List.drop_drop, h.here]
    rfl

/-- A routine that is about to be compiled has lines of the block of `home`. -/
structure Routine.Placed (routine : Routine) (home : Path) (ws : Workspace) : Prop where
  own : routine.kind.isGuard = false → home = routine.path
  guard : routine.kind.isGuard = true → routine.Within home ws ∧
    Scanned home routine.depth routine.start (ws.lines.drop routine.start) ws

/-- A routine that is no guarded block is the first one of its block. -/
theorem Routine.placed_self (other : self.kind.isGuard = false) : self.Placed self.path ws :=
  ⟨fun _ => rfl, fun guard => by
    rw [other] at guard
    cases guard⟩

/-- The lines of a body, before the first of them. -/
theorem Lowering.Enters.situated {path : Path} {ws₁ : Workspace} (housed : ws.Housed)
    (found : ws.routines.get? path = some self) (placed : self.Placed home ws)
    (enters : Enters self (ws.record (.routineStarted path)) ws₁) :
    ws.Develops ws₁ ∧ Situated home self self.start (ws.lines.drop self.start) ws₁ := by
  have started := Alike.record ws (.routineStarted path)
  have has : ws.Has self := ⟨self, by rw [housed.orderly.keyed found, found], rfl⟩
  obtain ⟨entered, housed₁, scans⟩ :=
    enters.housed (housed.of_alike started) (started.develops.has has)
  have develops := started.develops.trans entered
  have here : ws₁.lines.drop self.start = ws.lines.drop self.start := by rw [develops.lines]
  refine ⟨develops, ?_⟩
  cases guard : self.kind.isGuard with
  | true =>
    obtain ⟨within, scanned⟩ := placed.guard guard
    exact ⟨housed₁, develops.has has, within.mono develops, here, scanned.mono develops⟩
  | false =>
    rw [placed.own guard]
    exact ⟨housed₁, develops.has has,
      Routine.within_self guard (has.below housed.orderly).ne_nil, here, (scans guard).1⟩

/-- The guarded block of a routine has the lines after the block under the current line. -/
theorem Situated.placed_guard {guard : Path}
    (h : Situated home self (site.index + 1) site.following ws) (hpath : guard = path self .guard n)
    (free : ws.routines.get? guard = none) :
    ws.lines.drop (routine self site .guard guard).start =
        site.following.drop (size (self.depth + 1) site.following) ∧
      (routine self site .guard guard).Placed home
        (opened self site .guard guard ws) := by
  have beyond : ws.lines.drop (routine self site .guard guard).start =
      site.following.drop (size (self.depth + 1) site.following) := by
    rw [show (routine self site .guard guard).start = _ from start_guard self site,
      ← List.drop_drop, h.here]
  obtain ⟨opened, _⟩ : ws.Develops (opened self site .guard guard ws) ∧ _ :=
    opened_housed h.housed h.has hpath free
  refine ⟨beyond, nofun, fun _ => ⟨h.within.guarded h.housed h.has hpath free, ?_⟩⟩
  have scanned := h.scanned.mono opened
  rw [Scanned, own_beyond] at scanned
  rw [opened.lines, beyond]
  exact scanned

end Situated

/-- A line that is read as a definition starts like one. -/
theorem Situated.defines (h : Situated home self index (line :: lines) ws)
    (form : form line.text = .ok (.define name)) : line.defines := by
  have head := (of_form_define form).1
  rwa [h.housed.orderly.trimmed line h.mem] at head

theorem Situated.own_here (_ : Situated home self index (line :: lines) ws)
    (here : line.depth = self.depth) : (index, line) ∈ own self.depth index (line :: lines) := by
  rw [own, if_neg (by omega), if_neg (by omega)]
  exact .head _

/-- The definition at a line is registered, and if the root is a single name, it is found. -/
theorem Situated.finds (h : Situated home self index (line :: lines) ws)
    (here : line.depth = self.depth) (defines : line.defines) :
    ∃ signature r, Signature.parse line.text = .ok signature ∧
      ws.routines.get? (home.child signature.name) = some r ∧
      r.origin = entry home self.depth index signature ∧
      ws.resolveFunction? self.path signature.name =
        if '.' ∈ Text.chars ws.settings.root then none else some (home.child signature.name) :=
  h.scanned.resolveFunction? h.housed h.has h.within (h.own_here here) defines

/-- The definition at a line is compiled from the lines under it. -/
theorem Situated.callee {callee : Path} {routine : Routine}
    (h : Situated home self site.index (line :: site.following) ws) (here : line.depth = self.depth)
    (form : form line.text = .ok (.define name))
    (resolved : ws.resolveFunction? self.path name = some callee)
    (found : ws.routines.get? callee = some routine) :
    ∃ signature, Signature.parse line.text = .ok signature ∧
      callee = home.child signature.name ∧
      routine.origin = entry home self.depth site.index signature := by
  obtain ⟨signature, r, parsed, known, origin, resolves⟩ := h.finds here (h.defines form)
  obtain rfl := name_of_define (h.housed.orderly.trimmed line h.mem) form parsed
  rw [resolved] at resolves
  split at resolves <;> cases resolves
  rw [found] at known
  cases known
  exact ⟨signature, parsed, rfl, origin⟩

/-! ### Where a part of a compilation begins -/

/-- What a statement splits off is no guarded block and has the lines under the header. -/
theorem Block.routine_of_role? {st : Statement} {role : BlockRole} {path : Path}
    (splits : st.role? = some role) :
    (Block.routine self site role path).start = site.index + 1 ∧
      (Block.routine self site role path).depth = self.depth + 1 ∧
      (Block.routine self site role path).kind.isGuard = false ∧
      ∀ n, Block.path self role n = self.path.block role n := by
  cases st <;> cases splits <;> exact ⟨rfl, rfl, rfl, Block.path_of_ne_guard (by decide)⟩

/-- A part of a compilation is about to begin, at lines of the block of `home`. -/
inductive Task.Sits (home : Path) : Task → Stage → Prop
  | routine {path : Path} {previous : Option Chain} {self : Routine} {body : Body}
      {ws : Workspace} (housed : ws.Housed) (found : ws.routines.get? path = some self)
      (placed : self.Placed home ws) : Sits home (.routine path previous) (body, ws)
  | lines {self : Routine} {opens : Bool} {index : Nat} {remaining : List Line} {body : Body}
      {ws : Workspace} (situated : Situated home self index remaining ws) :
      Sits home (.lines self opens index remaining) (body, ws)
  | statement {self : Routine} {site : Site} {line : Line} {st : Statement} {body : Body}
      {ws : Workspace} (situated : Situated home self site.index (line :: site.following) ws)
      (here : line.depth = self.depth)
      (parsed : classify (ws.resolveFunction? self.path) line.text = .ok st) :
      Sits home (.statement self site st) (body, ws)
  | rest {block : Path} {self : Routine} {site : Site} {st : Statement} {body : Body}
      {ws : Workspace} (situated : Situated home self (site.index + 1) site.following ws) :
      Sits home (.rest self site st block) (body, ws)

namespace Task.Sits

variable {home path : Path} {previous : Option Chain} {self : Routine} {site : Site} {line : Line}
  {lines : List Line} {index : Nat} {opens opens' : Bool} {st : Statement} {role : BlockRole}
  {body mid waiting : Body} {ws ws₁ ws₂ : Workspace} {task : Task} {c c' : Stage}
  {visits : List Visit}

theorem housed (h : task.Sits home c) : c.2.Housed := by
  cases h with
  | routine housed => exact housed
  | lines situated | statement situated | rest situated => exact situated.housed

theorem has (h : task.Sits home c) : ∀ self, task.self? = some self → c.2.Has self := by
  cases h with
  | routine => rintro _ ⟨⟩
  | lines situated | statement situated | rest situated =>
    rintro _ ⟨⟩
    exact situated.has

theorem ran (h : task.Sits home c) (ran : Ran task c visits c') :
    c.2.Develops c'.2 ∧ c'.2.Housed :=
  ran.housed h.housed h.has

theorem situated (h : (Task.lines self opens index lines).Sits home c) :
    Situated home self index lines c.2 := by
  cases h with
  | lines situated => exact situated

theorem at_line (h : (Task.statement self site st).Sits home c) :
    ∃ line, Situated home self site.index (line :: site.following) c.2 ∧
      line.depth = self.depth ∧
      classify (c.2.resolveFunction? self.path) line.text = .ok st := by
  cases h with
  | statement situated here parsed => exact ⟨_, situated, here, parsed⟩

theorem situated_rest {block : Path} (h : (Task.rest self site st block).Sits home c) :
    Situated home self (site.index + 1) site.following c.2 := by
  cases h with
  | rest situated => exact situated

theorem placed (h : (Task.routine path previous).Sits home c)
    (found : c.2.routines.get? path = some self) : self.Placed home c.2 := by
  cases h with
  | routine _ found' placed =>
    cases found.symm.trans found'
    exact placed

/-- The lines of a routine, once its definitions are registered. -/
theorem enter (h : (Task.routine path previous).Sits home (body, ws))
    (found : ws.routines.get? path = some self) (starts : ws.lines.drop self.start = lines)
    (enters : Enters self (ws.record (.routineStarted path)) ws₁) :
    ws.Develops ws₁ ∧ (Task.lines self opens self.start lines).Sits home (mid, ws₁) := by
  obtain ⟨develops, situated⟩ := enters.situated h.housed found (h.placed found)
  exact ⟨develops, .lines (starts ▸ situated)⟩

/-- The lines after one that is passed over. -/
theorem pass (h : (Task.lines self opens index (line :: lines)).Sits home c)
    (here : self.depth ≤ line.depth) : (Task.lines self opens' (index + 1) lines).Sits home c :=
  .lines (h.situated.next here)

/-- The statement of a line. -/
theorem start (h : (Task.lines self opens index (line :: lines)).Sits home (body, ws))
    (here : line.depth = self.depth)
    (parsed : classify (ws.resolveFunction? self.path) line.text = .ok st) :
    (Task.statement self ⟨index, lines⟩ st).Sits home
      (mid, ws.record (.lineStarted self.path index line.text)) :=
  .statement (h.situated.of_alike (.record ..)) here parsed

/-- The lines after a statement. -/
theorem next (h : (Task.lines self opens index (line :: lines)).Sits home (body, ws))
    (here : line.depth = self.depth)
    (parsed : classify (ws.resolveFunction? self.path) line.text = .ok st)
    (ran : Ran (.statement self ⟨index, lines⟩ st)
      (waiting, ws.record (.lineStarted self.path index line.text)) visits c') :
    ws.Develops c'.2 ∧ (Task.lines self opens' (index + 1) lines).Sits home (mid, c'.2) := by
  obtain ⟨develops, housed⟩ := (h.start here parsed).ran ran
  have develops := (Alike.record ws (.lineStarted self.path index line.text)).develops.trans develops
  exact ⟨develops, .lines ((h.situated.mono develops housed).next here.ge)⟩

/-- The body of a definition. -/
theorem define {name : String} {callee : Path} {routine : Routine}
    (h : (Task.statement self site (.define name)).Sits home (body, ws))
    (resolved : ws.resolveFunction? self.path name = some callee)
    (found : ws.routines.get? callee = some routine) :
    (Task.routine callee none).Sits callee (mid, ws) ∧ ∃ line signature,
      Signature.parse line = .ok signature ∧ callee = home.child signature.name ∧
      routine.origin = entry home self.depth site.index signature := by
  obtain ⟨line, situated, here, parsed⟩ := h.at_line
  obtain ⟨signature, hsignature, hcallee, origin⟩ :=
    situated.callee here (form_of_block parsed rfl) resolved found
  have placed : routine.Placed callee ws :=
    situated.housed.orderly.keyed found ▸ Routine.placed_self (by
      rw [show routine.kind = .defined from congrArg Routine.kind origin]
      rfl)
  exact ⟨.routine situated.housed found placed, _, signature, hsignature, hcallee, origin⟩

/-- The block under a header. -/
theorem block (h : (Task.statement self site st).Sits home (body, ws))
    (splits : st.role? = some role) (hpath : path = Block.path self role body.counter)
    (free : ws.routines.get? path = none) :
    ws.Develops (Block.opened self site role path ws) ∧
      (Task.routine path none).Sits path (mid, Block.opened self site role path ws) := by
  obtain ⟨opened, housed⟩ : ws.Develops (Block.opened self site role path ws) ∧ _ :=
    Block.opened_housed h.housed (h.has self rfl) hpath free
  exact ⟨opened, .routine housed Block.get?_opened_self
    (Routine.placed_self (Block.routine_of_role? splits).2.2.1)⟩

/-- A block lies inside its routine. -/
theorem prefix_block (h : (Task.statement self site st).Sits home c) (splits : st.role? = some role)
    (hpath : path = Block.path self role n) : home.segments <+: path.segments := by
  obtain ⟨line, situated, _⟩ := h.at_line
  rw [hpath, (@Block.routine_of_role? self site st role path splits).2.2.2]
  exact situated.within.inside.trans (List.prefix_append _ _)

/-- The lines after a block. -/
theorem after (h : (Task.statement self site st).Sits home (body, ws))
    (splits : st.role? = some role) (hpath : path = Block.path self role body.counter)
    (free : ws.routines.get? path = none)
    (ran : Ran (.routine path none) (waiting, Block.opened self site role path ws) visits c)
    (heads : Block.Heads self path st c c') :
    ws.Develops c'.2 ∧ (Task.rest self site st path).Sits home c' := by
  obtain ⟨opened, begun⟩ := h.block splits hpath free
  obtain ⟨develops, housed⟩ := begun.ran ran
  obtain ⟨reworks, _⟩ := heads.reworks
  have develops := (opened.trans develops).trans reworks.alike.develops
  obtain ⟨line, situated, here, _⟩ := h.at_line
  exact ⟨develops, .rest ((situated.next here.ge).mono develops (housed.of_alike reworks.alike))⟩

/-- The guarded block with the rest of the lines. -/
theorem guard {block : Path} {n : Nat} (h : (Task.rest self site st block).Sits home (body, ws))
    (hpath : path = Block.path self .guard n) (free : ws.routines.get? path = none) :
    ws.Develops (Block.opened self site .guard path ws) ∧
      (Task.routine path previous).Sits home (mid, Block.opened self site .guard path ws) := by
  obtain ⟨opened, housed⟩ : ws.Develops (Block.opened self site .guard path ws) ∧ _ :=
    Block.opened_housed h.housed (h.has self rfl) hpath free
  exact ⟨opened, .routine housed Block.get?_opened_self
    (h.situated_rest.placed_guard hpath free).2⟩

end Task.Sits

theorem Starts.sits {a b : Task × Stage} (h : Starts a b) (sits : a.1.Sits home a.2) :
    ∃ home', b.1.Sits home' b.2 := by
  cases h with
  | enter found enters => exact ⟨_, (sits.enter found rfl enters).2⟩
  | pass deeper => exact ⟨_, sits.pass deeper.le⟩
  | quiet here => exact ⟨_, sits.pass here.ge⟩
  | statement here _ parsed => exact ⟨_, sits.start here parsed⟩
  | next here _ parsed ran => exact ⟨_, (sits.next here parsed ran).2⟩
  | define resolved found => exact ⟨_, (sits.define resolved found).1⟩
  | block splits hpath free => exact ⟨_, (sits.block splits hpath free).2⟩
  | rest splits hpath free ran heads => exact ⟨_, (sits.after splits hpath free ran heads).2⟩
  | guard _ _ _ _ hpath free => exact ⟨_, (sits.guard hpath free).2⟩

/-! ### Runs come to the lines in order -/

/-- What a part of a compilation comes to. A statement that leaves a request has also compiled
the rest of the block, in a guarded one. -/
def Task.Toured : Task → Stage → List Visit → Stage → Prop
  | .routine path _, c, visits, c' => ∀ self, c.2.routines.get? path = some self →
      Tour c.2.lines visits self.start (size self.depth (c.2.lines.drop self.start)) ∧
        (Straight c.2.lines → ∃ r, c'.2.routines.get? path = some r ∧ r.asks = false) ∧
        (self.kind ≠ .root → self.kind.isGuard = false →
          ∀ next ∈ (c.2.lines.drop self.start).head?, next.depth = self.depth)
  | .lines self _ index remaining, c, visits, c' => c.1.asks = false →
      Tour c.2.lines visits (index + size (self.depth + 1) remaining)
          (size self.depth remaining - size (self.depth + 1) remaining) ∧
        (Straight c.2.lines → c'.1.asks = false)
  | .statement self site st, c, visits, c' => c.1.asks = false →
      (c'.1.asks = false →
        if st.isHeader then
          Tour c.2.lines visits (site.index + 1) (size (self.depth + 1) site.following)
        else visits = []) ∧
      (c'.1.asks = true →
        Tour c.2.lines visits (site.index + 1) (size self.depth site.following)) ∧
      (Straight c.2.lines → c'.1.asks = false ∧ (st.isHeader = true →
        ∀ next ∈ site.following.head?, self.depth < next.depth → next.depth = self.depth + 1))
  | .rest self site _ block, c, visits, c' => c.1.asks = false →
      (Straight c.2.lines → ∃ inner, c.2.routines.get? block = some inner ∧ inner.asks = false) →
      (c'.1.asks = false → visits = []) ∧
      (c'.1.asks = true → Tour c.2.lines visits
        (site.index + 1 + size (self.depth + 1) site.following)
        (size self.depth site.following - size (self.depth + 1) site.following)) ∧
      (Straight c.2.lines → c'.1.asks = false)

/-- A request of a block is a request of its body. -/
theorem Body.asks_of_inner {inner rest : Routine} {body mid : Body} (asks : inner.asks = true)
    (exits : mid.mayExit = (body.mayExit || inner.mayExit))
    (skips : mid.maySkip = (body.maySkip || inner.maySkip)) :
    (mid.mayExit || rest.mayExit || (mid.maySkip || rest.maySkip)) = true := by
  rw [exits, skips]
  simp only [Routine.asks, Bool.or_eq_true] at asks
  rcases asks with asks | asks <;> simp [asks]

/-- Only a line that ends in a colon has deeper lines after it. -/
theorem Ran.size_eq_zero (ran : Ran (.lines self false index lines) c visits c') :
    size (self.depth + 1) lines = 0 := by
  cases ran with
  | nil => rfl
  | leave => exact size_up (by omega)
  | quiet => exact size_up (by omega)
  | step => exact size_up (by omega)

theorem Lowering.get?_stored {body : Body} {path : Path} {r : Routine} (keyed : self.path = path)
    (found : ws.routines.get? path = some r) :
    (stored self body ws).routines.get? path =
      some { r with
        commands := body.commands
        mayExit := body.mayExit
        maySkip := body.maySkip
        continuation := body.continuation
        compiled := true } := by
  simp [stored, Workspace.updateRoutine, Workspace.record, Table.get?_modify, keyed,
    found]

/-- A statement and the lines after it, in the body itself or in a guarded block. -/
theorem Situated.tour {visit : Visit} {inside later : List Visit}
    (h : Situated home self index (line :: lines) ws) (here : line.depth = self.depth)
    (hvisit : visit.index = index)
    (deeper : Straight ws.lines → ∀ next ∈ lines.head?, self.depth < next.depth →
      line.isHeader = true ∧ next.depth = self.depth + 1)
    (split : Tour ws.lines inside (index + 1) (size (self.depth + 1) lines) ∧
        Tour ws.lines later (index + 1 + size (self.depth + 1) lines)
          (size self.depth lines - size (self.depth + 1) lines) ∨
      Tour ws.lines inside (index + 1) (size self.depth lines) ∧ later = []) :
    Tour ws.lines (visit :: (inside ++ later))
      (index + size (self.depth + 1) (line :: lines))
      (size self.depth (line :: lines) - size (self.depth + 1) (line :: lines)) := by
  rw [size_up (by omega), size_here here.ge, Nat.add_zero, Nat.sub_zero]
  have headed : Straight ws.lines → Headed ws.lines index := by
    intro straight own next atIndex atNext below
    rw [h.at_index.1] at atIndex
    cases atIndex
    rw [h.at_index.2] at atNext
    obtain ⟨isHeader, depth⟩ := deeper straight next atNext (here ▸ below)
    exact ⟨isHeader, by rw [depth, here]⟩
  have rest : Tour ws.lines (inside ++ later) (index + 1) (size self.depth lines) := by
    rcases split with ⟨first, second⟩ | ⟨whole, rfl⟩
    · have joined := first.append second
      rwa [Nat.add_sub_cancel' (size_succ_le ..)] at joined
    · rwa [List.append_nil]
  have joined := (Tour.visit hvisit headed).append rest
  rwa [Nat.add_comm 1] at joined

/-- A compilation comes to the lines in their order, and to no line twice. -/
theorem Ran.toured (ran : Ran task c visits c') :
    ∀ {home}, task.Sits home c → task.Toured c visits c' := by
  induction ran with
  | skip found ends mayBeEmpty =>
    intro home sits self' found'
    rw [found] at found'
    cases found'
    have keyed := sits.housed.orderly.keyed found
    refine ⟨?_, fun _ => ⟨_, get?_stored keyed found, rfl⟩, ?_⟩
    · rw [Block.size_eq_zero ends]
      exact .nil
    · intro notRoot notGuard
      rcases mayBeEmpty with root | guard
      · exact absurd root notRoot
      · rw [notGuard] at guard
        cases guard
  | @run path _ _ result _ _ ws₂ _ _ _ _ found starts here enters lines ih =>
    intro home sits self' found'
    rw [found] at found'
    cases found'
    obtain ⟨develops, inside⟩ := sits.enter found starts enters
    obtain ⟨tour, quiet⟩ := ih inside rfl
    rw [Block.size_up (by omega), Nat.add_zero, Nat.sub_zero, ← starts, develops.lines] at tour
    refine ⟨tour, fun straight => ?_, fun _ _ next mem => ?_⟩
    · obtain ⟨develops₂, _⟩ := inside.ran lines
      obtain ⟨r, found₂, _⟩ := (develops.trans develops₂).kept found
      have released : (releaseLocals ws₂ result.locals).routines.get? path = some r := by
        rw [(releaseLocals_kept ..).1, found₂]
      refine ⟨_, get?_stored (sits.housed.orderly.keyed found) released, ?_⟩
      exact quiet (develops.lines ▸ straight)
    · rw [starts] at mem
      cases mem
      exact here
  | nil => exact fun _ quiet => ⟨.nil, fun _ => quiet⟩
  | leave up =>
    intro home _ quiet
    rw [Block.size_up up]
    exact ⟨by simpa using Tour.nil, fun _ => quiet⟩
  | deeper deeper _ ih =>
    intro home sits quiet
    rw [Block.size_here deeper, Block.size_here (by omega), Nat.add_sub_add_right,
      Nat.add_comm _ 1, ← Nat.add_assoc]
    exact ih (sits.pass deeper.le) quiet
  | quiet _ asked => exact fun _ quiet => absurd asked (by simp [quiet])
  | @step self _ index line lines _ mid ws ws₁ st _ inside _ here goesOn parsed statement after
      ihStatement ihAfter =>
    intro home sits _
    obtain ⟨goes, stops, straightly⟩ := ihStatement (sits.start here parsed) goesOn
    obtain ⟨develops, next⟩ := sits.next here parsed statement
    have situated := sits.situated
    have isHeader : line.isHeader = st.isHeader := Line.hasForm_of_classify (by simp [
      Statement.isHeader]) parsed
    -- a line that is no header ends in no colon, so nothing deeper follows it
    have plain : Straight ws.lines → st.isHeader = false →
        Block.size (self.depth + 1) lines = 0 := by
      intro straight other
      have noColon : Text.endsWith ":" line.text = false := by
        rw [Bool.eq_false_iff]
        intro colon
        have header := straight.colons line situated.mem colon
        rw [isHeader, other] at header
        cases header
      rw [noColon] at after
      exact after.size_eq_zero
    have deeper : Straight ws.lines → ∀ next ∈ lines.head?, self.depth < next.depth →
        line.isHeader = true ∧ next.depth = self.depth + 1 := by
      intro straight next mem below
      cases header : st.isHeader with
      | true => exact ⟨isHeader.trans header, (straightly straight).2 header next mem below⟩
      | false =>
        have none := plain straight header
        obtain ⟨rest, rfl⟩ := List.head?_eq_some_iff.1 mem
        rw [Block.size_here below] at none
        omega
    cases asks : mid.asks with
    | false =>
      obtain ⟨tour, quiet⟩ := ihAfter next (Body.asks_chained.trans asks)
      have same : ws₁.lines = ws.lines := develops.lines
      simp only [same] at tour quiet
      have tourInside : Tour ws.lines inside (index + 1)
          (Block.size (self.depth + 1) lines) := by
        have inside := goes asks
        cases header : st.isHeader with
        | true =>
          rw [header, if_pos rfl] at inside
          exact inside
        | false =>
          rw [header, if_neg Bool.false_ne_true] at inside
          rw [inside]
          exact .passed fun straight => plain straight header
      exact ⟨situated.tour here rfl deeper (.inl ⟨tourInside, tour⟩), quiet⟩
    | true =>
      obtain ⟨rfl, rfl⟩ := after.of_asks (Body.asks_chained.trans asks)
      refine ⟨situated.tour here rfl deeper (.inr ⟨stops asks, rfl⟩), fun straight => ?_⟩
      rw [Body.asks_chained]
      exact (straightly straight).1
  | plain plain calls gives =>
    intro home _ quiet
    have kept := (effects_plain plain calls gives).kept
    have still := (congrArg₂ (· || ·) kept.mayExit kept.maySkip).trans quiet
    rename_i st _ _ _ _ _
    have other : st.isHeader = false := by cases st <;> first | rfl | cases plain
    refine ⟨fun _ => ?_, fun asks => ?_, fun _ => ⟨still, fun header => ?_⟩⟩
    · rw [other]
      rfl
    · exact absurd asks (by simp only [Body.asks] at still ⊢; simp [still])
    · rw [other] at header
      cases header
  | exit | next =>
    intro home sits quiet
    obtain ⟨line, situated, _, parsed⟩ := sits.at_line
    have never := situated.not_straight (Statement.form_of_block parsed rfl) rfl
    exact ⟨fun _ => rfl, fun _ => .passed fun straight => absurd straight never,
      fun straight => absurd straight never⟩
  | @defer _ _ _ _ _ callee routine resolved found template =>
    intro home sits quiet
    obtain ⟨line, situated, here, parsed⟩ := sits.at_line
    have form := Statement.form_of_block parsed rfl
    obtain ⟨signature, parsed, _, origin⟩ := situated.callee here form resolved found
    have never : ¬ Straight _ := fun straight => by
      have strings := straight.strings line situated.mem
      have params : routine.params = signature.params := congrArg Routine.params origin
      simp only [Line.takesStrings, situated.defines form, parsed, decide_true, Bool.true_and] at strings
      rw [Routine.isTemplate, params, strings] at template
      cases template
    refine ⟨fun _ => .passed fun straight => absurd straight never, fun asks => ?_,
      fun straight => absurd straight never⟩
    rw [quiet] at asks
    cases asks
  | @define self site _ _ _ _ _ routine _ resolved found _ _ ih =>
    intro home sits quiet
    obtain ⟨begun, _, signature, _, _, origin⟩ := sits.define resolved found
    have kind : routine.kind = .defined := congrArg Routine.kind origin
    have start : routine.start = site.index + 1 := congrArg Routine.start origin
    have depth : routine.depth = self.depth + 1 := congrArg Routine.depth origin
    obtain ⟨line, situated, here, _⟩ := sits.at_line
    have following := (situated.next here.ge).here
    obtain ⟨tour, _, below⟩ := ih begun routine found
    simp only [start, depth, following, kind] at tour below
    refine ⟨fun _ => tour, fun asks => ?_, fun _ => ⟨quiet, fun _ next mem _ => ?_⟩⟩
    · rw [quiet] at asks
      cases asks
    · exact below (by rintro ⟨⟩) rfl next mem
  | @block self site st role path _ mid ws _ ws₂ _ _ _ splits hpath free compiled heads _ ihCompiled
      ihRest =>
    intro home sits quiet
    have header : st.isHeader = true := by cases st <;> cases splits <;> rfl
    obtain ⟨opened, begun⟩ := sits.block splits hpath free
    obtain ⟨develops, onward⟩ := sits.after splits hpath free compiled heads
    obtain ⟨start, depth, notGuard, _⟩ := @Block.routine_of_role? self site st role path splits
    obtain ⟨line, situated, here, _⟩ := sits.at_line
    have following := (situated.next here.ge).here
    obtain ⟨tour, silent, below⟩ := ihCompiled begun _ Block.get?_opened_self
    have lines₀ : (Block.opened self site role path ws).lines = ws.lines := rfl
    simp only [start, depth, lines₀, following] at tour silent below
    obtain ⟨reworks, exits, skips, _⟩ := heads.reworks
    have quiet₂ : mid.asks = false := (congrArg₂ (· || ·) exits skips).trans quiet
    have same : ws₂.lines = ws.lines := develops.lines
    obtain ⟨goes, stops, straightly⟩ := ihRest onward quiet₂ (by
      intro straight
      obtain ⟨r, found, asks⟩ := silent (same ▸ straight)
      obtain ⟨commands, found'⟩ := reworks.found found
      exact ⟨_, found', asks⟩)
    simp only [same] at stops straightly
    refine ⟨fun asks => ?_, fun asks => ?_, fun straight => ⟨straightly straight, ?_⟩⟩
    · rw [header, if_pos rfl, goes asks, List.append_nil]
      exact tour
    · have joined := tour.append (stops asks)
      rwa [Nat.add_sub_cancel' (Block.size_succ_le ..)] at joined
    · intro _ next mem _
      exact below (by rintro ⟨⟩) notGuard next mem
  | unguarded =>
    intro home _ quiet _
    refine ⟨fun _ => rfl, fun asks => ?_, fun _ => quiet⟩
    rw [quiet] at asks
    cases asks
  | @guarded self site _ _ guard _ inner rest body _ mid _ _ _ _ _ found asks hasking hpath free _ _
      hmid ih =>
    intro home sits quiet silent
    obtain ⟨opened, begun⟩ := sits.guard hpath free
    obtain ⟨beyond, _⟩ := sits.situated_rest.placed_guard hpath free
    obtain ⟨tour, _⟩ := ih begun _ Block.get?_opened_self
    rw [opened.lines, beyond, show (Block.routine self site .guard guard).start = _ from
      Block.start_guard self site, show (Block.routine self site .guard guard).depth =
      self.depth from rfl, Block.size_beyond] at tour
    have still := @Body.asks_of_inner inner rest body mid asks
      (by rw [hmid, hasking]; split <;> rfl) (by rw [hmid, hasking]; split <;> rfl)
    refine ⟨fun none => Bool.noConfusion (still.symm.trans none), fun _ => tour, fun straight => ?_⟩
    obtain ⟨inner', found', none⟩ := silent straight
    rw [found] at found'
    cases found'
    rw [none] at asks
    cases asks

/-! ### The journal of the lines -/

namespace Workspace

variable {ws ws' : Workspace}

theorem starts_addSources {sources : List (String × String)}
    (added : ws.addSources sources = .ok ws') : ws'.starts = ws.starts := by
  induction sources generalizing ws with
  | nil =>
    cases added
    rfl
  | cons _ _ ih =>
    obtain ⟨_, first, later⟩ := addSources_cons_eq_ok.1 added
    obtain ⟨lines, read, rfl⟩ := addSource_eq_ok.1 first
    exact (ih later).trans ((starts_record _ _).trans (List.append_nil _))

end Workspace

section Logs

variable {self : Routine} {site : Site} {ws ws' : Workspace} {u : Unit}

theorem Lowering.sameLog_bindParams (self : Routine) (ws : Workspace) :
    ws.SameLog (bindParams self ws) := by
  obtain ⟨symbols, same⟩ := exists_bindParams_eq self ws
  rw [same]
  exact ⟨⟨rfl, rfl⟩, rfl⟩

theorem Lowering.sameLog_releaseLocals (locals : List String) (ws : Workspace) :
    ws.SameLog (releaseLocals ws locals) := by
  obtain ⟨symbols, same⟩ := exists_releaseLocals_eq locals ws
  rw [same]
  exact ⟨⟨rfl, rfl⟩, rfl⟩

theorem Definition.sameLog_addParamSlots (path : Path) (params : List Param) (ws : Workspace) :
    ws.SameLog (addParamSlots ws path params) := by
  obtain ⟨ints, slots, same⟩ := exists_addParamSlots_eq path params ws
  rw [same]
  exact ⟨⟨rfl, rfl⟩, rfl⟩

theorem Definition.sameLog_entered (index : Nat) (signature : Signature) :
    ws.SameLog (entered self index signature ws) :=
  have slots :=
    sameLog_addParamSlots (self.path.child signature.name) signature.params ws
  ⟨⟨slots.lines, slots.sources⟩, slots.starts⟩

theorem Definition.Registered.sameLog {own : List (Nat × Line)}
    (h : Registered self own ws ws') : ws.SameLog ws' := by
  induction h with
  | nil => exact .refl _
  | cons _ _ _ ih => exact (sameLog_entered ..).trans ih

/-- Entering a routine starts no line yet. -/
theorem Lowering.Enters.sameLog {path : Path}
    (enters : Enters self (ws.record (.routineStarted path)) ws') : ws.SameLog ws' :=
  (SameLog.record ws (.routineStarted path) rfl).trans
    ((sameLog_bindParams self _).trans enters.registered.sameLog)

theorem Block.sameLog_opened {role : BlockRole} {path : Path} :
    ws.SameLog (opened self site role path ws) :=
  ⟨⟨rfl, rfl⟩, (starts_record _ (.blockOpened path self.path)).trans (List.append_nil _)⟩

theorem Lowering.sameLog_stored (result : Body) : ws.SameLog (stored self result ws) :=
  (SameLog.record ws (.routineDone self.path result.commands.length) rfl).trans (.updateRoutine ..)

end Logs

/-- The routine and the position of a line. -/
def Visit.start (visit : Visit) : Path × Nat :=
  (visit.routine.path, visit.index)

/-- A compilation reads no other sources, and the journal has the lines that it came to, in their
order. -/
theorem Ran.logs (ran : Ran task c visits c') :
    c.2.SameText c'.2 ∧ c'.2.starts = c.2.starts ++ visits.map Visit.start := by
  -- what is around a part of a compilation that starts no line itself
  have around {ws ws₁ ws₂ ws' : Workspace} {visits : List Visit} (before : ws.SameLog ws₁)
      (inside : ws₁.SameText ws₂ ∧ ws₂.starts = ws₁.starts ++ visits.map Visit.start)
      (after : ws₂.SameLog ws') :
      ws.SameText ws' ∧ ws'.starts = ws.starts ++ visits.map Visit.start :=
    ⟨before.toSameText.trans (inside.1.trans after.toSameText),
      by rw [after.starts, inside.2, before.starts]⟩
  have none {ws ws' : Workspace} (same : ws.SameLog ws') :
      ws.SameText ws' ∧ ws'.starts = ws.starts ++ ([] : List Visit).map Visit.start :=
    ⟨same.toSameText, same.starts.trans (List.append_nil _).symm⟩
  induction ran with
  | @skip path =>
    exact none ((SameLog.record _ (.routineStarted path) rfl).trans (sameLog_stored _))
  | run _ _ _ enters _ ih =>
    exact around enters.sameLog ih
      ((sameLog_releaseLocals ..).trans (sameLog_stored _))
  | nil | leave | quiet | exit | next | unguarded => exact none (.refl _)
  | deeper _ _ ih => exact ih
  | @step self _ index line _ _ _ ws _ _ _ _ _ _ _ _ _ _ ihStatement ihAfter =>
    have first : (ws.record (.lineStarted self.path index line.text)).starts =
        ws.starts ++ [(self.path, index)] := starts_record _ _
    refine ⟨(SameText.record ..).trans (ihStatement.1.trans ihAfter.1), ?_⟩
    rw [ihAfter.2, ihStatement.2, first]
    simp [Visit.start]
  | plain plain calls gives => exact none (effects_plain plain calls gives).kept.toSameLog
  | defer => exact none ((SameLog.updateRoutine ..).trans (.record _ (.definitionDeferred _) rfl))
  | define _ _ _ _ ih => exact around (.refl _) ih (.updateRoutine ..)
  | block _ _ _ _ heads _ ihCompiled ihRest =>
    obtain ⟨same, starts⟩ := around sameLog_opened ihCompiled heads.reworks.1.toSameLog
    refine ⟨same.trans ihRest.1, ?_⟩
    rw [ihRest.2, starts, List.map_append, List.append_assoc]
  | guarded _ _ _ _ _ _ _ _ _ _ ih => exact around sameLog_opened ih (.refl _)

/-! ### Whole programs -/

namespace Workspace

variable {settings : Settings} {sources : List (String × String)} {ws final : Workspace}

/-- A whole compilation begins with the root. -/
theorem Unbuilt.sits {body : Body} (h : Unbuilt settings ws) :
    (Task.routine settings.rootPath none).Sits settings.rootPath (body, ws.withRoot) :=
  .routine h.housed_withRoot h.found_root (Routine.placed_self rfl)

/-- A compilation that succeeds has handed every line to some routine, exactly once and in their
order, and deeper lines stand under headers only, one level below them. This is so for sources
without string parameters and without requests about loops in which only headers end in a
colon. -/
theorem every_line_starts_once
    (read : addSources { settings } sources = .ok ws) (compiled : ws.compile = (.ok (), final))
    (strings : ∀ line ∈ ws.lines, line.takesStrings = false)
    (requests : ∀ line ∈ ws.lines, line.isRequest = false)
    (colons : ∀ line ∈ ws.lines, Text.endsWith ":" line.text = true → line.isHeader = true) :
    (∀ i line next, ws.lines[i]? = some line → ws.lines[i + 1]? = some next →
      line.depth < next.depth → line.isHeader = true ∧ next.depth = line.depth + 1) ∧
      final.started = List.range ws.lines.length := by
  have unbuilt := unbuilt_of_addSources read
  have straight : Straight ws.lines := ⟨requests, strings, colons⟩
  obtain ⟨visits, ran⟩ := unbuilt.ran compiled
  obtain ⟨tour, _⟩ := ran.toured unbuilt.sits _ unbuilt.found_root
  have size : Block.size 0 ws.lines = ws.lines.length := by
    rw [Block.size, List.takeWhile_eq_self_iff.2 (by simp)]
  have whole : Tour ws.lines visits 0 ws.lines.length := size ▸ tour
  obtain ⟨all, headed⟩ := whole.complete straight
  constructor
  · intro i line next atLine
    exact headed i (Nat.zero_le i) (by
      rw [Nat.zero_add]
      exact (List.getElem?_eq_some_iff.1 atLine).1) line next atLine
  · have none : ws.withRoot.starts = [] := starts_addSources read
    rw [started, ran.logs.2, none, List.nil_append, List.map_map, List.range_eq_range']
    exact all

/-- Definitions, branches and loops in each other. -/
def nested : String :=
  "def f a#i:\n    a += 1\n    if a = 3:\n        say deep\nrepeat 2:\n    f 2\nif entity @s:\n" ++
    "    say x\nelse:\n    say y"

theorem every_line_starts_once_nested :
    ∃ ws final, addSources {} [("", nested)] = .ok ws ∧ ws.compile = (.ok (), final) ∧
      ws.lines.length = 10 ∧
      (∀ i line next, ws.lines[i]? = some line → ws.lines[i + 1]? = some next →
        line.depth < next.depth → line.isHeader = true ∧ next.depth = line.depth + 1) ∧
      final.started = [0, 1, 2, 3, 4, 5, 6, 7, 8, 9] := by
  obtain ⟨ws, final, read, compiled, ten, all⟩ : ∃ ws final, addSources {} [("", nested)] = .ok ws ∧
      ws.compile = (.ok (), final) ∧ ws.lines.length = 10 ∧ ∀ line ∈ ws.lines,
        line.takesStrings = false ∧ line.isRequest = false ∧
          (Text.endsWith ":" line.text = true → line.isHeader = true) := by decide +kernel
  obtain ⟨headed, started⟩ := every_line_starts_once read compiled (fun l mem => (all l mem).1)
    (fun l mem => (all l mem).2.1) fun l mem => (all l mem).2.2
  exact ⟨ws, final, read, compiled, ten, headed, by rw [started, ten]; rfl⟩

/-- A command that ends in a colon hides the lines under it: the compilation succeeds and never
comes to them. -/
theorem colon_hides_lines :
    ∃ ws final, addSources {} [("", "say hi:\n    say dropped")] = .ok ws ∧
      ws.compile = (.ok (), final) ∧
      (∀ line ∈ ws.lines, line.takesStrings = false ∧ line.isRequest = false) ∧
      ws.lines.map (fun line => (line.depth, line.isHeader)) = [(0, false), (1, false)] ∧
      final.started = [0] := by
  decide +kernel

end Workspace

end CommandPack
