import CommandPack.Proofs.Lowering.Bodies

/-!
# Compiled routines hold their scripts

The lines of a body one after the other, the routine around them, and the levels of routines
in each other. The main statement is about a whole compilation: the root and every definition
that was reached hold the scripts of their lines.
-/

namespace CommandPack

open BodyM Lowering Definition Statement Script

variable {R : Regime} {compile : Compile} {self : Routine} {site : Site} {body body₁ body' : Body}
  {ws ws₁ ws' : Workspace} {u : Unit}
variable {name text : String} {st : Statement} {line : Line} {index : Nat} {lines : List Line}

/-! ### Statements -/

/-- A line is read and its statement is compiled. -/
theorem Lowering.gives_line :
    Gives (Lowering.line compile self site text) body ws u body' ws' ↔ ∃ parsed mid,
      classify (ws.resolveFunction? self.path) text = .ok parsed ∧
      Gives (Lowering.statement compile self site parsed) { body with pending := [] }
        (ws.record (.lineStarted self.path site.index text)) () mid ws' ∧
      body' = if parsed.continuesChain then mid else { mid with previous := none } := by
  simp only [Lowering.line, gives_bind, gives_lift, WorkM.gives_record, gives_modify,
    WorkM.gives_query]
  constructor
  · rintro ⟨_, _, _, ⟨rfl, rfl⟩, _, _, _, ⟨rfl, rfl⟩, parsed, _, _, ⟨⟨hparsed, rfl⟩, rfl⟩, _, mid,
      ws₁, hstatement, h⟩
    refine ⟨parsed, mid, hparsed, ?_⟩
    cases hc : parsed.continuesChain <;> simp [hc] at h ⊢ <;> simpa [h] using hstatement
  · rintro ⟨parsed, mid, hparsed, hstatement, rfl⟩
    refine ⟨(), _, _, ⟨rfl, rfl⟩, (), _, _, ⟨rfl, rfl⟩, parsed, _, _, ⟨⟨hparsed, rfl⟩, rfl⟩, (), mid,
      _, hstatement, ?_⟩
    cases parsed.continuesChain <;> simp

/-- A plain statement is a sequence of effects. Only a statement that is a call makes one. -/
theorem Lowering.statement_effects
    (parsed : classify (ws.resolveFunction? self.path) text = .ok st)
    (plain : st.isPlain = true)
    (h : Gives (statement compile self site st) body ws u body' ws') :
    Effects self (fun _ => True) (∃ callee arguments, st = .call callee arguments) (body, ws)
      (body', ws') := by
  have sources : Sources (fun _ => True) ws st := by
    rcases form_of_classify parsed with form | ⟨⟨callee, resolved, rfl⟩, _⟩
    · cases st with
      | call => exact absurd form form_ne_call
      | _ => trivial
    · exact ⟨Workspace.isDefined_of_resolveFunction? resolved, by simp, by simp⟩
  exact effects_statement plain sources (fun callee arguments is => ⟨callee, arguments, is⟩) h

/-- A statement that is no plain one does not depend on definitions. -/
theorem Statement.form_of_block {resolve : String → Option Path}
    (h : classify resolve text = .ok st) (block : st.isPlain = false) :
    form text = .ok st := by
  rcases form_of_classify h with form | ⟨⟨_, _, rfl⟩, _⟩
  · exact form
  · cases block

theorem Script.beyond_of_le {depth : Nat} (lines : List Line) (le : line.depth ≤ depth) :
    beyond depth (line :: lines) = line :: lines := by
  simp [beyond, Nat.not_lt.2 le]

/-- Steps that leave the routines alone leave a body ready for the rest of its lines. -/
theorem Ready.of_kept (ready : Ready self site body ws)
    (kept : Effects.Kept (body, ws) (body₁, ws₁)) :
    Ready self site { body₁ with previous := none } ws₁ where
  orderly := ready.orderly.of_routines kept.routines kept.lines kept.settings
  below := kept.settings ▸ ready.below
  here := kept.lines ▸ ready.here
  isOpen := by simp
  noExit := kept.mayExit.trans ready.noExit
  noSkip := kept.maySkip.trans ready.noSkip
  noLink := kept.continuation.trans ready.noLink

theorem Lowering.plain_compiles (ready : Ready self site body ws) (here : line.depth = self.depth)
    (parsed : classify (ws.resolveFunction? self.path) line.text = .ok st)
    (plain : st.isPlain = true)
    (h : Gives (statement compile self site st) body ws u body₁ ws₁)
    (rest : Remainder R self site { body₁ with previous := none } ws₁ body' ws') :
    Compiles R self body.previous (line :: site.following) body.commands ws body' ws' := by
  have kept := (statement_effects parsed plain h).kept
  obtain ⟨script, cs, used, reads, laid, commands⟩ := rest.goesOn (ready.of_kept kept)
  obtain ⟨added, hadded⟩ := kept.commands
  refine ⟨.plain line.text script, added ++ cs, used, ?_,
    laid.plain kept.routines kept.lines kept.settings ready.orderly ?_, ?_⟩
  · rw [beyond_of_le _ here.le]
    rcases form_of_classify parsed with form | ⟨_, form⟩
    · exact .plain here form plain reads
    · exact .plain here form rfl reads
  · intro text holds
    obtain ⟨holds₁, emitted, hemitted, emits⟩ := R.plain text holds parsed plain h
    rw [hadded] at hemitted
    rw [List.append_cancel_left hemitted]
    exact ⟨holds₁, emits⟩
  · rw [commands, ← List.append_assoc]
    exact congrArg (· ++ cs) hadded

theorem Lowering.define_compiles (sound : Sound R compile) (ready : Ready self site body ws)
    (here : line.depth = self.depth) (form : form line.text = .ok (.define name))
    (h : Gives (define compile self name) body ws u body₁ ws₁)
    (rest : Remainder R self site { body₁ with previous := none } ws₁ body' ws') :
    Compiles R self body.previous (line :: site.following) body.commands ws body' ws' := by
  obtain ⟨rfl, grows, orderly, keeps⟩ := define_keeps sound ready.orderly h
  obtain ⟨script, cs, used, reads, laid, commands⟩ := rest.goesOn
    { ready with
      orderly := orderly
      below := grows.settings ▸ ready.below
      here := grows.lines ▸ ready.here
      isOpen := by simp }
  refine ⟨.define name script, cs, used, ?_, laid.define.before grows ?_ ?_, commands⟩
  · rw [beyond_of_le _ here.le]
    exact .define here form reads
  · intro holds all
    exact (keeps holds all.1).1
  · intro holds all busy _ coded
    exact (keeps holds all.1).2 busy coded

theorem Lowering.exit_compiles (ready : Ready self site body ws) (here : line.depth = self.depth)
    (form : form line.text = .ok .exitLoop)
    (h : Gives (Loop.exit self) body ws u body₁ ws₁)
    (rest : Remainder R self site { body₁ with previous := none } ws₁ body' ws') :
    Compiles R self body.previous (line :: site.following) body.commands ws body' ws' := by
  unfold Loop.exit at h
  split at h
  · simp at h
  · next w hloop =>
    simp only [gives_bind, gives_modify, gives_emit] at h
    obtain ⟨_, _, _, ⟨rfl, rfl⟩, _, rfl, rfl⟩ := h
    obtain ⟨rfl, commands, exits, skips, link⟩ := rest.stops rfl
    refine ⟨.exit, [.summonMarker (Marker.exitTag w)], [], ?_, ?_, commands⟩
    · rw [beyond_of_le _ here.le]
      exact .exit here form
    · rw [hloop, exits, skips, link, ready.noSkip, ready.noLink]
      exact .exit ready.orderly

theorem Lowering.next_compiles (ready : Ready self site body ws) (here : line.depth = self.depth)
    (form : form line.text = .ok .nextRound)
    (h : Gives (Loop.next self) body ws u body₁ ws₁)
    (rest : Remainder R self site { body₁ with previous := none } ws₁ body' ws') :
    Compiles R self body.previous (line :: site.following) body.commands ws body' ws' := by
  unfold Loop.next at h
  split at h
  · simp at h
  · next w hloop =>
    simp only [gives_bind, gives_modify, gives_emit] at h
    obtain ⟨_, _, _, ⟨rfl, rfl⟩, _, rfl, rfl⟩ := h
    obtain ⟨rfl, commands, exits, skips, link⟩ := rest.stops (by simp)
    refine ⟨.next, [.summonMarker (Marker.roundTag w)], [], ?_, ?_, commands⟩
    · rw [beyond_of_le _ here.le]
      exact .next here form
    · rw [hloop, exits, skips, link, ready.noExit, ready.noLink]
      exact .next ready.orderly

/-! ### Lines -/

/-- A statement together with the rest of the lines. -/
theorem Lowering.statement_compiles (sound : Sound R compile) (ready : Ready self site body ws)
    (noPending : body.pending = []) (here : line.depth = self.depth)
    (parsed : classify (ws.resolveFunction? self.path) line.text = .ok st)
    (h : Gives (statement compile self site st) body ws u body₁ ws₁)
    (rest : Remainder R self site
      (if st.continuesChain then body₁ else { body₁ with previous := none }) ws₁ body' ws') :
    Compiles R self body.previous (line :: site.following) body.commands ws body' ws' := by
  cases hplain : st.isPlain with
  | true =>
    have ends : st.continuesChain = false := by
      cases st <;> first | rfl | cases hplain
    rw [ends] at rest
    exact plain_compiles ready here parsed hplain h rest
  | false =>
    have form := form_of_block parsed hplain
    cases st with
    | define => exact define_compiles sound ready here form h rest
    | branch =>
      obtain ⟨inside, after, cs, used, under, reads, laid, commands⟩ :=
        Block.branch_compiles sound ready noPending h rest
      refine ⟨_, cs, used, ?_, laid, commands⟩
      rw [beyond_of_le _ here.le]
      exact .branch here form under reads
    | otherwise =>
      obtain ⟨inside, after, cs, used, under, reads, laid, commands⟩ :=
        Block.otherwise_compiles sound ready noPending h rest
      refine ⟨_, cs, used, ?_, laid, commands⟩
      rw [beyond_of_le _ here.le]
      exact .otherwise here form under reads
    | times =>
      obtain ⟨number, inside, after, cs, used, counted, under, reads, laid, commands⟩ :=
        Loop.times_compiles sound ready h rest
      refine ⟨_, cs, used, ?_, laid, commands⟩
      rw [beyond_of_le _ here.le]
      exact .times here form counted under reads
    | loop =>
      obtain ⟨inside, after, cs, used, under, reads, laid, commands⟩ :=
        Loop.loop_compiles sound ready noPending h rest
      refine ⟨_, cs, used, ?_, laid, commands⟩
      rw [beyond_of_le _ here.le]
      exact .loop here form under reads
    | exitLoop => exact exit_compiles ready here form h rest
    | nextRound => exact next_compiles ready here form h rest
    | _ => cases hplain

/-- A line together with the rest of the lines. -/
theorem Lowering.line_compiles (sound : Sound R compile) (ready : Ready self site body ws)
    (here : line.depth = self.depth)
    (h : Gives (Lowering.line compile self site line.text) body ws u body₁ ws₁)
    (rest : Remainder R self site body₁ ws₁ body' ws') :
    Compiles R self body.previous (line :: site.following) body.commands ws body' ws' := by
  obtain ⟨st, mid, parsed, hstatement, rfl⟩ := Lowering.gives_line.1 h
  have started : Ready self site { body with pending := [] }
      (ws.record (.lineStarted self.path site.index line.text)) :=
    { ready with
      orderly := ready.orderly.of_routines rfl rfl rfl
      isOpen := fun chain hchain => (ready.isOpen chain hchain).mono (.of_routines rfl rfl rfl) }
  obtain ⟨script, cs, used, reads, laid, commands⟩ :=
    Lowering.statement_compiles sound started rfl here parsed hstatement rest
  refine ⟨script, cs, used, reads, laid.quiet ready.orderly rfl rfl rfl ?_, commands⟩
  intro holds _
  exact R.stable holds rfl rfl rfl fun _ r found => .inl ⟨r, found, rfl⟩

/-- After a request about the loop the rest of the lines adds nothing. -/
theorem Lowering.lines_stop {opens : Bool} (asks : (body.mayExit || body.maySkip) = true)
    (h : Gives (Lowering.lines compile self opens index lines) body ws u body' ws') :
    body' = body ∧ ws' = ws := by
  induction lines generalizing opens index with
  | nil =>
    simp only [Lowering.lines, gives_pure] at h
    exact h.2
  | cons _ lines ih =>
    rw [Lowering.lines] at h
    split at h
    · simp only [gives_pure] at h
      exact h.2
    · split at h
      · split at h
        · exact ih h
        · simp at h
      · have quiet : (!body.mayExit && !body.maySkip) = false := by
          rw [← Bool.not_or, asks]
          rfl
        simp only [gives_bind, gives_get] at h
        obtain ⟨_, _, _, ⟨rfl, rfl, rfl⟩, h⟩ := h
        simp only [quiet, Bool.false_eq_true, if_false] at h
        exact ih h

/-- The lines of a body from some position on. -/
theorem Lowering.lines_compile (sound : Sound R compile) {opens : Bool}
    (ready : Ready self ⟨index, lines.tail⟩ body ws)
    (h : Gives (Lowering.lines compile self opens index lines) body ws u body' ws') :
    Compiles R self body.previous lines body.commands ws body' ws' := by
  induction lines generalizing opens index body ws with
  | nil =>
    simp only [Lowering.lines, gives_pure] at h
    obtain ⟨_, rfl, rfl⟩ := h
    refine ⟨.done, [], [], .nil, ?_, by simp⟩
    rw [ready.noExit, ready.noSkip, ready.noLink]
    exact .done ready.orderly
  | cons line lines ih =>
    -- what is ready for this line is ready for the next one, once it is known to go on
    have next {body : Body} {ws : Workspace} (ready : Ready self ⟨index, lines⟩ body ws) :
        Ready self ⟨index + 1, lines.tail⟩ body ws :=
      { ready with
        here := by
          rw [← List.drop_drop, ready.here, List.drop_one] }
    rw [Lowering.lines] at h
    split at h
    · next up =>
      simp only [gives_pure] at h
      obtain ⟨_, rfl, rfl⟩ := h
      refine ⟨.done, [], [], ?_, ?_, by simp⟩
      · rw [beyond_of_le _ up.le]
        exact .leave up
      · rw [ready.noExit, ready.noSkip, ready.noLink]
        exact .done ready.orderly
    · split at h
      · next deeper =>
        split at h
        · obtain ⟨script, cs, used, reads, laid, commands⟩ := ih (next ready) h
          refine ⟨script, cs, used, ?_, laid, commands⟩
          simpa [beyond, deeper] using reads
        · simp at h
      · next notUp notDeeper =>
        have here : line.depth = self.depth := by omega
        simp only [gives_bind, gives_get] at h
        obtain ⟨_, _, _, ⟨rfl, rfl, rfl⟩, h⟩ := h
        simp only [ready.noExit, ready.noSkip, Bool.not_false, Bool.and_self, if_true,
          gives_bind, gives_locate] at h
        obtain ⟨_, body₁, ws₁, hline, h⟩ := h
        refine Lowering.line_compiles sound ready here hline ⟨?_, ?_⟩
        · intro ready₁
          exact ih (next ready₁) h
        · intro asks
          obtain ⟨rfl, rfl⟩ := Lowering.lines_stop asks h
          exact ⟨rfl, rfl, rfl, rfl, rfl⟩

/-! ### The definitions of a body -/

theorem Name.isPart_of_mem (h : Name.isVariable name = true) {c : Char} (mem : c ∈ Text.chars name) :
    Name.isPart c = true := by
  unfold Name.isVariable at h
  split at h
  · next empty => simp [empty] at mem
  · next start rest chars =>
    rw [chars] at mem
    simp only [Bool.and_eq_true, List.all_eq_true] at h
    rcases List.mem_cons.1 mem with rfl | mem
    · simp [Name.isPart, h.1]
    · exact h.2 _ mem

theorem Name.isVariable_of_isFunction (h : Name.isFunction name = true) :
    Name.isVariable name = true := by
  simp only [Name.isFunction, Bool.and_eq_true] at h
  exact h.1.1

theorem Name.dot_not_mem (h : Name.isVariable name = true) : '.' ∉ Text.chars name := fun mem =>
  absurd (Name.isPart_of_mem h mem) (by decide)

/-- The text with the name and the parameters in the header of a definition. -/
def Signature.listing (line : String) : String :=
  let line := Text.trim line
  let body := Text.trim ((Text.dropStart? "def" line).getD line)
  (Text.dropEnd? ":" body).getD body

/-- What a header that can be registered consists of. -/
theorem Signature.of_parse {line : String} {signature : Signature}
    (h : Signature.parse line = .ok signature) :
    ∃ tokens, Argument.split (Signature.listing line) = signature.name :: tokens ∧
      Name.isFunction signature.name = true ∧
      Signature.readParams signature.name false tokens = .ok signature.params := by
  simp only [Signature.parse] at h
  split at h
  · cases h
  · next name tokens found =>
    cases hname : Name.isFunction name with
    | false => simp [hname, bind, Except.bind, throw, throwThe, MonadExceptOf.throw] at h
    | true =>
      simp only [hname, Bool.not_true, Bool.false_eq_true, if_false, bind, Except.bind, pure,
        Except.pure] at h
      split at h
      · cases h
      · next params read =>
        cases h
        exact ⟨tokens, found, hname, read⟩

theorem Signature.isFunction_of_parse {line : String} {signature : Signature}
    (h : Signature.parse line = .ok signature) : Name.isFunction signature.name = true := by
  obtain ⟨_, _, isFunction, _⟩ := Signature.of_parse h
  exact isFunction

/-- The slots of parameters are new, and nothing else. -/
theorem Definition.exists_addParamSlots_eq (path : Path) (params : List Param) (ws : Workspace) :
    ∃ ints slots, addParamSlots ws path params = { ws with ints, slots } := by
  unfold addParamSlots
  induction params generalizing ws with
  | nil => exact ⟨_, _, rfl⟩
  | cons param _ ih =>
    rw [List.foldl_cons]
    split
    · obtain ⟨ints, slots, same⟩ := ih (ws.addInt (path.qualify param.name))
      refine ⟨ints, slots, same.trans ?_⟩
      unfold Workspace.addInt
      split <;> rfl
    · exact ih ws

theorem Definition.addParamSlots_kept (path : Path) (params : List Param) (ws : Workspace) :
    (addParamSlots ws path params).routines = ws.routines ∧
      (addParamSlots ws path params).lines = ws.lines ∧
      (addParamSlots ws path params).settings = ws.settings ∧
      (addParamSlots ws path params).symbols = ws.symbols := by
  obtain ⟨ints, slots, same⟩ := exists_addParamSlots_eq path params ws
  rw [same]
  exact ⟨rfl, rfl, rfl, rfl⟩

/-- The lines of a block that are not in a block under one of them, with their positions. -/
def Block.own (depth : Nat) : Nat → List Line → List (Nat × Line)
  | _, [] => []
  | index, line :: rest =>
    if line.depth < depth then []
    else if depth < line.depth then own depth (index + 1) rest
    else (index, line) :: own depth (index + 1) rest

theorem Block.mem_of_mem_own {depth i : Nat} (mem : (i, line) ∈ Block.own depth index lines) :
    line ∈ lines := by
  induction lines generalizing index with
  | nil => cases mem
  | cons _ _ ih =>
    rw [Block.own] at mem
    split at mem
    · cases mem
    · split at mem
      · exact .tail _ (ih mem)
      · rcases List.mem_cons.1 mem with same | mem
        · cases same
          exact .head _
        · exact .tail _ (ih mem)

theorem Block.length_own_le (depth index : Nat) (lines : List Line) :
    (Block.own depth index lines).length ≤ lines.length := by
  induction lines generalizing index with
  | nil => exact Nat.le_refl _
  | cons _ _ ih =>
    have later := ih (index + 1)
    rw [Block.own]
    split_ifs <;> simp only [List.length_nil, List.length_cons] <;> omega

/-- Whether a line is the header of a definition. -/
def Line.defines (line : Line) : Prop :=
  (splitHead line.text).1 = "def"

instance (line : Line) : Decidable line.defines :=
  inferInstanceAs (Decidable (_ = _))

/-- A workspace with one more definition. -/
def Definition.entered (self : Routine) (index : Nat) (signature : Signature) (ws : Workspace) :
    Workspace :=
  { addParamSlots ws (self.path.child signature.name) signature.params with
    routines := ws.routines.insert (self.path.child signature.name)
      (routine self index signature) }

theorem Definition.entered_kept (self : Routine) (index : Nat) (signature : Signature)
    (ws : Workspace) :
    (entered self index signature ws).lines = ws.lines ∧
      (entered self index signature ws).settings = ws.settings ∧
      (entered self index signature ws).symbols = ws.symbols :=
  (addParamSlots_kept ..).2

/-- Definitions of a block are registered one after the other, each at a path that is free. -/
inductive Definition.Registered (self : Routine) :
    List (Nat × Line) → Workspace → Workspace → Prop
  | nil {ws : Workspace} : Registered self [] ws ws
  | cons {i : Nat} {line : Line} {rest : List (Nat × Line)} {ws ws' : Workspace}
      {signature : Signature} (parsed : Signature.parse line.text = .ok signature)
      (free : ws.routines.get? (self.path.child signature.name) = none)
      (later : Registered self rest (entered self i signature ws) ws') :
      Registered self ((i, line) :: rest) ws ws'

theorem Definition.gives_register (h : WorkM.Gives (register self index text) ws u ws') :
    ∃ signature, Signature.parse text = .ok signature ∧
      ws.routines.get? (self.path.child signature.name) = none ∧
      ws' = entered self index signature ws := by
  unfold register at h
  split at h
  · simp at h
  · simp only [WorkM.gives_bind, WorkM.gives_query, WorkM.gives_update, WorkM.gives_update?] at h
    obtain ⟨signature, ws, ⟨parsed, rfl⟩, _, _, rfl, h⟩ := h
    obtain ⟨free, rfl⟩ := Workspace.register_eq_ok.1 h
    rw [(addParamSlots_kept ..).1] at free ⊢
    exact ⟨signature, parsed, free, rfl⟩

/-- The definitions among the own lines of a block are registered. -/
theorem Definition.registered (h : WorkM.Gives (registerAll self index lines) ws u ws') :
    Registered self ((Block.own self.depth index lines).filter (·.2.defines)) ws ws' := by
  induction lines generalizing index ws with
  | nil =>
    obtain ⟨-, rfl⟩ := WorkM.gives_pure.1 h
    exact .nil
  | cons line _ ih =>
    rw [registerAll] at h
    rw [Block.own]
    split at h
    · next up =>
      obtain ⟨-, rfl⟩ := WorkM.gives_pure.1 h
      rw [if_pos up]
      exact .nil
    · next inside =>
      rw [if_neg inside]
      split at h
      · next isDefinition =>
        simp only [Bool.and_eq_true, decide_eq_true_eq] at isDefinition
        obtain ⟨here, defines⟩ := isDefinition
        obtain ⟨_, mid, first, h⟩ := WorkM.gives_bind.1 h
        obtain ⟨signature, parsed, free, rfl⟩ :=
          gives_register (WorkM.gives_locate.1 first)
        rw [if_neg (by omega), List.filter_cons_of_pos (by exact decide_eq_true defines)]
        exact .cons parsed free (ih h)
      · next other =>
        split
        · exact ih h
        · rw [List.filter_cons_of_neg]
          · exact ih h
          · intro defines
            have isDefinition : (splitHead line.text).1 = "def" := of_decide_eq_true defines
            exact other (by simp [isDefinition, show line.depth = self.depth by omega])

/-- Registering definitions adds routines that are not yet compiled. -/
structure Definition.Registers (ws ws' : Workspace) : Prop where
  grows : Grows untouched ws ws'
  orderly : ws'.Orderly
  defs (D : Dialect) (busy : Path → Prop) : DefsCoded D busy ws → DefsCoded D busy ws'

theorem Definition.register_registers {index : Nat} {text : String} {signature : Signature}
    (orderly : ws.Orderly) (below : self.path.Below ws.settings.root)
    (parsed : Signature.parse text = .ok signature)
    (free : ws.routines.get? (self.path.child signature.name) = none) :
    Registers ws (entered self index signature ws) := by
  obtain ⟨routines, lines, settings, _⟩ :=
    addParamSlots_kept (self.path.child signature.name) signature.params ws
  rw [entered, ← routines]
  rw [← routines] at free
  generalize addParamSlots ws (self.path.child signature.name) signature.params = ws₁
    at free routines lines settings
  have orderly₁ : ws₁.Orderly := orderly.of_routines routines lines settings
  have name := Name.dot_not_mem
    (Name.isVariable_of_isFunction (Signature.isFunction_of_parse parsed))
  have inserted := Grows.of_insert (r := routine self index signature) free
  refine ⟨(Grows.of_routines routines lines settings).trans_untouched inserted, ?_, ?_⟩
  · refine orderly₁.insert (r := routine self index signature) ?_ fun _ => ⟨rfl, rfl⟩
    rw [settings]
    exact below.child name
  · intro D busy coded
    refine (coded.of_routines orderly routines lines).of_change orderly₁ rfl ?_ ?_
    · intro q r' found _ compiled _
      rw [Table.get?_insert] at found
      split at found
      · cases found
        cases compiled
      · exact ⟨r', found, rfl, compiled, rfl⟩
    · intro p b found isBlock compiled _
      exact inserted.settled found isBlock compiled

theorem Definition.Registered.registers {own : List (Nat × Line)}
    (h : Registered self own ws ws') (orderly : ws.Orderly)
    (below : self.path.Below ws.settings.root) : Registers ws ws' := by
  induction h with
  | nil => exact ⟨.of_routines rfl rfl rfl, orderly, fun _ _ coded => coded⟩
  | @cons i _ rest ws _ _ parsed free _ ih =>
    have first := @register_registers self ws i _ _ orderly below parsed free
    have rest := ih first.orderly (first.grows.settings ▸ below)
    exact ⟨first.grows.trans_untouched rest.grows, rest.orderly,
      fun D busy coded => rest.defs D busy (first.defs D busy coded)⟩

/-! ### Routines -/

/-- Storing a body after its lines have been compiled and its variables forgotten. -/
theorem Lowering.commit_lays {path : Path} {prev : Option Chain} {r : Routine} {script : Script}
    {ws₂ : Workspace} {used : List Path} (orderly : ws.Orderly)
    (found : ws.routines.get? path = some r)
    (loose : r.kind.isBlock = true → r.compiled = false)
    (reads : Reads r.depth (ws.lines.drop r.start) script)
    (laid : Laid R r.owner r.loop prev (.block script) ws ws₁ body.commands body.mayExit
      body.maySkip body.continuation used)
    (routines : ws₂.routines = ws₁.routines) (lines : ws₂.lines = ws₁.lines)
    (settings : ws₂.settings = ws₁.settings) (holds : R.Holds ws₁ → R.Holds ws₂)
    (h : WorkM.Gives (commit r body) ws₂ u ws') :
    ∃ script inner used, Reads r.depth (ws.lines.drop r.start) script ∧
      Laid R r.owner r.loop prev (.block script) ws ws' inner.commands inner.mayExit
        inner.maySkip inner.continuation used ∧
      ws'.routines.get? path = some inner ∧ inner.origin = r.origin ∧ inner.compiled = true := by
  simp only [commit, WorkM.gives_bind, WorkM.gives_record,
    WorkM.gives_updateRoutine] at h
  obtain ⟨_, _, rfl, _, rfl⟩ := h
  rw [orderly.keyed found]
  obtain ⟨r₁, found₁, origin⟩ := laid.grows.kept found
  refine ⟨script,
    { r₁ with
      commands := body.commands
      mayExit := body.mayExit
      maySkip := body.maySkip
      continuation := body.continuation
      compiled := true }, used, reads, ?_, ?_, origin, rfl⟩
  · refine laid.commit found loose rfl (fun defined => (orderly.owned found defined).1) ?_ ?_ ?_ ?_
      fun _ => rfl
    · exact routines
    · exact lines
    · exact settings
    · intro hw
      exact R.stable (holds hw) rfl rfl rfl fun _ r found => .inl ⟨r, found, rfl⟩
  · simp [Workspace.updateRoutine, Workspace.record, Table.get?_modify, routines, found₁]

/-- Entering a body changes nothing but the variables. -/
theorem Lowering.exists_bindParams_eq (self : Routine) (ws : Workspace) :
    ∃ symbols, bindParams self ws = { ws with symbols } := by
  have declared (params : List (String × Kind)) (ws : Workspace) : ∃ symbols,
      params.foldl (fun ws param => ws.declare param.1 param.2) ws = { ws with symbols } := by
    induction params generalizing ws with
    | nil => exact ⟨_, rfl⟩
    | cons param _ ih => exact ih (ws.declare param.1 param.2)
  have bound (bindings : List (String × String)) (ws : Workspace) : ∃ symbols,
      bindings.foldl (fun ws b => ws.bindString b.1 b.2) ws = { ws with symbols } := by
    induction bindings generalizing ws with
    | nil => exact ⟨_, rfl⟩
    | cons b _ ih => exact ih (ws.bindString b.1 b.2)
  obtain ⟨_, same⟩ := declared (declaredParams self) ws
  obtain ⟨symbols, same'⟩ := bound self.bindings
    ((declaredParams self).foldl (fun ws param => ws.declare param.1 param.2) ws)
  exact ⟨symbols, same'.trans (by rw [same])⟩

theorem Lowering.bindParams_kept (self : Routine) (ws : Workspace) :
    (bindParams self ws).routines = ws.routines ∧
      (bindParams self ws).lines = ws.lines ∧
      (bindParams self ws).settings = ws.settings := by
  obtain ⟨symbols, same⟩ := exists_bindParams_eq self ws
  rw [same]
  exact ⟨rfl, rfl, rfl⟩

/-- Leaving a body changes nothing but the variables. -/
theorem Lowering.exists_releaseLocals_eq (locals : List String) (ws : Workspace) :
    ∃ symbols, releaseLocals ws locals = { ws with symbols } := by
  unfold releaseLocals
  induction locals generalizing ws with
  | nil => exact ⟨_, rfl⟩
  | cons path _ ih =>
    rw [List.foldl_cons]
    split
    · exact ih ws
    · exact ih (ws.removeSymbol path)

theorem Lowering.releaseLocals_kept (locals : List String) (ws : Workspace) :
    (releaseLocals ws locals).routines = ws.routines ∧
      (releaseLocals ws locals).lines = ws.lines ∧
      (releaseLocals ws locals).settings = ws.settings := by
  obtain ⟨symbols, same⟩ := exists_releaseLocals_eq locals ws
  rw [same]
  exact ⟨rfl, rfl, rfl⟩

/-- What happens before the first line of a body: parameters are bound and definitions are
registered. -/
theorem Lowering.entry_keeps {path : Path} (orderly : ws.Orderly)
    (found : ws.routines.get? path = some self)
    (h : WorkM.Gives (do
      WorkM.update (bindParams self)
      if !self.kind.isGuard then
        registerAll self self.start (ws.lines.drop self.start)) ws u ws') :
    Registers ws ws' ∧ (R.Holds ws → R.Holds ws') := by
  obtain ⟨routines, lines, settings⟩ := bindParams_kept self ws
  have below : self.path.Below ws.settings.root := orderly.keyed found ▸ orderly.below found
  have orderly₁ := orderly.of_routines routines lines settings
  simp only [WorkM.gives_bind, WorkM.gives_update] at h
  obtain ⟨_, ws₁, hws, h⟩ := h
  split at h
  · rw [hws] at h
    have registers := (registered h).registers orderly₁ (settings ▸ below)
    refine ⟨⟨(Grows.of_routines routines lines settings).trans_untouched registers.grows,
      registers.orderly, fun D busy coded => registers.defs D busy
        (coded.of_routines orderly routines lines)⟩, fun holds => ?_⟩
    rw [← lines] at h
    exact R.scan (R.enter holds found) h
  · simp only [WorkM.gives_pure] at h
    obtain ⟨_, rfl⟩ := h
    subst hws
    exact ⟨⟨.of_routines routines lines settings, orderly₁, fun D busy coded =>
      coded.of_routines orderly routines lines⟩, fun holds => R.enter holds found⟩

/-- The lines of a routine, once it is entered. -/
theorem Lowering.gives_run {prev : Option Chain} {ls : List Line}
    (h : WorkM.Gives (do
      WorkM.update (Lowering.bindParams self)
      if !self.kind.isGuard then
        registerAll self self.start ls
      let (_, result) ← (Lowering.lines compile self false self.start ls).run
        { locals := Lowering.paramPaths self, previous := prev }
      WorkM.update (Lowering.releaseLocals · result.locals)
      Lowering.commit self result) ws u ws') :
    ∃ ws₁ ws₂ result,
      WorkM.Gives (do
        WorkM.update (Lowering.bindParams self)
        if !self.kind.isGuard then
          registerAll self self.start ls) ws () ws₁ ∧
      Gives (Lowering.lines compile self false self.start ls)
        { locals := Lowering.paramPaths self, previous := prev } ws₁ () result ws₂ ∧
      WorkM.Gives (Lowering.commit self result) (Lowering.releaseLocals ws₂ result.locals) u ws' := by
  simp only [WorkM.gives_bind, WorkM.gives_update] at h ⊢
  obtain ⟨_, start, hstart, h⟩ := h
  cases hg : self.kind.isGuard with
  | true =>
    simp only [hg, Bool.not_true, Bool.false_eq_true, if_false, WorkM.gives_bind,
      WorkM.gives_update] at h
    obtain ⟨⟨_, result⟩, ws₂, hlines, _, _, rfl, hcommit⟩ := h
    exact ⟨start, ws₂, result, ⟨(), start, hstart, by simp⟩, hlines, hcommit⟩
  | false =>
    simp only [hg, Bool.not_false, if_true, WorkM.gives_bind, WorkM.gives_update] at h
    obtain ⟨_, ws₁, hregister, ⟨_, result⟩, ws₂, hlines, _, _, rfl, hcommit⟩ := h
    exact ⟨ws₁, ws₂, result, ⟨(), start, hstart, by simpa using hregister⟩, hlines, hcommit⟩

/-- A routine is compiled soundly if the routines in it are. -/
theorem Lowering.routine_sound (sound : Sound R compile) : Sound R (Lowering.routine compile) := by
  intro path prev ws ws' r u h orderly found loose isOpen
  simp only [Lowering.routine, WorkM.gives_bind, WorkM.gives_routine, WorkM.gives_record,
    WorkM.gives_get] at h
  obtain ⟨self, ws₀, ⟨found', hws₀⟩, _, started, hstarted, _, ws₁, ⟨hget, hws₁⟩, h⟩ := h
  rw [hws₀] at hstarted
  rw [hget, hws₁] at h
  rw [found] at found'
  cases found'
  have routines : started.routines = ws.routines := by rw [hstarted]; rfl
  have lines : started.lines = ws.lines := by rw [hstarted]; rfl
  have settings : started.settings = ws.settings := by rw [hstarted]; rfl
  have holds : R.Holds ws → R.Holds started := by
    intro holds
    rw [hstarted]
    exact R.stable holds rfl rfl rfl fun _ r found => .inl ⟨r, found, rfl⟩
  have orderly₀ : started.Orderly := orderly.of_routines routines lines settings
  have found₀ : started.routines.get? path = some r := by rw [routines, found]
  split at h
  · next none =>
    split at h
    · refine Lowering.commit_lays orderly found loose ?_ (.done orderly) routines lines settings
        holds h
      rw [← lines, none]
      exact .nil
    · simp at h
  · next first rest hlines =>
    split at h
    · next up =>
      split at h
      · refine Lowering.commit_lays orderly found loose ?_ (.done orderly) routines lines
          settings holds h
        rw [← lines, hlines]
        exact .leave up
      · simp at h
    · split at h
      · simp at h
      · next notUp notDeeper =>
        obtain ⟨ws₁, ws₂, result, hentry, hrun, hcommit⟩ := Lowering.gives_run h
        obtain ⟨registers, holds₁⟩ := Lowering.entry_keeps orderly₀ found₀ hentry
        have grows : Grows untouched ws ws₁ :=
          (Grows.of_routines routines lines settings).trans_untouched registers.grows
        have ready : Ready r ⟨r.start, (started.lines.drop r.start).tail⟩
            { locals := Lowering.paramPaths r, previous := prev } ws₁ :=
          { orderly := registers.orderly
            below := by
              rw [grows.settings, orderly.keyed found]
              exact orderly.below found
            here := by rw [registers.grows.lines, ← List.drop_one, List.drop_drop]
            isOpen := fun chain hchain => (isOpen chain hchain).mono grows
            noExit := rfl
            noSkip := rfl
            noLink := rfl }
        obtain ⟨script, cs, used, reads, laid, commands⟩ :=
          Lowering.lines_compile sound ready hrun
        obtain ⟨routines₂, lines₂, settings₂⟩ :=
          Lowering.releaseLocals_kept result.locals ws₂
        have laid' : Laid R r.owner r.loop prev (.block script) ws ws₂ result.commands
            result.mayExit result.maySkip result.continuation used := by
          rw [commands]
          refine laid.before grows (fun hw _ => holds₁ (holds hw)) fun _ _ busy _ coded => ?_
          exact registers.defs _ busy (coded.of_routines orderly routines lines)
        refine Lowering.commit_lays orderly found loose ?_ laid' routines₂ lines₂ settings₂
          R.release hcommit
        rw [hlines, beyond_of_le _ (Nat.not_lt.1 notDeeper), ← hlines, lines] at reads
        exact reads

/-- Compiling routines in each other is sound at every level. -/
theorem Lowering.compile_sound (limit : Nat) : Sound R (Lowering.compile limit) := by
  induction limit with
  | zero =>
    intro path prev ws ws' r u h
    simp [Lowering.compile] at h
  | succ _ ih => exact Lowering.routine_sound ih

end CommandPack
