import CommandPack.Proofs.Linking.Resolving
import CommandPack.Proofs.Lowering.Quoting
import CommandPack.Proofs.Lowering.Slots

/-!
# Scores in generated texts

Every text that is compiled or linked is put together from parts of source lines, from commands
and from calls. Scores get into it in two ways: a command or a clause names an objective, or an
integer variable is substituted. Either way the objective is that of a slot.
-/

namespace CommandPack

open Text Workspace Lowering CallMark

/-! ### Texts and objectives of commands -/

/-- The texts in a clause that are put together elsewhere. -/
def Clause.texts : Clause → List String
  | words text => [text]
  | _ => []

/-- The objective that a clause tests. -/
def Clause.objectives : Clause → List String
  | score objective _ => [objective]
  | _ => []

namespace Command

/-- The texts in a command that are put together elsewhere. -/
def texts : Command → List String
  | text line => [line]
  | addTag selector _ => [selector]
  | invoke clauses mark => clauses.flatMap Clause.texts ++ mark.arguments
  | _ => []

/-- The objectives that a command names. -/
def objectives : Command → List String
  | setScore objective _ | addScore objective _ | removeScore objective _
  | declareScore objective => [objective]
  | combineScores target _ source => [target, source]
  | invoke clauses _ => clauses.flatMap Clause.objectives
  | _ => []

end Command

/-! ### Composed texts -/

/-- The texts of compiled and linked lines, for the texts that may come from sources and the
objectives that may be named. Variables are substituted in source texts; the rest is made of
commands and of what linking puts in the place of their marks. -/
inductive Composed (source : String → Prop) (pack : String) (known : String → Prop) : String → Prop
  | text {ws : Workspace} {scope : Path} {text out : String} (own : source text)
      (named : ws.settings.pack = pack)
      (slots : ∀ path objective, ws.slots.get? path = some objective → known objective)
      (strings : ∀ path value, ws.symbols.string? path = some value →
        Composed source pack known value)
      (written : Substitution.substitute ws scope text = .ok out) : Composed source pack known out
  | argument {ws : Workspace} {scope : Path} {argument out : String} (own : source argument)
      (named : ws.settings.pack = pack)
      (slots : ∀ path objective, ws.slots.get? path = some objective → known objective)
      (strings : ∀ path value, ws.symbols.string? path = some value →
        Composed source pack known value)
      (written : Substitution.substituteArgument ws scope argument = .ok out) :
      Composed source pack known out
  | keyword {word : String} (keyword : word = "if" ∨ word = "unless") :
      Composed source pack known word
  | summon {out : String} (tag : String) (inside : Composed source pack known out) :
      Composed source pack known (Summon.withTag out tag)
  | command {command : Command} (texts : ∀ text ∈ command.texts, Composed source pack known text)
      (objectives : ∀ objective ∈ command.objectives, known objective) :
      Composed source pack known (command.render pack)
  /-- The argument of a mark. -/
  | mark {line argument : String} {found : Found} (inside : Composed source pack known line)
      (marked : find? line = some found) (mem : argument ∈ found.mark.arguments) :
      Composed source pack known argument
  | call {line : String} {found : Found} (target : Path)
      (inside : Composed source pack known line) (marked : find? line = some found) :
      Composed source pack known (found.calling pack target)
  | skipped {line : String} {found : Found} (target : Path)
      (inside : Composed source pack known line) (marked : find? line = some found) :
      Composed source pack known (Linking.skipped (found.calling pack target))
  | inline {line replaced : String} {found : Found}
      (inside : Composed source pack known line) (marked : find? line = some found)
      (single : Composed source pack known replaced) :
      Composed source pack known (found.before ++ replaced ++ found.after)

theorem Composed.mono {source known known' : String → Prop} {pack text : String}
    (h : Composed source pack known text) (more : ∀ objective, known objective → known' objective) :
    Composed source pack known' text := by
  induction h with
  | text own named slots _ written ih =>
    exact .text own named (fun path objective found => more _ (slots path objective found)) ih
      written
  | argument own named slots _ written ih =>
    exact .argument own named (fun path objective found => more _ (slots path objective found)) ih
      written
  | keyword keyword => exact .keyword keyword
  | summon tag _ ih => exact .summon tag ih
  | command _ objectives ih =>
    exact .command ih fun objective mem => more objective (objectives objective mem)
  | mark _ marked mem ih => exact .mark ih marked mem
  | call target _ marked ih => exact .call target ih marked
  | skipped target _ marked ih => exact .skipped target ih marked
  | inline _ marked _ ih ih' => exact .inline ih marked ih'

/-- A text is a part of a line. -/
def Quoted (lines : List Line) (text : String) : Prop :=
  ∃ line ∈ lines, chars text <:+: chars line.text

namespace Workspace

variable {lines : List Line} {ws ws' : Workspace} {self : Routine}
  {path text : String} {symbols : Symbols}

/-- What does not depend on routines and the journal. -/
theorem slots_of_base (base : ws'.base = ws.base) : ws'.settings = ws.settings ∧
    ws'.slots = ws.slots ∧ ws'.ints = ws.ints ∧ ws'.constants = ws.constants ∧
    ws'.symbols = ws.symbols := by
  unfold Workspace.base at base
  simp only [Workspace.mk.injEq] at base
  simp [base]

/-- The objective of a slot. -/
def Provides (ws : Workspace) (objective : String) : Prop :=
  ∃ path, ws.slots.get? path = some objective

/-- A text is composed with the slots that there are. -/
def Composes (lines : List Line) (ws : Workspace) (text : String) : Prop :=
  Composed (Quoted lines) ws.settings.pack ws.Provides text

theorem Provides.mono {objective : String} (h : ws.Provides objective) (enlarges : ws.Enlarges ws') :
    ws'.Provides objective := by
  obtain ⟨path, found⟩ := h
  exact ⟨path, enlarges.kept found⟩

theorem Composes.mono (h : ws.Composes lines text) (enlarges : ws.Enlarges ws') :
    ws'.Composes lines text := by
  unfold Composes
  rw [enlarges.settings]
  exact Composed.mono h fun _ provides => provides.mono enlarges

/-- The parts of a command or a clause: its texts are composed, and its objectives belong to
slots. -/
def Parts (lines : List Line) (ws : Workspace) (texts objectives : List String) : Prop :=
  (∀ text ∈ texts, ws.Composes lines text) ∧ ∀ objective ∈ objectives, ws.Provides objective

theorem Parts.mono {texts objectives : List String} (h : ws.Parts lines texts objectives)
    (enlarges : ws.Enlarges ws') : ws'.Parts lines texts objectives :=
  ⟨fun text mem => (h.1 text mem).mono enlarges,
    fun objective mem => (h.2 objective mem).mono enlarges⟩

theorem Parts.none : ws.Parts lines [] [] :=
  ⟨List.forall_mem_nil _, List.forall_mem_nil _⟩

theorem Parts.ofText (composes : ws.Composes lines text) : ws.Parts lines [text] [] :=
  ⟨List.forall_mem_singleton.2 composes, List.forall_mem_nil _⟩

theorem Parts.ofScore {objective : String} (slot : ws.objective path = .ok objective) :
    ws.Parts lines [] [objective] :=
  ⟨List.forall_mem_nil _, List.forall_mem_singleton.2 ⟨path, objective_eq_ok.1 slot⟩⟩

/-- The paths of variables may have slots, and the values of strings are composed. -/
structure Tells (lines : List Line) (ws : Workspace) (symbols : Symbols) : Prop where
  names {path : String} : symbols.contains path = true → Slottable ws.settings.root path
  strings {path value : String} : symbols.string? path = some value → ws.Composes lines value

namespace Tells

theorem mono (h : ws.Tells lines symbols) (enlarges : ws.Enlarges ws') :
    ws'.Tells lines symbols where
  names found := by
    rw [enlarges.settings]
    exact h.names found
  strings found := (h.strings found).mono enlarges

theorem declare (h : ws.Tells lines symbols) (slottable : Slottable ws.settings.root path)
    (kind : Kind) : ws.Tells lines (symbols.declare path kind) where
  names found := by
    rcases Symbols.contains_declare.1 found with rfl | found
    · exact slottable
    · exact h.names found
  strings found := h.strings found

theorem bind (h : ws.Tells lines symbols) (slottable : Slottable ws.settings.root path)
    {value : String} (composes : ws.Composes lines value) : ws.Tells lines (symbols.bind path value) where
  names found := by
    rcases Symbols.contains_bind.1 found with rfl | found
    · exact slottable
    · exact h.names found
  strings found := by
    rw [Symbols.string?_bind] at found
    split at found
    · cases found
      exact composes
    · exact h.strings found

end Tells

/-- Slots are booked, and texts are composed from given lines. -/
structure Composing (lines : List Line) (ws : Workspace) : Prop where
  given : ws.lines = lines
  booked : ws.Booked
  symbols : ws.Tells lines ws.symbols
  params {q : Path} {r : Routine} : ws.routines.get? q = some r → ∀ param ∈ r.params,
    Name.isVariable param.name = true ∧
      ∀ argument, param.default = some argument → Quoted lines argument
  bindings {q : Path} {r : Routine} : ws.routines.get? q = some r → ∀ binding ∈ r.bindings,
    Slottable ws.settings.root binding.1 ∧ ws.Composes lines binding.2
  owners {q : Path} {r : Routine} : ws.routines.get? q = some r → r.kind.bindsParams = true →
    r.owner.IsScope ws.settings.root

namespace Composing

/-- A change of slots and variables. -/
theorem of_change (h : ws.Composing lines) (sameLines : ws'.lines = ws.lines)
    (routines : ws'.routines = ws.routines) (booked : ws'.Booked) (enlarges : ws.Enlarges ws')
    (symbols : ws'.Tells lines ws'.symbols) : ws'.Composing lines where
  given := sameLines.trans h.given
  booked := booked
  symbols := symbols
  params found := h.params (routines ▸ found)
  bindings found binding mem :=
    have ⟨slottable, composes⟩ := h.bindings (routines ▸ found) binding mem
    ⟨enlarges.settings.symm ▸ slottable, composes.mono enlarges⟩
  owners found binds := enlarges.settings.symm ▸ h.owners (routines ▸ found) binds

theorem slottable_target (h : ws.Composing lines) (housed : ws.Housed) (has : ws.Has self)
    {locals : List String} (target : Target self locals ws path) :
    Slottable ws.settings.root path := by
  cases target with
  | own valid => exact .ofName (housed.isScope_self has) valid
  | declared _ resolved => exact h.symbols.names (contains_of_resolve? resolved)

theorem composes_written (h : ws.Composing lines) (written : Written self (Quoted lines) ws text) :
    ws.Composes lines text := by
  obtain ⟨own, quoted, written⟩ := written
  exact .text quoted rfl (fun path objective found => ⟨path, found⟩)
    (fun path value found => h.symbols.strings found) written

theorem effect {calls : Prop} {start stop : Stage} (h : start.2.Composing lines)
    (housed : start.2.Housed) (has : start.2.Has self)
    (effect : Effect self (Quoted lines) calls start stop) :
    stop.2.Composing lines ∧ start.2.Enlarges stop.2 := by
  have same := Enlarges.refl start.2
  have kept := Effects.kept_of_effect effect
  cases effect with
  | emit | wait | addLocal => exact ⟨h, same⟩
  | @declare _ ws path kind target =>
    have enlarges : ws.Enlarges (ws.declare path kind) := .of_eq rfl rfl rfl rfl
    have declared := h.symbols.declare (h.slottable_target housed has target) kind
    exact ⟨h.of_change rfl rfl (h.booked.of_eq rfl rfl rfl rfl) enlarges (declared.mono enlarges),
      enlarges⟩
  | @addInt _ ws path target =>
    have slottable : Slottable ws.settings.root path := by
      rcases target with target | ⟨declared, found, rfl⟩
      · exact h.slottable_target housed has target
      · exact .scratch (h.symbols.names found)
    obtain ⟨booked, enlarges⟩ := h.booked.addInt slottable
    refine ⟨h.of_change kept.lines kept.routines booked enlarges ?_, enlarges⟩
    rw [ws.addInt_symbols path]
    exact h.symbols.mono enlarges
  | @bindString _ ws path value target written =>
    have enlarges : ws.Enlarges (ws.bindString path value) := .of_eq rfl rfl rfl rfl
    have bound := h.symbols.bind (h.slottable_target housed has target)
      (h.composes_written written)
    exact ⟨h.of_change rfl rfl (h.booked.of_eq rfl rfl rfl rfl) enlarges (bound.mono enlarges),
      enlarges⟩
  | @addConstant _ ws value =>
    obtain ⟨booked, enlarges⟩ := h.booked.addConstant value
    refine ⟨h.of_change kept.lines kept.routines booked enlarges ?_, enlarges⟩
    rw [Effect.addConstant_symbols]
    exact h.symbols.mono enlarges

/-- The parts of every command that a body adds. -/
theorem emission {calls : Prop} {command : Command} (h : ws.Composing lines)
    (emission : Emission self (Quoted lines) calls ws command) :
    ws.Parts lines command.texts command.objectives := by
  cases emission with
  | text written => exact .ofText (h.composes_written written)
  | summon written => exact .ofText (.summon _ (h.composes_written written))
  | addTag written => exact .ofText (h.composes_written written)
  | releaseTag => exact .none
  | setScore slot => exact .ofScore slot
  | addScore slot => exact .ofScore slot
  | removeScore slot => exact .ofScore slot
  | combineScores slot slot' =>
    refine ⟨List.forall_mem_nil _, List.forall_mem_cons.2 ⟨⟨_, objective_eq_ok.1 slot⟩, ?_⟩⟩
    exact List.forall_mem_singleton.2 ⟨_, objective_eq_ok.1 slot'⟩
  | call _ _ _ _ written =>
    exact ⟨fun text mem => h.composes_written (written text mem), List.forall_mem_nil _⟩

/-- The paths of the parameters of a routine. -/
theorem slottable_paramPaths (h : ws.Composing lines) {q : Path}
    (found : ws.routines.get? q = some self) :
    ∀ path ∈ paramPaths self, Slottable ws.settings.root path := by
  intro path mem
  rcases List.mem_append.1 mem with declared | bound
  · obtain ⟨own, inside, rfl⟩ := List.mem_map.1 declared
    unfold declaredParams at inside
    split at inside
    · next binds =>
      obtain ⟨param, isParam, rfl⟩ := List.mem_map.1 inside
      exact .ofName (h.owners found binds) (h.params found param isParam).1
    · cases inside
  · obtain ⟨binding, inside, rfl⟩ := List.mem_map.1 bound
    exact (h.bindings found binding inside).1

/-- Entering a body. -/
theorem enter (h : ws.Composing lines) (housed : ws.Housed)
    (found : ws.routines.get? self.path = some self) (enters : Enters self ws ws') :
    ws'.Composing lines ∧ ws.Enlarges ws' := by
  obtain ⟨booked, enlarges⟩ := h.booked.enters (housed.isScope found) enters
  obtain ⟨develops, housed', _⟩ := enters.housed housed ⟨self, found, rfl⟩
  have settings : ws'.settings = ws.settings := enlarges.settings
  refine ⟨⟨develops.lines.trans h.given, booked, ⟨fun known => settings ▸ ?_, fun known => ?_⟩,
    fun foundNew param mem => ?_, fun foundNew binding mem => ?_, fun foundNew binds => ?_⟩,
    enlarges⟩
  · rcases enters.contains_iff.1 known with own | old
    · exact h.slottable_paramPaths found _ own
    · exact h.symbols.names old
  · rw [enters.symbols] at known
    rcases string?_bindParams known with own | old
    · exact (h.bindings found _ own).2.mono enlarges
    · exact (h.symbols.strings old).mono enlarges
  · rcases enters.adds foundNew with old | ⟨_, i, line, signature, mem', _, parsed, rfl, rfl⟩
    · exact h.params old param mem
    · refine ⟨Signature.isVariable_of_parse parsed param mem, fun argument default => ⟨line, ?_, ?_⟩⟩
      · rw [← h.given]
        exact List.mem_of_mem_drop (Block.mem_of_mem_own mem')
      · exact (Signature.excerpt_of_default parsed param mem argument default).isInfix
  · rcases enters.adds foundNew with old | ⟨_, i, line, signature, mem', _, parsed, rfl, rfl⟩
    · obtain ⟨slottable, composes⟩ := h.bindings old binding mem
      exact ⟨settings ▸ slottable, composes.mono enlarges⟩
    · cases mem
  · rcases enters.adds foundNew with old | ⟨_, i, line, signature, mem', _, parsed, rfl, rfl⟩
    · exact settings ▸ h.owners old binds
    · exact housed'.isScope foundNew

theorem release (h : ws.Composing lines) (locals : List String) :
    (releaseLocals ws locals).Composing lines ∧
      ws.Enlarges (releaseLocals ws locals) := by
  obtain ⟨ints, slots, constants⟩ := releaseLocals_slots locals ws
  have alike := releaseLocals_alike locals ws
  have enlarges : ws.Enlarges (releaseLocals ws locals) :=
    .of_eq alike.settings slots ints constants
  refine ⟨h.of_change alike.lines (releaseLocals_kept ..).1
    (h.booked.of_eq alike.settings slots ints constants) enlarges
    ⟨fun found => enlarges.settings.symm ▸
        h.symbols.names (contains_releaseLocals.1 found),
      fun {path value} found => ?_⟩, enlarges⟩
  rcases symbols_releaseLocals locals ws path with ⟨_, same⟩ | ⟨_, none⟩
  · exact (h.symbols.strings (same ▸ found)).mono enlarges
  · rw [none] at found
    cases found

end Composing

end Workspace

/-- Compilations of given lines book their slots one after the other and write commands of
composed texts. -/
def Discipline.ByEffect.composing (lines : List Line) : ByEffect where
  Source := Quoted lines
  Holds := Workspace.Composing lines
  Writes ws command := ws.Parts lines command.texts command.objectives
  Tests ws clause := ws.Parts lines clause.texts clause.objectives
  Apt _ := True
  apt _ := trivial
  Leads := Enlarges
  leads_refl := .refl
  leads_trans := .trans
  writes_mono writes _ enlarges := writes.mono enlarges
  tests_mono tests _ enlarges := tests.mono enlarges
  Keeps := Tells lines
  keeps composing := composing.symbols
  keeps_mono tells _ enlarges := tells.mono enlarges
  sources := by
    rintro ws st composing ⟨line, mem, resolve, parsed⟩ text own
    have part := Statement.excerpt_of_classify parsed text own
    rw [composing.given] at mem
    exact ⟨⟨line, mem, part.isInfix⟩, fun _ inside =>
      ⟨line, mem, ((Argument.excerpt_of_mem_split inside).trans part).isInfix⟩⟩
  defaults composing found mem default := (composing.params found _ mem).2 _ default
  effect composing housed has effect := composing.effect housed has effect
  emission composing _ _ emission := composing.emission emission
  words composing _ quoted written :=
    .ofText (.argument quoted rfl (fun path objective found => ⟨path, found⟩)
      (fun path value found => composing.symbols.strings found) written)
  score _ slot := .ofScore slot
  keyword ws := ⟨.ofText (.keyword (.inl rfl)), .ofText (.keyword (.inr rfl))⟩
  marker _ _ _ _ := .none
  markers _ _ _ := ⟨.none, .none, .none⟩
  invoke {ws block r clauses} _ _ _ _ _ tests := by
    refine ⟨fun text mem => ?_, fun objective mem => ?_⟩
    · rw [Command.texts, List.append_nil] at mem
      obtain ⟨clause, inside, own⟩ := List.mem_flatMap.1 mem
      exact (tests clause inside).1 text own
    · obtain ⟨clause, inside, own⟩ := List.mem_flatMap.1 mem
      exact (tests clause inside).2 objective own
  enter composing housed found _ enters := (composing.enter housed found enters).1
  enter_leads composing housed found _ enters := (composing.enter housed found enters).2
  release composing := (composing.release _).1
  release_leads ws locals := by
    obtain ⟨ints, slots, constants⟩ := releaseLocals_slots locals ws
    exact .of_eq (releaseLocals_alike locals ws).settings slots ints constants
  stable {ws ws'} composing base develops origins := by
    obtain ⟨settings, slots, ints, constants, symbols⟩ := slots_of_base base
    have enlarges : ws.Enlarges ws' := .of_eq settings slots ints constants
    refine ⟨develops.lines.trans composing.given, composing.booked.of_eq settings slots ints constants,
      symbols ▸ composing.symbols.mono enlarges, fun {q r'} found param mem => ?_,
      fun {q r'} found binding mem => ?_, fun {q r'} found binds => ?_⟩
    · rcases origins q r' found with ⟨r, old, same⟩ | ⟨_, params, _⟩
      · exact composing.params old param (Routine.params_of_origin same ▸ mem)
      · rw [params] at mem
        cases mem
    · rcases origins q r' found with ⟨r, old, same⟩ | ⟨_, _, bindings⟩
      · obtain ⟨slottable, composes⟩ :=
          composing.bindings old binding (Routine.bindings_of_origin same ▸ mem)
        exact ⟨enlarges.settings.symm ▸ slottable, composes.mono enlarges⟩
      · rw [bindings] at mem
        cases mem
    · rcases origins q r' found with ⟨r, old, same⟩ | ⟨isBlock, _, _⟩
      · rw [Routine.owner_of_origin same, enlarges.settings]
        exact composing.owners old (Routine.kind_of_origin same ▸ binds)
      · cases kind : r'.kind <;> simp [kind, RoutineKind.isBlock, RoutineKind.bindsParams] at isBlock binds
  stable_leads base :=
    have ⟨settings, slots, ints, constants, _⟩ := slots_of_base base
    .of_eq settings slots ints constants

/-- Compilations of given lines write composed lines. -/
def Discipline.scoring (lines : List Line) : Discipline :=
  (ByEffect.composing lines).discipline

end CommandPack
