import CommandPack.Proofs.Lowering.Program
import CommandPack.Proofs.Simulation
import CommandPack.Proofs.Text.Tokens

/-!
# Programs without variables

Where no variable is declared and nothing is defined, substitution leaves every text as it is.
Such programs compile to code in the literal dialect, so a compiled program takes every state to
where its script takes it.
-/

namespace CommandPack

open BodyM Statement Argument

variable {arguments : List String}

/-! ### Texts that stay as they are -/

/-- No word asks to be taken verbatim, so every word stands for itself unless it names a
variable. -/
def Statement.IsLiteral (text : String) : Prop :=
  ∀ argument ∈ split text, ∀ word ∈ Token.words argument, word.shape = .word →
    (splitClarifier (Text.trim word.text)).2 ≠ some "v"

instance (text : String) : Decidable (IsLiteral text) :=
  inferInstanceAs (Decidable (∀ argument ∈ split text, ∀ word ∈ Token.words argument,
    word.shape = .word → (splitClarifier (Text.trim word.text)).2 ≠ some "v"))

/-- A line that is passed on as a command. -/
def Statement.IsPassthrough (text : String) : Prop :=
  form text = .ok (.command text) ∧ IsLiteral text

/-- No variable is declared. -/
def Workspace.Undeclared (ws : Workspace) : Prop :=
  ∀ path, ws.symbols.kind? path = none

namespace Workspace.Undeclared

variable {ws : Workspace} {scope : Path} {name text : String}

theorem resolve? (h : ws.Undeclared) : ws.resolve? scope name = none := by
  unfold Workspace.resolve? Symbols.resolve?
  split
  · rfl
  · rw [List.find?_eq_none]
    intro path _
    have none : ws.symbols.kinds.get? path = none := h path
    simp [Symbols.contains, Table.contains_eq, none]

theorem resolveInt? (h : ws.Undeclared) : ws.resolveInt? scope name = none := by
  rw [Workspace.resolveInt?, h.resolve?]
  rfl

theorem substituteWords (h : ws.Undeclared) {tokens : List Token}
    (verbatim : ∀ word ∈ tokens, word.shape = .word →
      (splitClarifier (Text.trim word.text)).2 ≠ some "v") :
    Substitution.substituteWords ws scope false tokens = .ok (Token.join tokens) := by
  induction tokens with
  | nil => rfl
  | cons t tokens ih =>
    have rest := ih fun word mem => verbatim word (.tail _ mem)
    have join : Token.join (t :: tokens) = t.text ++ Token.join tokens := rfl
    rw [Substitution.substituteWords]
    split
    · next shape =>
      have unchanged : Substitution.evaluate ws scope (Text.trim t.text) = .ok none := by
        simp only [Substitution.evaluate, verbatim t (.head _) shape, if_false, h.resolve?]
      rw [unchanged, rest, join]
      rfl
    · have unchanged : Substitution.quotedValue? ws scope (Text.trim t.text) = none := by
        simp only [Substitution.quotedValue?, h.resolve?]
      rw [unchanged, rest, join]
      rfl
    · rw [rest, join]
      rfl

theorem substituteArguments (h : ws.Undeclared)
    (verbatim : ∀ argument ∈ arguments, ∀ word ∈ Token.words argument, word.shape = .word →
      (splitClarifier (Text.trim word.text)).2 ≠ some "v") :
    Substitution.substituteArguments ws scope arguments = .ok arguments := by
  induction arguments with
  | nil => rfl
  | cons argument _ ih =>
    have here : Substitution.substituteArgument ws scope argument = .ok argument := by
      rw [Substitution.substituteArgument, h.substituteWords (verbatim argument (.head _)),
        Token.join_words]
    rw [Substitution.substituteArguments, here, ih fun a mem => verbatim a (.tail _ mem)]
    rfl

theorem substitute (h : ws.Undeclared) (verbatim : IsLiteral text) :
    Substitution.substitute ws scope text = .ok (Text.join " " (split text)) := by
  rw [Substitution.substitute, h.substituteArguments verbatim]
  rfl

/-! ### Headers -/

theorem operand (h : ws.Undeclared) {piece : Condition.Piece} {slot : String} :
    Condition.operand ws scope piece ≠ .slot slot := by
  cases piece with
  | source =>
    simp only [Condition.operand, h.resolveInt?]
    split <;> simp
  | test | removed => simp [Condition.operand]

/-- Without integer variables there is nothing to compare. -/
theorem check? (h : ws.Undeclared) {before : List Condition.Piece} {sign next : String}
    {found : Option Condition.Check}
    (checked : Condition.check? ws scope before sign next = .ok found) : found = none := by
  unfold Condition.check? at checked
  split at checked
  · simp only at checked
    split at checked
    · cases checked
      rfl
    · cases checked
    · cases checked
    · cases checked
    · next hslot _ => exact absurd hslot h.operand
    · next hslot => exact absurd hslot h.operand
    · next hslot _ => exact absurd hslot h.operand
  · cases checked
    rfl

theorem lower (h : ws.Undeclared) {before pieces : List Condition.Piece} {body body' : Body}
    {ws' : Workspace}
    (lowered : Gives (Condition.lower scope before arguments) body ws pieces body' ws') :
    pieces = before.reverse ++ arguments.map .source ∧ body' = body ∧ ws' = ws := by
  induction arguments generalizing before with
  | nil => simpa [Condition.lower] using lowered
  | cons _ arguments ih =>
    cases arguments with
    | nil => simpa [Condition.lower] using lowered
    | cons _ rest =>
      simp only [Condition.lower, gives_bind, gives_lift, WorkM.gives_query] at lowered
      obtain ⟨found, mid, wsMid, ⟨⟨checked, hws⟩, hbody⟩, lowered⟩ := lowered
      rw [hbody, hws, h.check? checked] at lowered
      obtain ⟨hpieces, rest⟩ := ih lowered
      exact ⟨by simpa using hpieces, rest⟩

theorem clauses (h : ws.Undeclared)
    (verbatim : ∀ argument ∈ arguments, ∀ word ∈ Token.words argument, word.shape = .word →
      (splitClarifier (Text.trim word.text)).2 ≠ some "v") :
    Condition.clauses ws scope (arguments.map .source) = .ok (arguments.map .words) := by
  induction arguments with
  | nil => rfl
  | cons argument _ ih =>
    have here : Substitution.substituteArgument ws scope argument = .ok argument := by
      rw [Substitution.substituteArgument, h.substituteWords (verbatim argument (.head _)),
        Token.join_words]
    rw [List.map_cons, Condition.clauses, here, ih fun a mem => verbatim a (.tail _ mem)]
    rfl

theorem header (h : ws.Undeclared) (verbatim : IsLiteral text) {found : List Clause}
    {body body' : Body} {ws' : Workspace}
    (headed : Gives (Condition.header scope text) body ws found body' ws') :
    found = (split text).map .words ∧ body' = body ∧ ws' = ws := by
  simp only [Condition.header, gives_bind, gives_lift, WorkM.gives_query] at headed
  obtain ⟨pieces, mid, wsMid, lowered, ⟨hclauses, hws⟩, hbody⟩ := headed
  obtain ⟨rfl, rfl, rfl⟩ := h.lower lowered
  rw [List.reverse_nil, List.nil_append, h.clauses verbatim] at hclauses
  cases hclauses
  exact ⟨rfl, hbody, hws⟩

end Workspace.Undeclared

/-! ### The regime -/

/-- Nothing is declared, and no line defines anything. -/
structure Workspace.Bare (pack : String) (ws : Workspace) : Prop where
  pack : ws.settings.pack = pack
  undeclared : ws.Undeclared
  noDefs : ∀ line ∈ ws.lines, (splitHead line.text).1 ≠ "def"
  bare {q : Path} {r : Routine} : ws.routines.get? q = some r →
    r.kind ≠ .defined ∧ r.params = [] ∧ r.bindings = []

namespace Workspace.Bare

variable {pack : String} {ws ws' : Workspace}

theorem resolveFunction? (h : ws.Bare pack) (scope : Path) :
    ws.resolveFunction? scope = fun _ => none := by
  funext name
  unfold Workspace.resolveFunction?
  split
  · rfl
  · rw [List.find?_eq_none]
    intro path _
    cases found : ws.routines.get? path with
    | none => simp [isDefined, found]
    | some => simp [isDefined, found, (h.bare found).1]

theorem bindParams_eq (h : ws.Bare pack) {path : Path} {self : Routine}
    (found : ws.routines.get? path = some self) : Lowering.bindParams self ws = ws := by
  obtain ⟨_, params, bindings⟩ := h.bare found
  simp [Lowering.bindParams, Lowering.declaredParams, params, bindings]

theorem gives_registerAll {self : Routine} {index : Nat} {lines : List Line} {u : Unit}
    (noDefs : ∀ line ∈ lines, (splitHead line.text).1 ≠ "def") :
    WorkM.Gives (Definition.registerAll self index lines) ws u ws' ↔ ws' = ws := by
  induction lines generalizing index with
  | nil => simp [Definition.registerAll]
  | cons line _ ih =>
    rw [Definition.registerAll]
    split
    · simp
    · simp only [noDefs line (.head _), decide_false, Bool.and_false, Bool.false_eq_true, if_false]
      exact ih fun line mem => noDefs line (.tail _ mem)

theorem releaseLocals (h : ws.Bare pack) (locals : List String) :
    (Lowering.releaseLocals ws locals).Bare pack := by
  unfold Lowering.releaseLocals
  induction locals generalizing ws with
  | nil => exact h
  | cons _ _ ih =>
    rw [List.foldl_cons]
    apply ih
    split
    · exact h
    · refine ⟨h.pack, fun p => ?_, h.noDefs, h.bare⟩
      have none : ws.symbols.kinds.get? p = none := h.undeclared p
      simp [removeSymbol, Symbols.kind?, Symbols.remove, Table.erase, Table.get?_filter, none]

end Workspace.Bare

/-- Programs without variables and definitions compile to literal code. -/
def Regime.literal (pack : String) : Regime where
  dialect := .literal pack
  Holds := Workspace.Bare pack
  Text := Statement.IsPassthrough
  Test := Statement.IsLiteral
  pack h := h.pack
  stable h symbols lines settings origins := by
    refine ⟨by rw [settings, h.pack], fun path => ?_, by rw [lines]; exact h.noDefs, ?_⟩
    · rw [symbols]
      exact h.undeclared path
    · intro q r' found
      rcases origins q r' found with ⟨r, old, same⟩ | ⟨isBlock, params, bindings⟩
      · rw [Routine.kind_of_origin same, Routine.params_of_origin same,
          Routine.bindings_of_origin same]
        exact h.bare old
      · refine ⟨?_, params, bindings⟩
        intro defined
        rw [defined] at isBlock
        cases isBlock
  plain := by
    rintro compile self site st body body' ws ws' text u ⟨form, verbatim⟩ h parsed _ given
    rw [h.resolveFunction?] at parsed
    rw [Statement.form, parsed] at form
    cases form
    simp only [Lowering.statement, Assignment.substitute, gives_bind, gives_lift,
      WorkM.gives_query, gives_emit] at given
    obtain ⟨line, mid, wsMid, ⟨⟨substituted, rfl⟩, rfl⟩, _, rfl, rfl⟩ := given
    rw [h.undeclared.substitute verbatim] at substituted
    cases substituted
    exact ⟨h, _, rfl, rfl⟩
  header := by
    intro self body body' ws ws' text clauses verbatim h noPending given
    obtain ⟨rfl, rfl, _⟩ := h.undeclared.header verbatim given
    exact ⟨noPending, rfl⟩
  enter h found := by
    rw [h.bindParams_eq found]
    exact h
  scan h given := by
    rw [(Workspace.Bare.gives_registerAll fun line mem =>
      h.noDefs line (List.mem_of_mem_drop mem)).1 given]
    exact h
  release h := h.releaseLocals _

/-- Sources without definitions start in the regime. -/
theorem Workspace.Unbuilt.bare_withRoot {settings : Settings} {ws : Workspace}
    (h : ws.Unbuilt settings)
    (noDefs : ∀ line ∈ ws.lines, (splitHead line.text).1 ≠ "def") :
    ws.withRoot.Bare settings.pack where
  pack := congrArg Settings.pack h.settings
  undeclared path := by
    change ws.symbols.kind? path = none
    rw [h.symbols]
    rfl
  noDefs := noDefs
  bare {q r} found := by
    obtain ⟨-, rfl⟩ := h.only_root found
    exact ⟨nofun, rfl, rfl⟩

/-! ### Compiled programs do what their scripts do -/

/-- A program of commands, branches and loops that compiles has a script, and its root takes every
state without requests about loops to the state that the script leads to, if there is one, and
leaves no such request. -/
theorem Workspace.compile_preserves_meaning {settings : Settings}
    {sources : List (String × String)} {ws final : Workspace}
    (read : Workspace.addSources { settings } sources = .ok ws)
    (compiled : ws.compile = (.ok (), final))
    (noDefs : ∀ line ∈ ws.lines, (Statement.splitHead line.text).1 ≠ "def") :
    ∃ script commands, Script.Reads 0 ws.lines script ∧
      final.arena settings.rootPath = some commands ∧
      (script.All Statement.IsPassthrough Statement.IsLiteral →
        ∀ (σ : Type) (m : Meaning σ) (u v : σ) (o : Script.Outcome) (markers : Set String),
          NoRequests markers → Script.Does m (.block false script) u o v →
          ∃ log t, Machine.Runs final.arena m.world commands ⟨u, markers⟩ log (some t) ∧
            t.user = v ∧ NoRequests t.markers ∧
            ∀ log' t', Machine.Runs final.arena m.world commands ⟨u, markers⟩ log' (some t') →
              t' = t) := by
  have unbuilt := Workspace.unbuilt_of_addSources read
  obtain ⟨_, lines, script, root, reads, found, origin, coded⟩ :=
    unbuilt.compile_coded compiled (.literal settings.pack) (unbuilt.bare_withRoot noDefs)
  refine ⟨script, root.commands, reads, by simp [Workspace.arena, found], fun all => ?_⟩
  intro σ m u v o markers none does
  obtain ⟨_, ⟨script', x, s, used, reads', _, _, code⟩, _⟩ := coded all
  have code := code final.view fun _ _ => rfl
  rw [Routine.depth_of_origin origin, Routine.start_of_origin origin, lines] at reads'
  rw [Routine.loop_of_origin origin, reads'.unique reads] at code
  obtain ⟨markers', none', log, run⟩ := does.reaches code none
  rw [Workspace.arena_view] at run
  exact ⟨log, ⟨v, markers'⟩, run, rfl, none', fun _ _ other => (other.unique run).1⟩

/-- Ticks are counted, and a test can ask whether their number is odd. -/
def Meaning.ticks : Meaning Nat where
  run text n := if text = "say tick" then n + 1 else n
  holds text n := text = "odd" → n % 2 = 1

/-- A loop that goes on after an odd number of ticks and is left after an even one. -/
def Script.ticks : Script :=
  .loop .holds "go" (.plain "say tick" (.branch "if odd" .next .exit)) .done

/-- The loop is left in its second round. -/
theorem Script.does_ticks : Script.Does Meaning.ticks (.block false .ticks) 0 .finished 2 := by
  have go : split "go" = ["go"] := by decide +kernel
  have tick : Text.join " " (split "say tick") = "say tick" := by decide +kernel
  have odd : split "if odd" = ["if", "odd"] := by decide +kernel
  have goes : ∀ u, Meaning.ticks.passes u (Meaning.loopClauses .holds (split "go")) := by
    intro u
    rw [go]
    exact fun isOdd => absurd isOdd (by decide)
  have passes : ∀ u, Meaning.ticks.passes u (split "if odd") ↔ u % 2 = 1 := by
    intro u
    rw [odd]
    exact ⟨fun pass => pass rfl, fun isOdd _ => isOdd⟩
  have first : Script.Does Meaning.ticks
      (.block false (.plain "say tick" (.branch "if odd" .next .exit))) 0 .skipped 1 := by
    refine .plain ?_
    rw [tick]
    exact .branchEscapes ((passes 1).mpr rfl) .next nofun
  have second : Script.Does Meaning.ticks
      (.block false (.plain "say tick" (.branch "if odd" .next .exit))) 1 .left 2 := by
    refine .plain ?_
    rw [tick]
    exact .branchFails (fun pass => absurd ((passes 2).mp pass) (by decide)) .exit
  exact .loop (.roundsGoOn (goes 0) first nofun (.roundsLeft (goes 1) second)) .done

/-- The compiled loop counts two ticks and leaves no request. -/
theorem Workspace.compile_preserves_meaning_ticks :
    ∃ ws final commands log t,
      Workspace.addSources {}
        [("", "while go:\n    say tick\n    if odd:\n        continue\n    break\n")] = .ok ws ∧
      ws.compile = (.ok (), final) ∧ final.arena (.root "main") = some commands ∧
      Machine.Runs final.arena Meaning.ticks.world commands ⟨0, ∅⟩ log (some t) ∧
      t.user = 2 ∧ NoRequests t.markers := by
  obtain ⟨ws, final, read, compiled, lines⟩ : ∃ ws final, Workspace.addSources {}
        [("", "while go:\n    say tick\n    if odd:\n        continue\n    break\n")] = .ok ws ∧
      ws.compile = (.ok (), final) ∧ ws.lines =
        [⟨0, "while go:", 1, 0⟩, ⟨1, "say tick", 2, 0⟩, ⟨1, "if odd:", 3, 0⟩,
          ⟨2, "continue", 4, 0⟩, ⟨1, "break", 5, 0⟩] := by decide +kernel
  obtain ⟨script, commands, reads, found, runs⟩ :=
    Workspace.compile_preserves_meaning read compiled (by
      rw [lines]
      decide +kernel)
  have expected : Script.Reads 0 ws.lines .ticks := by
    have tick : Statement.form "say tick" = .ok (.command "say tick") := rfl
    rw [lines]
    refine .loop rfl rfl ?_ .nil
    refine .plain rfl tick rfl ?_
    exact .branch rfl rfl (.next rfl rfl) (.exit rfl rfl)
  cases reads.unique expected
  have all : Script.ticks.All Statement.IsPassthrough Statement.IsLiteral :=
    ⟨by decide +kernel, ⟨⟨rfl, by decide +kernel⟩, by decide +kernel, trivial, trivial⟩,
      trivial⟩
  obtain ⟨log, t, run, user, none, _⟩ := runs all Nat Meaning.ticks 0 2 .finished ∅
    (fun _ => ⟨id, id⟩) Script.does_ticks
  exact ⟨ws, final, commands, log, t, read, compiled, found, run, user, none⟩

end CommandPack
