import CommandPack.Proofs.Lowering.Effect
import CommandPack.Proofs.Machine

/-!
# Comparisons of scores

The comparisons of a header and the score tests that stand for them. A difference is computed in
the scratch slot of its left variable, so the tests of a header agree with its comparisons as long
as no scratch slot is needed for two things at once.
-/

namespace CommandPack

open Machine (World)

variable {clause : Clause} {queued : List Command}

/-! ### Scores -/

/-- Scores have 32 bits. -/
def Score.wrap (n : Int) : Int :=
  n.bmod (2 ^ 32)

/-- The numbers that are scores. -/
def Score.Fits (n : Int) : Prop :=
  -2 ^ 31 ≤ n ∧ n < 2 ^ 31

theorem Score.wrap_of_fits {n : Int} (h : Fits n) : wrap n = n := by
  obtain ⟨low, high⟩ := h
  refine Int.bmod_eq_of_le ?_ ?_ <;> omega

/-- A world with scores, by the names of their objectives. -/
structure Scoring {σ : Type} (fx : World σ) (scores : σ → String → Int) : Prop where
  assign (target source : String) (u : σ) :
    scores (fx.act (.combineScores target .assign source) u) =
      Function.update (scores u) target (scores u source)
  subtract (target source : String) (u : σ) :
    scores (fx.act (.combineScores target (.apply .subtract) source) u) =
      Function.update (scores u) target (Score.wrap (scores u target - scores u source))

/-- The score tests of a header pass, each with the word in front of it. -/
def ScoreTestsPass (scores : String → Int) : String → List Clause → Prop
  | _, [] => True
  | _, .words text :: rest => ScoreTestsPass scores text rest
  | word, .score objective range :: rest =>
    (word = "if" ∧ range.Holds (scores objective) ∨
      word = "unless" ∧ ¬ range.Holds (scores objective)) ∧ ScoreTestsPass scores "" rest
  | _, .marker _ _ :: rest => ScoreTestsPass scores "" rest

/-- The score of a variable. -/
def Workspace.score (ws : Workspace) (scores : String → Int) (path : String) : Int :=
  scores ((ws.slots.get? path).getD "")

namespace Condition

/-! ### Comparisons in the source -/

def Operand.value (values : String → Int) : Operand → Int
  | .slot path => values path
  | .literal value => value
  | .other => 0

/-- A comparison of a header, after `if` or after `unless`. -/
structure Compared where
  wanted : Bool
  left : Operand
  comparison : Comparison
  right : Operand

namespace Compared

/-- The word in front of a comparison. -/
def word (c : Compared) : String :=
  if c.wanted then "if" else "unless"

/-- Whether a comparison lets through, given the values of the variables. -/
def Holds (values : String → Int) (c : Compared) : Prop :=
  c.comparison.Holds (c.left.value values) (c.right.value values) ↔ c.wanted = true

/-- A comparison of two variables. -/
def Differs (c : Compared) (left right : String) : Prop :=
  c.left = .slot left ∧ c.right = .slot right

/-- A variable of a comparison. -/
def Uses (c : Compared) (path : String) : Prop :=
  c.left = .slot path ∨ c.right = .slot path

end Compared

/-- What can be compared. -/
inductive Comparable : Operand → Operand → Prop
  | variableLiteral {path : String} {value : Int} : Comparable (.slot path) (.literal value)
  | literalVariable {path : String} {value : Int} : Comparable (.literal value) (.slot path)
  | scores {left right : String} : Comparable (.slot left) (.slot right)

/-- The comparisons among the arguments of a header. No other argument is a comparison sign. -/
inductive Compares (ws : Workspace) (scope : Path) : List String → List Compared → Prop
  | nil : Compares ws scope [] []
  | other {argument : String} {rest : List String} {cs : List Compared}
      (noSign : Comparison.ofSymbol? argument = none) (later : Compares ws scope rest cs) :
      Compares ws scope (argument :: rest) cs
  | comparison {c : Compared} {left sign right : String} {rest : List String}
      {cs : List Compared} (noSign : Comparison.ofSymbol? left = none)
      (hleft : operand ws scope (.source left) = c.left)
      (hsign : Comparison.ofSymbol? sign = some c.comparison)
      (hright : operand ws scope (.source right) = c.right)
      (comparable : Comparable c.left c.right) (later : Compares ws scope rest cs) :
      Compares ws scope (c.word :: left :: sign :: right :: rest) (c :: cs)

/-- No slot is needed for two things at once: neither the scratch slot of a variable, nor the words
that introduce comparisons. -/
structure Apart (ws : Workspace) (scope : Path) (cs : List Compared) : Prop where
  words : ∀ c ∈ cs, ws.resolve? scope c.word = none
  pairs : ∀ c ∈ cs, ∀ d ∈ cs, ∀ left right right', c.Differs left right → d.Differs left right' →
    right = right'
  scratch : ∀ c ∈ cs, ∀ left right, c.Differs left right → ∀ d ∈ cs, ¬ d.Uses (scratch left)

theorem Apart.tail {ws : Workspace} {scope : Path} {c : Compared} {cs : List Compared}
    (h : Apart ws scope (c :: cs)) : Apart ws scope cs where
  words d mem := h.words d (.tail _ mem)
  pairs d mem e mem' := h.pairs d (.tail _ mem) e (.tail _ mem')
  scratch d mem left right differs e mem' :=
    h.scratch d (.tail _ mem) left right differs e (.tail _ mem')

end Condition

/-- Different slots have different objectives. -/
def Workspace.SlotsApart (ws : Workspace) : Prop :=
  ∀ path path' objective, ws.slots.get? path = some objective →
    ws.slots.get? path' = some objective → path = path'

theorem Workspace.slotsApart_iff {ws : Workspace} :
    ws.SlotsApart ↔
      ∀ e ∈ ws.slots.entries, ∀ e' ∈ ws.slots.entries, e.2 = e'.2 → e.1 = e'.1 := by
  simp only [SlotsApart, Table.get?_eq_some_iff]
  constructor
  · rintro h ⟨path, objective⟩ mem ⟨path', _⟩ mem' rfl
    exact h path path' objective mem mem'
  · intro h path path' objective mem mem'
    exact h _ mem _ mem' rfl

instance (ws : Workspace) : Decidable ws.SlotsApart :=
  decidable_of_iff _ Workspace.slotsApart_iff.symm

/-- Integer variables have slots. -/
structure Workspace.Slotted (ws : Workspace) : Prop where
  kinds : ∀ path, ws.symbols.kind? path = some .integer → path ∈ ws.ints
  ints : ∀ path ∈ ws.ints, ∃ objective, ws.slots.get? path = some objective

namespace Condition

open BodyM

variable {ws w w' : Workspace} {scope : Path} {body body' : Body} {c : Compared}
  {cs : List Compared} {before pieces : List Piece} {arguments rest : List String}
  {argument left sign right : String}

/-! ### Lowering one comparison -/

theorem scratch_injective {path path' : String} (h : scratch path = scratch path') :
    path = path' := by
  have chars := congrArg Text.chars h
  rw [scratch, scratch, Text.chars_append, Text.chars_append] at chars
  exact Text.chars_inj.1 (List.append_cancel_right chars)

/-- The workspace in which a comparison is tested: a difference has its scratch slot. -/
def Compared.prepare (c : Compared) (w : Workspace) : Workspace :=
  match c.left, c.right with
  | .slot left, .slot _ => w.addInt (Condition.scratch left)
  | _, _ => w

/-- The test of a comparison and the commands that it needs before it, with the slots of a
workspace. -/
inductive Tested (w : Workspace) : Compared → Clause → List Command → Prop
  | variableLiteral {wanted : Bool} {comparison : Comparison} {path objective : String}
      {value : Int} (slot : w.slots.get? path = some objective) :
      Tested w ⟨wanted, .slot path, comparison, .literal value⟩
        (.score objective (comparison.range value)) []
  | literalVariable {wanted : Bool} {comparison : Comparison} {path objective : String}
      {value : Int} (slot : w.slots.get? path = some objective) :
      Tested w ⟨wanted, .literal value, comparison, .slot path⟩
        (.score objective (comparison.converse.range value)) []
  | scores {wanted : Bool} {comparison : Comparison}
      {left right difference minuend subtrahend : String}
      (hdifference : w.slots.get? (scratch left) = some difference)
      (hminuend : w.slots.get? left = some minuend)
      (hsubtrahend : w.slots.get? right = some subtrahend) :
      Tested w ⟨wanted, .slot left, comparison, .slot right⟩
        (.score difference (comparison.range 0))
        [.combineScores difference .assign minuend,
          .combineScores difference (.apply .subtract) subtrahend]

/-- Operands depend on the variables alone. -/
theorem operand_congr (same : w.symbols = ws.symbols) (piece : Piece) :
    operand w scope piece = operand ws scope piece := by
  cases piece <;> simp only [operand, Workspace.resolveInt?, Workspace.resolve?, same]

/-- An argument that is no sign is set aside. -/
theorem gives_lower_other (noSign : Comparison.ofSymbol? argument = none) :
    Gives (lower scope before (argument :: rest)) body w pieces body' w' ↔
      Gives (lower scope (.source argument :: before) rest) body w pieces body' w' := by
  cases rest with
  | nil => simp [lower]
  | cons next =>
    have checked : check? w scope before argument next = .ok none := by
      unfold check?
      rw [noSign]
      cases before <;> rfl
    simp only [lower, gives_bind, gives_lift, WorkM.gives_query, checked]
    constructor
    · rintro ⟨_, _, _, ⟨⟨same, rfl⟩, rfl⟩, h⟩
      cases same
      exact h
    · intro h
      exact ⟨none, body, w, ⟨⟨rfl, rfl⟩, rfl⟩, h⟩

theorem gives_test_range {slot : String} {range : ScoreRange} :
    Gives (test (.range slot range)) body w clause body' w' ↔
      ∃ objective, w.slots.get? slot = some objective ∧ clause = .score objective range ∧
        body' = body ∧ w' = w := by
  simp only [test, gives_bind, gives_lift, WorkM.gives_query, gives_pure,
    Workspace.objective_eq_ok]
  constructor
  · rintro ⟨objective, _, _, ⟨⟨found, rfl⟩, rfl⟩, rfl, rfl, rfl⟩
    exact ⟨objective, found, rfl, rfl, rfl⟩
  · rintro ⟨objective, found, rfl, rfl, rfl⟩
    exact ⟨objective, _, _, ⟨⟨found, rfl⟩, rfl⟩, rfl, rfl, rfl⟩

theorem gives_test_difference {comparison : Comparison} :
    Gives (test (.difference left right comparison)) body w clause body' w' ↔
      ∃ difference minuend subtrahend,
        (w.addInt (scratch left)).slots.get? (scratch left) = some difference ∧
        (w.addInt (scratch left)).slots.get? left = some minuend ∧
        (w.addInt (scratch left)).slots.get? right = some subtrahend ∧
        clause = .score difference (comparison.range 0) ∧
        body' = { body with
          pending := body.pending ++
            [.combineScores difference .assign minuend,
              .combineScores difference (.apply .subtract) subtrahend] } ∧
        w' = w.addInt (scratch left) := by
  simp only [test, gives_bind, gives_lift, WorkM.gives_query, WorkM.gives_update, gives_modify,
    gives_pure, Workspace.objective_eq_ok]
  constructor
  · rintro ⟨_, _, _, ⟨rfl, rfl⟩, difference, _, _, ⟨⟨hdifference, rfl⟩, rfl⟩, minuend, _, _,
      ⟨⟨hminuend, rfl⟩, rfl⟩, subtrahend, _, _, ⟨⟨hsubtrahend, rfl⟩, rfl⟩, _, _, _, ⟨rfl, rfl⟩,
      rfl, rfl, rfl⟩
    exact ⟨difference, minuend, subtrahend, hdifference, hminuend, hsubtrahend, rfl, rfl, rfl⟩
  · rintro ⟨difference, minuend, subtrahend, hdifference, hminuend, hsubtrahend, rfl, rfl, rfl⟩
    exact ⟨(), _, _, ⟨rfl, rfl⟩, difference, _, _, ⟨⟨hdifference, rfl⟩, rfl⟩, minuend, _, _,
      ⟨⟨hminuend, rfl⟩, rfl⟩, subtrahend, _, _, ⟨⟨hsubtrahend, rfl⟩, rfl⟩, (), _, _, ⟨rfl, rfl⟩,
      rfl, rfl, rfl⟩

/-- A check is made where a comparison is read. -/
theorem gives_lower_check {check : Check} {piece : Piece}
    (checked : check? w scope (piece :: before) sign right = .ok (some check)) :
    Gives (lower scope (piece :: before) (sign :: right :: rest)) body w pieces body' w' ↔
      ∃ clause mid wMid, Gives (test check) body w clause mid wMid ∧
        Gives (lower scope (.removed :: .removed :: .test clause :: before) rest) mid wMid pieces
          body' w' := by
  simp only [lower, gives_bind, gives_lift, WorkM.gives_query, checked]
  constructor
  · rintro ⟨_, _, _, ⟨⟨same, rfl⟩, rfl⟩, h⟩
    cases same
    exact gives_bind.1 h
  · intro h
    exact ⟨some check, body, w, ⟨⟨rfl, rfl⟩, rfl⟩, gives_bind.2 h⟩

theorem Compared.allowsComparison_word (c : Compared) :
    allowsComparison (.source c.word :: before) = true := by
  have known : c.word ∈ conditionals := by
    unfold Compared.word
    cases c.wanted <;> decide
  exact decide_eq_true known

/-- A comparison is tested, and lowering goes on behind it. -/
theorem gives_lower_comparison (allowed : allowsComparison before = true)
    (hleft : operand w scope (.source left) = c.left)
    (hsign : Comparison.ofSymbol? sign = some c.comparison)
    (hright : operand w scope (.source right) = c.right)
    (comparable : Comparable c.left c.right) :
    Gives (lower scope (.source left :: before) (sign :: right :: rest)) body w pieces body' w' ↔
      ∃ clause queued, Tested (c.prepare w) c clause queued ∧
        Gives (lower scope (.removed :: .removed :: .test clause :: before) rest)
          { body with pending := body.pending ++ queued } (c.prepare w) pieces body' w' := by
  have unchanged : { body with pending := body.pending ++ [] } = body := by
    rw [List.append_nil]
  obtain ⟨wanted, l, comparison, r⟩ := c
  simp only at hleft hsign hright comparable
  cases comparable with
  | @variableLiteral path value =>
    have checked : check? w scope (.source left :: before) sign right =
        .ok (some (.range path (comparison.range value))) := by
      simp [check?, hsign, hleft, hright, allowed]
    rw [gives_lower_check checked]
    simp only [gives_test_range]
    constructor
    · rintro ⟨_, _, _, ⟨objective, slot, rfl, rfl, rfl⟩, h⟩
      exact ⟨_, [], .variableLiteral slot, unchanged.symm ▸ h⟩
    · rintro ⟨_, _, tested, h⟩
      cases tested with
      | variableLiteral slot => exact ⟨_, _, _, ⟨_, slot, rfl, rfl, rfl⟩, unchanged ▸ h⟩
  | @literalVariable path value =>
    have checked : check? w scope (.source left :: before) sign right =
        .ok (some (.range path (comparison.converse.range value))) := by
      simp [check?, hsign, hleft, hright, allowed]
    rw [gives_lower_check checked]
    simp only [gives_test_range]
    constructor
    · rintro ⟨_, _, _, ⟨objective, slot, rfl, rfl, rfl⟩, h⟩
      exact ⟨_, [], .literalVariable slot, unchanged.symm ▸ h⟩
    · rintro ⟨_, _, tested, h⟩
      cases tested with
      | literalVariable slot => exact ⟨_, _, _, ⟨_, slot, rfl, rfl, rfl⟩, unchanged ▸ h⟩
  | @scores path path' =>
    have checked : check? w scope (.source left :: before) sign right =
        .ok (some (.difference path path' comparison)) := by
      simp [check?, hsign, hleft, hright, allowed]
    rw [gives_lower_check checked]
    simp only [gives_test_difference]
    constructor
    · rintro ⟨_, _, _, ⟨_, _, _, difference, minuend, subtrahend, rfl, rfl, rfl⟩, h⟩
      exact ⟨_, _, .scores difference minuend subtrahend, h⟩
    · rintro ⟨_, _, tested, h⟩
      cases tested with
      | scores difference minuend subtrahend =>
        exact ⟨_, _, _, ⟨_, _, _, difference, minuend, subtrahend, rfl, rfl, rfl⟩, h⟩

/-! ### Lowering a header -/

/-- A workspace goes on to another one by preparing comparisons. Slots that are no scratch slots of
these comparisons stay, and so do the slots of the integers that are already there. -/
structure Retains (cs : List Compared) (w w' : Workspace) : Prop where
  symbols : w'.symbols = w.symbols
  ints : w.ints ⊆ w'.ints
  slots (path : String) :
    (path ∈ w.ints ∨ ∀ c ∈ cs, ∀ left right, c.Differs left right → path ≠ scratch left) →
      w'.slots.get? path = w.slots.get? path

theorem retains_prepare (c : Compared) (w : Workspace) : Retains [c] w (c.prepare w) := by
  unfold Compared.prepare
  split
  · next left right hleft hright =>
    refine ⟨Workspace.addInt_symbols .., fun path mem => ?_, fun path free => ?_⟩
    · unfold Workspace.addInt
      split
      · exact mem
      · exact List.mem_append_left _ mem
    · unfold Workspace.addInt
      split
      · rfl
      · next unknown =>
        rw [Table.get?_insert, if_neg]
        rintro rfl
        rcases free with known | free
        · exact unknown known
        · exact free c (.head _) left right ⟨hleft, hright⟩ rfl
  · exact ⟨rfl, fun _ mem => mem, fun _ _ => rfl⟩

theorem Retains.cons (h : Retains [c] w w') {w'' : Workspace} (h' : Retains cs w' w'') :
    Retains (c :: cs) w w'' := by
  refine ⟨h'.symbols.trans h.symbols, fun path mem => h'.ints (h.ints mem), fun path free => ?_⟩
  have here : path ∈ w.ints ∨ ∀ d ∈ [c], ∀ left right, d.Differs left right →
      path ≠ scratch left := by
    refine free.imp_right fun free d mem => free d ?_
    rw [List.mem_singleton.1 mem]
    exact .head _
  have later : path ∈ w'.ints ∨ ∀ d ∈ cs, ∀ left right, d.Differs left right →
      path ≠ scratch left :=
    free.imp (fun known => h.ints known) fun free d mem => free d (.tail _ mem)
  rw [h'.slots path later, h.slots path here]

/-- Later comparisons leave the slots of a test alone. -/
theorem Tested.retained (h : Tested (c.prepare w) c clause queued)
    (retains : Retains cs (c.prepare w) w')
    (free : ∀ path, c.Uses path → ∀ d ∈ cs, ∀ left right, d.Differs left right →
      path ≠ scratch left) : Tested w' c clause queued := by
  have slots (path : String) (uses : c.Uses path) :=
    retains.slots path (.inr fun d mem => free path uses d mem)
  generalize hw : c.prepare w = wMid at *
  cases h with
  | variableLiteral slot => exact .variableLiteral ((slots _ (.inl rfl)).trans slot)
  | literalVariable slot => exact .literalVariable ((slots _ (.inr rfl)).trans slot)
  | @scores _ _ left _ _ _ _ hdifference hminuend hsubtrahend =>
    have made : scratch left ∈ wMid.ints := hw ▸ w.mem_ints_addInt (scratch left)
    exact .scores ((retains.slots _ (.inl made)).trans hdifference)
      ((slots _ (.inl rfl)).trans hminuend) ((slots _ (.inr rfl)).trans hsubtrahend)

/-- The pieces of a header and the commands that wait, with the slots of a workspace. -/
inductive Lowered (w : Workspace) : List Compared → List Piece → List Command → Prop
  | nil : Lowered w [] [] []
  | other {argument : String} {cs : List Compared} {pieces : List Piece} {queued : List Command}
      (later : Lowered w cs pieces queued) : Lowered w cs (.source argument :: pieces) queued
  | comparison {c : Compared} {clause : Clause} {commands queued : List Command}
      {cs : List Compared} {pieces : List Piece} (tested : Tested w c clause commands)
      (later : Lowered w cs pieces queued) :
      Lowered w (c :: cs) (.source c.word :: .test clause :: .removed :: .removed :: pieces)
        (commands ++ queued)

theorem Compared.ofSymbol?_word (c : Compared) : Comparison.ofSymbol? c.word = none := by
  unfold Compared.word
  cases c.wanted <;> rfl

/-- What lowering the arguments of a header leaves. -/
theorem Lowered.of_gives (reads : Compares ws scope arguments cs) (same : w.symbols = ws.symbols)
    (apart : Apart ws scope cs)
    (given : Gives (lower scope before arguments) body w pieces body' w') :
    ∃ more queued, pieces = before.reverse ++ more ∧ more.length = arguments.length ∧
      body' = { body with pending := body.pending ++ queued } ∧ Retains cs w w' ∧
      Lowered w' cs more queued := by
  induction reads generalizing before body w with
  | nil =>
    simp only [lower, gives_pure, List.map_nil] at given
    obtain ⟨rfl, rfl, rfl⟩ := given
    refine ⟨[], [], rfl, rfl, ?_, ⟨rfl, fun _ mem => mem, fun _ _ => rfl⟩, .nil⟩
    rw [List.append_nil]
  | @other argument _ _ noSign _ ih =>
    obtain ⟨more, queued, rfl, length, rfl, retains, lowered⟩ :=
      ih same apart ((gives_lower_other noSign).1 given)
    exact ⟨.source argument :: more, queued, by simp, by simp [length], rfl, retains,
      .other lowered⟩
  | @comparison c _ _ _ _ _ noSign hleft hsign hright comparable _ ih =>
    rw [gives_lower_other c.ofSymbol?_word, gives_lower_other noSign,
      gives_lower_comparison c.allowsComparison_word
        ((operand_congr same _).trans hleft) hsign
        ((operand_congr same _).trans hright) comparable] at given
    obtain ⟨clause, commands, tested, given⟩ := given
    have prepared := retains_prepare c w
    obtain ⟨more, queued, rfl, length, rfl, retains, lowered⟩ :=
      ih (prepared.symbols.trans same) apart.tail given
    have tested := tested.retained retains fun path uses d mem l r differs hpath =>
      apart.scratch d (.tail _ mem) l r differs c (.head _) (hpath ▸ uses)
    refine ⟨.source c.word :: .test clause :: .removed :: .removed :: more, commands ++ queued,
      by simp, by simp [length], by simp, prepared.cons retains, .comparison tested lowered⟩

/-! ### Evaluating the tests -/

/-- The word in front of a comparison stays, unless it names a variable. -/
theorem substituteArgument_word (free : ws.resolve? scope c.word = none) :
    Substitution.substituteArgument ws scope c.word = .ok c.word := by
  have tokens : Token.words c.word = [⟨.word, c.word⟩] := by
    unfold Compared.word
    cases c.wanted <;> decide +kernel
  have clarified : Statement.splitClarifier (Text.trim c.word) = (c.word, none) := by
    unfold Compared.word
    cases c.wanted <;> decide +kernel
  have unchanged : Substitution.evaluate ws scope (Text.trim c.word) = .ok none := by
    simp [Substitution.evaluate, clarified, free]
  simp only [Substitution.substituteArgument, tokens, Substitution.substituteWords, unchanged]
  simp [Except.map]

/-- A score test holds, whatever the word in front of it. -/
def ScoreHolds (scores : String → Int) : Clause → Prop
  | .score objective range => range.Holds (scores objective)
  | _ => True

theorem Tested.passes_cons {commands : List Command} {scores : String → Int} {clauses : List Clause}
    (h : Tested w c clause commands) :
    ScoreTestsPass scores c.word (clause :: clauses) ↔
      (ScoreHolds scores clause ↔ c.wanted = true) ∧ ScoreTestsPass scores "" clauses := by
  have word : ∀ p : Prop, (c.word = "if" ∧ p ∨ c.word = "unless" ∧ ¬ p) ↔ (p ↔ c.wanted = true) := by
    intro p
    unfold Compared.word
    cases c.wanted <;> simp
  cases h <;> exact and_congr_left' (word _)

/-- The score tests of a header, one for each of its comparisons. -/
theorem Lowered.passes_iff {out : List Clause} {scores : String → Int} {holds : Compared → Prop}
    (h : Lowered w cs pieces queued) (words : ∀ c ∈ cs, w.resolve? scope c.word = none)
    (agrees : ∀ c ∈ cs, ∀ clause commands, Tested w c clause commands →
      (ScoreHolds scores clause ↔ holds c)) (made : clauses w scope pieces = .ok out)
    (word : String) : ScoreTestsPass scores word out ↔ ∀ c ∈ cs, (holds c ↔ c.wanted = true) := by
  induction h generalizing word out with
  | nil =>
    cases made
    simp [ScoreTestsPass]
  | other _ ih =>
    rw [clauses] at made
    split at made
    · cases made
    · next text _ =>
      cases rest : clauses w scope _ with
      | error =>
        rw [rest] at made
        cases made
      | ok =>
        rw [rest] at made
        cases made
        exact ih words agrees rest text
  | @comparison c clause commands _ _ pieces tested later ih =>
    rw [clauses, substituteArgument_word (words c (.head _))] at made
    simp only [clauses] at made
    cases rest : clauses w scope pieces with
    | error =>
      rw [rest] at made
      cases made
    | ok =>
      rw [rest] at made
      cases made
      have later := ih (fun d mem => words d (.tail _ mem))
        (fun d mem => agrees d (.tail _ mem)) rest ""
      rw [ScoreTestsPass, tested.passes_cons, agrees c (.head _) clause commands tested, later]
      simp

/-! ### Running the commands before the tests -/

section Running

variable {σ : Type} {fx : World σ} {scores : σ → String → Int} {u : σ} {queued : List Command}

/-- Runs commands one after the other. -/
def runAll (fx : World σ) (commands : List Command) (u : σ) : σ :=
  commands.foldl (fun u command => fx.act command u) u

theorem runAll_append (as bs : List Command) :
    runAll fx (as ++ bs) u = runAll fx bs (runAll fx as u) :=
  List.foldl_append

/-- The objectives of a difference, of its minuend and of its subtrahend. -/
structure Compared.Objectives (w : Workspace) (c : Compared)
    (left right difference minuend subtrahend : String) : Prop where
  differs : c.Differs left right
  difference : w.slots.get? (scratch left) = some difference
  minuend : w.slots.get? left = some minuend
  subtrahend : w.slots.get? right = some subtrahend

/-- The objectives of the scratch slots that comparisons write to. -/
def Writes (w : Workspace) (cs : List Compared) (objective : String) : Prop :=
  ∃ c ∈ cs, ∃ left right, c.Differs left right ∧ w.slots.get? (scratch left) = some objective

theorem writes_cons {objective : String} :
    Writes w (c :: cs) objective ↔ Writes w [c] objective ∨ Writes w cs objective := by
  simp [Writes]

/-- The commands before one test. -/
theorem Tested.run (scoring : Scoring fx scores) {clause : Clause} {commands : List Command}
    (h : Tested w c clause commands) (u : σ) :
    (∀ objective, ¬ Writes w [c] objective →
      scores (runAll fx commands u) objective = scores u objective) ∧
    ∀ left right difference minuend subtrahend,
      c.Objectives w left right difference minuend subtrahend → subtrahend ≠ difference →
      scores (runAll fx commands u) difference =
        Score.wrap (scores u minuend - scores u subtrahend) := by
  cases h with
  | variableLiteral => exact ⟨fun _ _ => rfl, fun _ _ _ _ _ slots => nomatch slots.differs.2⟩
  | literalVariable => exact ⟨fun _ _ => rfl, fun _ _ _ _ _ slots => nomatch slots.differs.1⟩
  | @scores _ _ left right difference _ _ hdiff hmin hsub =>
    simp only [runAll, List.foldl_cons, List.foldl_nil, scoring.subtract, scoring.assign]
    refine ⟨fun objective free => ?_, ?_⟩
    · have other : objective ≠ difference := by
        rintro rfl
        exact free ⟨_, .head _, left, right, ⟨rfl, rfl⟩, hdiff⟩
      rw [Function.update_of_ne other, Function.update_of_ne other]
    · rintro _ _ difference' minuend' subtrahend' ⟨⟨⟨⟩, ⟨⟩⟩, hdiff', hmin', hsub'⟩ other
      cases hdiff.symm.trans hdiff'
      cases hmin.symm.trans hmin'
      cases hsub.symm.trans hsub'
      rw [Function.update_self, Function.update_self, Function.update_of_ne other]

/-- The commands before all the tests of a header. Each scratch slot ends up with its difference,
also if several tests need it. -/
theorem Lowered.run (scoring : Scoring fx scores) (slotsApart : w.SlotsApart)
    (apart : Apart ws scope cs) (h : Lowered w cs pieces queued) (u : σ) :
    (∀ objective, ¬ Writes w cs objective →
      scores (runAll fx queued u) objective = scores u objective) ∧
    ∀ c ∈ cs, ∀ left right difference minuend subtrahend,
      c.Objectives w left right difference minuend subtrahend →
      scores (runAll fx queued u) difference =
        Score.wrap (scores u minuend - scores u subtrahend) := by
  induction h generalizing u with
  | nil => exact ⟨fun _ _ => rfl, nofun⟩
  | other _ ih => exact ih apart u
  | @comparison c _ commands _ cs _ tested later ih =>
    obtain ⟨frame, sets⟩ := tested.run scoring u
    obtain ⟨frames, setsLater⟩ := ih apart.tail (runAll fx commands u)
    -- no variable of a comparison is stored in a scratch slot
    have kept (e : Compared) (mem : e ∈ c :: cs) {path objective : String} (uses : e.Uses path)
        (slot : w.slots.get? path = some objective) : ¬ Writes w (c :: cs) objective := by
      rintro ⟨d, memD, left, right, differs, hscratch⟩
      rw [slotsApart _ _ _ slot hscratch] at uses
      exact apart.scratch d memD left right differs e mem uses
    rw [runAll_append]
    refine ⟨fun objective free => ?_, ?_⟩
    · have free := not_or.1 (writes_cons.not.1 free)
      rw [frames objective free.2, frame objective free.1]
    · intro e mem left right difference minuend subtrahend slots
      have freeMinuend := kept e mem (.inl slots.differs.1) slots.minuend
      have freeSubtrahend := kept e mem (.inr slots.differs.2) slots.subtrahend
      -- a later test that needs the same scratch slot computes the same difference
      by_cases again : ∃ d ∈ cs, d.Objectives w left right difference minuend subtrahend
      · obtain ⟨d, memD, slots'⟩ := again
        rw [setsLater d memD left right difference minuend subtrahend slots',
          frame minuend fun writes => freeMinuend (writes_cons.2 (.inl writes)),
          frame subtrahend fun writes => freeSubtrahend (writes_cons.2 (.inl writes))]
      · have here : e = c := by
          rcases List.mem_cons.1 mem with here | inRest
          · exact here
          · exact absurd ⟨e, inRest, slots⟩ again
        subst here
        have other : subtrahend ≠ difference := by
          rintro rfl
          exact freeSubtrahend ⟨e, mem, left, right, slots.differs, slots.difference⟩
        rw [frames difference, sets left right difference minuend subtrahend slots other]
        rintro ⟨d, memD, left', right', differs, hscratch⟩
        have sameScratch := slotsApart _ _ _ slots.difference hscratch
        obtain rfl := scratch_injective sameScratch
        have sameRight := apart.pairs e mem d (.tail _ memD) _ _ _ slots.differs differs
        subst sameRight
        exact again ⟨d, memD, differs, hscratch, slots.minuend, slots.subtrahend⟩

/-- Once the commands before the tests have run, each test says whether its comparison holds. -/
theorem Tested.agrees (scoring : Scoring fx scores) (slotsApart : w.SlotsApart)
    (apart : Apart ws scope cs) (h : Lowered w cs pieces queued) (mem : c ∈ cs)
    (fits : ∀ left right, c.Differs left right →
      Score.Fits (w.score (scores u) left - w.score (scores u) right)) {commands : List Command}
    (tested : Tested w c clause commands) :
    ScoreHolds (scores (runAll fx queued u)) clause ↔
      c.comparison.Holds (c.left.value (w.score (scores u))) (c.right.value (w.score (scores u))) := by
  obtain ⟨frame, sets⟩ := h.run scoring slotsApart apart u
  have kept {path objective : String} (uses : c.Uses path)
      (slot : w.slots.get? path = some objective) :
      scores (runAll fx queued u) objective = w.score (scores u) path := by
    rw [frame, Workspace.score, slot, Option.getD_some]
    rintro ⟨d, memD, left, right, differs, hscratch⟩
    rw [slotsApart _ _ _ slot hscratch] at uses
    exact apart.scratch d memD left right differs c mem uses
  cases tested with
  | variableLiteral slot =>
    rw [ScoreHolds, kept (.inl rfl) slot, Comparison.holds_range_iff]
    rfl
  | literalVariable slot =>
    rw [ScoreHolds, kept (.inr rfl) slot, Comparison.holds_range_iff,
      Comparison.holds_converse_iff]
    rfl
  | @scores wanted comparison left right difference minuend subtrahend hdiff hmin hsub =>
    have differs : Compared.Differs ⟨wanted, .slot left, comparison, .slot right⟩ left right :=
      ⟨rfl, rfl⟩
    have small := fits left right differs
    have value := sets _ mem left right difference minuend subtrahend ⟨differs, hdiff, hmin, hsub⟩
    simp only [Workspace.score, hmin, hsub, Option.getD_some] at small
    rw [Score.wrap_of_fits small] at value
    simp only [ScoreHolds, value, Comparison.holds_range_iff, Operand.value, Workspace.score, hmin,
      hsub, Option.getD_some]
    cases comparison <;> simp only [Comparison.Holds] <;> omega

end Running

/-! ### Headers of comparisons alone -/

theorem kind_of_operand {piece : Piece} {path : String} (h : operand w scope piece = .slot path) :
    w.symbols.kind? path = some .integer := by
  unfold operand at h
  split at h
  · split at h
    · next found =>
      cases h
      simpa using (Option.filter_eq_some_iff.1 found).2
    · split at h <;> cases h
  · cases h

/-- Integer variables go on having slots. -/
theorem slotted_prepare (slotted : w.Slotted) : (c.prepare w).Slotted := by
  have retains := retains_prepare c w
  refine ⟨fun path integer => retains.ints (slotted.kinds path (retains.symbols ▸ integer)), ?_⟩
  intro path mem
  unfold Compared.prepare at mem ⊢
  split at mem
  · unfold Workspace.addInt at mem ⊢
    split at mem
    · next known => exact (if_pos known).symm ▸ slotted.ints path mem
    · next unknown =>
      rw [if_neg unknown]
      simp only [Table.get?_insert]
      split
      · exact ⟨_, rfl⟩
      · next other =>
        exact slotted.ints path ((List.mem_append.1 mem).resolve_right (by simpa using other))
  · exact slotted.ints path mem

/-- Comparisons of variables that have slots can be tested. -/
theorem exists_tested (slotted : w.Slotted) (comparable : Comparable c.left c.right)
    (integers : ∀ path, c.Uses path → w.symbols.kind? path = some .integer) :
    ∃ clause queued, Tested (c.prepare w) c clause queued := by
  have prepared : (c.prepare w).Slotted := slotted_prepare slotted
  have slot (path : String) (uses : c.Uses path) :
      ∃ objective, (c.prepare w).slots.get? path = some objective :=
    prepared.ints path ((retains_prepare c w).ints (slotted.kinds path (integers path uses)))
  generalize hw : c.prepare w = wMid at *
  obtain ⟨wanted, left, comparison, right⟩ := c
  cases comparable with
  | variableLiteral =>
    obtain ⟨objective, found⟩ := slot _ (.inl rfl)
    exact ⟨_, _, .variableLiteral found⟩
  | literalVariable =>
    obtain ⟨objective, found⟩ := slot _ (.inr rfl)
    exact ⟨_, _, .literalVariable found⟩
  | @scores left =>
    have made : scratch left ∈ wMid.ints := hw ▸ w.mem_ints_addInt (scratch left)
    obtain ⟨difference, hdifference⟩ := prepared.ints _ made
    obtain ⟨minuend, hminuend⟩ := slot _ (.inl rfl)
    obtain ⟨subtrahend, hsubtrahend⟩ := slot _ (.inr rfl)
    exact ⟨_, _, .scores hdifference hminuend hsubtrahend⟩

/-- The comparisons of a header can be lowered. -/
theorem exists_gives_lower (reads : Compares ws scope arguments cs) (same : w.symbols = ws.symbols)
    (slotted : w.Slotted) :
    ∃ pieces body' w', Gives (lower scope before arguments) body w pieces body' w' := by
  induction reads generalizing before body w with
  | nil => exact ⟨before.reverse ++ [], body, w, gives_pure.2 ⟨rfl, rfl, rfl⟩⟩
  | other noSign _ ih =>
    simp only [gives_lower_other noSign]
    exact ih same slotted
  | @comparison c left _ right _ _ noSign hleft hsign hright comparable _ ih =>
    have hleft := (operand_congr same (.source left)).trans hleft
    have hright := (operand_congr same (.source right)).trans hright
    simp only [gives_lower_other c.ofSymbol?_word, gives_lower_other noSign,
      gives_lower_comparison c.allowsComparison_word hleft hsign hright comparable]
    have integers (path : String) (uses : c.Uses path) :
        w.symbols.kind? path = some .integer := by
      rcases uses with isLeft | isRight
      · exact kind_of_operand (hleft.trans isLeft)
      · exact kind_of_operand (hright.trans isRight)
    obtain ⟨clause, queued, tested⟩ := exists_tested slotted comparable integers
    have symbols : (c.prepare w).symbols = ws.symbols :=
      (retains_prepare c w).symbols.trans same
    obtain ⟨pieces, body', w', given⟩ := ih symbols (slotted_prepare slotted)
    exact ⟨pieces, body', w', clause, queued, tested, given⟩

theorem Lowered.length_le (h : Lowered w cs pieces queued) : 4 * cs.length ≤ pieces.length := by
  induction h with
  | nil => simp
  | other _ ih => exact ih.trans (by simp)
  | comparison =>
    simp only [List.length_cons]
    omega

/-- The clauses of a header that consists of comparisons can be written. -/
theorem Lowered.exists_clauses (h : Lowered w cs pieces queued)
    (words : ∀ c ∈ cs, w.resolve? scope c.word = none) (alone : pieces.length = 4 * cs.length) :
    ∃ out, clauses w scope pieces = .ok out := by
  induction h with
  | nil => exact ⟨[], rfl⟩
  | other later =>
    have := later.length_le
    rw [List.length_cons] at alone
    omega
  | @comparison c clause _ _ _ _ _ _ ih =>
    simp only [List.length_cons] at alone
    obtain ⟨out, made⟩ := ih (fun d mem => words d (.tail _ mem)) (by omega)
    refine ⟨.words c.word :: clause :: out, ?_⟩
    simp only [clauses, substituteArgument_word (words c (.head _)), made]
    rfl

/-! ### The main statement -/

/-- A header of comparisons can be lowered. Where no slot is needed for two things at once, the
score tests of a header pass, after the commands in front of it, exactly if its comparisons hold
before them. -/
theorem header_compares {σ : Type} {fx : World σ} {scores : σ → String → Int}
    (scoring : Scoring fx scores) {text : String}
    (reads : Compares ws scope (Argument.split text) cs) (apart : Apart ws scope cs) :
    (ws.Slotted → (Argument.split text).length = 4 * cs.length →
      ∃ out body' ws', Gives (header scope text) body ws out body' ws') ∧
    ∀ out body' ws', Gives (header scope text) body ws out body' ws' → ws'.SlotsApart →
      ∃ queued, body'.pending = body.pending ++ queued ∧
        ∀ u, (∀ c ∈ cs, ∀ left right, c.Differs left right →
            Score.Fits (ws'.score (scores u) left - ws'.score (scores u) right)) →
          (ScoreTestsPass (scores (runAll fx queued u)) "" out ↔
            ∀ c ∈ cs, c.Holds (ws'.score (scores u))) := by
  have words {w : Workspace} (retains : Retains cs ws w) :
      ∀ c ∈ cs, w.resolve? scope c.word = none := by
    intro c mem
    rw [Workspace.resolve?, retains.symbols]
    exact apart.words c mem
  refine ⟨fun slotted alone => ?_, fun out body' ws' given slotsApart => ?_⟩
  · obtain ⟨pieces, body', ws', given⟩ := exists_gives_lower reads rfl slotted
    obtain ⟨more, queued, rfl, length, _, retains, lowered⟩ := Lowered.of_gives reads rfl apart given
    obtain ⟨out, made⟩ := lowered.exists_clauses (words retains) (length.trans alone)
    exact ⟨out, body', ws', gives_bind.2 ⟨_, body', ws', given, by simp [made]⟩⟩
  · obtain ⟨pieces, mid, wMid, given, made⟩ := gives_bind.1 given
    simp only [gives_lift, WorkM.gives_query] at made
    obtain ⟨⟨made, rfl⟩, rfl⟩ := made
    obtain ⟨more, queued, rfl, _, rfl, retains, lowered⟩ := Lowered.of_gives reads rfl apart given
    refine ⟨queued, rfl, fun u fits => ?_⟩
    refine lowered.passes_iff (words retains) (fun c mem clause commands tested => ?_) made ""
    exact tested.agrees scoring slotsApart apart lowered mem (fits c mem)

/-- The scores themselves as a world. -/
def scoreWorld : World (String → Int) where
  act
    | .combineScores target .assign source, scores =>
      Function.update scores target (scores source)
    | .combineScores target (.apply .subtract) source, scores =>
      Function.update scores target (Score.wrap (scores target - scores source))
    | _, scores => scores
  passes clauses scores := ScoreTestsPass scores "" clauses
  passes_nil _ := trivial

/-- Three integer variables of the root. -/
def threeInts : Workspace :=
  ((({} : Workspace).declareInt "main.a").declareInt "main.b").declareInt "main.c"

theorem scoring_scoreWorld : Scoring scoreWorld id :=
  ⟨fun _ _ _ => rfl, fun _ _ _ => rfl⟩

/-- The comparisons `if a < b unless b > c if 3 >= a`. -/
def threeComparisons : List Compared :=
  [⟨true, .slot "main.a", .less, .slot "main.b"⟩,
    ⟨false, .slot "main.b", .greater, .slot "main.c"⟩,
    ⟨true, .literal 3, .atLeast, .slot "main.a"⟩]

theorem compares_threeInts :
    Compares threeInts (.root "main") (Argument.split "if a < b unless b > c if 3 >= a")
      threeComparisons := by
  have arguments : Argument.split "if a < b unless b > c if 3 >= a" =
      ["if", "a", "<", "b", "unless", "b", ">", "c", "if", "3", ">=", "a"] := by decide +kernel
  rw [arguments]
  refine .comparison (c := ⟨true, .slot "main.a", .less, .slot "main.b"⟩) rfl rfl rfl rfl
    .scores ?_
  refine .comparison (c := ⟨false, .slot "main.b", .greater, .slot "main.c"⟩) rfl rfl rfl rfl
    .scores ?_
  exact .comparison (c := ⟨true, .literal 3, .atLeast, .slot "main.a"⟩) rfl rfl rfl rfl
    .literalVariable .nil

theorem apart_threeInts : Apart threeInts (.root "main") threeComparisons := by
  refine ⟨by decide +kernel, ?_, ?_⟩
  · intro c mem d mem' left right right' differs differs'
    simp only [threeComparisons, List.mem_cons, List.not_mem_nil, or_false] at mem mem'
    rcases mem with rfl | rfl | rfl <;> obtain ⟨⟨⟩, ⟨⟩⟩ := differs <;>
      rcases mem' with rfl | rfl | rfl <;> simp_all [Compared.Differs]
  · simp [threeComparisons, Compared.Differs, Compared.Uses, scratch]

/-- Comparisons with different scratch slots are tested one by one. -/
theorem header_compares_threeInts :
    ∃ out body' ws',
      Gives (header (.root "main") "if a < b unless b > c if 3 >= a") {} threeInts out body' ws' ∧
      ∀ u : String → Int, (∀ objective, 0 ≤ u objective ∧ u objective ≤ 10) →
        (ScoreTestsPass (runAll scoreWorld body'.pending u) "" out ↔
          u "main.a.0" < u "main.b.1" ∧ u "main.b.1" ≤ u "main.c.2" ∧ u "main.a.0" ≤ 3) := by
  have evaluated : (match header (.root "main") "if a < b unless b > c if 3 >= a" {} threeInts with
      | .ok _ ws' => decide (ws'.SlotsApart ∧ ws'.slots.get? "main.a" = some "main.a.0" ∧
          ws'.slots.get? "main.b" = some "main.b.1" ∧ ws'.slots.get? "main.c" = some "main.c.2")
      | _ => false) = true := by decide +kernel
  split at evaluated
  · next result ws' given =>
    obtain ⟨out, body'⟩ := result
    obtain ⟨slotsApart, a, b, c⟩ := of_decide_eq_true evaluated
    obtain ⟨queued, hqueued, passes⟩ :=
      (header_compares scoring_scoreWorld compares_threeInts apart_threeInts).2 out body' ws' given
        slotsApart
    refine ⟨out, body', ws', given, fun u small => ?_⟩
    rw [hqueued, List.nil_append]
    refine (passes u fun _ _ left right _ => ?_).trans ?_
    · have first := small ((ws'.slots.get? left).getD "")
      have second := small ((ws'.slots.get? right).getD "")
      simp only [Score.Fits, Workspace.score, id_eq]
      omega
    · simp [threeComparisons, Compared.Holds, Operand.value, Comparison.Holds, Workspace.score, a, b,
        c]
  · cases evaluated

/-- Two differences with the same left variable share a scratch slot. The second one overwrites the
first, so the tests never pass although both comparisons may hold. -/
theorem header_confuses_differences :
    ∃ cs out body' ws' u,
      Compares threeInts (.root "main") (Argument.split "if a < b if a > c") cs ∧
      Gives (header (.root "main") "if a < b if a > c") {} threeInts out body' ws' ∧
      ws'.SlotsApart ∧ (∀ objective, 0 ≤ u objective ∧ u objective ≤ 2) ∧
      (∀ c ∈ cs, c.Holds (ws'.score u)) ∧
      ¬ ScoreTestsPass (runAll scoreWorld body'.pending u) "" out := by
  have evaluated : (match header (.root "main") "if a < b if a > c" {} threeInts with
      | .ok (out, _) ws' => decide (ws'.SlotsApart ∧ ws'.slots.get? "main.a" = some "main.a.0" ∧
          ws'.slots.get? "main.b" = some "main.b.1" ∧ ws'.slots.get? "main.c" = some "main.c.2" ∧
          out = [.words "if", .score "main.a.TEST.3" (.atMost (-1)), .words "if",
            .score "main.a.TEST.3" (.atLeast 1)])
      | _ => false) = true := by decide +kernel
  split at evaluated
  · next out body' ws' given =>
    obtain ⟨slotsApart, a, b, c, hout⟩ := of_decide_eq_true evaluated
    refine ⟨[⟨true, .slot "main.a", .less, .slot "main.b"⟩,
        ⟨true, .slot "main.a", .greater, .slot "main.c"⟩], out, body', ws',
      fun objective => if objective = "main.a.0" then 1 else if objective = "main.b.1" then 2 else 0,
      ?_, given, slotsApart, fun objective => ?_, ?_, ?_⟩
    · have arguments : Argument.split "if a < b if a > c" =
          ["if", "a", "<", "b", "if", "a", ">", "c"] := by decide +kernel
      rw [arguments]
      refine .comparison (c := ⟨true, .slot "main.a", .less, .slot "main.b"⟩) rfl rfl rfl rfl
        .scores ?_
      exact .comparison (c := ⟨true, .slot "main.a", .greater, .slot "main.c"⟩) rfl rfl rfl rfl
        .scores .nil
    · simp only
      split
      · decide
      · split <;> decide
    · simp [Compared.Holds, Operand.value, Comparison.Holds, Workspace.score, a, b, c]
    · rw [hout]
      simp only [ScoreTestsPass, ScoreRange.Holds]
      rintro ⟨first, second, -⟩
      simp at first second
      omega
  · cases evaluated

end Condition

end CommandPack
