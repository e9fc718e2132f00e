import CommandPack.Proofs.Lowering.Comparisons

/-!
# Differences of scores

The test of a comparison that stands alone in its header. A comparison with a literal is tested
exactly. Two variables are compared by the sign of their difference, which is computed with 32 bits,
so the test is right as long as the difference fits.
-/

namespace CommandPack

open Machine (World)

/-! ### Differences with 32 bits -/

/-- Scores come round. -/
theorem Score.wrap_add_turn (n : Int) : wrap (n + 2 ^ 32) = wrap n :=
  Int.add_bmod_right n (2 ^ 32)

/-- A difference of two scores is too large by at most one turn. -/
theorem Score.wrap_sub_cases {a b : Int} (ha : Fits a) (hb : Fits b) :
    Fits (a - b) ∧ wrap (a - b) = a - b ∨
      a - b < -2 ^ 31 ∧ wrap (a - b) = a - b + 2 ^ 32 ∧ 0 < wrap (a - b) ∨
      2 ^ 31 ≤ a - b ∧ wrap (a - b) = a - b - 2 ^ 32 ∧ wrap (a - b) < 0 := by
  obtain ⟨lowA, highA⟩ := ha
  obtain ⟨lowB, highB⟩ := hb
  by_cases fits : Fits (a - b)
  · exact .inl ⟨fits, wrap_of_fits fits⟩
  · right
    by_cases low : a - b < -2 ^ 31
    · have turned : wrap (a - b) = a - b + 2 ^ 32 := by
        rw [← wrap_of_fits (n := a - b + 2 ^ 32) ⟨by omega, by omega⟩]
        exact (wrap_add_turn _).symm
      exact .inl ⟨low, turned, by omega⟩
    · have high : 2 ^ 31 ≤ a - b := by
        by_contra small
        exact fits ⟨by omega, by omega⟩
      have turned : wrap (a - b) = a - b - 2 ^ 32 := by
        rw [← wrap_of_fits (n := a - b - 2 ^ 32) ⟨by omega, by omega⟩,
          ← wrap_add_turn (a - b - 2 ^ 32), Int.sub_add_cancel]
      exact .inr ⟨high, turned, by omega⟩

/-- The sign of a difference with 32 bits tells how two scores compare if the difference fits.
Otherwise it tells only whether they are equal. -/
theorem Comparison.holds_wrap_sub_iff {a b : Int} (ha : Score.Fits a) (hb : Score.Fits b)
    (comparison : Comparison) :
    (comparison.Holds (Score.wrap (a - b)) 0 ↔ comparison.Holds a b) ↔
      comparison = .equal ∨ Score.Fits (a - b) := by
  rcases Score.wrap_sub_cases ha hb with ⟨fits, exact⟩ | ⟨low, turned, positive⟩ |
    ⟨high, turned, negative⟩
  · rw [exact]
    cases comparison <;> simp [Comparison.Holds, fits] <;> omega
  · have unfit : ¬ Score.Fits (a - b) := fun fits => absurd fits.1 (by omega)
    cases comparison <;> simp [Comparison.Holds, unfit] <;> omega
  · have unfit : ¬ Score.Fits (a - b) := fun fits => absurd fits.2 (by omega)
    cases comparison <;> simp [Comparison.Holds, unfit] <;> omega

namespace Condition

open BodyM

variable {ws w w' : Workspace} {scope : Path} {body body' : Body} {c : Compared}
  {pieces placed : List Piece} {before after rest : List String} {left sign right : String}

/-! ### Comparisons that stand alone -/

/-- A comparison is the only one among arguments, first or after a word that may introduce it. -/
structure Compared.Alone (ws : Workspace) (scope : Path) (c : Compared) (before : List String)
    (left sign right : String) (after : List String) : Prop where
  noSign : ∀ argument ∈ before ++ left :: after, Comparison.ofSymbol? argument = none
  introduced : ∀ word, before.getLast? = some word → word ∈ conditionals
  left : operand ws scope (.source left) = c.left
  sign : Comparison.ofSymbol? sign = some c.comparison
  right : operand ws scope (.source right) = c.right
  comparable : Comparable c.left c.right

/-- Arguments that are no signs are set aside. -/
theorem gives_lower_others (noSign : ∀ argument ∈ before, Comparison.ofSymbol? argument = none) :
    Gives (lower scope placed (before ++ rest)) body w pieces body' w' ↔
      Gives (lower scope ((before.map .source).reverse ++ placed) rest) body w pieces body' w' := by
  induction before generalizing placed with
  | nil => rfl
  | cons argument _ ih =>
    have later := fun other mem => noSign other (.tail _ mem)
    rw [List.cons_append, gives_lower_other (noSign argument (.head _)), ih later]
    simp

theorem gives_lower_plain (noSign : ∀ argument ∈ after, Comparison.ofSymbol? argument = none) :
    Gives (lower scope placed after) body w pieces body' w' ↔
      pieces = placed.reverse ++ after.map .source ∧ body' = body ∧ w' = w := by
  rw [← List.append_nil after, gives_lower_others noSign, lower]
  · simp [gives_pure]
  · simp

/-- What lowering arguments with one comparison leaves. -/
theorem Compared.Alone.gives_lower (alone : c.Alone w scope before left sign right after) :
    Gives (lower scope [] (before ++ left :: sign :: right :: after)) body w pieces body' w' ↔
      ∃ clause queued, Tested (c.prepare w) c clause queued ∧
        pieces = before.map .source ++ .test clause :: .removed :: .removed :: after.map .source ∧
        body' = { body with pending := body.pending ++ queued } ∧ w' = c.prepare w := by
  have noSign := List.forall_mem_append.1 alone.noSign
  have allowed : allowsComparison (before.map .source).reverse = true := by
    rcases before.eq_nil_or_concat with rfl | ⟨before, word, rfl⟩
    · rfl
    · have known : word ∈ conditionals := alone.introduced word (by simp)
      rw [List.map_concat, List.concat_eq_append, List.reverse_concat]
      exact decide_eq_true known
  rw [gives_lower_others noSign.1, List.append_nil, gives_lower_other (noSign.2 left (.head _)),
    gives_lower_comparison allowed alone.left alone.sign alone.right alone.comparable]
  simp only [gives_lower_plain fun argument mem => noSign.2 argument (.tail _ mem)]
  simp

section Running

variable {σ : Type} {fx : World σ} {scores : σ → String → Int} {u : σ}

/-- The test of one comparison, after the commands that it needs before it. -/
theorem Tested.holds_iff (scoring : Scoring fx scores) {clause : Clause} {queued : List Command}
    (tested : Tested w c clause queued)
    (separate : ∀ left right, c.Differs left right →
      w.slots.get? right ≠ w.slots.get? (scratch left))
    (fits : ∀ objective, Score.Fits (scores u objective)) :
    ((ScoreHolds (scores (runAll fx queued u)) clause ↔
        c.comparison.Holds (c.left.value (w.score (scores u))) (c.right.value (w.score (scores u)))) ↔
      c.comparison = .equal ∨ ∀ left right, c.Differs left right →
        Score.Fits (w.score (scores u) left - w.score (scores u) right)) := by
  have run := (tested.run scoring u).2
  cases tested with
  | @variableLiteral _ comparison path objective value slot =>
    have agrees : ScoreHolds (scores u) (.score objective (comparison.range value)) ↔
        comparison.Holds (w.score (scores u) path) value := by
      rw [ScoreHolds, Comparison.holds_range_iff, Workspace.score, slot, Option.getD_some]
    exact iff_of_true agrees (.inr fun _ _ differs => by cases differs.2)
  | @literalVariable _ comparison path objective value slot =>
    have agrees : ScoreHolds (scores u) (.score objective (comparison.converse.range value)) ↔
        comparison.Holds value (w.score (scores u) path) := by
      rw [ScoreHolds, Comparison.holds_range_iff, Comparison.holds_converse_iff, Workspace.score,
        slot, Option.getD_some]
    exact iff_of_true agrees (.inr fun _ _ differs => by cases differs.1)
  | @scores wanted comparison left right difference minuend subtrahend hdiff hmin hsub =>
    have other : subtrahend ≠ difference := by
      rintro rfl
      exact separate left right ⟨rfl, rfl⟩ (hsub.trans hdiff.symm)
    have value := run left right difference minuend subtrahend ⟨⟨rfl, rfl⟩, hdiff, hmin, hsub⟩ other
    have small : (∀ left' right', Compared.Differs ⟨wanted, .slot left, comparison, .slot right⟩
        left' right' → Score.Fits (w.score (scores u) left' - w.score (scores u) right')) ↔
        Score.Fits (scores u minuend - scores u subtrahend) := by
      simp [Compared.Differs, Workspace.score, hmin, hsub]
    rw [small, ← Comparison.holds_wrap_sub_iff (fits minuend) (fits subtrahend), ← value]
    simp only [ScoreHolds, Comparison.holds_range_iff, Operand.value, Workspace.score, hmin, hsub,
      Option.getD_some]

end Running

/-- A comparison that stands alone can be lowered. After the commands in front of it, its test says
whether the comparison holds, for all scores if a side is a literal or the sign is that of equality,
and otherwise exactly for those whose difference is a score. -/
theorem lower_agrees_iff {σ : Type} {fx : World σ} {scores : σ → String → Int}
    (scoring : Scoring fx scores) (alone : c.Alone ws scope before left sign right after) :
    (ws.Slotted → ∃ pieces body' ws',
      Gives (lower scope [] (before ++ left :: sign :: right :: after)) body ws pieces body' ws') ∧
    ∀ pieces body' ws',
      Gives (lower scope [] (before ++ left :: sign :: right :: after)) body ws pieces body' ws' →
      ∃ objective range queued,
        pieces = before.map .source ++
          .test (.score objective range) :: .removed :: .removed :: after.map .source ∧
        body'.pending = body.pending ++ queued ∧
        ((∀ left right, c.Differs left right →
            ws'.slots.get? right ≠ ws'.slots.get? (scratch left)) →
          ∀ u, (∀ objective, Score.Fits (scores u objective)) →
            ((range.Holds (scores (runAll fx queued u) objective) ↔
                c.comparison.Holds (c.left.value (ws'.score (scores u)))
                  (c.right.value (ws'.score (scores u)))) ↔
              c.comparison = .equal ∨ ∀ left right, c.Differs left right →
                Score.Fits (ws'.score (scores u) left - ws'.score (scores u) right))) := by
  constructor
  · intro slotted
    have integers (path : String) (uses : c.Uses path) :
        ws.symbols.kind? path = some .integer := by
      rcases uses with isLeft | isRight
      · exact kind_of_operand (alone.left.trans isLeft)
      · exact kind_of_operand (alone.right.trans isRight)
    obtain ⟨clause, queued, tested⟩ := exists_tested slotted alone.comparable integers
    exact ⟨_, _, _, alone.gives_lower.2 ⟨clause, queued, tested, rfl, rfl, rfl⟩⟩
  · intro pieces body' ws' given
    obtain ⟨clause, queued, tested, rfl, rfl, rfl⟩ := alone.gives_lower.1 given
    have scored : ∃ objective range, clause = .score objective range := by
      cases tested <;> exact ⟨_, _, rfl⟩
    obtain ⟨objective, range, rfl⟩ := scored
    refine ⟨objective, range, queued, rfl, rfl, fun separate u fits => ?_⟩
    exact tested.holds_iff scoring separate fits

/-- The comparison `a < b`. -/
def aLessB : Compared :=
  ⟨true, .slot "main.a", .less, .slot "main.b"⟩

theorem alone_aLessB (word : String) (known : word ∈ conditionals) :
    aLessB.Alone threeInts (.root "main") [word] "a" "<" "b" [] where
  noSign argument mem := by
    rcases List.mem_cons.1 mem with rfl | mem
    · revert argument
      decide
    · rw [List.mem_singleton.1 mem]
      rfl
  introduced other last := by
    obtain rfl : word = other := by simpa using last
    exact known
  left := rfl
  sign := rfl
  right := rfl
  comparable := .scores

theorem slots_aLessB :
    (aLessB.prepare threeInts).slots.get? "main.a" = some "main.a.0" ∧
      (aLessB.prepare threeInts).slots.get? "main.b" = some "main.b.1" ∧
      (aLessB.prepare threeInts).slots.get? "main.a.TEST" = some "main.a.TEST.3" := by
  decide +kernel

theorem tested_aLessB :
    Tested (aLessB.prepare threeInts) aLessB (.score "main.a.TEST.3" (.atMost (-1)))
      [.combineScores "main.a.TEST.3" .assign "main.a.0",
        .combineScores "main.a.TEST.3" (.apply .subtract) "main.b.1"] :=
  .scores slots_aLessB.2.2 slots_aLessB.1 slots_aLessB.2.1

theorem gives_lower_aLessB (word : String) (known : word ∈ conditionals) :
    Gives (lower (.root "main") [] [word, "a", "<", "b"]) {} threeInts
      [.source word, .test (.score "main.a.TEST.3" (.atMost (-1))), .removed, .removed]
      { pending := [.combineScores "main.a.TEST.3" .assign "main.a.0",
        .combineScores "main.a.TEST.3" (.apply .subtract) "main.b.1"] }
      (aLessB.prepare threeInts) :=
  (alone_aLessB word known).gives_lower.2 ⟨_, _, tested_aLessB, rfl, rfl, rfl⟩

/-- The sign of a difference that fits tells which score is less, in a loop as well. -/
theorem lower_agrees_aLessB :
    ∃ objective range body' ws',
      Gives (lower (.root "main") [] ["while", "a", "<", "b"]) {} threeInts
        [.source "while", .test (.score objective range), .removed, .removed] body' ws' ∧
      ∀ u : String → Int, (∀ objective, Score.Fits (u objective)) →
        ((range.Holds (runAll scoreWorld body'.pending u objective) ↔ u "main.a.0" < u "main.b.1") ↔
          Score.Fits (u "main.a.0" - u "main.b.1")) := by
  have given := gives_lower_aLessB "while" (by decide)
  obtain ⟨a, b, test⟩ := slots_aLessB
  generalize aLessB.prepare threeInts = ws' at given a b test
  obtain ⟨objective, range, queued, pieces, hqueued, agrees⟩ :=
    (lower_agrees_iff scoring_scoreWorld (alone_aLessB "while" (by decide))).2 _ _ _ given
  refine ⟨objective, range, _, ws', pieces ▸ given, fun u fits => ?_⟩
  rw [hqueued, List.nil_append]
  have separate : ∀ left right, aLessB.Differs left right →
      ws'.slots.get? right ≠ ws'.slots.get? (scratch left) := by
    rintro _ _ ⟨⟨⟩, ⟨⟩⟩ same
    exact absurd (b.symm.trans (same.trans test)) (by decide)
  have exactly := agrees separate u fits
  simpa [aLessB, Compared.Differs, Operand.value, Comparison.Holds, Workspace.score, a, b]
    using exactly

/-- The least score is less than one, but their difference comes out positive. -/
theorem lower_misses_overflow :
    ∃ objective range body' ws' u,
      Gives (lower (.root "main") [] ["if", "a", "<", "b"]) {} threeInts
        [.source "if", .test (.score objective range), .removed, .removed] body' ws' ∧
      (∀ objective, Score.Fits (u objective)) ∧ ws'.score u "main.a" < ws'.score u "main.b" ∧
      ¬ range.Holds (runAll scoreWorld body'.pending u objective) := by
  refine ⟨_, _, _, _, fun objective => if objective = "main.a.0" then -2 ^ 31 else 1,
    gives_lower_aLessB "if" (by decide), fun objective => ?_, ?_, ?_⟩
  · dsimp only
    split <;> simp [Score.Fits]
  · simp [Workspace.score, slots_aLessB]
  · simp [runAll, scoreWorld, ScoreRange.Holds]
    decide

end Condition

end CommandPack
