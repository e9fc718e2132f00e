import CommandPack.Text.Numeral

/-!
# Comparisons and score ranges

A score can only be tested against a range with integer ends. Comparing a score
with a value is lying in the range of that comparison.
-/

namespace CommandPack

/-- The ranges a score test can have. -/
inductive ScoreRange
  | exactly (value : Int)
  | atLeast (value : Int)
  | atMost (value : Int)
  deriving DecidableEq, Repr

namespace ScoreRange

def render : ScoreRange → String
  | exactly value => Text.integer value
  | atLeast value => Text.integer value ++ ".."
  | atMost value => ".." ++ Text.integer value

/-- Whether a score lies in the range. -/
def Holds (score : Int) : ScoreRange → Prop
  | exactly value => score = value
  | atLeast value => value ≤ score
  | atMost value => score ≤ value

end ScoreRange

inductive Comparison
  | equal
  | atLeast
  | atMost
  | greater
  | less
  deriving DecidableEq, Repr

namespace Comparison

def ofSymbol? : String → Option Comparison
  | "==" => some equal
  | ">=" => some atLeast
  | "<=" => some atMost
  | ">" => some greater
  | "<" => some less
  | _ => none

def symbol : Comparison → String
  | equal => "=="
  | atLeast => ">="
  | atMost => "<="
  | greater => ">"
  | less => "<"

theorem ofSymbol?_symbol (comparison : Comparison) :
    ofSymbol? comparison.symbol = some comparison := by
  cases comparison <;> rfl

/-- The comparison with its two sides exchanged. -/
def converse : Comparison → Comparison
  | equal => equal
  | atLeast => atMost
  | atMost => atLeast
  | greater => less
  | less => greater

/-- The range of the scores that compare in this way with a value. -/
def range (comparison : Comparison) (value : Int) : ScoreRange :=
  match comparison with
  | equal => .exactly value
  | atLeast => .atLeast value
  | atMost => .atMost value
  | greater => .atLeast (value + 1)
  | less => .atMost (value - 1)

/-- Whether two numbers compare in this way. -/
def Holds (a b : Int) : Comparison → Prop
  | equal => a = b
  | atLeast => b ≤ a
  | atMost => a ≤ b
  | greater => b < a
  | less => a < b

theorem holds_range_iff (comparison : Comparison) (score value : Int) :
    (comparison.range value).Holds score ↔ comparison.Holds score value := by
  cases comparison <;> simp only [range, ScoreRange.Holds, Holds] <;> omega

theorem holds_converse_iff (comparison : Comparison) (a b : Int) :
    comparison.converse.Holds a b ↔ comparison.Holds b a := by
  cases comparison <;> simp only [converse, Holds]
  exact eq_comm

end Comparison

end CommandPack
