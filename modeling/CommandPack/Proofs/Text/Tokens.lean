import CommandPack.Proofs.Text.Pieces
import CommandPack.Token

/-!
# Tokens cover their line

Cutting a line into tokens and joining word fragments lose no character.
-/

namespace CommandPack.Token

/-- The characters that tokens cover. -/
def cover (tokens : List Token) : List Char :=
  tokens.flatMap fun t => Text.chars t.text

@[simp]
theorem cover_nil : cover [] = [] := rfl

@[simp]
theorem cover_cons (t : Token) (tokens : List Token) :
    cover (t :: tokens) = Text.chars t.text ++ cover tokens := rfl

@[simp]
theorem cover_append (as bs : List Token) : cover (as ++ bs) = cover as ++ cover bs :=
  List.flatMap_append

theorem chars_join (tokens : List Token) : Text.chars (join tokens) = cover tokens := by
  induction tokens with
  | nil => rfl
  | cons t tokens ih =>
    have step : join (t :: tokens) = t.text ++ join tokens := rfl
    rw [step, Text.chars_append, ih, cover_cons]

@[simp]
theorem cover_held (shape : Shape) (cs : List Char) : cover (held shape cs) = cs.reverse := by
  cases cs with
  | nil => rfl
  | cons => simp only [held, cover_cons, Text.chars_ofList, cover_nil, List.append_nil]

theorem cover_scanFrom (mark : Option Char) (cs rest : List Char) :
    cover (scanFrom mark cs rest) = cs.reverse ++ rest := by
  induction rest generalizing mark cs with
  | nil => cases mark <;> simp [scanFrom]
  | cons _ _ ih =>
    cases mark with
    | some =>
      rw [scanFrom]
      split
      · simp [ih, Text.chars_singleton]
      · simp [ih]
    | none =>
      rw [scanFrom]
      split
      · simp [ih, Text.chars_singleton]
      · split
        · simp [ih, Text.chars_singleton]
        · split <;> simp [ih]

theorem cover_scan (line : String) : cover (scan line) = Text.chars line := by
  rw [scan, cover_scanFrom]
  rfl

theorem cover_joinWords (tokens : List Token) : cover (joinWords tokens) = cover tokens := by
  induction tokens with
  | nil => rfl
  | cons _ _ ih =>
    rw [joinWords]
    split
    · next none =>
      rw [none] at ih
      simp [← ih]
    · next u us some =>
      rw [some] at ih
      split <;> simp [← ih, Text.chars_append]

theorem cover_words (line : String) : cover (words line) = Text.chars line := by
  rw [words, cover_joinWords, cover_scan]

theorem join_words (line : String) : join (words line) = line := by
  rw [← Text.chars_inj, chars_join, cover_words]

end CommandPack.Token
