import CommandPack.Lowering.Compile
import Mathlib

/-!
# What lowering looks up

Texts and conditions are lowered with what their words stand for in a scope. Two workspaces in which
the words of a text stand for the same give the same text, the same comparisons and the same
clauses.
-/

namespace CommandPack

open Substitution

/-- The name that substitution looks up for a token, if there is one. -/
def Substitution.lookup? (t : Token) : Option String :=
  match t.shape with
  | .word => some (Statement.splitClarifier (Text.trim t.text)).1
  | .quoted => some (Text.trim t.text)
  | _ => none

/-- The names that substitution looks up in an argument. -/
def Substitution.names (argument : String) : List String :=
  (Token.words argument).filterMap lookup?

/-- Some words stand for the same in two workspaces. -/
structure Workspace.LooksLike (known : String → Prop) (scope : Path) (ws ws' : Workspace) :
    Prop where
  words (word : String) : known (Statement.splitClarifier word).1 →
    evaluate ws' scope word = evaluate ws scope word
  quotes (text : String) : known text →
    quotedValue? ws' scope text = quotedValue? ws scope text
  ints (text : String) : known text → ws'.resolveInt? scope text = ws.resolveInt? scope text

namespace Workspace.LooksLike

variable {known : String → Prop} {scope : Path} {ws ws' : Workspace}

theorem substituteWords (h : LooksLike known scope ws ws') (usedUp : Bool) {tokens : List Token}
    (knows : ∀ name ∈ tokens.filterMap Substitution.lookup?, known name) :
    Substitution.substituteWords ws' scope usedUp tokens =
      Substitution.substituteWords ws scope usedUp tokens := by
  induction tokens generalizing usedUp with
  | nil => cases usedUp <;> rfl
  | cons t _ ih =>
    have later (usedUp : Bool) := ih usedUp fun name mem => by
      obtain ⟨u, inside, looked⟩ := List.mem_filterMap.1 mem
      exact knows name (List.mem_filterMap.2 ⟨u, .tail _ inside, looked⟩)
    have here (name : String) (looked : Substitution.lookup? t = some name) : known name :=
      knows name (List.mem_filterMap.2 ⟨t, .head _, looked⟩)
    cases usedUp with
    | true => exact later false
    | false =>
      unfold Substitution.substituteWords
      cases shape : t.shape with
      | word =>
        have same := h.words (Text.trim t.text) (here _ (by rw [Substitution.lookup?, shape]))
        simp only [same, later]
      | quoted =>
        have same := h.quotes (Text.trim t.text) (here _ (by rw [Substitution.lookup?, shape]))
        simp only [same, later]
      | quote => simp only [later]
      | punctuation => simp only [later]

theorem substituteArguments (h : LooksLike known scope ws ws') {arguments : List String}
    (knows : ∀ argument ∈ arguments, ∀ name ∈ Substitution.names argument, known name) :
    Substitution.substituteArguments ws' scope arguments =
      Substitution.substituteArguments ws scope arguments := by
  induction arguments with
  | nil => rfl
  | cons _ _ ih =>
    obtain ⟨here, later⟩ := List.forall_mem_cons.1 knows
    simp only [Substitution.substituteArguments, Substitution.substituteArgument,
      h.substituteWords false here, ih later]

theorem substitute (h : LooksLike known scope ws ws') {text : String}
    (knows : ∀ argument ∈ Argument.split text, ∀ name ∈ Substitution.names argument, known name) :
    Substitution.substitute ws' scope text = Substitution.substitute ws scope text := by
  rw [Substitution.substitute, h.substituteArguments knows, Substitution.substitute]

theorem operand (h : LooksLike known scope ws ws') {piece : Condition.Piece}
    (knows : ∀ text, piece = .source text → known text) :
    Condition.operand ws' scope piece = Condition.operand ws scope piece := by
  cases piece with
  | source text => simp only [Condition.operand, h.ints text (knows text rfl)]
  | test | removed => rfl

theorem check? (h : LooksLike known scope ws ws') {before : List Condition.Piece}
    {sign next : String} (left : ∀ text, before.head? = some (.source text) → known text)
    (right : known next) :
    Condition.check? ws' scope before sign next = Condition.check? ws scope before sign next := by
  have after := h.operand fun text (same : Condition.Piece.source next = .source text) => by
    cases same
    exact right
  unfold Condition.check?
  split
  · next piece _ _ _ => simp only [@operand known scope ws ws' h piece
      (fun text same => left text (same ▸ rfl)), after]
  · rfl

theorem clauses (h : LooksLike known scope ws ws') {pieces : List Condition.Piece}
    (knows : ∀ text, .source text ∈ pieces → ∀ name ∈ names text, known name) :
    Condition.clauses ws' scope pieces = Condition.clauses ws scope pieces := by
  induction pieces with
  | nil => rfl
  | cons piece _ ih =>
    have later := ih fun text mem => knows text (.tail _ mem)
    cases piece with
    | source text =>
      simp only [Condition.clauses, substituteArgument,
        h.substituteWords false (knows text (.head _)), later]
    | test => simp only [Condition.clauses, later]
    | removed => exact later

end Workspace.LooksLike

end CommandPack
