import CommandPack.Source.Line
import CommandPack.Statement
import Mathlib

/-!
# Scripts

The structure that the lines of a body have: statements in their order, each header with the
block under it. Reading depends on the depths of the lines and on the form of every line,
but not on the definitions that a name may stand for.
-/

namespace CommandPack

open Text Statement

variable {line : String} {st : Statement}

namespace Statement

/-- The statements that open no block and do not concern a loop. -/
def isPlain : Statement → Bool
  | assign .. | augment .. | step .. | call .. | command .. => true
  | _ => false

/-- Classifies a line where no name stands for a definition. -/
def form (line : String) : Except Cause Statement :=
  classify (fun _ => none) line

/-- The form that the leading word of a line and the text after it decide. -/
def fixed? (head rest line : String) : Except Cause (Option Statement) :=
  match if head = "" then none else ofSign? head rest with
  | some st => .ok (some st)
  | none => ofKeyword? head rest line

/-- Classifying looks the leading word up only if nothing else decides the form. -/
theorem classify_eq (resolve : String → Option Path) (line : String) :
    classify resolve line =
      (fixed? (splitHead (trim line)).1 (splitHead (trim line)).2
        (trim line)).map fun found =>
          match found with
          | some st => st
          | none =>
            let head := (splitHead (trim line)).1
            match if head ≠ "" && !(head ∈ Name.keywords) then resolve head else none with
            | some callee => .call callee (splitHead (trim line)).2
            | none => .command (trim line) := by
  simp only [classify, fixed?, bind, Except.bind, pure, Except.pure]
  generalize splitHead (trim line) = parts
  obtain ⟨head, rest⟩ := parts
  by_cases he : head = ""
  · cases ofKeyword? head rest (trim line) with
    | error => simp [he, Except.map]
    | ok found => cases found <;> simp [he, Except.map]
  · cases ofSign? head rest with
    | some => simp [he, Except.map]
    | none =>
      cases ofKeyword? head rest (trim line) with
      | error => simp [he, Except.map]
      | ok found =>
        cases found with
        | some => simp [he, Except.map]
        | none =>
          by_cases hk : head ∈ Name.keywords
          · simp [he, hk, Except.map]
          · cases resolve head <;> simp [he, hk, Except.map]

/-- Definitions matter only to lines that are commands without them. -/
theorem form_of_classify {resolve : String → Option Path} (h : classify resolve line = .ok st) :
    form line = .ok st ∨
      (∃ callee, resolve (splitHead (trim line)).1 = some callee ∧
        st = .call callee (splitHead (trim line)).2) ∧
      form line = .ok (.command (trim line)) := by
  rw [form, classify_eq]
  rw [classify_eq] at h
  generalize splitHead (trim line) = parts at h ⊢
  generalize fixed? parts.1 parts.2 (trim line) = fixed at h ⊢
  cases fixed with
  | error => simp [Except.map] at h
  | ok found =>
    cases found with
    | some => exact .inl h
    | none =>
      simp only [Except.map, Except.ok.injEq] at h
      split at h
      · next callee hr =>
        split at hr
        · exact .inr ⟨⟨callee, hr, h.symm⟩, by simp [Except.map]⟩
        · cases hr
      · exact .inl (by simp [Except.map, h])

/-- A form that the leading word and the text after it decide. -/
theorem fixed?_of_form (h : form line = .ok st) (other : st ≠ .command (trim line)) :
    fixed? (splitHead (trim line)).1 (splitHead (trim line)).2 (trim line) =
      .ok (some st) := by
  rw [form, classify_eq] at h
  generalize splitHead (trim line) = parts at h ⊢
  generalize fixed? parts.1 parts.2 (trim line) = fixed at h ⊢
  cases fixed with
  | error => simp [Except.map] at h
  | ok found =>
    simp only [Except.map, Except.ok.injEq] at h
    cases found with
    | some => exact congrArg (Except.ok ∘ some) h
    | none =>
      simp only [ite_self] at h
      exact absurd h.symm other

theorem isPlain_of_ofSign? {head rest : String} (h : ofSign? head rest = some st) :
    st.isPlain = true := by
  simp only [ofSign?] at h
  split at h
  · cases h
    rfl
  · split at h
    · cases h
      rfl
    · split at h
      · cases h
        rfl
      · split at h
        · cases h
          rfl
        · cases h

/-- A form that is not plain is decided by a keyword. -/
theorem ofKeyword?_of_form (h : form line = .ok st) (block : st.isPlain = false) :
    ofKeyword? (splitHead (trim line)).1 (splitHead (trim line)).2 (trim line) =
      .ok (some st) := by
  have fixed := fixed?_of_form h (by rintro rfl; cases block)
  unfold fixed? at fixed
  split at fixed
  · next signed =>
    cases fixed
    split at signed
    · cases signed
    · rw [isPlain_of_ofSign? signed] at block
      cases block
  · exact fixed

/-- Without definitions no line is a call. -/
theorem form_ne_call {arguments : String} {callee : Path} :
    form line ≠ .ok (.call callee arguments) := by
  intro h
  have fixed := fixed?_of_form h nofun
  unfold fixed? at fixed
  split at fixed
  · next signed =>
    cases fixed
    simp only [ofSign?] at signed
    grind
  · simp only [ofKeyword?] at fixed
    repeat' split at fixed
    all_goals cases fixed

/-- Only an `else` line is read as the next branch of a chain. -/
theorem head_of_form_otherwise {clauses : String} (h : form line = .ok (.otherwise clauses)) :
    (splitHead (trim line)).1 = "else" := by
  have keyword := ofKeyword?_of_form h rfl
  simp only [ofKeyword?] at keyword
  grind

end Statement

/-- The statements of a block. Nothing follows an `exit` or a `next`, since no line after it
in the same block is reached. A definition is a routine of its own, so its block is no part
of the script. -/
inductive Script
  | done
  | plain (text : String) (rest : Script)
  | define (name : String) (rest : Script)
  | branch (clauses : String) (body rest : Script)
  | otherwise (clauses : String) (body rest : Script)
  | times (number : Nat) (body rest : Script)
  | loop (test : LoopTest) (condition : String) (body rest : Script)
  | exit
  | next
  deriving DecidableEq, Repr

namespace Script

/-- The lines after the block under a line of a given depth. -/
def beyond (depth : Nat) (lines : List Line) : List Line :=
  lines.dropWhile (depth < ·.depth)

/-- The lines from the front on are a block of a given depth with this script. -/
inductive Reads : Nat → List Line → Script → Prop
  | nil {d : Nat} : Reads d [] .done
  | leave {d : Nat} {line : Line} {lines : List Line} (up : line.depth < d) :
      Reads d (line :: lines) .done
  | plain {d : Nat} {line : Line} {lines : List Line} {st : Statement} {rest : Script}
      (here : line.depth = d) (form : form line.text = .ok st)
      (plain : st.isPlain = true) (after : Reads d (beyond d lines) rest) :
      Reads d (line :: lines) (.plain line.text rest)
  | define {d : Nat} {line : Line} {lines : List Line} {name : String} {rest : Script}
      (here : line.depth = d) (form : form line.text = .ok (.define name))
      (after : Reads d (beyond d lines) rest) :
      Reads d (line :: lines) (.define name rest)
  | branch {d : Nat} {line : Line} {lines : List Line} {clauses : String} {body rest : Script}
      (here : line.depth = d) (form : form line.text = .ok (.branch clauses))
      (under : Reads (d + 1) lines body) (after : Reads d (beyond d lines) rest) :
      Reads d (line :: lines) (.branch clauses body rest)
  | otherwise {d : Nat} {line : Line} {lines : List Line} {clauses : String}
      {body rest : Script}
      (here : line.depth = d) (form : form line.text = .ok (.otherwise clauses))
      (under : Reads (d + 1) lines body) (after : Reads d (beyond d lines) rest) :
      Reads d (line :: lines) (.otherwise clauses body rest)
  | times {d : Nat} {line : Line} {lines : List Line} {count : String} {number : Nat}
      {body rest : Script}
      (here : line.depth = d) (form : form line.text = .ok (.times count))
      (counted : unsigned? (trim count) = some number)
      (under : Reads (d + 1) lines body) (after : Reads d (beyond d lines) rest) :
      Reads d (line :: lines) (.times number body rest)
  | loop {d : Nat} {line : Line} {lines : List Line} {test : LoopTest} {condition : String}
      {body rest : Script}
      (here : line.depth = d) (form : form line.text = .ok (.loop test condition))
      (under : Reads (d + 1) lines body) (after : Reads d (beyond d lines) rest) :
      Reads d (line :: lines) (.loop test condition body rest)
  | exit {d : Nat} {line : Line} {lines : List Line}
      (here : line.depth = d) (form : form line.text = .ok .exitLoop) :
      Reads d (line :: lines) .exit
  | next {d : Nat} {line : Line} {lines : List Line}
      (here : line.depth = d) (form : form line.text = .ok .nextRound) :
      Reads d (line :: lines) .next

/-- Lines have at most one script. -/
theorem Reads.unique {d : Nat} {lines : List Line} {a b : Script} (ha : Reads d lines a)
    (hb : Reads d lines b) : a = b := by
  induction ha generalizing b with
  | nil => cases hb; rfl
  | leave => cases hb <;> first | rfl | omega
  | plain _ _ plain _ ih =>
    cases hb with
    | plain _ _ _ after => rw [ih after]
    | leave => omega
    | _ => grind [isPlain]
  | define _ form _ ih =>
    cases hb with
    | define _ form' after =>
      rw [form] at form'
      cases form'
      rw [ih after]
    | leave => omega
    | _ => grind [isPlain]
  | branch _ form _ _ ihBody ih =>
    cases hb with
    | branch _ form' under after =>
      rw [form] at form'
      cases form'
      rw [ihBody under, ih after]
    | leave => omega
    | _ => grind [isPlain]
  | otherwise _ form _ _ ihBody ih =>
    cases hb with
    | otherwise _ form' under after =>
      rw [form] at form'
      cases form'
      rw [ihBody under, ih after]
    | leave => omega
    | _ => grind [isPlain]
  | times _ form counted _ _ ihBody ih =>
    cases hb with
    | times _ form' counted' under after =>
      rw [form] at form'
      cases form'
      rw [counted] at counted'
      cases counted'
      rw [ihBody under, ih after]
    | leave => omega
    | _ => grind [isPlain]
  | loop _ form _ _ ihBody ih =>
    cases hb with
    | loop _ form' under after =>
      rw [form] at form'
      cases form'
      rw [ihBody under, ih after]
    | leave => omega
    | _ => grind [isPlain]
  | exit =>
    cases hb with
    | exit => rfl
    | leave => omega
    | _ => grind [isPlain]
  | next =>
    cases hb with
    | next => rfl
    | leave => omega
    | _ => grind [isPlain]

/-- Whether the first statement goes on with an `else` chain. -/
def startsElse : Script → Bool
  | otherwise .. => true
  | _ => false

/-- The texts of the plain statements, those in blocks as well. -/
def plains : Script → List String
  | done | exit | next => []
  | plain text rest => text :: rest.plains
  | define _ rest => rest.plains
  | branch _ body rest | otherwise _ body rest | times _ body rest | loop _ _ body rest =>
    body.plains ++ rest.plains

/-- Every plain statement and every header has a property. The block of a definition is not
part of the script, so a definition asks for the properties of all texts. -/
def All (text test : String → Prop) : Script → Prop
  | done | exit | next => True
  | plain t rest => text t ∧ rest.All text test
  | define _ rest => ((∀ t, text t) ∧ ∀ t, test t) ∧ rest.All text test
  | branch clauses body rest | otherwise clauses body rest =>
    test clauses ∧ body.All text test ∧ rest.All text test
  | times _ body rest => body.All text test ∧ rest.All text test
  | loop _ condition body rest => test condition ∧ body.All text test ∧ rest.All text test

theorem All.of_forall {text test : String → Prop} (htext : ∀ t, text t) (htest : ∀ t, test t)
    (script : Script) : script.All text test := by
  induction script <;> simp_all [All]

end Script

end CommandPack
