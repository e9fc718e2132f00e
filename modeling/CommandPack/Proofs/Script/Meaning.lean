import CommandPack.Proofs.Script.Reading

/-!
# What scripts do

The structured reading of a script. Commands and tests are opaque: a command changes a user
state, a test is a question about it. Blocks nest, an `else` belongs to the branches before
it, and `break` and `continue` concern the innermost loop around them.
-/

namespace CommandPack

open Argument

/-- What commands and tests mean for user states. Both are known by their arguments with
single spaces between them. -/
structure Meaning (σ : Type) where
  run : String → σ → σ
  holds : String → σ → Prop

namespace Meaning

variable {σ : Type}

/-- A list of clauses lets an execution through. No clause asks for nothing. -/
def passes (m : Meaning σ) (u : σ) : List String → Prop
  | [] => True
  | "if" :: rest => m.holds (Text.join " " rest) u
  | "unless" :: rest => ¬ m.holds (Text.join " " rest) u
  | clauses => m.holds (Text.join " " clauses) u

/-- The words of the clauses that keep a loop going. -/
def loopClauses : LoopTest → List String → List String
  | .holds, clauses => "if" :: clauses
  | .fails, clauses => "unless" :: clauses
  | .clauses, clauses => clauses

end Meaning

namespace Script

/-- How a block ends: at its last statement, by leaving its loop, or by going to the next
round of its loop. -/
inductive Outcome
  | finished
  | left
  | skipped
  deriving DecidableEq, Repr

/-- What there is to do. A block comes with whether a branch of an `else` chain that it may
go on with has been run. -/
inductive Task
  | block (chosen : Bool) (script : Script)
  | rounds (test : LoopTest) (condition : String) (body : Script)
  | repeats (number : Nat) (body : Script)

/-- A task takes a user state to another one and ends in an outcome. -/
inductive Does {σ : Type} (m : Meaning σ) : Task → σ → Outcome → σ → Prop
  | done {chosen : Bool} {u : σ} : Does m (.block chosen .done) u .finished u
  | plain {chosen : Bool} {text : String} {rest : Script} {u v : σ} {o : Outcome}
      (after : Does m (.block false rest) (m.run (Text.join " " (split text)) u) o v) :
      Does m (.block chosen (.plain text rest)) u o v
  | define {chosen : Bool} {name : String} {rest : Script} {u v : σ} {o : Outcome}
      (after : Does m (.block false rest) u o v) :
      Does m (.block chosen (.define name rest)) u o v
  | branch {chosen : Bool} {clauses : String} {body rest : Script} {u mid v : σ} {o : Outcome}
      (pass : m.passes u (split clauses))
      (inner : Does m (.block false body) u .finished mid)
      (after : Does m (.block true rest) mid o v) :
      Does m (.block chosen (.branch clauses body rest)) u o v
  | branchEscapes {chosen : Bool} {clauses : String} {body rest : Script} {u v : σ}
      {o : Outcome} (pass : m.passes u (split clauses))
      (inner : Does m (.block false body) u o v) (escapes : o ≠ .finished) :
      Does m (.block chosen (.branch clauses body rest)) u o v
  | branchFails {chosen : Bool} {clauses : String} {body rest : Script} {u v : σ} {o : Outcome}
      (fail : ¬ m.passes u (split clauses))
      (after : Does m (.block false rest) u o v) :
      Does m (.block chosen (.branch clauses body rest)) u o v
  | otherwise {clauses : String} {body rest : Script} {u mid v : σ} {o : Outcome}
      (pass : m.passes u (split clauses))
      (inner : Does m (.block false body) u .finished mid)
      (after : Does m (.block true rest) mid o v) :
      Does m (.block false (.otherwise clauses body rest)) u o v
  | otherwiseEscapes {clauses : String} {body rest : Script} {u v : σ} {o : Outcome}
      (pass : m.passes u (split clauses))
      (inner : Does m (.block false body) u o v) (escapes : o ≠ .finished) :
      Does m (.block false (.otherwise clauses body rest)) u o v
  | otherwiseFails {clauses : String} {body rest : Script} {u v : σ} {o : Outcome}
      (fail : ¬ m.passes u (split clauses))
      (after : Does m (.block false rest) u o v) :
      Does m (.block false (.otherwise clauses body rest)) u o v
  | otherwiseChosen {clauses : String} {body rest : Script} {u v : σ} {o : Outcome}
      (after : Does m (.block true rest) u o v) :
      Does m (.block true (.otherwise clauses body rest)) u o v
  | times {chosen : Bool} {number : Nat} {body rest : Script} {u mid v : σ} {o : Outcome}
      (inner : Does m (.repeats number body) u .finished mid)
      (after : Does m (.block false rest) mid o v) :
      Does m (.block chosen (.times number body rest)) u o v
  | loop {chosen : Bool} {test : LoopTest} {condition : String} {body rest : Script}
      {u mid v : σ} {o : Outcome}
      (inner : Does m (.rounds test condition body) u .finished mid)
      (after : Does m (.block false rest) mid o v) :
      Does m (.block chosen (.loop test condition body rest)) u o v
  | exit {chosen : Bool} {u : σ} : Does m (.block chosen .exit) u .left u
  | next {chosen : Bool} {u : σ} : Does m (.block chosen .next) u .skipped u
  | roundsEnd {test : LoopTest} {condition : String} {body : Script} {u : σ}
      (fail : ¬ m.passes u (Meaning.loopClauses test (split condition))) :
      Does m (.rounds test condition body) u .finished u
  | roundsGoOn {test : LoopTest} {condition : String} {body : Script} {u mid v : σ}
      {o : Outcome} (pass : m.passes u (Meaning.loopClauses test (split condition)))
      (inner : Does m (.block false body) u o mid) (stays : o ≠ .left)
      (after : Does m (.rounds test condition body) mid .finished v) :
      Does m (.rounds test condition body) u .finished v
  | roundsLeft {test : LoopTest} {condition : String} {body : Script} {u v : σ}
      (pass : m.passes u (Meaning.loopClauses test (split condition)))
      (inner : Does m (.block false body) u .left v) :
      Does m (.rounds test condition body) u .finished v
  | repeatsEnd {body : Script} {u : σ} : Does m (.repeats 0 body) u .finished u
  | repeatsGoOn {number : Nat} {body : Script} {u mid v : σ} {o : Outcome}
      (inner : Does m (.block false body) u o mid) (stays : o ≠ .left)
      (after : Does m (.repeats number body) mid .finished v) :
      Does m (.repeats (number + 1) body) u .finished v
  | repeatsLeft {number : Nat} {body : Script} {u v : σ}
      (inner : Does m (.block false body) u .left v) :
      Does m (.repeats (number + 1) body) u .finished v

end Script

end CommandPack
