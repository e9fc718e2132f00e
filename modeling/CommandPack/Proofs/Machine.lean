import CommandPack.Workspace
import Mathlib

/-!
# Running commands

The meaning of compiled commands. A state is a user state and the markers that are there. A
call runs the commands of its routine if its clauses pass, every other command changes the
state. Runs keep a log of the routines that they enter, and a run may be cut short anywhere,
so that statements about runs cover endless ones as well.
-/

namespace CommandPack

variable {clauses : List Clause} {tags : String → Prop} {paths : Path → Prop}

/-- The commands of the routines, by path. -/
abbrev Arena := Path → Option (List Command)

/-- The arena of the routines of a workspace. -/
def Workspace.arena (ws : Workspace) : Arena := fun path =>
  (ws.routines.get? path).map Routine.commands

namespace Command

/-- The commands that enter a routine. -/
def isCall : Command → Bool
  | invoke .. => true
  | _ => false

/-- The commands that concern only the user state. -/
def isUser : Command → Bool
  | invoke .. | summonMarker _ | ensureMarker _ | killMarker _ => false
  | _ => true

end Command

namespace Machine

/-- What user commands and the clauses about user states mean. No clause asks for nothing. -/
structure World (σ : Type) where
  act : Command → σ → σ
  passes : List Clause → σ → Prop
  passes_nil (u : σ) : passes [] u

structure State (σ : Type) where
  user : σ
  markers : Set String

variable {σ : Type}

/-- Whether a clause is about a marker. -/
def isMarkerTest : Clause → Bool
  | .marker .. => true
  | _ => false

/-- All clauses pass: those about markers by the markers that are there, the others
together by the user state. -/
def Passes (fx : World σ) (clauses : List Clause) (s : State σ) : Prop :=
  (∀ wanted tag, Clause.marker wanted tag ∈ clauses → (tag ∈ s.markers ↔ wanted = true)) ∧
    fx.passes (clauses.filter fun clause => !isMarkerTest clause) s.user

/-- What a command that is no call does. -/
def step (fx : World σ) (s : State σ) : Command → State σ
  | .summonMarker tag | .ensureMarker tag => { s with markers := insert tag s.markers }
  | .killMarker tag => { s with markers := s.markers \ {tag} }
  | command => { s with user := fx.act command s.user }

/-- Commands run from a state, enter the routines of the log one after the other, and end in
a state, or in none if the run is cut short. -/
inductive Runs (arena : Arena) (fx : World σ) :
    List Command → State σ → List Path → Option (State σ) → Prop
  | cut {commands : List Command} {s : State σ} : Runs arena fx commands s [] none
  | done {s : State σ} : Runs arena fx [] s [] (some s)
  | step {command : Command} {rest : List Command} {s : State σ} {log : List Path}
      {out : Option (State σ)} (noCall : command.isCall = false)
      (after : Runs arena fx rest (step fx s command) log out) :
      Runs arena fx (command :: rest) s log out
  | skip {clauses : List Clause} {mark : CallMark} {rest : List Command} {s : State σ}
      {log : List Path} {out : Option (State σ)} (fail : ¬ Passes fx clauses s)
      (after : Runs arena fx rest s log out) :
      Runs arena fx (.invoke clauses mark :: rest) s log out
  | call {clauses : List Clause} {mark : CallMark} {rest commands : List Command}
      {s mid : State σ} {log log' : List Path} {out : Option (State σ)}
      (pass : Passes fx clauses s) (found : arena mark.target = some commands)
      (inner : Runs arena fx commands s log (some mid))
      (after : Runs arena fx rest mid log' out) :
      Runs arena fx (.invoke clauses mark :: rest) s (mark.target :: (log ++ log')) out
  | enter {clauses : List Clause} {mark : CallMark} {rest commands : List Command}
      {s : State σ} {log : List Path} (pass : Passes fx clauses s)
      (found : arena mark.target = some commands) (inner : Runs arena fx commands s log none) :
      Runs arena fx (.invoke clauses mark :: rest) s (mark.target :: log) none

variable {arena : Arena} {fx : World σ}

/-- Commands that run to their end do so in one way. -/
theorem Runs.unique {commands : List Command} {s t t' : State σ} {log log' : List Path}
    (h : Runs arena fx commands s log (some t)) (h' : Runs arena fx commands s log' (some t')) :
    t = t' ∧ log = log' := by
  generalize hout : some t = out at h
  induction h generalizing t t' log' with
  | cut => cases hout
  | done =>
    cases hout
    cases h'
    exact ⟨rfl, rfl⟩
  | step noCall _ ih =>
    cases h' with
    | step _ after => exact ih after hout
    | skip => cases noCall
    | call => cases noCall
  | skip fail _ ih =>
    cases h' with
    | step noCall => cases noCall
    | skip _ after => exact ih after hout
    | call pass => exact absurd pass fail
  | call pass found _ _ ihInner ih =>
    cases h' with
    | step noCall => cases noCall
    | skip fail => exact absurd pass fail
    | call _ found' inner after =>
      rw [found] at found'
      cases found'
      obtain ⟨rfl, rfl⟩ := ihInner inner rfl
      obtain ⟨rfl, rfl⟩ := ih after hout
      exact ⟨rfl, rfl⟩
  | enter => cases hout

/-! ### Runs of commands one after the other -/

variable {as bs : List Command} {s t mid : State σ} {log log' : List Path} {out : Option (State σ)}

theorem Runs.append (first : Runs arena fx as s log (some mid))
    (second : Runs arena fx bs mid log' out) : Runs arena fx (as ++ bs) s (log ++ log') out := by
  generalize hout : some mid = stop at first
  induction first with
  | cut => cases hout
  | done =>
    cases hout
    exact second
  | step noCall _ ih => exact .step noCall (ih hout)
  | skip fail _ ih => exact .skip fail (ih hout)
  | call pass found inner _ _ ih =>
    rw [List.cons_append, List.cons_append, List.append_assoc]
    exact .call pass found inner (ih hout)
  | enter => cases hout

/-- A run that got to its end may be cut short there. -/
theorem Runs.cut_end (h : Runs arena fx as s log out) : Runs arena fx as s log none := by
  induction h with
  | cut => exact .cut
  | done => exact .cut
  | step noCall _ ih => exact .step noCall ih
  | skip fail _ ih => exact .skip fail ih
  | call pass found inner _ _ ih => exact .call pass found inner ih
  | enter pass found inner => exact .enter pass found inner

/-- Commands run from a state to their end in another one. -/
def Reaches (arena : Arena) (fx : World σ) (commands : List Command) (s t : State σ) : Prop :=
  ∃ log, Runs arena fx commands s log (some t)

theorem Reaches.nil : Reaches arena fx [] s s :=
  ⟨[], .done⟩

theorem Reaches.append (first : Reaches arena fx as s mid) (second : Reaches arena fx bs mid t) :
    Reaches arena fx (as ++ bs) s t := by
  obtain ⟨_, first⟩ := first
  obtain ⟨_, second⟩ := second
  exact ⟨_, first.append second⟩

theorem Reaches.step {command : Command} (noCall : command.isCall = false)
    (after : Reaches arena fx as (step fx s command) t) :
    Reaches arena fx (command :: as) s t := by
  obtain ⟨_, after⟩ := after
  exact ⟨_, .step noCall after⟩

theorem Reaches.skip {clauses : List Clause} {mark : CallMark} (fail : ¬ Passes fx clauses s)
    (after : Reaches arena fx as s t) : Reaches arena fx (.invoke clauses mark :: as) s t := by
  obtain ⟨_, after⟩ := after
  exact ⟨_, .skip fail after⟩

theorem Reaches.call {clauses : List Clause} {mark : CallMark} (pass : Passes fx clauses s)
    (found : arena mark.target = some bs) (inner : Reaches arena fx bs s mid)
    (after : Reaches arena fx as mid t) : Reaches arena fx (.invoke clauses mark :: as) s t := by
  obtain ⟨_, inner⟩ := inner
  obtain ⟨_, after⟩ := after
  exact ⟨_, .call pass found inner after⟩

/-! ### Headers -/

theorem passes_marker_cons {wanted : Bool} {tag : String} :
    Passes fx (.marker wanted tag :: clauses) s ↔
      (tag ∈ s.markers ↔ wanted = true) ∧ Passes fx clauses s := by
  simp only [Passes, List.mem_cons, Clause.marker.injEq]
  constructor
  · rintro ⟨markers, passes⟩
    exact ⟨markers wanted tag (.inl ⟨rfl, rfl⟩), fun w t mem => markers w t (.inr mem), passes⟩
  · rintro ⟨here, markers, passes⟩
    refine ⟨fun w t mem => ?_, passes⟩
    rcases mem with ⟨rfl, rfl⟩ | mem
    · exact here
    · exact markers w t mem

/-- Clauses about the user state pass by the user state. -/
theorem passes_of_unmarked (unmarked : ∀ c ∈ clauses, isMarkerTest c = false) :
    Passes fx clauses s ↔ fx.passes clauses s.user := by
  have same : (clauses.filter fun clause => !isMarkerTest clause) = clauses :=
    List.filter_eq_self.2 fun c mem => by simp [unmarked c mem]
  rw [Passes, same]
  refine and_iff_right fun wanted tag mem => ?_
  cases unmarked _ mem

/-! ### What a run can touch -/

/-- A command changes only markers with certain tags and calls only certain routines. -/
def Confined (tags : String → Prop) (paths : Path → Prop) : Command → Prop
  | .summonMarker tag | .ensureMarker tag | .killMarker tag => tags tag
  | .invoke _ mark => paths mark.target
  | _ => True

theorem Confined.of_isUser {command : Command} (user : command.isUser = true) :
    Confined tags paths command := by
  cases command <;> trivial

/-- Confined commands that call only routines with confined commands leave all other markers
alone and enter no other routine. -/
theorem Runs.frame
    (closed : ∀ p, paths p → ∀ cs, arena p = some cs → ∀ c ∈ cs, Confined tags paths c)
    (h : Runs arena fx as s log out) (confined : ∀ c ∈ as, Confined tags paths c) :
    (∀ p ∈ log, paths p) ∧
      ∀ t, out = some t → ∀ tag, ¬ tags tag → (tag ∈ t.markers ↔ tag ∈ s.markers) := by
  induction h with
  | cut => exact ⟨by simp, by simp⟩
  | done =>
    refine ⟨by simp, ?_⟩
    rintro _ ⟨⟩ tag _
    exact Iff.rfl
  | @step command _ _ _ _ _ _ ih =>
    obtain ⟨entered, frame⟩ := ih fun c mem => confined c (.tail _ mem)
    refine ⟨entered, fun t ht tag free => (frame t ht tag free).trans ?_⟩
    have here := confined command (.head _)
    have other {changed : String} (touched : tags changed) : tag ≠ changed := by
      rintro rfl
      exact free touched
    cases command <;> first | exact Iff.rfl | simp [Machine.step, other here]
  | skip _ _ ih => exact ih fun c mem => confined c (.tail _ mem)
  | call _ found _ _ ihInner ih =>
    have here := confined _ (.head _)
    obtain ⟨entered, frame⟩ := ihInner (closed _ here _ found)
    obtain ⟨entered', frame'⟩ := ih fun c mem => confined c (.tail _ mem)
    refine ⟨?_, fun t ht tag free => (frame' t ht tag free).trans (frame _ rfl tag free)⟩
    intro p mem
    rcases List.mem_cons.1 mem with rfl | mem
    · exact here
    · exact (List.mem_append.1 mem).elim (entered p) (entered' p)
  | enter _ found _ ih =>
    have here := confined _ (.head _)
    obtain ⟨entered, _⟩ := ih (closed _ here _ found)
    refine ⟨?_, by simp⟩
    intro p mem
    rcases List.mem_cons.1 mem with rfl | mem
    · exact here
    · exact entered p mem

end Machine

end CommandPack
