import CommandPack.Proofs.Confinement

/-!
# Else chains

Running the code of an `else` chain enters the block of the first branch whose test passes, and
no other block of the chain. A marker of the chain says that a branch has been entered. It is
killed before the first test, so markers that are left over do not matter, and it stays while the
bodies run. A branch that may leave the loop has the rest of the chain in a guarded routine, so
the code of a chain may go over several routines and its end may be in another routine than its
start.
-/

namespace CommandPack

open Machine Code Marker

/-! ### Chains of a script -/

namespace Script

/-- The branches that a script goes on with an `else` chain by: their clauses and bodies. -/
def elses : Script → List (String × Script)
  | otherwise clauses body rest => (clauses, body) :: rest.elses
  | _ => []

/-- What follows these branches. -/
def afterElses : Script → Script
  | otherwise _ _ rest => rest.afterElses
  | script => script

/-- An `else` chain: the clauses and bodies of its branches, and what follows it. -/
structure ElseChain where
  branches : List (String × Script)
  after : Script

/-- All `else` chains of a script, those in blocks as well. -/
def chains : Script → List ElseChain
  | done | exit | next => []
  | plain _ rest | define _ rest => rest.chains
  | branch clauses body rest =>
    (if rest.startsElse then [⟨(clauses, body) :: rest.elses, rest.afterElses⟩] else []) ++
      (body.chains ++ rest.chains)
  | otherwise _ body rest | times _ body rest | loop _ _ body rest => body.chains ++ rest.chains

theorem elses_of_startsElse {script : Script} (h : script.startsElse = false) :
    script.elses = [] ∧ script.afterElses = script := by
  cases script with
  | otherwise => cases h
  | _ => exact ⟨rfl, rfl⟩

end Script

/-! ### Runs through a chain -/

/-- A branch of a chain as it is compiled: the commands before its test, the test and its
block. -/
structure Arm where
  pending : List Command
  header : List Clause
  block : Path
  deriving DecidableEq, Repr

namespace Machine

variable {σ : Type}

/-- The user state after user commands. -/
def acts (fx : World σ) (u : σ) (commands : List Command) : σ :=
  commands.foldl (fun u command => fx.act command u) u

open Classical in
/-- The block of the first arm whose test passes, with the tests taken in order. -/
noncomputable def choose (fx : World σ) : List Arm → σ → Option Path
  | [], _ => none
  | arm :: arms, u =>
    if fx.passes arm.header (acts fx u arm.pending) then some arm.block
    else choose fx arms (acts fx u arm.pending)

/-- How far a run of the commands of a chain has come: it was cut short in the chain, it ended
there, or it went on with commands that follow the chain. The routines that it entered in the
chain are as they should be. -/
inductive Through (arena : Arena) (fx : World σ) (follows : List Command → Prop)
    (whole part : List Path → Prop) (mayEnd : Prop) : List Path → Option (State σ) → Prop
  | cut {log : List Path} (entered : part log) :
      Through arena fx follows whole part mayEnd log none
  | ended {log : List Path} {t : State σ} (entered : whole log) (may : mayEnd) :
      Through arena fx follows whole part mayEnd log (some t)
  | past {log log' : List Path} {rest : List Command} {mid : State σ} {out : Option (State σ)}
      (entered : whole log) (next : follows rest) (after : Runs arena fx rest mid log' out) :
      Through arena fx follows whole part mayEnd (log ++ log') out

/-- From a state the commands of a chain enter the chosen block, if there is one, and no other
block of the chain. They end in the chain only after they entered a block. -/
structure EntersOnly (arena : Arena) (fx : World σ) (follows : List Command → Prop)
    (blocks : List Path) (commands : List Command) (s : State σ) (chosen : Option Path) :
    Prop where
  enters (block : Path) (here : chosen = some block) :
    ∃ log, Runs arena fx commands s (log ++ [block]) none
  passes (none : chosen = none) :
    ∃ log mid rest, follows rest ∧ ∀ log' out, Runs arena fx rest mid log' out →
      Runs arena fx commands s (log ++ log') out
  only (log : List Path) (out : Option (State σ)) (run : Runs arena fx commands s log out) :
    Through arena fx follows (fun log => log.filter (· ∈ blocks) = chosen.toList)
      (fun log => log.filter (· ∈ blocks) <+: chosen.toList) (chosen ≠ none) log out

variable {arena : Arena} {fx : World σ} {follows : List Command → Prop}
  {whole part whole' part' : List Path → Prop} {mayEnd mayEnd' : Prop} {blocks log : List Path}
  {as cs : List Command} {s : State σ} {out : Option (State σ)} {chosen : Option Path}

/-! ### User commands -/

theorem step_of_isUser (fx : World σ) (s : State σ) {command : Command}
    (user : command.isUser = true) :
    command.isCall = false ∧ step fx s command = ⟨fx.act command s.user, s.markers⟩ := by
  cases command <;> first | exact ⟨rfl, rfl⟩ | cases user

/-- User commands enter nothing and leave the markers alone. -/
theorem Runs.of_user_append (user : ∀ c ∈ as, c.isUser = true)
    (h : Runs arena fx (as ++ cs) s log out) :
    log = [] ∧ out = none ∨ Runs arena fx cs ⟨acts fx s.user as, s.markers⟩ log out := by
  induction as generalizing s with
  | nil => exact .inr h
  | cons command _ ih =>
    obtain ⟨noCall, stepped⟩ := step_of_isUser fx s (user command (.head _))
    have later := fun c mem => user c (.tail _ mem)
    cases h with
    | cut => exact .inl ⟨rfl, rfl⟩
    | step _ after =>
      rw [stepped] at after
      exact ih later after
    | skip | call | enter => cases noCall

theorem Runs.user_append (user : ∀ c ∈ as, c.isUser = true)
    (h : Runs arena fx cs ⟨acts fx s.user as, s.markers⟩ log out) :
    Runs arena fx (as ++ cs) s log out := by
  induction as generalizing s with
  | nil => exact h
  | cons command _ ih =>
    obtain ⟨noCall, stepped⟩ := step_of_isUser fx s (user command (.head _))
    refine .step noCall (ih (fun c mem => user c (.tail _ mem)) ?_)
    rw [stepped]
    exact h

/-! ### Putting runs together -/

theorem Through.prepend (h : Through arena fx follows whole part mayEnd log out) (before : List Path)
    (hwhole : ∀ log, whole log → whole' (before ++ log))
    (hpart : ∀ log, part log → part' (before ++ log)) (hend : mayEnd → mayEnd') :
    Through arena fx follows whole' part' mayEnd' (before ++ log) out := by
  cases h with
  | cut entered => exact .cut (hpart _ entered)
  | ended entered may => exact .ended (hwhole _ entered) (hend may)
  | past entered next after =>
    rw [← List.append_assoc]
    exact .past (hwhole _ entered) next after

theorem Through.of_follows (next : follows cs) (none : whole [])
    (run : Runs arena fx cs s log out) : Through arena fx follows whole part mayEnd log out := by
  rw [← List.nil_append log]
  exact .past none next run

/-- Where no branch is left, the commands are those that follow the chain. -/
theorem EntersOnly.of_follows (next : follows cs) :
    EntersOnly arena fx follows blocks cs s none where
  enters _ here := nomatch here
  passes _ := ⟨[], s, cs, next, fun _ _ run => run⟩
  only _ _ run := .of_follows next rfl run

theorem EntersOnly.step {command : Command} (noCall : command.isCall = false)
    (h : EntersOnly arena fx follows blocks cs (step fx s command) chosen) :
    EntersOnly arena fx follows blocks (command :: cs) s chosen where
  enters block here := by
    obtain ⟨log, run⟩ := h.enters block here
    exact ⟨log, .step noCall run⟩
  passes none := by
    obtain ⟨log, mid, rest, next, run⟩ := h.passes none
    exact ⟨log, mid, rest, next, fun log' out after => .step noCall (run log' out after)⟩
  only log out run := by
    cases run with
    | cut => exact .cut (List.nil_prefix)
    | step _ after => exact h.only log out after
    | skip | call | enter => cases noCall

/-- A run of a single call. -/
theorem Runs.of_call {clauses : List Clause} {guard : Path} (found : arena guard = some cs)
    (h : Runs arena fx [.invoke clauses ⟨guard, []⟩] s log out) :
    log = [] ∧ out = none ∨ ¬ Passes fx clauses s ∧ log = [] ∧ out = some s ∨
      Passes fx clauses s ∧ ∃ log', log = guard :: log' ∧ Runs arena fx cs s log' out := by
  cases h with
  | cut => exact .inl ⟨rfl, rfl⟩
  | step noCall => cases noCall
  | skip fail after =>
    cases after with
    | cut => exact .inl ⟨rfl, rfl⟩
    | done => exact .inr (.inl ⟨fail, rfl, rfl⟩)
  | @call _ _ _ _ _ _ inner _ _ pass found' inside after =>
    cases found.symm.trans found'
    refine .inr (.inr ⟨pass, ?_⟩)
    cases after with
    | cut => exact ⟨inner, by simp, inside.cut_end⟩
    | done => exact ⟨inner, by simp, inside⟩
  | enter pass found' inside =>
    cases found.symm.trans found'
    exact .inr (.inr ⟨pass, _, rfl, inside⟩)

/-- The rest of a chain in a guarded routine. -/
theorem EntersOnly.guarded {clauses : List Clause} {guard : Path}
    (h : EntersOnly arena fx follows blocks cs s chosen) (pass : Passes fx clauses s)
    (found : arena guard = some cs) (other : guard ∉ blocks) :
    EntersOnly arena fx follows blocks [.invoke clauses ⟨guard, []⟩] s chosen where
  enters block here := by
    obtain ⟨log, run⟩ := h.enters block here
    exact ⟨guard :: log, .enter pass found run⟩
  passes nowhere := by
    obtain ⟨log, mid, rest, next, run⟩ := h.passes nowhere
    refine ⟨guard :: log, mid, rest, next, fun log' out after => ?_⟩
    cases out with
    | none => exact .enter pass found (run log' none after)
    | some t =>
      rw [← List.append_nil (guard :: log ++ log')]
      exact .call pass found (run log' (some t) after) .done
  only log out run := by
    rcases run.of_call found with ⟨rfl, rfl⟩ | ⟨fail, _⟩ | ⟨_, log', rfl, inner⟩
    · exact .cut (List.nil_prefix)
    · exact absurd pass fail
    · exact (h.only log' out inner).prepend [guard] (by simp [other]) (by simp [other]) id

/-- One more branch in front of the rest of a chain: its block is entered if its test passes, and
then the rest of the chain enters nothing. -/
theorem EntersOnly.arm {pending inner : List Command} {clauses header : List Clause} {block : Path}
    {arms : List Arm} (user : ∀ c ∈ pending, c.isUser = true)
    (test : ∀ u, Passes fx clauses ⟨u, s.markers⟩ ↔ fx.passes header u)
    (found : arena block = some inner) (own : block ∈ blocks)
    (quiet : ∀ u log out, Runs arena fx inner ⟨u, s.markers⟩ log out → ∀ p ∈ log, p ∉ blocks)
    (skips : ∀ u log mid, Runs arena fx inner ⟨u, s.markers⟩ log (some mid) →
      ∀ log' out, Runs arena fx cs mid log' out →
        Through arena fx follows (fun log => log.filter (· ∈ blocks) = [])
          (fun log => log.filter (· ∈ blocks) = []) True log' out)
    (later : EntersOnly arena fx follows blocks cs ⟨acts fx s.user pending, s.markers⟩
      (choose fx arms (acts fx s.user pending))) :
    EntersOnly arena fx follows blocks (pending ++ .invoke clauses ⟨block, []⟩ :: cs) s
      (choose fx (⟨pending, header, block⟩ :: arms) s.user) := by
  by_cases pass : fx.passes header (acts fx s.user pending)
  · have entered := (test _).2 pass
    rw [choose, if_pos pass]
    have alone {u : σ} {log : List Path} {out : Option (State σ)}
        (run : Runs arena fx inner ⟨u, s.markers⟩ log out) :
        (block :: log).filter (· ∈ blocks) = [block] := by
      rw [List.filter_cons_of_pos (by simpa using own), List.filter_eq_nil_iff.2]
      simpa using quiet u log out run
    refine ⟨?_, nofun, ?_⟩
    · rintro _ ⟨⟩
      exact ⟨[], .user_append user (.enter entered found .cut)⟩
    · intro log out run
      rcases run.of_user_append user with ⟨rfl, rfl⟩ | run
      · exact .cut List.nil_prefix
      · cases run with
        | cut => exact .cut List.nil_prefix
        | step noCall => cases noCall
        | skip fail => exact absurd entered fail
        | call _ found' inside after =>
          cases found.symm.trans found'
          have rest := skips _ _ _ inside _ _ after
          rw [← List.cons_append]
          refine rest.prepend _ (fun log none => ?_) (fun log none => ?_) (fun _ => nofun)
          · rw [List.filter_append, alone inside, none]
            rfl
          · rw [List.filter_append, alone inside, none]
            exact List.prefix_refl _
        | enter _ found' inside =>
          cases found.symm.trans found'
          refine .cut ?_
          rw [alone inside]
          exact List.prefix_refl _
  · have skipped : ¬ Passes fx clauses ⟨acts fx s.user pending, s.markers⟩ :=
      fun entered => pass ((test _).1 entered)
    rw [choose, if_neg pass]
    refine ⟨fun block here => ?_, fun nowhere => ?_, fun log out run => ?_⟩
    · obtain ⟨log, run⟩ := later.enters block here
      exact ⟨log, .user_append user (.skip skipped run)⟩
    · obtain ⟨log, mid, rest, next, run⟩ := later.passes nowhere
      exact ⟨log, mid, rest, next, fun log' out after =>
        .user_append user (.skip skipped (run log' out after))⟩
    · rcases run.of_user_append user with ⟨rfl, rfl⟩ | run
      · exact .cut List.nil_prefix
      · cases run with
        | cut => exact .cut List.nil_prefix
        | step noCall => cases noCall
        | skip _ after => exact later.only log out after
        | call entered => exact absurd entered skipped
        | enter entered => exact absurd entered skipped

end Machine

/-! ### The code of a chain -/

namespace Code

/-- Commands hold what follows a chain, by routines other than its blocks. -/
def Follows (D : Dialect) (view : View) (lp : Option Path) (tail : Tail) (tag : String)
    (blocks : List Path) (script : Script) (cs : List Command) : Prop :=
  ∃ x' s' x s used, Code D view lp tail (some tag) (.after x' s' script) cs x s used ∧
    ∀ p ∈ used, p ∉ blocks

/-- An arm holds a branch: its test is the header of the clauses, or none if that header is
empty, and its block runs the body, possibly after a marker is summoned. -/
def ArmOf (D : Dialect) (view : View) (lp : Option Path) (branch : String × Script) (arm : Arm) :
    Prop :=
  ∃ header opening inner x s used, D.tests branch.1 arm.pending header ∧
    (arm.header = header ∨ arm.header = [] ∧ Clause.renderAll D.pack header = "") ∧
    view arm.block = some (lp, opening ++ inner) ∧
    (∀ c ∈ opening, ∃ tag, c = .ensureMarker tag) ∧
    Code D view lp noTail none (.block branch.2) inner x s used

/-- A tail is empty, or it only calls the loop around it again. -/
def TailOf (lp : Option Path) (tail : Tail) : Prop :=
  tail = noTail ∨ ∃ loop pending header, lp = some loop ∧ (∀ c ∈ pending, c.isUser = true) ∧
    tail = loopTail loop pending header

/-- The blocks that code uses are those of the arms. -/
def Own (blocks used : List Path) (arms : List Arm) : Prop :=
  ∀ p ∈ used, p ∈ blocks ↔ p ∈ arms.map Arm.block

/-- No request is there about the loop around some code. -/
def Unasked (lp : Option Path) (markers : Set String) : Prop :=
  ∀ w, lp = some w → exitTag w ∉ markers ∧ roundTag w ∉ markers

/-- Commands hold the rest of a chain. Where the marker is there they enter no block, and where it
is not they enter the first block whose test passes. -/
structure Elses (D : Dialect) (view : View) (lp : Option Path) (tail : Tail) (q : Path)
    (rest : Script) (cs : List Command) (used : List Path) (arms : List Arm) : Prop where
  holds : List.Forall₂ (ArmOf D view lp) rest.elses arms
  mem : ∀ p ∈ arms.map Arm.block, p ∈ used
  stops (last : rest.startsElse = false) (blocks : List Path) (own : Own blocks used arms) :
    Follows D view lp tail (chainTag q) blocks rest.afterElses cs
  skips (blocks : List Path) (own : Own blocks used arms) (σ : Type) (fx : World σ)
    (a : State σ) (marked : chainTag q ∈ a.markers) (log : List Path)
    (out : Option (State σ)) (run : Runs view.arena fx cs a log out) :
    Through view.arena fx (Follows D view lp tail (chainTag q) blocks rest.afterElses)
      (fun log => log.filter (· ∈ blocks) = []) (fun log => log.filter (· ∈ blocks) = []) True
      log out
  enters (quiet : ∀ branch ∈ rest.elses, ∀ text ∈ branch.2.plains, Quiet D text)
    (blocks : List Path) (own : Own blocks used arms) (σ : Type) (fx : World σ) (a : State σ)
    (unmarked : chainTag q ∉ a.markers) (unasked : Unasked lp a.markers) :
    EntersOnly view.arena fx
      (Follows D view lp tail (chainTag q) blocks rest.afterElses) blocks cs a
      (choose fx arms a.user)

variable {D : Dialect} {view : View} {lp : Option Path} {tail : Tail} {q block : Path}
  {body rest : Script} {cs inner : List Command} {x s x' s' : Bool} {used used' blocks : List Path}
  {arm : Arm} {arms : List Arm} {σ : Type} {fx : World σ}

/-- The first arm owns its block, its body uses no block of the chain, and the rest of the chain
has the other arms. -/
theorem Own.split (own : Own blocks (block :: used' ++ used) (arm :: arms))
    (here : arm.block = block) (nodup : (block :: used' ++ used).Nodup)
    (mem : ∀ p ∈ arms.map Arm.block, p ∈ used) :
    block ∈ blocks ∧ (∀ p ∈ used', p ∉ blocks) ∧ Own blocks used arms := by
  subst here
  rw [List.cons_append, List.nodup_cons, List.mem_append, List.nodup_append] at nodup
  obtain ⟨fresh, _, _, apart⟩ := nodup
  refine ⟨(own _ (by simp)).2 (by simp), fun p inBody inBlocks => ?_, fun p inRest => ?_⟩
  · rcases List.mem_cons.1 ((own p (by simp [inBody])).1 inBlocks) with rfl | inArms
    · exact fresh (.inl inBody)
    · exact apart p inBody p (mem p inArms) rfl
  · rw [own p (by simp [inRest]), List.map_cons, List.mem_cons]
    refine or_iff_right ?_
    rintro rfl
    exact fresh (.inr inRest)

/-- The routine of a branch enters only routines of its body, and at its end the marker of the
chain is there if an `else` follows. -/
theorem runs_branch {a : State σ} {log : List Path} {out : Option (State σ)}
    (inside : Code D view lp noTail none (.block body) inner x s used)
    (quiet : ∀ text ∈ body.plains, Quiet D text)
    (apart : ∀ p ∈ used, chainTag p ≠ chainTag q)
    (run : Runs view.arena fx (front (chainTag q) rest ++ inner) a log out) :
    (∀ p ∈ log, p ∈ used) ∧
      ∀ b, out = some b → rest.startsElse = true → chainTag q ∈ b.markers := by
  cases starts : rest.startsElse with
  | false =>
    simp only [front, starts] at run
    exact ⟨(inside.frame quiet run).1, nofun⟩
  | true =>
    simp only [front, starts, if_true, List.cons_append, List.nil_append] at run
    cases run with
    | cut => exact ⟨nofun, nofun⟩
    | step _ after =>
      obtain ⟨entered, kept⟩ := inside.frame quiet after
      refine ⟨entered, fun b hb _ => (kept b hb _ (not_tags_chainTag apart)).2 ?_⟩
      exact Set.mem_insert _ _

namespace Elses

/-- The rest of a chain that has no more branches. -/
theorem of_stop (code : Code D view lp tail (some (chainTag q)) (.after x' s' rest) cs x s
      used) (stop : rest.startsElse = false) : Elses D view lp tail q rest cs used [] := by
  obtain ⟨none, same⟩ := Script.elses_of_startsElse stop
  have follows (blocks : List Path) (own : Own blocks used []) :
      Follows D view lp tail (chainTag q) blocks rest.afterElses cs := by
    rw [same]
    refine ⟨x', s', x, s, used, code, fun p mem inBlocks => ?_⟩
    cases (own p mem).1 inBlocks
  refine ⟨?_, nofun, fun _ => follows, ?_, ?_⟩
  · rw [none]
    exact .nil
  · intro blocks own σ fx a _ log out run
    exact .of_follows (follows blocks own) rfl run
  · intro _ blocks own σ fx a _ _
    exact .of_follows (follows blocks own)

variable {closing : List Command}

/-- After a branch was entered, the rest of the chain enters nothing. -/
theorem closing_skips (h : Elses D view lp tail q rest cs used arms)
    (closes : closing = [] ∨
      closing = [.killMarker (chainTag q)] ∧ rest.startsElse = false)
    (own : Own blocks used arms) {a : State σ}
    (marked : rest.startsElse = true → chainTag q ∈ a.markers) {log : List Path}
    {out : Option (State σ)} (run : Runs view.arena fx (closing ++ cs) a log out) :
    Through view.arena fx (Follows D view lp tail (chainTag q) blocks rest.afterElses)
      (fun log => log.filter (· ∈ blocks) = []) (fun log => log.filter (· ∈ blocks) = []) True
      log out := by
  rcases closes with rfl | ⟨rfl, stop⟩
  · cases starts : rest.startsElse with
    | true => exact h.skips blocks own σ fx a (marked starts) log out run
    | false => exact .of_follows (h.stops starts blocks own) rfl run
  · cases run with
    | cut => exact .cut rfl
    | step _ after => exact .of_follows (h.stops stop blocks own) rfl after

/-- After a test failed, the rest of the chain goes on. -/
theorem closing_enters (h : Elses D view lp tail q rest cs used arms)
    (closes : closing = [] ∨
      closing = [.killMarker (chainTag q)] ∧ rest.startsElse = false)
    (quiet : ∀ branch ∈ rest.elses, ∀ text ∈ branch.2.plains, Quiet D text)
    (own : Own blocks used arms) {a : State σ} (unmarked : chainTag q ∉ a.markers)
    (unasked : Unasked lp a.markers) :
    EntersOnly view.arena fx
      (Follows D view lp tail (chainTag q) blocks rest.afterElses) blocks (closing ++ cs) a
      (choose fx arms a.user) := by
  rcases closes with rfl | ⟨rfl, stop⟩
  · exact h.enters quiet blocks own σ fx a unmarked unasked
  · have none : arms = [] := by
      have holds := h.holds
      rw [(Script.elses_of_startsElse stop).1] at holds
      cases holds
      rfl
    rw [none]
    exact .step rfl (.of_follows (h.stops stop blocks own))

/-- One more `else` in front of the rest of a chain. -/
theorem otherwise {clauses : String} {pending : List Command} {header : List Clause}
    (tests : D.tests clauses pending header)
    (inside : Code D view lp noTail none (.block body) inner x s used')
    (found : view block = some (lp, front (chainTag q) rest ++ inner))
    (apart : ∀ p ∈ used', chainTag p ≠ chainTag q)
    (closes : closing = [] ∨
      closing = [.killMarker (chainTag q)] ∧ rest.startsElse = false)
    (nodup : (block :: used' ++ used).Nodup) (after : Elses D view lp tail q rest cs used arms) :
    Elses D view lp tail q (.otherwise clauses body rest)
      (pending ++ .invoke (.marker false (chainTag q) ::
          if Clause.renderAll D.pack header = "" then [] else header) ⟨block, []⟩ ::
        (closing ++ cs))
      (block :: used' ++ used)
      (⟨pending, if Clause.renderAll D.pack header = "" then [] else header, block⟩ :: arms) := by
  have user := D.isUser_of_tests tests
  have unmarkedHeader : ∀ c ∈ if Clause.renderAll D.pack header = "" then [] else header,
      isMarkerTest c = false := by
    split
    · exact nofun
    · exact D.unmarked_of_tests tests
  have mem : ∀ p ∈ (⟨pending, if Clause.renderAll D.pack header = "" then [] else header, block⟩
      :: arms).map Arm.block, p ∈ block :: used' ++ used := by
    intro p inArms
    rcases List.mem_cons.1 inArms with rfl | inArms
    · simp
    · simp [after.mem p inArms]
  refine ⟨.cons ?_ after.holds, mem, nofun, ?_, ?_⟩
  · refine ⟨header, front (chainTag q) rest, inner, x, s, used', tests, ?_, found, ?_,
      inside⟩
    · split
      · next empty => exact .inr ⟨rfl, empty⟩
      · exact .inl rfl
    · intro c inFront
      unfold front at inFront
      split at inFront
      · exact ⟨_, List.mem_singleton.1 inFront⟩
      · cases inFront
  · -- the marker is there, so the test for its absence fails
    intro blocks own σ fx a marked log out run
    obtain ⟨_, _, ownRest⟩ := own.split rfl nodup after.mem
    have fails (u : σ) : ¬ Passes fx (.marker false (chainTag q) ::
        if Clause.renderAll D.pack header = "" then [] else header) ⟨u, a.markers⟩ := by
      rw [passes_marker_cons]
      intro pass
      exact absurd (pass.1.1 marked) (by decide)
    rcases run.of_user_append user with ⟨rfl, rfl⟩ | run
    · exact .cut rfl
    · cases run with
      | cut => exact .cut rfl
      | step noCall => cases noCall
      | skip _ run =>
        refine after.closing_skips closes ownRest ?_ run
        exact fun _ => marked
      | call pass => exact absurd pass (fails _)
      | enter pass => exact absurd pass (fails _)
  · intro quiet blocks own σ fx a unmarked unasked
    obtain ⟨ownBlock, ownBody, ownRest⟩ := own.split rfl nodup after.mem
    obtain ⟨quietBody, quietRest⟩ := List.forall_mem_cons.1 quiet
    refine EntersOnly.arm user (fun u => ?_) (View.arena_eq found) ownBlock ?_ ?_ ?_
    · rw [passes_marker_cons, passes_of_unmarked unmarkedHeader]
      simp [unmarked]
    · intro u log out run p entered
      exact ownBody p ((runs_branch inside quietBody apart run).1 p entered)
    · intro u log mid run log' out run'
      exact after.closing_skips closes ownRest
        ((runs_branch inside quietBody apart run).2 mid rfl) run'
    · exact after.closing_enters closes quietRest ownRest unmarked unasked

/-- The rest of a chain behind a guard, which lets it through unless the loop is being left. -/
theorem guarded {w guard : Path} (h : Elses D view (some w) tail q rest cs used arms)
    (starts : rest.startsElse = true) (found : view guard = some (some w, cs))
    (fresh : guard ∉ used) :
    Elses D view (some w) tail q rest [.invoke (Block.absenceTests w x' s') ⟨guard, []⟩]
      (guard :: used) arms := by
  have inside (blocks : List Path) (own : Own blocks (guard :: used) arms) :
      guard ∉ blocks ∧ Own blocks used arms :=
    ⟨fun inBlocks => fresh (h.mem guard ((own guard (by simp)).1 inBlocks)),
      fun p mem => own p (by simp [mem])⟩
  refine ⟨h.holds, fun p mem => by simp [h.mem p mem], fun stop => ?_, ?_, ?_⟩
  · rw [starts] at stop
    cases stop
  · intro blocks own σ fx a marked log out run
    obtain ⟨other, own⟩ := inside blocks own
    rcases run.of_call (View.arena_eq found) with ⟨rfl, rfl⟩ | ⟨_, rfl, rfl⟩ | ⟨_, log', rfl, inner⟩
    · exact .cut rfl
    · exact .ended rfl trivial
    · refine (h.skips blocks own σ fx a marked log' out inner).prepend [guard] ?_ ?_ id
      · simp [other]
      · simp [other]
  · intro quiet blocks own σ fx a unmarked unasked
    obtain ⟨other, own⟩ := inside blocks own
    have pass : Passes fx (Block.absenceTests w x' s') a := by
      rw [← List.append_nil (Block.absenceTests w x' s'), passes_absenceTests (by simp)]
      exact ⟨fun _ => (unasked w rfl).1, fun _ => (unasked w rfl).2, fx.passes_nil _⟩
    exact (h.enters quiet blocks own σ fx a unmarked unasked).guarded pass (View.arena_eq found)
      other

/-- The code of the rest of a chain. -/
theorem of_code (code : Code D view lp tail (some (chainTag q)) (.after x' s' rest) cs x s
      used) (nodup : used.Nodup) : ∃ arms, Elses D view lp tail q rest cs used arms := by
  induction rest generalizing x' s' cs x s used with
  | otherwise clauses body rest _ ih =>
    have block {cs : List Command} {x s : Bool} {used : List Path}
        (code : Code D view lp tail (some (chainTag q))
          (.block (.otherwise clauses body rest)) cs x s used) (nodup : used.Nodup) :
        ∃ arms, Elses D view lp tail q (.otherwise clauses body rest) cs used arms := by
      cases code with
      | otherwise tests inside found apart closes after =>
        obtain ⟨arms, elses⟩ := ih after (nodup.sublist (List.sublist_append_right _ _))
        exact ⟨_, elses.otherwise tests inside found apart closes nodup⟩
    cases code with
    | unguarded code => exact block code nodup
    | guarded found code =>
      obtain ⟨fresh, nodup⟩ := List.nodup_cons.1 nodup
      obtain ⟨arms, elses⟩ := block code nodup
      exact ⟨arms, elses.guarded rfl found fresh⟩
    | dropped _ code =>
      -- the code of an `else` has at least one command
      generalize empty : ([] : List Command) = cs at code
      cases code
      simp at empty
  | _ => exact ⟨[], .of_stop code rfl⟩

end Elses

/-- The code of a chain enters the block of the first branch whose test passes, whatever markers of
chains are there. -/
theorem enters_chain {chain : Option String} {clauses : String}
    (code : Code D view lp tail chain (.block (.branch clauses body rest)) cs x s used)
    (nodup : used.Nodup) (starts : rest.startsElse = true) :
    ∃ first arms, used.head? = some first.block ∧
      List.Forall₂ (ArmOf D view lp) ((clauses, body) :: rest.elses) (first :: arms) ∧
      ((∀ branch ∈ (clauses, body) :: rest.elses, ∀ text ∈ branch.2.plains, Quiet D text) →
        ∀ (σ : Type) (fx : World σ) (a : State σ), Unasked lp a.markers →
          EntersOnly view.arena fx
            (Follows D view lp tail (chainTag first.block) ((first :: arms).map Arm.block)
              rest.afterElses)
            ((first :: arms).map Arm.block) cs a (choose fx (first :: arms) a.user)) := by
  cases code with
  | @branch _ _ _ _ _ _ block pending opening inner _ header x' s' _ _ used' used tests inside found
      apart opens after =>
    obtain ⟨arms, elses⟩ := Elses.of_code after (nodup.sublist (List.sublist_append_right _ _))
    refine ⟨⟨pending, header, block⟩, arms, rfl, .cons ?_ elses.holds, ?_⟩
    · refine ⟨header, front (chainTag block) rest, inner, x', s', used', tests, .inl rfl,
        found, ?_, inside⟩
      intro c inFront
      rw [front, if_pos starts] at inFront
      exact ⟨_, List.mem_singleton.1 inFront⟩
    · intro quiet σ fx a unasked
      obtain ⟨quietBody, quietRest⟩ := List.forall_mem_cons.1 quiet
      have own : Own ((⟨pending, header, block⟩ :: arms).map Arm.block) (block :: used' ++ used)
        (⟨pending, header, block⟩ :: arms) := fun _ _ => Iff.rfl
      obtain ⟨ownBlock, ownBody, ownRest⟩ := own.split rfl nodup elses.mem
      have killed : opening = [.killMarker (chainTag block)] := by
        rcases opens with opens | ⟨_, stop⟩
        · exact opens
        · rw [starts] at stop
          cases stop
      rw [killed]
      refine .step rfl (.arm (D.isUser_of_tests tests) (fun u => ?_) (View.arena_eq found) ownBlock
        ?_ ?_ ?_)
      · exact passes_of_unmarked (D.unmarked_of_tests tests)
      · intro u log out run p entered
        exact ownBody p ((runs_branch inside quietBody apart run).1 p entered)
      · intro u log mid run log' out run'
        exact elses.skips _ ownRest σ fx mid
          ((runs_branch inside quietBody apart run).2 mid rfl starts) log' out run'
      · refine elses.enters quietRest _ ownRest σ fx _ ?_ ?_
        · simp [Machine.step]
        · intro w hw
          exact ⟨fun mem => (unasked w hw).1 mem.1, fun mem => (unasked w hw).2 mem.1⟩

end Code

/-! ### All chains of a script -/

/-- Where the code of a chain is: the routine that it starts in with the loop around it, the
commands from its start on, and its arms. -/
structure ChainCode where
  home : Path
  loop : Option Path
  commands : List Command
  first : Arm
  others : List Arm

namespace ChainCode

def arms (place : ChainCode) : List Arm :=
  place.first :: place.others

def blocks (place : ChainCode) : List Path :=
  place.arms.map Arm.block

/-- The code of a chain is at a place, and from there it enters the block of the first branch whose
test passes, unless its bodies call definitions. -/
structure Holds (D : Dialect) (view : View) (chain : Script.ElseChain) (place : ChainCode) : Prop where
  home : ∃ before behind,
    view place.home = some (place.loop, before ++ (place.commands ++ behind))
  arms : List.Forall₂ (ArmOf D view place.loop) chain.branches place.arms
  enters (quiet : ∀ branch ∈ chain.branches, ∀ text ∈ branch.2.plains, Quiet D text) :
    ∃ tail, TailOf place.loop tail ∧ ∀ (σ : Type) (fx : World σ) (a : State σ),
      Unasked place.loop a.markers →
      EntersOnly view.arena fx
        (Follows D view place.loop tail (chainTag place.first.block) place.blocks
          chain.after)
        place.blocks place.commands a (choose fx place.arms a.user)

end ChainCode

/-- The places of some chains, each with blocks of its own. -/
structure Placed (D : Dialect) (view : View) (used : List Path) (chains : List Script.ElseChain)
    (places : List ChainCode) : Prop where
  holds : List.Forall₂ (ChainCode.Holds D view) chains places
  nodup : (places.map fun place => place.first.block).Nodup
  mem : ∀ place ∈ places, place.first.block ∈ used

namespace Placed

variable {D : Dialect} {view : View} {used used' : List Path} {block : Path}
  {chains chains' : List Script.ElseChain} {places places' : List ChainCode}

theorem nil : Placed D view used [] [] :=
  ⟨.nil, .nil, nofun⟩

theorem mono (h : Placed D view used chains places) (subset : used ⊆ used') :
    Placed D view used' chains places :=
  ⟨h.holds, h.nodup, fun place mem => subset (h.mem place mem)⟩

/-- The chains in a block and those after it. -/
theorem append (h : Placed D view used' chains' places') (h' : Placed D view used chains places)
    (nodup : (block :: used' ++ used).Nodup) :
    Placed D view (used' ++ used) (chains' ++ chains) (places' ++ places) := by
  have apart := List.nodup_append.1 (List.nodup_cons.1 nodup).2
  refine ⟨List.rel_append h.holds h'.holds, ?_, ?_⟩
  · rw [List.map_append, List.nodup_append]
    refine ⟨h.nodup, h'.nodup, ?_⟩
    intro p inBlock p' after
    obtain ⟨place, mem, rfl⟩ := List.mem_map.1 inBlock
    obtain ⟨place', mem', rfl⟩ := List.mem_map.1 after
    exact apart.2.2 _ (h.mem place mem) _ (h'.mem place' mem')
  · intro place mem
    rcases List.mem_append.1 mem with mem | mem
    · exact List.mem_append_left _ (h.mem place mem)
    · exact List.mem_append_right _ (h'.mem place mem)

/-- One more chain, which starts with a block of its own. -/
theorem cons {place : ChainCode} {chain : Script.ElseChain} (h : Placed D view used chains places)
    (here : place.Holds D view chain) (nodup : (place.first.block :: used).Nodup) :
    Placed D view (place.first.block :: used) (chain :: chains) (place :: places) := by
  have fresh := (List.nodup_cons.1 nodup).1
  refine ⟨.cons here h.holds, ?_, ?_⟩
  · rw [List.map_cons, List.nodup_cons]
    refine ⟨fun mem => ?_, h.nodup⟩
    obtain ⟨place', mem, same⟩ := List.mem_map.1 mem
    exact fresh (same ▸ h.mem place' mem)
  · intro place' mem
    rcases List.mem_cons.1 mem with rfl | mem
    · exact .head _
    · exact .tail _ (h.mem place' mem)

end Placed

/-- All chains of a script have places in its code. -/
theorem Code.placed {D : Dialect} {view : View} {lp : Option Path} {tail : Tail}
    {chain : Option String} {piece : Piece} {cs : List Command} {x s : Bool} {used : List Path}
    (code : Code D view lp tail chain piece cs x s used) (closes : TailOf lp tail)
    (nodup : used.Nodup) {home : Path}
    {before behind : List Command} (found : view home = some (lp, before ++ (cs ++ behind))) :
    ∃ places, Placed D view used piece.script.chains places := by
  have bare {lp : Option Path} : TailOf lp noTail := .inl rfl
  -- the induction follows the routine that the commands are in
  induction code generalizing home before behind with
  | done => exact ⟨[], .nil⟩
  | @plain _ _ _ _ _ here cs _ _ _ _ _ ih =>
    exact ih closes nodup (show view home = some (_, (before ++ here) ++ (cs ++ behind)) by
      simpa using found)
  | define _ ih => exact ih closes nodup found
  | @branch lp tail chain clauses body rest block pending opening inner cs header _ _ x s _ _ tests
      inside foundBlock apart opens after ihInside ihAfter =>
    obtain ⟨places', placed'⟩ := ihInside bare (nodup.sublist (by simp)) (show view block =
      some (_, front (chainTag block) rest ++ (inner ++ [])) by simpa using foundBlock)
    obtain ⟨places, placed⟩ := ihAfter closes (nodup.sublist (by simp)) (show view home =
      some (_, (before ++ (opening ++ (pending ++ [.invoke header ⟨block, []⟩]))) ++
        (cs ++ behind)) by simpa using found)
    have both := placed'.append placed nodup
    cases starts : rest.startsElse with
    | false =>
      refine ⟨places' ++ places, ?_⟩
      simp only [Piece.script, Script.chains, starts]
      exact both.mono (by simp)
    | true =>
      have whole : Code D view lp tail chain (.block (.branch clauses body rest)) _ x s _ :=
        .branch tests inside foundBlock apart opens after
      obtain ⟨first, arms, head, holds, enters⟩ := whole.enters_chain nodup starts
      cases head
      have here : ChainCode.Holds D view ⟨(clauses, body) :: rest.elses, rest.afterElses⟩
          ⟨home, lp, _, first, arms⟩ :=
        ⟨⟨before, behind, found⟩, holds, fun quiet => ⟨tail, closes, enters quiet⟩⟩
      have all := both.cons here nodup
      simp only [Piece.script, Script.chains, starts]
      exact ⟨_, all⟩
  | @otherwise _ _ tag _ _ rest block pending closing inner cs header _ _ _ _ _ _ _ _ foundBlock _ _
      _ ihInside ihAfter =>
    obtain ⟨places', placed'⟩ := ihInside bare (nodup.sublist (by simp)) (show view block =
      some (_, front tag rest ++ (inner ++ [])) by simpa using foundBlock)
    obtain ⟨places, placed⟩ := ihAfter closes (nodup.sublist (by simp)) (show view home =
      some (_, (before ++ (pending ++ (.invoke (.marker false tag ::
          if Clause.renderAll D.pack header = "" then [] else header) ⟨block, []⟩ :: closing))) ++
        (cs ++ behind)) by simpa using found)
    exact ⟨places' ++ places, (placed'.append placed nodup).mono (by simp)⟩
  | @times _ _ _ number _ _ block inner cs x' s' _ _ _ _ _ foundBlock _ ihInside ihAfter =>
    obtain ⟨places', placed'⟩ := ihInside bare (nodup.sublist (by simp)) (show view block =
      some (_, roundStart block s' ++ (inner ++ [])) by simpa using foundBlock)
    obtain ⟨places, placed⟩ := ihAfter closes (nodup.sublist (by simp)) (show view home =
      some (_, (before ++ (List.replicate number
          (.invoke (Block.absenceTests block x' false) ⟨block, []⟩) ++
            Loop.killMarkers block x' s')) ++ (cs ++ behind)) by simpa using found)
    exact ⟨places' ++ places, (placed'.append placed nodup).mono (by simp)⟩
  | @loop _ _ _ test _ _ _ block pending inner cs clauses x' s' _ _ _ _ tests _ foundBlock _
      ihInside ihAfter =>
    have again : TailOf (some block) (loopTail block pending (Loop.header D.pack test clauses)) :=
      .inr ⟨block, pending, _, rfl, D.isUser_of_tests tests, rfl⟩
    obtain ⟨places', placed'⟩ := ihInside again (nodup.sublist (by simp)) (show view block =
      some (_, roundStart block s' ++ (inner ++ roundAgain block pending
        (Loop.header D.pack test clauses) s')) by simpa using foundBlock)
    obtain ⟨places, placed⟩ := ihAfter closes (nodup.sublist (by simp)) (show view home =
      some (_, (before ++ (pending ++ (.invoke (Loop.header D.pack test clauses) ⟨block, []⟩ ::
        Loop.killMarkers block x' s'))) ++ (cs ++ behind)) by simpa using found)
    exact ⟨places' ++ places, (placed'.append placed nodup).mono (by simp)⟩
  | exit => exact ⟨[], .nil⟩
  | next => exact ⟨[], .nil⟩
  | unguarded _ ih => exact ih closes nodup found
  | @guarded w _ _ _ guard cs _ _ _ _ _ foundGuard _ ih =>
    obtain ⟨places, placed⟩ := ih closes (nodup.sublist (by simp))
      (show view guard = some (some w, [] ++ (cs ++ [])) by simpa using foundGuard)
    exact ⟨places, placed.mono (by simp)⟩
  | @dropped w _ _ _ guard _ _ _ _ _ foundGuard _ ih =>
    obtain ⟨places, placed⟩ := ih bare (nodup.sublist (by simp))
      (show view guard = some (some w, [] ++ ([] ++ [])) by simpa using foundGuard)
    exact ⟨places, placed.mono (by simp)⟩

end CommandPack
