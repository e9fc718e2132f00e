import CommandPack.Proofs.Confinement
import CommandPack.Proofs.Script.Meaning
import CommandPack.Proofs.Text.Trimmed

/-!
# Code does what its script does

The commands of a script without variables run to the state that the script leads to. Requests
about loops are markers, so the proof keeps track of which requests can be there: none between
two statements, at most the one that was just made while a body is being left, and possibly a
last one when a loop unwinds.
-/

namespace CommandPack

open Machine Code Marker Argument Script

variable {markers : Set String} {o : Script.Outcome} {q w : Path} {s x : Bool} {body : Script}

/-! ### Literal programs -/

/-- The words of a clause, as far as it has any. -/
def Clause.word : Clause → String
  | .words text => text
  | _ => ""

/-- The meaning of commands and clauses, where commands are texts and clauses are words. -/
def Meaning.world {σ : Type} (m : Meaning σ) : World σ where
  act command u :=
    match command with
    | .text line => m.run line u
    | _ => u
  passes clauses u := m.passes u (clauses.map Clause.word)
  passes_nil u := by simp only [List.map_nil, Meaning.passes]

/-- Plain statements and headers stay as they are, with single spaces between arguments. -/
def Dialect.literal (pack : String) : Dialect where
  pack := pack
  emits text cs := cs = [.text (Text.join " " (split text))]
  tests text pending clauses := pending = [] ∧ clauses = (split text).map .words
  isUser_of_tests := by
    rintro text pending clauses ⟨rfl, rfl⟩
    simp
  unmarked_of_tests := by
    rintro text pending clauses ⟨rfl, rfl⟩ c mem
    obtain ⟨word, _, rfl⟩ := List.mem_map.1 mem
    rfl

theorem Dialect.quiet_literal (pack text : String) : Quiet (.literal pack) text := by
  rintro cs rfl c mem
  rw [List.mem_singleton.1 mem]
  rfl

section Headers

variable {σ : Type} {m : Meaning σ} {pack : String} {text : String} {u : σ}

theorem Clause.map_word_words (words : List String) :
    (words.map Clause.words).map Clause.word = words := by
  simp [Function.comp_def, Clause.word]

/-- A literal header is rendered empty only if there is nothing in it. -/
theorem Clause.renderAll_words_eq_empty_iff :
    Clause.renderAll pack ((split text).map .words) = "" ↔ split text = [] := by
  have rendered : ((split text).map Clause.words).map (Clause.render pack) =
      split text := by
    simp [Function.comp_def, Clause.render]
  rw [Clause.renderAll, rendered]
  constructor
  · intro empty
    by_contra some
    exact Text.chars_join_ne_nil some (fun _ mem => ne_empty_of_mem_split mem)
      (by rw [empty]; rfl)
  · intro none
    rw [none]
    rfl

theorem Meaning.world_passes {clauses : List Clause} :
    m.world.passes clauses u ↔ m.passes u (clauses.map Clause.word) :=
  Iff.rfl

theorem Meaning.world_passes_words :
    m.world.passes ((split text).map .words) u ↔ m.passes u (split text) := by
  rw [world_passes, Clause.map_word_words]

/-- Leaving an empty header out does not matter. -/
theorem Meaning.world_passes_extra :
    m.world.passes
        (if Clause.renderAll pack ((split text).map .words) = "" then []
          else (split text).map .words) u ↔
      m.passes u (split text) := by
  split
  · next empty =>
    rw [Clause.renderAll_words_eq_empty_iff.1 empty]
    exact Iff.rfl
  · exact world_passes_words

theorem Meaning.world_passes_header {test : LoopTest} :
    m.world.passes (Loop.header pack test ((split text).map .words)) u ↔
      m.passes u (Meaning.loopClauses test (split text)) := by
  cases test with
  | clauses => exact world_passes_extra
  | holds | fails =>
    rw [world_passes, Loop.header, List.map_cons, Clause.map_word_words]
    exact Iff.rfl

theorem Loop.unmarked_header (pack : String) (test : LoopTest) (text : String) :
    ∀ c ∈ Loop.header pack test ((split text).map .words), isMarkerTest c = false := by
  have words : ∀ c ∈ (split text).map Clause.words, isMarkerTest c = false := by
    intro c mem
    obtain ⟨word, _, rfl⟩ := List.mem_map.1 mem
    rfl
  intro c mem
  cases test with
  | clauses =>
    simp only [Loop.header] at mem
    split at mem
    · cases mem
    · exact words c mem
  | holds | fails =>
    rcases List.mem_cons.1 mem with rfl | mem
    · rfl
    · exact words c mem

end Headers

/-! ### Requests -/

/-- No request about a loop is there. -/
def NoRequests (markers : Set String) : Prop :=
  ∀ p, exitTag p ∉ markers ∧ roundTag p ∉ markers

theorem NoRequests.mono {markers' : Set String} (h : NoRequests markers)
    (subset : markers' ⊆ markers) : NoRequests markers' :=
  fun p => ⟨fun mem => (h p).1 (subset mem), fun mem => (h p).2 (subset mem)⟩

theorem NoRequests.insert_chainTag (h : NoRequests markers) (p : Path) :
    NoRequests (insert (chainTag p) markers) := by
  intro q
  refine ⟨?_, ?_⟩
  · rintro (same | mem)
    · exact chainTag_ne_exitTag p q same.symm
    · exact (h q).1 mem
  · rintro (same | mem)
    · exact chainTag_ne_roundTag p q same.symm
    · exact (h q).2 mem

/-! ### How code ends -/

/-- The request that stands when a body of a loop is left early, and no other one. -/
def Asks (o : Outcome) (w : Path) (x s : Bool) (markers : Set String) : Prop :=
  match o with
  | .finished => False
  | .left => x = true ∧ exitTag w ∈ markers ∧ NoRequests (markers \ {exitTag w})
  | .skipped => s = true ∧ roundTag w ∈ markers ∧ NoRequests (markers \ {roundTag w})

theorem Asks.mono {x' s' : Bool} (h : Asks o w x s markers) (exits : x = true → x' = true)
    (skips : s = true → s' = true) : Asks o w x' s' markers := by
  cases o with
  | finished => exact h
  | left => exact ⟨exits h.1, h.2⟩
  | skipped => exact ⟨skips h.1, h.2⟩

theorem Asks.not_noRequests (h : Asks o w x s markers) : ¬ NoRequests markers := by
  intro none
  cases o with
  | finished => exact h
  | left => exact (none w).1 h.2.1
  | skipped => exact (none w).2 h.2.1

theorem Asks.not_passes {σ : Type} {fx : World σ} {st : State σ} (h : Asks o w x s st.markers)
    {header : List Clause} (unmarked : ∀ c ∈ header, isMarkerTest c = false) :
    ¬ Passes fx (Block.absenceTests w x s ++ header) st := by
  rw [passes_absenceTests unmarked]
  rintro ⟨exits, skips, _⟩
  cases o with
  | finished => exact h
  | left => exact exits h.1 h.2.1
  | skipped => exact skips h.1 h.2.1

section Endings

variable {σ : Type} (m : Meaning σ) (view : View)

/-- A tail does nothing once a request that it tests for is there. -/
def Yields (lp : Option Path) (tail : Tail) : Prop :=
  ∀ w u markers x s o, lp = some w → Asks o w x s markers →
    Machine.Reaches view.arena m.world (tail x s) ⟨u, markers⟩ ⟨u, markers⟩

/-- Code gets to its tail without a request, or makes the request that its outcome is. -/
structure Ends (lp : Option Path) (tail : Tail) (cs : List Command) (x s : Bool) (u : σ)
    (markers : Set String) (o : Outcome) (v : σ) : Prop where
  finished : o = .finished → ∃ markers' x' s', NoRequests markers' ∧
    ∀ t, Machine.Reaches view.arena m.world (tail x' s') ⟨v, markers'⟩ t →
      Machine.Reaches view.arena m.world cs ⟨u, markers⟩ t
  escapes : o ≠ .finished → ∃ w markers', lp = some w ∧ Asks o w x s markers' ∧
    Machine.Reaches view.arena m.world cs ⟨u, markers⟩ ⟨v, markers'⟩

/-- Whether a branch was chosen shows in the marker of the chain that a script goes on with. -/
def ChainAt (chain : Option String) (chosen : Bool) (script : Script) (markers : Set String) :
    Prop :=
  ∀ tag, chain = some tag → (∃ p, tag = chainTag p) ∧
    (script.startsElse = true → (tag ∈ markers ↔ chosen = true))

/-- What a loop leaves: at most a request about itself, and one for the next round only if the
loop does not go on. -/
structure Unwound (block : Path) (goesOn : Prop) (x s : Bool) (markers : Set String) : Prop where
  others : NoRequests (markers \ {exitTag block, roundTag block})
  exits : exitTag block ∈ markers → x = true
  skips : roundTag block ∈ markers → s = true ∧ ¬ goesOn

/-- A loop with a header does not run, or its first round and all later ones unwind into the
last state. -/
def LoopReaches (pack : String) (header : List Clause) (body : Script) (u v : σ) : Prop :=
  ∀ block inner x s used markers,
    Code (.literal pack) view (some block) (loopTail block [] header) none (.block body) inner x s
      used →
    view block = some (some block, roundStart block s ++ inner ++ roundAgain block [] header s) →
    NoRequests markers →
    ¬ m.world.passes header u ∧ v = u ∨
      m.world.passes header u ∧ ∃ markers',
        Machine.Reaches view.arena m.world (inner ++ roundAgain block [] header s) ⟨u, markers⟩
          ⟨v, markers'⟩ ∧
        Unwound block (m.world.passes header v) x s markers'

/-- The code of a task takes a user state to another one. -/
def Simulates (pack : String) : Task → σ → Outcome → σ → Prop
  | .block chosen script, u, o, v =>
    ∀ lp tail chain cs x s used markers,
      Code (.literal pack) view lp tail chain (.block script) cs x s used →
      Yields m view lp tail → NoRequests markers → ChainAt chain chosen script markers →
      Ends m view lp tail cs x s u markers o v
  | .rounds test condition body, u, _, v =>
    LoopReaches m view pack (Loop.header pack test ((split condition).map .words)) body u v
  | .repeats number body, u, _, v =>
    ∀ block inner x s used markers,
      Code (.literal pack) view (some block) noTail none (.block body) inner x s used →
      view block = some (some block, roundStart block s ++ inner) →
      NoRequests (markers \ {roundTag block}) →
      (roundTag block ∈ markers → s = true) →
      ∃ markers',
        Machine.Reaches view.arena m.world
          (List.replicate number (.invoke (Block.absenceTests block x false) ⟨block, []⟩))
          ⟨u, markers⟩ ⟨v, markers'⟩ ∧
        Unwound block False x s markers'

variable {m view} {pack : String} {lp : Option Path} {tail : Tail} {chain : Option String}
  {rest : Script} {as cs : List Command} {x s x' s' : Bool} {used : List Path} {u u₀ v : σ}
  {markers markers₀ : Set String} {o : Script.Outcome} {chosen : Bool}

theorem Ends.after_run (h : Ends m view lp tail cs x s u₀ markers₀ o v)
    (run : Machine.Reaches view.arena m.world as ⟨u, markers⟩ ⟨u₀, markers₀⟩) :
    Ends m view lp tail (as ++ cs) x s u markers o v where
  finished ends := by
    obtain ⟨markers', x', s', none, goesOn⟩ := h.finished ends
    exact ⟨markers', x', s', none, fun t reaches => run.append (goesOn t reaches)⟩
  escapes early := by
    obtain ⟨w, markers', hw, asks, reaches⟩ := h.escapes early
    exact ⟨w, markers', hw, asks, run.append reaches⟩

/-- The rest of a script after a statement that made no request. -/
theorem Simulates.after (h : Simulates m view pack (.block chosen rest) u o v)
    (code : Code (.literal pack) view lp tail chain (.after x' s' rest) cs x s used)
    (yields : Yields m view lp tail) (none : NoRequests markers)
    (chainAt : ChainAt chain chosen rest markers) : Ends m view lp tail cs x s u markers o v := by
  cases code with
  | unguarded code => exact h _ _ _ _ _ _ _ _ code yields none chainAt
  | @guarded w _ _ _ _ _ _ _ _ _ _ found code =>
    have passes : Passes m.world (Block.absenceTests w x' s') ⟨u, markers⟩ := by
      rw [← List.append_nil (Block.absenceTests w x' s'), passes_absenceTests (by simp)]
      exact ⟨fun _ => (none w).1, fun _ => (none w).2, m.world.passes_nil u⟩
    have inner := h _ _ _ _ _ _ _ _ code yields none chainAt
    refine ⟨fun ends => ?_, fun early => ?_⟩
    · obtain ⟨markers', x'', s'', none', goesOn⟩ := inner.finished ends
      exact ⟨markers', x'', s'', none', fun t reaches =>
        .call passes (View.arena_eq found) (goesOn t reaches) .nil⟩
    · obtain ⟨w', markers', hw, asks, reaches⟩ := inner.escapes early
      refine ⟨w', markers', hw, asks.mono ?_ ?_, .call passes (View.arena_eq found) reaches .nil⟩
      · simp +contextual
      · simp +contextual
  | dropped _ code =>
    have inner := h _ noTail _ _ _ _ _ _ code (fun _ _ _ _ _ _ _ _ => .nil) none chainAt
    -- the rest has no commands, so it does nothing at all
    have still {t : State σ} (h : Machine.Reaches view.arena m.world [] ⟨u, markers⟩ t) :
        t = ⟨u, markers⟩ := by
      obtain ⟨log, run⟩ := h
      cases run
      rfl
    refine ⟨fun ends => ?_, fun early => ?_⟩
    · obtain ⟨markers', _, _, _, goesOn⟩ := inner.finished ends
      cases still (goesOn ⟨v, markers'⟩ .nil)
      exact ⟨markers, _, _, none, fun t reaches => reaches⟩
    · obtain ⟨w', markers', _, asks, reaches⟩ := inner.escapes early
      cases still reaches
      exact absurd none asks.not_noRequests

/-- The rest of a script does nothing after a statement that made a request. -/
theorem Ends.of_asks
    (code : Code (.literal pack) view lp tail chain (.after x' s' rest) cs x s used)
    (yields : Yields m view lp tail) (hw : lp = some w) (asks : Asks o w x' s' markers) :
    Ends m view lp tail cs x s v markers o v := by
  refine ⟨?_, fun _ => ⟨w, markers, hw, asks.mono (flags_le code).1 (flags_le code).2, ?_⟩⟩
  · rintro rfl
    exact asks.elim
  · cases code with
    | unguarded =>
      cases o with
      | finished => exact asks.elim
      | left => cases asks.1
      | skipped => cases asks.1
    | guarded =>
      cases hw
      refine .skip ?_ .nil
      rw [← List.append_nil (Block.absenceTests w x' s')]
      exact asks.not_passes (by simp)
    | dropped =>
      exact yields w v markers _ _ o hw (asks.mono (by simp +contextual) (by simp +contextual))

/-! ### Branches -/

/-- Code in a loop body leaves the marker of a chain alone that is none of its own. -/
theorem Machine.Reaches.chainTag_mem_iff {piece : Piece} {a b : State σ}
    (run : Machine.Reaches view.arena m.world cs a b)
    (code : Code (.literal pack) view lp noTail none piece cs x s used)
    (apart : ∀ p ∈ used, chainTag p ≠ chainTag q) :
    chainTag q ∈ b.markers ↔ chainTag q ∈ a.markers := by
  obtain ⟨log, run⟩ := run
  exact (code.frame (fun text _ => Dialect.quiet_literal pack text) run).2 b rfl _
    (not_tags_chainTag apart)

/-- The routine of a branch: the marker of the chain, then the body. -/
theorem Simulates.branch_routine (rest : Script) {inner : List Command}
    (h : Simulates m view pack (.block false body) u o v)
    (code : Code (.literal pack) view lp noTail none (.block body) inner x' s' used)
    (apart : ∀ p ∈ used, chainTag p ≠ chainTag q) (none : NoRequests markers) :
    ∃ markers', Machine.Reaches view.arena m.world (front (chainTag q) rest ++ inner)
        ⟨u, markers⟩ ⟨v, markers'⟩ ∧
      (o = .finished → NoRequests markers' ∧
        (rest.startsElse = true → chainTag q ∈ markers')) ∧
      (o ≠ .finished → ∃ w, lp = some w ∧ Asks o w x' s' markers') := by
  obtain ⟨marked, run, none', present⟩ : ∃ marked,
      Machine.Reaches view.arena m.world (front (chainTag q) rest) ⟨u, markers⟩ ⟨u, marked⟩ ∧
        NoRequests marked ∧ (rest.startsElse = true → chainTag q ∈ marked) := by
    unfold front
    split
    · exact ⟨insert (chainTag q) markers, .step rfl .nil, none.insert_chainTag q,
        fun _ => Set.mem_insert _ _⟩
    · next noElse => exact ⟨markers, .nil, none, fun h => absurd h noElse⟩
  have ends := h _ noTail _ _ _ _ _ marked code (fun _ _ _ _ _ _ _ _ => .nil) none' nofun
  by_cases ho : o = .finished
  · obtain ⟨markers', _, _, clean, goesOn⟩ := ends.finished ho
    have inside := goesOn ⟨v, markers'⟩ .nil
    refine ⟨markers', run.append inside, fun _ => ⟨clean, fun isElse => ?_⟩, fun ne => absurd ho ne⟩
    exact (inside.chainTag_mem_iff code apart).2 (present isElse)
  · obtain ⟨w, markers', hw, asks, inside⟩ := ends.escapes ho
    exact ⟨markers', run.append inside, fun same => absurd same ho, fun _ => ⟨w, hw, asks⟩⟩

/-- The end of a chain takes its marker away, and nothing else. -/
theorem reaches_closing (m : Meaning σ) (view : View) (u : σ) (markers : Set String)
    {closing : List Command} {tag : String}
    (closes : closing = [] ∨ closing = [.killMarker tag] ∧ rest.startsElse = false) :
    ∃ markers', Machine.Reaches view.arena m.world closing ⟨u, markers⟩ ⟨u, markers'⟩ ∧
      markers' ⊆ markers ∧ (∀ other, other ≠ tag → other ∈ markers → other ∈ markers') ∧
      (rest.startsElse = true → tag ∈ markers → tag ∈ markers') := by
  rcases closes with rfl | ⟨rfl, noElse⟩
  · exact ⟨markers, .nil, subset_rfl, fun _ _ mem => mem, fun _ mem => mem⟩
  · refine ⟨markers \ {tag}, .step rfl .nil, Set.sdiff_subset, fun other ne mem => ⟨mem, ne⟩, ?_⟩
    intro isElse
    rw [noElse] at isElse
    cases isElse

theorem Asks.of_subset {markers' : Set String} (h : Asks o w x s markers)
    (subset : markers' ⊆ markers) (exits : exitTag w ∈ markers → exitTag w ∈ markers')
    (skips : roundTag w ∈ markers → roundTag w ∈ markers') :
    Asks o w x s markers' := by
  cases o with
  | finished => exact h
  | left => exact ⟨h.1, exits h.2.1, h.2.2.mono (Set.sdiff_subset_sdiff_left subset)⟩
  | skipped => exact ⟨h.1, skips h.2.1, h.2.2.mono (Set.sdiff_subset_sdiff_left subset)⟩

/-- A branch that is taken, with the rest of the script after it. -/
theorem Ends.of_branch {block : Path} {header : List Clause} {o' : Outcome}
    {inner closing : List Command} {used' : List Path} {mid : σ}
    (passes : Passes m.world header ⟨u, markers⟩)
    (found : view block = some (lp, front (chainTag q) rest ++ inner))
    (code : Code (.literal pack) view lp noTail none (.block body) inner x' s' used')
    (apart : ∀ p ∈ used', chainTag p ≠ chainTag q) (none : NoRequests markers)
    (closes : closing = [] ∨
      closing = [.killMarker (chainTag q)] ∧ rest.startsElse = false)
    (after : Code (.literal pack) view lp tail (some (chainTag q)) (.after x' s' rest) cs x s
      used) (yields : Yields m view lp tail)
    (inside : Simulates m view pack (.block false body) u o' mid)
    (goesOn : o' = .finished → Simulates m view pack (.block true rest) mid o v)
    (stops : o' ≠ .finished → o = o' ∧ v = mid) :
    Ends m view lp tail (.invoke header ⟨block, []⟩ :: (closing ++ cs)) x s u markers o v := by
  obtain ⟨markers₁, run, finishes, escapes⟩ := inside.branch_routine rest code apart none
  obtain ⟨markers₂, closed, subset, others, present⟩ :=
    reaches_closing m view mid markers₁ closes
  have upTo : Machine.Reaches view.arena m.world (.invoke header ⟨block, []⟩ :: closing) ⟨u, markers⟩
      ⟨mid, markers₂⟩ := .call passes (View.arena_eq found) run closed
  by_cases ho : o' = .finished
  · obtain ⟨clean, isThere⟩ := finishes ho
    refine Ends.after_run ((goesOn ho).after after yields (clean.mono subset) ?_) upTo
    rintro tag ⟨⟩
    refine ⟨⟨q, rfl⟩, fun isElse => ?_⟩
    exact ⟨fun _ => rfl, fun _ => present isElse (isThere isElse)⟩
  · obtain ⟨w, hw, asks⟩ := escapes ho
    obtain ⟨rfl, rfl⟩ := stops ho
    refine Ends.after_run (.of_asks after yields hw (asks.of_subset subset ?_ ?_)) upTo
    · exact others _ (chainTag_ne_exitTag q w).symm
    · exact others _ (chainTag_ne_roundTag q w).symm

/-! ### Loops -/

variable {block : Path} {header : List Clause}

theorem yields_loopTail (unmarked : ∀ c ∈ header, isMarkerTest c = false) :
    Yields m view (some block) (loopTail block [] header) := by
  rintro w u markers x s o ⟨⟩ asks
  exact .skip (asks.not_passes unmarked) .nil

theorem Unwound.of_noRequests {goesOn : Prop} (none : NoRequests markers) :
    Unwound block goesOn x s markers where
  others := none.mono Set.sdiff_subset
  exits mem := absurd mem (none block).1
  skips mem := absurd mem (none block).2

theorem reaches_roundStart (m : Meaning σ) (view : View) (u : σ)
    (skips : roundTag block ∈ markers → s = true) :
    Machine.Reaches view.arena m.world (roundStart block s) ⟨u, markers⟩
      ⟨u, markers \ {roundTag block}⟩ := by
  unfold roundStart
  split
  · exact .step rfl .nil
  · next never =>
    rw [Set.sdiff_singleton_eq_self fun mem => never (skips mem)]
    exact .nil

theorem reaches_killMarkers {goesOn : Prop} (m : Meaning σ) (view : View) (u : σ)
    (h : Unwound block goesOn x s markers) :
    Machine.Reaches view.arena m.world (Loop.killMarkers block x s) ⟨u, markers⟩
      ⟨u, markers \ {exitTag block, roundTag block}⟩ := by
  have both : markers \ {exitTag block, roundTag block} =
      (markers \ {exitTag block}) \ {roundTag block} := by
    rw [Set.sdiff_sdiff, Set.singleton_union]
  have first : Machine.Reaches view.arena m.world (if x then [.killMarker (exitTag block)] else [])
      ⟨u, markers⟩ ⟨u, markers \ {exitTag block}⟩ := by
    split
    · exact .step rfl .nil
    · next never =>
      rw [Set.sdiff_singleton_eq_self fun mem => never (h.exits mem)]
      exact .nil
  rw [both]
  exact first.append (reaches_roundStart m view u fun mem => (h.skips mem.1).1)

/-- A loop body does not call itself again from its head without a request for that. -/
theorem reaches_roundAgain (unmarked : ∀ c ∈ header, isMarkerTest c = false)
    (stops : roundTag block ∈ markers → ¬ m.world.passes header u) :
    Machine.Reaches view.arena m.world (roundAgain block [] header s) ⟨u, markers⟩ ⟨u, markers⟩ := by
  unfold roundAgain
  split
  · refine .skip ?_ .nil
    rw [passes_marker_cons, passes_of_unmarked unmarked]
    rintro ⟨isThere, passes⟩
    exact stops (isThere.2 rfl) passes
  · exact .nil

/-- A round after which the loop may go on. -/
theorem LoopReaches.goOn {mid : σ} (unmarked : ∀ c ∈ header, isMarkerTest c = false)
    (pass : m.world.passes header u) (inner : Simulates m view pack (.block false body) u o mid)
    (stays : o ≠ .left) (after : LoopReaches m view pack header body mid v) :
    LoopReaches m view pack header body u v := by
  intro block cs x s used markers code found none
  refine .inr ⟨pass, ?_⟩
  have ends := inner _ _ _ _ _ _ _ markers code (yields_loopTail unmarked) none nofun
  cases o with
  | left => exact absurd rfl stays
  | finished =>
    obtain ⟨markers₁, x', s', none₁, goesOn⟩ := ends.finished rfl
    have absent : x' = true → exitTag block ∉ markers₁ := fun _ => (none₁ block).1
    have absent' : s' = true → roundTag block ∉ markers₁ := fun _ => (none₁ block).2
    rcases after block cs x s used markers₁ code found none₁ with
      ⟨fail, rfl⟩ | ⟨pass₁, markers', again, unwound⟩
    · have run : Machine.Reaches view.arena m.world (loopTail block [] header x' s') ⟨v, markers₁⟩
          ⟨v, markers₁⟩ := by
        refine .skip ?_ .nil
        rw [passes_absenceTests unmarked]
        exact fun h => fail h.2.2
      exact ⟨markers₁, (goesOn _ run).append
        (reaches_roundAgain unmarked fun mem => absurd mem (none₁ block).2), .of_noRequests none₁⟩
    · -- the tail enters the next round, which unwinds into this one
      have enters := reaches_roundStart m view mid (s := s) fun mem => absurd mem (none₁ block).2
      rw [Set.sdiff_singleton_eq_self (none₁ block).2] at enters
      have next := enters.append again
      rw [← List.append_assoc] at next
      have run : Machine.Reaches view.arena m.world (loopTail block [] header x' s') ⟨mid, markers₁⟩
          ⟨v, markers'⟩ := by
        refine .call ?_ (View.arena_eq found) next .nil
        rw [passes_absenceTests unmarked]
        exact ⟨absent, absent', pass₁⟩
      exact ⟨markers', (goesOn _ run).append
        (reaches_roundAgain unmarked fun mem => (unwound.skips mem).2), unwound⟩
  | skipped =>
    obtain ⟨w, markers₁, ⟨⟩, ⟨rfl, isThere, none₁⟩, run⟩ := ends.escapes nofun
    rcases after block cs x true used _ code found none₁ with
      ⟨fail, rfl⟩ | ⟨pass₁, markers', again, unwound⟩
    · refine ⟨markers₁, run.append (reaches_roundAgain unmarked fun _ => fail), ?_, ?_, ?_⟩
      · exact none₁.mono (Set.sdiff_subset_sdiff_right (by simp))
      · intro mem
        exact absurd ⟨mem, exitTag_ne_roundTag block block⟩ (none₁ block).1
      · exact fun _ => ⟨rfl, fail⟩
    · -- the head enters the next round and takes the request away
      have next := (reaches_roundStart m view mid (s := true) fun _ => rfl).append again
      rw [← List.append_assoc] at next
      refine ⟨markers', run.append (.call ?_ (View.arena_eq found) next .nil), unwound⟩
      rw [passes_marker_cons, passes_of_unmarked unmarked]
      exact ⟨⟨fun _ => rfl, fun _ => isThere⟩, pass₁⟩

/-- A round in which the loop is left. -/
theorem LoopReaches.of_left (unmarked : ∀ c ∈ header, isMarkerTest c = false)
    (pass : m.world.passes header u) (inner : Simulates m view pack (.block false body) u .left v) :
    LoopReaches m view pack header body u v := by
  intro block cs x s used markers code found none
  refine .inr ⟨pass, ?_⟩
  have ends := inner _ _ _ _ _ _ _ markers code (yields_loopTail unmarked) none nofun
  obtain ⟨w, markers₁, ⟨⟩, ⟨rfl, isThere, none₁⟩, run⟩ := ends.escapes nofun
  have noRound : roundTag block ∉ markers₁ := fun mem =>
    (none₁ block).2 ⟨mem, (exitTag_ne_roundTag block block).symm⟩
  refine ⟨markers₁, run.append (reaches_roundAgain unmarked fun mem => absurd mem noRound),
    ?_, fun _ => rfl, fun mem => absurd mem noRound⟩
  exact none₁.mono (Set.sdiff_subset_sdiff_right (by simp))

/-- A counted round after which the next one comes. -/
theorem Simulates.repeats_goOn {number : Nat} {mid : σ}
    (inner : Simulates m view pack (.block false body) u o mid) (stays : o ≠ .left)
    (after : Simulates m view pack (.repeats number body) mid .finished v) :
    Simulates m view pack (.repeats (number + 1) body) u .finished v := by
  intro block cs x s used markers code found none skips
  have passes : Passes m.world (Block.absenceTests block x false) ⟨u, markers⟩ := by
    rw [← List.append_nil (Block.absenceTests block x false), passes_absenceTests (by simp)]
    exact ⟨fun _ mem => (none block).1 ⟨mem, exitTag_ne_roundTag block block⟩, nofun,
      m.world.passes_nil u⟩
  have start := reaches_roundStart m view u skips
  have ends := inner _ noTail _ _ _ _ _ _ code (fun _ _ _ _ _ _ _ _ => .nil) none nofun
  obtain ⟨markers₁, run, none₁, skips₁⟩ : ∃ markers₁,
      Machine.Reaches view.arena m.world cs ⟨u, markers \ {roundTag block}⟩ ⟨mid, markers₁⟩ ∧
        NoRequests (markers₁ \ {roundTag block}) ∧
        (roundTag block ∈ markers₁ → s = true) := by
    cases o with
    | left => exact absurd rfl stays
    | finished =>
      obtain ⟨markers₁, _, _, none₁, goesOn⟩ := ends.finished rfl
      exact ⟨markers₁, goesOn _ .nil, none₁.mono Set.sdiff_subset,
        fun mem => absurd mem (none₁ block).2⟩
    | skipped =>
      obtain ⟨w, markers₁, ⟨⟩, ⟨hs, _, none₁⟩, run⟩ := ends.escapes nofun
      exact ⟨markers₁, run, none₁, fun _ => hs⟩
  obtain ⟨markers', runs, unwound⟩ := after block cs x s used markers₁ code found none₁ skips₁
  exact ⟨markers', .call passes (View.arena_eq found) (start.append run) runs, unwound⟩

/-- A counted round in which the loop is left. -/
theorem Simulates.repeats_left {number : Nat}
    (inner : Simulates m view pack (.block false body) u .left v) :
    Simulates m view pack (.repeats (number + 1) body) u .finished v := by
  intro block cs x s used markers code found none skips
  have passes : Passes m.world (Block.absenceTests block x false) ⟨u, markers⟩ := by
    rw [← List.append_nil (Block.absenceTests block x false), passes_absenceTests (by simp)]
    exact ⟨fun _ mem => (none block).1 ⟨mem, exitTag_ne_roundTag block block⟩, nofun,
      m.world.passes_nil u⟩
  have start := reaches_roundStart m view u skips
  have ends := inner _ noTail _ _ _ _ _ _ code (fun _ _ _ _ _ _ _ _ => .nil) none nofun
  obtain ⟨w, markers₁, ⟨⟩, ⟨rfl, isThere, none₁⟩, run⟩ := ends.escapes nofun
  have noRound : roundTag block ∉ markers₁ := fun mem =>
    (none₁ block).2 ⟨mem, (exitTag_ne_roundTag block block).symm⟩
  have others : ∀ n, Machine.Reaches view.arena m.world
      (List.replicate n (.invoke (Block.absenceTests block true false) ⟨block, []⟩))
      ⟨v, markers₁⟩ ⟨v, markers₁⟩ := by
    intro n
    induction n with
    | zero => exact .nil
    | succ n ih =>
      refine .skip ?_ ih
      rw [← List.append_nil (Block.absenceTests block true false), passes_absenceTests (by simp)]
      exact fun h => h.1 rfl isThere
  refine ⟨markers₁, .call passes (View.arena_eq found) (start.append run) (others number), ?_,
    fun _ => rfl, fun mem => absurd mem noRound⟩
  exact none₁.mono (Set.sdiff_subset_sdiff_right (by simp))

/-! ### All statements -/

/-- The marker of a chain that a branch starts is gone when its header is reached. -/
theorem reaches_opening (m : Meaning σ) (view : View) (u : σ) {opening : List Command}
    {tag : String}
    (opens : opening = [.killMarker tag] ∨ opening = [] ∧ rest.startsElse = false) :
    ∃ markers', Machine.Reaches view.arena m.world opening ⟨u, markers⟩ ⟨u, markers'⟩ ∧
      markers' ⊆ markers ∧ (rest.startsElse = true → tag ∉ markers') := by
  rcases opens with rfl | ⟨rfl, noElse⟩
  · exact ⟨markers \ {tag}, .step rfl .nil, Set.sdiff_subset, fun _ mem => mem.2 rfl⟩
  · exact ⟨markers, .nil, subset_rfl, fun isElse => by rw [noElse] at isElse; cases isElse⟩

section Statements

variable {clauses : String} {body : Script} {o' : Script.Outcome} {mid : σ}

theorem Simulates.branch_taken (pass : m.passes u (split clauses))
    (inside : Simulates m view pack (.block false body) u o' mid)
    (goesOn : o' = .finished → Simulates m view pack (.block true rest) mid o v)
    (stops : o' ≠ .finished → o = o' ∧ v = mid) :
    Simulates m view pack (.block chosen (.branch clauses body rest)) u o v := by
  intro lp tail chain cs x s used markers code yields none chainAt
  cases code with
  | branch tests code found apart opens after =>
    have unmarked := (Dialect.literal pack).unmarked_of_tests tests
    obtain ⟨rfl, rfl⟩ := tests
    obtain ⟨markers', opened, subset, _⟩ := reaches_opening m view u opens
    have taken := Ends.of_branch
      ((passes_of_unmarked unmarked).2 (Meaning.world_passes_words.2 pass)) found code apart
      (none.mono subset) (.inl rfl) after yields inside goesOn stops
    exact taken.after_run opened

theorem Simulates.branch_fails (fail : ¬ m.passes u (split clauses))
    (goesOn : Simulates m view pack (.block false rest) u o v) :
    Simulates m view pack (.block chosen (.branch clauses body rest)) u o v := by
  intro lp tail chain cs x s used markers code yields none chainAt
  cases code with
  | @branch _ _ _ _ _ _ block _ _ _ _ _ _ _ _ _ _ _ tests _ _ _ opens after =>
    have unmarked := (Dialect.literal pack).unmarked_of_tests tests
    obtain ⟨rfl, rfl⟩ := tests
    obtain ⟨markers', opened, subset, absent⟩ := reaches_opening m view u opens
    have skips : Machine.Reaches view.arena m.world
        [.invoke ((split clauses).map .words) ⟨block, []⟩] ⟨u, markers'⟩
        ⟨u, markers'⟩ := by
      refine .skip ?_ .nil
      rw [passes_of_unmarked unmarked, Meaning.world_passes_words]
      exact fail
    have rest := goesOn.after after yields (none.mono subset) (by
      rintro tag ⟨⟩
      exact ⟨⟨block, rfl⟩, fun isElse => ⟨fun mem => absurd mem (absent isElse), nofun⟩⟩)
    exact (rest.after_run skips).after_run opened

theorem Simulates.otherwise_taken (pass : m.passes u (split clauses))
    (inside : Simulates m view pack (.block false body) u o' mid)
    (goesOn : o' = .finished → Simulates m view pack (.block true rest) mid o v)
    (stops : o' ≠ .finished → o = o' ∧ v = mid) :
    Simulates m view pack (.block false (.otherwise clauses body rest)) u o v := by
  intro lp tail chain cs x s used markers code yields none chainAt
  cases code with
  | otherwise tests code found apart closes after =>
    obtain ⟨⟨q, rfl⟩, isOpen⟩ := chainAt _ rfl
    have unmarked := (Dialect.literal pack).unmarked_of_tests tests
    obtain ⟨rfl, rfl⟩ := tests
    have passes : Passes m.world (.marker false (chainTag q) ::
        if Clause.renderAll pack ((split clauses).map .words) = "" then []
        else (split clauses).map .words) ⟨u, markers⟩ := by
      rw [passes_marker_cons, passes_of_unmarked, Meaning.world_passes_extra]
      · exact ⟨isOpen rfl, pass⟩
      · split
        · simp
        · exact unmarked
    exact Ends.of_branch passes found code apart none closes after yields inside goesOn stops

/-- An `else` that is not taken, because of its header or because of a branch before it. -/
theorem Simulates.otherwise_skipped
    (skipped : chosen = true ∨ ¬ m.passes u (split clauses))
    (goesOn : Simulates m view pack (.block chosen rest) u o v) :
    Simulates m view pack (.block chosen (.otherwise clauses body rest)) u o v := by
  intro lp tail chain cs x s used markers code yields none chainAt
  cases code with
  | @otherwise _ _ _ _ _ _ block _ _ _ _ _ _ _ _ _ _ _ tests _ _ _ closes after =>
    obtain ⟨⟨q, rfl⟩, isOpen⟩ := chainAt _ rfl
    have unmarked := (Dialect.literal pack).unmarked_of_tests tests
    obtain ⟨rfl, rfl⟩ := tests
    obtain ⟨markers', closed, subset, _, present⟩ := reaches_closing m view u markers closes
    have skips : Machine.Reaches view.arena m.world
        [.invoke (.marker false (chainTag q) ::
          if Clause.renderAll pack ((split clauses).map .words) = "" then []
          else (split clauses).map .words) ⟨block, []⟩] ⟨u, markers⟩ ⟨u, markers⟩ := by
      refine .skip ?_ .nil
      rw [passes_marker_cons, passes_of_unmarked, Meaning.world_passes_extra]
      · rintro ⟨absent, pass⟩
        rcases skipped with taken | fail
        · cases absent.1 ((isOpen rfl).2 taken)
        · exact fail pass
      · split
        · simp
        · exact unmarked
    have rest := goesOn.after after yields (none.mono subset) (by
      rintro tag ⟨⟩
      refine ⟨⟨q, rfl⟩, fun isElse => ?_⟩
      rw [← isOpen rfl]
      exact ⟨fun mem => subset mem, present isElse⟩)
    exact (rest.after_run closed).after_run skips

theorem Simulates.times {number : Nat}
    (inner : Simulates m view pack (.repeats number body) u .finished mid)
    (goesOn : Simulates m view pack (.block false rest) mid o v) :
    Simulates m view pack (.block chosen (.times number body rest)) u o v := by
  intro lp tail chain cs x s used markers code yields none chainAt
  cases code with
  | times code found after =>
    obtain ⟨markers', runs, unwound⟩ := inner _ _ _ _ _ markers code found
      (none.mono Set.sdiff_subset) fun mem => absurd mem (none _).2
    have rest := goesOn _ _ _ _ _ _ _ _ after yields unwound.others nofun
    exact (rest.after_run (reaches_killMarkers m view mid unwound)).after_run runs

theorem Simulates.loop {test : LoopTest} {condition : String}
    (inner : Simulates m view pack (.rounds test condition body) u .finished mid)
    (goesOn : Simulates m view pack (.block false rest) mid o v) :
    Simulates m view pack (.block chosen (.loop test condition body rest)) u o v := by
  intro lp tail chain cs x s used markers code yields none chainAt
  cases code with
  | @loop _ _ _ _ _ _ _ block _ _ _ _ x' s' _ _ _ _ tests code found after =>
    obtain ⟨rfl, rfl⟩ := tests
    have unmarked := Loop.unmarked_header pack test condition
    obtain ⟨markers', runs, unwound⟩ : ∃ markers',
        Machine.Reaches view.arena m.world
          [.invoke (Loop.header pack test ((split condition).map .words)) ⟨block, []⟩]
          ⟨u, markers⟩ ⟨mid, markers'⟩ ∧
        Unwound block (m.world.passes
          (Loop.header pack test ((split condition).map .words)) mid) x' s' markers' := by
      rcases inner _ _ _ _ _ markers code found none with
        ⟨fail, rfl⟩ | ⟨pass, markers', run, unwound⟩
      · exact ⟨markers, .skip (by rwa [passes_of_unmarked unmarked]) .nil, .of_noRequests none⟩
      · have start := reaches_roundStart m view u (s := s') fun mem => absurd mem (none block).2
        rw [Set.sdiff_singleton_eq_self (none block).2] at start
        have whole := start.append run
        rw [← List.append_assoc] at whole
        exact ⟨markers', .call ((passes_of_unmarked unmarked).2 pass) (View.arena_eq found) whole
          .nil, unwound⟩
    have rest := goesOn _ _ _ _ _ _ _ _ after yields unwound.others nofun
    exact (rest.after_run (reaches_killMarkers m view mid unwound)).after_run runs

end Statements

/-- What a script does, its code does. -/
theorem Script.Does.simulates {task : Task} (h : Does m task u o v) :
    Simulates m view pack task u o v := by
  induction h with
  | done =>
    intro lp tail chain cs x s used markers code yields none chainAt
    cases code
    exact ⟨fun _ => ⟨markers, _, _, none, fun t reaches => reaches⟩, fun h => absurd rfl h⟩
  | plain _ ih =>
    intro lp tail chain cs x s used markers code yields none chainAt
    cases code with
    | plain emits after =>
      cases emits
      exact (ih _ _ _ _ _ _ _ _ after yields none nofun).after_run (.step rfl .nil)
  | define _ ih =>
    intro lp tail chain cs x s used markers code yields none chainAt
    cases code with
    | define after => exact ih _ _ _ _ _ _ _ _ after yields none nofun
  | branch pass _ _ ihInner ih =>
    exact .branch_taken pass ihInner (fun _ => ih) fun h => absurd rfl h
  | branchEscapes pass _ escapes ih =>
    exact .branch_taken pass ih (fun h => absurd h escapes) fun _ => ⟨rfl, rfl⟩
  | branchFails fail _ ih => exact .branch_fails fail ih
  | otherwise pass _ _ ihInner ih =>
    exact .otherwise_taken pass ihInner (fun _ => ih) fun h => absurd rfl h
  | otherwiseEscapes pass _ escapes ih =>
    exact .otherwise_taken pass ih (fun h => absurd h escapes) fun _ => ⟨rfl, rfl⟩
  | otherwiseFails fail _ ih => exact .otherwise_skipped (.inr fail) ih
  | otherwiseChosen _ ih => exact .otherwise_skipped (.inl rfl) ih
  | times _ _ ihInner ih => exact ihInner.times ih
  | loop _ _ ihInner ih => exact ihInner.loop ih
  | exit =>
    intro lp tail chain cs x s used markers code yields none chainAt
    cases code with
    | @exit w =>
      have asks : Asks .left w true false (insert (exitTag w) markers) :=
        ⟨rfl, Set.mem_insert _ _, none.mono (by simp)⟩
      exact ⟨nofun, fun _ => ⟨w, _, rfl, asks, .step rfl (yields w _ _ _ _ _ rfl asks)⟩⟩
  | next =>
    intro lp tail chain cs x s used markers code yields none chainAt
    cases code with
    | @next w =>
      have asks : Asks .skipped w false true (insert (roundTag w) markers) :=
        ⟨rfl, Set.mem_insert _ _, none.mono (by simp)⟩
      exact ⟨nofun, fun _ => ⟨w, _, rfl, asks, .step rfl (yields w _ _ _ _ _ rfl asks)⟩⟩
  | roundsEnd fail =>
    intro block cs x s used markers code found none
    exact .inl ⟨fun pass => fail (Meaning.world_passes_header.1 pass), rfl⟩
  | roundsGoOn pass _ stays _ ihInner ih =>
    exact LoopReaches.goOn (Loop.unmarked_header _ _ _) (Meaning.world_passes_header.2 pass) ihInner
      stays ih
  | roundsLeft pass _ ih =>
    exact LoopReaches.of_left (Loop.unmarked_header _ _ _) (Meaning.world_passes_header.2 pass) ih
  | repeatsEnd =>
    intro block cs x s used markers code found none skips
    refine ⟨markers, .nil, ?_, ?_, fun mem => ⟨skips mem, id⟩⟩
    · exact none.mono (Set.sdiff_subset_sdiff_right (by simp))
    · intro mem
      exact absurd ⟨mem, exitTag_ne_roundTag block block⟩ (none block).1
  | repeatsGoOn _ stays _ ihInner ih => exact ihInner.repeats_goOn stays ih
  | repeatsLeft _ ih => exact ih.repeats_left

/-- Code outside of loops runs to its end and leaves no request. -/
theorem Script.Does.reaches {script : Script} (h : Does m (.block false script) u o v)
    (code : Code (.literal pack) view none noTail none (.block script) cs x s used)
    (none : NoRequests markers) :
    ∃ markers', NoRequests markers' ∧
      Machine.Reaches view.arena m.world cs ⟨u, markers⟩ ⟨v, markers'⟩ := by
  have ends := h.simulates _ _ _ _ _ _ _ markers code (fun _ _ _ _ _ _ _ _ => .nil) none nofun
  by_cases ho : o = .finished
  · obtain ⟨markers', _, _, none', goesOn⟩ := ends.finished ho
    exact ⟨markers', none', goesOn _ .nil⟩
  · obtain ⟨w, _, hw, _⟩ := ends.escapes ho
    cases hw

end Endings

end CommandPack
