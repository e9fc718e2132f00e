import CommandPack.Proofs.Linking.Hygiene
import CommandPack.Proofs.Linking.Preludes

/-!
# Calls in packs

A pack holds what it calls, and nothing is held for a call that is not made. The calls that linking
writes are those of its trace: each has a callee with several commands, which is kept and linked in
turn. Blocks and variants are kept for calls only. If the source lines are sealed, then no call is
lost again once its callee is kept.
-/

namespace CommandPack

open Text Workspace Linking Shield
open Discipline (hygiene Linked links_hygiene)

variable {path : Path}
variable {pack : String} {r : Routine} {callee caller : Path}

namespace Linking

variable {st mid st' : LinkState} {mark : CallMark} {visits : List Visit} {target q : Path}
  {r : Routine} {line : String} {lines : List String} {out : LinkedLine} {outs : List LinkedLine}

/-! ### What resolving preserves -/

/-- The root and the definitions that are compiled are used, and all other routines have generated
names. -/
structure Regular (st : LinkState) : Prop where
  used : ∀ q r, st.ws.routines.get? q = some r →
    r.kind = .root ∨ r.kind = .defined ∧ r.compiled = true → r.used = true
  numbered : ∀ q r, st.ws.routines.get? q = some r → r.kind ≠ .root → r.kind ≠ .defined → q.Numbered

/-- Routines that are as they were, apart from their commands, and perhaps used now. -/
theorem Regular.of_found (h : Regular st) (found : ∀ q r', st'.ws.routines.get? q = some r' →
    ∃ r, st.ws.routines.get? q = some r ∧ r'.kind = r.kind ∧ r'.compiled = r.compiled ∧
      (r.used = true → r'.used = true)) : Regular st' where
  used q r' known isNamed := by
    obtain ⟨r, before, kind, compiled, used⟩ := found q r' known
    rw [kind, compiled] at isNamed
    exact used (h.used q r before isNamed)
  numbered q r' known notRoot notDefined := by
    obtain ⟨r, before, kind, -⟩ := found q r' known
    exact h.numbered q r before (kind ▸ notRoot) (kind ▸ notDefined)

theorem Regular.adding {ws : Workspace} (regular : Regular st) (made : Made st.ws path ws)
    (key : Path × List String) : Regular (st.adding key path ws) := by
  have before {q : Path} {r : Routine} (found : ws.routines.get? q = some r)
      (known : st.ws.Knows q) : ∃ r₀ template, st.ws.routines.get? q = some r₀ ∧
        r = { r₀ with template } := by
    obtain ⟨r₀, known⟩ := known
    obtain ⟨template, found', -⟩ := made.kept known
    cases found.symm.trans found'
    exact ⟨r₀, template, known, rfl⟩
  refine ⟨fun q r found isNamed => ?_, fun q r found notRoot notDefined => ?_⟩
  · by_cases known : st.ws.Knows q
    · obtain ⟨r₀, template, known, rfl⟩ := before found known
      exact regular.used q r₀ known isNamed
    · rcases isNamed with isRoot | ⟨isDefined, compiled⟩
      · exact made.usage.root found known isRoot
      · exact (made.usage.defined found known isDefined compiled).resolve_left id
  · by_cases known : st.ws.Knows q
    · obtain ⟨r₀, template, known, rfl⟩ := before found known
      exact regular.numbered q r₀ known notRoot notDefined
    · exact made.usage.numbered found known notRoot notDefined

theorem Regular.moves (h : Regular st) (moves : Moves st st') (tidy : st.Tidy) : Regular st' := by
  induction moves with
  | refl => exact h
  | tail earlier move ih =>
    cases move with
    | make found isTemplate free compiled =>
      exact ih.adding (made_of_ran (tidy.moves earlier).housed found isTemplate free compiled) _
    | keep =>
      refine ih.of_found fun q r' found => ?_
      obtain ⟨r, before, rfl⟩ := found_before (LinkState.ws_keeping ▸ found)
      refine ⟨r, before, ?_⟩
      split
      · exact ⟨rfl, rfl, fun _ => rfl⟩
      · exact ⟨rfl, rfl, id⟩

/-! ### Calls -/

/-- A routine that is kept and called by its name. -/
def Called (st : LinkState) (target : Path) : Prop :=
  ∃ r, st.ws.routines.get? target = some r ∧ r.used = true ∧ 1 < r.commands.length

theorem Called.moves (h : Called st target) (moves : Moves st st') (tidy : st.Tidy) :
    Called st' target := by
  obtain ⟨r, found, used, long⟩ := h
  obtain ⟨r', found', moved⟩ := moves.moved tidy found
  refine ⟨r', found', moved.used used, ?_⟩
  rw [moved.same]
  exact long

/-- A call in a linked line has the name of its callee, which is kept. -/
theorem Resolves.calls (resolves : Resolves line st visits out st') :
    st.Tidy → out.callee = some target →
      (∃ before after, out.text = before ++ callText st'.ws.settings.pack target ++ after) ∧
        Called st' target := by
  induction resolves with
  | steady | empty | inert => rintro - ⟨⟩
  | @single _ found _ _ _ _ _ _ _ _ _ _ finds _ _ _ _ ih =>
    intro tidy called
    obtain ⟨⟨before, after, written⟩, kept⟩ := ih (tidy.moves finds.moves) called
    refine ⟨⟨found.before ++ before, after ++ found.after, ?_⟩, kept⟩
    simp only [written, String.append_assoc]
  | @call _ found _ _ _ _ r _ _ known long =>
    rintro tidy ⟨⟩
    refine ⟨⟨found.before, found.after, ?_⟩, { r with used := true }, ?_, rfl, long⟩
    · rw [LinkState.ws_keeping]
      rfl
    · rw [LinkState.ws_keeping, updateRoutine, Table.get?_modify, known, Option.map_some,
        if_pos rfl]

theorem ResolvesAll.calls (resolves : ResolvesAll lines st visits outs st') :
    st.Tidy → outs.length = lines.length ∧ ∀ out ∈ outs, ∀ target, out.callee = some target →
      (∃ before after, out.text = before ++ callText st'.ws.settings.pack target ++ after) ∧
        Called st' target := by
  induction resolves with
  | nil => exact fun _ => ⟨rfl, nofun⟩
  | @cons _ _ _ _ _ _ _ out _ first later ih =>
    intro tidy
    have here := tidy.moves first.moves
    have behind := later.moves
    obtain ⟨length, calls⟩ := ih here
    refine ⟨congrArg (· + 1) length, fun out mem target called => ?_⟩
    rcases List.mem_cons.1 mem with rfl | mem
    · obtain ⟨written, kept⟩ := first.calls tidy called
      rw [(behind.progress here).settings]
      exact ⟨written, kept.moves behind here⟩
    · exact calls out mem target called

/-! ### Rounds -/

/-- A routine has been linked, and these are its lines. -/
def Links (st : LinkState) (path : Path) (outs : List LinkedLine) : Prop :=
  path ∈ st.visited ∧ ∃ r, st.ws.routines.get? path = some r ∧ r.used = true ∧
    r.commands = outs.map fun out => .text out.text

/-- What the linking of one routine does. -/
structure Advances (st : LinkState) (path : Path) (outs : List LinkedLine) (st' : LinkState) :
    Prop where
  tidy : st'.Tidy
  visited : st'.visited = path :: st.visited
  settings : st'.ws.settings = st.ws.settings
  /-- All other routines are carried on. -/
  moved {q : Path} {r : Routine} : q ≠ path → st.ws.routines.get? q = some r →
    ∃ r', st'.ws.routines.get? q = some r' ∧ r.Moved r'
  links : Links st' path outs
  regular : Regular st → Regular st'
  called {target : Path} : Called st target → Called st' target
  calls : ∀ out ∈ outs, ∀ target, out.callee = some target →
    (∃ before after, out.text = before ++ callText st'.ws.settings.pack target ++ after) ∧
      Called st' target

theorem ResolvesAll.advances {queue : List Path} (tidy : st.Tidy)
    (waiting : st.queue = path :: queue) (found : st.ws.routines.get? path = some r)
    (resolved : ResolvesAll (r.commands.map (·.render st.ws.settings.pack)) (st.taking path queue)
      visits outs mid) :
    path ∉ st.visited ∧ Advances st path outs (mid.storing path (outs.map LinkedLine.text)) := by
  obtain ⟨new, taken⟩ := tidy.take waiting
  have moves := resolved.moves
  have tidy' := taken.moves moves
  obtain ⟨length, calls⟩ := resolved.calls taken
  have get?_storing (q : Path) : (mid.storing path (outs.map LinkedLine.text)).ws.routines.get? q =
      (mid.ws.routines.get? q).map fun r => if q = path then
        { r with commands := (outs.map LinkedLine.text).map .text } else r :=
    Table.get?_modify ..
  obtain ⟨r', found', moved⟩ := moves.moved taken (show (st.taking path queue).ws.routines.get? path =
    some r from found)
  have stored : (mid.storing path (outs.map LinkedLine.text)).ws.routines.get? path =
      some { r' with commands := (outs.map LinkedLine.text).map .text } := by
    rw [get?_storing, found', Option.map_some, if_pos rfl]
  -- a callee has as many lines after it is linked as it had before
  have called {target : Path} (h : Called mid target) :
      Called (mid.storing path (outs.map LinkedLine.text)) target := by
    obtain ⟨r₀, found₀, used, long⟩ := h
    by_cases same : target = path
    · subst same
      cases found₀.symm.trans found'
      refine ⟨_, stored, used, ?_⟩
      rw [List.length_map] at length
      rw [moved.same] at long
      simp only [List.length_map]
      exact length ▸ long
    · exact ⟨r₀, by rw [get?_storing, found₀, Option.map_some, if_neg same], used, long⟩
  have visited : path ∈ mid.visited := moves.visited_eq ▸ .head _
  refine ⟨new, tidy'.store _, moves.visited_eq, (moves.progress taken).settings,
    fun other known => ?_,
    ⟨visited, _, stored, (tidy'.used found').2 (.inl visited), List.map_map ..⟩,
    fun regular => ?_, fun kept => ?_, fun out mem target isCallee => ?_⟩
  · obtain ⟨r₁, found₁, moved₁⟩ := moves.moved taken known
    exact ⟨r₁, by rw [get?_storing, found₁, Option.map_some, if_neg other], moved₁⟩
  · have regular : Regular (st.taking path queue) := ⟨regular.used, regular.numbered⟩
    refine (regular.moves moves taken).of_found fun q r₀ found₀ => ?_
    obtain ⟨r₁, found₁, rfl⟩ := found_before found₀
    refine ⟨r₁, found₁, ?_⟩
    split <;> exact ⟨rfl, rfl, id⟩
  · obtain ⟨r₀, found₀, used, long⟩ := kept
    have kept : Called (st.taking path queue) _ := ⟨r₀, found₀, used, long⟩
    exact called (kept.moves moves taken)
  · obtain ⟨written, kept⟩ := calls out mem target isCallee
    exact ⟨written, called kept⟩

/-- What a whole linking leaves. -/
structure Completes (st : LinkState) (rounds : List (Path × List LinkedLine)) (st' : LinkState) :
    Prop where
  tidy : st'.Tidy
  done : st'.queue = []
  settings : st'.ws.settings = st.ws.settings
  regular : Regular st → Regular st'
  links {path : Path} {outs : List LinkedLine} : Links st path outs → Links st' path outs
  called {target : Path} : Called st target → Called st' target
  linked : ∀ path outs, (path, outs) ∈ rounds → Links st' path outs ∧
    ∀ out ∈ outs, ∀ target, out.callee = some target →
      (∃ before after, out.text = before ++ callText st'.ws.settings.pack target ++ after) ∧
        Called st' target
  visited : ∀ path ∈ st'.visited, path ∈ st.visited ∨ ∃ outs, (path, outs) ∈ rounds

theorem Rounds.completes {rounds : List (Path × List LinkedLine)}
    (ran : Rounds st visits rounds st') : st.Tidy → Completes st rounds st' := by
  induction ran with
  | done done =>
    exact fun tidy => ⟨tidy, done, rfl, id, id, id, nofun, fun _ mem => .inl mem⟩
  | @next _ _ _ path _ _ _ _ outs _ waiting found resolved _ ih =>
    intro tidy
    obtain ⟨new, advances⟩ := resolved.advances tidy waiting found
    have rest := ih advances.tidy
    refine ⟨rest.tidy, rest.done, rest.settings.trans advances.settings,
      fun regular => rest.regular (advances.regular regular), fun {q outs'} linked => ?_,
      fun kept => rest.called (advances.called kept), fun q outs' mem => ?_, fun q mem => ?_⟩
    · obtain ⟨visited, r₀, found₀, used, lines⟩ := linked
      have other : q ≠ path := fun same => new (same ▸ visited)
      obtain ⟨r₁, found₁, moved⟩ := advances.moved other found₀
      refine rest.links ⟨advances.visited ▸ .tail _ visited, r₁, found₁, moved.used used, ?_⟩
      rw [moved.same]
      exact lines
    · rcases List.mem_cons.1 mem with same | mem
      · cases same
        refine ⟨rest.links advances.links, fun out mem target isCallee => ?_⟩
        obtain ⟨written, kept⟩ := advances.calls out mem target isCallee
        rw [rest.settings]
        exact ⟨written, rest.called kept⟩
      · exact rest.linked q outs' mem
    · rcases rest.visited q mem with visited | ⟨outs', mem⟩
      · rw [advances.visited] at visited
        rcases List.mem_cons.1 visited with rfl | visited
        · exact .inr ⟨outs, .head _⟩
        · exact .inl visited
      · exact .inr ⟨outs', .tail _ mem⟩

/-! ### Blocks and variants -/

/-- A block or a variant that is kept. -/
def Kept (st : LinkState) (q : Path) : Prop :=
  ∃ r, st.ws.routines.get? q = some r ∧ r.used = true ∧ r.kind ≠ .root ∧ r.kind ≠ .defined

theorem Finds.kept (finds : Finds mark st visits target mid) (housed : st.ws.Housed)
    (kept : Kept mid q) : Kept st q := by
  cases finds with
  | plain | again => exact kept
  | new _ _ found isTemplate free ran =>
    have made := made_of_ran housed found isTemplate free ran
    obtain ⟨r', found', used, notRoot, notDefined⟩ := kept
    by_cases known : st.ws.Knows q
    · obtain ⟨r, known⟩ := known
      obtain ⟨template, found'', -⟩ := made.kept known
      cases found'.symm.trans found''
      exact ⟨r, known, used, notRoot, notDefined⟩
    · rcases made.usage.used found' known used with isRoot | isDefined
      · exact absurd isRoot notRoot
      · exact absurd isDefined notDefined

theorem kept_keeping (kept : Kept (st.keeping target) q) : Kept st q ∨ q = target := by
  obtain ⟨r', found', used, notRoot, notDefined⟩ := kept
  obtain ⟨r, found, rfl⟩ := found_before (LinkState.ws_keeping ▸ found')
  by_cases same : q = target
  · exact .inr same
  · rw [if_neg same] at used notRoot notDefined
    exact .inl ⟨r, found, used, notRoot, notDefined⟩

theorem isInert_front {clauses : List Clause} {text : String} (active : isInert text = false) :
    isInert (Command.front pack clauses ++ text) = false := by
  unfold Command.front
  split
  · rw [String.empty_append]
    exact active
  · rw [String.append_assoc, String.append_assoc, isInert_append (by decide)]
    decide

theorem isInert_callText : isInert (callText pack target) = false := by
  rw [callText, String.append_assoc, String.append_assoc, isInert_append (by decide)]
  decide

/-- A block or a variant is kept for the call in a linked line. -/
theorem Resolves.kept (resolves : Resolves line st visits out st') :
    ∀ command, line = command.render st.ws.settings.pack → hygiene.Sound st.ws →
      hygiene.Writes st.ws command →
        (∀ q, Kept st' q → Kept st q ∨ out.callee = some q) ∧
          (out.callee ≠ none → isInert out.text = false) := by
  have links := links_hygiene
  induction resolves with
  | steady => exact fun _ _ _ _ => ⟨fun _ kept => .inl kept, fun called => absurd rfl called⟩
  | empty _ finds =>
    exact fun _ _ sound _ =>
      ⟨fun _ kept => .inl (finds.kept sound.housed kept), fun called => absurd rfl called⟩
  | inert marked finds known commands _ inert ih =>
    rintro command rfl sound writes
    have linked := Linked.finds sound links writes marked finds
    obtain ⟨inside, active⟩ := ih _ rfl linked.sound
      (linked.sound.stored known _ (commands ▸ .head _))
    refine ⟨fun q kept => ?_, fun called => absurd rfl called⟩
    -- an inert line calls nothing
    rcases inside q kept with kept | called
    · exact .inl (finds.kept sound.housed kept)
    · rw [active (by rw [called]; exact nofun)] at inert
      cases inert
  | single marked finds known commands _ active ih =>
    rintro command rfl sound writes
    have linked := Linked.finds sound links writes marked finds
    obtain ⟨inside, -⟩ := ih _ rfl linked.sound
      (linked.sound.stored known _ (commands ▸ .head _))
    obtain ⟨clauses, -, -, before, after, -⟩ := Clean.found sound writes marked
    refine ⟨fun q kept => (inside q kept).imp_left (finds.kept sound.housed), fun _ => ?_⟩
    rw [before, after, String.append_empty]
    exact isInert_front active
  | call marked finds =>
    rintro command rfl sound writes
    obtain ⟨clauses, -, -, before, after, -⟩ := Clean.found sound writes marked
    refine ⟨fun q kept => ?_, fun _ => ?_⟩
    · exact (kept_keeping kept).imp (finds.kept sound.housed) fun same => congrArg some same.symm
    · rw [CallMark.Found.calling, before, after, String.append_empty]
      exact isInert_front isInert_callText

theorem ResolvesAll.kept (resolves : ResolvesAll lines st visits outs st') :
    ∀ commands : List Command, lines = commands.map (·.render st.ws.settings.pack) →
      hygiene.Sound st.ws →
      (∀ command ∈ commands, hygiene.Writes st.ws command) →
        ∀ q, Kept st' q → Kept st q ∨ ∃ out ∈ outs, out.callee = some q := by
  have links := links_hygiene
  induction resolves with
  | nil => exact fun _ _ _ _ q kept => .inl kept
  | @cons _ _ _ _ _ _ _ out _ first _ ih =>
    intro commands same sound writes q kept
    obtain ⟨command, commands, rfl, rfl, rfl⟩ := List.map_eq_cons_iff.1 same.symm
    obtain ⟨linked, -⟩ := Linked.resolves links first command rfl sound
      (writes _ (.head _))
    rcases ih commands (by rw [linked.pack]) linked.sound
      (fun command mem => linked.writes (writes command (.tail _ mem))) q kept with
      kept | ⟨out', mem, called⟩
    · rcases (first.kept command rfl sound (writes _ (.head _))).1 q kept with kept | called
      · exact .inl kept
      · exact .inr ⟨out, .head _, called⟩
    · exact .inr ⟨out', .tail _ mem, called⟩

/-- Every block and every variant that is kept is called in a linked line. -/
theorem Rounds.kept {rounds : List (Path × List LinkedLine)} (ran : Rounds st visits rounds st') :
    hygiene.Sound st.ws → ∀ q, Kept st' q →
      Kept st q ∨ ∃ path outs, (path, outs) ∈ rounds ∧ ∃ out ∈ outs, out.callee = some q := by
  have links := links_hygiene
  induction ran with
  | done => exact fun _ q kept => .inl kept
  | @next _ mid _ path _ r _ _ outs _ _ found resolved _ ih =>
    intro sound q kept
    have written := sound.stored found
    obtain ⟨linked, lines⟩ := Linked.resolvesAll links resolved r.commands rfl sound
      written
    have stored := Linked.store linked.sound path lines
    rcases ih stored.sound q kept with kept | ⟨path', outs', mem, called⟩
    · obtain ⟨r', found', used, notRoot, notDefined⟩ := kept
      obtain ⟨r₀, found₀, rfl⟩ := found_before found'
      have kept : Kept mid q := by
        by_cases same : q = path
        · rw [if_pos same] at used notRoot notDefined
          exact ⟨r₀, found₀, used, notRoot, notDefined⟩
        · rw [if_neg same] at used notRoot notDefined
          exact ⟨r₀, found₀, used, notRoot, notDefined⟩
      rcases resolved.kept r.commands rfl sound written q kept with kept | called
      · exact .inl kept
      · exact .inr ⟨path, outs, .head _, called⟩
    · exact .inr ⟨path', outs', .tail _ mem, called⟩

end Linking

/-! ### Packs -/

namespace Pack

variable {limit : Nat} {settings : Settings} {sources : List (String × String)} {pack : Pack}

namespace History

/-- A linked line of a routine holds a call to another one. -/
def Calls (history : Pack.History limit settings sources pack) (caller callee : Path) : Prop :=
  ∃ outs, (caller, outs) ∈ history.rounds ∧ ∃ out ∈ outs, out.callee = some callee

theorem tidy_compiled (history : Pack.History limit settings sources pack) :
    history.compiled.linkState.Tidy := by
  obtain ⟨-, housed⟩ := history.ran.housed history.unbuilt.housed_withRoot (by rintro _ ⟨⟩)
  exact .linkState housed

theorem completes (history : Pack.History limit settings sources pack) :
    Completes history.compiled.linkState history.rounds history.linked :=
  history.links.completes history.tidy_compiled

/-- When linking starts, the root and the definitions are used, and nothing else is. -/
theorem usage_compiled (history : Pack.History limit settings sources pack) :
    history.compiled.Usage (fun _ => False) fun _ => False := by
  have unbuilt := history.unbuilt
  have root {q : Path} {r : Routine} (found : history.read.withRoot.routines.get? q = some r) :
      r = .ofRoot settings.rootPath :=
    (unbuilt.only_root found).2
  have started : history.read.withRoot.Usage (fun _ => False) fun _ => False := by
    refine ⟨fun found _ _ => .inl ?_, fun found _ _ => ?_, fun found _ isDefined => ?_,
      fun found _ notRoot => ?_⟩
    · rw [root found]
      rfl
    · rw [root found]
      rfl
    · rw [root found] at isDefined
      cases isDefined
    · rw [root found] at notRoot
      exact absurd rfl notRoot
  refine Usage.of_kind (history.ran.usage unbuilt.sits started) fun r found => ?_
  obtain ⟨develops, -⟩ := unbuilt.sits.ran history.ran
  obtain ⟨last, foundLast, origin⟩ := develops.kept unbuilt.found_root
  cases found.symm.trans foundLast
  rw [Routine.kind_of_origin origin]
  exact nofun

theorem regular (history : Pack.History limit settings sources pack) : Regular history.linked := by
  have usage := history.usage_compiled
  refine history.completes.regular ⟨fun q r found isNamed => ?_, fun q r found => ?_⟩
  · rcases isNamed with isRoot | ⟨isDefined, compiled⟩
    · exact usage.root found id isRoot
    · exact (usage.defined found id isDefined compiled).resolve_left id
  · exact usage.numbered found id

/-- The lines that a routine brings into the pack are those that it was linked to. -/
theorem own_eq_some_iff (history : Pack.History limit settings sources pack) {lines : List String} :
    history.own path = some lines ↔ lines ≠ [] ∧
      ∃ outs, (path, outs) ∈ history.rounds ∧
        lines = outs.map fun out => remove out.text := by
  have completes := history.completes
  have texts (outs : List LinkedLine) : ((outs.map fun out => Command.text out.text).map
      (·.render history.linked.ws.settings.pack)).map remove =
        outs.map fun out => remove out.text := by
    simp only [List.map_map]
    rfl
  unfold own
  rw [Option.map_eq_some_iff]
  constructor
  · rintro ⟨r, kept, rfl⟩
    obtain ⟨found, keeps⟩ := Option.filter_eq_some_iff.1 kept
    obtain ⟨used, some'⟩ := Bool.and_eq_true_iff.1 keeps
    have visited : path ∈ history.linked.visited := by
      rcases (completes.tidy.used found).1 used with visited | waits
      · exact visited
      · rw [completes.done] at waits
        cases waits
    obtain ⟨outs, mem⟩ := (completes.visited path visited).resolve_left nofun
    obtain ⟨⟨-, r', found', -, lines⟩, -⟩ := completes.linked path outs mem
    cases found.symm.trans found'
    refine ⟨?_, outs, mem, ?_⟩
    · simpa [linesOf] using some'
    · rw [linesOf, lines, texts]
  · rintro ⟨some', outs, mem, rfl⟩
    obtain ⟨⟨-, r, found, used, lines⟩, -⟩ := completes.linked path outs mem
    refine ⟨r, Option.filter_eq_some_iff.2 ⟨found, ?_⟩, ?_⟩
    · rw [keeps, used, lines]
      simpa using some'
    · rw [linesOf, lines, texts]

/-- What the lines of a routine in the pack are: what it was linked to, with the prelude in front of
the load routine. -/
theorem exists_prelude (history : Pack.History limit settings sources pack) :
    ∃ prelude : List String,
      (∀ path lines, history.own path = some lines → pack.function? path.render =
        some ((if path = settings.rootPath.child "load" then prelude else []) ++ lines)) ∧
      ∀ name commands, pack.function? name = some commands → commands ≠ [] ∧
        ∃ path : Path, path.Below settings.root ∧ name = path.render ∧
          (path ≠ settings.rootPath.child "load" → history.own path = some commands) ∧
          commands = (if path = settings.rootPath.child "load" then prelude else []) ++
            (history.own path).getD [] := by
  obtain ⟨before, made, functions, paths⟩ := history.function?_eq
  let length := history.linked.ws.prune.unshield.preludeLength
  have lines (path : Path) : history.own path ≠ some [] := fun own =>
    (history.own_eq_some_iff.1 own).1 rfl
  refine ⟨if length ≠ 0 then before.map (·.render settings.pack) else [], fun path own isOwn => ?_,
    fun name commands found => ?_⟩
  · have below : path.Below settings.root := by
      have kept := history.own_eq path
      rw [isOwn, eq_comm, Option.map_eq_some_iff] at kept
      obtain ⟨r, kept, -⟩ := kept
      exact (history.below_of_kept kept).2
    rw [functions path below, isOwn]
    by_cases load : path = settings.rootPath.child "load"
    · by_cases some' : length ≠ 0
      · rw [if_pos ⟨load, some'⟩, if_pos load, if_pos some']
        rfl
      · rw [if_neg fun h => some' h.2, if_pos load, if_neg some']
        rfl
    · rw [if_neg fun h => load h.1, if_neg load]
      rfl
  · obtain ⟨path, below, rfl⟩ := paths name commands found
    rw [functions path below] at found
    by_cases load : path = settings.rootPath.child "load" ∧ length ≠ 0
    · rw [if_pos load] at found
      cases found
      refine ⟨?_, path, below, rfl, fun other => absurd load.1 other, ?_⟩
      · have long := length_prelude (made load.2)
        intro none
        rw [List.append_eq_nil_iff, List.map_eq_nil_iff] at none
        rw [none.1, List.length_nil] at long
        omega
      · rw [if_pos load.1, if_pos load.2]
    · rw [if_neg load] at found
      refine ⟨fun none => lines path (none ▸ found), path, below, rfl, fun _ => found, ?_⟩
      rw [found]
      by_cases isLoad : path = settings.rootPath.child "load"
      · rw [if_pos isLoad, if_neg fun some' => load ⟨isLoad, some'⟩]
        rfl
      · rw [if_neg isLoad]
        rfl

theorem own_of_used (history : Pack.History limit settings sources pack)
    (found : history.linked.ws.routines.get? path = some r) (used : r.used = true)
    (some' : r.commands ≠ []) :
    history.own path = some ((history.linked.ws.linesOf r).map remove) := by
  have kept : keeps r = true := by
    rw [keeps, used]
    simpa using some'
  rw [own, found, Option.filter_some, if_pos kept, Option.map_some]

/-- A call that linking writes is to a function of the pack. -/
theorem packs_callee (history : Pack.History limit settings sources pack) {outs : List LinkedLine}
    {out : LinkedLine} (round : (caller, outs) ∈ history.rounds) (mem : out ∈ outs)
    (called : out.callee = some callee) :
    (∃ before after, out.text = before ++ callText settings.pack callee ++ after) ∧
      ∃ commands, pack.function? callee.render = some commands ∧ 2 ≤ commands.length := by
  obtain ⟨written, r, found, used, long⟩ :=
    (history.completes.linked caller outs round).2 out mem callee called
  rw [history.housed.2] at written
  obtain ⟨prelude, packed, -⟩ := history.exists_prelude
  have own := history.own_of_used found used (by rintro none; rw [none] at long; cases long)
  refine ⟨written, _, packed callee _ own, ?_⟩
  rw [List.length_append, linesOf, List.length_map, List.length_map]
  omega

/-- What calls a routine is in the pack. -/
theorem Calls.packed {history : Pack.History limit settings sources pack}
    (h : history.Calls caller callee) : (pack.function? caller.render).isSome = true ∧
      (pack.function? callee.render).isSome = true := by
  obtain ⟨outs, round, out, mem, called⟩ := h
  obtain ⟨prelude, packed, -⟩ := history.exists_prelude
  have own : history.own caller = some (outs.map fun out => remove out.text) := by
    refine history.own_eq_some_iff.2 ⟨?_, outs, round, rfl⟩
    exact List.map_eq_nil_iff.not.2 (List.ne_nil_of_mem mem)
  obtain ⟨-, commands, there, -⟩ := history.packs_callee round mem called
  rw [packed caller _ own, there]
  exact ⟨rfl, rfl⟩

/-- The name of the load routine is not generated. -/
theorem not_numbered_load (root : Path) : ¬ (root.child "load").Numbered := by
  rintro ⟨parent, role, n, same⟩
  have segment := (Path.child_injective same).2
  have first := congrArg (fun s => (chars s).head?) segment
  simp only [BlockRole.segment, chars_append] at first
  cases role <;> cases first

/-- A block or a variant is in the pack for a call. -/
theorem exists_calls (history : Pack.History limit settings sources pack)
    (sound : hygiene.Sound history.compiled)
    (found : history.linked.ws.routines.get? path = some r) (notRoot : r.kind ≠ .root)
    (notDefined : r.kind ≠ .defined) (isThere : (pack.function? path.render).isSome = true) :
    ∃ caller, history.Calls caller path := by
  have other : path ≠ settings.rootPath.child "load" := by
    rintro rfl
    exact not_numbered_load _ (history.regular.numbered _ r found notRoot notDefined)
  obtain ⟨_, -, byPath, -⟩ := history.function?_eq
  have below : path.Below settings.root :=
    history.housed.2 ▸ history.housed.1.orderly.below found
  rw [byPath path below, if_neg fun h => other h.1] at isThere
  -- what is packed is used, and a block or a variant comes to be used by a call
  have kept : Kept history.linked path := by
    obtain ⟨lines, own⟩ := Option.isSome_iff_exists.1 isThere
    obtain ⟨r', kept, -⟩ := Option.map_eq_some_iff.1 own
    obtain ⟨found', keeps⟩ := Option.filter_eq_some_iff.1 kept
    cases found.symm.trans found'
    exact ⟨r, found, (Bool.and_eq_true_iff.1 keeps).1, notRoot, notDefined⟩
  rcases history.links.kept sound path kept with
    ⟨r', found', used, notRoot', notDefined'⟩ | ⟨caller, outs, round, calls⟩
  · rcases history.usage_compiled.used found' id used with isRoot | isDefined
    · exact absurd isRoot notRoot'
    · exact absurd isDefined notDefined'
  · exact ⟨caller, outs, round, calls⟩

end History

/-- A pack is closed under the calls in it. Each of its functions has commands, those that it was
linked to and the prelude in front of the load function; every call that linking writes is to a
function with at least two commands; the root and all definitions with commands are there. If no
source text opens a mark, then a block or a variant is there if and only if it is called. -/
theorem build_closes_calls (built : Pack.build limit settings sources = .ok pack) :
    ∃ (history : Pack.History limit settings sources pack) (prelude : List String),
      (∀ name commands, pack.function? name = some commands → commands ≠ [] ∧
        ∃ path outs, name = Path.render path ∧
          ((path, outs) ∈ history.rounds ∨ path = settings.rootPath.child "load" ∧ outs = []) ∧
          commands = (if path = settings.rootPath.child "load" then prelude else []) ++
            outs.map fun out => remove out.text) ∧
      (∀ caller outs, (caller, outs) ∈ history.rounds → ∀ out ∈ outs, ∀ callee,
        out.callee = some callee →
          (∃ before after, out.text = before ++ callText settings.pack callee ++ after) ∧
            ∃ commands, pack.function? callee.render = some commands ∧ 2 ≤ commands.length) ∧
      (∀ path r, history.linked.ws.routines.get? path = some r →
        r.kind = .root ∨ r.kind = .defined ∧ r.compiled = true → r.commands ≠ [] →
          (pack.function? path.render).isSome = true) ∧
      (settings.rootPath.Plain → Calm settings.root → Calm settings.pack →
        (∀ line ∈ history.read.lines, Sealed (chars line.text)) →
          ∀ path r, history.linked.ws.routines.get? path = some r → r.kind ≠ .root →
            r.kind ≠ .defined → ((pack.function? path.render).isSome = true ↔
              ∃ caller, (pack.function? caller.render).isSome = true ∧
                history.Calls caller path)) := by
  obtain ⟨history⟩ := exists_history built
  obtain ⟨prelude, packed, functions⟩ := history.exists_prelude
  refine ⟨history, prelude, fun name commands found => ?_, fun _ _ round _ mem _ called =>
    history.packs_callee round mem called, fun path r found isNamed some' => ?_, ?_⟩
  · obtain ⟨some', path, below, rfl, ownLines, rfl⟩ := functions name commands found
    refine ⟨some', path, ?_⟩
    cases own : history.own path with
    | none =>
      refine ⟨[], rfl, .inr ⟨?_, rfl⟩, rfl⟩
      by_contra other
      rw [own] at ownLines
      cases ownLines other
    | some lines =>
      obtain ⟨-, outs, round, rfl⟩ := history.own_eq_some_iff.1 own
      exact ⟨outs, rfl, .inl round, rfl⟩
  · have own := history.own_of_used found (history.regular.used path r found isNamed) some'
    rw [packed path _ own]
    rfl
  · intro plain root calm sealed path r found notRoot notDefined
    have clean := history.unbuilt.clean_withRoot plain root calm sealed
    obtain ⟨sound, -⟩ := history.disciplined links_hygiene clean
    constructor
    · intro isThere
      obtain ⟨caller, calls⟩ := history.exists_calls sound found notRoot notDefined isThere
      exact ⟨caller, calls.packed.1, calls⟩
    · rintro ⟨caller, -, calls⟩
      exact calls.packed.2

/-- A variant that is called through a block with one command, and has a block of its own; a
definition that is replaced where it is called, and a block that is never entered. -/
def callChain : String :=
  "def f x#s:\n    if go:\n        say x\n        say 1\n    say 2\ndef g:\n    say 3\n" ++
    "if a:\n    f hi\nif b:\n    g\nrepeat 0:\n    say 4\n    say 5\nn = 1"

theorem build_closes_calls_callChain :
    ∃ pack, Pack.build 100 {} [("", callChain)] = .ok pack ∧
      pack.functions.keys = ["main", "main.g", "main.f.s0", "main.f.s0.e0", "main.load"] ∧
      ∃ history : Pack.History 100 {} [("", callChain)] pack,
        (∀ line ∈ history.read.lines, Sealed (chars line.text)) ∧
        ∀ path r, history.linked.ws.routines.get? path = some r → r.kind ≠ .root →
          r.kind ≠ .defined → ((pack.function? path.render).isSome = true ↔
            ∃ caller, (pack.function? caller.render).isSome = true ∧
              history.Calls caller path) := by
  obtain ⟨pack, built, keys⟩ : ∃ pack, Pack.build 100 {} [("", callChain)] = .ok pack ∧
      pack.functions.keys = ["main", "main.g", "main.f.s0", "main.f.s0.e0", "main.load"] := by
    decide +kernel
  obtain ⟨read, reads, sealed⟩ : ∃ read, addSources {} [("", callChain)] = .ok read ∧
      ∀ line ∈ read.lines, Sealed (chars line.text) := by decide +kernel
  obtain ⟨history, _, -, -, -, minimal⟩ := build_closes_calls built
  obtain rfl : read = history.read := Except.ok.inj (reads.symm.trans history.reads)
  exact ⟨pack, built, keys, history, sealed,
    minimal (by decide) (by decide) (by decide) sealed⟩

/-- Source text that opens a mark lets a call be lost: a block with one command is replaced by a
comment, and what the command calls is kept without being called. -/
theorem build_keeps_uncalled :
    ∃ pack, Pack.build 100 {} [("", "x#s = #hi\nrepeat 0:\n    say 1\n    say 2\nif a:\n" ++
        "    x !f#v\x7bmain.r0\x7d")] = .ok pack ∧
      pack.functions.entries =
        [("main", ["# skipped empty call: execute if a run function pack:e1"]),
          ("main.r0", ["say 1", "say 2"])] := by
  decide +kernel

end Pack

end CommandPack
