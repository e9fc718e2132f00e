import CommandPack.Proofs.Linking.Rewriting

/-!
# The order of linking

Linking changes routines in place, so a callee may be read before or after it has been linked. What
holds all the time: a routine that has been linked has the rewritten lines, and every other one has
the lines that it had at the start. Lines that have been rewritten are steady, so it makes no
difference which of the two is read, and the order of the routines does not matter in the end.
-/

namespace CommandPack

open Linking CallMark WorkM Workspace

variable {path : Path}

namespace Linking

/-- What linking never changes: everything but the commands of the routines, and which of them are
used. -/
structure Based (ws : Workspace) (st : LinkState) : Prop where
  untemplated : st.Untemplated
  settings : st.ws.settings = ws.settings
  ints : st.ws.ints = ws.ints
  constants : st.ws.constants = ws.constants
  keys : st.ws.routines.keys = ws.routines.keys
  keyed {path : Path} {r : Routine} : st.ws.routines.get? path = some r → r.path = path

/-- What holds of every state that linking comes to. Routines that are being linked are busy. -/
structure Mirrors (ws : Workspace) (busy : Path → Prop) (st : LinkState) : Prop where
  based : Based ws st
  waiting {path : Path} : (path ∈ st.visited → busy path) → st.ws.code path = ws.code path
  linked {path : Path} : path ∈ st.visited → ¬ busy path → ∃ lines outs,
    ws.code path = some lines ∧ List.Forall₂ (fun line out => ws.rewrite line = some out) lines outs ∧
      st.ws.code path = some (outs.map Rewritten.line) ∧
      ∀ out ∈ outs, ∀ target, out.kept = some target → st.Scheduled target
  starts {path : Path} {r : Routine} : ws.routines.get? path = some r → r.used = true →
    st.Scheduled path
  reached {path : Path} : st.Scheduled path → ws.Reached path
  used {path : Path} {r : Routine} : st.ws.routines.get? path = some r →
    (r.used = true ↔ st.Scheduled path)
  nodup : (st.visited ++ st.queue).Nodup

/-- What resolving leaves alone: the lines of all routines, and which of them have been visited. -/
structure Later (st st' : LinkState) : Prop where
  visited : st'.visited = st.visited
  code (path : Path) : st'.ws.code path = st.ws.code path
  scheduled {path : Path} : st.Scheduled path → st'.Scheduled path

variable {ws : Workspace} {busy : Path → Prop} {st st₁ st' : LinkState} {limit depth n : Nat}
  {line line' : String} {lines : List String} {target : Path} {out : Rewritten}

theorem Later.refl (st : LinkState) : Later st st :=
  ⟨rfl, fun _ => rfl, id⟩

theorem Later.trans (h : Later st st₁) (h' : Later st₁ st') : Later st st' where
  visited := h'.visited.trans h.visited
  code path := (h'.code path).trans (h.code path)
  scheduled scheduled := h'.scheduled (h.scheduled scheduled)

/-! ### Single steps -/

/-- Changing the commands of a routine, or its use. -/
theorem Based.update (h : Based ws st) {f : Routine → Routine} {queue visited : List Path}
    (path : ∀ r, (f r).path = r.path) (template : ∀ r, (f r).template = r.template) :
    Based ws { st with ws := st.ws.updateRoutine target f, queue, visited } where
  untemplated := by
    refine ⟨h.untemplated.variants, fun q r found => ?_⟩
    obtain ⟨r₀, before, rfl⟩ := found_before found
    split
    · rw [template, h.untemplated.template q r₀ before]
    · exact h.untemplated.template q r₀ before
  settings := h.settings
  ints := h.ints
  constants := h.constants
  keys := (Table.keys_modify ..).trans h.keys
  keyed {q r} found := by
    obtain ⟨r₀, before, rfl⟩ := found_before found
    split
    · rw [path, h.keyed before]
    · exact h.keyed before

/-- What is visited and what waits does not matter to the rest. -/
theorem Based.reschedule (h : Based ws st) (queue visited : List Path) :
    Based ws { st with queue, visited } :=
  { h with untemplated := ⟨h.untemplated.variants, h.untemplated.template⟩ }

@[simp]
theorem ws_enqueue : (enqueue st target).ws = st.ws := by
  unfold enqueue
  split <;> rfl

@[simp]
theorem visited_enqueue : (enqueue st target).visited = st.visited := by
  unfold enqueue
  split <;> rfl

/-- Lines do not depend on which routines are used. -/
theorem code_updateRoutine_used (path : Path) :
    (st.ws.updateRoutine target ({ · with used := true })).code path = st.ws.code path := by
  rw [Workspace.code, Workspace.updateRoutine, Table.get?_modify, Option.map_map]
  refine congrArg (Option.map · _) (funext fun r => ?_)
  simp only [Function.comp_apply]
  split <;> rfl

/-- Keeping a routine that is to be kept. -/
theorem Mirrors.keep (h : Mirrors ws busy st) (reached : ws.Reached target)
    (given : Gives (keep target) st () st') :
    Mirrors ws busy st' ∧ Later st st' ∧ st'.Scheduled target := by
  obtain ⟨-, rfl⟩ := gives_keep.1 given
  generalize hmid : { st with ws := st.ws.updateRoutine target ({ · with used := true }) } = mid
  have code (path : Path) : (enqueue mid target).ws.code path = st.ws.code path := by
    rw [ws_enqueue, ← hmid]
    exact code_updateRoutine_used path
  have visited : (enqueue mid target).visited = st.visited := by
    rw [visited_enqueue, ← hmid]
  have scheduled (path : Path) :
      (enqueue mid target).Scheduled path ↔ st.Scheduled path ∨ path = target := by
    rw [scheduled_enqueue, ← hmid]
    rfl
  have based : Based ws mid := hmid ▸ h.based.update (fun _ => rfl) fun _ => rfl
  refine ⟨⟨?_, ?_, ?_, ?_, ?_, ?_, ?_⟩, ⟨visited, code, fun known => (scheduled _).2 (.inl known)⟩,
    (scheduled _).2 (.inr rfl)⟩
  · unfold enqueue
    split
    · exact based
    · exact { based with untemplated := ⟨based.untemplated.variants, based.untemplated.template⟩ }
  · intro path free
    rw [code]
    exact h.waiting (visited ▸ free)
  · intro path isVisited free
    obtain ⟨lines, outs, hlines, rewritten, same, kept⟩ := h.linked (visited ▸ isVisited) free
    exact ⟨lines, outs, hlines, rewritten, (code path).trans same,
      fun out mem other isKept => (scheduled _).2 (.inl (kept out mem other isKept))⟩
  · exact fun found used => (scheduled _).2 (.inl (h.starts found used))
  · intro path known
    rcases (scheduled path).1 known with known | rfl
    · exact h.reached known
    · exact reached
  · intro path r found
    rw [ws_enqueue, ← hmid] at found
    obtain ⟨r₀, before, rfl⟩ := found_before found
    rw [scheduled]
    split
    · next same => exact ⟨fun _ => .inr same, fun _ => rfl⟩
    · next other => exact (h.used before).trans (or_iff_left other).symm
  · exact nodup_enqueue (by rw [← hmid]; exact h.nodup)

theorem code_eq_of_get? {r : Routine} (found : st.ws.routines.get? target = some r) :
    st.ws.code target = some (r.commands.map (·.render st.ws.settings.pack)) := by
  rw [code, found]
  rfl

/-- A routine has as many lines as at the start. -/
theorem Mirrors.length (h : Mirrors ws busy st) (path : Path) :
    (st.ws.code path).map List.length = (ws.code path).map List.length := by
  by_cases done : path ∈ st.visited ∧ ¬ busy path
  · obtain ⟨lines, outs, hlines, rewritten, same, -⟩ := h.linked done.1 done.2
    rw [same, hlines, Option.map_some, Option.map_some, List.length_map, rewritten.length_eq]
  · rw [h.waiting fun visited => by_contra fun free => done ⟨visited, free⟩]

theorem Mirrors.lines_of_get? (h : Mirrors ws busy st) {r : Routine}
    (found : st.ws.routines.get? target = some r) :
    ∃ lines, ws.code target = some lines ∧ lines.length = r.commands.length := by
  have count := h.length target
  rw [code_eq_of_get? found, Option.map_some, List.length_map] at count
  exact Option.map_eq_some_iff.1 count.symm

theorem Mirrors.get?_of_lines (h : Mirrors ws busy st) (hlines : ws.code target = some lines) :
    ∃ r, st.ws.routines.get? target = some r ∧ r.commands.length = lines.length := by
  have count := h.length target
  rw [hlines, Option.map_some] at count
  obtain ⟨_, same, length⟩ := Option.map_eq_some_iff.1 count
  obtain ⟨r, found, rfl⟩ := code_eq_some same
  exact ⟨r, found, by rw [← length, linesOf, List.length_map]⟩

theorem Mirrors.get?_eq_none (h : Mirrors ws busy st) (absent : ws.code target = none) :
    st.ws.routines.get? target = none := by
  refine Option.eq_none_iff_forall_not_mem.2 fun r found => ?_
  obtain ⟨lines, known, -⟩ := h.lines_of_get? found
  cases absent.symm.trans known

/-- The single line of a callee is its line at the start, or what that line is rewritten to. -/
theorem Mirrors.single (h : Mirrors ws busy st) (same : st.ws.code target = some [line]) :
    ws.code target = some [line] ∨
      ∃ first out, ws.code target = some [first] ∧ ws.rewrite first = some out ∧ out.line = line ∧
        ∀ other, out.kept = some other → st.Scheduled other := by
  by_cases done : target ∈ st.visited ∧ ¬ busy target
  · obtain ⟨lines, outs, hlines, rewritten, same', kept⟩ := h.linked done.1 done.2
    rw [same] at same'
    obtain ⟨out, rfl, here⟩ := List.map_eq_singleton_iff.1 (Option.some.inj same').symm
    cases rewritten with
    | cons first rest =>
      cases rest
      exact .inr ⟨_, out, hlines, first, here, kept out (.head _)⟩
  · exact .inl ((h.waiting fun visited => by_contra fun free => done ⟨visited, free⟩).symm.trans same)

/-- Lines without marks are left alone. -/
theorem eq_of_resolve_unmarked (unmarked : find? line = none)
    (given : Gives (resolve limit depth line) st line' st') :
    line' = line ∧ st' = st := by
  cases limit with
  | zero => simp [resolve] at given
  | succ =>
    cases gives_resolve.1 given with
    | steady => exact ⟨rfl, rfl⟩
    | empty marked => cases unmarked.symm.trans marked
    | single marked => cases unmarked.symm.trans marked
    | call marked => cases unmarked.symm.trans marked

/-- What resolving a line gives is what the line is rewritten to. -/
theorem Mirrors.resolve (h : Mirrors ws busy st) (settles : ws.Settles)
    (reach : ∀ out other, ws.rewrite line = some out → out.kept = some other → ws.Reached other)
    (given : Gives (resolve limit depth line) st line' st') :
    ∃ out, ws.rewrite line = some out ∧ out.line = line' ∧ Mirrors ws busy st' ∧ Later st st' ∧
      ∀ other, out.kept = some other → st'.Scheduled other := by
  induction limit generalizing depth line line' st st' with
  | zero => simp [resolve] at given
  | succ limit ih =>
    have rewrites {out : Rewritten}
        (round : Round ws.settings.pack ws.code (ws.routines.size + 1) line out) :
        ws.rewrite line = some out :=
      rewrite_eq_some (rewrite_succ.2 round)
    -- the line of the callee is resolved, or it has been before
    have inner {r : Routine} {single : Command} {replaced : String} {found : Found}
        (marked : find? line = some found) (arguments : found.mark.arguments = [])
        (known : st.ws.routines.get? found.mark.target = some r) (commands : r.commands = [single])
        (inside : Gives (resolve limit (depth + 1)
          (single.render st.ws.settings.pack)) st replaced st') :
        ∃ first out, ws.code found.mark.target = some [first] ∧ ws.rewrite first = some out ∧
          out.line = replaced ∧ Mirrors ws busy st' ∧ Later st st' ∧
          ∀ other, out.kept = some other → st'.Scheduled other := by
      have same := code_eq_of_get? known
      rw [commands, List.map_singleton] at same
      have reach' {first : String} (hfirst : ws.code found.mark.target = some [first])
          (out : Rewritten) (other : Path) (rewritten : ws.rewrite first = some out)
          (kept : out.kept = some other) : ws.Reached other :=
        reach _ _ (rewrites (.single marked arguments hfirst rewritten)) kept
      rcases h.single same with raw | ⟨first, out, hfirst, rewritten, here, kept⟩
      · obtain ⟨out, rewritten, here, rest⟩ := ih h (reach' raw) inside
        exact ⟨_, out, raw, rewritten, here, rest⟩
      · obtain ⟨r₀, registered, hlines⟩ := code_eq_some hfirst
        have unmarked := settles.unmarked registered first (by rw [hlines]; exact .head _) out
        obtain ⟨rfl, rfl⟩ := eq_of_resolve_unmarked (here ▸ unmarked rewritten) inside
        exact ⟨first, out, hfirst, rewritten, here, h, .refl _, kept⟩
    cases gives_resolve.1 given with
    | steady steady => exact ⟨_, rewrites (.plain steady), rfl, h, .refl _, by simp⟩
    | empty marked _ called known commands =>
      obtain ⟨arguments, rfl, rfl⟩ := eq_target_of_callee h.based.untemplated called
      obtain ⟨lines, hlines, none⟩ := h.lines_of_get? known
      rw [commands, List.length_nil, List.length_eq_zero_iff] at none
      rw [none] at hlines
      exact ⟨_, rewrites (.empty marked arguments hlines), by rw [h.based.settings], h, .refl _,
        by simp⟩
    | single marked _ called known commands inside =>
      obtain ⟨arguments, rfl, rfl⟩ := eq_target_of_callee h.based.untemplated called
      obtain ⟨first, out, hfirst, rewritten, rfl, rest⟩ := inner marked arguments known commands inside
      refine ⟨_, rewrites (.single marked arguments hfirst rewritten), ?_, rest⟩
      rw [h.based.settings]
    | call marked _ called known commands kept =>
      obtain ⟨arguments, rfl, rfl⟩ := eq_target_of_callee h.based.untemplated called
      obtain ⟨lines, hlines, several⟩ := h.lines_of_get? known
      have rewritten := rewrites (.call marked arguments hlines (several ▸ commands))
      obtain ⟨h', later, scheduled⟩ := h.keep (reach _ _ rewritten rfl) kept
      exact ⟨_, rewritten, by rw [h.based.settings], h', later,
        fun other same => Option.some.inj same ▸ scheduled⟩

/-! ### Runs -/

theorem Mirrors.resolveAll (h : Mirrors ws busy st) (settles : ws.Settles)
    {lines' : List String} (reach : ∀ line ∈ lines, ∀ out other, ws.rewrite line = some out →
      out.kept = some other → ws.Reached other)
    (given : Gives (resolveAll limit lines) st lines' st') :
    ∃ outs, List.Forall₂ (fun line out => ws.rewrite line = some out) lines outs ∧
      outs.map Rewritten.line = lines' ∧ Mirrors ws busy st' ∧ Later st st' ∧
      ∀ out ∈ outs, ∀ other, out.kept = some other → st'.Scheduled other := by
  induction lines generalizing lines' st with
  | nil =>
    simp only [resolveAll, gives_pure] at given
    obtain ⟨rfl, rfl⟩ := given
    exact ⟨[], .nil, rfl, h, .refl _, List.forall_mem_nil _⟩
  | cons _ _ ih =>
    simp only [resolveAll, gives_bind, gives_pure] at given
    obtain ⟨resolved, st₁, first, rest, _, given, rfl, rfl⟩ := given
    rw [List.forall_mem_cons] at reach
    obtain ⟨out, rewritten, rfl, h₁, later₁, kept₁⟩ := h.resolve settles reach.1 first
    obtain ⟨outs, all, rfl, h₂, later₂, kept₂⟩ := ih h₁ reach.2 given
    exact ⟨out :: outs, .cons rewritten all, rfl, h₂, later₁.trans later₂,
      List.forall_mem_cons.2 ⟨fun other kept => later₂.scheduled (kept₁ other kept), kept₂⟩⟩

/-- The routine that was busy gets its rewritten lines. -/
theorem Mirrors.settle (h : Mirrors ws (· = target) st) {outs : List Rewritten}
    (visited : target ∈ st.visited) (hlines : ws.code target = some lines)
    (rewritten : List.Forall₂ (fun line out => ws.rewrite line = some out) lines outs)
    (kept : ∀ out ∈ outs, ∀ other, out.kept = some other → st.Scheduled other)
    (same : st' = { st with ws := (st.ws.updateRoutine target
      fun r => { r with commands := (outs.map Rewritten.line).map .text }) }) :
    Mirrors ws (fun _ => False) st' := by
  have routines (path : Path) : st'.ws.routines.get? path = (st.ws.routines.get? path).map
      fun r => if path = target then { r with commands := (outs.map Rewritten.line).map .text }
        else r := by
    rw [same]
    exact Table.get?_modify ..
  have code (path : Path) (other : path ≠ target) : st'.ws.code path = st.ws.code path := by
    rw [code, routines, same]
    simp only [if_neg other, Option.map_id', code]
    rfl
  have here : st'.ws.code target = some (outs.map Rewritten.line) := by
    obtain ⟨r, found, -⟩ := h.get?_of_lines hlines
    rw [Workspace.code, routines, found, Option.map_some, if_pos rfl, Option.map_some,
      linesOf, List.map_map]
    exact congrArg some (List.map_id _)
  have visited' : st'.visited = st.visited := by rw [same]
  have scheduled (path : Path) : st'.Scheduled path ↔ st.Scheduled path := by
    rw [same]
    rfl
  refine ⟨same ▸ h.based.update (fun _ => rfl) fun _ => rfl, ?_, ?_, ?_, ?_, ?_, ?_⟩
  · intro path free
    have other : path ≠ target := fun isTarget => free (visited' ▸ isTarget ▸ visited)
    rw [code path other]
    exact h.waiting fun known => (free (visited' ▸ known)).elim
  · intro path known _
    by_cases isTarget : path = target
    · subst isTarget
      exact ⟨lines, outs, hlines, rewritten, here,
        fun out mem other isKept => (scheduled _).2 (kept out mem other isKept)⟩
    · obtain ⟨lines', outs', hlines', rewritten', same', kept'⟩ :=
        h.linked (visited' ▸ known) isTarget
      exact ⟨lines', outs', hlines', rewritten', (code path isTarget).trans same',
        fun out mem other isKept => (scheduled _).2 (kept' out mem other isKept)⟩
  · exact fun found used => (scheduled _).2 (h.starts found used)
  · exact fun known => h.reached ((scheduled _).1 known)
  · intro path r found
    rw [routines, Option.map_eq_some_iff] at found
    obtain ⟨r₀, found, rfl⟩ := found
    rw [scheduled, ← h.used found]
    split <;> rfl
  · rw [same]
    exact h.nodup

/-- The lines that a line keeps a routine for are reached. -/
theorem Mirrors.reach (h : Mirrors ws busy st) (scheduled : st.Scheduled target)
    (hlines : ws.code target = some lines) :
    ∀ line ∈ lines, ∀ out other, ws.rewrite line = some out → out.kept = some other →
      ws.Reached other :=
  fun _ mem _ _ rewritten kept => .kept (h.reached scheduled) hlines mem rewritten kept

/-- Linking one routine. It is busy while its lines are resolved. -/
theorem Mirrors.routine (h : Mirrors ws (· = target) st) (settles : ws.Settles)
    (visited : target ∈ st.visited)
    (given : Gives (routine limit target) st () st') :
    Mirrors ws (fun _ => False) st' ∧ st'.visited = st.visited := by
  simp only [Linking.routine, gives_bind, LinkM.gives_onWorkspace, gives_routine,
    gives_get, LinkM.gives_locate, gives_updateRoutine] at given
  obtain ⟨r, _, ⟨_, ⟨found, rfl⟩, rfl⟩, _, _, ⟨rfl, rfl⟩, lines', st₁, given, _, ⟨_, rfl⟩, same⟩ :=
    given
  have hlines := (h.waiting fun _ => rfl).symm.trans (code_eq_of_get? found)
  obtain ⟨outs, rewritten, rfl, h₁, later, kept⟩ :=
    h.resolveAll settles (h.reach (.inl visited) hlines) given
  refine ⟨h₁.settle (later.visited ▸ visited) hlines rewritten kept same, ?_⟩
  rw [same]
  exact later.visited

/-- The next routine is taken from the queue. -/
theorem Mirrors.take (h : Mirrors ws (fun _ => False) st) {queue : List Path}
    (waiting : st.queue = path :: queue) :
    path ∉ st.visited ∧ Mirrors ws (· = path) { st with queue, visited := path :: st.visited } := by
  have nodup := h.nodup
  rw [waiting, List.nodup_middle, List.nodup_cons] at nodup
  have new : path ∉ st.visited := fun visited => nodup.1 (List.mem_append_left _ visited)
  have scheduled (q : Path) :
      LinkState.Scheduled { st with queue, visited := path :: st.visited } q ↔ st.Scheduled q := by
    simp only [LinkState.Scheduled, waiting, List.mem_cons]
    tauto
  refine ⟨new, h.based.reschedule _ _, ?_, ?_, ?_, ?_, ?_, List.nodup_cons.2 nodup⟩
  · intro q free
    refine h.waiting fun visited => new ?_
    rw [← free (.tail _ visited)]
    exact visited
  · intro q visited other
    obtain ⟨lines, outs, hlines, rewritten, same, kept⟩ :=
      h.linked ((List.mem_cons.1 visited).resolve_left other) not_false
    exact ⟨lines, outs, hlines, rewritten, same,
      fun out mem target isKept => (scheduled _).2 (kept out mem target isKept)⟩
  · exact fun found used => (scheduled _).2 (h.starts found used)
  · exact fun known => h.reached ((scheduled _).1 known)
  · exact fun found => (h.used found).trans (scheduled _).symm

/-- Linking all the routines that wait. -/
theorem Mirrors.run (h : Mirrors ws (fun _ => False) st) (settles : ws.Settles)
    (given : Gives (run limit) st () st') :
    Mirrors ws (fun _ => False) st' ∧ st'.queue = [] := by
  induction limit generalizing st with
  | zero => simp [run] at given
  | succ _ ih =>
    simp only [run, gives_bind, gives_get] at given
    obtain ⟨_, st, ⟨rfl, rfl⟩, given⟩ := given
    split at given
    · next none =>
      obtain ⟨_, rfl⟩ := gives_pure.1 given
      exact ⟨h, none⟩
    · next path queue waiting =>
      obtain ⟨new, h'⟩ := h.take waiting
      simp only [gives_bind, gives_set, if_neg new, gives_modify] at given
      obtain ⟨_, _, rfl, _, _, rfl, _, st₁, linked, given⟩ := given
      exact ih (h'.routine settles (.head _) linked).1 given

/-- Linking starts with the lines that it mirrors. -/
theorem mirrors_linkState (settles : ws.Settles) :
    Mirrors ws (fun _ => False) ws.linkState := by
  have scheduled := @scheduled_linkState ws settles.keyed
  refine ⟨⟨⟨rfl, fun _ _ => settles.untemplated⟩, rfl, rfl, rfl, rfl, settles.keyed⟩,
    fun _ => rfl, nofun, fun found used => scheduled.2 ⟨_, found, used⟩, ?_, ?_, ?_⟩
  · intro path known
    obtain ⟨r, found, used⟩ := scheduled.1 known
    exact .used found used
  · intro path r found
    rw [scheduled]
    refine ⟨fun used => ⟨r, found, used⟩, fun ⟨r', found', used⟩ => ?_⟩
    cases found.symm.trans found'
    exact used
  · exact nodup_linkState settles.keyed

/-! ### Enough steps -/

theorem Mirrors.size (h : Mirrors ws busy st) : st.ws.routines.size = ws.routines.size := by
  have keys := congrArg List.length h.based.keys
  rwa [Table.length_keys, Table.length_keys] at keys

/-- A line that can be rewritten is resolved. -/
theorem Mirrors.exists_resolve (h : Mirrors ws busy st) (rewritable : ws.Rewritable)
    (rewritten : Linking.rewrite ws.settings.pack ws.code n line = some out) (enough : n ≤ limit)
    (shallow : depth + n ≤ ws.routines.size + 1) :
    ∃ line' st', Gives (Linking.resolve limit depth line) st line' st' := by
  induction n generalizing limit depth line out with
  | zero => cases rewritten
  | succ n ih =>
    obtain ⟨limit, rfl⟩ := Nat.exists_eq_add_of_le' (Nat.one_le_of_lt enough)
    have shallow' : depth ≤ st.ws.routines.size := by
      rw [h.size]
      omega
    have called {found : Found} (arguments : found.mark.arguments = []) :
        Gives (callee found.mark) st found.mark.target st := by
      rw [callee, if_pos arguments]
      exact gives_pure.2 ⟨rfl, rfl⟩
    cases rewrite_succ.1 rewritten with
    | plain steady => exact ⟨_, _, gives_resolve.2 (.steady steady)⟩
    | empty marked arguments hlines =>
      obtain ⟨r, known, length⟩ := h.get?_of_lines hlines
      exact ⟨_, _, gives_resolve.2 (.empty marked shallow' (called arguments) known
        (List.length_eq_zero_iff.1 length))⟩
    | single marked arguments hfirst inside =>
      obtain ⟨r, known, length⟩ := h.get?_of_lines hfirst
      obtain ⟨single, commands⟩ := List.length_eq_one_iff.1 length
      have same := code_eq_of_get? known
      rw [commands, List.map_singleton] at same
      have given : ∃ replaced st', Gives (Linking.resolve limit (depth + 1)
          (single.render st.ws.settings.pack)) st replaced st' := by
        rcases h.single same with raw | ⟨first', out', hfirst', rewritten', here, -⟩
        · cases hfirst.symm.trans raw
          exact ih inside (Nat.le_of_succ_le_succ enough) (by omega)
        · -- a callee that has been linked has a steady line, for which one step is enough
          obtain ⟨r₀, registered, hlines⟩ := code_eq_some hfirst'
          have written := rewritable.written registered first' (by rw [hlines]; exact .head _)
          have steady : Steady _ := here ▸ rewritable.steady written rewritten'
          obtain ⟨limit, rfl⟩ : ∃ limit', limit = limit' + 1 := by
            refine Nat.exists_eq_add_of_le' ?_
            cases n with
            | zero => cases inside
            | succ => omega
          exact ⟨_, _, gives_resolve.2 (.steady steady)⟩
      obtain ⟨replaced, st', given⟩ := given
      exact ⟨_, _, gives_resolve.2 (.single marked shallow' (called arguments) known commands given)⟩
    | call marked arguments hlines several =>
      obtain ⟨r, known, length⟩ := h.get?_of_lines hlines
      exact ⟨_, _, gives_resolve.2 (.call marked shallow' (called arguments) known
        (length ▸ several) (gives_keep.2 ⟨⟨r, known⟩, rfl⟩))⟩

theorem Mirrors.exists_resolveAll (h : Mirrors ws busy st) (rewritable : ws.Rewritable)
    (reach : ∀ line ∈ lines, ∀ out other, ws.rewrite line = some out → out.kept = some other →
      ws.Reached other)
    (complete : ∀ line ∈ lines, ∃ out, ws.rewrite line = some out)
    (enough : ws.routines.size + 1 ≤ limit) :
    ∃ lines' st', Gives (Linking.resolveAll limit lines) st lines' st' := by
  induction lines generalizing st with
  | nil => exact ⟨[], st, gives_pure.2 ⟨rfl, rfl⟩⟩
  | cons _ _ ih =>
    rw [List.forall_mem_cons] at reach complete
    obtain ⟨out, rewritten⟩ := complete.1
    obtain ⟨line', st₁, first⟩ :=
      h.exists_resolve rewritable rewritten enough (Nat.zero_add _).le
    obtain ⟨-, -, -, h₁, -⟩ := h.resolve rewritable.settles reach.1 first
    obtain ⟨lines', st₂, rest⟩ := ih h₁ reach.2 complete.2
    exact ⟨line' :: lines', st₂, gives_bind.2 ⟨_, _, first,
      gives_bind.2 ⟨_, _, rest, gives_pure.2 ⟨rfl, rfl⟩⟩⟩⟩

theorem Mirrors.exists_routine (h : Mirrors ws (· = target) st) (rewritable : ws.Rewritable)
    (visited : target ∈ st.visited)
    (complete : ∀ lines, ws.code target = some lines →
      ∀ line ∈ lines, ∃ out, ws.rewrite line = some out)
    (enough : ws.routines.size + 1 ≤ limit) :
    ∃ st', Gives (Linking.routine limit target) st () st' := by
  obtain ⟨first, hfirst⟩ := (h.reached (.inl visited)).known
  obtain ⟨r, found, -⟩ := h.get?_of_lines hfirst
  have hlines := (h.waiting fun _ => rfl).symm.trans (code_eq_of_get? found)
  obtain ⟨lines', st₁, given⟩ := h.exists_resolveAll rewritable (h.reach (.inl visited) hlines)
    (complete _ hlines) enough
  obtain ⟨-, -, -, h₁, -⟩ := h.resolveAll rewritable.settles (h.reach (.inl visited) hlines) given
  obtain ⟨r₁, found₁, -⟩ := h₁.get?_of_lines hlines
  refine ⟨{ st₁ with
    ws := st₁.ws.updateRoutine target fun r => { r with commands := lines'.map .text } }, ?_⟩
  simp only [Linking.routine, gives_bind, LinkM.gives_onWorkspace, gives_routine,
    gives_get, LinkM.gives_locate, gives_updateRoutine]
  exact ⟨r, st, ⟨_, ⟨found, rfl⟩, rfl⟩, st, st, ⟨rfl, rfl⟩, lines', st₁, given, _,
    ⟨⟨r₁, found₁⟩, rfl⟩, rfl⟩

/-- As many steps as there are routines, twice, and two more: each routine is taken once, and then
no line of it needs more rounds than there are routines. -/
theorem Mirrors.exists_run (h : Mirrors ws (fun _ => False) st) (rewritable : ws.Rewritable)
    (complete : ∀ path lines, ws.Reached path → ws.code path = some lines →
      ∀ line ∈ lines, ∃ out, ws.rewrite line = some out)
    (enough : 2 * ws.routines.size + 2 ≤ limit + st.visited.length) :
    ∃ st', Gives (Linking.run limit) st () st' := by
  have bounded {st : LinkState} {busy : Path → Prop} (h : Mirrors ws busy st) :
      st.visited.length ≤ ws.routines.size := by
    have nodup : st.visited.Nodup := h.nodup.sublist (List.sublist_append_left ..)
    have within : st.visited ⊆ ws.routines.keys := fun path visited => by
      obtain ⟨lines, hlines⟩ := (h.reached (.inl visited)).known
      obtain ⟨r, found, -⟩ := code_eq_some hlines
      exact List.mem_map.2 ⟨_, (Table.get?_eq_some_iff ..).1 found, rfl⟩
    have count := (nodup.subperm within).length_le
    rwa [Table.length_keys] at count
  induction limit generalizing st with
  | zero =>
    have := bounded h
    omega
  | succ limit ih =>
    simp only [Linking.run, gives_bind, gives_get]
    cases waiting : st.queue with
    | nil => exact ⟨st, st, st, ⟨rfl, rfl⟩, by rw [waiting]; exact gives_pure.2 ⟨rfl, rfl⟩⟩
    | cons path =>
      obtain ⟨new, h'⟩ := h.take waiting
      have count := bounded h'
      rw [List.length_cons] at count
      obtain ⟨st₁, linked⟩ := h'.exists_routine rewritable (.head _)
        (complete path · (h'.reached (.inl (.head _)))) (show _ ≤ limit by omega)
      obtain ⟨h₁, visited⟩ := h'.routine rewritable.settles (.head _) linked
      obtain ⟨st₂, rest⟩ := ih h₁ (by rw [visited, List.length_cons]; omega)
      refine ⟨st₂, st, st, ⟨rfl, rfl⟩, ?_⟩
      rw [waiting]
      simp only [gives_bind, gives_set, if_neg new, gives_modify]
      exact ⟨(), _, rfl, (), _, rfl, (), _, linked, rest⟩

/-! ### The end of a run -/

/-- When nothing waits any more, the routines that have been taken are the ones that are reached. -/
theorem Mirrors.scheduled_iff (h : Mirrors ws (fun _ => False) st) (done : st.queue = []) :
    path ∈ st.visited ↔ ws.Reached path := by
  have taken {path : Path} (known : st.Scheduled path) : path ∈ st.visited :=
    known.resolve_right fun waits => by
      rw [done] at waits
      cases waits
  refine ⟨fun visited => h.reached (.inl visited), fun reached => ?_⟩
  induction reached with
  | used found used => exact taken (h.starts found used)
  | @kept _ target _ _ out _ code mem rewritten isKept ih =>
    obtain ⟨lines', outs, hlines, all, -, kept⟩ := h.linked ih not_false
    cases code.symm.trans hlines
    obtain ⟨out', mem', rewritten'⟩ := exists_left_of_forall₂ all.flip mem
    cases rewritten.symm.trans rewritten'
    exact taken (kept out mem' target isKept)

end Linking

namespace Workspace

variable {ws ws' : Workspace}

/-- Workspaces with the same settings and the same routines, registered in any order. -/
structure Reordered (ws ws' : Workspace) : Prop where
  settings : ws'.settings = ws.settings
  routines (path : Path) : ws'.routines.get? path = ws.routines.get? path

namespace Reordered

theorem code (h : Reordered ws ws') : ws'.code = ws.code := by
  funext path
  simp only [Workspace.code, h.routines]
  refine congrArg (Option.map · _) (funext fun r => ?_)
  rw [linesOf, linesOf, h.settings]

theorem size (h : Reordered ws ws') : ws'.routines.size = ws.routines.size := by
  have keys (path : Path) : path ∈ ws'.routines.keys ↔ path ∈ ws.routines.keys := by
    rw [← Table.contains_iff, ← Table.contains_iff, Table.contains_eq, Table.contains_eq, h.routines]
  have perm := (List.perm_ext_iff_of_nodup ws'.routines.nodup ws.routines.nodup).2 keys
  have count := perm.length_eq
  rwa [Table.length_keys, Table.length_keys] at count

theorem rewrite (h : Reordered ws ws') : ws'.rewrite = ws.rewrite := by
  funext line
  rw [Workspace.rewrite, h.settings, h.code, h.size]
  rfl

theorem rewritable (h : Reordered ws ws') (rewritable : ws.Rewritable) : ws'.Rewritable where
  pack := h.settings ▸ rewritable.pack
  keyed found := rewritable.keyed (h.routines _ ▸ found)
  markless found := rewritable.markless (h.routines _ ▸ found)
  untemplated found := rewritable.untemplated (h.routines _ ▸ found)
  written found := by
    rw [linesOf, h.settings]
    exact rewritable.written (h.routines _ ▸ found)

theorem symm (h : Reordered ws ws') : Reordered ws' ws :=
  ⟨h.settings.symm, fun path => (h.routines path).symm⟩

theorem reached (h : Reordered ws ws') (reached : ws.Reached path) : ws'.Reached path := by
  induction reached with
  | used found used => exact .used ((h.routines _).trans found) used
  | kept _ code mem rewritten isKept ih =>
    exact .kept ih (h.code ▸ code) mem (h.rewrite ▸ rewritten) isKept

end Reordered

variable {limit : Nat} {st : LinkState}

/-- Linking rewrites the lines of the routines that it takes, by the lines at the start, and leaves
the other routines alone. In any order it takes the same routines. -/
theorem run_rewrites_in_any_order (rewritable : ws.Rewritable)
    (given : Gives (Linking.run limit) ws.linkState () st) :
    (∀ path ∈ st.visited, ∃ lines outs, ws.code path = some lines ∧
      List.Forall₂ (fun line out => ws.rewrite line = some out) lines outs ∧
      st.ws.code path = some (outs.map Rewritten.line)) ∧
    (∀ path, path ∉ st.visited → st.ws.code path = ws.code path) ∧
    ∀ ws', Reordered ws ws' →
      (∃ limit' st', Gives (Linking.run limit') ws'.linkState () st') ∧
      ∀ limit' st', Gives (Linking.run limit') ws'.linkState () st' →
        ∀ path, st'.ws.code path = st.ws.code path ∧
          (st'.ws.routines.get? path).map Routine.used =
            (st.ws.routines.get? path).map Routine.used := by
  obtain ⟨h, done⟩ := (mirrors_linkState rewritable.settles).run rewritable.settles given
  refine ⟨fun path visited => ?_, fun path new => h.waiting fun visited => (new visited).elim,
    fun ws' same => ⟨?_, fun limit' st' given' path => ?_⟩⟩
  · obtain ⟨lines, outs, hlines, rewritten, code, -⟩ := h.linked visited not_false
    exact ⟨lines, outs, hlines, rewritten, code⟩
  · have rewritable' := same.rewritable rewritable
    refine ⟨2 * ws'.routines.size + 2,
      (mirrors_linkState rewritable'.settles).exists_run rewritable' ?_ (Nat.le_add_right ..)⟩
    intro path lines reached code line mem
    have visited := (h.scheduled_iff done).2 (same.symm.reached reached)
    obtain ⟨lines', outs, hlines, all, -⟩ := h.linked visited not_false
    rw [same.code, hlines] at code
    cases code
    obtain ⟨out, -, rewritten⟩ := exists_left_of_forall₂ all.flip mem
    exact ⟨out, same.rewrite ▸ rewritten⟩
  · have settles' := (same.rewritable rewritable).settles
    obtain ⟨h', done'⟩ := (mirrors_linkState settles').run settles' given'
    have visited : path ∈ st'.visited ↔ path ∈ st.visited := by
      rw [h'.scheduled_iff done', h.scheduled_iff done]
      exact ⟨same.symm.reached, same.reached⟩
    constructor
    · by_cases taken : path ∈ st.visited
      · obtain ⟨lines, outs, hlines, all, code, -⟩ := h.linked taken not_false
        obtain ⟨lines', outs', hlines', all', code', -⟩ := h'.linked (visited.2 taken) not_false
        rw [same.code, hlines] at hlines'
        cases hlines'
        rw [same.rewrite] at all'
        have unique : Relator.RightUnique fun line out => ws.rewrite line = some out :=
          fun _ _ _ first second => Option.some.inj (first.symm.trans second)
        rw [code, code', List.right_unique_forall₂' unique all all']
      · rw [h.waiting fun known => (taken known).elim,
          h'.waiting fun known => (taken (visited.1 known)).elim, same.code]
    · have scheduled : st'.Scheduled path ↔ st.Scheduled path := by
        simp only [LinkState.Scheduled, done, done', List.not_mem_nil, or_false, visited]
      cases hlines : ws.code path with
      | none =>
        rw [h.get?_eq_none hlines, h'.get?_eq_none (same.code ▸ hlines)]
      | some lines =>
        obtain ⟨r, found, -⟩ := h.get?_of_lines hlines
        obtain ⟨r', found', -⟩ := h'.get?_of_lines (same.code ▸ hlines)
        rw [found, found', Option.map_some, Option.map_some]
        exact congrArg some (Bool.eq_iff_iff.2
          ((h'.used found').trans (scheduled.trans (h.used found).symm)))

/-- A workspace of routines with the lines given. -/
def ofLines (used : List Path) (entries : List (Path × List String)) : Workspace where
  routines := Table.ofList (entries.map fun (path, lines) =>
    (path, { Routine.ofRoot path with commands := lines.map .text, used := path ∈ used }))

theorem reordered_ofLines {used : List Path} {entries entries' : List (Path × List String)}
    (nodup : (entries.map Prod.fst).Nodup) (perm : entries.Perm entries') :
    Reordered (ofLines used entries) (ofLines used entries') := by
  refine ⟨rfl, fun path => Option.ext fun r => ?_⟩
  have nodup' := (perm.map Prod.fst).nodup_iff.1 nodup
  simp only [ofLines]
  rw [Table.get?_ofList, Table.get?_ofList]
  · exact (perm.map _).mem_iff.symm
  · simpa only [List.map_map, Function.comp_def] using nodup
  · simpa only [List.map_map, Function.comp_def] using nodup'

/-- A root that goes through two single lines, and calls a routine of two lines. -/
def relayed : List (Path × List String) :=
  let main := Path.root "main"
  let mark (name : String) := render ⟨main.child name, []⟩
  [(main, ["execute if a run " ++ mark "hop", mark "pair"]),
    (main.child "hop", ["execute if b run " ++ mark "leap"]),
    (main.child "leap", ["say x"]), (main.child "pair", ["say 1", "say 2"])]

theorem rewritable_relayed : (ofLines [.root "main"] relayed).Rewritable := by
  have entry : ∀ e ∈ (ofLines [.root "main"] relayed).routines.entries, e.2.path = e.1 ∧
      Markless e.1.render ∧ e.2.template = none ∧
      ∀ line ∈ (ofLines [.root "main"] relayed).linesOf e.2, Markless line ∨
        ∃ context ∈ ["", "execute if a run ", "execute if b run "], ∃ e' ∈ relayed,
          line = context ++ render ⟨e'.1, []⟩ ∧ Markless.Context context ∧
            '\x7d' ∉ Text.chars e'.1.render := by
    decide +kernel
  have found {path : Path} {r : Routine}
      (h : (ofLines [.root "main"] relayed).routines.get? path = some r) :=
    entry (path, r) ((Table.get?_eq_some_iff ..).1 h)
  refine ⟨by decide +kernel, fun h => (found h).1, fun h => (found h).2.1,
    fun h => (found h).2.2.1, fun h line mem => ?_⟩
  rcases (found h).2.2.2 line mem with markless | ⟨context, _, e', _, rfl, isContext, free⟩
  · exact .text markless
  · exact @Written.call context ⟨e'.1, []⟩ isContext free

/-- The lines of a routine after at most as many steps of linking as given. -/
def linkedLines (limit : Nat) (ws : Workspace) (path : Path) : Option (List String) :=
  match run limit ws.linkState with
  | .ok () st => st.ws.code path
  | .error _ _ => none

theorem exists_of_linkedLines {lines : List String} (h : linkedLines limit ws path = some lines) :
    ∃ st, Gives (run limit) ws.linkState () st ∧ st.ws.code path = some lines := by
  unfold linkedLines at h
  split at h
  · next st given => exact ⟨st, given, h⟩
  · cases h

/-- From last to first the routines become what they become from first to last. -/
theorem run_rewrites_in_any_order_relayed :
    ∃ limit st, Gives (run limit)
        (ofLines [.root "main"] relayed.reverse).linkState () st ∧
      st.ws.code (.root "main") =
        some ["execute if a run execute if b run say x", "function pack:pair"] := by
  obtain ⟨st, given, code⟩ := exists_of_linkedLines
    (show linkedLines 20 (ofLines [.root "main"] relayed) (.root "main") =
      some ["execute if a run execute if b run say x", "function pack:pair"] by decide +kernel)
  have reordered : Reordered (ofLines [.root "main"] relayed)
      (ofLines [.root "main"] relayed.reverse) :=
    reordered_ofLines (by decide +kernel) relayed.reverse_perm.symm
  obtain ⟨⟨limit', st', given'⟩, same⟩ :=
    (run_rewrites_in_any_order rewritable_relayed given).2.2 _ reordered
  exact ⟨limit', st', given', (same limit' st' given' _).1.trans code⟩

/-- A mark for a name with a brace in it, which ends too early. -/
def braced : List (Path × List String) :=
  let mark (name : String) := render ⟨.root name, []⟩
  [(.root "h", [mark "x\x7df\x7bq"]), (.root "main", [mark "h", "say 1"]),
    (.root "x", ["say hi!"]), (.root "q", ["say 2", "say 3"])]

/-- What is left behind the early end makes a new mark with the line of the callee, and then the
order matters. -/
theorem order_matters_behind_braces :
    (Markless "pack" ∧ ∀ e ∈ braced, Markless e.1.render ∧ ∀ line ∈ e.2, Markless line ∨
      ∃ name ∈ ["h", "x\x7df\x7bq"], line = render ⟨.root name, []⟩) ∧
    ∃ used, Reordered (ofLines used braced) (ofLines used braced.reverse) ∧
      linkedLines 20 (ofLines used braced) (.root "main") =
        some ["say hifunction pack:q", "say 1"] ∧
      linkedLines 20 (ofLines used braced.reverse) (.root "main") =
        some ["say hi!f\x7bq\x7d", "say 1"] := by
  refine ⟨by decide +kernel, [.root "h", .root "main"], ?_, by decide +kernel, by decide +kernel⟩
  exact reordered_ofLines (by decide +kernel) braced.reverse_perm.symm

end Workspace

end CommandPack
