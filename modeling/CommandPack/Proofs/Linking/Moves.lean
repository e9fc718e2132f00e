import CommandPack.Proofs.Linking.Traces
import CommandPack.Proofs.Lowering.Failing

/-!
# The moves of linking

Between two lines of a routine only two things happen to the state of linking: a variant is made,
or a callee is kept. What these moves preserve is preserved by all of resolving, also where it stops
before its end.
-/

namespace CommandPack

open Workspace Linking CallMark
open Table (length_keys)
open WorkM hiding record routine updateRoutine

/-! ### Failed steps -/

namespace WorkM

variable {α : Type} {halt : Halt}

@[simp]
theorem fails_onWorkspace {step : WorkM α} {st st' : LinkState} :
    Fails (onWorkspace step) st halt st' ↔
      ∃ ws, Fails step st.ws halt ws ∧ st' = { st with ws } := by
  unfold Fails onWorkspace
  cases step st.ws with
  | ok => simp
  | error _ ws =>
    simp only [EStateM.Result.error.injEq]
    constructor
    · rintro ⟨rfl, rfl⟩
      exact ⟨ws, ⟨rfl, rfl⟩, rfl⟩
    · rintro ⟨_, ⟨rfl, rfl⟩, rfl⟩
      exact ⟨rfl, rfl⟩

end WorkM

theorem LinkState.scheduled_adding {st : LinkState} {key : Path × List String} {path q : Path}
    {ws : Workspace} : (st.adding key path ws).Scheduled q ↔ st.Scheduled q ∨
      q ∈ ((ws.routines.values.drop st.ws.routines.size).filter Routine.used).map Routine.path := by
  simp only [Scheduled, adding, List.mem_append, or_assoc]

namespace Linking

variable {callee target path : Path} {arguments : List String} {st mid st' : LinkState}
  {limit depth : Nat} {line line' : String} {lines lines' : List String} {mark : CallMark}
  {halt : Halt}

theorem fails_variantFor : Fails (variantFor callee arguments) st halt st' ↔
    st.variants.lookup (callee, arguments) = none ∧
      ∃ ws, Fails (makeVariant callee arguments) st.ws halt ws ∧ st' = { st with ws } := by
  simp only [variantFor, fails_bind, fails_get, gives_get, false_or]
  cases known : st.variants.lookup (callee, arguments) with
  | some =>
    simp only [reduceCtorEq, false_and, iff_false]
    rintro ⟨_, _, ⟨rfl, rfl⟩, failed⟩
    rw [known] at failed
    exact fails_pure failed
  | none =>
    constructor
    · rintro ⟨_, _, ⟨rfl, rfl⟩, failed⟩
      simp only [known, fails_bind, fails_onWorkspace, fails_modify,
        fails_pure, and_false, exists_false, or_false] at failed
      exact ⟨rfl, failed⟩
    · rintro ⟨-, failed⟩
      refine ⟨_, _, ⟨rfl, rfl⟩, ?_⟩
      simp only [known, fails_bind, fails_onWorkspace]
      exact .inl failed

/-! ### What resolving runs into -/

/-- How resolving one line fails. -/
inductive Trouble (limit depth : Nat) (line : String) (st : LinkState) : Halt → LinkState → Prop
  | unbound {name : String} (unmarked : find? line = none)
      (held : Placeholder.find? line = some name) :
      Trouble limit depth line st (.fault { cause := .unboundString name }) st
  | deep {found : Found} (marked : find? line = some found)
      (deep : st.ws.routines.size < depth) :
      Trouble limit depth line st
        (.fault { cause := .recursion found.mark.target.artifact }) st
  | variant {found : Found} {halt : Halt} {ws : Workspace}
      (marked : find? line = some found) (shallow : depth ≤ st.ws.routines.size)
      (some' : found.mark.arguments ≠ [])
      (new : st.variants.lookup (found.mark.target, found.mark.arguments) = none)
      (failed : Fails (makeVariant found.mark.target found.mark.arguments) st.ws halt ws) :
      Trouble limit depth line st halt { st with ws }
  | unknown {found : Found} {target : Path} {mid : LinkState}
      (marked : find? line = some found) (shallow : depth ≤ st.ws.routines.size)
      (called : Gives (Linking.callee found.mark) st target mid)
      (unknown : mid.ws.routines.get? target = none) :
      Trouble limit depth line st (.fault { cause := .unknownFunction target.render }) mid
  | inside {found : Found} {target : Path} {mid st' : LinkState} {r : Routine}
      {single : Command} {halt : Halt} (marked : find? line = some found)
      (shallow : depth ≤ st.ws.routines.size)
      (called : Gives (Linking.callee found.mark) st target mid)
      (known : mid.ws.routines.get? target = some r) (commands : r.commands = [single])
      (inside : Fails (resolve limit (depth + 1) (single.render mid.ws.settings.pack)) mid
        halt st') :
      Trouble limit depth line st halt st'

theorem trouble_of_fails (failed : Fails (resolve (limit + 1) depth line) st halt st') :
    Trouble limit depth line st halt st' := by
  cases marked : find? line with
  | none =>
    rw [resolve, marked] at failed
    cases held : Placeholder.find? line with
    | none => simp [held] at failed
    | some =>
      simp only [held, fails_onWorkspace, fails_fail] at failed
      obtain ⟨_, ⟨rfl, rfl⟩, rfl⟩ := failed
      exact .unbound marked held
  | some =>
    rw [resolve_of_find? marked] at failed
    simp only [fails_bind, fails_get, gives_get, false_or] at failed
    obtain ⟨_, _, ⟨rfl, rfl⟩, failed⟩ := failed
    split at failed
    · next deep =>
      simp only [fails_onWorkspace, fails_fail] at failed
      obtain ⟨_, ⟨rfl, rfl⟩, rfl⟩ := failed
      exact .deep marked deep
    · next shallow =>
      have shallow := Nat.le_of_not_lt shallow
      simp only [fails_bind, fails_onWorkspace, fails_routine,
        LinkM.gives_onWorkspace, gives_routine, fails_get, gives_get,
        false_or] at failed
      rcases failed with failed | ⟨target, mid, called,
        ⟨_, ⟨unknown, rfl, rfl⟩, rfl⟩ | ⟨r, _, ⟨_, ⟨known, rfl⟩, rfl⟩, _, _, ⟨rfl, rfl⟩, failed⟩⟩
      · unfold callee at failed
        split_ifs at failed with none
        · exact absurd failed fails_pure
        · obtain ⟨new, ws, making, rfl⟩ := fails_variantFor.1 failed
          exact .variant marked shallow none new making
      · exact .unknown marked shallow called unknown
      · rcases commands : r.commands with _ | ⟨single, _ | ⟨second, rest⟩⟩
        · simp [commands, place] at failed
        · rw [commands, place] at failed
          rcases fails_bind.1 failed with inside | ⟨replaced, _, _, failed⟩
          · exact .inside marked shallow called known commands inside
          · split at failed <;> exact absurd failed fails_pure
        · have keeps : ¬ Fails (keep target) mid halt st' := by
            simp [keep, WorkM.updateRoutine, update, fails_bind, known]
          rw [commands, place] at failed
          · rcases fails_bind.1 failed with failed | ⟨_, _, _, failed⟩
            · exact absurd failed keeps
            · exact absurd failed fails_pure
          · rintro ⟨⟩
          · rintro _ ⟨⟩

/-- What ends the replacing of a call ends the resolving of its line. -/
theorem fails_of_inside {found : Found} {r : Routine} {single : Command}
    (marked : find? line = some found) (shallow : depth ≤ st.ws.routines.size)
    (called : Gives (Linking.callee found.mark) st target mid)
    (known : mid.ws.routines.get? target = some r) (commands : r.commands = [single])
    (inside : Fails (resolve limit (depth + 1) (single.render mid.ws.settings.pack)) mid halt
      st') : Fails (resolve (limit + 1) depth line) st halt st' := by
  rw [resolve_of_find? marked]
  simp only [fails_bind, fails_get, gives_get, false_or]
  refine ⟨_, _, ⟨rfl, rfl⟩, ?_⟩
  rw [if_neg (Nat.not_lt.2 shallow)]
  simp only [fails_bind, gives_get, LinkM.gives_onWorkspace, gives_routine]
  refine .inr ⟨target, mid, called, .inr ⟨r, mid, ⟨_, ⟨known, rfl⟩, rfl⟩, .inr
    ⟨mid, mid, ⟨rfl, rfl⟩, ?_⟩⟩⟩
  rw [commands, place, fails_bind]
  exact .inl inside

/-! ### Moves -/

/-- What happens to a state between two lines. -/
inductive Move (st : LinkState) : LinkState → Prop
  | make {callee : Path} {arguments : List String} {r : Routine} {template : Template}
      {visits : List Visit} {after : Workspace} (found : st.ws.routines.get? callee = some r)
      (isTemplate : r.template = some template)
      (free : st.ws.routines.get? (nextPath callee template) = none)
      (compiled : Ran (.routine (nextPath callee template) none)
        ({}, prepared callee r template arguments st.ws) visits ({}, after)) :
      Move st (st.adding (callee, arguments) (nextPath callee template)
        ({ after with symbols := st.ws.symbols }.record
          (.variantCompiled (nextPath callee template) arguments)))
  | keep {target : Path} (known : st.ws.Knows target) : Move st (st.keeping target)

abbrev Moves : LinkState → LinkState → Prop :=
  Relation.ReflTransGen Move

variable {visits : List Visit} {out : LinkedLine} {outs : List LinkedLine}

theorem Finds.moves (finds : Finds mark st visits target mid) : Moves st mid := by
  cases finds with
  | plain | again => exact .refl
  | new _ _ found isTemplate free compiled => exact .single (.make found isTemplate free compiled)

theorem Resolves.moves (resolves : Resolves line st visits out st') : Moves st st' := by
  induction resolves with
  | steady => exact .refl
  | empty _ finds => exact finds.moves
  | inert _ finds _ _ _ _ ih | single _ finds _ _ _ _ ih => exact finds.moves.trans ih
  | call _ finds known => exact finds.moves.tail (.keep ⟨_, known⟩)

theorem ResolvesAll.moves (resolves : ResolvesAll lines st visits outs st') : Moves st st' := by
  induction resolves with
  | nil => exact .refl
  | cons first _ ih => exact first.moves.trans ih

theorem Moves.of_callee (given : Gives (Linking.callee mark) st target mid) :
    Moves st mid := by
  obtain ⟨_, finds⟩ := finds_of_callee given
  exact finds.moves

theorem Moves.of_resolve (given : Gives (resolve limit depth line) st line' st') :
    Moves st st' := by
  obtain ⟨_, _, resolves⟩ := traced_resolve given
  exact resolves.moves

theorem Moves.of_resolveAll (given : Gives (resolveAll limit lines) st lines' st') :
    Moves st st' := by
  obtain ⟨_, _, resolves, -⟩ := traced_resolveAll given
  exact resolves.moves

end Linking

/-- What moves do to a routine: it may come to be used, and variants of it are counted. -/
structure Routine.Moved (r r' : Routine) : Prop where
  same : r' = { r with used := r'.used, template := r'.template }
  used : r.used = true → r'.used = true
  symbols : r'.template.map Template.symbols = r.template.map Template.symbols

theorem Routine.Moved.refl (r : Routine) : r.Moved r :=
  ⟨rfl, id, rfl⟩

theorem Routine.Moved.trans {r r₁ r' : Routine} (h : r.Moved r₁) (h' : r₁.Moved r') :
    r.Moved r' where
  same := by rw [h'.same, h.same]
  used used := h'.used (h.used used)
  symbols := h'.symbols.trans h.symbols

/-- A workspace in order, with the used routines scheduled, each once. -/
structure LinkState.Tidy (st : LinkState) : Prop where
  housed : st.ws.Housed
  nodup : (st.visited ++ st.queue).Nodup
  known {path : Path} : st.Scheduled path → st.ws.Knows path
  used {path : Path} {r : Routine} : st.ws.routines.get? path = some r →
    (r.used = true ↔ st.Scheduled path)

namespace Linking

variable {st st' : LinkState} {ws ws' : Workspace} {path q : Path} {r : Routine}

/-- The used ones among the routines behind the first ones. -/
theorem mem_fresh {n : Nat} (housed : ws'.Housed) (appends : ws.Appends n ws') :
    q ∈ ((ws'.routines.values.drop ws.routines.size).filter Routine.used).map Routine.path ↔
      ¬ ws.Knows q ∧ ∃ r, ws'.routines.get? q = some r ∧ r.used = true := by
  obtain ⟨added, keys, -⟩ := appends
  have first : ws'.routines.keys.take ws.routines.size = ws.routines.keys := by
    rw [keys, ← length_keys, List.take_left]
  have later : ws'.routines.keys.drop ws.routines.size = added := by
    rw [keys, ← length_keys, List.drop_left]
  simp only [Table.values, ← List.map_drop, List.mem_map, List.mem_filter]
  constructor
  · rintro ⟨_, ⟨⟨e, mem, rfl⟩, used⟩, rfl⟩
    have found := (Table.get?_eq_some_iff ..).2 (List.mem_of_mem_drop mem)
    rw [housed.orderly.keyed found]
    refine ⟨fun known => ?_, _, found, used⟩
    have new : e.1 ∈ added := by
      rw [← later, Table.keys, ← List.map_drop]
      exact List.mem_map_of_mem mem
    exact (List.nodup_append.1 (keys ▸ ws'.routines.nodup)).2.2 _ (Table.mem_keys_iff.2 known) _
      new rfl
  · rintro ⟨unknown, r, found, used⟩
    have mem := (Table.get?_eq_some_iff ..).1 found
    rw [← List.take_append_drop ws.routines.size ws'.routines.entries, List.mem_append] at mem
    rcases mem with mem | mem
    · refine absurd (Table.mem_keys_iff.1 ?_) unknown
      rw [← first, Table.keys, ← List.map_take]
      exact List.mem_map_of_mem mem
    · exact ⟨r, ⟨⟨_, mem, rfl⟩, used⟩, housed.orderly.keyed found⟩

theorem nodup_fresh {n : Nat} (housed : ws'.Housed) :
    (((ws'.routines.values.drop n).filter Routine.used).map Routine.path).Nodup := by
  have keys := map_path_values housed.orderly.keyed
  exact (keys ▸ ws'.routines.nodup).sublist
    ((List.filter_sublist.trans (List.drop_sublist ..)).map _)

/-- What a move does to the routines that are there. -/
theorem Move.moved (move : Move st st') (housed : st.ws.Housed)
    (found : st.ws.routines.get? q = some r) :
    ∃ r', st'.ws.routines.get? q = some r' ∧ r.Moved r' := by
  cases move with
  | make source isTemplate free compiled =>
    obtain ⟨_, found', symbols⟩ := (made_of_ran housed source isTemplate free compiled).kept found
    exact ⟨_, found', rfl, id, symbols⟩
  | keep =>
    rw [LinkState.ws_keeping, updateRoutine, Table.get?_modify, found, Option.map_some]
    split
    · exact ⟨_, rfl, rfl, fun _ => rfl, rfl⟩
    · exact ⟨_, rfl, .refl r⟩

end Linking

namespace LinkState.Tidy

variable {st st' : LinkState}

/-- A variant is added with the used routines that came with it. -/
theorem adding {path : Path} {ws : Workspace} (h : st.Tidy) (made : Made st.ws path ws)
    (key : Path × List String) : (st.adding key path ws).Tidy := by
  have fresh {q : Path} := @mem_fresh st.ws ws q _ made.housed made.appends
  refine ⟨made.housed, ?_, fun {q} scheduled => ?_, fun {q r} found => ?_⟩
  · change (st.visited ++ (st.queue ++ _)).Nodup
    rw [← List.append_assoc]
    refine h.nodup.append (nodup_fresh made.housed) fun q mem mem' => ?_
    exact (fresh.1 mem').1 (h.known (List.mem_append.1 mem))
  · rcases scheduled_adding.1 scheduled with scheduled | isFresh
    · obtain ⟨r, found⟩ := h.known scheduled
      obtain ⟨_, found', _⟩ := made.kept found
      exact ⟨_, found'⟩
    · obtain ⟨_, r, found, _⟩ := fresh.1 isFresh
      exact ⟨r, found⟩
  · rw [scheduled_adding, fresh]
    by_cases known : st.ws.Knows q
    · obtain ⟨old, foundOld⟩ := known
      obtain ⟨template, found', -⟩ := made.kept foundOld
      cases found.symm.trans found'
      rw [show ({ old with template } : Routine).used = old.used from rfl, h.used foundOld]
      exact ⟨.inl, fun either => either.resolve_right fun new => new.1 ⟨old, foundOld⟩⟩
    · have unscheduled : ¬ st.Scheduled q := fun scheduled => known (h.known scheduled)
      refine ⟨fun used => .inr ⟨known, r, found, used⟩, fun either => ?_⟩
      obtain ⟨_, _, found', used⟩ := either.resolve_left unscheduled
      cases found.symm.trans found'
      exact used

/-- A routine is kept. -/
theorem keeping {target : Path} (h : st.Tidy) (known : st.ws.Knows target) :
    (st.keeping target).Tidy := by
  have scheduled {q : Path} : (st.keeping target).Scheduled q ↔ st.Scheduled q ∨ q = target :=
    scheduled_enqueue
  refine ⟨?_, nodup_enqueue h.nodup, fun {q} isScheduled => ?_, fun {q r'} found => ?_⟩
  · rw [ws_keeping]
    exact h.housed.of_alike (.of_update target fun _ => rfl)
  · have old : st.ws.Knows q := by
      rcases scheduled.1 isScheduled with isScheduled | rfl
      · exact h.known isScheduled
      · exact known
    obtain ⟨r', found⟩ := old
    rw [ws_keeping]
    exact ⟨_, by rw [updateRoutine, Table.get?_modify, found]; rfl⟩
  · obtain ⟨old, foundOld, rfl⟩ := found_before (ws_keeping ▸ found)
    rw [scheduled, ← h.used foundOld]
    split
    · next same => simp [same]
    · next other => simp [other]

theorem move (h : st.Tidy) (move : Move st st') : st'.Tidy := by
  cases move with
  | make found isTemplate free compiled =>
    exact h.adding (made_of_ran h.housed found isTemplate free compiled) _
  | keep known => exact h.keeping known

theorem moves (h : st.Tidy) (moves : Moves st st') : st'.Tidy := by
  induction moves with
  | refl => exact h
  | tail _ step ih => exact ih.move step

end LinkState.Tidy

namespace Linking

variable {st st' : LinkState} {q : Path} {r : Routine}

theorem Moves.moved (moves : Moves st st') (tidy : st.Tidy)
    (found : st.ws.routines.get? q = some r) :
    ∃ r', st'.ws.routines.get? q = some r' ∧ r.Moved r' := by
  induction moves with
  | refl => exact ⟨r, found, .refl r⟩
  | tail before step ih =>
    obtain ⟨r₁, found₁, moved⟩ := ih
    obtain ⟨r', found', moved'⟩ := step.moved (tidy.moves before).housed found₁
    exact ⟨r', found', moved.trans moved'⟩

/-- Lines and settings stay, and routines come only with variants, only so many with each. -/
structure Progress (st st' : LinkState) : Prop where
  lines : st'.ws.lines = st.ws.lines
  settings : st'.ws.settings = st.ws.settings
  grown : st.ws.routines.size ≤ st'.ws.routines.size
  budget : st'.ws.routines.size + st.variants.length * variantCost st.ws.lines.length ≤
    st.ws.routines.size + st'.variants.length * variantCost st.ws.lines.length

theorem Progress.refl (st : LinkState) : Progress st st :=
  ⟨rfl, rfl, Nat.le_refl _, Nat.le_refl _⟩

theorem Progress.trans {mid : LinkState} (h : Progress st mid) (h' : Progress mid st') :
    Progress st st' where
  lines := h'.lines.trans h.lines
  settings := h'.settings.trans h.settings
  grown := h.grown.trans h'.grown
  budget := by
    have first := h.budget
    have second := h'.budget
    rw [h.lines] at second
    omega

theorem Move.progress (move : Move st st') (housed : st.ws.Housed) : Progress st st' := by
  cases move with
  | make found isTemplate free compiled =>
    have made := made_of_ran housed found isTemplate free compiled
    obtain ⟨added, keys, count⟩ := made.appends
    have size := congrArg List.length keys
    rw [length_keys, List.length_append, length_keys] at size
    refine ⟨made.develops.lines, made.develops.settings, size.ge.trans' (Nat.le_add_right ..), ?_⟩
    refine (Nat.add_le_add_right size.le _).trans ?_
    change _ + _ + _ ≤ _ + (st.variants.length + 1) * _
    rw [Nat.add_one_mul]
    omega
  | @keep target =>
    have size : (st.keeping target).ws.routines.size = st.ws.routines.size := by
      rw [LinkState.ws_keeping, ← length_keys, updateRoutine, Table.keys_modify,
        length_keys]
    refine ⟨?_, ?_, size.ge, ?_⟩
    · rw [LinkState.ws_keeping]
      rfl
    · rw [LinkState.ws_keeping]
      rfl
    · rw [size]
      unfold LinkState.keeping enqueue
      split <;> exact Nat.le_refl _

theorem Moves.progress (moves : Moves st st') (tidy : st.Tidy) : Progress st st' := by
  induction moves with
  | refl => exact .refl _
  | tail before step ih => exact ih.trans (step.progress (tidy.moves before).housed)

theorem Move.visited_eq (move : Move st st') : st'.visited = st.visited := by
  cases move with
  | make => rfl
  | keep =>
    unfold LinkState.keeping enqueue
    split <;> rfl

theorem Moves.visited_eq (moves : Moves st st') : st'.visited = st.visited := by
  induction moves with
  | refl => rfl
  | tail _ move ih => exact move.visited_eq.trans ih

end Linking

/-! ### Whole routines -/

namespace Linking

variable {st mid st' : LinkState} {path : Path} {queue : List Path} {limit : Nat}

theorem gives_routine : WorkM.Gives (routine limit path) st () st' ↔
    ∃ r lines mid, st.ws.routines.get? path = some r ∧
      WorkM.Gives (resolveAll limit (r.commands.map (·.render st.ws.settings.pack))) st lines mid ∧
      mid.ws.Knows path ∧ st' = mid.storing path lines := by
  simp only [routine, WorkM.gives_bind, LinkM.gives_onWorkspace, WorkM.gives_routine,
    WorkM.gives_get, LinkM.gives_locate, WorkM.gives_updateRoutine]
  constructor
  · rintro ⟨r, _, ⟨_, ⟨found, rfl⟩, rfl⟩, _, _, ⟨rfl, rfl⟩, lines, mid, given, _, ⟨known, rfl⟩, rfl⟩
    exact ⟨r, lines, mid, found, given, known, rfl⟩
  · rintro ⟨r, lines, mid, found, given, known, rfl⟩
    exact ⟨r, st, ⟨_, ⟨found, rfl⟩, rfl⟩, _, _, ⟨rfl, rfl⟩, lines, mid, given, _, ⟨known, rfl⟩, rfl⟩

end Linking

namespace LinkState.Tidy

variable {st : LinkState} {path : Path} {queue : List Path}

theorem take (h : st.Tidy) (waiting : st.queue = path :: queue) :
    path ∉ st.visited ∧ (st.taking path queue).Tidy := by
  have nodup := h.nodup
  rw [waiting, List.nodup_middle, List.nodup_cons] at nodup
  have scheduled {q : Path} : (st.taking path queue).Scheduled q ↔ st.Scheduled q := by
    simp only [Scheduled, taking, waiting, List.mem_cons]
    tauto
  exact ⟨fun visited => nodup.1 (List.mem_append_left _ visited), h.housed,
    List.nodup_cons.2 nodup, fun isScheduled => h.known (scheduled.1 isScheduled),
    fun found => (h.used found).trans scheduled.symm⟩

theorem store (h : st.Tidy) (lines : List String) : (st.storing path lines).Tidy where
  housed := h.housed.of_alike (.of_update path fun _ => rfl)
  nodup := h.nodup
  known scheduled := by
    obtain ⟨r, found⟩ := h.known scheduled
    exact ⟨_, by rw [storing, updateRoutine, Table.get?_modify, found]; rfl⟩
  used found := by
    obtain ⟨old, foundOld, rfl⟩ := found_before found
    rw [apply_ite Routine.used, ite_self]
    exact h.used (r := old) foundOld

/-- The routines that are scheduled are different ones. -/
theorem length_le (h : st.Tidy) : st.visited.length + st.queue.length ≤ st.ws.routines.size := by
  rw [← List.length_append, ← length_keys]
  exact (h.nodup.subperm fun q mem =>
    Table.mem_keys_iff.2 (h.known (List.mem_append.1 mem))).length_le

theorem linkState {ws : Workspace} (housed : ws.Housed) : ws.linkState.Tidy where
  housed := housed
  nodup := nodup_linkState housed.orderly.keyed
  known scheduled := by
    obtain ⟨r, found, -⟩ := (scheduled_linkState housed.orderly.keyed).1 scheduled
    exact ⟨r, found⟩
  used {path r} found := by
    rw [scheduled_linkState housed.orderly.keyed]
    refine ⟨fun used => ⟨r, found, used⟩, fun ⟨r', found', used⟩ => ?_⟩
    cases found.symm.trans found'
    exact used

end LinkState.Tidy

namespace Linking

variable {st mid st' : LinkState} {path : Path} {queue : List Path} {limit : Nat}

theorem Progress.store (path : Path) (lines : List String) : Progress st (st.storing path lines) := by
  have size : (st.storing path lines).ws.routines.size = st.ws.routines.size := by
    rw [← length_keys, LinkState.storing, updateRoutine, Table.keys_modify, length_keys]
  exact ⟨rfl, rfl, size.ge, by rw [size]; rfl⟩

/-- Linking one routine. -/
theorem tidy_of_routine (tidy : st.Tidy) (given : Gives (routine limit path) st () st') :
    st'.Tidy ∧ Progress st st' := by
  obtain ⟨r, lines, mid, -, resolved, -, rfl⟩ := gives_routine.1 given
  have moves := Moves.of_resolveAll resolved
  exact ⟨(tidy.moves moves).store lines, (moves.progress tidy).trans (.store path lines)⟩

/-- One round of linking. -/
theorem gives_run (tidy : st.Tidy) : Gives (run (limit + 1)) st () st' ↔
    (st.queue = [] ∧ st' = st) ∨ ∃ path queue mid, st.queue = path :: queue ∧
      Gives (routine limit path) (st.taking path queue) () mid ∧
        Gives (run limit) mid () st' := by
  simp only [run, gives_bind, gives_get]
  cases waiting : st.queue with
  | nil =>
    simp only [reduceCtorEq, false_and, exists_false, or_false, true_and]
    constructor
    · rintro ⟨_, _, ⟨rfl, rfl⟩, given⟩
      rw [waiting] at given
      exact (gives_pure.1 given).2
    · rintro rfl
      refine ⟨_, _, ⟨rfl, rfl⟩, ?_⟩
      rw [waiting]
      exact gives_pure.2 ⟨rfl, rfl⟩
  | cons path queue =>
    obtain ⟨new, -⟩ := tidy.take waiting
    simp only [reduceCtorEq, false_and, false_or, List.cons.injEq]
    constructor
    · rintro ⟨_, _, ⟨rfl, rfl⟩, given⟩
      rw [waiting] at given
      simp only [gives_bind, gives_set, if_neg new, gives_modify] at given
      obtain ⟨_, _, rfl, _, _, rfl, _, mid, linked, given⟩ := given
      exact ⟨path, queue, mid, ⟨rfl, rfl⟩, linked, given⟩
    · rintro ⟨_, _, mid, ⟨rfl, rfl⟩, linked, given⟩
      refine ⟨_, _, ⟨rfl, rfl⟩, ?_⟩
      rw [waiting]
      simp only [gives_bind, gives_set, if_neg new, gives_modify]
      exact ⟨(), _, rfl, (), _, rfl, (), mid, linked, given⟩

theorem tidy_of_run (tidy : st.Tidy) (given : Gives (run limit) st () st') :
    st'.Tidy ∧ Progress st st' ∧ st'.queue = [] := by
  induction limit generalizing st with
  | zero => simp [run] at given
  | succ _ ih =>
    rcases (gives_run tidy).1 given with ⟨done, rfl⟩ | ⟨path, queue, mid, waiting, linked, given⟩
    · exact ⟨tidy, .refl _, done⟩
    · obtain ⟨-, taken⟩ := tidy.take waiting
      obtain ⟨tidy', progress⟩ := tidy_of_routine taken linked
      obtain ⟨tidy'', progress', done⟩ := ih tidy' given
      exact ⟨tidy'', Progress.trans ⟨progress.lines, progress.settings, progress.grown,
        progress.budget⟩ progress', done⟩

/-- Every successful linking has a trace. -/
theorem traced_run (tidy : st.Tidy) (given : Gives (run limit) st () st') :
    ∃ visits rounds, Rounds st visits rounds st' := by
  induction limit generalizing st with
  | zero => simp [run] at given
  | succ _ ih =>
    rcases (gives_run tidy).1 given with ⟨done, rfl⟩ | ⟨path, queue, mid, waiting, linked, given⟩
    · exact ⟨_, _, .done done⟩
    · obtain ⟨-, taken⟩ := tidy.take waiting
      obtain ⟨tidy', -⟩ := tidy_of_routine taken linked
      obtain ⟨visits', rounds, later⟩ := ih tidy' given
      obtain ⟨r, lines, last, found, answered, -, rfl⟩ := gives_routine.1 linked
      obtain ⟨visits, outs, resolved, rfl⟩ := traced_resolveAll answered
      exact ⟨_, _, .next waiting found resolved later⟩

end Linking

end CommandPack
