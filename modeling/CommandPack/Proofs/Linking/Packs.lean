import CommandPack.Proofs.Linking.Preserving

/-!
# Packs keep actions

A pack holds the kept routines of the linked workspace without their shields, and the prelude in
front of the load routine. So each kept routine performs in the pack what it performed before
linking, also if it never comes to an end.
-/

namespace CommandPack

variable {commands : List Command} {ws : Workspace}
variable {name : String} {lines : List String} {path : Path} {body : List (Instr Path)}
  {r : Routine}

/-! ### The prelude -/

namespace Workspace

variable {ws final : Workspace}

/-- The number of commands that linking puts in front of the load routine. -/
def preludeLength (ws : Workspace) : Nat :=
  if ws.ints.isEmpty && ws.constants.isEmpty then
    0
  else
    1 + ws.ints.length + 2 * ws.constants.length

theorem declareInts_eq (ws : Workspace) (ints : List String) :
    ws.declareInts ints = (ints.mapM ws.objective).map (List.map .declareScore) := by
  induction ints with
  | nil => rfl
  | cons path rest ih =>
    rw [declareInts, ih, List.mapM_cons]
    cases ws.objective path with
    | error => rfl
    | ok => cases rest.mapM ws.objective <;> rfl

theorem declareConstants_eq (ws : Workspace) (index : Nat) (constants : List Int) :
    ws.declareConstants index constants =
      (((List.range' index constants.length).map constantPath).mapM ws.objective).map
        fun objectives => (objectives.zip constants).flatMap fun constant =>
          [.declareScore constant.1, .setScore constant.1 constant.2] := by
  induction constants generalizing index with
  | nil => rfl
  | cons value rest ih =>
    rw [declareConstants, ih, List.length_cons, List.range'_succ, List.map_cons, List.mapM_cons]
    cases ws.objective (constantPath index) with
    | error => rfl
    | ok =>
      cases ((List.range' (index + 1) rest.length).map constantPath).mapM ws.objective <;> rfl

/-- Paths have objectives, unless one of them has no slot. -/
theorem mapM_objective (ws : Workspace) (paths : List String) :
    (∃ objectives, List.Forall₂ (fun path objective => ws.slots.get? path = some objective) paths
        objectives ∧ paths.mapM ws.objective = .ok objectives) ∨
      ∃ path ∈ paths, path ∉ ws.slots.keys ∧
        ∃ text, paths.mapM ws.objective = .error (.internal text) := by
  induction paths with
  | nil => exact .inl ⟨[], .nil, rfl⟩
  | cons path rest ih =>
    rw [List.mapM_cons, objective]
    cases found : ws.slots.get? path with
    | none => exact .inr ⟨path, .head _, by simp [Table.mem_keys_iff, found], _, rfl⟩
    | some objective =>
      rcases ih with ⟨objectives, others, all⟩ | ⟨other, mem, missing, text, failed⟩
      · exact .inl ⟨objective :: objectives, .cons found others, by rw [all]; rfl⟩
      · exact .inr ⟨other, .tail _ mem, missing, text, by rw [failed]; rfl⟩

/-- The prelude declares the objectives of all slots, unless a variable or a constant has none. -/
theorem prelude_cases (ws : Workspace) :
    (∃ ints constants,
      List.Forall₂ (fun path objective => ws.slots.get? path = some objective) ws.ints ints ∧
      List.Forall₂ (fun i objective => ws.slots.get? (constantPath i) = some objective)
        (List.range ws.constants.length) constants ∧
      ws.prelude = .ok (.summonCarrier :: ints.map .declareScore ++
        (constants.zip ws.constants).flatMap fun constant =>
          [.declareScore constant.1, .setScore constant.1 constant.2])) ∨
      (∃ path, (path ∈ ws.ints ∨ ∃ i < ws.constants.length, path = constantPath i) ∧
        path ∉ ws.slots.keys) ∧ ∃ text, ws.prelude = .error (.internal text) := by
  rw [prelude, declareInts_eq, declareConstants_eq, ← List.range_eq_range']
  rcases ws.mapM_objective ws.ints with ⟨ints, found, all⟩ | ⟨path, mem, missing, text, failed⟩
  · rw [all]
    rcases ws.mapM_objective ((List.range ws.constants.length).map constantPath) with
      ⟨constants, found', all'⟩ | ⟨path, mem, missing, text, failed⟩
    · rw [all']
      exact .inl ⟨ints, constants, found, List.forall₂_map_left_iff.1 found', rfl⟩
    · rw [failed]
      obtain ⟨i, early, rfl⟩ := List.mem_map.1 mem
      exact .inr ⟨⟨_, .inr ⟨i, List.mem_range.1 early, rfl⟩, missing⟩, text, rfl⟩
  · rw [failed]
    exact .inr ⟨⟨path, .inl mem, missing⟩, text, rfl⟩

theorem length_prelude (made : ws.prelude = .ok commands) :
    commands.length = 1 + ws.ints.length + 2 * ws.constants.length := by
  rcases ws.prelude_cases with ⟨ints, constants, found, found', made'⟩ | ⟨-, text, failed⟩
  · cases made.symm.trans made'
    have pairs : (constants.zip ws.constants).length = ws.constants.length := by
      simp [← found'.length_eq]
    rw [List.length_append, List.length_cons, List.length_map, ← found.length_eq,
      List.length_flatMap, Nat.add_comm ws.ints.length]
    simp [pairs, Nat.mul_comm]
  · cases made.symm.trans failed

theorem preludeLength_eq_zero_iff :
    ws.preludeLength = 0 ↔ (ws.ints.isEmpty && ws.constants.isEmpty) = true := by
  unfold preludeLength
  split
  · next none => simp only [none]
  · next some' =>
    simp only [some', Bool.false_eq_true, iff_false]
    omega

/-- Adding the prelude changes the load routine and nothing else. -/
theorem get?_addPrelude (h : ws.addPrelude = .ok final)
    (keyed : ∀ path r, ws.routines.get? path = some r → r.path = path) :
    final.settings = ws.settings ∧
      ∃ (load : Routine) (before : List Command), load.path = ws.loadPath ∧
        before.length = ws.preludeLength ∧
        (ws.preludeLength ≠ 0 → ws.prelude = .ok before) ∧
        load.commands = before ++ ((ws.routines.get? ws.loadPath).map Routine.commands).getD [] ∧
        ∀ path, final.routines.get? path =
          if path = ws.loadPath ∧ ws.preludeLength ≠ 0 then some load
          else ws.routines.get? path := by
  unfold addPrelude at h
  split at h
  · next none =>
    cases h
    have zero := preludeLength_eq_zero_iff.2 none
    refine ⟨rfl,
      { path := ws.loadPath, kind := .defined, start := 0, depth := 1, owner := ws.loadPath,
        commands := _ },
      [], rfl, zero.symm, fun nonzero => absurd zero nonzero, rfl, fun path => ?_⟩
    rw [if_neg fun both => both.2 zero]
  · next some' =>
    simp only [bind, Except.bind] at h
    split at h
    · cases h
    · next commands made =>
      cases h
      have length : commands.length = ws.preludeLength := by
        rw [length_prelude made, preludeLength, if_neg some']
      have nonzero : ws.preludeLength ≠ 0 := fun zero => some' (preludeLength_eq_zero_iff.1 zero)
      cases found : ws.routines.get? ws.loadPath with
      | some r =>
        have known : ws.routines.contains ws.loadPath = true := by
          rw [Table.contains_eq, found]
          rfl
        rw [ensureLoad, if_pos known]
        refine ⟨rfl, { r with commands := commands ++ r.commands, used := true }, commands,
          keyed _ r found, length, fun _ => made, rfl, fun path => ?_⟩
        rw [updateRoutine, Table.get?_modify]
        by_cases isLoad : path = ws.loadPath
        · rw [isLoad, found, Option.map_some, if_pos rfl, if_pos ⟨rfl, nonzero⟩]
        · simp [isLoad]
      | none =>
        have unknown : ¬ ws.routines.contains ws.loadPath = true := by
          rw [Table.contains_eq, found]
          exact Bool.false_ne_true
        rw [ensureLoad, if_neg unknown]
        refine ⟨rfl,
          { path := ws.loadPath, kind := .defined, start := 0, depth := 1,
            owner := ws.loadPath, commands := commands ++ [], used := true },
          commands, rfl, length, fun _ => made, rfl, fun path => ?_⟩
        rw [updateRoutine, Table.get?_modify, Table.get?_insert]
        by_cases isLoad : path = ws.loadPath
        · rw [isLoad, if_pos rfl, Option.map_some, if_pos rfl, if_pos ⟨rfl, nonzero⟩]
        · simp only [isLoad, if_false, false_and]
          exact Option.map_id'

end Workspace

/-! ### Packs -/

/-- A pack has no routines but those of the workspace. -/
theorem Pack.exists_of_function? (found : (Pack.ofWorkspace ws).function? name = some lines) :
    ∃ path r, ws.routines.get? path = some r ∧ name = r.path.render := by
  obtain ⟨r, mem, same⟩ := List.mem_map.1 (Table.mem_of_get?_ofList found)
  obtain ⟨e, inTable, rfl⟩ := List.mem_map.1 mem
  exact ⟨e.1, e.2, (Table.get?_eq_some_iff ..).2 inTable, (Prod.mk.inj same).1.symm⟩

/-- A pack finds a routine by its dotted path, if different routines have different ones. -/
theorem Pack.function?_of_injective (keyed : ∀ q r, ws.routines.get? q = some r → r.path = q)
    (injective : ∀ q r, ws.routines.get? q = some r →
      ∀ q', q' = path ∨ ws.routines.get? q' ≠ none → q.render = q'.render → q = q') :
    (Pack.ofWorkspace ws).function? path.render = (ws.routines.get? path).map ws.linesOf := by
  have entry (e : Path × Routine) (mem : e ∈ ws.routines.entries) :
      ws.routines.get? e.1 = some e.2 ∧ e.2.path = e.1 :=
    have found := (Table.get?_eq_some_iff ..).2 mem
    ⟨found, keyed _ _ found⟩
  have nodup : ((ws.routines.values.map fun r => (r.path.render, ws.linesOf r)).map
      Prod.fst).Nodup := by
    rw [Table.values, List.map_map, List.map_map]
    refine List.Nodup.map_on ?_ (List.Nodup.of_map Prod.fst ws.routines.nodup_keys)
    intro e mem e' mem' same
    obtain ⟨found, hpath⟩ := entry e mem
    obtain ⟨found', hpath'⟩ := entry e' mem'
    simp only [Function.comp_apply, hpath, hpath'] at same
    have paths := injective e.1 e.2 found e'.1 (.inr (by simp [found'])) same
    exact List.inj_on_of_nodup_map ws.routines.nodup_keys mem mem' paths
  apply Option.ext
  intro lines
  change (Table.ofList (ws.routines.values.map fun r =>
    (r.path.render, ws.linesOf r))).get? path.render = some lines ↔ _
  rw [Table.get?_ofList nodup, List.mem_map, Option.map_eq_some_iff]
  constructor
  · rintro ⟨r, mem, same⟩
    obtain ⟨e, inTable, rfl⟩ := List.mem_map.1 mem
    obtain ⟨found, hpath⟩ := entry e inTable
    obtain ⟨hrender, hlines⟩ := Prod.mk.inj same
    rw [hpath] at hrender
    have paths : e.1 = path := injective e.1 e.2 found path (.inl rfl) hrender
    exact ⟨e.2, paths ▸ found, hlines⟩
  · rintro ⟨r, found, rfl⟩
    refine ⟨r, List.mem_map.2 ⟨_, (Table.get?_eq_some_iff ..).1 found, rfl⟩, ?_⟩
    rw [keyed _ _ found]

/-- A pack finds a routine with a plain path. -/
theorem Pack.function?_ofWorkspace (keyed : ∀ q r, ws.routines.get? q = some r → r.path = q)
    (plains : ∀ q r, ws.routines.get? q = some r → q.Plain) (plain : path.Plain) :
    (Pack.ofWorkspace ws).function? path.render = (ws.routines.get? path).map ws.linesOf := by
  refine function?_of_injective keyed fun q r found q' known same => ?_
  have plain' : q'.Plain := by
    rcases known with rfl | known
    · exact plain
    · obtain ⟨r', found'⟩ := Option.ne_none_iff_exists'.1 known
      exact plains q' r' found'
  rw [← (plains q r found).parse_render, same, plain'.parse_render]

namespace Workspace

variable {ws final : Workspace} {st : LinkState} {limit : Nat} {pack : Pack} {path : Path}
  {own : List String}

/-- The lines that a kept routine has in a pack, apart from the prelude. A load routine that
consists of the prelude has not been kept but made. -/
def OwnLines (ws : Workspace) (pack : Pack) (path : Path) (own : List String) : Prop :=
  own ≠ [] ∧ ∃ lines, pack.function? path.render = some lines ∧
    own = if path = ws.loadPath then lines.drop ws.preludeLength else lines

/-- A successful link runs until nothing waits. -/
theorem link_eq_ok (h : ws.link limit = (.ok pack, final)) :
    ∃ st, WorkM.Gives (Linking.run limit) ws.linkState () st ∧
      st.ws.prune.unshield.addPrelude = .ok final ∧ pack = Pack.ofWorkspace final := by
  unfold link at h
  split at h
  · cases h
  · next st run =>
    simp only at h
    split at h
    · cases h
    · next linked added =>
      cases h
      exact ⟨st, run, added, rfl⟩

/-- Pruning and unshielding leave everything but the routines alone. -/
theorem prune_unshield_frame : ws.prune.unshield.settings = ws.settings ∧
    ws.prune.unshield.ints = ws.ints ∧ ws.prune.unshield.constants = ws.constants := by
  simp only [unshield, prune]
  split <;> exact ⟨rfl, rfl, rfl⟩

/-- What is left of a routine without its shields. -/
theorem get?_prune_unshield (path : Path) :
    ws.prune.unshield.routines.get? path = ((ws.routines.get? path).filter keeps).map fun r =>
      { r with commands := (ws.linesOf r).map (.text <| Shield.remove ·) } := by
  have routines : ws.prune.routines = ws.routines.filter fun _ r => keeps r := by
    unfold prune
    simp only
    split <;> rfl
  have settings : ws.prune.settings = ws.settings := ws.prune_unshield_frame.1
  rw [unshield, Table.get?_map, routines, Table.get?_filter, settings]
  simp only [linesOf, List.map_map]
  rfl

/-- Apart from the prelude, a pack has the lines that the workspace had before it. -/
theorem ownLines_addPrelude (added : ws.addPrelude = .ok final)
    (keyed : ∀ q r, ws.routines.get? q = some r → r.path = q)
    (plains : ∀ q r, ws.routines.get? q = some r → q.Plain) (plainLoad : ws.loadPath.Plain)
    (plain : path.Plain) :
    ws.OwnLines (Pack.ofWorkspace final) path own ↔
      own ≠ [] ∧ (ws.routines.get? path).map ws.linesOf = some own := by
  obtain ⟨hsettings, load, before, hload, hlength, -, hcommands, hroutines⟩ :=
    get?_addPrelude added keyed
  have function : (Pack.ofWorkspace final).function? path.render =
      (final.routines.get? path).map ws.linesOf := by
    have lines : final.linesOf = ws.linesOf := by
      funext r
      rw [linesOf, hsettings, linesOf]
    rw [← lines]
    refine Pack.function?_ofWorkspace (fun q r found => ?_) (fun q r found => ?_) plain
    all_goals
      rw [hroutines] at found
      split at found
    · next isLoad =>
      cases found
      rw [hload, isLoad.1]
    · exact keyed q r found
    · next isLoad => exact isLoad.1 ▸ plainLoad
    · exact plains q r found
  unfold OwnLines
  rw [function, hroutines]
  by_cases isLoad : path = ws.loadPath
  · subst isLoad
    by_cases zero : ws.preludeLength = 0
    · simp only [zero, ne_eq, not_true_eq_false, and_false, if_false, if_true, List.drop_zero]
      simp [eq_comm]
    · have lines : ws.linesOf load = before.map (·.render ws.settings.pack) ++
          ((ws.routines.get? ws.loadPath).map ws.linesOf).getD [] := by
        rw [linesOf, hcommands, List.map_append]
        cases ws.routines.get? ws.loadPath <;> rfl
      have drop : (ws.linesOf load).drop ws.preludeLength =
          ((ws.routines.get? ws.loadPath).map ws.linesOf).getD [] := by
        rw [lines, ← hlength, List.drop_append_of_le_length (by simp), List.drop_of_length_le (by simp),
          List.nil_append]
      simp only [zero, ne_eq, not_false_eq_true, and_self, if_true, Option.map_some,
        Option.some.injEq, exists_eq_left', drop]
      refine and_congr_right fun some' => ?_
      cases ws.routines.get? ws.loadPath with
      | some => simp [eq_comm]
      | none => simp [some']
  · simp [isLoad, eq_comm]

/-- The lines of a routine in a pack come from a routine that linking keeps. -/
theorem ownLines_iff (linkable : ws.Linkable) (based : Linking.Based ws st)
    (added : st.ws.prune.unshield.addPrelude = .ok final) (known : path ∈ ws.routines.keys) :
    ws.OwnLines (Pack.ofWorkspace final) path own ↔
      ∃ r, st.ws.routines.get? path = some r ∧ keeps r = true ∧
        own = (ws.linesOf r).map Shield.remove := by
  obtain ⟨hsettings, hints, hconstants⟩ := st.ws.prune_unshield_frame
  have plains (q : Path) (mem : q ∈ ws.routines.keys) : q.Plain := by
    obtain ⟨r, found⟩ := Table.mem_keys_iff.1 mem
    exact linkable.plain found
  have load : st.ws.prune.unshield.loadPath = ws.loadPath := by
    rw [loadPath, hsettings, based.settings, loadPath]
  have same : ws.OwnLines = st.ws.prune.unshield.OwnLines := by
    unfold OwnLines
    rw [load, preludeLength, preludeLength, hints, hconstants, based.ints, based.constants]
  have found (q : Path) (r : Routine) (h : st.ws.prune.unshield.routines.get? q = some r) :
      q ∈ ws.routines.keys ∧ r.path = q := by
    rw [get?_prune_unshield, Option.map_eq_some_iff] at h
    obtain ⟨r₀, h, rfl⟩ := h
    have here : st.ws.routines.get? q = some r₀ := (Option.filter_eq_some_iff.1 h).1
    have hpath : r₀.path = q := based.keyed here
    exact ⟨based.keys ▸ Table.mem_keys_iff.2 ⟨r₀, here⟩, hpath⟩
  rw [same, ownLines_addPrelude added (fun q r h => (found q r h).2)
    (fun q r h => plains q (found q r h).1) (load ▸ linkable.plainLoad) (plains path known),
    get?_prune_unshield]
  simp only [linesOf, hsettings, based.settings, Option.map_map, Option.map_eq_some_iff,
    Option.filter_eq_some_iff, Function.comp_apply, List.map_map]
  constructor
  · rintro ⟨_, r, ⟨here, keeps⟩, rfl⟩
    exact ⟨r, here, keeps, rfl⟩
  · rintro ⟨r, here, keeps, rfl⟩
    refine ⟨?_, r, ⟨here, keeps⟩, rfl⟩
    simpa [Workspace.keeps] using (Bool.and_eq_true_iff.1 keeps).2

/-- Linked lines are read one by one. -/
theorem readings {code : Listing Path} {kept : Path → Prop}
    (h : List.Forall₂ (Resolved name code kept) lines body) :
    ∃ outs, List.Forall₂ (Inlined Shield.remove Path.artifact code kept) body outs ∧
      List.Forall₂ (ReadsNamed name) (lines.map Shield.remove) outs := by
  induction h with
  | nil => exact ⟨[], .nil, .nil⟩
  | cons here _ ih =>
    obtain ⟨out, inlined, settled⟩ := here
    obtain ⟨outs, inlineds, reads⟩ := ih
    exact ⟨out :: outs, .cons inlined inlineds, .cons settled.reads reads⟩

/-- How the routine that is kept under a name can be read. -/
structure NamedReading (ws : Workspace) (st : LinkState) (path : Path) (r : Routine)
    (body : List (Instr Path)) (outs : List (Instr String)) : Prop where
  found : st.ws.routines.get? path = some r
  keeps : keeps r = true
  marked : ws.marked path = some body
  inlined : List.Forall₂ (Inlined Shield.remove Path.artifact ws.marked st.Kept) body outs
  reads : List.Forall₂ (ReadsNamed ws.settings.pack) ((ws.linesOf r).map Shield.remove) outs

/-- What is kept has been linked when nothing waits any more. -/
theorem exists_namedReading (mirrors : Linking.Mirrors ws (fun _ => False) st)
    (linkable : ws.Linkable) (done : st.queue = []) (found : st.ws.routines.get? path = some r)
    (used : r.used = true) (some' : r.commands ≠ []) :
    ∃ body outs, NamedReading ws st path r body outs := by
  obtain ⟨body, hbody, resolved⟩ := mirrors.resolved linkable done found used
  obtain ⟨outs, inlined, reads⟩ := readings resolved
  exact ⟨body, outs, found, by simp [keeps, used, some'], hbody, inlined, reads⟩

open Classical in
/-- The kept routines, each in one of its readings. -/
noncomputable def namedCode (ws : Workspace) (st : LinkState) : Listing String := fun name =>
  if h : ∃ outs path r body, path.artifact = name ∧ NamedReading ws st path r body outs then
    some h.choose
  else
    none

/-- Names belong to one routine each. -/
theorem namedCode_eq (linkable : ws.Linkable) (based : Linking.Based ws st)
    {outs : List (Instr String)} (h : NamedReading ws st path r body outs) :
    ∃ outs', namedCode ws st path.artifact = some outs' ∧ NamedReading ws st path r body outs' := by
  have some' : ∃ outs path' r body, path'.artifact = path.artifact ∧
      NamedReading ws st path' r body outs := ⟨outs, path, r, body, rfl, h⟩
  refine ⟨some'.choose, by rw [namedCode, dif_pos some'], ?_⟩
  obtain ⟨path', r', body', same, h'⟩ := some'.choose_spec
  have known {q : Path} {r : Routine} (found : st.ws.routines.get? q = some r) :
      q ∈ ws.routines.keys := based.keys ▸ Table.mem_keys_iff.2 ⟨r, found⟩
  obtain rfl : path' = path :=
    List.inj_on_of_nodup_map linkable.artifacts (known h'.found) (known h.found) same
  cases h.found.symm.trans h'.found
  cases h.marked.symm.trans h'.marked
  exact h'

/-- Linking preserves actions. The kept routines of a pack can be read so that each of them
performs the actions of its own commands before linking, without shields. -/
theorem link_preserves_actions (linkable : ws.Linkable)
    (linked : ws.link limit = (.ok pack, final)) :
    ∃ named : Listing String,
      (∀ name outs, named name = some outs →
        ∃ path ∈ ws.routines.keys, path.artifact = name ∧ ∃ own, ws.OwnLines pack path own) ∧
      ∀ path ∈ ws.routines.keys, ∀ own, ws.OwnLines pack path own →
        ∃ body outs, ws.marked path = some body ∧ named path.artifact = some outs ∧
          List.Forall₂ (ReadsNamed ws.settings.pack) own outs ∧
          ∀ log ended, Performs named "" outs log ended ↔
            ∃ before, log = before.map (Prod.map Shield.remove Shield.remove) ∧
              Performs ws.marked "" body before ended := by
  obtain ⟨st, run, added, rfl⟩ := link_eq_ok linked
  obtain ⟨mirrors, done⟩ := (Linking.mirrors_linkState linkable.settles).run linkable.settles run
  have based := mirrors.based
  have code : Performs.Linked Shield.remove Path.artifact ws.marked st.Kept (namedCode ws st) := by
    rintro path ⟨r, found, used, some'⟩
    obtain ⟨body, outs, reading⟩ := exists_namedReading mirrors linkable done found used some'
    obtain ⟨outs', hcode, reading'⟩ := namedCode_eq linkable based reading
    exact ⟨body, outs', reading'.marked, hcode, reading'.inlined⟩
  refine ⟨namedCode ws st, fun name outs hcode => ?_, fun path known own hown => ?_⟩
  · unfold namedCode at hcode
    split at hcode
    · next some' =>
      obtain ⟨path, r, body, rfl, reading⟩ := some'.choose_spec
      have known : path ∈ ws.routines.keys := based.keys ▸ Table.mem_keys_iff.2 ⟨r, reading.found⟩
      exact ⟨path, known, rfl, _,
        (ownLines_iff linkable based added known).2 ⟨r, reading.found, reading.keeps, rfl⟩⟩
    · cases hcode
  · obtain ⟨r, found, keeps, rfl⟩ := (ownLines_iff linkable based added known).1 hown
    obtain ⟨used, some'⟩ := Bool.and_eq_true_iff.1 keeps
    obtain ⟨body, outs, reading⟩ :=
      exists_namedReading mirrors linkable done found used (by simpa using some')
    obtain ⟨outs, hcode, reading⟩ := namedCode_eq linkable based reading
    refine ⟨body, outs, reading.marked, hcode, reading.reads, fun log ended => ⟨?_, ?_⟩⟩
    · intro performed
      exact performed.of_inlined code Shield.remove_append rfl reading.inlined
    · rintro ⟨before, rfl, performed⟩
      exact performed.inlined code Shield.remove_append reading.inlined

/-- A workspace whose root enters a loop that calls a single command. -/
def looping : Workspace :=
  let main := Path.root "main"
  let round := main.block .loop 0
  let once := main.child "once"
  let again := "execute if go run " ++ CallMark.render ⟨round, []⟩
  let routine (path : Path) (lines : List String) : Path × Routine :=
    (path, { Routine.ofRoot path with commands := lines.map .text, used := path = main })
  { routines := Table.ofList
      [routine main ["say a", again], routine once ["say c"],
        routine round ["say b", CallMark.render ⟨once, []⟩, again]] }

theorem linkable_looping : looping.Linkable := by
  have entry : ∀ e ∈ looping.routines.entries, e.2.path = e.1 ∧ e.1.Plain ∧ e.2.template = none ∧
      ∀ line ∈ looping.linesOf e.2, isInert (Shield.remove line) = isInert line ∧
        (CallMark.Unmarked line ∨
          ∃ context ∈ ["", "execute if go run "], ∃ target ∈ looping.routines.keys,
            line = context ++ CallMark.render ⟨target, []⟩ ∧ CallMark.IsContext context ∧
              target.Plain) := by
    decide +kernel
  have found {path : Path} {r : Routine} (h : looping.routines.get? path = some r) :=
    entry (path, r) ((Table.get?_eq_some_iff ..).1 h)
  refine ⟨by decide +kernel, by decide +kernel, fun h => (found h).1, fun h => (found h).2.1,
    by decide +kernel, fun h => (found h).2.2.1, fun h line mem => ?_,
    fun h line mem => ((found h).2.2.2 line mem).1, by decide +kernel⟩
  refine ((found h).2.2.2 line mem).2.imp_right ?_
  rintro ⟨context, _, target, _, shape⟩
  exact ⟨context, ⟨target, []⟩, shape⟩

/-- The loop goes on in the pack, with one more context in each round. -/
theorem link_preserves_actions_looping :
    ∃ pack final named own outs, looping.link 20 = (.ok pack, final) ∧
      looping.OwnLines pack (.root "main") own ∧ List.Forall₂ (ReadsNamed "pack") own outs ∧
      Performs named "" outs
        [("", "say a"), ("execute if go run ", "say b"), ("execute if go run ", "say c"),
          ("execute if go run execute if go run ", "say b")] false := by
  obtain ⟨pack, final, linked, function⟩ : ∃ pack final, looping.link 20 = (.ok pack, final) ∧
      pack.function? "main" = some ["say a", "execute if go run function pack:w0"] := by
    decide +kernel
  have own : looping.OwnLines pack (.root "main")
      ["say a", "execute if go run function pack:w0"] :=
    ⟨nofun, _, function, by decide +kernel⟩
  obtain ⟨named, _, performs⟩ := link_preserves_actions linkable_looping linked
  obtain ⟨body, outs, hbody, _, reads, same⟩ := performs (.root "main") (by decide +kernel) _ own
  have main : looping.marked (.root "main") =
      some [.act "" "say a", .call "execute if go run " ⟨["main", "w0"]⟩] := by decide +kernel
  have once : looping.marked ⟨["main", "once"]⟩ = some [.act "" "say c"] := by decide +kernel
  have round : looping.marked ⟨["main", "w0"]⟩ =
      some [.act "" "say b", .call "" ⟨["main", "once"]⟩,
        .call "execute if go run " ⟨["main", "w0"]⟩] := by decide +kernel
  cases main.symm.trans hbody
  refine ⟨pack, final, named, _, outs, linked, own, reads, (same _ _).2
    ⟨[("", "say a"), ("execute if go run ", "say b"), ("execute if go run ", "say c"),
      ("execute if go run execute if go run ", "say b")], by decide +kernel, ?_⟩⟩
  exact .act (.enter round (.act (.call once (.act .done) (.enter round (.act .stop)))))

/-- A workspace with a line that only a shield keeps active. -/
def shielded : Workspace :=
  let main := Path.root "main"
  { routines := Table.ofList
      [(main, { Routine.ofRoot main with commands := [.text "\x01# hi"] })] }

/-- Linking takes the shield away, and with it the only action of the root. -/
theorem link_drops_shielded_action :
    Performs shielded.marked "" [.act "" "\x01# hi"] [("", "\x01# hi")] true ∧
      shielded.marked (.root "main") = some [.act "" "\x01# hi"] ∧
      ∃ pack final, shielded.link 20 = (.ok pack, final) ∧
        shielded.OwnLines pack (.root "main") ["# hi"] ∧
        ∀ outs, List.Forall₂ (ReadsNamed "pack") ["# hi"] outs → outs = [.quiet] := by
  refine ⟨.act .done, by decide +kernel, ?_⟩
  obtain ⟨pack, final, linked, function⟩ : ∃ pack final, shielded.link 20 = (.ok pack, final) ∧
      pack.function? "main" = some ["# hi"] := by decide +kernel
  refine ⟨pack, final, linked, ⟨nofun, _, function, by decide +kernel⟩, ?_⟩
  intro outs reads
  have inert : isInert "# hi" = true := by decide +kernel
  cases reads with
  | cons here rest =>
    cases rest
    generalize hline : "# hi" = line at here inert
    cases here with
    | inert => rfl
    | command active => exact absurd inert (by rw [active]; decide)
    | call active => exact absurd inert (by rw [active]; decide)

end Workspace

end CommandPack
