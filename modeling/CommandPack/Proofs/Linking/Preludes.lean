import CommandPack.Proofs.Linking.Objectives

/-!
# Load preludes

The load routine of a pack declares the objectives of all slots, in the order in which the slots
were booked, before it does what the sources say. Every objective that a generated text names is the
objective of a slot, so it is declared there.
-/

namespace CommandPack

open Text Workspace Linking

variable {path : Path} {lines : List String}

namespace Pack

/-- The lines that set up the scoreboard, for the objectives of variables and for those of constants
with their values. -/
def setup (name : String) (ints : List String) (constants : List (String × Int)) : List String :=
  Scoreboard.summonCarrier name :: ints.map Scoreboard.declare ++
    constants.flatMap fun constant =>
      [Scoreboard.declare constant.1, Scoreboard.set name constant.1 constant.2]

theorem render_prelude (name : String) (ints : List String) (constants : List (String × Int)) :
    (Command.summonCarrier :: ints.map Command.declareScore ++ constants.flatMap fun constant =>
      [Command.declareScore constant.1, Command.setScore constant.1 constant.2]).map
        (Command.render name) = setup name ints constants := by
  rw [List.map_append, List.map_cons, List.map_map, List.map_flatMap]
  rfl

namespace History

variable {limit : Nat} {settings : Settings} {sources : List (String × String)} {pack : Pack}

/-- The linked lines that a routine brings into the pack, as far as it is kept. -/
def own (history : Pack.History limit settings sources pack) (path : Path) :
    Option (List String) :=
  ((history.linked.ws.routines.get? path).filter keeps).map fun r =>
    (history.linked.ws.linesOf r).map Shield.remove

/-- What is packed, apart from the prelude. -/
theorem own_eq (history : Pack.History limit settings sources pack) (path : Path) :
    history.own path = (history.linked.ws.prune.unshield.routines.get? path).map
      history.linked.ws.prune.unshield.linesOf := by
  rw [get?_prune_unshield, Option.map_map, own]
  congr 1
  funext r
  simp only [Function.comp_apply, linesOf, List.map_map]
  rfl

/-- What is kept is below the root. -/
theorem below_of_kept (history : Pack.History limit settings sources pack) {r : Routine}
    (found : history.linked.ws.prune.unshield.routines.get? path = some r) :
    r.path = path ∧ path.Below settings.root := by
  obtain ⟨housed, same⟩ := history.housed
  rw [get?_prune_unshield, Option.map_eq_some_iff] at found
  obtain ⟨r', found, rfl⟩ := found
  have known : history.linked.ws.routines.get? path = some r' :=
    (Option.filter_eq_some_iff.1 found).1
  have own : r'.path = path := housed.orderly.keyed known
  have below := housed.orderly.below known
  rw [same] at below
  exact ⟨own, below⟩

/-- A pack has the lines of the kept routines, with the prelude in front of the load routine. -/
theorem function?_eq (history : Pack.History limit settings sources pack) :
    ∃ before : List Command,
      (history.linked.ws.prune.unshield.preludeLength ≠ 0 →
        history.linked.ws.prune.unshield.prelude = .ok before) ∧
      (∀ path : Path, path.Below settings.root → pack.function? path.render =
        if path = settings.rootPath.child "load" ∧
            history.linked.ws.prune.unshield.preludeLength ≠ 0 then
          some (before.map (·.render settings.pack) ++ (history.own path).getD [])
        else history.own path) ∧
      ∀ name lines, pack.function? name = some lines →
        ∃ path : Path, path.Below settings.root ∧ name = path.render := by
  obtain ⟨-, same⟩ := history.housed
  have frame := history.linked.ws.prune_unshield_frame.1
  have isLoad : history.linked.ws.prune.unshield.loadPath = settings.rootPath.child "load" := by
    rw [loadPath, frame, same]
  have packName : history.linked.ws.prune.unshield.settings.pack = settings.pack := by
    rw [frame, same]
  obtain ⟨settings', load, before, loadPath', -, prelude, commands, routines⟩ :=
    get?_addPrelude history.preludes fun q r found => (history.below_of_kept found).1
  have lines : history.final.linesOf = history.linked.ws.prune.unshield.linesOf := by
    funext r
    rw [linesOf, settings', linesOf]
  have final {q : Path} {r : Routine} (found : history.final.routines.get? q = some r) :
      r.path = q ∧ q.Below settings.root := by
    rw [routines] at found
    split at found
    · next both =>
      cases found
      rw [loadPath', both.1, isLoad]
      exact ⟨rfl, Path.below_root.child (by decide)⟩
    · exact history.below_of_kept found
  refine ⟨before, prelude, fun path below => ?_, fun name out found => ?_⟩
  · have lookup : pack.function? path.render =
        (history.final.routines.get? path).map history.final.linesOf := by
      rw [congrArg (Pack.function? · path.render) history.packs]
      refine Pack.function?_of_injective (fun q r found => (final found).1)
        fun q r found q' known => Path.render_injective (final found).2 ?_
      rcases known with rfl | known
      · exact below
      · obtain ⟨r', found'⟩ := Option.ne_none_iff_exists'.1 known
        exact (final found').2
    rw [lookup, lines, routines, isLoad]
    split
    · next both =>
      rw [Option.map_some, linesOf, commands, List.map_append, packName, own_eq, isLoad, both.1]
      cases history.linked.ws.prune.unshield.routines.get? (settings.rootPath.child "load") with
      | none => rfl
      | some => simp [linesOf, packName]
    · exact (history.own_eq path).symm
  · rw [congrArg (Pack.function? · name) history.packs] at found
    obtain ⟨path, r, known, rfl⟩ := Pack.exists_of_function? found
    obtain ⟨own, below⟩ := final known
    exact ⟨path, below, by rw [own]⟩

/-- What the load routine of a pack is, for the objectives of variables and of constants. -/
structure Loads (history : Pack.History limit settings sources pack)
    (ints constants : List String) : Prop where
  /-- The objectives of scores, in the order in which their slots were booked. -/
  scores : List.Forall₂ (pack.objective? · = some ·) history.linked.ws.ints ints
  booked : history.linked.ws.ints.Sublist pack.slots.keys
  /-- The objectives of constants, in the order in which the constants came up. -/
  values : List.Forall₂ (fun i objective => pack.objective? (constantPath i) = some objective)
    (List.range history.linked.ws.constants.length) constants
  numbered : ((List.range history.linked.ws.constants.length).map constantPath).Sublist
    pack.slots.keys
  /-- There are no other objectives. -/
  complete : ∀ path objective, pack.objective? path = some objective →
    objective ∈ ints ++ constants
  /-- The scoreboard is set up in front of the lines from the sources, if there is a slot. -/
  load : pack.load? =
    if pack.slots.size = 0 then history.own (settings.rootPath.child "load")
    else some (setup pack.name ints (constants.zip history.linked.ws.constants) ++
      (history.own (settings.rootPath.child "load")).getD [])
  /-- All other routines are as they were linked. -/
  others : ∀ path : Path, path.Below settings.root → path ≠ settings.rootPath.child "load" →
    pack.function? path.render = history.own path
  paths : ∀ name lines, pack.function? name = some lines →
    ∃ path : Path, path.Below settings.root ∧ name = path.render

/-- A list of found values has each of them. -/
theorem mem_of_forall₂ {α β : Type} {find : α → Option β} {keys : List α} {values : List β}
    (all : List.Forall₂ (fun key value => find key = some value) keys values) {key : α} {value : β}
    (mem : key ∈ keys) (found : find key = some value) : value ∈ values := by
  obtain ⟨value', there, first⟩ := exists_left_of_forall₂ all.flip mem
  exact Option.some.inj (first.symm.trans found) ▸ there

/-- The load routine sets up all slots. -/
theorem exists_loads (history : Pack.History limit settings sources pack)
    (booked : history.linked.ws.Booked) : ∃ ints constants, history.Loads ints constants := by
  obtain ⟨before, prelude, lookup, paths⟩ := history.function?_eq
  obtain ⟨-, sameInts, sameConstants⟩ := history.linked.ws.prune_unshield_frame
  have slots := history.slots_eq
  have same : history.linked.ws.prune.unshield.slots = pack.slots :=
    slots_prune_unshield.trans slots.symm
  obtain ⟨name, root⟩ := history.names
  have isLoad : pack.load? = pack.function? (settings.rootPath.child "load").render := by
    have segments : settings.rootPath.segments ≠ [] := nofun
    have render : settings.rootPath.render = settings.root := rfl
    rw [load?, root, Path.render_child segments, Path.qualify, render, String.append_assoc]
    rfl
  have below : (settings.rootPath.child "load").Below settings.root :=
    Path.below_root.child (by decide)
  have none : history.linked.ws.prune.unshield.preludeLength = 0 ↔ pack.slots.size = 0 := by
    rw [preludeLength_eq_zero_iff, sameInts, sameConstants, slots, booked.size]
    simp
  have given : ∃ ints constants,
      List.Forall₂ (pack.objective? · = some ·) history.linked.ws.ints ints ∧
      List.Forall₂ (fun i objective => pack.objective? (constantPath i) = some objective)
        (List.range history.linked.ws.constants.length) constants ∧
      (pack.slots.size ≠ 0 → before.map (·.render settings.pack) =
        setup pack.name ints (constants.zip history.linked.ws.constants)) := by
    by_cases empty : pack.slots.size = 0
    · have sizes := booked.size
      rw [← slots, empty] at sizes
      rw [List.eq_nil_of_length_eq_zero (show history.linked.ws.ints.length = 0 by omega),
        show history.linked.ws.constants.length = 0 by omega]
      exact ⟨[], [], .nil, .nil, absurd empty⟩
    · have made := prelude (mt none.1 empty)
      rcases prelude_cases _ with ⟨ints, constants, found, found', made'⟩ | ⟨-, text, failed⟩
      · cases made.symm.trans made'
        rw [same, sameInts] at found
        rw [same, sameConstants] at found'
        refine ⟨ints, constants, found, found', fun _ => ?_⟩
        rw [name, sameConstants]
        exact render_prelude ..
      · cases made.symm.trans failed
  obtain ⟨ints, constants, scores, values, written⟩ := given
  refine ⟨ints, constants, scores, slots ▸ booked.ordered, values, slots ▸ booked.counted,
    fun path objective found => ?_, ?_, fun path below other => ?_, paths⟩
  · have known : path ∈ pack.slots.keys := Table.mem_keys_iff.2 ⟨objective, found⟩
    rw [slots] at known
    rcases booked.keys.1 known with isInt | ⟨i, bound, rfl⟩
    · exact List.mem_append_left _ (mem_of_forall₂ scores isInt found)
    · exact List.mem_append_right _ (mem_of_forall₂ values (List.mem_range.2 bound) found)
  · rw [isLoad, lookup _ below]
    by_cases empty : pack.slots.size = 0
    · rw [if_pos empty, if_neg fun both => both.2 (none.2 empty)]
    · rw [if_neg empty, if_pos ⟨rfl, mt none.1 empty⟩, written empty]
  · rw [lookup path below, if_neg fun both => other both.1]

/-- Every linked line is made of parts of the sources and of the objectives of slots. -/
theorem composed_own (history : Pack.History limit settings sources pack)
    (sound : (Discipline.scoring history.read.lines).Sound history.linked.ws)
    (own : history.own path = some lines) :
    ∀ line ∈ lines, ∃ text, line = Shield.remove text ∧
      Composed (Quoted history.read.lines) settings.pack
        (fun objective => ∃ path, pack.objective? path = some objective) text := by
  obtain ⟨r, kept, rfl⟩ := Option.map_eq_some_iff.1 own
  have found := (Option.filter_eq_some_iff.1 kept).1
  intro line mem
  obtain ⟨text, inside, rfl⟩ := List.mem_map.1 mem
  obtain ⟨command, stored, rfl⟩ := List.mem_map.1 inside
  obtain ⟨texts, objectives⟩ := sound.stored found _ stored
  have composes : history.linked.ws.Composes history.read.lines _ := .command texts objectives
  rw [Composes, history.housed.2] at composes
  refine ⟨_, rfl, ?_⟩
  rw [history.housed.2]
  refine composes.mono ?_
  rintro objective ⟨path, slot⟩
  refine ⟨path, ?_⟩
  rw [objective?, history.slots_eq]
  exact slot

end History

variable {limit : Nat} {settings : Settings} {sources : List (String × String)} {pack : Pack}

/-- Variables, a constant, a variable of a variant, and a load routine of the sources. -/
def loading : String :=
  "x = 1\nx *= 3\ndef f t#s:\n    y = 2\n    say t\nf hi\ndef load:\n    say x"

end Pack

end CommandPack
