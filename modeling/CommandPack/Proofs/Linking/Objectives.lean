import CommandPack.Proofs.Linking.Builds
import CommandPack.Proofs.Lowering.Scores

/-!
# Objective names

A build books slots from its first line to the end of linking and never changes one. As long as
objective names have room for the number of a slot and three characters more, no two slots share
one.
-/

namespace CommandPack

open Text Workspace Linking

variable {settings : Settings} {ws : Workspace}

/-- Linking books slots and composes lines as compiling does. -/
theorem Discipline.links_scoring (lines : List Line) : (Discipline.scoring lines).Links where
  swap {ws symbols} composing tells := by
    have enlarges : ws.Enlarges { ws with symbols } := .of_eq rfl rfl rfl rfl
    exact ⟨composing.of_change rfl rfl (composing.booked.of_eq rfl rfl rfl rfl) enlarges
      (tells.mono enlarges), enlarges⟩
  variant {ws command found r template n} sound writes marked known _ free := by
    have composing : ws.Composing lines := sound.holds
    have isScope : r.path.IsScope ws.settings.root := by
      rw [sound.housed.orderly.keyed known]
      exact sound.housed.isScope known
    let path := found.mark.target.block .variant n
    have enlarges : ws.Enlarges { ws with
        routines := ws.routines.insert path (variant r path found.mark.arguments) } :=
      .of_eq rfl rfl rfl rfl
    refine ⟨trivial, composing.given, composing.booked.of_eq rfl rfl rfl rfl,
      composing.symbols.mono enlarges, fun {q r'} own param mem => ?_,
      fun {q r'} own binding mem => ?_, fun {q r'} own binds => ?_⟩
    · rw [Table.get?_insert] at own
      split at own
      · cases own
        exact composing.params known param mem
      · exact composing.params own param mem
    · rw [Table.get?_insert] at own
      split at own
      · cases own
        -- the names come from the parameters and the values from the mark
        obtain ⟨named, valued⟩ := List.of_mem_zip (a := binding.1) (b := binding.2) mem
        obtain ⟨param, inside, same⟩ := List.mem_map.1 named
        have composes : ws.Composes lines binding.2 := .mark (.command writes.1 writes.2) marked valued
        rw [← same]
        exact ⟨.ofName isScope (composing.params known param (List.mem_filter.1 inside).1).1,
          composes.mono enlarges⟩
      · obtain ⟨slottable, composes⟩ := composing.bindings own binding mem
        exact ⟨slottable, composes.mono enlarges⟩
    · rw [Table.get?_insert] at own
      split at own
      · cases own
        exact isScope
      · exact composing.owners own binds
  steady _ writes _ := .ofText (.command writes.1 writes.2)
  call _ writes marked _ :=
    have composed := Composed.command writes.1 writes.2
    ⟨.ofText (.call _ composed marked), .ofText (.skipped _ composed marked)⟩
  inline _ writes marked single :=
    .ofText (.inline (.command writes.1 writes.2) marked (.command single.1 single.2))

/-- The root routine has no parameters, and nothing else is there before compiling. -/
theorem Workspace.Unbuilt.composing_withRoot (h : Unbuilt settings ws) :
    ws.withRoot.Composing ws.lines := by
  have empty : Booked { settings } :=
    ⟨.nil, .nil, rfl, by simp, by simp [Table.keys], .slnil, .slnil, by simp, by simp⟩
  have symbols : ws.withRoot.symbols = {} := h.symbols
  have root {q : Path} {r : Routine} (found : ws.withRoot.routines.get? q = some r) :
      r.params = [] ∧ r.bindings = [] ∧ r.kind = .root := by
    obtain ⟨-, rfl⟩ := h.only_root found
    exact ⟨rfl, rfl, rfl⟩
  refine ⟨rfl, empty.of_eq h.settings h.slots h.ints h.constants, ?_, fun found param mem => ?_,
    fun found binding mem => ?_, fun found binds => ?_⟩
  · rw [symbols]
    exact ⟨by rintro _ ⟨⟩, by rintro _ _ ⟨⟩⟩
  · rw [(root found).1] at mem
    cases mem
  · rw [(root found).2.1] at mem
    cases mem
  · rw [(root found).2.2] at binds
    cases binds

namespace Pack

variable {limit : Nat} {settings : Settings} {sources : List (String × String)} {pack : Pack}

/-- If there are fewer slots than three digits less than the limit of objective names can count,
then every objective name is within the limit, different slots have different objectives, and from
line to line of the build, through compiling and linking to the pack, slots are only added at the
end of the slots that are there. -/
theorem build_books_slots (built : Pack.build limit settings sources = .ok pack)
    (room : pack.slots.size < 10 ^ (settings.slotLimit - 3)) :
    (∀ path objective, pack.objective? path = some objective →
      (chars objective).length ≤ settings.slotLimit) ∧
    (∀ path path' objective, pack.objective? path = some objective →
      pack.objective? path' = some objective → path = path') ∧
    ∃ history : Pack.History limit settings sources pack,
      (history.moments.map (·.slots.entries) ++ [pack.slots.entries]).Pairwise (· <+: ·) := by
  obtain ⟨history⟩ := exists_history built
  have start := history.unbuilt.composing_withRoot
  obtain ⟨-, sound, course⟩ := history.disciplined (Discipline.links_scoring _) start
  have booked : history.linked.ws.Booked := sound.holds.booked
  have slots := history.slots_eq
  have bound : history.linked.ws.settings.slotLimit = settings.slotLimit :=
    congrArg Settings.slotLimit (course.follows.develops.settings.trans history.unbuilt.settings)
  rw [slots, ← bound] at room
  refine ⟨fun path objective found => ?_, fun path path' objective found found' => ?_, history, ?_⟩
  · rw [objective?, slots] at found
    rw [← bound]
    exact booked.length_objective_le found
  · rw [objective?, slots] at found found'
    exact booked.objective_injective room found found'
  · have ordered := (List.pairwise_cons.1 course.pairwise).2
    have entries := ordered.map (·.slots.entries) fun earlier later follows => follows.leads.slots
    rw [slots]
    simpa [History.moments] using entries

/-- Parameters, variables, a difference, a constant and the variables of two variants. -/
def sevenSlots : String :=
  "x = 7\ny = 2\nx *= 3\nif x < y:\n    say less\n    say x\n" ++
    "def f n#i t#s:\n    z = n\n    z %= 3\n    say t z\nf x hi\nf y ho"

theorem build_books_slots_sevenSlots :
    ∃ pack, Pack.build 100 { slotLimit := 4 } [("", sevenSlots)] = .ok pack ∧
      pack.slots.size < 10 ^ (4 - 3) ∧
      pack.slots.entries = [("main.f.n", ".n.0"), ("main.x", ".x.1"), ("main.y", ".y.2"),
        ("CONSTANT.0", "NT.0"), ("main.x.TEST", "ST.4"), ("main.f.s0.z", ".z.5"),
        ("main.f.s1.z", ".z.6")] ∧
      (∀ path objective, pack.objective? path = some objective → (chars objective).length ≤ 4) ∧
      ∃ history : Pack.History 100 { slotLimit := 4 } [("", sevenSlots)] pack,
        (history.moments.map (·.slots.entries) ++ [pack.slots.entries]).Pairwise (· <+: ·) := by
  obtain ⟨pack, built, size, entries⟩ : ∃ pack,
      Pack.build 100 { slotLimit := 4 } [("", sevenSlots)] = .ok pack ∧
        pack.slots.size < 10 ^ (4 - 3) ∧ pack.slots.entries = [("main.f.n", ".n.0"),
          ("main.x", ".x.1"), ("main.y", ".y.2"), ("CONSTANT.0", "NT.0"), ("main.x.TEST", "ST.4"),
          ("main.f.s0.z", ".z.5"), ("main.f.s1.z", ".z.6")] := by decide +kernel
  obtain ⟨short, -, kept⟩ := build_books_slots built size
  exact ⟨pack, built, size, entries, short, kept⟩

end Pack

end CommandPack
