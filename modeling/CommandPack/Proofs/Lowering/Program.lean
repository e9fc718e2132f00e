import CommandPack.Proofs.Lowering.Routines
import CommandPack.Proofs.Source.Places

/-!
# Whole programs

What a compilation starts from, and what it leaves: the root and every definition that was
compiled hold the scripts of their lines.
-/

namespace CommandPack

variable {settings : Settings}

namespace Workspace

variable {ws ws' final : Workspace}

/-- A workspace that holds lines and nothing else yet. -/
structure Unbuilt (settings : Settings) (ws : Workspace) : Prop where
  settings : ws.settings = settings
  routines : ws.routines = {}
  symbols : ws.symbols = {}
  ints : ws.ints = []
  constants : ws.constants = []
  slots : ws.slots = {}
  trimmed : ∀ line ∈ ws.lines, Text.trim line.text = line.text

theorem Unbuilt.addSource {name text : String} (h : Unbuilt settings ws)
    (added : ws.addSource name text = .ok ws') : Unbuilt settings ws' := by
  obtain ⟨lines, read, rfl⟩ := addSource_eq_ok.1 added
  refine ⟨h.settings, h.routines, h.symbols, h.ints, h.constants, h.slots, fun line mem => ?_⟩
  rcases List.mem_append.1 mem with mem | mem
  · exact h.trimmed line mem
  · obtain ⟨_, _, _, _, _, stripped, _, rfl⟩ := (Line.of_readNumbered read).2 line mem
    exact Text.trim_eq_self_iff.2 (Shield.trimmed_apply (Comment.trimmed_of_strip stripped))

theorem Unbuilt.addSources {sources : List (String × String)} (h : Unbuilt settings ws)
    (added : ws.addSources sources = .ok ws') : Unbuilt settings ws' := by
  induction sources generalizing ws with
  | nil =>
    cases added
    exact h
  | cons _ _ ih =>
    obtain ⟨mid, first, later⟩ := addSources_cons_eq_ok.1 added
    exact ih (h.addSource first) later

/-- Sources are read into a workspace that holds nothing but their lines. -/
theorem unbuilt_of_addSources {sources : List (String × String)}
    (h : addSources { settings } sources = .ok ws) : Unbuilt settings ws :=
  Unbuilt.addSources ⟨rfl, rfl, rfl, rfl, rfl, rfl, by simp⟩ h

/-- The workspace in which the root is about to be compiled. -/
def withRoot (ws : Workspace) : Workspace :=
  { ws with
    routines := ws.routines.insert ws.settings.rootPath (.ofRoot ws.settings.rootPath) }

theorem Unbuilt.get?_withRoot (h : Unbuilt settings ws) (q : Path) :
    ws.withRoot.routines.get? q =
      if q = settings.rootPath then some (.ofRoot settings.rootPath) else none := by
  rw [withRoot, Table.get?_insert, h.routines, h.settings]
  rfl

theorem Unbuilt.found_root (h : Unbuilt settings ws) :
    ws.withRoot.routines.get? settings.rootPath = some (.ofRoot settings.rootPath) := by
  rw [h.get?_withRoot, if_pos rfl]

theorem Unbuilt.only_root (h : Unbuilt settings ws) {q : Path} {r : Routine}
    (found : ws.withRoot.routines.get? q = some r) :
    q = settings.rootPath ∧ r = .ofRoot settings.rootPath := by
  rw [h.get?_withRoot] at found
  split at found
  · next same => exact ⟨same, (Option.some.inj found).symm⟩
  · cases found

theorem Unbuilt.orderly_withRoot (h : Unbuilt settings ws) : ws.withRoot.Orderly := by
  constructor
  · intro q r found
    obtain ⟨rfl, rfl⟩ := h.only_root found
    rfl
  · intro q r found
    obtain ⟨rfl, -⟩ := h.only_root found
    change Path.Below ws.settings.root _
    rw [h.settings]
    exact Path.below_root
  · intro q r found defined
    obtain ⟨-, rfl⟩ := h.only_root found
    cases defined
  · exact h.trimmed

theorem Unbuilt.register_root (h : Unbuilt settings ws) :
    ws.register (.ofRoot ws.settings.rootPath) = .ok ws.withRoot := by
  rw [register_eq_ok]
  refine ⟨?_, rfl⟩
  rw [h.routines]
  rfl

/-- Compiling succeeds only by compiling the root. -/
theorem Unbuilt.gives_compile (h : Unbuilt settings ws) (compiled : ws.compile = (.ok (), final)) :
    ∃ limit, WorkM.Gives (Lowering.compile limit settings.rootPath none) ws.withRoot () final := by
  rw [compile, h.register_root] at compiled
  simp only [compileRoutine, h.settings] at compiled
  refine ⟨ws.withRoot.nesting, ?_⟩
  unfold WorkM.Gives
  split at compiled
  · next hcompile =>
    cases compiled
    exact hcompile
  · cases compiled

/-- After a compilation the root and every compiled definition hold the scripts of their
lines. -/
theorem Unbuilt.compile_coded (h : Unbuilt settings ws) (compiled : ws.compile = (.ok (), final))
    (R : Regime) (holds : R.Holds ws.withRoot) :
    final.settings = settings ∧ final.lines = ws.lines ∧
    ∃ script root, Script.Reads 0 ws.lines script ∧
      final.routines.get? settings.rootPath = some root ∧
      root.origin = (Routine.ofRoot settings.rootPath).origin ∧
      (script.All R.Text R.Test → R.Holds final ∧ Coded R.dialect final root ∧
        DefsCoded R.dialect (fun _ => False) final) := by
  obtain ⟨limit, hcompile⟩ := h.gives_compile compiled
  obtain ⟨script, root, used, reads, laid, foundRoot, origin, _⟩ :=
    Lowering.compile_sound (R := R) limit hcompile h.orderly_withRoot h.found_root nofun nofun
  refine ⟨laid.grows.settings.trans h.settings, laid.grows.lines, script, root, reads, foundRoot,
    origin, fun all => ?_⟩
  obtain ⟨_, _, _, _, code⟩ := laid.code
  obtain ⟨holds', defs, _⟩ := code holds all
  refine ⟨holds', laid.coded reads origin holds all, ?_⟩
  have initial : DefsCoded R.dialect (· = settings.rootPath) ws.withRoot := by
    intro q r found defined
    obtain ⟨-, rfl⟩ := h.only_root found
    cases defined
  intro q r foundDef defined compiledDef _
  refine defs (· = settings.rootPath) rfl initial q r foundDef defined compiledDef ?_
  rintro rfl
  rw [foundRoot] at foundDef
  cases foundDef
  rw [Routine.kind_of_origin origin] at defined
  cases defined

end Workspace

end CommandPack
