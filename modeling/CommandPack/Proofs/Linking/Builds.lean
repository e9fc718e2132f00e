import CommandPack.Proofs.Linking.Disciplines
import CommandPack.Proofs.Linking.Packs

/-!
# Builds

A successful build reads the sources, compiles them and links what was compiled. Its history keeps
the workspaces in between and the lines that are compiled on the way, those of variants included.
-/

namespace CommandPack

open Workspace Linking

/-- How a pack was built. -/
structure Pack.History (limit : Nat) (settings : Settings) (sources : List (String × String))
    (pack : Pack) where
  read : Workspace
  compiled : Workspace
  linked : LinkState
  final : Workspace
  /-- The lines that compiling comes to. -/
  compiling : List Visit
  /-- The lines that linking compiles for variants. -/
  linking : List Visit
  /-- The routines in the order in which they are linked. -/
  rounds : List (Path × List LinkedLine)
  reads : addSources { settings } sources = .ok read
  compiles : read.compile = (.ok (), compiled)
  ran : Ran (.routine settings.rootPath none) ({}, read.withRoot) compiling ({}, compiled)
  runs : WorkM.Gives (run limit) compiled.linkState () linked
  links : Rounds compiled.linkState linking rounds linked
  preludes : linked.ws.prune.unshield.addPrelude = .ok final
  packs : pack = Pack.ofWorkspace final

namespace Pack

variable {limit : Nat} {settings : Settings} {sources : List (String × String)} {pack : Pack}

theorem build_eq_ok : Pack.build limit settings sources = .ok pack ↔
    ∃ read compiled final, addSources { settings } sources = .ok read ∧
      read.compile = (.ok (), compiled) ∧ compiled.link limit = (.ok pack, final) := by
  unfold build
  constructor
  · intro built
    split at built
    · cases built
    · next read reads =>
      split at built
      · cases built
      · next compiled compiles =>
        exact ⟨read, compiled, _, reads, compiles, Prod.ext built rfl⟩
  · rintro ⟨read, compiled, final, reads, compiles, linked⟩
    rw [reads]
    simp only [compiles, linked]

/-- Every pack has a history. -/
theorem exists_history (built : Pack.build limit settings sources = .ok pack) :
    Nonempty (Pack.History limit settings sources pack) := by
  obtain ⟨read, compiled, final, reads, compiles, linking⟩ := build_eq_ok.1 built
  have unbuilt := unbuilt_of_addSources reads
  obtain ⟨compiling, ran⟩ := unbuilt.ran compiles
  obtain ⟨linked, runs, preludes, packs⟩ := link_eq_ok linking
  obtain ⟨-, housed⟩ := ran.housed unbuilt.housed_withRoot (by rintro _ ⟨⟩)
  obtain ⟨visits, rounds, links⟩ := traced_run (LinkState.Tidy.linkState housed) runs
  exact ⟨⟨read, compiled, linked, final, compiling, visits, rounds, reads, compiles, ran, runs, links,
    preludes, packs⟩⟩

end Pack

namespace Workspace

variable {ws final : Workspace}

/-- Linking fails while it runs, or for want of a slot. -/
theorem link_eq_error {limit : Nat} {halt : Halt} (failed : ws.link limit = (.error halt, final)) :
    (∃ st, WorkM.Fails (run limit) ws.linkState halt st) ∨
      ∃ text, halt = .fault { cause := .internal text } := by
  unfold link at failed
  split at failed
  · next stop st stuck =>
    cases failed
    exact .inl ⟨st, stuck⟩
  · next st _ =>
    simp only [addPrelude] at failed
    split at failed
    · next missing =>
      cases failed
      split at missing
      · cases missing
      · rcases st.ws.prune.unshield.prelude_cases with ⟨_, _, -, -, made⟩ | ⟨-, text, stuck⟩
        · rw [made] at missing
          cases missing
        · rw [stuck] at missing
          cases missing
          exact .inr ⟨text, rfl⟩
    · cases failed

theorem slots_prune_unshield : ws.prune.unshield.slots = ws.slots := by
  simp only [unshield, prune]
  split <;> rfl

theorem starts_prune_unshield : ws.prune.unshield.starts = ws.starts := by
  simp only [unshield, prune]
  split <;> rfl

theorem addPrelude_frame (added : ws.addPrelude = .ok final) :
    final.slots = ws.slots ∧ final.settings = ws.settings ∧ final.starts = ws.starts := by
  have ensured : ws.ensureLoad.slots = ws.slots ∧ ws.ensureLoad.settings = ws.settings ∧
      ws.ensureLoad.starts = ws.starts := by
    unfold ensureLoad
    split <;> exact ⟨rfl, rfl, rfl⟩
  unfold addPrelude at added
  split at added
  · cases added
    exact ⟨rfl, rfl, rfl⟩
  · simp only [bind, Except.bind] at added
    split at added
    · cases added
    · cases added
      exact ensured

end Workspace

namespace Pack.History

variable {limit : Nat} {settings : Settings} {sources : List (String × String)} {pack : Pack}

/-- The workspaces at all lines that a build compiles, in the order of time. -/
def moments (history : Pack.History limit settings sources pack) : List Workspace :=
  (history.compiling ++ history.linking).map Visit.ws

theorem unbuilt (history : Pack.History limit settings sources pack) :
    Unbuilt settings history.read :=
  unbuilt_of_addSources history.reads

/-- The linked workspace is in order. -/
theorem housed (history : Pack.History limit settings sources pack) :
    history.linked.ws.Housed ∧ history.linked.ws.settings = settings := by
  obtain ⟨develops, housed⟩ := history.ran.housed history.unbuilt.housed_withRoot (by rintro _ ⟨⟩)
  obtain ⟨tidy, progress, -⟩ := tidy_of_run (.linkState housed) history.runs
  exact ⟨tidy.housed, progress.settings.trans (develops.settings.trans history.unbuilt.settings)⟩

/-- The slots of a pack are those of the linked workspace. -/
theorem slots_eq (history : Pack.History limit settings sources pack) :
    pack.slots = history.linked.ws.slots :=
  calc
    pack.slots = history.final.slots := congrArg Pack.slots history.packs
    _ = history.linked.ws.prune.unshield.slots := (addPrelude_frame history.preludes).1
    _ = history.linked.ws.slots := slots_prune_unshield

/-- A pack is named by the settings. -/
theorem names (history : Pack.History limit settings sources pack) :
    pack.name = settings.pack ∧ pack.root = settings.root := by
  have same : history.final.settings = settings :=
    calc
      history.final.settings = history.linked.ws.prune.unshield.settings :=
        (addPrelude_frame history.preludes).2.1
      _ = history.linked.ws.settings := prune_unshield_frame.1
      _ = settings := history.housed.2
  exact ⟨(congrArg Pack.name history.packs).trans (congrArg Settings.pack same),
    (congrArg Pack.root history.packs).trans (congrArg Settings.root same)⟩

/-- A discipline of linking that holds when a build starts holds until its end. -/
theorem disciplined (history : Pack.History limit settings sources pack) {D : Discipline}
    (links : D.Links) (holds : D.Holds history.read.withRoot) :
    D.Sound history.compiled ∧ D.Sound history.linked.ws ∧
      D.Course history.read.withRoot (history.compiling ++ history.linking) history.linked.ws := by
  obtain ⟨sound, -, -, course⟩ :=
    history.ran.disciplined D (history.unbuilt.ready D holds ⟨nofun, nofun, nofun⟩)
  have linked := Discipline.Linked.rounds links history.links sound
  exact ⟨sound, linked.sound, course.trans linked.course⟩

end Pack.History

/-- Each workspace of a course is followed by all later ones. -/
theorem Discipline.Course.pairwise {D : Discipline} {ws ws' : Workspace} {visits : List Visit}
    (h : D.Course ws visits ws') :
    (ws :: (visits.map Visit.ws ++ [ws'])).Pairwise D.Follows := by
  induction h with
  | done follows => simpa using follows
  | visit follows _ ih =>
    refine List.pairwise_cons.2 ⟨fun after mem => ?_, ih⟩
    rcases List.mem_cons.1 mem with rfl | mem
    · exact follows
    · exact follows.trans ((List.pairwise_cons.1 ih).1 after mem)

end CommandPack
