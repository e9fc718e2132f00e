import CommandPack.Linking.Link
import CommandPack.Proofs.Linking.Actions
import CommandPack.Proofs.Linking.Marks
import CommandPack.Proofs.Lowering.Step

/-!
# Resolving keeps actions

Lines are read as instructions before and after linking. A line that linking is finished with does
what the line before it was to do, and it has no marks. What linking has done to a line can be read
off its success.
-/

namespace CommandPack

open Linking CallMark WorkM Shield

/-! ### Readings -/

/-- What a line of a pack does. A context may stand in front of a command or of a call by name. -/
inductive ReadsNamed (pack : String) : String → Instr String → Prop
  | inert {line : String} (inert : isInert line = true) : ReadsNamed pack line .quiet
  | command {context command : String} (active : isInert (context ++ command) = false) :
      ReadsNamed pack (context ++ command) (.act context command)
  | call {context name : String}
      (active : isInert (context ++ ("function " ++ pack ++ ":" ++ name)) = false) :
      ReadsNamed pack (context ++ ("function " ++ pack ++ ":" ++ name)) (.call context name)

/-- A line that linking is finished with. It is still shielded. -/
structure Settled (pack line : String) (out : Instr String) : Prop where
  reads : ReadsNamed pack (remove line) out
  inert : out = .quiet → isInert line = true
  unmarked : Unmarked line

/-- A line that linking is finished with does what the instruction is to do. -/
def Resolved (pack : String) (code : Listing Path) (kept : Path → Prop) (line : String)
    (instr : Instr Path) : Prop :=
  ∃ out, Inlined remove Path.artifact code kept instr out ∧ Settled pack line out

section Lines

variable {pack line : String} {code : Listing Path} {kept kept' : Path → Prop}
  {instr : Instr Path} {out : Instr String}

theorem Resolved.mono (grows : ∀ target, kept target → kept' target)
    (h : Resolved pack code kept line instr) : Resolved pack code kept' line instr := by
  obtain ⟨out, inlined, settled⟩ := h
  exact ⟨out, inlined.mono grows, settled⟩

namespace Settled

theorem of_inert (inert : isInert line = true) (unmarked : Unmarked line) :
    Settled pack line .quiet :=
  ⟨.inert (isInert_remove inert), fun _ => inert, unmarked⟩

/-- Only inert lines are read as doing nothing. -/
theorem eq_quiet (h : Settled pack line out) (inert : isInert line = true) : out = .quiet := by
  have inert' := isInert_remove inert
  obtain ⟨reads, -, -⟩ := h
  generalize hline : remove line = text at reads inert'
  cases reads with
  | inert => rfl
  | command active => exact absurd inert' (by rw [active]; decide)
  | call active => exact absurd inert' (by rw [active]; decide)

/-- A settled line behind a context is settled. -/
theorem under {context other : String} (isContext : IsContext context)
    (active : isInert (remove (context ++ other)) = false) (h : Settled pack line out)
    (activeLine : isInert line = false) :
    Settled pack (context ++ line) (out.under (remove context)) := by
  have some' : out ≠ .quiet := fun quiet => by
    rw [h.inert quiet] at activeLine
    cases activeLine
  obtain ⟨reads, -, unmarked⟩ := h
  generalize hline : remove line = text at reads
  cases reads with
  | inert => exact absurd rfl some'
  | @command _ command activeText =>
    have active' := isContext.active_append active (hline ▸ activeText)
    refine ⟨?_, by rintro ⟨⟩, isContext.unmarked_append unmarked⟩
    rw [remove_append, hline, ← String.append_assoc] at active' ⊢
    exact .command active'
  | call activeText =>
    have active' := isContext.active_append active (hline ▸ activeText)
    refine ⟨?_, by rintro ⟨⟩, isContext.unmarked_append unmarked⟩
    rw [remove_append, hline, ← String.append_assoc] at active' ⊢
    exact .call active'

/-- A call by name behind a context is settled. -/
theorem call {context other : String} {target : Path} (isContext : IsContext context)
    (active : isInert (remove (context ++ other)) = false)
    (unmarked : Unmarked pack) (free : '\x01' ∉ Text.chars pack) (plain : target.Plain) :
    Settled pack (context ++ callText pack target)
      (.call (remove context) target.artifact) := by
  have activeCall : isInert (remove (callText pack target)) = false := by
    rw [remove_callText free plain, callText, String.append_assoc, String.append_assoc,
      isInert_append (by decide)]
    decide
  have active' := isContext.active_append active activeCall
  refine ⟨?_, by rintro ⟨⟩, isContext.unmarked_append (unmarked_callText unmarked plain)⟩
  rw [remove_append, remove_callText free plain] at active' ⊢
  exact .call active'

end Settled

end Lines

/-! ### Successful steps of linking -/

namespace LinkM

variable {α : Type} {st st' : LinkState} {a : α}

@[simp]
theorem gives_onWorkspace {step : WorkM α} :
    Gives (onWorkspace step) st a st' ↔
      ∃ ws, Gives step st.ws a ws ∧ st' = { st with ws } := by
  unfold Gives onWorkspace
  cases step st.ws with
  | ok b ws =>
    simp only [EStateM.Result.ok.injEq]
    constructor
    · rintro ⟨rfl, rfl⟩
      exact ⟨ws, ⟨rfl, rfl⟩, rfl⟩
    · rintro ⟨_, ⟨rfl, rfl⟩, rfl⟩
      exact ⟨rfl, rfl⟩
  | error => simp

@[simp]
theorem gives_locate {path : Path} {step : LinkM α} :
    Gives (Linking.locate path step) st a st' ↔ Gives step st a st' := by
  unfold Gives Linking.locate
  cases step st <;> simp

end LinkM

/-- A line that linking leaves as it is. -/
structure Steady (line : String) : Prop where
  unmarked : find? line = none
  unheld : Placeholder.find? line = none

/-- A line that calls a routine by its name in place of the mark. -/
def CallMark.Found.calling (found : Found) (pack : String) (target : Path) : String :=
  found.before ++ callText pack target ++ found.after

/-- A line that has another one in place of the mark, if that does something. -/
def CallMark.Found.inlining (found : Found) (pack : String) (target : Path)
    (replaced : String) : String :=
  if isInert replaced then skipped (found.calling pack target)
  else found.before ++ replaced ++ found.after

namespace Linking

/-- The routine that a mark leads to. -/
def callee (mark : CallMark) : LinkM Path :=
  if mark.arguments = [] then pure mark.target else variantFor mark.target mark.arguments

/-- Puts the final text in place of a mark that leads to a routine with the commands given. -/
def place (limit depth : Nat) (found : Found) (target : Path) (pack : String) :
    List Command → LinkM String
  | [] => return skipped (found.calling pack target)
  | [single] => do
    let replaced ← resolve limit (depth + 1) (single.render pack)
    if isInert replaced then
      return skipped (found.calling pack target)
    else
      return found.before ++ replaced ++ found.after
  | _ => do
    keep target
    return found.calling pack target

/-- A mark is placed after its routine has been determined. -/
theorem resolve_of_find? {limit depth : Nat} {line : String} {found : Found}
    (marked : find? line = some found) : resolve (limit + 1) depth line = (do
      if (← get).ws.routines.size < depth then
        onWorkspace (WorkM.fail (.recursion found.mark.target.artifact))
      else
        let target ← callee found.mark
        let routine ← onWorkspace (WorkM.routine target)
        place limit depth found target (← get).ws.settings.pack routine.commands) := by
  rw [resolve, marked]
  refine bind_congr fun st => ?_
  unfold callee
  split
  · rfl
  · split <;> refine bind_congr fun target => bind_congr fun routine => bind_congr fun st => ?_
    all_goals rcases routine.commands with _ | ⟨single, _ | ⟨second, rest⟩⟩ <;> rfl

/-- What resolving one line has done. -/
inductive Answer (limit depth : Nat) (line : String) (st : LinkState) : String → LinkState → Prop
  | steady (steady : Steady line) : Answer limit depth line st line st
  | empty {found : Found} {target : Path} {mid : LinkState} {r : Routine}
      (marked : find? line = some found) (shallow : depth ≤ st.ws.routines.size)
      (called : Gives (callee found.mark) st target mid)
      (known : mid.ws.routines.get? target = some r) (commands : r.commands = []) :
      Answer limit depth line st (skipped (found.calling mid.ws.settings.pack target)) mid
  | single {found : Found} {target : Path} {mid st' : LinkState} {r : Routine}
      {single : Command} {replaced : String} (marked : find? line = some found)
      (shallow : depth ≤ st.ws.routines.size)
      (called : Gives (callee found.mark) st target mid)
      (known : mid.ws.routines.get? target = some r) (commands : r.commands = [single])
      (inside : Gives (resolve limit (depth + 1) (single.render mid.ws.settings.pack)) mid
        replaced st') :
      Answer limit depth line st (found.inlining mid.ws.settings.pack target replaced) st'
  | call {found : Found} {target : Path} {mid st' : LinkState} {r : Routine}
      (marked : find? line = some found) (shallow : depth ≤ st.ws.routines.size)
      (called : Gives (callee found.mark) st target mid)
      (known : mid.ws.routines.get? target = some r) (commands : 1 < r.commands.length)
      (kept : Gives (keep target) mid () st') :
      Answer limit depth line st (found.calling mid.ws.settings.pack target) st'

variable {limit depth : Nat} {line line' : String} {st st' mid : LinkState}

theorem gives_resolve : WorkM.Gives (resolve (limit + 1) depth line) st line' st' ↔
    Answer limit depth line st line' st' := by
  constructor
  · intro given
    cases marked : find? line with
    | none =>
      rw [resolve, marked] at given
      cases unheld : Placeholder.find? line with
      | some => simp [unheld] at given
      | none =>
        simp only [unheld, WorkM.gives_pure] at given
        obtain ⟨rfl, rfl⟩ := given
        exact .steady ⟨marked, unheld⟩
    | some =>
      rw [resolve_of_find? marked] at given
      simp only [WorkM.gives_bind, WorkM.gives_get] at given
      obtain ⟨_, _, ⟨rfl, rfl⟩, given⟩ := given
      split at given
      · simp at given
      · next shallow =>
        have shallow := Nat.le_of_not_lt shallow
        simp only [WorkM.gives_bind, LinkM.gives_onWorkspace, WorkM.gives_routine,
          WorkM.gives_get] at given
        obtain ⟨target, mid, called, r, _, ⟨_, ⟨known, rfl⟩, rfl⟩, _, _, ⟨rfl, rfl⟩, given⟩ :=
          given
        rcases commands : r.commands with _ | ⟨single, _ | ⟨second, rest⟩⟩
        · rw [commands, place] at given
          obtain ⟨rfl, rfl⟩ := WorkM.gives_pure.1 given
          exact .empty marked shallow called known commands
        · rw [commands, place] at given
          obtain ⟨replaced, _, inside, given⟩ := WorkM.gives_bind.1 given
          rw [← apply_ite pure] at given
          obtain ⟨rfl, rfl⟩ := WorkM.gives_pure.1 given
          exact .single marked shallow called known commands inside
        · rw [commands] at given
          obtain ⟨_, _, kept, given⟩ := WorkM.gives_bind.1 given
          obtain ⟨rfl, rfl⟩ := WorkM.gives_pure.1 given
          exact .call marked shallow called known (by simp [commands]) kept
  · intro answer
    have placed {found : Found} {target : Path} {mid : LinkState} {r : Routine}
        (marked : find? line = some found) (shallow : depth ≤ st.ws.routines.size)
        (called : WorkM.Gives (callee found.mark) st target mid)
        (known : mid.ws.routines.get? target = some r)
        (given : WorkM.Gives (place limit depth found target mid.ws.settings.pack r.commands) mid
          line' st') : WorkM.Gives (resolve (limit + 1) depth line) st line' st' := by
      rw [resolve_of_find? marked]
      refine WorkM.gives_bind.2 ⟨st, st, WorkM.gives_get.2 ⟨rfl, rfl⟩, ?_⟩
      rw [if_neg (Nat.not_lt.2 shallow)]
      simp only [WorkM.gives_bind, LinkM.gives_onWorkspace, WorkM.gives_routine, WorkM.gives_get]
      exact ⟨target, mid, called, r, mid, ⟨_, ⟨known, rfl⟩, rfl⟩, mid, mid, ⟨rfl, rfl⟩, given⟩
    cases answer with
    | steady steady => simp [resolve, steady.unmarked, steady.unheld]
    | empty marked shallow called known commands =>
      refine placed marked shallow called known ?_
      rw [commands]
      exact WorkM.gives_pure.2 ⟨rfl, rfl⟩
    | single marked shallow called known commands inside =>
      refine placed marked shallow called known ?_
      rw [commands]
      refine WorkM.gives_bind.2 ⟨_, _, inside, ?_⟩
      rw [← apply_ite pure]
      exact WorkM.gives_pure.2 ⟨rfl, rfl⟩
    | @call _ _ _ _ r marked shallow called known commands kept =>
      refine placed marked shallow called known ?_
      generalize r.commands = own at commands ⊢
      rcases own with _ | ⟨_, _ | ⟨_, _⟩⟩
      · simp at commands
      · simp at commands
      · exact WorkM.gives_bind.2 ⟨_, _, kept, WorkM.gives_pure.2 ⟨rfl, rfl⟩⟩

end Linking

/-! ### Routines that wait -/

/-- The routines that have been taken from the queue, and those that wait in it. -/
def LinkState.Scheduled (st : LinkState) (path : Path) : Prop :=
  path ∈ st.visited ∨ path ∈ st.queue

namespace Linking

variable {st st' : LinkState} {target : Path}

theorem gives_keep : Gives (keep target) st () st' ↔
    (∃ r, st.ws.routines.get? target = some r) ∧
      st' = enqueue { st with ws := st.ws.updateRoutine target ({ · with used := true }) } target := by
  simp only [keep, gives_bind, LinkM.gives_onWorkspace, gives_updateRoutine,
    gives_modify]
  constructor
  · rintro ⟨_, _, ⟨_, ⟨found, rfl⟩, rfl⟩, rfl⟩
    exact ⟨found, rfl⟩
  · rintro ⟨found, rfl⟩
    exact ⟨(), _, ⟨_, ⟨found, rfl⟩, rfl⟩, rfl⟩

theorem scheduled_enqueue {path : Path} :
    (enqueue st target).Scheduled path ↔ st.Scheduled path ∨ path = target := by
  unfold enqueue LinkState.Scheduled
  split
  · next known =>
    rw [Bool.or_eq_true, decide_eq_true_eq, decide_eq_true_eq] at known
    exact ⟨.inl, fun h => h.elim id fun same => same ▸ known⟩
  · simp only [List.mem_append, List.mem_singleton, or_assoc]

theorem nodup_enqueue (h : (st.visited ++ st.queue).Nodup) :
    ((enqueue st target).visited ++ (enqueue st target).queue).Nodup := by
  unfold enqueue
  split
  · exact h
  · next new =>
    rw [Bool.or_eq_true, decide_eq_true_eq, decide_eq_true_eq, ← List.mem_append] at new
    rw [← List.append_assoc]
    exact List.Nodup.append h (List.nodup_singleton _) (by simpa using new)

end Linking

namespace Workspace

variable {ws : Workspace}

/-- Routines are listed under their paths. -/
theorem map_path_values
    (keyed : ∀ {q : Path} {r : Routine}, ws.routines.get? q = some r → r.path = q) :
    ws.routines.values.map Routine.path = ws.routines.keys := by
  rw [Table.values, Table.keys, List.map_map]
  exact List.map_congr_left fun e mem => keyed ((Table.get?_eq_some_iff ..).2 mem)

/-- At the start the used routines wait. -/
theorem scheduled_linkState
    (keyed : ∀ {q : Path} {r : Routine}, ws.routines.get? q = some r → r.path = q) {path : Path} :
    ws.linkState.Scheduled path ↔ ∃ r, ws.routines.get? path = some r ∧ r.used = true := by
  simp only [LinkState.Scheduled, linkState, List.not_mem_nil, false_or, List.mem_map,
    List.mem_filter, Table.values]
  constructor
  · rintro ⟨r, ⟨⟨⟨key, _⟩, mem, rfl⟩, used⟩, rfl⟩
    have found := (Table.get?_eq_some_iff ..).2 mem
    rw [keyed found]
    exact ⟨_, found, used⟩
  · rintro ⟨r, found, used⟩
    exact ⟨r, ⟨⟨_, (Table.get?_eq_some_iff ..).1 found, rfl⟩, used⟩, keyed found⟩

theorem nodup_linkState
    (keyed : ∀ {q : Path} {r : Routine}, ws.routines.get? q = some r → r.path = q) :
    (ws.linkState.visited ++ ws.linkState.queue).Nodup :=
  (map_path_values keyed ▸ ws.routines.nodup).sublist (List.filter_sublist.map _)

end Workspace

/-! ### Without string parameters -/

/-- No routine has string parameters, and no variants have been made. -/
structure LinkState.Untemplated (st : LinkState) : Prop where
  variants : st.variants = []
  template : ∀ path r, st.ws.routines.get? path = some r → r.template = none

/-- Without templates a mark leads to its target, and there are no variants for strings. -/
theorem Linking.eq_target_of_callee {mark : CallMark} {target : Path} {st mid : LinkState}
    (h : st.Untemplated) (given : Gives (callee mark) st target mid) :
    mark.arguments = [] ∧ target = mark.target ∧ mid = st := by
  unfold callee at given
  split_ifs at given with none
  · exact ⟨none, gives_pure.1 given⟩
  · simp only [variantFor, gives_bind, gives_get] at given
    obtain ⟨_, _, ⟨rfl, rfl⟩, given⟩ := given
    rw [h.variants] at given
    simp only [List.lookup, gives_bind, LinkM.gives_onWorkspace] at given
    obtain ⟨_, _, ⟨_, made, rfl⟩, _⟩ := given
    simp only [makeVariant, gives_bind, gives_routine] at made
    obtain ⟨r, _, ⟨found, rfl⟩, made⟩ := made
    rw [h.template _ r found] at made
    exact (gives_fail.1 made).elim

end CommandPack
