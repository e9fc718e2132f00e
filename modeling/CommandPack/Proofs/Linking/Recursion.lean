import CommandPack.Proofs.Linking.Moves

/-!
# Replacing calls without end

A call to a routine with one command is replaced by that command, which may be a call again. So the
callees of a line form a chain. Linking gives a line up once it has replaced more calls than there
are routines. That happens if and only if the chain comes to some routine twice, and then the chain
has no end.
-/

namespace CommandPack

open CallMark

/-- The mark of a line, if it has one, carries no string arguments. -/
def CallMark.Argless (line : String) : Prop :=
  ∀ found ∈ find? line, found.mark.arguments = []

instance (line : String) : Decidable (Argless line) := by
  unfold Argless
  infer_instance

/-- The routine that the mark of a line leads to. -/
def CallMark.target? (line : String) : Option Path :=
  (find? line).map (·.mark.target)

namespace Workspace

/-- No command of a routine carries string arguments in its mark. -/
def Argless (ws : Workspace) : Prop :=
  ∀ r ∈ ws.routines.values, ∀ command ∈ r.commands,
    CallMark.Argless (command.render ws.settings.pack)

instance (ws : Workspace) : Decidable ws.Argless := by
  unfold Argless
  infer_instance

/-- The command of a routine that has only one. -/
def single? (ws : Workspace) (path : Path) : Option Command :=
  (ws.routines.get? path).bind fun r =>
    match r.commands with
    | [single] => some single
    | _ => none

/-- The callee that the only command of a routine leads to. -/
def next? (ws : Workspace) (path : Path) : Option Path :=
  (ws.single? path).bind fun single => target? (single.render ws.settings.pack)

/-- The callees that replacing the call of a line comes to, one after the other. -/
def chain (ws : Workspace) (line : String) : Nat → Option Path
  | 0 => target? line
  | n + 1 => (chain ws line n).bind ws.next?

/-- The callees of a line come to some routine twice. -/
def Repeats (ws : Workspace) (line : String) : Prop :=
  ∃ i j, i < j ∧ ws.chain line i ≠ none ∧ ws.chain line i = ws.chain line j

variable {ws : Workspace} {line : String} {i j m n : Nat}

theorem single?_eq_some {path : Path} {single : Command} :
    ws.single? path = some single ↔
      ∃ r, ws.routines.get? path = some r ∧ r.commands = [single] := by
  unfold single?
  rw [Option.bind_eq_some_iff]
  refine exists_congr fun r => and_congr_right fun _ => ?_
  split
  · next same => simp [same]
  · next other =>
    simp only [reduceCtorEq, false_iff]
    exact other single

/-- The chain of a line goes on with the chain of the command that replaces its call. -/
theorem chain_succ (ws : Workspace) (line : String) (n : Nat) :
    ws.chain line (n + 1) = (target? line).bind fun path =>
      (ws.single? path).bind fun single => ws.chain (single.render ws.settings.pack) n := by
  induction n with
  | zero => rfl
  | succ n ih =>
    rw [chain, ih, Option.bind_assoc]
    refine congrArg _ (funext fun path => ?_)
    rw [Option.bind_assoc]
    rfl

theorem chain_ne_none_of_le (some' : ws.chain line n ≠ none) (le : m ≤ n) :
    ws.chain line m ≠ none := by
  induction n with
  | zero => rwa [Nat.le_zero.1 le]
  | succ n ih =>
    rcases Nat.le_succ_iff.1 le with earlier | rfl
    · refine ih (fun ended => some' ?_) earlier
      rw [chain, ended]
      rfl
    · exact some'

theorem chain_add_congr (same : ws.chain line i = ws.chain line j) (n : Nat) :
    ws.chain line (i + n) = ws.chain line (j + n) := by
  induction n with
  | zero => exact same
  | succ n ih => rw [← Nat.add_assoc, ← Nat.add_assoc, chain, chain, ih]

/-- A chain that comes to a routine twice goes round for ever. -/
theorem Repeats.endless (h : ws.Repeats line) (n : Nat) : ws.chain line n ≠ none := by
  obtain ⟨i, j, lt, some', same⟩ := h
  induction n using Nat.strongRecOn with
  | ind n ih =>
    by_cases early : n ≤ j
    · exact chain_ne_none_of_le (same ▸ some') early
    · -- behind the second visit the chain repeats what comes behind the first one
      have again := chain_add_congr same (n - j)
      rw [Nat.add_sub_cancel' (Nat.le_of_not_le early)] at again
      rw [← again]
      exact ih _ (by omega)

/-- A routine that a chain goes on behind is registered. -/
theorem mem_keys_of_next? {path : Path} (goesOn : ws.next? path ≠ none) :
    path ∈ ws.routines.keys := by
  cases only : ws.single? path with
  | none => simp [next?, only] at goesOn
  | some single =>
    obtain ⟨r, found, -⟩ := single?_eq_some.1 only
    exact Table.mem_keys_iff.2 ⟨r, found⟩

/-- A chain with more callees than there are routines comes to one of them twice. -/
theorem repeats_of_long (long : ws.chain line (ws.routines.size + 1) ≠ none) :
    ws.Repeats line := by
  have known : ∀ i ∈ Finset.range (ws.routines.size + 1),
      ws.chain line i ∈ (ws.routines.keys.map some).toFinset := by
    intro i mem
    have goesOn : ws.chain line (i + 1) ≠ none :=
      chain_ne_none_of_le long (Finset.mem_range.1 mem)
    rw [chain] at goesOn
    cases here : ws.chain line i with
    | none => simp [here] at goesOn
    | some =>
      rw [here] at goesOn
      rw [List.mem_toFinset]
      exact List.mem_map_of_mem (mem_keys_of_next? goesOn)
  have fewer : (ws.routines.keys.map some).toFinset.card <
      (Finset.range (ws.routines.size + 1)).card := by
    have count := (ws.routines.keys.map some).toFinset_card_le
    rw [List.length_map, Table.length_keys] at count
    rw [Finset.card_range]
    omega
  obtain ⟨i, memI, j, memJ, ne, same⟩ :=
    Finset.exists_ne_map_eq_of_card_lt_of_maps_to fewer known
  have visits {k : Nat} (mem : k ∈ Finset.range (ws.routines.size + 1)) :
      ws.chain line k ≠ none := chain_ne_none_of_le long (Finset.mem_range.1 mem).le
  rcases Nat.lt_or_gt_of_ne ne with before | after
  · exact ⟨i, j, before, visits memI, same⟩
  · exact ⟨j, i, after, visits memJ, same.symm⟩

theorem argless_of_get? (argless : ws.Argless) {path : Path} {r : Routine} {command : Command}
    (found : ws.routines.get? path = some r) (mem : command ∈ r.commands) :
    CallMark.Argless (command.render ws.settings.pack) :=
  argless r (List.mem_map.2 ⟨_, (Table.get?_eq_some_iff ..).1 found, rfl⟩) command mem

end Workspace

namespace Linking

open Workspace

variable {st : LinkState} {line : String} {limit depth : Nat}

/-- Resolving a line ends because too many calls have been replaced. -/
def GivesUp (limit depth : Nat) (line : String) (st : LinkState) : Prop :=
  ∃ name st', WorkM.Fails (resolve limit depth line) st (.fault { cause := .recursion name }) st'

theorem gives_callee_of_argless {found : Found} (none : found.mark.arguments = []) :
    WorkM.Gives (callee found.mark) st found.mark.target st := by
  rw [callee, if_pos none]
  exact WorkM.gives_pure.2 ⟨rfl, rfl⟩

theorem givesUp_of_deep {found : Found} (marked : find? line = some found)
    (deep : st.ws.routines.size < depth) : GivesUp (limit + 1) depth line st := by
  refine ⟨found.mark.target.artifact, st, ?_⟩
  rw [resolve_of_find? marked]
  simp only [WorkM.fails_bind, WorkM.gives_get]
  refine .inr ⟨st, st, ⟨rfl, rfl⟩, ?_⟩
  rw [if_pos deep]
  exact WorkM.fails_onWorkspace.2 ⟨st.ws, WorkM.fails_fail.2 ⟨rfl, rfl⟩, rfl⟩

/-- Resolving gives a line up where its chain comes to a callee too deep down. -/
theorem givesUp_iff (argless : st.ws.Argless) (arglessLine : CallMark.Argless line) :
    GivesUp limit depth line st ↔
      ∃ k < limit, st.ws.routines.size < depth + k ∧ st.ws.chain line k ≠ none := by
  induction limit generalizing depth line with
  | zero =>
    simp only [Nat.not_lt_zero, false_and, exists_false, iff_false]
    rintro ⟨name, st', failed⟩
    cases (WorkM.fails_throw.1 failed).1
  | succ limit ih =>
    constructor
    · rintro ⟨name, st', failed⟩
      cases trouble_of_fails failed with
      | deep marked deep =>
        exact ⟨0, Nat.succ_pos _, deep, by simp [chain, CallMark.target?, marked]⟩
      | variant marked _ some' => exact absurd (arglessLine _ marked) some'
      | @inside found target _ st' r single _ marked _ called known commands inside =>
        have none := arglessLine found marked
        rw [callee, if_pos none] at called
        obtain ⟨rfl, rfl⟩ := WorkM.gives_pure.1 called
        have arglessSingle :=
          argless_of_get? argless known (commands ▸ List.mem_singleton_self single)
        obtain ⟨k, lt, deep, goesOn⟩ := (ih arglessSingle).1 ⟨name, st', inside⟩
        refine ⟨k + 1, Nat.succ_lt_succ lt, by omega, ?_⟩
        have only := single?_eq_some.2 ⟨r, known, commands⟩
        rwa [chain_succ, CallMark.target?, marked, Option.map_some, Option.bind_some, only,
          Option.bind_some]
    · rintro ⟨k, lt, deep, goesOn⟩
      have first := chain_ne_none_of_le goesOn (Nat.zero_le k)
      rw [chain, CallMark.target?, ne_eq, Option.map_eq_none_iff] at first
      obtain ⟨found, marked⟩ := Option.ne_none_iff_exists'.1 first
      rcases Nat.lt_or_ge st.ws.routines.size depth with here | shallow
      · exact givesUp_of_deep marked here
      · obtain ⟨k, rfl⟩ : ∃ k', k = k' + 1 := Nat.exists_eq_succ_of_ne_zero (by omega)
        rw [chain_succ, CallMark.target?, marked, Option.map_some, Option.bind_some] at goesOn
        cases only : st.ws.single? found.mark.target with
        | none => simp [only] at goesOn
        | some single =>
          rw [only, Option.bind_some] at goesOn
          obtain ⟨r, known, commands⟩ := single?_eq_some.1 only
          have arglessSingle :=
          argless_of_get? argless known (commands ▸ List.mem_singleton_self single)
          have inside : GivesUp limit (depth + 1) (single.render st.ws.settings.pack) st :=
            (ih arglessSingle).2 ⟨k, Nat.lt_of_succ_lt_succ lt, by omega, goesOn⟩
          obtain ⟨name, st', inside⟩ := inside
          exact ⟨name, st', fails_of_inside marked shallow
            (gives_callee_of_argless (arglessLine found marked)) known commands inside⟩

/-- In a workspace without string arguments, and with steps enough, resolving gives up exactly the
lines whose callees come to some routine twice, and these are the lines whose chain of callees has
no end. -/
theorem resolve_gives_up_iff_repeats (st : LinkState) (line : String) (limit : Nat)
    (argless : st.ws.Argless) (arglessLine : CallMark.Argless line)
    (enough : st.ws.routines.size + 2 ≤ limit) :
    (GivesUp limit 0 line st ↔ st.ws.Repeats line) ∧
      (st.ws.Repeats line ↔ ∀ n, st.ws.chain line n ≠ none) := by
  have endless : st.ws.Repeats line ↔ ∀ n, st.ws.chain line n ≠ none :=
    ⟨Repeats.endless, fun h => repeats_of_long (h _)⟩
  refine ⟨?_, endless⟩
  rw [givesUp_iff argless arglessLine]
  constructor
  · rintro ⟨k, -, deep, goesOn⟩
    exact repeats_of_long (chain_ne_none_of_le goesOn (by omega))
  · intro h
    exact ⟨st.ws.routines.size + 1, by omega, by omega, h.endless _⟩

/-- Two routines that stand for each other, and one that stands for the first of them. -/
def roundabout : LinkState where
  ws :=
    { routines := .ofList (
        [("a", "b"), ("b", "a"), ("c", "a")].map fun (name, other) =>
          (⟨["main", name]⟩,
            { path := ⟨["main", name]⟩, kind := .defined, start := 0, depth := 1,
              owner := ⟨["main", name]⟩, commands := [.invoke [] ⟨⟨["main", other]⟩, []⟩] })) }
  queue := []

theorem resolve_gives_up_iff_repeats_roundabout :
    roundabout.ws.Argless ∧ CallMark.Argless "execute as @a run !f\x7bmain.c\x7d" ∧
      GivesUp 5 0 "execute as @a run !f\x7bmain.c\x7d" roundabout := by
  have argless : roundabout.ws.Argless := by decide +kernel
  have arglessLine : CallMark.Argless "execute as @a run !f\x7bmain.c\x7d" := by decide +kernel
  refine ⟨argless, arglessLine, (resolve_gives_up_iff_repeats _ _ 5 argless arglessLine ?_).1.2 ?_⟩
  · decide +kernel
  · exact ⟨1, 3, by decide, by decide +kernel, by decide +kernel⟩

end Linking

end CommandPack
