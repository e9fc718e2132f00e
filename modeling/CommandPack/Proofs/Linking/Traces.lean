import CommandPack.Proofs.Linking.Variants

/-!
# Traces of linking

A successful linking as a derivation, without the bound on its steps. A derivation keeps the lines
that are compiled for new variants, and for every linked line the callee of the call that was
written in it.
-/

namespace CommandPack

open Workspace Linking CallMark WorkM

/-! ### States -/

/-- The state with one more variant. The used routines that came with it wait. -/
def LinkState.adding (st : LinkState) (key : Path × List String) (path : Path) (ws : Workspace) :
    LinkState where
  ws := ws
  queue := st.queue ++
    ((ws.routines.values.drop st.ws.routines.size).filter Routine.used).map Routine.path
  visited := st.visited
  variants := (key, path) :: st.variants

/-- The state with one more routine kept. -/
def LinkState.keeping (st : LinkState) (target : Path) : LinkState :=
  enqueue { st with ws := st.ws.updateRoutine target ({ · with used := true }) } target

@[simp]
theorem LinkState.ws_keeping {st : LinkState} {target : Path} :
    (st.keeping target).ws = st.ws.updateRoutine target ({ · with used := true }) := by
  unfold keeping enqueue
  split <;> rfl

/-- The state with the next routine taken from the queue. -/
def LinkState.taking (st : LinkState) (path : Path) (queue : List Path) : LinkState :=
  { st with queue, visited := path :: st.visited }

/-- The state with the final lines of a routine. -/
def LinkState.storing (st : LinkState) (path : Path) (lines : List String) : LinkState :=
  { st with ws := st.ws.updateRoutine path ({ · with commands := lines.map .text }) }

namespace Linking

/-! ### Derivations -/

/-- A linked line and the callee of the call in it. -/
structure LinkedLine where
  text : String
  callee : Option Path := none

/-- A mark leads to its target or to a variant of it. A new variant is compiled first. -/
inductive Finds (mark : CallMark) (st : LinkState) : List Visit → Path → LinkState → Prop
  | plain (none : mark.arguments = []) : Finds mark st [] mark.target st
  | again {target : Path} (some' : mark.arguments ≠ [])
      (known : st.variants.lookup (mark.target, mark.arguments) = some target) :
      Finds mark st [] target st
  | new {r : Routine} {template : Template} {visits : List Visit} {after : Workspace}
      (some' : mark.arguments ≠ [])
      (new : st.variants.lookup (mark.target, mark.arguments) = none)
      (found : st.ws.routines.get? mark.target = some r) (isTemplate : r.template = some template)
      (free : st.ws.routines.get? (nextPath mark.target template) = none)
      (compiled : Ran (.routine (nextPath mark.target template) none)
        ({}, prepared mark.target r template mark.arguments st.ws) visits ({}, after)) :
      Finds mark st visits (nextPath mark.target template)
        (st.adding (mark.target, mark.arguments) (nextPath mark.target template)
          ({ after with symbols := st.ws.symbols }.record
            (.variantCompiled (nextPath mark.target template) mark.arguments)))

/-- A line is resolved. -/
inductive Resolves : String → LinkState → List Visit → LinkedLine → LinkState → Prop
  | steady {line : String} {st : LinkState} (steady : Steady line) :
      Resolves line st [] { text := line } st
  | empty {line : String} {found : Found} {st mid : LinkState} {visits : List Visit}
      {target : Path} {r : Routine} (marked : find? line = some found)
      (finds : Finds found.mark st visits target mid)
      (known : mid.ws.routines.get? target = some r) (commands : r.commands = []) :
      Resolves line st visits { text := skipped (found.calling mid.ws.settings.pack target) } mid
  | inert {line : String} {found : Found} {st mid st' : LinkState}
      {visits visits' : List Visit} {target : Path} {r : Routine} {single : Command}
      {out : LinkedLine} (marked : find? line = some found)
      (finds : Finds found.mark st visits target mid)
      (known : mid.ws.routines.get? target = some r) (commands : r.commands = [single])
      (inside : Resolves (single.render mid.ws.settings.pack) mid visits' out st')
      (inert : isInert out.text = true) :
      Resolves line st (visits ++ visits')
        { text := skipped (found.calling mid.ws.settings.pack target) } st'
  | single {line : String} {found : Found} {st mid st' : LinkState}
      {visits visits' : List Visit} {target : Path} {r : Routine} {single : Command}
      {out : LinkedLine} (marked : find? line = some found)
      (finds : Finds found.mark st visits target mid)
      (known : mid.ws.routines.get? target = some r) (commands : r.commands = [single])
      (inside : Resolves (single.render mid.ws.settings.pack) mid visits' out st')
      (active : isInert out.text = false) :
      Resolves line st (visits ++ visits')
        { out with text := found.before ++ out.text ++ found.after } st'
  | call {line : String} {found : Found} {st mid : LinkState} {visits : List Visit}
      {target : Path} {r : Routine} (marked : find? line = some found)
      (finds : Finds found.mark st visits target mid)
      (known : mid.ws.routines.get? target = some r) (long : 1 < r.commands.length) :
      Resolves line st visits
        { text := found.calling mid.ws.settings.pack target, callee := some target }
        (mid.keeping target)

/-- Lines are resolved one after the other. -/
inductive ResolvesAll : List String → LinkState → List Visit → List LinkedLine → LinkState → Prop
  | nil {st : LinkState} : ResolvesAll [] st [] [] st
  | cons {line : String} {lines : List String} {st mid st' : LinkState}
      {visits visits' : List Visit} {out : LinkedLine} {outs : List LinkedLine}
      (first : Resolves line st visits out mid) (later : ResolvesAll lines mid visits' outs st') :
      ResolvesAll (line :: lines) st (visits ++ visits') (out :: outs) st'

/-- The routines that wait are linked until none is left. -/
inductive Rounds : LinkState → List Visit → List (Path × List LinkedLine) → LinkState → Prop
  | done {st : LinkState} (done : st.queue = []) : Rounds st [] [] st
  | next {st mid st' : LinkState} {path : Path} {queue : List Path} {r : Routine}
      {visits visits' : List Visit} {outs : List LinkedLine}
      {rounds : List (Path × List LinkedLine)} (waiting : st.queue = path :: queue)
      (found : st.ws.routines.get? path = some r)
      (resolved : ResolvesAll (r.commands.map (·.render st.ws.settings.pack))
        (st.taking path queue) visits outs mid)
      (later : Rounds (mid.storing path (outs.map LinkedLine.text)) visits' rounds st') :
      Rounds st (visits ++ visits') ((path, outs) :: rounds) st'

/-! ### Every linking has a trace -/

variable {mark : CallMark} {st mid st' : LinkState} {callee target : Path}
  {arguments : List String} {limit depth : Nat} {line line' : String} {lines lines' : List String}

theorem gives_variantFor : Gives (variantFor callee arguments) st target st' ↔
    (st.variants.lookup (callee, arguments) = some target ∧ st' = st) ∨
      st.variants.lookup (callee, arguments) = none ∧
        ∃ ws, Gives (makeVariant callee arguments) st.ws target ws ∧
          st' = st.adding (callee, arguments) target ws := by
  simp only [variantFor, gives_bind, gives_get]
  cases known : st.variants.lookup (callee, arguments) with
  | some =>
    constructor
    · rintro ⟨_, _, ⟨rfl, rfl⟩, given⟩
      rw [known] at given
      obtain ⟨rfl, rfl⟩ := gives_pure.1 given
      exact .inl ⟨rfl, rfl⟩
    · rintro (⟨same, rfl⟩ | ⟨new, _⟩)
      · refine ⟨_, _, ⟨rfl, rfl⟩, ?_⟩
        rw [known]
        exact gives_pure.2 ⟨(Option.some.inj same).symm, rfl⟩
      · cases new
  | none =>
    simp only [reduceCtorEq, false_and, true_and, false_or]
    constructor
    · rintro ⟨_, _, ⟨rfl, rfl⟩, given⟩
      rw [known] at given
      simp only [gives_bind, LinkM.gives_onWorkspace, gives_modify,
        gives_pure] at given
      obtain ⟨_, _, ⟨ws, made, rfl⟩, _, _, rfl, rfl, rfl⟩ := given
      exact ⟨ws, made, rfl⟩
    · rintro ⟨ws, made, rfl⟩
      refine ⟨_, _, ⟨rfl, rfl⟩, ?_⟩
      rw [known]
      simp only [gives_bind, LinkM.gives_onWorkspace, gives_modify,
        gives_pure]
      exact ⟨target, _, ⟨ws, made, rfl⟩, (), _, rfl, rfl, rfl⟩

theorem gives_resolveAll_cons : Gives (resolveAll limit (line :: lines)) st lines' st' ↔
    ∃ resolved rest mid, Gives (resolve limit 0 line) st resolved mid ∧
      Gives (resolveAll limit lines) mid rest st' ∧ lines' = resolved :: rest := by
  simp only [resolveAll, gives_bind, gives_pure]
  constructor
  · rintro ⟨resolved, mid, first, rest, _, later, rfl, rfl⟩
    exact ⟨resolved, rest, mid, first, later, rfl⟩
  · rintro ⟨resolved, rest, mid, first, later, rfl⟩
    exact ⟨resolved, mid, first, rest, st', later, rfl, rfl⟩

theorem finds_of_callee (given : Gives (Linking.callee mark) st target mid) :
    ∃ visits, Finds mark st visits target mid := by
  unfold Linking.callee at given
  split_ifs at given with none
  · obtain ⟨rfl, rfl⟩ := gives_pure.1 given
    exact ⟨_, .plain none⟩
  · rcases gives_variantFor.1 given with ⟨known, rfl⟩ | ⟨new, ws, made, rfl⟩
    · exact ⟨_, .again none known⟩
    · obtain ⟨r, template, after, found, isTemplate, rfl, free, compiled, rfl⟩ :=
        gives_makeVariant.1 made
      obtain ⟨visits, ran⟩ := traced_compile _ {} compiled
      exact ⟨visits, .new none new found isTemplate free ran⟩

theorem traced_resolve (given : Gives (resolve limit depth line) st line' st') :
    ∃ visits callee, Resolves line st visits ⟨line', callee⟩ st' := by
  induction limit generalizing depth line st line' st' with
  | zero => simp [resolve] at given
  | succ _ ih =>
    cases gives_resolve.1 given with
    | steady steady => exact ⟨_, _, .steady steady⟩
    | empty marked _ called known commands =>
      obtain ⟨visits, finds⟩ := finds_of_callee called
      exact ⟨_, _, .empty marked finds known commands⟩
    | single marked _ called known commands inside =>
      obtain ⟨visits, finds⟩ := finds_of_callee called
      obtain ⟨visits', callee, inside⟩ := ih inside
      unfold Found.inlining
      split
      · next inert => exact ⟨_, _, .inert marked finds known commands inside inert⟩
      · next active =>
        exact ⟨_, _, .single marked finds known commands inside (Bool.eq_false_iff.2 active)⟩
    | call marked _ called known long kept =>
      obtain ⟨visits, finds⟩ := finds_of_callee called
      obtain ⟨-, rfl⟩ := gives_keep.1 kept
      exact ⟨_, _, .call marked finds known long⟩

theorem traced_resolveAll (given : Gives (resolveAll limit lines) st lines' st') :
    ∃ visits outs, ResolvesAll lines st visits outs st' ∧ lines' = outs.map LinkedLine.text := by
  induction lines generalizing st lines' with
  | nil =>
    obtain ⟨rfl, rfl⟩ := gives_pure.1 given
    exact ⟨_, _, .nil, rfl⟩
  | cons _ _ ih =>
    obtain ⟨resolved, rest, mid, first, later, rfl⟩ := gives_resolveAll_cons.1 given
    obtain ⟨visits, callee, here⟩ := traced_resolve first
    obtain ⟨visits', outs, behind, rfl⟩ := ih later
    exact ⟨_, _, .cons here behind, rfl⟩

end Linking

end CommandPack
