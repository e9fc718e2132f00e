import CommandPack.Proofs.Lowering.Declaring
import CommandPack.Proofs.Lowering.Settling

/-!
# Furnished workspaces

Integer variables have slots and string variables have values, all the time. Slots are given
where a variable is assigned to, where a definition is registered and where a header compares two
variables; a variable that is declared elsewhere has its slot already.
-/

namespace CommandPack

open Workspace BodyM Lowering

variable {path : String} {source : String → Prop} {calls : Prop} {start stop : Stage}

/-- Every integer variable and every constant has a slot and every string variable has a value. The
integer parameters of definitions have slots before they are declared. -/
structure Workspace.Furnished (ws : Workspace) : Prop where
  slotted : ∀ path ∈ ws.ints, (ws.slots.get? path).isSome = true
  constants : ∀ i < ws.constants.length, (ws.slots.get? (constantPath i)).isSome = true
  integers {path : String} : ws.symbols.kind? path = some .integer → path ∈ ws.ints
  strings {path : String} : ws.symbols.kind? path = some .string →
    (ws.symbols.string? path).isSome = true
  params {q : Path} {r : Routine} : ws.routines.get? q = some r → r.kind.bindsParams = true →
    ∀ param ∈ r.params, param.kind = .integer → r.owner.qualify param.name ∈ ws.ints

namespace Workspace.Furnished

variable {ws ws' : Workspace} {self : Routine}

/-- Steps that give slots and change variables. -/
theorem of_allots {names : String → Prop} (h : ws.Furnished) (allots : Allots names ws ws')
    (routines : ws'.routines = ws.routines)
    (integers : ∀ {path}, ws'.symbols.kind? path = some .integer → path ∈ ws'.ints)
    (strings : ∀ {path}, ws'.symbols.kind? path = some .string →
      (ws'.symbols.string? path).isSome = true) : ws'.Furnished where
  slotted path mem := (allots.added mem).elim (fun old => allots.kept (h.slotted path old)) id
  constants i bound := allots.kept (h.constants i (allots.constants ▸ bound))
  integers := integers
  strings := strings
  params found binds param mem integer :=
    allots.ints (h.params (routines ▸ found) binds param mem integer)

theorem objective (h : ws.Furnished) (mem : path ∈ ws.ints) :
    ∃ name, ws.objective path = .ok name := by
  obtain ⟨name, found⟩ := Option.isSome_iff_exists.1 (h.slotted path mem)
  exact ⟨name, objective_eq_ok.2 found⟩

/-- The text of a string variable is its value, never a placeholder. -/
theorem stringText (h : ws.Furnished) (string : ws.symbols.kind? path = some .string) :
    ws.symbols.string? path = some (Substitution.stringText ws path) := by
  obtain ⟨value, found⟩ := Option.isSome_iff_exists.1 (h.strings string)
  rw [Substitution.stringText, found, Option.getD_some]

theorem declare (h : ws.Furnished) {path : String} {kind : Kind} (noString : kind.isString = false)
    (slot : kind = .integer → path ∈ ws.ints) : (ws.declare path kind).Furnished := by
  have same : Allots (fun _ => False) ws (ws.declare path kind) := .of_eq rfl rfl rfl
  refine h.of_allots same rfl ?_ ?_
  · intro name integer
    rw [Workspace.declare, Symbols.kind?_declare] at integer
    split at integer
    · next hname =>
      rw [hname]
      exact slot (Option.some.inj integer)
    · exact h.integers integer
  · intro name string
    rw [Workspace.declare, Symbols.kind?_declare] at string
    split at string
    · rw [Option.some.inj string] at noString
      cases noString
    · exact h.strings string

theorem addInt (h : ws.Furnished) (path : String) : (ws.addInt path).Furnished := by
  have routines : (ws.addInt path).routines = ws.routines := by
    unfold Workspace.addInt
    split <;> rfl
  have symbols := ws.addInt_symbols path
  have allots := ws.allots_addInt path
  exact h.of_allots allots routines (fun integer => allots.ints (h.integers (symbols ▸ integer)))
    (fun string => symbols ▸ h.strings (symbols ▸ string))

theorem bindString (h : ws.Furnished) (path value : String) :
    (ws.bindString path value).Furnished := by
  have same : Allots (fun _ => False) ws (ws.bindString path value) := .of_eq rfl rfl rfl
  refine h.of_allots same rfl ?_ ?_
  · intro name integer
    rw [Workspace.bindString, Symbols.kind?_bind] at integer
    split at integer
    · cases integer
    · exact h.integers integer
  · intro name string
    rw [Workspace.bindString, Symbols.kind?_bind] at string
    rw [Workspace.bindString, Symbols.string?_bind]
    split at string
    · next hname => rw [if_pos hname, Option.isSome_some]
    · next hname =>
      rw [if_neg hname]
      exact h.strings string

theorem addConstant (h : ws.Furnished) (value : Int) : (ws.addConstant value).2.Furnished := by
  unfold Workspace.addConstant
  split
  · exact h
  · refine ⟨fun path mem => ?_, fun i bound => ?_, h.integers, h.strings, h.params⟩
    · simp only [Table.get?_insert]
      split
      · rfl
      · exact h.slotted path mem
    · simp only [Table.get?_insert]
      split
      · rfl
      · next other =>
        rw [List.length_append, List.length_singleton] at bound
        have inside : i ≠ ws.constants.length := fun same => other (same ▸ rfl)
        exact h.constants i (by omega)

/-- A constant has a slot once it is interned. -/
theorem objective_addConstant (h : ws.Furnished) (value : Int) :
    ∃ name, (ws.addConstant value).2.objective (ws.addConstant value).1 = .ok name := by
  have interned : ((ws.addConstant value).2.slots.get? (ws.addConstant value).1).isSome = true := by
    unfold Workspace.addConstant
    split
    · next i found => exact h.constants i (List.findIdx?_eq_some_iff_findIdx_eq.1 found).1
    · simp only [Table.get?_insert, if_pos, Option.isSome_some]
  obtain ⟨name, found⟩ := Option.isSome_iff_exists.1 interned
  exact ⟨name, objective_eq_ok.2 found⟩

/-- An effect leaves a furnished workspace furnished. -/
theorem effect (h : start.2.Furnished) (effect : Effect self source calls start stop) :
    stop.2.Furnished := by
  cases effect with
  | emit | wait | addLocal => exact h
  | declare _ noString slot => exact h.declare noString slot
  | addInt => exact h.addInt _
  | bindString => exact h.bindString _ _
  | addConstant => exact h.addConstant _

theorem effects (h : start.2.Furnished) (effects : Effects self source calls start stop) :
    stop.2.Furnished := by
  induction effects with
  | refl => exact h
  | tail _ effect ih => exact ih.effect effect

/-- Entering a body with values for its strings. -/
theorem enter (h : ws.Furnished) (found : ws.routines.get? self.path = some self)
    (full : self.Full) (enters : Enters self ws ws') : ws'.Furnished := by
  obtain ⟨allots, slots⟩ := enters.allots
  refine ⟨fun path mem => ?_, fun i bound => ?_, ?_, ?_, ?_⟩
  · exact (allots.added mem).elim (fun old => allots.kept (h.slotted path old)) id
  · exact allots.kept (h.constants i (allots.constants ▸ bound))
  · intro path integer
    rw [enters.symbols] at integer
    rcases kind?_bindParams integer with ⟨string, _⟩ | declared | old
    · cases string
    · unfold declaredParams at declared
      split at declared
      · next binds =>
        obtain ⟨param, mem, same⟩ := List.mem_map.1 declared
        obtain ⟨rfl, kind⟩ := Prod.mk.inj same
        exact allots.ints (h.params found binds param mem kind)
      · cases declared
    · exact allots.ints (h.integers old)
  · intro path string
    rw [enters.symbols] at string ⊢
    apply isSome_string?_bindParams
    rcases kind?_bindParams string with ⟨_, bound⟩ | declared | old
    · exact .inl bound
    · exact .inl (full _ declared rfl)
    · exact .inr (h.strings old)
  · intro q r foundNew binds param mem integer
    rcases enters.adds foundNew with old | ⟨_, _, _, _, _, _, _, rfl, rfl⟩
    · exact allots.ints (h.params old binds param mem integer)
    · rcases slots _ _ foundNew with old | own
      · exact allots.ints (h.params old binds param mem integer)
      · exact own param mem integer

theorem release (h : ws.Furnished) (locals : List String) :
    (releaseLocals ws locals).Furnished := by
  obtain ⟨ints, slots, constants⟩ := releaseLocals_slots locals ws
  have same : Allots (fun _ => False) ws (releaseLocals ws locals) :=
    .of_eq ints slots constants
  refine h.of_allots same (releaseLocals_kept ..).1 ?_ ?_
  · intro path integer
    rcases symbols_releaseLocals locals ws path with ⟨kind, _⟩ | ⟨none, _⟩
    · exact ints ▸ h.integers (kind ▸ integer)
    · rw [none] at integer
      cases integer
  · intro path string
    rcases symbols_releaseLocals locals ws path with ⟨kind, value⟩ | ⟨none, _⟩
    · rw [value]
      exact h.strings (kind ▸ string)
    · rw [none] at string
      cases string

end Workspace.Furnished

/-- Effects keep workspaces furnished. -/
def Discipline.ByEffect.furnished : ByEffect where
  Holds := Furnished
  effect h _ _ effect := ⟨h.effect effect, trivial⟩
  enter h _ found full enters := h.enter found full enters
  release h := h.release _
  stable {ws ws'} h base _ origins := by
    have ints : ws'.base.ints = ws.base.ints := congrArg Workspace.ints base
    have base : ws'.base.Furnished := by
      rw [base]
      exact ⟨h.slotted, h.constants, h.integers, h.strings, fun found => by cases found⟩
    refine ⟨base.slotted, base.constants, base.integers, base.strings,
      fun {q r'} found binds param mem integer => ?_⟩
    change _ ∈ ws'.base.ints
    rw [ints]
    rcases origins q r' found with ⟨r, old, same⟩ | ⟨isBlock, params, _⟩
    · rw [Routine.owner_of_origin same]
      exact h.params old (Routine.kind_of_origin same ▸ binds) param
        (Routine.params_of_origin same ▸ mem) integer
    · rw [params] at mem
      cases mem

/-- Compilations keep workspaces furnished. -/
def Discipline.furnished : Discipline :=
  ByEffect.furnished.discipline

theorem Workspace.Unbuilt.furnished_withRoot {settings : Settings} {ws : Workspace}
    (h : Unbuilt settings ws) : ws.withRoot.Furnished where
  slotted path mem := by
    rw [show ws.withRoot.ints = [] from h.ints] at mem
    cases mem
  constants i bound := by
    rw [show ws.withRoot.constants = [] from h.constants] at bound
    cases bound
  integers {path} integer := by
    rw [show ws.withRoot.symbols = {} from h.symbols] at integer
    cases integer
  strings {path} string := by
    rw [show ws.withRoot.symbols = {} from h.symbols] at string
    cases string
  params {q r} found _ param mem := by
    obtain ⟨-, rfl⟩ := h.only_root found
    cases mem

end CommandPack
