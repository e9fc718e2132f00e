import CommandPack.Proofs.Lowering.Fencing

/-!
# What a compilation registers

A compilation adds routines behind the ones that are there, and no more of them than the number of
lines allows. Definitions are used once they are compiled, and blocks and variants wait until they
are called.
-/

namespace CommandPack

open Workspace BodyM Lowering Block

variable {site : Site} {role : BlockRole} {task : Task} {c c' : Stage} {visits : List Visit}

/-! ### New routines -/

namespace Workspace

/-- Between two workspaces at most so many routines are added, behind the others. -/
def Appends (ws : Workspace) (count : Nat) (ws' : Workspace) : Prop :=
  ∃ added, ws'.routines.keys = ws.routines.keys ++ added ∧ added.length ≤ count

variable {ws ws₁ ws' : Workspace} {n m : Nat}

theorem Appends.of_keys (keys : ws'.routines.keys = ws.routines.keys) : ws.Appends n ws' :=
  ⟨[], by rw [keys, List.append_nil], Nat.zero_le n⟩

theorem Appends.trans (h : ws.Appends n ws₁) (h' : ws₁.Appends m ws') :
    ws.Appends (n + m) ws' := by
  obtain ⟨added, keys, count⟩ := h
  obtain ⟨added', keys', count'⟩ := h'
  refine ⟨added ++ added', by rw [keys', keys, List.append_assoc], ?_⟩
  rw [List.length_append]
  exact Nat.add_le_add count count'

theorem Appends.mono (h : ws.Appends n ws') (le : n ≤ m) : ws.Appends m ws' := by
  obtain ⟨added, keys, count⟩ := h
  exact ⟨added, keys, count.trans le⟩

/-- Registering a routine at a free path. -/
theorem Appends.insert {r : Routine} (free : ws.routines.get? r.path = none)
    (routines : ws'.routines = ws.routines.insert r.path r) : ws.Appends 1 ws' :=
  ⟨[r.path], by rw [routines, Table.keys_insert free r], Nat.le_refl 1⟩

end Workspace

variable {ws ws' : Workspace} {self : Routine}

theorem Definition.Registered.appends {own : List (Nat × Line)}
    (h : Definition.Registered self own ws ws') : ws.Appends own.length ws' := by
  induction h with
  | nil => exact .of_keys rfl
  | @cons i _ _ _ _ signature _ free _ ih =>
    exact (Appends.trans (.insert (r := Definition.routine self i signature) free rfl) ih).mono
      (Nat.add_comm ..).le

/-- A block has at most one definition in each of its lines. -/
theorem Lowering.Enters.registers (h : Enters self ws ws') :
    ws.Appends ws.lines.length ws' := by
  have bound : ws.Appends 0 (bindParams self ws) :=
    .of_keys (by rw [(bindParams_kept self ws).1])
  refine (bound.trans h.registered.appends).mono ?_
  rw [Nat.zero_add, Routine.definitions]
  split
  · exact Nat.zero_le _
  · exact (List.length_filter_le ..).trans ((length_own_le ..).trans (by simp))

/-- How many routines a part of a compilation registers at most, by the number of all lines and
of those that it comes to: two blocks for each, and the definitions of the bodies. -/
def Task.cost (lines visits : Nat) : Task → Nat
  | .routine .. => lines + visits * (2 * lines + 2)
  | .lines .. => visits * (2 * lines + 2)
  | .statement .. => (visits + 1) * (2 * lines + 2)
  | .rest .. => lines + 1 + visits * (2 * lines + 2)

theorem Block.registers_opened {path : Path} (free : ws.routines.get? path = none) :
    ws.Appends 1 (opened self site role path ws) :=
  .insert (r := routine self site role path) free rfl

/-- A compilation adds routines behind the others. -/
theorem Ran.registers (ran : Ran task c visits c') : ∀ {home}, task.Sits home c →
      c.2.Appends (task.cost c.2.lines.length visits.length) c'.2 := by
  induction ran with
  | skip => exact fun _ => .of_keys (Table.keys_modify ..)
  | @run _ _ _ result ws ws₁ ws₂ self _ _ _ found starts _ enters lines ih =>
    intro home sits
    obtain ⟨entered, begun⟩ := sits.enter found starts enters
    have inside := ih begun
    have stores : ws₂.Appends 0 (stored self result
        (releaseLocals ws₂ result.locals)) :=
      .of_keys ((Table.keys_modify ..).trans
        (congrArg Table.keys (releaseLocals_kept ..).1))
    have lines : ws₁.lines = ws.lines := entered.lines
    rw [lines] at inside
    exact (enters.registers.trans inside).trans stores
  | nil | leave | exit | next | unguarded => exact fun _ => .of_keys rfl
  | deeper deeper _ ih => exact fun sits => ih (sits.pass deeper.le)
  | quiet here _ _ ih => exact fun sits => ih (sits.pass here.ge)
  | @step _ _ _ _ lines _ _ ws ws₁ _ _ _ _ here _ parsed statement _ ihStatement ihAfter =>
    intro home sits
    obtain ⟨develops, next⟩ := sits.next here parsed statement
    have first := ihStatement (sits.start here parsed)
    have rest := ihAfter next
    have lines : ws₁.lines = ws.lines := develops.lines
    rw [lines] at rest
    refine (first.trans rest).mono ?_
    simp only [Task.cost, Workspace.record, List.length_cons, List.length_append, Nat.add_mul]
    omega
  | plain plain calls gives =>
    have kept := (effects_plain plain calls gives).kept
    exact fun {_} _ => .of_keys (congrArg Table.keys kept.routines)
  | defer => exact fun _ => .of_keys (Table.keys_modify ..)
  | @define _ _ _ _ _ ws' callee _ _ resolved found _ _ ih =>
    intro home sits
    have used : ws'.Appends 0 (ws'.updateRoutine callee ({ · with used := true })) :=
      .of_keys (Table.keys_modify ..)
    refine ((ih (sits.define resolved found).1).trans used).mono ?_
    simp only [Task.cost, Nat.add_mul]
    omega
  | @block _ _ _ _ _ _ _ ws ws₁ ws₂ _ _ _ splits hpath free compiled heads rest ihCompiled ihRest =>
    intro home sits
    obtain ⟨_, begun⟩ := sits.block splits hpath free
    obtain ⟨develops, onward⟩ := sits.after splits hpath free compiled heads
    have first := (registers_opened free).trans (ihCompiled begun)
    have headed : ws₁.Appends 0 ws₂ := .of_keys heads.reworks.1.keys
    have rest := ihRest onward
    have lines : ws₂.lines = ws.lines := develops.lines
    rw [lines] at rest
    refine ((first.trans headed).trans rest).mono ?_
    simp only [Task.cost, opened, Workspace.record, List.length_append, Nat.add_mul]
    omega
  | @guarded _ _ _ _ guard _ _ _ _ _ _ _ _ _ _ _ _ _ _ hpath free _ _ _ ih =>
    intro home sits
    refine ((registers_opened free).trans (ih (sits.guard hpath free).2)).mono ?_
    simp only [Task.cost, opened, Workspace.record]
    omega

/-! ### Routines that are used -/

/-- The last segment of a path is generated. -/
def Path.Numbered (path : Path) : Prop :=
  ∃ parent role n, path = Path.block parent role n

theorem Block.numbered_path (self : Routine) (role : BlockRole) (counter : Nat) :
    (path self role counter).Numbered := by
  unfold path
  split
  · exact ⟨_, _, _, rfl⟩
  · exact ⟨_, _, _, rfl⟩

/-- Which of the routines outside are used: the root, and all definitions that are compiled and not
busy. All others, blocks and variants, have generated names. -/
structure Workspace.Usage (old busy : Path → Prop) (ws : Workspace) : Prop where
  used {q : Path} {r : Routine} : ws.routines.get? q = some r → ¬ old q → r.used = true →
    r.kind = .root ∨ r.kind = .defined
  root {q : Path} {r : Routine} : ws.routines.get? q = some r → ¬ old q → r.kind = .root →
    r.used = true
  defined {q : Path} {r : Routine} : ws.routines.get? q = some r → ¬ old q → r.kind = .defined →
    r.compiled = true → busy q ∨ r.used = true
  numbered {q : Path} {r : Routine} : ws.routines.get? q = some r → ¬ old q → r.kind ≠ .root →
    r.kind ≠ .defined → q.Numbered

namespace Workspace.Usage

variable {old busy : Path → Prop} {path : Path}

/-- Routines that are as they were, and new ones that have not been compiled. -/
theorem of_found (h : ws.Usage old busy)
    (found : ∀ q r', ws'.routines.get? q = some r' →
      (∃ r, ws.routines.get? q = some r ∧ r'.kind = r.kind ∧ r'.used = r.used ∧
        r'.compiled = r.compiled) ∨
      r'.kind ≠ .root ∧ r'.used = false ∧ r'.compiled = false ∧
        (r'.kind ≠ .defined → q.Numbered)) : ws'.Usage old busy where
  used {q r'} found' other used := by
    rcases found q r' found' with ⟨r, before, kind, same, _⟩ | ⟨_, unused, _⟩
    · exact kind ▸ h.used before other (same ▸ used)
    · rw [unused] at used
      cases used
  root {q r'} found' other root := by
    rcases found q r' found' with ⟨r, before, kind, same, _⟩ | ⟨notRoot, _⟩
    · exact same ▸ h.root before other (kind ▸ root)
    · exact absurd root notRoot
  defined {q r'} found' other isDefined compiled := by
    rcases found q r' found' with ⟨r, before, kind, used, same⟩ | ⟨_, _, uncompiled, _⟩
    · exact used ▸ h.defined before other (kind ▸ isDefined) (same ▸ compiled)
    · rw [uncompiled] at compiled
      cases compiled
  numbered {q r'} found' other notRoot notDefined := by
    rcases found q r' found' with ⟨r, before, kind, _⟩ | ⟨_, _, _, numbered⟩
    · exact h.numbered before other (kind ▸ notRoot) (kind ▸ notDefined)
    · exact numbered notDefined

theorem of_routines (h : ws.Usage old busy) (routines : ws'.routines = ws.routines) :
    ws'.Usage old busy :=
  h.of_found fun _ r found => .inl ⟨r, routines ▸ found, rfl, rfl, rfl⟩

theorem of_reworks (h : ws.Usage old busy) (reworks : ws.Reworks ws') : ws'.Usage old busy := by
  obtain ⟨patch, routines⟩ := reworks.routines
  refine h.of_found fun q r' found => .inl ?_
  rw [routines, Option.map_eq_some_iff] at found
  obtain ⟨r, before, rfl⟩ := found
  exact ⟨r, before, rfl, rfl, rfl⟩

theorem enter (h : ws.Usage old busy) (enters : Enters self ws ws') :
    ws'.Usage old busy := by
  refine h.of_found fun q r' found => ?_
  rcases enters.adds found with before | ⟨_, _, _, _, _, _, _, _, rfl⟩
  · exact .inl ⟨r', before, rfl, rfl, rfl⟩
  · exact .inr ⟨nofun, rfl, rfl, fun notDefined => absurd rfl notDefined⟩

theorem opened (h : ws.Usage old busy) (numbered : path.Numbered) :
    (opened self site role path ws).Usage old busy := by
  refine h.of_found fun q r' found => ?_
  rw [get?_opened] at found
  split at found
  · next same =>
    cases found
    exact .inr ⟨by rintro ⟨⟩, rfl, rfl, fun _ => same ▸ numbered⟩
  · exact .inl ⟨r', found, rfl, rfl, rfl⟩

/-- A body that is stored makes its routine busy, if it is a definition. -/
theorem stored (h : ws.Usage old fun _ => False) (body : Body) :
    (Lowering.stored self body ws).Usage old (· = self.path) := by
  have found {q : Path} {r' : Routine}
      (found : (Lowering.stored self body ws).routines.get? q = some r') :
      ∃ r, ws.routines.get? q = some r ∧ r'.kind = r.kind ∧ r'.used = r.used ∧
        (q ≠ self.path → r'.compiled = r.compiled) := by
    obtain ⟨r, before, rfl⟩ := found_before found
    refine ⟨r, before, ?_⟩
    split
    · next same => exact ⟨rfl, rfl, fun other => absurd same other⟩
    · exact ⟨rfl, rfl, fun _ => rfl⟩
  refine ⟨fun found' other used => ?_, fun found' other root => ?_,
    fun {q r'} found' other isDefined compiled => ?_, fun found' other notRoot notDefined => ?_⟩
  · obtain ⟨r, before, kind, same, _⟩ := found found'
    exact kind ▸ h.used before other (same ▸ used)
  · obtain ⟨r, before, kind, same, _⟩ := found found'
    exact same ▸ h.root before other (kind ▸ root)
  · obtain ⟨r, before, kind, used, same⟩ := found found'
    by_cases here : q = self.path
    · exact .inl here
    · refine .inr (used ▸ (h.defined before other (kind ▸ isDefined) ?_).resolve_left not_false)
      exact same here ▸ compiled
  · obtain ⟨r, before, kind, _⟩ := found found'
    exact h.numbered before other (kind ▸ notRoot) (kind ▸ notDefined)

/-- A definition is used once it is compiled. -/
theorem define (h : ws.Usage old (· = path))
    (kind : ∀ r, ws.routines.get? path = some r → r.kind = .defined) :
    (ws.updateRoutine path ({ · with used := true })).Usage old fun _ => False := by
  have found {q : Path} {r' : Routine}
      (found : (ws.updateRoutine path ({ · with used := true })).routines.get? q = some r') :
      ∃ r, ws.routines.get? q = some r ∧ r'.kind = r.kind ∧ r'.compiled = r.compiled ∧
        if q = path then r'.used = true else r'.used = r.used := by
    obtain ⟨r, before, rfl⟩ := found_before found
    refine ⟨r, before, ?_⟩
    split <;> exact ⟨rfl, rfl, rfl⟩
  refine ⟨fun {q r'} found' other used => ?_, fun {q r'} found' other root => ?_,
    fun {q r'} found' other isDefined compiled => .inr ?_,
    fun {q r'} found' other notRoot notDefined => ?_⟩
  all_goals obtain ⟨r, before, sameKind, same, sameUsed⟩ := found found'
  rotate_right
  · exact h.numbered before other (sameKind ▸ notRoot) (sameKind ▸ notDefined)
  all_goals split at sameUsed
  · next here => exact .inr (sameKind.trans (kind r (here ▸ before)))
  · exact sameKind ▸ h.used before other (sameUsed ▸ used)
  · exact sameUsed
  · exact sameUsed ▸ h.root before other (sameKind ▸ root)
  · exact sameUsed
  · next elsewhere =>
    refine sameUsed ▸ (h.defined before other (sameKind ▸ isDefined) ?_).resolve_left elsewhere
    exact same ▸ compiled

/-- A block is never busy. -/
theorem of_kind (h : ws.Usage old (· = path))
    (kind : ∀ r, ws.routines.get? path = some r → r.kind ≠ .defined) :
    ws.Usage old fun _ => False where
  used := h.used
  root := h.root
  defined {q r} found other isDefined compiled := by
    rcases h.defined found other isDefined compiled with rfl | used
    · exact absurd isDefined (kind r found)
    · exact .inr used
  numbered := h.numbered

end Workspace.Usage

/-- The routine that a part of a compilation may leave compiled and not used. -/
def Task.busy : Task → Path → Prop
  | .routine path _ => (· = path)
  | _ => fun _ => False

/-- A compilation uses the definitions that it compiles. -/
theorem Ran.usage {old : Path → Prop} (ran : Ran task c visits c') : ∀ {home}, task.Sits home c →
      (c.2.Usage old fun _ => False) → c'.2.Usage old task.busy := by
  induction ran with
  | @skip path _ _ ws self found =>
    intro home sits usage
    obtain rfl : self.path = path := sits.housed.orderly.keyed found
    have begun : (ws.record (.routineStarted self.path)).Usage old _ := usage.of_routines rfl
    exact begun.stored {}
  | @run path _ _ result ws _ _ self _ _ _ found starts _ enters _ ih =>
    intro home sits usage
    obtain rfl : self.path = path := sits.housed.orderly.keyed found
    have begun : (ws.record (.routineStarted self.path)).Usage old _ := usage.of_routines rfl
    have inside := ih (sits.enter found starts enters).2 (begun.enter enters)
    exact (inside.of_routines (releaseLocals_kept ..).1).stored result
  | nil | leave | exit | next | unguarded => exact fun _ usage => usage
  | deeper deeper _ ih => exact fun sits => ih (sits.pass deeper.le)
  | quiet here _ _ ih => exact fun sits => ih (sits.pass here.ge)
  | step here _ parsed statement _ ihStatement ihAfter =>
    intro home sits usage
    exact ihAfter (sits.next here parsed statement).2
      (ihStatement (sits.start here parsed) (usage.of_routines rfl))
  | plain plain calls gives =>
    have kept := (effects_plain plain calls gives).kept
    exact fun {_} _ usage => usage.of_routines kept.routines
  | defer _ found =>
    intro _ _ usage
    refine usage.of_found fun q r' found => .inl ?_
    obtain ⟨r, before, rfl⟩ := found_before found
    refine ⟨r, before, ?_⟩
    split <;> exact ⟨rfl, rfl, rfl⟩
  | define resolved found _ compiled ih =>
    intro home sits usage
    have kind := kind_of_isDefined (isDefined_of_resolveFunction? resolved) found
    obtain ⟨begun, _⟩ := sits.define resolved found
    obtain ⟨develops, _⟩ := begun.ran compiled
    refine (ih begun usage).define fun r found' => ?_
    obtain ⟨r', same, origin⟩ := develops.kept found
    cases found'.symm.trans same
    exact (Routine.kind_of_origin origin).trans kind
  | block splits hpath free compiled heads _ ihCompiled ihRest =>
    intro home sits usage
    obtain ⟨_, begun⟩ := sits.block splits hpath free
    have inner := (ihCompiled begun
      (usage.opened (hpath ▸ numbered_path ..))).of_kind fun r found => by
      obtain ⟨r', same, origin⟩ := (begun.ran compiled).1.kept get?_opened_self
      cases found.symm.trans same
      rw [Routine.kind_of_origin origin]
      exact RoutineKind.noConfusion
    exact ihRest (sits.after splits hpath free compiled heads).2
      (inner.of_reworks heads.reworks.1)
  | @guarded _ _ _ _ guard _ _ _ _ _ _ _ _ _ _ _ found _ _ hpath free compiled _ _ ih =>
    intro home sits usage
    obtain ⟨_, begun⟩ := sits.guard hpath free
    refine (ih begun (usage.opened (hpath ▸ numbered_path ..))).of_kind fun r found => ?_
    obtain ⟨r', same, origin⟩ := (begun.ran compiled).1.kept get?_opened_self
    cases found.symm.trans same
    rw [Routine.kind_of_origin origin]
    exact RoutineKind.noConfusion

end CommandPack
