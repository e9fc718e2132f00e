import CommandPack.Proofs.Code
import CommandPack.Proofs.Lowering.Effect

/-!
# How compiling changes the routines

A routine keeps from its registration on where it comes from, and a block that is compiled is
not compiled again. The only later change to it comes from an `else`, which puts a marker in
front of the branch before it. So the blocks that a body has split off stay as they are while
the rest of the body is compiled.
-/

namespace CommandPack

open Text

variable {p q : Path} {f : Routine → Routine}

namespace RoutineKind

def isBlock : RoutineKind → Bool
  | block _ => true
  | _ => false

end RoutineKind

namespace Routine

/-- A routine as it was registered. -/
def origin (routine : Routine) : Routine :=
  { routine with
    commands := [], used := false, mayExit := false, maySkip := false, template := none,
    continuation := none, compiled := false }

variable {r r' : Routine}

theorem path_of_origin (h : r.origin = r'.origin) : r.path = r'.path := by
  simpa [origin] using congrArg path h

theorem kind_of_origin (h : r.origin = r'.origin) : r.kind = r'.kind := by
  simpa [origin] using congrArg kind h

theorem start_of_origin (h : r.origin = r'.origin) : r.start = r'.start := by
  simpa [origin] using congrArg start h

theorem depth_of_origin (h : r.origin = r'.origin) : r.depth = r'.depth := by
  simpa [origin] using congrArg depth h

theorem owner_of_origin (h : r.origin = r'.origin) : r.owner = r'.owner := by
  simpa [origin] using congrArg owner h

theorem params_of_origin (h : r.origin = r'.origin) : r.params = r'.params := by
  simpa [origin] using congrArg params h

theorem loop_of_origin (h : r.origin = r'.origin) : r.loop = r'.loop := by
  simpa [origin] using congrArg loop h

theorem bindings_of_origin (h : r.origin = r'.origin) : r.bindings = r'.bindings := by
  simpa [origin] using congrArg bindings h

end Routine

/-! ### Paths of routines -/

/-- Paths that start at the root and go on with segments without dots. -/
def Path.Below (root : String) (path : Path) : Prop :=
  ∃ segments, path.segments = root :: segments ∧ ∀ s ∈ segments, '.' ∉ chars s

namespace Path

variable {root : String} {path path' : Path}

/-- The characters that segments after the first one add to a dotted path. -/
def suffixChars (segments : List String) : List Char :=
  segments.flatMap fun s => '.' :: chars s

theorem chars_join_cons (s : String) (rest : List String) :
    chars (join "." (s :: rest)) = chars s ++ suffixChars rest := by
  induction rest generalizing s with
  | nil => simp [join, suffixChars]
  | cons t _ ih =>
    have dot : chars "." = ['.'] := rfl
    rw [join, chars_append, chars_append, ih t, dot]
    · simp [suffixChars]
    · simp

theorem suffixChars_injective {as bs : List String} (ha : ∀ s ∈ as, '.' ∉ chars s)
    (hb : ∀ s ∈ bs, '.' ∉ chars s) (h : suffixChars as = suffixChars bs) : as = bs := by
  induction as generalizing bs with
  | nil =>
    cases bs with
    | nil => rfl
    | cons => simp [suffixChars] at h
  | cons a as ih =>
    cases bs with
    | nil => simp [suffixChars] at h
    | cons b bs =>
      simp only [suffixChars, List.flatMap_cons, List.cons_append, List.cons.injEq,
        true_and] at h
      change chars a ++ suffixChars as = chars b ++ suffixChars bs at h
      -- the first segment ends where the next dot or the end of the text is
      have cut : ∀ (cs : List Char) (rest : List String), '.' ∉ cs →
          (cs ++ suffixChars rest).takeWhile (· ≠ '.') = cs := by
        intro cs rest hcs
        rw [List.takeWhile_append_of_pos]
        · cases rest <;> simp [suffixChars]
        · intro c hc
          simp only [ne_eq, decide_not, Bool.not_eq_true', decide_eq_false_iff_not]
          rintro rfl
          exact hcs hc
      have same : chars a = chars b := by
        rw [← cut (chars a) as (ha a (.head _)), h, cut _ bs (hb b (.head _))]
      rw [same] at h
      rw [chars_inj.1 same, ih (fun s hs => ha s (.tail _ hs))
        (fun s hs => hb s (.tail _ hs)) (List.append_cancel_left h)]

/-- Different paths below one root are written differently. -/
theorem render_injective (h : path.Below root) (h' : path'.Below root)
    (same : path.render = path'.render) : path = path' := by
  obtain ⟨as, hp, ha⟩ := h
  obtain ⟨bs, hp', hb⟩ := h'
  obtain ⟨segments⟩ := path
  obtain ⟨segments'⟩ := path'
  simp only at hp hp'
  subst hp hp'
  have chars := congrArg chars same
  simp only [render, chars_join_cons] at chars
  rw [suffixChars_injective ha hb (List.append_cancel_left chars)]

theorem chainTag_injective (h : path.Below root) (h' : path'.Below root)
    (same : Marker.chainTag path = Marker.chainTag path') : path = path' := by
  apply render_injective h h'
  have chars := congrArg chars same
  simp only [Marker.chainTag, chars_append] at chars
  exact chars_inj.1 (List.append_cancel_right chars)

theorem below_root : (Path.root root).Below root :=
  ⟨[], rfl, by simp⟩

theorem Below.child (h : path.Below root) {name : String} (dotless : '.' ∉ chars name) :
    (path.child name).Below root := by
  obtain ⟨segments, hp, hs⟩ := h
  refine ⟨segments ++ [name], by simp [Path.child, hp], ?_⟩
  intro s mem
  rcases List.mem_append.1 mem with mem | mem
  · exact hs s mem
  · rw [List.mem_singleton.1 mem]
    exact dotless

theorem Below.parent (h : path.Below root) {parent : Path} (hp : path.parent? = some parent) :
    parent.Below root := by
  obtain ⟨segments, hs, dotless⟩ := h
  unfold parent? at hp
  split at hp
  · cases hp
  · next long =>
    cases hp
    cases segments with
    | nil => simp [hs] at long
    | cons s rest =>
      refine ⟨(s :: rest).dropLast, by simp [hs], fun t ht => ?_⟩
      exact dotless t (List.dropLast_subset _ ht)

end Path

theorem Text.isDigit_of_mem_natural {n : Nat} {c : Char} (h : c ∈ chars (natural n)) :
    isDigit c = true := by
  rw [natural, chars_ofList] at h
  have digit := Nat.isDigit_of_mem_toDigits (by decide) (by decide) h
  simpa [Char.isDigit, isDigit, Char.le_def] using digit

theorem BlockRole.dot_not_mem_segment (role : BlockRole) (n : Nat) :
    '.' ∉ chars (role.segment n) := by
  intro mem
  rw [segment, chars_append, List.mem_append] at mem
  rcases mem with mem | mem
  · cases role <;> revert mem <;> decide
  · exact absurd (isDigit_of_mem_natural mem) (by decide)

/-! ### Workspaces in the course of a compilation -/

/-- What holds of the routines and lines of a workspace all the time. -/
structure Workspace.Orderly (ws : Workspace) : Prop where
  keyed {q : Path} {r : Routine} : ws.routines.get? q = some r → r.path = q
  below {q : Path} {r : Routine} : ws.routines.get? q = some r → q.Below ws.settings.root
  owned {q : Path} {r : Routine} : ws.routines.get? q = some r → r.kind = .defined →
    r.owner = q ∧ r.loop = none
  trimmed : ∀ line ∈ ws.lines, trim line.text = line.text

/-- Going from one workspace to a later one. Routines stay and keep their origin, and compiled
blocks change only by the commands that are put in front of them. -/
structure Grows (touch : Path → List Command) (ws ws' : Workspace) : Prop where
  settings : ws'.settings = ws.settings
  lines : ws'.lines = ws.lines
  kept {q : Path} {r : Routine} : ws.routines.get? q = some r →
    ∃ r', ws'.routines.get? q = some r' ∧ r'.origin = r.origin
  settled {q : Path} {r : Routine} : ws.routines.get? q = some r → r.kind.isBlock = true →
    r.compiled = true →
      ws'.routines.get? q = some { r with commands := touch q ++ r.commands }

/-- Nothing is put in front of a block. -/
def untouched : Path → List Command := fun _ => []

namespace Grows

variable {touch touch' : Path → List Command} {ws ws₁ ws' : Workspace}

/-- Steps that leave the routines alone. -/
theorem of_routines (routines : ws'.routines = ws.routines) (lines : ws'.lines = ws.lines)
    (settings : ws'.settings = ws.settings) : Grows untouched ws ws' where
  settings := settings
  lines := lines
  kept {q r} h := ⟨r, by rw [routines, h], rfl⟩
  settled {q r} h _ _ := by rw [routines, h]; rfl

theorem trans (h : Grows touch ws ws₁) (h' : Grows touch' ws₁ ws') :
    Grows (fun q => touch' q ++ touch q) ws ws' where
  settings := h'.settings.trans h.settings
  lines := h'.lines.trans h.lines
  kept {q r} found := by
    obtain ⟨r₁, found₁, origin⟩ := h.kept found
    obtain ⟨r', found', origin'⟩ := h'.kept found₁
    exact ⟨r', found', origin'.trans origin⟩
  settled {q r} found block compiled := by
    rw [h'.settled (h.settled found block compiled) block compiled]
    simp

/-- What is put in front of paths without a routine does not matter. -/
theorem congr (h : Grows touch ws ws')
    (same : ∀ {q r}, ws.routines.get? q = some r → touch q = touch' q) : Grows touch' ws ws' where
  settings := h.settings
  lines := h.lines
  kept := h.kept
  settled found block compiled := by rw [h.settled found block compiled, same found]

/-- A path that is free later was free before. -/
theorem absent (h : Grows touch ws ws') (free : ws'.routines.get? q = none) :
    ws.routines.get? q = none := by
  cases found : ws.routines.get? q with
  | none => rfl
  | some =>
    obtain ⟨r', found', _⟩ := h.kept found
    rw [free] at found'
    cases found'

/-- Changing one routine that is no compiled block. -/
theorem of_update (origin : ∀ r, (f r).origin = r.origin)
    (loose : ∀ r, ws.routines.get? p = some r → r.kind.isBlock = true → r.compiled = false) :
    Grows untouched ws (ws.updateRoutine p f) where
  settings := rfl
  lines := rfl
  kept {q r} found := by
    refine ⟨if q = p then f r else r, ?_, ?_⟩
    · simp [Workspace.updateRoutine, Table.get?_modify, found]
    · split
      · exact origin r
      · rfl
  settled {q r} found block compiled := by
    have ne : q ≠ p := by
      rintro rfl
      rw [loose r found block] at compiled
      cases compiled
    simp [Workspace.updateRoutine, Table.get?_modify, found, ne, untouched]

end Grows

namespace Workspace

variable {ws ws' : Workspace}

/-- Order depends on the routines only by their origins. -/
theorem Orderly.of_origins (h : ws.Orderly) (lines : ws'.lines = ws.lines)
    (settings : ws'.settings = ws.settings)
    (origins : ∀ {q r'}, ws'.routines.get? q = some r' →
      ∃ r, ws.routines.get? q = some r ∧ r'.origin = r.origin) : ws'.Orderly := by
  constructor
  · intro q r' found
    obtain ⟨r, old, same⟩ := origins found
    rw [Routine.path_of_origin same, h.keyed old]
  · intro q r' found
    obtain ⟨r, old, _⟩ := origins found
    rw [settings]
    exact h.below old
  · intro q r' found defined
    obtain ⟨r, old, same⟩ := origins found
    rw [Routine.kind_of_origin same] at defined
    rw [Routine.owner_of_origin same, Routine.loop_of_origin same]
    exact h.owned old defined
  · rw [lines]
    exact h.trimmed

theorem Orderly.of_routines (h : ws.Orderly) (routines : ws'.routines = ws.routines)
    (lines : ws'.lines = ws.lines) (settings : ws'.settings = ws.settings) : ws'.Orderly :=
  h.of_origins lines settings fun found => ⟨_, routines ▸ found, rfl⟩

/-- Updates that leave origins alone. -/
theorem origins_updateRoutine (origin : ∀ r, (f r).origin = r.origin) {r' : Routine}
    (found : (ws.updateRoutine p f).routines.get? q = some r') :
    ∃ r, ws.routines.get? q = some r ∧ r'.origin = r.origin := by
  obtain ⟨r, before, rfl⟩ := Workspace.found_before found
  refine ⟨r, before, ?_⟩
  split
  · exact origin r
  · rfl

/-- Registering a routine at a free path. -/
theorem Orderly.insert (h : ws.Orderly) {r : Routine} (below : r.path.Below ws.settings.root)
    (owned : r.kind = .defined → r.owner = r.path ∧ r.loop = none) :
    { ws with routines := ws.routines.insert r.path r }.Orderly := by
  constructor
  · intro q r' found
    rw [Table.get?_insert] at found
    split at found
    · next same =>
      cases found
      exact same.symm
    · exact h.keyed found
  · intro q r' found
    rw [Table.get?_insert] at found
    split at found
    · next same =>
      rw [same]
      exact below
    · exact h.below found
  · intro q r' found defined
    rw [Table.get?_insert] at found
    split at found
    · next same =>
      cases found
      rw [same]
      exact owned defined
    · exact h.owned found defined
  · exact h.trimmed

theorem register_eq_ok {r : Routine} :
    ws.register r = .ok ws' ↔ ws.routines.get? r.path = none ∧
      ws' = { ws with routines := ws.routines.insert r.path r } := by
  unfold register
  rw [Table.contains_eq]
  cases ws.routines.get? r.path <;> simp [eq_comm]

end Workspace

/-- Registering a routine at a free path. -/
theorem Grows.of_insert {ws : Workspace} {r : Routine}
    (free : ws.routines.get? r.path = none) :
    Grows untouched ws { ws with routines := ws.routines.insert r.path r } := by
  have other : ∀ {q r'}, ws.routines.get? q = some r' →
      (ws.routines.insert r.path r).get? q = some r' := by
    intro q r' found
    have ne : q ≠ r.path := by
      rintro rfl
      rw [free] at found
      cases found
    rw [Table.get?_insert, if_neg ne, found]
  exact ⟨rfl, rfl, fun found => ⟨_, other found, rfl⟩, fun found _ _ => other found⟩

end CommandPack
