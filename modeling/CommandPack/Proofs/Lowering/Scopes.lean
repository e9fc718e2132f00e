import CommandPack.Proofs.Lowering.Trace
import CommandPack.Proofs.Text.Splitting

/-!
# Definitions in their scopes

The lines of one block may end up in several routines, its own and the guarded ones that go on
with it. All of them find the definitions of the block under the path of its first routine, so
that every definition is compiled from the lines under its own header.
-/

namespace CommandPack

open Lowering Definition Text Block

variable {home q : Path} {line name : String} {signature : Signature} {st : Statement}
  {role : BlockRole} {depth i index n : Nat} {r : Routine} {lines : List Line} {body body' : Body}
variable {p : String → Bool} {self : Routine} {text : String} {block : Path} {c c' : Stage}

/-! ### Enclosing scopes -/

namespace Path

variable {root : String} {path scope home : Path} {name : String}

theorem mem_initials {segments front : List String} :
    front ∈ initials segments ↔ front ≠ [] ∧ front <+: segments := by
  induction segments generalizing front with
  | nil => simp [initials, List.prefix_nil]
  | cons _ _ ih =>
    cases front with
    | nil => simp [initials]
    | cons t front =>
      simp only [initials, List.mem_append, List.mem_map, ih, List.mem_singleton,
        List.cons_prefix_cons]
      constructor
      · rintro (⟨_, ⟨_, inside⟩, ⟨⟩⟩ | single)
        · exact ⟨List.cons_ne_nil _ _, rfl, inside⟩
        · cases single
          exact ⟨List.cons_ne_nil _ _, rfl, List.nil_prefix⟩
      · rintro ⟨_, rfl, inside⟩
        cases front with
        | nil => exact .inr rfl
        | cons u us => exact .inl ⟨u :: us, ⟨List.cons_ne_nil _ _, inside⟩, rfl⟩

/-- The longest initial part comes first. -/
theorem pairwise_initials (segments : List String) :
    (initials segments).Pairwise fun a b => b.length < a.length := by
  induction segments with
  | nil => exact .nil
  | cons _ _ ih =>
    rw [initials, List.pairwise_append, List.pairwise_map]
    refine ⟨ih.imp fun h => by simpa using h, List.pairwise_singleton _ _, ?_⟩
    intro a mem b single
    obtain ⟨front, inside, rfl⟩ := List.mem_map.1 mem
    rw [List.mem_singleton.1 single]
    have some := (mem_initials.1 inside).1
    simpa [List.length_pos_iff] using some

/-- A name is found in the innermost scope that has it. -/
theorem find?_candidates (inside : home.segments <+: scope.segments) (some' : home.segments ≠ [])
    (holds : p (home.qualify name) = true) (inner : ∀ q : Path, q.segments <+: scope.segments →
      home.segments.length < q.segments.length → p (q.qualify name) = false) :
    (scope.candidates name).find? p = some (home.qualify name) := by
  obtain ⟨longer, shorter, split⟩ :=
    List.append_of_mem (mem_initials.2 ⟨some', inside⟩)
  have order := pairwise_initials scope.segments
  rw [split, List.pairwise_append] at order
  rw [candidates, split, List.map_append, List.map_cons, List.find?_append,
    List.find?_eq_none.2, Option.none_or, List.find?_cons_of_pos holds]
  intro candidate candidates
  obtain ⟨front, mem, rfl⟩ := List.mem_map.1 candidates
  have front' : front ∈ initials scope.segments := by
    rw [split]
    exact List.mem_append_left _ mem
  rw [inner ⟨front⟩ (mem_initials.1 front').2 (order.2.2 front mem _ (.head _))]
  exact Bool.false_ne_true

theorem exists_of_find?_candidates {found : String}
    (h : (scope.candidates name).find? p = some found) :
    ∃ q : Path, q.segments ≠ [] ∧ q.segments <+: scope.segments ∧ found = q.qualify name := by
  obtain ⟨front, mem, rfl⟩ := List.mem_map.1 (List.mem_of_find?_eq_some h)
  obtain ⟨some', inside⟩ := mem_initials.1 mem
  exact ⟨⟨front⟩, some', inside, rfl⟩

theorem render_child (some' : path.segments ≠ []) (name : String) :
    (path.child name).render = path.qualify name := by
  obtain ⟨segments⟩ := path
  cases segments with
  | nil => exact absurd rfl some'
  | cons =>
    rw [← chars_inj]
    simp only [render, child, qualify, List.cons_append, chars_join_cons, chars_append,
      suffixChars, List.flatMap_append]
    simp [chars_eq_toList]

theorem prefix_child : q.segments <+: (path.child name).segments ↔
    q = path.child name ∨ q.segments <+: path.segments := by
  rw [Path.mk.injEq]
  exact List.prefix_concat_iff

theorem Below.ne_nil (h : path.Below root) : path.segments ≠ [] := by
  obtain ⟨segments, hs, _⟩ := h
  rw [hs]
  exact nofun

theorem Below.of_shorter (h : scope.Below root) (some' : path.segments ≠ [])
    (inside : path.segments <+: scope.segments) : path.Below root := by
  obtain ⟨segments, hs, dotless⟩ := h
  obtain ⟨s, rest, hpath⟩ := List.exists_cons_of_ne_nil some'
  rw [hs, hpath, List.cons_prefix_cons] at inside
  refine ⟨rest, by rw [hpath, inside.1], fun t ht => dotless t ?_⟩
  exact inside.2.subset ht

/-- Paths whose segments after the first one are spelled like names. -/
def Spelled (path : Path) : Prop :=
  ∀ segment ∈ path.segments.tail, ∀ c ∈ chars segment, Name.isPart c = true

theorem Spelled.child (h : path.Spelled) (some' : path.segments ≠ [])
    (spelled : ∀ c ∈ chars name, Name.isPart c = true) : (path.child name).Spelled := by
  intro segment mem
  rw [Path.child, List.tail_append_of_ne_nil some', List.mem_append, List.mem_singleton] at mem
  rcases mem with mem | rfl
  · exact h segment mem
  · exact spelled

theorem Spelled.parent {parent : Path} (h : path.Spelled) (isParent : path.parent? = some parent) :
    parent.Spelled ∧ parent.segments ≠ [] := by
  unfold Path.parent? at isParent
  split at isParent
  · cases isParent
  · next long =>
    cases isParent
    constructor
    · intro segment mem
      rw [List.tail_dropLast] at mem
      exact h segment (List.dropLast_subset _ mem)
    · rw [Ne, ← List.length_eq_zero_iff, List.length_dropLast]
      omega

/-- Below a root without dots a qualified name is read as the path of a child. -/
theorem Below.parse_qualify (h : path.Below root) (dotless : '.' ∉ chars root)
    (plain : '.' ∉ chars name) : Path.parse (path.qualify name) = path.child name := by
  obtain ⟨segments, hs, free⟩ := h
  have all : ∀ segment ∈ (path.child name).segments, '.' ∉ chars segment := by
    intro segment mem
    simp only [Path.child, hs, List.cons_append, List.mem_cons, List.mem_append, List.not_mem_nil,
      or_false] at mem
    rcases mem with rfl | mem | rfl
    · exact dotless
    · exact free segment mem
    · exact plain
  have pieces : pieces '.' (join (String.singleton '.') (path.child name).segments) =
      (path.child name).segments :=
    pieces_join (by simp [Path.child]) all
  rw [← render_child (by rw [hs]; exact List.cons_ne_nil _ _), Path.parse]
  exact congrArg Path.mk pieces

theorem child_injective {path' : Path} {name' : String} (h : path.child name = path'.child name') :
    path = path' ∧ name = name' := by
  obtain ⟨segments⟩ := path
  obtain ⟨segments'⟩ := path'
  have split := List.append_inj' (congrArg Path.segments h) rfl
  exact ⟨congrArg Path.mk split.1, List.singleton_inj.1 split.2⟩

theorem leaf_child (path : Path) (name : String) : (path.child name).leaf = name := by
  simp [leaf, child]

theorem parent?_child (some' : path.segments ≠ []) (name : String) :
    (path.child name).parent? = some path := by
  obtain ⟨segments⟩ := path
  have long : ¬ (segments ++ [name]).length ≤ 1 := by
    have := List.length_pos_iff.2 some'
    simp only [List.length_append, List.length_singleton]
    simp only at this
    omega
  rw [parent?, child, if_neg long, List.dropLast_concat]

end Path

/-! ### The name of a definition -/

namespace Statement

theorem headChars_prefix (tokens : List Token) : headChars tokens <+: Token.cover tokens := by
  induction tokens with
  | nil => exact List.nil_prefix
  | cons _ _ ih =>
    rw [headChars, Token.cover_cons]
    split
    · exact List.nil_prefix
    · split
      · exact ( dropBlanksEnd_prefix _).trans (List.prefix_append _ _)
      · exact List.prefix_append_right_inj _ |>.2 ih

/-- What the header of a definition starts with, and the name after it. -/
theorem of_form_define (h : form line = .ok (.define name)) :
    (splitHead (trim line)).1 = "def" ∧
      name = (Argument.split (dropColon (splitHead (trim line)).2)).headD "" := by
  have keyword := ofKeyword?_of_form h rfl
  simp only [ofKeyword?] at keyword
  split at keyword
  · next head =>
    simp only [Except.ok.injEq, Option.some.injEq, Statement.define.injEq] at keyword
    exact ⟨head, keyword.symm⟩
  · grind

/-- The arguments of the header of a definition that can be registered. -/
theorem arguments_of_parse (trimmed : trim line = line) (head : (splitHead line).1 = "def")
    (parsed : Signature.parse line = .ok signature) :
    ∃ tokens, Argument.split (dropColon (splitHead line).2) = signature.name :: tokens ∧
      Argument.split ((dropEnd? ":" (splitHead line).2).getD (splitHead line).2) =
        signature.name :: tokens := by
  have chars : headChars (Token.scan line) = chars "def" := by
    rw [← head, splitHead, chars_ofList]
  obtain ⟨after, split⟩ := headChars_prefix (Token.scan line)
  rw [Token.cover_scan, chars] at split
  have dropped : dropStart? "def" line = some (String.ofList after) := by
    rw [dropStart?, List.isPrefixOf?_eq_some_iff_append_eq.2 split]
    rfl
  have rest : (splitHead line).2 = trim (String.ofList after) := by
    rw [splitHead, chars, ← split, List.drop_left]
  have again : trim (splitHead line).2 = (splitHead line).2 := by
    rw [trim_eq_self_iff, rest, trim, chars_ofList]
    exact trimmed_trimChars _
  have same : Argument.split (dropColon (splitHead line).2) =
      Argument.split ((dropEnd? ":" (splitHead line).2).getD (splitHead line).2) := by
    rw [dropColon, again]
    cases dropEnd? ":" (splitHead line).2 with
    | none => rfl
    | some front => exact Argument.split_trimEnd front
  obtain ⟨tokens, found, _⟩ := Signature.of_parse parsed
  simp only [Signature.listing, trimmed, dropped, Option.getD_some, ← rest] at found
  exact ⟨tokens, same.trans found, found⟩

/-- A definition has the name that its header was registered with. -/
theorem name_of_define (trimmed : trim line = line) (h : form line = .ok (.define name))
    (parsed : Signature.parse line = .ok signature) : name = signature.name := by
  obtain ⟨head, hname⟩ := of_form_define h
  rw [trimmed] at head hname
  obtain ⟨tokens, arguments, _⟩ := arguments_of_parse trimmed head parsed
  rw [hname, arguments]
  rfl

/-- The signs that decide the form of a line are punctuation marks, and no name starts with
one. -/
theorem sign_of_ofSign? {head rest : String} (h : ofSign? head rest = some st) :
    ∃ c cs, chars rest = c :: cs ∧ c ∈ ['=', '+', '-', '*', '/', '%', '<', '>'] := by
  simp only [ofSign?] at h
  split at h
  · next value found =>
    obtain ⟨dropped, _⟩ := Option.filter_eq_some_iff.1 found
    obtain ⟨cs, hcs, _⟩ := Option.map_eq_some_iff.1 dropped
    have starts := List.isPrefixOf?_eq_some_iff_append_eq.1 hcs
    exact ⟨'=', cs, starts.symm, by simp⟩
  · split at h
    · next operator operand found =>
      unfold Operator.split? at found
      split at found
      all_goals first | exact ⟨_, _, by assumption, by simp⟩ | cases found
    · split at h
      · next plus => exact ⟨'+', ['+'], by rw [plus]; rfl, by simp⟩
      · split at h
        · next minus => exact ⟨'-', ['-'], by rw [minus]; rfl, by simp⟩
        · cases h

/-- A header that can be registered is read as a definition. -/
theorem form_of_parse (trimmed : Text.trim line = line) (head : (splitHead line).1 = "def")
    (parsed : Signature.parse line = .ok signature) : form line = .ok (.define signature.name) := by
  obtain ⟨tokens, arguments, uncolored⟩ := arguments_of_parse trimmed head parsed
  have unsigned : ofSign? "def" (splitHead line).2 = none := by
    cases signed : ofSign? "def" (splitHead line).2 with
    | none => rfl
    | some =>
      obtain ⟨c, cs, chars, sign⟩ := sign_of_ofSign? signed
      have marks : c ∈ Token.punctuationMarks ∧ c ∉ Token.quoteMarks ∧ Text.isBlank c = false ∧
          c ≠ ':' ∧ Name.isStart c = false := by
        simp only [List.mem_cons, List.not_mem_nil, or_false] at sign
        rcases sign with rfl | rfl | rfl | rfl | rfl | rfl | rfl | rfl <;> decide
      obtain ⟨cs', starts⟩ : ∃ cs', Text.chars
          ((Text.dropEnd? ":" (splitHead line).2).getD (splitHead line).2) = c :: cs' := by
        cases dropped : Text.dropEnd? ":" (splitHead line).2 with
        | none => exact ⟨cs, chars⟩
        | some =>
          obtain ⟨fs, hfs, rfl⟩ := Option.map_eq_some_iff.1 dropped
          have whole := List.isSuffixOf?_eq_some_iff_append_eq.1 hfs
          rw [chars] at whole
          rw [Option.getD_some, Text.chars_ofList]
          cases fs with
          | nil => exact absurd (List.cons.inj whole).1.symm marks.2.2.2.1
          | cons f fs => exact ⟨fs, by rw [(List.cons.inj whole).1]⟩
      obtain ⟨first, rest, split, headChar⟩ :=
        Argument.exists_split_eq_cons starts marks.2.2.1
      rw [uncolored] at split
      obtain ⟨rfl, _⟩ := List.cons.inj split
      have isVariable := Name.isVariable_of_isFunction (Signature.isFunction_of_parse parsed)
      unfold Name.isVariable at isVariable
      split at isVariable
      · cases isVariable
      · next d ds hchars =>
        rw [hchars] at headChar
        cases headChar
        rw [marks.2.2.2.2] at isVariable
        cases isVariable
  have keyword : ofKeyword? "def" (splitHead line).2 line = .ok (some (.define signature.name)) := by
    simp only [ofKeyword?, if_true, arguments, List.headD_cons]
  rw [form, classify_eq, trimmed, head, fixed?, if_neg (by decide), unsigned, keyword]
  rfl

end Statement

/-! ### Workspaces that follow each other -/

namespace Workspace

variable {ws ws₁ ws' : Workspace}

/-- Two workspaces with the same lines and with the same routines, up to what was compiled. -/
structure Alike (ws ws' : Workspace) : Prop where
  lines : ws'.lines = ws.lines
  settings : ws'.settings = ws.settings
  origins (q : Path) :
    (ws'.routines.get? q).map Routine.origin = (ws.routines.get? q).map Routine.origin

theorem Alike.of_routines (routines : ws'.routines = ws.routines) (lines : ws'.lines = ws.lines)
    (settings : ws'.settings = ws.settings) : Alike ws ws' :=
  ⟨lines, settings, fun q => by rw [routines]⟩

theorem Alike.record (ws : Workspace) (event : Event) : Alike ws (ws.record event) :=
  .of_routines rfl rfl rfl

theorem Alike.trans (h : Alike ws ws₁) (h' : Alike ws₁ ws') : Alike ws ws' where
  lines := h'.lines.trans h.lines
  settings := h'.settings.trans h.settings
  origins q := (h'.origins q).trans (h.origins q)

theorem Alike.of_update (path : Path) {f : Routine → Routine}
    (origin : ∀ r, (f r).origin = r.origin) : Alike ws (ws.updateRoutine path f) where
  lines := rfl
  settings := rfl
  origins q := by
    rw [updateRoutine, Table.get?_modify, Option.map_map]
    congr 1
    funext r
    simp only [Function.comp_apply]
    split
    · exact origin r
    · rfl

theorem Alike.used (ws : Workspace) (path : Path) :
    Alike ws (ws.updateRoutine path ({ · with used := true })) :=
  .of_update path fun _ => rfl

theorem Alike.deferred (ws : Workspace) (path : Path) :
    Alike ws ((ws.updateRoutine path ({ · with template := some { symbols := ws.symbols } })).record
      (.definitionDeferred path)) :=
  have stored := Alike.of_update path (f := ({ · with template := some { symbols := ws.symbols } }))
    fun _ => rfl
  stored.trans (.record ..)

theorem Alike.found (h : Alike ws ws') {r' : Routine} (found : ws'.routines.get? q = some r') :
    ∃ r, ws.routines.get? q = some r ∧ r'.origin = r.origin := by
  have same := h.origins q
  rw [found, Option.map_some, eq_comm, Option.map_eq_some_iff] at same
  obtain ⟨r, old, origin⟩ := same
  exact ⟨r, old, origin.symm⟩

theorem Alike.symm (h : Alike ws ws') : Alike ws' ws :=
  ⟨h.lines.symm, h.settings.symm, fun q => (h.origins q).symm⟩

/-- One workspace comes after another: routines are added, and all keep their origins. -/
structure Develops (ws ws' : Workspace) : Prop where
  lines : ws'.lines = ws.lines
  settings : ws'.settings = ws.settings
  kept {q : Path} {r : Routine} : ws.routines.get? q = some r →
    ∃ r', ws'.routines.get? q = some r' ∧ r'.origin = r.origin

theorem Alike.develops (h : Alike ws ws') : Develops ws ws' :=
  ⟨h.lines, h.settings, fun found => by
    obtain ⟨r', found', origin⟩ := h.symm.found found
    exact ⟨r', found', origin.symm⟩⟩

theorem Develops.refl (ws : Workspace) : Develops ws ws :=
  ⟨rfl, rfl, fun found => ⟨_, found, rfl⟩⟩

theorem Develops.trans (h : Develops ws ws₁) (h' : Develops ws₁ ws') : Develops ws ws' :=
  ⟨h'.lines.trans h.lines, h'.settings.trans h.settings, fun found => by
    obtain ⟨r₁, found₁, origin⟩ := h.kept found
    obtain ⟨r', found', origin'⟩ := h'.kept found₁
    exact ⟨r', found', origin'.trans origin⟩⟩

theorem Develops.insert {r : Routine} (free : ws.routines.get? r.path = none) :
    Develops ws { ws with routines := ws.routines.insert r.path r } :=
  ⟨rfl, rfl, (Grows.of_insert free).kept⟩

/-- A workspace has a routine, whatever was compiled of it. -/
def Has (ws : Workspace) (self : Routine) : Prop :=
  ∃ r, ws.routines.get? self.path = some r ∧ r.origin = self.origin

theorem Develops.free (h : Develops ws ws') (free : ws'.routines.get? q = none) :
    ws.routines.get? q = none := by
  refine Option.eq_none_iff_forall_ne_some.2 fun r found => ?_
  obtain ⟨_, found', _⟩ := h.kept found
  rw [free] at found'
  cases found'

theorem Develops.has (h : Develops ws ws') (has : ws.Has self) : ws'.Has self := by
  obtain ⟨r, found, origin⟩ := has
  obtain ⟨r', found', origin'⟩ := h.kept found
  exact ⟨r', found', origin'.trans origin⟩

/-- Definitions stand in routines that are no guarded blocks, and the guarded block of such a
routine lies directly below it. All segments of paths but the first are like names. -/
structure Housed (ws : Workspace) : Prop where
  orderly : ws.Orderly
  spelled {q : Path} {r : Routine} : ws.routines.get? q = some r → q.Spelled
  homes {q : Path} {r : Routine} : ws.routines.get? q = some r → r.kind = .defined →
    ∃ home name h, q = home.child name ∧ ws.routines.get? home = some h ∧ h.kind.isGuard = false
  children {q : Path} {r : Routine} : ws.routines.get? q = some r → r.kind.isGuard = false →
    ∀ n, path r .guard n = q.block .guard n

theorem Housed.of_alike (h : Housed ws) (alike : Alike ws ws') : Housed ws' where
  orderly := h.orderly.of_origins alike.lines alike.settings alike.found
  spelled found := by
    obtain ⟨_, old, _⟩ := alike.found found
    exact h.spelled old
  homes {q r'} found defined := by
    obtain ⟨r, old, origin⟩ := alike.found found
    obtain ⟨home, name, owner, hq, foundHome, guard⟩ :=
      h.homes old ((Routine.kind_of_origin origin).symm.trans defined)
    obtain ⟨owner', foundHome', origin'⟩ := alike.develops.kept foundHome
    exact ⟨home, name, owner', hq, foundHome', by rw [Routine.kind_of_origin origin', guard]⟩
  children {q r'} found other n := by
    obtain ⟨r, old, origin⟩ := alike.found found
    rw [Routine.kind_of_origin origin] at other
    have same := h.children old other n
    unfold path at same ⊢
    rwa [Routine.path_of_origin origin]

theorem Has.below (has : ws.Has self) (orderly : ws.Orderly) :
    self.path.Below ws.settings.root := by
  obtain ⟨r, found, _⟩ := has
  exact orderly.below found

/-- Registering a routine at a free path. -/
theorem Housed.insert (h : Housed ws) {r : Routine} (free : ws.routines.get? r.path = none)
    (below : r.path.Below ws.settings.root) (spelled : r.path.Spelled)
    (defined : r.kind = .defined → (r.owner = r.path ∧ r.loop = none) ∧
      ∃ home name, r.path = home.child name ∧
        ∃ owner, ws.routines.get? home = some owner ∧ owner.kind.isGuard = false)
    (leaf : r.kind.isGuard = false → ∀ n, path r .guard n = r.path.block .guard n) :
    Housed { ws with routines := ws.routines.insert r.path r } where
  orderly := h.orderly.insert below fun isDefined => (defined isDefined).1
  spelled {q r'} found := by
    rw [Table.get?_insert] at found
    split at found
    · next same => exact same ▸ spelled
    · exact h.spelled found
  homes {q r'} found isDefined := by
    have develops := Develops.insert free
    rw [Table.get?_insert] at found
    split at found
    · next same =>
      cases found
      obtain ⟨home, name, hpath, owner, foundHome, guard⟩ := (defined isDefined).2
      obtain ⟨owner', foundHome', origin⟩ := develops.kept foundHome
      exact ⟨home, name, owner', same.trans hpath, foundHome', by
        rw [Routine.kind_of_origin origin, guard]⟩
    · obtain ⟨home, name, owner, hq, foundHome, guard⟩ := h.homes found isDefined
      obtain ⟨owner', foundHome', origin⟩ := develops.kept foundHome
      exact ⟨home, name, owner', hq, foundHome', by rw [Routine.kind_of_origin origin, guard]⟩
  children {q r'} found other n := by
    rw [Table.get?_insert] at found
    split at found
    · next same =>
      cases found
      rw [same]
      exact leaf other n
    · exact h.children found other n

end Workspace

theorem Effects.Kept.alike {start stop : Body × Workspace} (h : Effects.Kept start stop) :
    start.2.Alike stop.2 :=
  .of_routines h.routines h.lines h.settings

open Workspace BodyM

/-! ### Blocks and definitions -/

variable {self : Routine} {site : Site} {ws ws₁ ws' : Workspace}

theorem BlockRole.eq_of_ofSegment? {role' : BlockRole} {m : Nat}
    (h : BlockRole.ofSegment? (role.segment n) = some (role', m)) : role' = role := by
  have chars : chars (role.segment n) = role.letter :: chars (natural n) := by
    rw [BlockRole.segment, chars_append, chars_singleton, List.singleton_append]
  simp only [BlockRole.ofSegment?, chars, BlockRole.ofLetter?_letter, Option.bind_eq_bind,
    Option.bind_some, Option.bind_eq_some_iff] at h
  obtain ⟨_, _, h⟩ := h
  cases h
  rfl

/-- A path that ends in no guarded block has its guarded block directly below it. -/
theorem Block.path_guard_of_leaf
    (leaf : ∀ n, r.path.leafBlock? = some (.guard, n) → r.path.parent? = none) (n : Nat) :
    path r .guard n = r.path.block .guard n := by
  unfold path
  split
  · next m parent _ ends isParent =>
    rw [leaf m ends] at isParent
    cases isParent
  · rfl

theorem Block.path_of_ne_guard (other : role ≠ .guard) (n : Nat) :
    path self role n = self.path.block role n := by
  unfold path
  split
  · exact absurd rfl other
  · rfl

/-- A guarded block lies below its routine or beside it. -/
theorem Block.path_guard (self : Routine) (n : Nat) :
    path self .guard n = self.path.block .guard n ∨
      ∃ parent m, self.path.parent? = some parent ∧
        path self .guard n = parent.block .guard m := by
  unfold path
  split
  · next m parent _ ends isParent => exact .inr ⟨parent, m + 1, isParent, rfl⟩
  · exact .inl rfl

theorem BlockRole.isPart_of_mem_segment (role : BlockRole) (n : Nat) :
    ∀ c ∈ chars (role.segment n), Name.isPart c = true := by
  intro c mem
  rw [BlockRole.segment, chars_append, chars_singleton, List.singleton_append,
    List.mem_cons] at mem
  rcases mem with rfl | mem
  · cases role <;> decide
  · rw [Name.isPart, isDigit_of_mem_natural mem, Bool.or_true]

theorem Block.spelled_path (h : self.path.Spelled) (some' : self.path.segments ≠ []) (n : Nat) :
    (path self role n).Spelled := by
  unfold path
  split
  · next parent found =>
    obtain ⟨spelled, some'⟩ := h.parent found
    exact spelled.child some' (BlockRole.isPart_of_mem_segment _ _)
  · exact h.child some' (BlockRole.isPart_of_mem_segment _ _)

/-- Opening a block at a free path. -/
theorem Block.opened_housed {path : Path} (housed : ws.Housed) (has : ws.Has self)
    (hpath : path = Block.path self role n) (free : ws.routines.get? path = none) :
    ws.Develops (Block.opened self site role path ws) ∧
      (Block.opened self site role path ws).Housed := by
  have recorded : Alike
      { ws with routines := ws.routines.insert path (Block.routine self site role path) }
      (Block.opened self site role path ws) := .of_routines rfl rfl rfl
  have below := has.below housed.orderly
  have inserted := @Develops.insert ws (Block.routine self site role path) free
  refine ⟨inserted.trans recorded.develops, Housed.of_alike ?_ recorded⟩
  refine @Housed.insert ws housed (Block.routine self site role path) free ?_ ?_ nofun ?_
  · rw [show (Block.routine self site role path).path = path from rfl, hpath]
    exact Block.below_path below n
  · rw [show (Block.routine self site role path).path = path from rfl, hpath]
    obtain ⟨r, found, _⟩ := has
    exact Block.spelled_path (housed.spelled found) below.ne_nil n
  · intro other
    have ne : role ≠ .guard := by
      rintro rfl
      cases other
    refine Block.path_guard_of_leaf fun m ends => ?_
    rw [show (Block.routine self site role path).path = path from rfl, hpath,
      Block.path_of_ne_guard ne, Path.leafBlock?, Path.block, Path.leaf_child] at ends
    exact absurd (BlockRole.eq_of_ofSegment? ends).symm ne

/-- The routine of a definition as its block registers it. -/
def Definition.entry (home : Path) (depth index : Nat) (signature : Signature) : Routine where
  path := home.child signature.name
  kind := .defined
  start := index + 1
  depth := depth + 1
  owner := home.child signature.name
  params := signature.params

/-- Where an own line of a block stands: at the depth of the block, behind lines that are all in
it. -/
theorem Block.at_of_mem_own {line : Line} (mem : (i, line) ∈ own depth index lines) :
    line.depth = depth ∧ ∃ k, i = index + k ∧ lines[k]? = some line ∧
      ∀ m < k, ∀ before, lines[m]? = some before → depth ≤ before.depth := by
  induction lines generalizing index with
  | nil => cases mem
  | cons first lines ih =>
    -- the lines after the first one, given that it is in the block
    have later (inside : depth ≤ first.depth) (mem : (i, line) ∈ own depth (index + 1) lines) :
        line.depth = depth ∧ ∃ k, i = index + k ∧ (first :: lines)[k]? = some line ∧
          ∀ m < k, ∀ before, (first :: lines)[m]? = some before → depth ≤ before.depth := by
      obtain ⟨here, k, rfl, at', between⟩ := ih mem
      refine ⟨here, k + 1, by omega, by simpa using at', fun m early before at'' => ?_⟩
      cases m with
      | zero =>
        cases at''
        exact inside
      | succ m => exact between m (by omega) before (by simpa using at'')
    rw [own] at mem
    split at mem
    · cases mem
    · split at mem
      · exact later (by omega) mem
      · rcases List.mem_cons.1 mem with same | mem
        · cases same
          exact ⟨by omega, 0, rfl, rfl, fun m early => absurd early m.not_lt_zero⟩
        · exact later (by omega) mem

theorem Block.index_of_mem_own {line : Line} (mem : (i, line) ∈ own depth index lines) :
    index ≤ i ∧ i < index + lines.length := by
  obtain ⟨_, k, rfl, at', _⟩ := at_of_mem_own mem
  have := (List.getElem?_eq_some_iff.1 at').1
  omega

/-- All definitions among the lines of a block are registered below its first routine. -/
def Definition.Scanned (home : Path) (depth index : Nat) (lines : List Line) (ws : Workspace) :
    Prop :=
  ∀ i line, (i, line) ∈ own depth index lines → line.defines →
    ∃ signature r, Signature.parse line.text = .ok signature ∧
      ws.routines.get? (home.child signature.name) = some r ∧
      r.origin = entry home depth i signature

theorem Definition.Scanned.mono (h : Scanned home depth index lines ws)
    (develops : ws.Develops ws') : Scanned home depth index lines ws' := by
  intro i line mem defines
  obtain ⟨signature, r, parsed, found, origin⟩ := h i line mem defines
  obtain ⟨r', found', origin'⟩ := develops.kept found
  exact ⟨signature, r', parsed, found', origin'.trans origin⟩

theorem Definition.entered_housed (housed : ws.Housed) (has : ws.Has self)
    (other : self.kind.isGuard = false) (parsed : Signature.parse text = .ok signature)
    (free : ws.routines.get? (self.path.child signature.name) = none) :
    ws.Develops (entered self index signature ws) ∧
      (entered self index signature ws).Housed := by
  obtain ⟨routines, lines, settings, _⟩ :=
    addParamSlots_kept (self.path.child signature.name) signature.params ws
  rw [entered, ← routines]
  rw [← routines] at free
  generalize addParamSlots ws (self.path.child signature.name) signature.params = ws₁
    at free routines lines settings
  have isFunction := Signature.isFunction_of_parse parsed
  have alike : Alike ws ws₁ := .of_routines routines lines settings
  have housed₁ := housed.of_alike alike
  have has₁ := alike.develops.has has
  have isVariable := Name.isVariable_of_isFunction isFunction
  refine ⟨alike.develops.trans (.insert (r := routine self index signature) free),
    housed₁.insert (r := routine self index signature) free ?_ ?_ ?_ ?_⟩
  · exact (has₁.below housed₁.orderly).child (Name.dot_not_mem isVariable)
  · have some' := (has.below housed.orderly).ne_nil
    obtain ⟨r, found, _⟩ := has
    exact (housed.spelled found).child some' fun c mem => Name.isPart_of_mem isVariable mem
  · intro _
    obtain ⟨r, found, origin⟩ := has₁
    exact ⟨⟨rfl, rfl⟩, self.path, signature.name, rfl, r, found, by
      rw [Routine.kind_of_origin origin, other]⟩
  · intro _
    refine path_guard_of_leaf fun m ends => ?_
    rw [show (routine self index signature).path = self.path.child signature.name
      from rfl, Path.leafBlock?, Path.leaf_child] at ends
    simp only [Name.isFunction, ends, Option.isNone_some, Bool.and_false] at isFunction
    cases isFunction

/-- Registering definitions, each at a path that is free. -/
theorem Definition.Registered.housed {own : List (Nat × Line)}
    (h : Registered self own ws ws') (other : ∀ d ∈ own, self.kind.isGuard = false) :
    ws.Housed → ws.Has self → ws.Develops ws' ∧ ws'.Housed ∧ ∀ d ∈ own,
      ∃ signature r, Signature.parse d.2.text = .ok signature ∧
        ws.routines.get? (self.path.child signature.name) = none ∧
        ws'.routines.get? (self.path.child signature.name) = some r ∧
        r.origin = entry self.path self.depth d.1 signature := by
  induction h with
  | nil => exact fun housed _ => ⟨.refl _, housed, nofun⟩
  | @cons i _ _ ws _ signature parsed free _ ih =>
    intro housed has
    have noGuard := other _ (.head _)
    obtain ⟨develops, housed₁⟩ := entered_housed housed has noGuard parsed free
    obtain ⟨develops', housed', scanned⟩ := ih (fun _ _ => noGuard) housed₁ (develops.has has)
    refine ⟨develops.trans develops', housed', List.forall_mem_cons.2 ⟨?_, fun d mem => ?_⟩⟩
    · obtain ⟨r, found, origin⟩ := develops'.kept
        ((Table.get?_insert ..).trans (if_pos rfl) :
          (entered self i signature ws).routines.get? _ = some _)
      exact ⟨signature, r, parsed, free, found, origin⟩
    · obtain ⟨signature', r, parsed', free', found⟩ := scanned d mem
      exact ⟨signature', r, parsed', develops.free free', found⟩

/-- Registering definitions adds them and nothing else. -/
theorem Definition.Registered.adds {own : List (Nat × Line)}
    (h : Registered self own ws ws') (found : ws'.routines.get? q = some r) :
    ws.routines.get? q = some r ∨ ∃ i line signature, (i, line) ∈ own ∧
      Signature.parse line.text = .ok signature ∧
      q = self.path.child signature.name ∧ r = routine self i signature := by
  induction h with
  | nil => exact .inl found
  | @cons i line _ _ _ signature parsed _ _ ih =>
    rcases ih found with old | ⟨i', line', signature', mem, added⟩
    · rw [entered, Table.get?_insert] at old
      split at old
      · next same =>
        cases old
        exact .inr ⟨i, line, signature, .head _, parsed, same, rfl⟩
      · exact .inl old
    · exact .inr ⟨i', line', signature', .tail _ mem, added⟩

/-! ### The routines of one block -/

/-- A routine has lines of the block of `home`: it is that routine, or a guarded block below it
with nothing but guarded blocks between the two. -/
structure Routine.Within (routine : Routine) (home : Path) (ws : Workspace) : Prop where
  some' : home.segments ≠ []
  inside : home.segments <+: routine.path.segments
  own : routine.kind.isGuard = false → home = routine.path
  proper : routine.kind.isGuard = true → home.segments.length < routine.path.segments.length
  guards (q : Path) : q.segments <+: routine.path.segments →
    home.segments.length < q.segments.length →
      ∃ r, ws.routines.get? q = some r ∧ r.kind.isGuard = true

theorem Routine.Within.mono (h : self.Within home ws) (develops : ws.Develops ws') :
    self.Within home ws' :=
  { h with
    guards := fun q inside longer => by
      obtain ⟨r, found, guard⟩ := h.guards q inside longer
      obtain ⟨r', found', origin⟩ := develops.kept found
      exact ⟨r', found', by rw [Routine.kind_of_origin origin, guard]⟩ }

/-- A routine that is no guarded block is the first one of its block. -/
theorem Routine.within_self (other : self.kind.isGuard = false) (some' : self.path.segments ≠ []) :
    self.Within self.path ws where
  some' := some'
  inside := List.prefix_rfl
  own _ := rfl
  proper guard := by
    rw [other] at guard
    cases guard
  guards q inside longer := absurd inside.length_le (by omega)

/-- A guarded block is one segment longer than a routine of the same block. -/
theorem Routine.Within.guard_scope {guard : Path} (h : self.Within home ws) (housed : ws.Housed)
    (has : ws.Has self) (hpath : guard = Block.path self .guard n) :
    ∃ (scope : Path) (m : Nat), guard = scope.block .guard m ∧
      home.segments <+: scope.segments ∧ scope.segments <+: self.path.segments := by
  cases isGuard : self.kind.isGuard with
  | false =>
    obtain ⟨r, found, origin⟩ := has
    have child := housed.children found ((Routine.kind_of_origin origin).symm ▸ isGuard) n
    refine ⟨self.path, n, ?_, h.inside, List.prefix_rfl⟩
    rw [hpath, ← child]
    unfold Block.path
    rw [Routine.path_of_origin origin]
  | true =>
    rcases Block.path_guard self n with child | ⟨parent, m, isParent, sibling⟩
    · exact ⟨self.path, n, hpath.trans child, h.inside, List.prefix_rfl⟩
    · unfold Path.parent? at isParent
      split at isParent
      · cases isParent
      · cases isParent
        have front : self.path.segments.dropLast <+: self.path.segments :=
          List.dropLast_prefix _
        refine ⟨_, m, hpath.trans sibling, ?_, front⟩
        refine List.prefix_of_prefix_length_le h.inside front ?_
        have proper := h.proper isGuard
        rw [List.length_dropLast]
        omega

/-- The guarded block of a routine goes on with the same block. -/
theorem Routine.Within.guarded {home guard : Path} {n : Nat} (h : self.Within home ws)
    (housed : ws.Housed) (has : ws.Has self) (hpath : guard = Block.path self .guard n)
    (free : ws.routines.get? guard = none) :
    (Block.routine self site .guard guard).Within home
      (Block.opened self site .guard guard ws) := by
  obtain ⟨scope, m, rfl, outer, upper⟩ := h.guard_scope housed has hpath
  have segments : (scope.block .guard m).segments =
      scope.segments ++ [BlockRole.segment .guard m] := rfl
  refine ⟨h.some', ?_, nofun, fun _ => ?_, fun q inside longer => ?_⟩
  · exact outer.trans (segments ▸ List.prefix_append _ _)
  · change home.segments.length < (scope.block .guard m).segments.length
    rw [segments, List.length_append, List.length_singleton]
    exact Nat.lt_succ_of_le outer.length_le
  · rw [Block.get?_opened]
    split
    · exact ⟨_, rfl, rfl⟩
    · next other =>
      exact h.guards q (((Path.prefix_child.1 inside).resolve_left other).trans upper) longer

/-- Below a root with dots nothing is found, since a path is read from a text piece by piece. -/
theorem Workspace.Orderly.dotless {text : String} (orderly : ws.Orderly)
    (isDefined : ws.isDefined (Path.parse text) = true) : '.' ∉ chars ws.settings.root := by
  obtain ⟨_, found, _⟩ := isDefined_iff.1 isDefined
  obtain ⟨segments, hsegments, _⟩ := orderly.below found
  have pieces : pieces '.' text = ws.settings.root :: segments := hsegments
  exact not_mem_of_mem_pieces (s := text) (pieces ▸ .head _)

/-- The routines of one block find its definitions, each under the name of its header, if the root
is a single name. -/
theorem Definition.Scanned.resolveFunction? {line : Line} (h : Scanned home depth index lines ws)
    (housed : ws.Housed) (has : ws.Has self) (within : self.Within home ws)
    (mem : (i, line) ∈ own depth index lines) (defines : line.defines) :
    ∃ signature r, Signature.parse line.text = .ok signature ∧
      ws.routines.get? (home.child signature.name) = some r ∧
      r.origin = entry home depth i signature ∧ ws.resolveFunction? self.path signature.name =
        if '.' ∈ chars ws.settings.root then none else some (home.child signature.name) := by
  obtain ⟨signature, r, parsed, found, origin⟩ := h i line mem defines
  refine ⟨signature, r, parsed, found, origin, ?_⟩
  have isFunction := Signature.isFunction_of_parse parsed
  have plain := Name.dot_not_mem (Name.isVariable_of_isFunction isFunction)
  have some' : signature.name ≠ "" := by
    intro none
    rw [none] at isFunction
    cases isFunction
  have scope {q : Path} (some' : q.segments ≠ []) (inside : q.segments <+: self.path.segments) :
      q.Below ws.settings.root := (has.below housed.orderly).of_shorter some' inside
  rw [Workspace.resolveFunction?, if_neg some']
  split
  · next dotted =>
    refine List.find?_eq_none.2 fun q candidate isDefined => ?_
    obtain ⟨text, _, rfl⟩ := List.mem_map.1 candidate
    exact housed.orderly.dotless isDefined dotted
  · next dotless =>
    have home' := (scope within.some' within.inside).parse_qualify dotless plain
    have isDefined : (ws.isDefined ∘ Path.parse) (home.qualify signature.name) = true := by
      have kind : r.kind = .defined := congrArg Routine.kind origin
      simp [home', Workspace.isDefined, found, kind]
    rw [List.find?_map, Path.find?_candidates within.inside within.some' isDefined,
      Option.map_some, home']
    intro q inside longer
    have some' : q.segments ≠ [] := by
      intro none
      simp [none] at longer
    rw [Function.comp_apply, (scope some' inside).parse_qualify dotless plain, Bool.eq_false_iff]
    intro isDefined
    obtain ⟨d, foundDef, isDefined⟩ := Workspace.isDefined_iff.1 isDefined
    -- a definition stands in no guarded block
    obtain ⟨q', name, owner, same, foundOwner, other⟩ := housed.homes foundDef isDefined
    obtain ⟨rfl, _⟩ := Path.child_injective same
    obtain ⟨g, foundGuard, guard⟩ := within.guards q inside longer
    rw [foundOwner] at foundGuard
    cases foundGuard
    rw [other] at guard
    cases guard

/-! ### A compilation keeps the order of routines -/

/-- Only the commands of routines and slots differ. -/
structure Workspace.Reworks (ws ws' : Workspace) : Prop extends ws.SameLog ws' where
  settings : ws'.settings = ws.settings
  symbols : ws'.symbols = ws.symbols
  keys : ws'.routines.keys = ws.routines.keys
  routines : ∃ patch : Path → Routine → List Command, ∀ q, ws'.routines.get? q =
    (ws.routines.get? q).map fun r => { r with commands := patch q r }

namespace Workspace.Reworks

theorem of_routines (log : ws.SameLog ws') (settings : ws'.settings = ws.settings)
    (symbols : ws'.symbols = ws.symbols) (routines : ws'.routines = ws.routines) : Reworks ws ws' :=
  ⟨log, settings, symbols, by rw [routines], fun _ r => r.commands, fun q => by rw [routines]; simp⟩

theorem trans (h : Reworks ws ws₁) (h' : Reworks ws₁ ws') : Reworks ws ws' := by
  obtain ⟨log, settings, symbols, keys, patch, routines⟩ := h
  obtain ⟨log', settings', symbols', keys', patch', routines'⟩ := h'
  refine ⟨log.trans log', settings'.trans settings, symbols'.trans symbols, keys'.trans keys,
    fun q r => patch' q { r with commands := patch q r }, fun q => ?_⟩
  rw [routines', routines, Option.map_map]
  rfl

theorem of_update (path : Path) (f : Routine → List Command) :
    Reworks ws (ws.updateRoutine path fun r => { r with commands := f r }) := by
  refine ⟨.updateRoutine .., rfl, rfl, Table.keys_modify ..,
    fun q r => if q = path then f r else r.commands, fun q => ?_⟩
  rw [updateRoutine, Table.get?_modify]
  congr 1
  funext r
  by_cases same : q = path <;> simp [same]

theorem alike (h : Reworks ws ws') : Alike ws ws' := by
  obtain ⟨log, settings, _, _, patch, routines⟩ := h
  refine ⟨log.lines, settings, fun q => ?_⟩
  rw [routines, Option.map_map]
  rfl

theorem found (h : Reworks ws ws') (found : ws.routines.get? q = some r) :
    ∃ commands, ws'.routines.get? q = some { r with commands } := by
  obtain ⟨_, _, _, _, patch, routines⟩ := h
  exact ⟨patch q r, by rw [routines, found, Option.map_some]⟩

end Workspace.Reworks

/-- A header leaves all but commands and slots as they are. -/
theorem Condition.header_reworks {clauses : List Clause}
    (h : Gives (Condition.header self.path text) body ws clauses body' ws') :
    ws.Reworks ws' ∧ ∃ pending, body' = { body with pending := body.pending ++ pending } := by
  obtain ⟨effects, waiting, _⟩ :
      Effects self (fun _ => True) False (body, ws) (body', ws') ∧ _ ∧ _ :=
    Condition.effects_header (fun _ _ => trivial) h
  have kept := effects.kept
  obtain ⟨added, hbody, _⟩ := waiting.body
  exact ⟨.of_routines kept.toSameLog kept.settings waiting.symbols kept.routines, added, hbody⟩

theorem Loop.close_reworks {header : List Clause} {pending : List Command} {u : Unit}
    (h : Gives (Loop.close block header pending) body ws u body' ws') :
    body' = body ∧ ws.Reworks ws' := by
  obtain ⟨rfl, rfl⟩ := Loop.eq_of_close h
  exact ⟨rfl, (Workspace.Reworks.of_update _ _).trans (.of_update _ _)⟩

/-- What a statement does with a block changes commands only. -/
theorem Block.Heads.reworks (h : Heads self block st c c') :
    c.2.Reworks c'.2 ∧ c'.1.mayExit = c.1.mayExit ∧ c'.1.maySkip = c.1.maySkip ∧
      c'.1.locals = c.1.locals ∧ c'.1.counter = c.1.counter := by
  cases h with
  | branch headed =>
    obtain ⟨reworks, pending, rfl⟩ := Condition.header_reworks headed
    exact ⟨reworks, rfl, rfl, rfl, rfl⟩
  | otherwise _ headed =>
    obtain ⟨reworks, pending, rfl⟩ := Condition.header_reworks headed
    exact ⟨(Workspace.Reworks.of_update _ _).trans reworks, rfl, rfl, rfl, rfl⟩
  | times =>
    refine ⟨?_, rfl, rfl, rfl, rfl⟩
    simp only
    split
    · exact .of_update _ _
    · exact .of_routines (.refl _) rfl rfl rfl
  | loop headed closes =>
    obtain ⟨reworks, pending, rfl⟩ := Condition.header_reworks headed
    obtain ⟨rfl, reworks'⟩ := Loop.close_reworks closes
    exact ⟨reworks.trans reworks', rfl, rfl, rfl, rfl⟩

/-- Entering a body registers its definitions. -/
theorem Lowering.Enters.housed (h : Enters self ws ws') (housed : ws.Housed)
    (has : ws.Has self) :
    ws.Develops ws' ∧ ws'.Housed ∧ (self.kind.isGuard = false →
      Scanned self.path self.depth self.start (ws.lines.drop self.start) ws' ∧
      ∀ own ∈ Block.own self.depth self.start (ws.lines.drop self.start), own.2.defines →
        ∀ signature, Signature.parse own.2.text = .ok signature →
          ws.routines.get? (self.path.child signature.name) = none) := by
  obtain ⟨routines, lines, settings⟩ := bindParams_kept self ws
  have bound : Alike ws (bindParams self ws) := .of_routines routines lines settings
  obtain ⟨develops, housed', scanned⟩ := h.registered.housed
    (fun d mem => (Routine.mem_definitions.1 mem).1) (housed.of_alike bound) (bound.develops.has has)
  refine ⟨bound.develops.trans develops, housed', fun other => ⟨fun i line mem defines => ?_,
    fun own mem defines signature parsed => ?_⟩⟩
  · obtain ⟨signature, r, parsed, -, found⟩ :=
      scanned _ (Routine.mem_definitions.2 ⟨other, mem, defines⟩)
    exact ⟨signature, r, parsed, found⟩
  · obtain ⟨signature, r, parsed', free, -⟩ :=
      scanned _ (Routine.mem_definitions.2 ⟨other, mem, defines⟩)
    cases parsed.symm.trans parsed'
    exact routines ▸ free

/-- Entering a body adds its definitions and nothing else. -/
theorem Lowering.Enters.adds (h : Enters self ws ws')
    (found : ws'.routines.get? q = some r) :
    ws.routines.get? q = some r ∨ self.kind.isGuard = false ∧ ∃ i line signature,
      (i, line) ∈ own self.depth self.start (ws.lines.drop self.start) ∧ line.defines ∧
      Signature.parse line.text = .ok signature ∧ q = self.path.child signature.name ∧
      r = Definition.routine self i signature := by
  rcases h.registered.adds found with old | ⟨i, line, signature, mem, added⟩
  · exact .inl ((bindParams_kept self ws).1 ▸ old)
  · obtain ⟨other, mem, defines⟩ := Routine.mem_definitions.1 mem
    exact .inr ⟨other, i, line, signature, mem, defines, added⟩

/-- Plain statements have effects, whatever compiles the routines. -/
theorem Lowering.effects_plain {compile : Compile} (plain : st.isPlain = true)
    (calls : ∀ callee arguments, st = .call callee arguments → ws.isDefined callee = true)
    (h : Gives (statement compile self site st) body ws () body' ws') :
    Effects self (fun _ => True) True (body, ws) (body', ws') := by
  refine effects_statement plain ?_ (fun _ _ _ => trivial) h
  cases st with
  | call callee arguments => exact ⟨calls callee arguments rfl, by simp, by simp⟩
  | _ => trivial

/-- The routine whose lines a part of a compilation is about. -/
def Task.self? : Task → Option Routine
  | .routine .. => none
  | .lines self .. | .statement self .. | .rest self .. => some self

/-- A body that is stored. -/
theorem Lowering.stored_alike (self : Routine) (body : Body) (ws : Workspace) :
    Alike ws (stored self body ws) := by
  refine (Alike.record ws (.routineDone self.path body.commands.length)).trans ?_
  unfold stored
  exact .of_update _ fun _ => rfl

theorem Lowering.releaseLocals_alike (locals : List String) (ws : Workspace) :
    Alike ws (releaseLocals ws locals) := by
  obtain ⟨routines, lines, settings⟩ := releaseLocals_kept locals ws
  exact .of_routines routines lines settings

/-- A compilation adds routines in their order and keeps those that are there. -/
theorem Ran.housed {task : Task} {visits : List Visit} (ran : Ran task c visits c') :
    c.2.Housed → (∀ self, task.self? = some self → c.2.Has self) →
      c.2.Develops c'.2 ∧ c'.2.Housed := by
  induction ran with
  | @skip path _ _ ws self =>
    intro housed _
    have alike : Alike ws (stored self {} (ws.record (.routineStarted path))) :=
      (Alike.record ws (.routineStarted path)).trans (stored_alike ..)
    exact ⟨alike.develops, housed.of_alike alike⟩
  | @run path _ _ result ws _ ws₂ self _ _ _ found _ _ enters _ ih =>
    intro housed _
    have started := Alike.record ws (.routineStarted path)
    have has : ws.Has self := ⟨self, by rw [housed.orderly.keyed found, found], rfl⟩
    obtain ⟨entered, housed₁, _⟩ :=
      enters.housed (housed.of_alike started) (started.develops.has has)
    have develops₁ := started.develops.trans entered
    obtain ⟨develops₂, housed₂⟩ := ih housed₁ (by
      rintro _ ⟨⟩
      exact develops₁.has has)
    have ends : Alike ws₂ (stored self result
        (releaseLocals ws₂ result.locals)) :=
      (releaseLocals_alike ..).trans (stored_alike ..)
    exact ⟨(develops₁.trans develops₂).trans ends.develops, housed₂.of_alike ends⟩
  | nil => exact fun housed _ => ⟨.refl _, housed⟩
  | leave => exact fun housed _ => ⟨.refl _, housed⟩
  | deeper _ _ ih => exact fun housed has => ih housed has
  | quiet _ _ _ ih => exact fun housed has => ih housed has
  | @step self _ index line _ _ _ ws _ _ _ _ _ _ _ _ _ _ ihStatement ihAfter =>
    intro housed has
    have started := Alike.record ws (.lineStarted self.path index line.text)
    obtain ⟨develops₁, housed₁⟩ := ihStatement (housed.of_alike started) (by
      rintro _ ⟨⟩
      exact started.develops.has (has self rfl))
    have develops := started.develops.trans develops₁
    obtain ⟨develops₂, housed₂⟩ := ihAfter housed₁ (by
      rintro _ ⟨⟩
      exact develops.has (has self rfl))
    exact ⟨develops.trans develops₂, housed₂⟩
  | plain plain calls gives =>
    intro housed _
    have alike := (effects_plain plain calls gives).kept.alike
    exact ⟨alike.develops, housed.of_alike alike⟩
  | exit => exact fun housed _ => ⟨.refl _, housed⟩
  | next => exact fun housed _ => ⟨.refl _, housed⟩
  | defer =>
    exact fun housed _ => ⟨(Alike.deferred ..).develops, housed.of_alike (.deferred ..)⟩
  | define _ _ _ _ ih =>
    intro housed _
    obtain ⟨develops, housed'⟩ := ih housed (by rintro _ ⟨⟩)
    exact ⟨develops.trans (Alike.used ..).develops, housed'.of_alike (.used ..)⟩
  | @block self _ _ _ _ _ _ _ _ _ _ _ _ _ hpath free _ heads _ ihCompiled ihRest =>
    intro housed has
    obtain ⟨opened, housed₀⟩ := Block.opened_housed housed (has self rfl) hpath free
    obtain ⟨develops₁, housed₁⟩ := ihCompiled housed₀ (by rintro _ ⟨⟩)
    have alike := heads.reworks.1.alike
    have develops := (opened.trans develops₁).trans alike.develops
    obtain ⟨develops₂, housed₂⟩ := ihRest (housed₁.of_alike alike) (by
      rintro _ ⟨⟩
      exact develops.has (has self rfl))
    exact ⟨develops.trans develops₂, housed₂⟩
  | unguarded => exact fun housed _ => ⟨.refl _, housed⟩
  | @guarded self _ _ _ _ _ _ _ _ _ _ _ _ _ _ _ _ _ _ hpath free _ _ _ ih =>
    intro housed has
    obtain ⟨opened, housed₀⟩ := Block.opened_housed housed (has self rfl) hpath free
    obtain ⟨develops, housed'⟩ := ih housed₀ (by rintro _ ⟨⟩)
    exact ⟨opened.trans develops, housed'⟩

/-! ### Whole programs -/

namespace Workspace

variable {settings : Settings} {final : Workspace}

theorem Unbuilt.housed_withRoot (h : Unbuilt settings ws) : ws.withRoot.Housed where
  orderly := h.orderly_withRoot
  spelled {q r} found := by
    rw [(h.only_root found).1]
    exact nofun
  homes {q r} found defined := by
    obtain ⟨-, rfl⟩ := h.only_root found
    cases defined
  children {q r} found _ n := by
    obtain ⟨rfl, rfl⟩ := h.only_root found
    exact path_guard_of_leaf (fun _ _ => rfl) n

/-- The trace of a whole compilation. -/
theorem Unbuilt.ran (h : Unbuilt settings ws) (compiled : ws.compile = (.ok (), final)) :
    ∃ visits, Ran (.routine settings.rootPath none) ({}, ws.withRoot) visits ({}, final) := by
  obtain ⟨limit, gives⟩ := h.gives_compile compiled
  exact traced_compile limit {} gives

end Workspace

end CommandPack
