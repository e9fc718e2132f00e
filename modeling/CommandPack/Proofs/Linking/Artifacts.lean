import CommandPack.Proofs.Linking.Preludes

/-!
# Names of output files

An output file is named by the path of its routine without the name of the root, and only the root
routine keeps that name. So two routines of a pack have one name if and only if one of them is the
root routine and the other one stands directly below it and has the name of the root again.
-/

namespace CommandPack

open Text Workspace Linking
open Path (parse root)

namespace Path

variable {root : String} {path path' : Path}

/-- Below a root without dots a path is read back from its dotted form. -/
theorem Below.parse_render (h : path.Below root) (dotless : '.' ∉ chars root) :
    parse path.render = path := by
  obtain ⟨segments, hs, free⟩ := h
  have some' : path.segments ≠ [] := by
    rw [hs]
    exact nofun
  have pieces : pieces '.' (join (String.singleton '.') path.segments) = path.segments := by
    refine pieces_join some' fun segment mem => ?_
    rw [hs] at mem
    rcases List.mem_cons.1 mem with rfl | mem
    · exact dotless
    · exact free segment mem
  exact congrArg Path.mk pieces

/-- The root routine and a routine directly below it that has the name of the root. -/
def Doubles (root : String) (path path' : Path) : Prop :=
  path = Path.root root ∧ path' = (Path.root root).child root

theorem Doubles.artifact_eq (h : Doubles root path path') : path.artifact = path'.artifact := by
  obtain ⟨rfl, rfl⟩ := h
  rfl

theorem Doubles.ne (h : Doubles root path path') : path ≠ path' := by
  obtain ⟨rfl, rfl⟩ := h
  intro same
  have lengths := congrArg (List.length ∘ Path.segments) same
  simp [Path.root, child] at lengths

/-- Dotted names of segments without dots are different for different segments. -/
theorem join_injective {as bs : List String} (someA : as ≠ []) (someB : bs ≠ [])
    (freeA : ∀ s ∈ as, '.' ∉ chars s) (freeB : ∀ s ∈ bs, '.' ∉ chars s)
    (same : join "." as = join "." bs) : as = bs :=
  calc
    as = pieces '.' (join (String.singleton '.') as) := (pieces_join someA freeA).symm
    _ = pieces '.' (join (String.singleton '.') bs) := congrArg (pieces '.') same
    _ = bs := pieces_join someB freeB

/-- The name of an output file belongs to one path below the root, apart from the name of the root. -/
theorem Below.eq_or_doubles (h : path.Below root) (h' : path'.Below root)
    (dotless : '.' ∉ chars root) (same : path.artifact = path'.artifact) :
    path = path' ∨ Doubles root path path' ∨ Doubles root path' path := by
  obtain ⟨segments, hs, free⟩ := h
  obtain ⟨segments', hs', free'⟩ := h'
  obtain ⟨all⟩ := path
  obtain ⟨all'⟩ := path'
  simp only at hs hs'
  subst hs hs'
  -- the root routine keeps its one segment, all others lose the first one
  match segments, segments' with
  | [], [] => exact .inl rfl
  | [], s :: rest =>
    have only : [root] = s :: rest :=
      join_injective (by simp) (by simp) (by simpa using dotless) free' same
    obtain ⟨rfl, rfl⟩ := List.cons.inj only
    exact .inr (.inl ⟨rfl, rfl⟩)
  | s :: rest, [] =>
    have only : s :: rest = [root] :=
      join_injective (by simp) (by simp) free (by simpa using dotless) same
    obtain ⟨rfl, rfl⟩ := List.cons.inj only
    exact .inr (.inr ⟨rfl, rfl⟩)
  | s :: rest, s' :: rest' =>
    have all : s :: rest = s' :: rest' := join_injective (by simp) (by simp) free free' same
    rw [all]
    exact .inl rfl

end Path

namespace Pack

variable {limit : Nat} {settings : Settings} {sources : List (String × String)} {pack : Pack}

/-- Every routine of a pack lies below the root and is read back from its key. -/
theorem History.parse_key (history : Pack.History limit settings sources pack)
    (dotless : '.' ∉ chars settings.root) {key : String} (mem : key ∈ pack.functions.keys) :
    (parse key).Below settings.root ∧ (parse key).render = key := by
  obtain ⟨-, -, -, paths⟩ := history.function?_eq
  obtain ⟨lines, found⟩ := Table.mem_keys_iff.1 mem
  obtain ⟨path, below, rfl⟩ := paths key lines found
  rw [below.parse_render dotless]
  exact ⟨below, rfl⟩

/-- The names of the output files of a pack, routine by routine. -/
theorem names_artifacts (pack : Pack) :
    pack.artifacts.map Prod.fst = pack.functions.keys.map fun key => (parse key).artifact := by
  simp [artifacts, Table.keys, Function.comp_def]

/-- Below a root without dots, two routines of a pack have one output file only if they are the root
routine and the routine directly below it that has its name. So all output files are distinct if and
only if these two are not both there. -/
theorem build_names_artifacts (built : Pack.build limit settings sources = .ok pack)
    (dotless : '.' ∉ chars settings.root) :
    (∀ key ∈ pack.functions.keys, ∀ key' ∈ pack.functions.keys,
      (parse key).artifact = (parse key').artifact → key ≠ key' →
        (key = settings.root ∧ key' = settings.root ++ "." ++ settings.root) ∨
        (key' = settings.root ∧ key = settings.root ++ "." ++ settings.root)) ∧
    ((pack.artifacts.map Prod.fst).Nodup ↔
      ¬ (settings.root ∈ pack.functions.keys ∧
        settings.root ++ "." ++ settings.root ∈ pack.functions.keys)) := by
  obtain ⟨history⟩ := exists_history built
  have alone : ∀ key ∈ pack.functions.keys, ∀ key' ∈ pack.functions.keys,
      (parse key).artifact = (parse key').artifact → key ≠ key' →
        (key = settings.root ∧ key' = settings.root ++ "." ++ settings.root) ∨
        (key' = settings.root ∧ key = settings.root ++ "." ++ settings.root) := by
    intro key mem key' mem' same different
    obtain ⟨below, back⟩ := history.parse_key dotless mem
    obtain ⟨below', back'⟩ := history.parse_key dotless mem'
    rcases below.eq_or_doubles below' dotless same with equal | ⟨first, second⟩ | ⟨first, second⟩
    · exact absurd (back.symm.trans ((congrArg Path.render equal).trans back')) different
    · rw [← back, ← back', first, second]
      exact .inl ⟨rfl, rfl⟩
    · rw [← back, ← back', first, second]
      exact .inr ⟨rfl, rfl⟩
  refine ⟨alone, ?_⟩
  rw [names_artifacts]
  constructor
  · rintro distinct ⟨root, doubled⟩
    have parsed : Path.parse settings.root = Path.root settings.root :=
      Path.below_root.parse_render dotless
    have parsed' : parse (settings.root ++ "." ++ settings.root) =
        (Path.root settings.root).child settings.root :=
      (Path.below_root.child dotless).parse_render dotless
    have doubles : Path.Doubles settings.root (parse settings.root)
        (parse (settings.root ++ "." ++ settings.root)) := ⟨parsed, parsed'⟩
    have equal := List.inj_on_of_nodup_map distinct root doubled doubles.artifact_eq
    exact doubles.ne (congrArg parse equal)
  · intro apart
    refine List.Nodup.map_on ?_ pack.functions.nodup
    intro key mem key' mem' same
    by_contra different
    rcases alone key mem key' mem' same different with ⟨rfl, rfl⟩ | ⟨rfl, rfl⟩
    · exact apart ⟨mem, mem'⟩
    · exact apart ⟨mem', mem⟩

/-- Blocks, a definition in a definition and two variants, one of which holds a block. -/
def nestedNames : String :=
  "def f:\n    def f x#s:\n        if go:\n            say x\n            say 1\n        say 2\n" ++
    "    f a\n    f b\nif go:\n    f\n    f\nf"

theorem build_names_artifacts_nestedNames :
    ∃ pack, Pack.build 100 {} [("", nestedNames)] = .ok pack ∧ '.' ∉ chars "main" ∧
      pack.functions.keys = ["main", "main.f", "main.e0", "main.f.f.s0", "main.f.f.s0.e0",
        "main.f.f.s1", "main.f.f.s1.e0"] ∧
      (pack.artifacts.map Prod.fst).Nodup := by
  obtain ⟨pack, built, keys⟩ : ∃ pack, Pack.build 100 {} [("", nestedNames)] = .ok pack ∧
      pack.functions.keys = ["main", "main.f", "main.e0", "main.f.f.s0", "main.f.f.s0.e0",
        "main.f.f.s1", "main.f.f.s1.e0"] := by decide +kernel
  have dotless : '.' ∉ chars (Settings.root {}) := by decide +kernel
  refine ⟨pack, built, dotless, keys, (build_names_artifacts built dotless).2.2 ?_⟩
  rw [keys]
  decide +kernel

/-- A definition with the name of the root has the output file of the root, and a call of it is a
call of the root. -/
theorem build_shares_artifact :
    ∃ pack, Pack.build 100 {} [("", "def main:\n    say 1\n    say 2\nsay 0\nmain")] = .ok pack ∧
      '.' ∉ chars "main" ∧
      pack.functions.entries = [("main", ["say 0", "function pack:main"]),
        ("main.main", ["say 1", "say 2"])] ∧
      pack.artifacts.map Prod.fst = ["main", "main"] := by
  decide +kernel

end Pack

end CommandPack
