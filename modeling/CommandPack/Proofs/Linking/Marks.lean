import CommandPack.Command.Basic
import CommandPack.Proofs.Text.Pieces
import CommandPack.Proofs.Text.Shielding

/-!
# Reading marks back

A mark that is written behind a context is the first mark of its line, and it is read as it was
written. Contexts are free of marks and end in a blank, so a text without marks has none behind a
context either.
-/

namespace CommandPack

open Text Shield

variable {path : Path} {c : Char} {pack : String}
variable {cs held rest : List Char} {line : String}

/-! ### Paths -/

namespace CallMark

/-- No mark opens in a text. -/
def Unmarked (text : String) : Prop :=
  ¬ openingChars <:+: chars text

instance (text : String) : Decidable (Unmarked text) :=
  inferInstanceAs (Decidable (¬ openingChars <:+: chars text))

/-- What may stand before a mark: a text without marks that is empty or ends in a blank. -/
def IsContext (text : String) : Prop :=
  Unmarked text ∧ (chars text = [] ∨ (chars text).getLast? = some ' ')

instance (text : String) : Decidable (IsContext text) :=
  inferInstanceAs (Decidable (_ ∧ _))

end CallMark

/-- A character that no segment has is in a dotted path only as a dot. -/
theorem Path.not_mem_render (other : c ≠ '.')
    (free : ∀ segment ∈ path.segments, c ∉ chars segment) : c ∉ chars path.render := by
  intro mem
  rcases of_mem_join mem with dot | ⟨segment, inPath, mem⟩
  · exact other (List.mem_singleton.1 dot)
  · exact free segment inPath mem

/-- Paths that are read back from a mark: neither dots nor what ends or escapes a group is in their
segments. -/
structure Path.Legible (path : Path) : Prop where
  some : path.segments ≠ []
  free : ∀ segment ∈ path.segments, ∀ c ∈ ['.', '\x7d', '\\'], c ∉ chars segment

namespace Path.Legible

variable {path : Path}

theorem parse_render (h : path.Legible) : Path.parse path.render = path := by
  have pieces : pieces '.' (join (String.singleton '.') path.segments) = path.segments :=
    pieces_join h.some fun segment mem => h.free segment mem '.' (by simp)
  have same : path.render = join (String.singleton '.') path.segments := rfl
  rw [Path.parse, same, pieces]

theorem not_mem_render (h : path.Legible) (special : c ∈ ['\x7d', '\\']) :
    c ∉ chars path.render :=
  Path.not_mem_render (by rintro rfl; revert special; decide) fun segment mem =>
    h.free segment mem c (.tail _ special)

end Path.Legible

/-- Paths that a mark can be written with: they are read back from their dotted form, and neither
marks nor shielding characters are in them. -/
structure Path.Plain (path : Path) : Prop where
  some : path.segments ≠ []
  free : ∀ segment ∈ path.segments, ∀ c ∈ ['.', '\x7d', '\\', '\x01'], c ∉ chars segment
  unmarked : CallMark.Unmarked path.render

instance (path : Path) : Decidable path.Plain :=
  decidable_of_iff (path.segments ≠ [] ∧
      (path.segments.all fun segment =>
        ['.', '\x7d', '\\', '\x01'].all (!(chars segment).contains ·)) = true ∧
      CallMark.Unmarked path.render) <| by
    simp only [List.all_eq_true, Bool.not_eq_true', List.contains_eq_mem, decide_eq_false_iff_not]
    exact ⟨fun ⟨some', free, unmarked⟩ => ⟨some', free, unmarked⟩,
      fun ⟨some', free, unmarked⟩ => ⟨some', free, unmarked⟩⟩

namespace Path.Plain

variable {path : Path}

theorem legible (h : path.Plain) : path.Legible where
  some := h.some
  free segment mem c special := h.free segment mem c (by
    simp only [List.mem_cons, List.not_mem_nil, or_false] at special ⊢
    tauto)

theorem parse_render (h : path.Plain) : Path.parse path.render = path :=
  h.legible.parse_render

theorem not_mem_render (h : path.Plain) (special : c ∈ ['\x7d', '\\', '\x01']) :
    c ∉ chars path.render :=
  Path.not_mem_render (by rintro rfl; revert special; decide) fun segment mem =>
    h.free segment mem c (.tail _ special)

/-- The name of the output file is a part of the dotted path. -/
theorem artifact_suffix (path : Path) : chars path.artifact <:+ chars path.render := by
  obtain ⟨segments⟩ := path
  match segments with
  | [] => exact List.suffix_refl _
  | [name] => exact List.suffix_refl _
  | name :: next :: rest =>
    have render : Path.render ⟨name :: next :: rest⟩ =
        name ++ "." ++ join "." (next :: rest) := rfl
    rw [render, chars_append]
    exact List.suffix_append _ _

end Path.Plain

namespace CallMark

variable {text before : String} {mark : CallMark}

theorem find?_of_unmarked (h : Unmarked text) : find? text = none := by
  rw [find?, cutChars_eq_none h]
  rfl

/-- The text before the first mark is the start of the line. -/
theorem chars_of_find? {found : Found} (h : find? text = some found) :
    ∃ rest, chars text = chars found.before ++ '!' :: rest := by
  unfold find? at h
  cases hcut : cutChars openingChars (chars text) with
  | none => simp [hcut] at h
  | some cut =>
    obtain ⟨before, after⟩ := cut
    simp only [hcut, Option.bind_eq_bind, Option.bind_some] at h
    cases hgroups : readGroups (.inside []) after with
    | none => simp [hgroups] at h
    | some =>
      simp only [hgroups, Option.bind_some] at h
      split at h
      · cases h
        refine ⟨'f' :: '\x7b' :: after, ?_⟩
        rw [eq_append_of_cutChars hcut, chars_ofList]
        rfl
      · cases h

/-! ### Groups -/

/-- A text without braces and backslashes is read up to its end. -/
theorem readGroups_free (brace : '\x7d' ∉ cs) (escape : '\\' ∉ cs) :
    readGroups (.inside held) (cs ++ '\x7d' :: rest) =
      (readGroups .outside rest).map fun (groups, after) =>
        ((held.reverse ++ cs) :: groups, after) := by
  induction cs generalizing held with
  | nil => simp [readGroups]
  | cons _ _ ih =>
    rw [List.mem_cons, not_or] at brace escape
    rw [List.cons_append, readGroups, if_neg (Ne.symm escape.1), if_neg (Ne.symm brace.1),
      ih brace.2 escape.2]
    simp

/-- An argument is read as it was before it was escaped. -/
theorem readGroups_escapeChars :
    readGroups (.inside held) (escapeChars cs ++ '\x7d' :: rest) =
      (readGroups .outside rest).map fun (groups, after) =>
        ((held.reverse ++ cs) :: groups, after) := by
  induction cs generalizing held with
  | nil => simp [escapeChars, readGroups]
  | cons _ _ ih =>
    rw [escapeChars]
    split
    · rw [List.cons_append, readGroups, if_pos rfl, List.cons_append, readGroups, ih]
      simp
    · next plain =>
      simp only [Bool.or_eq_true, decide_eq_true_eq, not_or] at plain
      rw [List.cons_append, readGroups, if_neg plain.2, if_neg plain.1.2, ih]
      simp

theorem chars_concat_renderArgument (argument : String) (rest : List String) :
    chars (concat ((argument :: rest).map renderArgument)) =
      '\x7b' :: (escapeChars (chars argument) ++
        '\x7d' :: chars (concat (rest.map renderArgument))) := by
  rw [List.map_cons, concat, chars_append, renderArgument, chars_append,
    chars_append, chars_ofList (escapeChars (chars argument))]
  simp only [List.append_assoc]
  rfl

/-- Arguments are read up to a text that opens no further group. -/
theorem readGroups_append_arguments (arguments : List String) {rest : List Char}
    (stops : rest.head? ≠ some '\x7b') :
    readGroups .outside (chars (concat (arguments.map renderArgument)) ++ rest) =
      some (arguments.map chars, rest) := by
  induction arguments with
  | nil =>
    rw [List.map_nil, concat, List.map_nil]
    change readGroups .outside rest = _
    cases rest with
    | nil => rfl
    | cons c =>
      have other : c ≠ '\x7b' := fun opens => stops (congrArg some opens)
      rw [readGroups, if_neg other]
  | cons _ _ ih =>
    rw [chars_concat_renderArgument, List.cons_append, readGroups, if_pos rfl, List.append_assoc,
      List.cons_append, readGroups_escapeChars, ih]
    rfl

theorem readGroups_arguments (arguments : List String) :
    readGroups .outside (chars (concat (arguments.map renderArgument))) =
      some (arguments.map chars, []) := by
  simpa only [List.append_nil] using @readGroups_append_arguments arguments [] (by simp)

/-- The first mark of a line is the one behind a text without marks. -/
theorem cutChars_unmarked (h : Unmarked before) (rest : List Char) :
    cutChars openingChars (chars before ++ (openingChars ++ rest)) =
      some (chars before, rest) :=
  cutChars_append (by decide) h

theorem chars_append_render (before : String) (mark : CallMark) :
    chars (before ++ mark.render) = chars before ++ (openingChars ++
      (chars mark.target.render ++
        '\x7d' :: chars (concat (mark.arguments.map renderArgument)))) := by
  rw [chars_append, render, chars_append, chars_append, chars_append]
  simp only [List.append_assoc]
  rfl

/-- A mark between two texts is read as it was written, if the first text has no marks and the
second one opens no further group. -/
theorem find?_render_append {after : String} (unmarked : Unmarked before)
    (legible : mark.target.Legible) (stops : (chars after).head? ≠ some '\x7b') :
    find? (before ++ mark.render ++ after) = some ⟨before, mark, after⟩ := by
  obtain ⟨target, arguments⟩ := mark
  have groups : readGroups (.inside []) (chars target.render ++
      '\x7d' :: (chars (concat (arguments.map renderArgument)) ++ chars after)) =
        some (chars target.render :: arguments.map chars, chars after) := by
    rw [readGroups_free (legible.not_mem_render (by simp)) (legible.not_mem_render (by simp)),
      readGroups_append_arguments arguments stops]
    rfl
  have same : (arguments.map chars).map String.ofList = arguments := by
    rw [List.map_map]
    exact (List.map_congr_left fun argument _ => ofList_chars argument).trans (List.map_id _)
  rw [find?, chars_append, chars_append_render]
  simp only [List.append_assoc, List.cons_append]
  rw [cutChars_unmarked unmarked]
  simp only [Option.bind_eq_bind, Option.bind_some, groups, ofList_chars,
    legible.parse_render, same]
  rfl

/-- Whatever its arguments hold, the first mark of a line is found where it was written and read as
it was written. -/
theorem render_reads_back {after : String} (unmarked : Unmarked before)
    (some' : mark.target.segments ≠ [])
    (free : ∀ segment ∈ mark.target.segments, ∀ c ∈ ['.', '\x7d', '\\'], c ∉ chars segment)
    (stops : startsWith "\x7b" after = false) :
    ∃ found, find? (before ++ mark.render ++ after) = some found ∧ found.mark = mark ∧
      found.start = before.utf8ByteSize ∧
      found.stop (before ++ mark.render ++ after) = (before ++ mark.render).utf8ByteSize := by
  have other : (chars after).head? ≠ some '\x7b' := by
    intro opens
    obtain ⟨rest, same⟩ := List.head?_eq_some_iff.1 opens
    rw [startsWith, same] at stops
    exact Bool.noConfusion stops
  refine ⟨_, find?_render_append unmarked ⟨some', free⟩ other, rfl, rfl, ?_⟩
  rw [Found.stop, String.utf8ByteSize_append, Nat.add_sub_cancel]

/-- Braces, backslashes and openings of marks in the arguments do no harm. -/
theorem render_reads_back_escaped :
    ∃ found, find? ("execute if é run !!f" ++
        render ⟨⟨["main", "", "w\x7b0"]⟩, ["", "\x7d\\", "!f\x7bé\x7d\x7b", "\\\\\x7b"]⟩ ++
        "\x7d\x7b!f\x7bmain\x7d") = some found ∧
      found.mark = ⟨⟨["main", "", "w\x7b0"]⟩, ["", "\x7d\\", "!f\x7bé\x7d\x7b", "\\\\\x7b"]⟩ ∧
      found.start = "execute if é run !!f".utf8ByteSize ∧
      found.stop ("execute if é run !!f" ++
          render ⟨⟨["main", "", "w\x7b0"]⟩, ["", "\x7d\\", "!f\x7bé\x7d\x7b", "\\\\\x7b"]⟩ ++
          "\x7d\x7b!f\x7bmain\x7d") =
        ("execute if é run !!f" ++ render ⟨⟨["main", "", "w\x7b0"]⟩,
          ["", "\x7d\\", "!f\x7bé\x7d\x7b", "\\\\\x7b"]⟩).utf8ByteSize := by
  refine render_reads_back (by decide) (by decide) ?_ (by decide)
  simp only [List.forall_mem_cons, List.not_mem_nil, false_imp_iff, implies_true, and_true]
  decide

/-- A mark behind a context is read as it was written. -/
theorem find?_render (h : IsContext before) (plain : mark.target.Plain) :
    find? (before ++ mark.render) = some ⟨before, mark, ""⟩ := by
  have found := @find?_render_append before mark "" h.1 plain.legible (by decide)
  rwa [String.append_empty] at found

/-! ### Texts without marks -/

/-- A text without marks has none behind a context. -/
theorem IsContext.unmarked_append (h : IsContext before) (unmarked : Unmarked text) :
    Unmarked (before ++ text) := by
  rw [Unmarked, chars_append]
  exact not_infix_behind (by decide) (by decide) h.1 h.2 unmarked

/-- What neither the name of the pack nor the path has in it is not in the text of a call. -/
theorem not_infix_callText {pattern : List Char} (some' : pattern ≠ []) (blank : ' ' ∉ pattern)
    (colon : ':' ∉ pattern) (word : ¬ pattern <:+: chars "function")
    (name : ¬ pattern <:+: chars pack) (free : ¬ pattern <:+: chars path.render) :
    ¬ pattern <:+: chars (callText pack path) := by
  intro opens
  have written : chars (callText pack path) = chars "function" ++
      ' ' :: (chars pack ++ ':' :: chars path.artifact) := by
    rw [callText, chars_append, chars_append, chars_append]
    simp only [List.append_assoc]
    rfl
  rw [written] at opens
  rcases infix_append_cons some' blank opens with left | right
  · exact word left
  · rcases infix_append_cons some' colon right with left | right
    · exact name left
    · exact free (right.trans (Path.Plain.artifact_suffix path).isInfix)

/-- The text of a call has no marks, as far as the names in it have none. -/
theorem unmarked_callText (unmarked : Unmarked pack) (plain : path.Plain) :
    Unmarked (callText pack path) :=
  not_infix_callText (by decide) (by decide) (by decide) (by decide) unmarked plain.unmarked

end CallMark

/-! ### Shielding -/

namespace Shield

theorem remove_callText (free : '\x01' ∉ chars pack) (plain : path.Plain) :
    remove (callText pack path) = callText pack path := by
  have artifact : '\x01' ∉ chars path.artifact := fun mem =>
    plain.not_mem_render (by simp) ((Path.Plain.artifact_suffix path).mem mem)
  rw [callText, remove_append, remove_append, remove_append, remove_eq_self_iff.2 free,
    remove_eq_self_iff.2 artifact]
  rfl

end Shield

/-! ### Inert lines -/

theorem isInert_iff : isInert line = true ↔ ∃ rest, chars line = '#' :: rest := by
  have hash : chars "#" = ['#'] := rfl
  rw [isInert, startsWith, hash]
  cases chars line with
  | nil => exact ⟨nofun, nofun⟩
  | cons c rest =>
    rw [List.isPrefixOf_iff_prefix, List.cons_prefix_cons]
    exact ⟨fun h => ⟨rest, by rw [h.1]⟩, fun ⟨_, h⟩ =>
      ⟨(List.cons.inj h).1.symm, List.nil_prefix⟩⟩

theorem isInert_append {a b : String} (some' : chars a ≠ []) :
    isInert (a ++ b) = isInert a := by
  rw [Bool.eq_iff_iff, isInert_iff, isInert_iff, chars_append]
  cases h : chars a with
  | nil => exact absurd h some'
  | cons => simp

theorem isInert_remove (h : isInert line = true) : isInert (remove line) = true := by
  obtain ⟨rest, same⟩ := isInert_iff.1 h
  refine isInert_iff.2 ⟨rest.filter (· ≠ '\x01'), ?_⟩
  rw [chars_remove, same]
  rfl

theorem isInert_skipped (called : String) :
    isInert (inertText "skipped empty call" called) = true := by
  rw [inertText, String.append_assoc, String.append_assoc, isInert_append (by decide)]
  decide

/-- Behind a context that does not start a comment, active texts are active. -/
theorem CallMark.IsContext.active_append {before text other : String}
    (h : CallMark.IsContext before)
    (active : isInert (remove (before ++ other)) = false)
    (activeText : isInert (remove text) = false) :
    isInert (remove (before ++ text)) = false := by
  rcases h.2 with nil | ends
  · have empty : before = "" := chars_inj.1 nil
    rw [empty, String.empty_append]
    exact activeText
  · have some' : chars (remove before) ≠ [] := by
      obtain ⟨start, same⟩ := List.getLast?_eq_some_iff.1 ends
      rw [chars_remove, same, List.filter_append]
      exact List.append_ne_nil_of_right_ne_nil _ (by decide)
    rw [remove_append, isInert_append some'] at active ⊢
    exact active

end CommandPack
