import CommandPack.Proofs.Text.Pieces
import CommandPack.Proofs.Text.Sealed
import CommandPack.Proofs.Text.Shielding
import CommandPack.Proofs.Text.Splitting

/-!
# The format of sources

The lines of a source can be laid out again with a tab for each level, and without comments, empty
lines and blanks around them. Reading this text gives the same lines, apart from their numbers.
-/

namespace CommandPack

open Text Argument Shield

variable {line : List Char} {c : Char} {source : Nat}

/-! ### Lines of a text -/

namespace Text

theorem lineChars_append (whole : '\n' ∉ line) (kept rest : List Char) :
    lineChars kept (line ++ '\n' :: rest) = closeLine (line.reverse ++ kept) :: lineChars [] rest := by
  induction line generalizing kept with
  | nil => rfl
  | cons c _ ih =>
    have other : c ≠ '\n' := fun same => whole (same ▸ .head _)
    rw [List.cons_append, lineChars, if_neg other, ih fun mem => whole (.tail _ mem),
      List.reverse_cons, List.append_assoc, List.singleton_append]

theorem closeLine_reverse (ends : line.getLast? ≠ some '\r') : closeLine line.reverse = line := by
  rw [← List.head?_reverse] at ends
  unfold closeLine
  split
  · next kept same =>
    rw [same] at ends
    exact absurd rfl ends
  · exact List.reverse_reverse line

/-- Lines that are written one after the other are read back. -/
theorem lines_concat {texts : List String}
    (whole : ∀ s ∈ texts, '\n' ∉ chars s ∧ (chars s).getLast? ≠ some '\r') :
    lines (concat (texts.map (· ++ "\n"))) = texts := by
  induction texts with
  | nil => rfl
  | cons s texts ih =>
    obtain ⟨inside, ends⟩ := whole s (.head _)
    have rest := ih fun t ht => whole t (.tail _ ht)
    have first : chars (concat ((s :: texts).map (· ++ "\n"))) =
        chars s ++ '\n' :: chars (concat (texts.map (· ++ "\n"))) := by
      rw [List.map_cons, concat, chars_append, chars_append, List.append_assoc]
      rfl
    rw [lines, first, lineChars_append inside, List.append_nil, closeLine_reverse ends, List.map_cons,
      ofList_chars, ← lines, rest]

theorem of_mem_closeLine {kept : List Char} (mem : c ∈ closeLine kept) : c ∈ kept := by
  unfold closeLine at mem
  split at mem
  · exact .tail _ (List.mem_reverse.1 mem)
  · exact List.mem_reverse.1 mem

theorem of_mem_lineChars {kept cs : List Char} (mem : line ∈ lineChars kept cs) (inside : c ∈ line) :
    c ∈ kept ∨ c ∈ cs ∧ c ≠ '\n' := by
  induction cs generalizing kept with
  | nil =>
    rw [lineChars] at mem
    split at mem
    · cases mem
    · rw [List.mem_singleton.1 mem] at inside
      exact .inl (List.mem_reverse.1 inside)
  | cons _ _ ih =>
    rw [lineChars] at mem
    split at mem
    · rcases List.mem_cons.1 mem with rfl | mem
      · exact .inl (of_mem_closeLine inside)
      · exact (ih mem).elim nofun fun ⟨later, other⟩ => .inr ⟨.tail _ later, other⟩
    · next other =>
      rcases ih mem with kept | ⟨later, other⟩
      · rcases List.mem_cons.1 kept with rfl | kept
        · exact .inr ⟨.head _, other⟩
        · exact .inl kept
      · exact .inr ⟨.tail _ later, other⟩

/-- The characters of a line stand in its text, and no line break is one of them. -/
theorem of_mem_lines {text line : String} (mem : line ∈ lines text) (inside : c ∈ chars line) :
    c ∈ chars text ∧ c ≠ '\n' := by
  obtain ⟨cs, found, rfl⟩ := List.mem_map.1 mem
  rw [chars_ofList] at inside
  exact (of_mem_lineChars found inside).resolve_left List.not_mem_nil

end Text

/-! ### Comments -/

namespace Comment

/-- A line is read by its arguments and by what is left of it without the blanks around it. -/
theorem strip_congr {a b : String} (arguments : split a = split b)
    (trimmed : trim a = trim b) : strip a = strip b := by
  rw [strip, strip, arguments, trimmed]

/-- The first of several texts that is a given one. -/
theorem exists_takeWhile {texts : List String} {s : String} (mem : s ∈ texts) :
    ∃ back, texts = texts.takeWhile (· ≠ s) ++ s :: back := by
  induction texts with
  | nil => cases mem
  | cons t texts ih =>
    by_cases same : t = s
    · exact ⟨texts, by simp [same]⟩
    · obtain ⟨back, later⟩ := ih ((List.mem_cons.1 mem).resolve_left fun other => same other.symm)
      refine ⟨back, ?_⟩
      rw [List.takeWhile_cons_of_pos (by simpa using same), List.cons_append, ← later]

/-- What is left of a line has no comment. -/
theorem strip_of_strip {line content : String} (h : strip line = some content) :
    strip content = some content := by
  have trimmed : trim content = content := trim_eq_self_iff.2 (trimmed_of_strip h)
  unfold strip at h
  split at h
  · cases h
    rfl
  · next first rest arguments =>
    split at h
    · cases h
    · next plain =>
      -- the arguments of what is left are the first arguments of the line
      have done {front : List String} (split' : split content = first :: front)
          (free : "#" ∉ first :: front) : strip content = some content := by
        rw [strip, split']
        simp only
        rw [if_neg plain, if_neg free, trimmed]
      split at h
      · next mem =>
        cases h
        obtain ⟨back, cut⟩ := exists_takeWhile mem
        have other : first ≠ "#" := by
          rintro rfl
          exact plain (by decide)
        have front : (first :: rest).takeWhile (· ≠ "#") =
            first :: rest.takeWhile (· ≠ "#") :=
          List.takeWhile_cons_of_pos (by simpa using other)
        have again := split_join_of_split (arguments.trans cut)
        rw [front] at again
        rw [front]
        rw [front] at done
        refine done again fun mem => ?_
        have none := List.mem_takeWhile_imp (front ▸ mem)
        exact absurd none (by decide)
      · next free =>
        cases h
        exact done ((split_trim line).trans arguments) free

/-- Splitting loses nothing but blanks, and is stable: the arguments of a line, written one after the
other with single spaces, are its arguments again, and a line without its comment has none. -/
theorem split_lossless_and_stable (line : String) :
    (∀ argument ∈ Argument.split line, argument ≠ "" ∧ trim argument = argument) ∧
      solid (concat (Argument.split line)) = solid line ∧
      Argument.split (join " " (Argument.split line)) = Argument.split line ∧
      (strip line).bind strip = strip line := by
  refine ⟨fun argument mem => ?_, Argument.solid_concat_split line, ?_, ?_⟩
  · exact ⟨Argument.ne_empty_of_mem_split mem, trim_eq_self_iff.2 (Argument.trimmed_of_mem_split mem)⟩
  · exact Argument.split_join_of_split (List.append_nil _).symm
  · cases h : strip line with
    | none => rfl
    | some => exact strip_of_strip h

/-- The characters of what is left of a line. -/
theorem of_mem_strip {line content : String} (h : strip line = some content)
    (mem : c ∈ chars content) : c = ' ' ∨ c ∈ chars line := by
  unfold strip at h
  split at h
  · cases h
    cases mem
  · next first rest arguments =>
    split at h
    · cases h
    · split at h
      · cases h
        rcases of_mem_join mem with space | ⟨part, inside, mem⟩
        · exact .inl (List.mem_singleton.1 space)
        · have argument : part ∈ split line := by
            rw [arguments]
            exact List.takeWhile_subset _ inside
          exact .inr ((excerpt_of_mem_split argument).isInfix.subset mem)
      · cases h
        exact .inr ((excerpt_trim line).isInfix.subset mem)

end Comment

/-! ### Laying out lines -/

namespace Line

/-- A line without its number. -/
def unnumbered (line : Line) : Line :=
  { line with number := 0 }

/-- A line as it is written with a tab for each level. -/
def written (line : Line) : String :=
  String.ofList (List.replicate line.depth '\t') ++ remove line.text

/-- The text that lines are laid out in. -/
def layOut (lines : List Line) : String :=
  concat (lines.map fun line => line.written ++ "\n")

/-- What reading leaves in a line: a text on its own, without blanks around it, comment or line
break, and shielded. -/
structure Settled (line : Line) : Prop where
  some : remove line.text ≠ ""
  stripped : Comment.strip (remove line.text) = Option.some (remove line.text)
  whole : '\n' ∉ chars (remove line.text)
  shielded : apply (remove line.text) = line.text

namespace Settled

variable {line : Line}

theorem trimmed (h : line.Settled) : Trimmed (chars (remove line.text)) :=
  Comment.trimmed_of_strip h.stripped

theorem ends (h : line.Settled) :
    ∃ c, (chars line.written).getLast? = Option.some c ∧ isBlank c = false := by
  have nonempty : chars (remove line.text) ≠ [] := fun none => h.some (chars_inj.1 none)
  refine ⟨(chars (remove line.text)).getLast nonempty, ?_,
    h.trimmed.2 _ (List.getLast?_eq_some_getLast nonempty)⟩
  rw [written, chars_append, List.getLast?_append, List.getLast?_eq_some_getLast nonempty]
  rfl

theorem whole_written (h : line.Settled) :
    '\n' ∉ chars line.written ∧ (chars line.written).getLast? ≠ Option.some '\r' := by
  constructor
  · rw [written, chars_append, chars_ofList, List.mem_append]
    rintro (tab | mem)
    · cases (List.mem_replicate.1 tab).2
    · exact h.whole mem
  · intro last
    obtain ⟨c, same, visible⟩ := h.ends
    rw [last] at same
    cases same
    cases visible

theorem strip_written (h : line.Settled) :
    Comment.strip line.written = Option.some (remove line.text) := by
  have blank : ∀ c ∈ List.replicate line.depth '\t', isBlank c = true := by
    intro c mem
    rw [(List.mem_replicate.1 mem).2]
    rfl
  have trimmed : trim line.written = trim (remove line.text) := by
    rw [trim, trim, written, chars_append, chars_ofList, trimChars, trimChars, dropBlanks,
      List.dropWhile_append_of_pos blank, dropBlanks]
  exact (Comment.strip_congr (split_blanks_append blank _) trimmed).trans h.stripped

theorem depth?_written (h : line.Settled) (unit : Nat) :
    Indent.depth? line.written unit = Option.some line.depth := by
  have leading : (chars line.written).takeWhile (fun c => c = '\t' || c = ' ') =
      List.replicate line.depth '\t' := by
    rw [written, chars_append, chars_ofList, List.takeWhile_append_of_pos]
    · cases starts : chars (remove line.text) with
      | nil => simp
      | cons c =>
        have visible := h.trimmed.1 c (by rw [starts]; rfl)
        rw [List.takeWhile_cons_of_neg, List.append_nil]
        simp only [Bool.or_eq_true, decide_eq_true_eq]
        rintro (rfl | rfl) <;> cases visible
    · intro c mem
      rw [(List.mem_replicate.1 mem).2]
      rfl
  have spaces : (List.replicate line.depth '\t').count ' ' = 0 :=
    List.count_eq_zero.2 fun mem => by cases (List.mem_replicate.1 mem).2
  rw [Indent.depth?]
  simp only [leading, spaces, List.count_replicate_self, Nat.zero_mod, if_true, Nat.zero_div,
    Nat.add_zero]

end Settled

/-- The lines of a text are settled. -/
theorem settled_of_readNumbered {unit number : Nat} {raws : List String} {lines : List Line}
    (free : ∀ raw ∈ raws, '\n' ∉ chars raw ∧ '\x01' ∉ chars raw)
    (h : readNumbered unit source number raws = .ok lines) :
    ∀ line ∈ lines, line.Settled ∧ line.source = source := by
  intro line mem
  obtain ⟨k, raw, content, depth, at', stripped, some', rfl⟩ := (of_readNumbered h).2 line mem
  obtain ⟨noBreak, noShield⟩ := free raw (List.mem_of_getElem? at')
  have inside {c : Char} (other : c ≠ ' ') (outside : c ∉ chars raw) :
      c ∉ chars content := fun mem =>
    (Comment.of_mem_strip stripped mem).elim other outside
  have same : remove (apply content) = content :=
    (remove_apply content).trans (remove_eq_self_iff.2 (inside (by decide) noShield))
  refine ⟨?_, rfl⟩
  constructor
  · exact fun empty => some' (same ▸ empty ▸ rfl)
  · simpa only [same] using Comment.strip_of_strip stripped
  · simpa only [same] using inside (by decide) noBreak
  · simp only [same]

/-- Settled lines are read back, with new numbers. -/
theorem readNumbered_written {lines : List Line}
    (settled : ∀ line ∈ lines, line.Settled ∧ line.source = source) (unit number : Nat) :
    ∃ again, readNumbered unit source number (lines.map written) = .ok again ∧
      again.map unnumbered = lines.map unnumbered := by
  induction lines generalizing number with
  | nil => exact ⟨[], rfl, rfl⟩
  | cons line _ ih =>
    obtain ⟨again, read, same⟩ := ih (fun l hl => settled l (.tail _ hl)) (number + 1)
    obtain ⟨own, source'⟩ := settled line (.head _)
    refine ⟨⟨line.depth, line.text, number, source⟩ :: again, ?_, ?_⟩
    · rw [List.map_cons, readNumbered, own.strip_written]
      split
      · next none => cases none
      · next empty => exact absurd (Option.some.inj empty) own.some
      · next content some' stripped =>
        obtain rfl := Option.some.inj stripped
        rw [own.depth?_written, read, own.shielded]
        rfl
    · rw [List.map_cons, List.map_cons, same, ← source']
      rfl

/-- Reading the text that the lines of a source are laid out in gives the same lines again, apart
from their numbers. -/
theorem read_layOut {text : String} (free : '\x01' ∉ chars text) {defaultIndent : Nat}
    {lines : List Line} (h : read text defaultIndent source = .ok lines) :
    ∃ again, read (layOut lines) defaultIndent source = .ok again ∧
      again.map unnumbered = lines.map unnumbered := by
  have settled := settled_of_readNumbered
    (fun raw mem => ⟨fun inside => (of_mem_lines mem inside).2 rfl,
      fun inside => free (of_mem_lines mem inside).1⟩) h
  have written' : Text.lines (layOut lines) = lines.map written := by
    have laid : layOut lines = concat ((lines.map written).map (· ++ "\n")) := by
      rw [List.map_map]
      rfl
    rw [laid]
    apply lines_concat
    intro s mem
    obtain ⟨line, own, rfl⟩ := List.mem_map.1 mem
    exact (settled line own).1.whole_written
  rw [read, written']
  exact readNumbered_written settled _ 1

end Line

end CommandPack
