import CommandPack.Text.Search
import Mathlib

/-!
# Finding a text in another one

Cutting at a pattern finds its first occurrence. Behind a blank this is the one where the pattern is
put, since no pattern here has a blank in it.
-/

namespace CommandPack.Text

variable {pattern cs as bs : List Char}

theorem eq_append_of_cutChars {before after : List Char}
    (h : cutChars pattern cs = some (before, after)) : cs = before ++ (pattern ++ after) := by
  induction cs generalizing before with
  | nil =>
    rw [cutChars] at h
    split at h
    · next empty =>
      cases h
      rw [List.isEmpty_iff.1 empty]
      rfl
    · cases h
  | cons c cs ih =>
    rw [cutChars] at h
    split at h
    · next rest found =>
      cases h
      exact (List.isPrefixOf?_eq_some_iff_append_eq.1 found).symm
    · cases hcut : cutChars pattern cs with
      | none => simp [hcut] at h
      | some cut =>
        obtain ⟨before', after'⟩ := cut
        rw [hcut] at h
        cases h
        rw [ih hcut]
        rfl

theorem cutChars_eq_none (free : ¬ pattern <:+: cs) : cutChars pattern cs = none := by
  cases hcut : cutChars pattern cs with
  | none => rfl
  | some cut =>
    obtain ⟨before, after⟩ := cut
    refine absurd ⟨before, after, ?_⟩ free
    rw [eq_append_of_cutChars hcut, List.append_assoc]

theorem isSome_cutChars (inside : pattern <:+: cs) : (cutChars pattern cs).isSome = true := by
  induction cs with
  | nil =>
    rw [List.infix_nil.1 inside]
    rfl
  | cons c cs ih =>
    rw [cutChars]
    split
    · rfl
    · next other =>
      rcases List.infix_cons_iff.1 inside with ⟨rest, here⟩ | later
      · rw [List.isPrefixOf?_eq_some_iff_append_eq.2 here] at other
        cases other
      · rw [Option.isSome_map, ih later]

theorem chars_of_dropEnd? {ending s front : String} (h : dropEnd? ending s = some front) :
    chars s = chars front ++ chars ending := by
  obtain ⟨cs, found, rfl⟩ := Option.map_eq_some_iff.1 h
  rw [chars_ofList]
  exact (List.isSuffixOf?_eq_some_iff_append_eq.1 found).symm

theorem dropEnd?_of_chars {ending s : String} {front : List Char}
    (h : chars s = front ++ chars ending) : dropEnd? ending s = some (String.ofList front) := by
  rw [dropEnd?, List.isSuffixOf?_eq_some_iff_append_eq.2 h.symm]
  rfl

theorem chars_of_cut? {pattern s before after : String} (h : cut? pattern s = some (before, after)) :
    chars s = chars before ++ (chars pattern ++ chars after) := by
  obtain ⟨⟨as, bs⟩, found, same⟩ := Option.map_eq_some_iff.1 h
  cases same
  simpa using eq_append_of_cutChars found

/-- Replacing the first occurrence of a pattern that is there. -/
theorem chars_replaceFirst {pattern s : String} (replacement : String)
    (h : (cut? pattern s).isSome = true) : ∃ before after,
      chars s = before ++ (chars pattern ++ after) ∧
        chars (replaceFirst pattern replacement s) = before ++ chars replacement ++ after := by
  obtain ⟨cut, found⟩ := Option.isSome_iff_exists.1 h
  obtain ⟨⟨before, after⟩, foundChars, rfl⟩ := Option.map_eq_some_iff.1 found
  refine ⟨before, after, eq_append_of_cutChars foundChars, ?_⟩
  rw [replaceFirst, found]
  simp only [chars_append, chars_ofList]

/-- A pattern without blanks that starts in a text which ends in a blank lies in that text. -/
theorem prefix_of_prefix_append (blank : ' ' ∉ pattern) (ends : as.getLast? = some ' ')
    (h : pattern <+: as ++ bs) : pattern <+: as := by
  rcases List.prefix_or_prefix_of_prefix h (List.prefix_append as bs) with inside | beyond
  · exact inside
  · exact absurd (beyond.subset (List.mem_of_getLast? ends)) blank

/-- A pattern without blanks first occurs behind a text that has none and ends in a blank. -/
theorem cutChars_behind (blank : ' ' ∉ pattern) (free : ¬ pattern <:+: as)
    (ends : as = [] ∨ as.getLast? = some ' ') :
    cutChars pattern (as ++ bs) =
      (cutChars pattern bs).map fun (before, after) => (as ++ before, after) := by
  induction as with
  | nil => exact Option.map_id'.symm
  | cons c as ih =>
    have last : (c :: as).getLast? = some ' ' := ends.resolve_left (List.cons_ne_nil c as)
    have here : pattern.isPrefixOf? (c :: (as ++ bs)) = none := by
      rw [Option.eq_none_iff_forall_not_mem]
      intro rest found
      have starts : pattern <+: (c :: as) ++ bs :=
        ⟨rest, List.isPrefixOf?_eq_some_iff_append_eq.1 found⟩
      exact free (prefix_of_prefix_append blank last starts).isInfix
    rw [List.cons_append, cutChars, here, ih]
    · rw [Option.map_map]
      rfl
    · exact fun inside => free (inside.trans (List.suffix_cons c as).isInfix)
    · cases as with
      | nil => exact .inl rfl
      | cons => exact .inr (by simpa using last)

/-- A pattern whose first character does not come again occurs first where it is put behind a text
that has none. -/
theorem cutChars_append {c : Char} {rest : List Char} (once : c ∉ rest)
    (free : ¬ (c :: rest) <:+: as) :
    cutChars (c :: rest) (as ++ (c :: rest ++ bs)) = some (as, bs) := by
  induction as with
  | nil =>
    have found : (c :: rest).isPrefixOf? (c :: rest ++ bs) = some bs :=
      List.isPrefixOf?_eq_some_iff_append_eq.2 rfl
    rw [List.nil_append, List.cons_append, cutChars, ← List.cons_append, found]
  | cons a as ih =>
    have later : ¬ (c :: rest) <:+: as := fun inside =>
      free (inside.trans (List.suffix_cons a as).isInfix)
    have here : (c :: rest).isPrefixOf? (a :: (as ++ (c :: rest ++ bs))) = none := by
      rw [Option.eq_none_iff_forall_not_mem]
      intro after found
      have starts : c :: rest <+: (a :: as) ++ (c :: rest ++ bs) :=
        ⟨after, List.isPrefixOf?_eq_some_iff_append_eq.1 found⟩
      rcases List.prefix_or_prefix_of_prefix starts (List.prefix_append (a :: as) _) with
        inside | ⟨overlap, same⟩
      · exact free inside.isInfix
      · -- what goes over into the pattern itself starts with the first character again
        cases overlap with
        | nil => exact free (by rw [← same, List.append_nil])
        | cons d overlap =>
          obtain ⟨rfl, rfl⟩ := List.cons.inj same
          have again : d :: overlap <+: a :: (as ++ d :: overlap) ++ bs :=
            (List.prefix_append_right_inj (a :: as)).1 starts
          rw [List.cons_append, List.cons_prefix_cons] at again
          exact once (by rw [again.1]; simp)
    rw [List.cons_append, cutChars, here, ih later]
    rfl

/-- A pattern does not go over a character that it does not have. -/
theorem infix_append_cons {c : Char} (some' : pattern ≠ []) (other : c ∉ pattern)
    (h : pattern <:+: as ++ c :: bs) : pattern <:+: as ∨ pattern <:+: bs := by
  induction as with
  | nil =>
    rcases List.infix_cons_iff.1 h with here | later
    · rcases List.prefix_cons_iff.1 here with none | ⟨rest, rfl, _⟩
      · exact absurd none some'
      · exact absurd (List.mem_cons_self) other
    · exact .inr later
  | cons a as ih =>
    rcases List.infix_cons_iff.1 h with here | later
    · have starts : pattern <+: (a :: as) ++ c :: bs := here
      rcases List.prefix_or_prefix_of_prefix starts (List.prefix_append (a :: as) (c :: bs)) with
        inside | ⟨rest, rfl⟩
      · exact .inl inside.isInfix
      · -- a longer pattern has the character in it
        cases rest with
        | nil => exact .inl (by simp)
        | cons =>
          obtain ⟨tail, same⟩ := starts
          rw [List.append_assoc, List.append_cancel_left_eq, List.cons_append] at same
          rw [(List.cons.inj same).1] at other
          exact absurd (by simp) other
    · exact (ih later).imp_left fun inside => inside.trans (List.suffix_cons a as).isInfix

/-- A pattern that neither of two texts has is not in the second one behind the first one. -/
theorem not_infix_behind (some' : pattern ≠ []) (blank : ' ' ∉ pattern) (free : ¬ pattern <:+: as)
    (ends : as = [] ∨ as.getLast? = some ' ') (free' : ¬ pattern <:+: bs) :
    ¬ pattern <:+: as ++ bs := by
  intro inside
  rcases ends with rfl | ends
  · exact free' inside
  · obtain ⟨start, rfl⟩ := List.getLast?_eq_some_iff.1 ends
    rw [List.append_assoc] at inside
    rcases infix_append_cons some' blank inside with left | right
    · exact free (left.trans (List.prefix_append ..).isInfix)
    · exact free' right

end CommandPack.Text
