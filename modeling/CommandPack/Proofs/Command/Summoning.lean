import CommandPack.Command.Summon
import CommandPack.Proofs.Text.Search
import CommandPack.Proofs.Text.Splitting

/-!
# Tags of summoned objects

The data of a summoned object is a compound at the end of its command. If the first list of tags in
the command is the compound's own, a tag is put into this list or into a new one, and everything
else stays as it is. A list of tags of a nested compound is taken for the compound's own.
-/

namespace CommandPack

open Text Token

namespace Summon

/-! ### Compounds -/

/-- What closes a bracket or a quote. -/
def closing : Char → Char
  | '[' => ']'
  | '\x7b' => '\x7d'
  | mark => mark

/-- Reads a character, given the brackets and the quote that are open, the innermost first. A
bracket that closes nothing fails. -/
def nest (opened : List Char) (c : Char) : Option (List Char) :=
  if opened.head?.map closing = some c then some opened.tail
  else if opened.head?.any (· ∈ quoteMarks) then some opened
  else if c = ']' ∨ c = '\x7d' then none
  else if c = '[' ∨ c = '\x7b' ∨ c ∈ quoteMarks then some (c :: opened)
  else some opened

/-- The text up to and with the bracket that opens a list of tags, among the entries of a compound. -/
def OpensTags (start : List Char) : Prop :=
  ∃ entries name gap, start = entries ++ (name ++ ':' :: (gap ++ ['['])) ∧
    entries.foldlM nest [] = some [] ∧ (entries = [] ∨ entries.getLast? = some ',') ∧
    trimChars name ∈ ["Tags", "\"Tags\"", "'Tags'"].map chars ∧ ∀ c ∈ gap, isBlank c = true

/-- The text that a list of tags is looked for by. -/
def sought (command : String) : String :=
  if (cut? "Tags:[]" command).isSome then "Tags:[]" else "Tags:["

/-- The list of tags that is found is the one of the compound itself, and if none is found then the
compound has none. -/
def Clear (command : String) (body : List Char) : Prop :=
  (∃ before rest front start, cut? (sought command) command = some (before, rest) ∧
      chars command = front ++ '\x7b' :: (body ++ ['\x7d']) ∧
      chars before ++ chars "Tags:[" = front ++ '\x7b' :: start ∧ start <+: body ∧ OpensTags start) ∨
    cut? (sought command) command = none ∧ ∀ start, start <+: body → ¬ OpensTags start

theorem foldlM_nest_append {as : List Char} (closed : as.foldlM nest [] = some [])
    (bs : List Char) : (as ++ bs).foldlM nest [] = bs.foldlM nest [] := by
  rw [List.foldlM_append, closed]
  rfl

theorem foldlM_nest_plain {cs : List Char}
    (plain : ∀ c ∈ cs, c ∉ [']', '\x7d', '[', '\x7b'] ++ quoteMarks) :
    cs.foldlM nest [] = some [] := by
  induction cs with
  | nil => rfl
  | cons c cs ih =>
    have here : nest [] c = some [] := by
      simpa [nest, not_or, and_assoc] using plain c (.head _)
    rw [List.foldlM_cons, here]
    exact ih fun d mem => plain d (.tail _ mem)

/-- Only the bracket of the list is open behind the start of a list of tags. -/
theorem OpensTags.foldlM_nest {start : List Char} (h : OpensTags start) :
    start.foldlM nest [] = some ['['] := by
  have blanks {cs : List Char} (blank : ∀ c ∈ cs, isBlank c = true) :
      cs.foldlM nest [] = some [] := by
    refine foldlM_nest_plain fun c mem mark => ?_
    have solid : ∀ c ∈ [']', '\x7d', '[', '\x7b'] ++ quoteMarks, isBlank c = false := by
      simp [quoteMarks, isBlank]
    exact absurd (blank c mem) (by simp [solid c mark])
  obtain ⟨entries, name, gap, rfl, closed, -, key, blank⟩ := h
  obtain ⟨before, behind, whole, front, back⟩ := exists_trimChars name
  have inside : (trimChars name).foldlM nest [] = some [] := by
    simp only [List.map_cons, List.map_nil, List.mem_cons, List.not_mem_nil, or_false] at key
    rcases key with key | key | key <;> rw [key] <;> rfl
  have colon : [':'].foldlM nest [] = some [] := rfl
  rw [foldlM_nest_append closed, whole, List.append_assoc, List.append_assoc,
    foldlM_nest_append (blanks front), foldlM_nest_append inside, foldlM_nest_append (blanks back),
    ← List.singleton_append, foldlM_nest_append colon, foldlM_nest_append (blanks blank)]
  rfl

/-- Text that ends in an opening brace is not closed. -/
theorem foldlM_nest_brace (cs : List Char) : (cs ++ ['\x7b']).foldlM nest [] ≠ some [] := by
  rw [List.foldlM_append]
  cases cs.foldlM nest [] with
  | none => exact nofun
  | some opened =>
    change (nest opened '\x7b').bind some ≠ some []
    rw [Option.bind_fun_some]
    cases opened with
    | nil => exact nofun
    | cons top outer =>
      have other : closing top ≠ '\x7b' := by
        unfold closing
        split <;> simp_all
      simp [nest, other]
      split <;> simp

/-! ### Tagging -/

/-- A tag is put behind the bracket of the list of tags that is found. -/
theorem chars_withTag_of_found {command tag before rest : String}
    (found : cut? (sought (trim command)) (trim command) = some (before, rest)) : ∃ after,
      chars (trim command) = chars before ++ chars "Tags:[" ++ after ∧
      chars (withTag command tag) = chars before ++ chars "Tags:[" ++
        (chars ("\"" ++ tag ++ "\"") ++ (if after.head? = some ']' then [] else [',']) ++ after) := by
  have empty : chars "Tags:[]" = chars "Tags:[" ++ [']'] := rfl
  have marks : chars "]" = [']'] ∧ chars "," = [','] := ⟨rfl, rfl⟩
  unfold sought at found
  have whole := chars_of_cut? found
  split at found
  · next some' =>
    rw [if_pos some', empty] at whole
    refine ⟨']' :: chars rest, by simpa using whole, ?_⟩
    simp [withTag, replaceFirst, found, marks]
  · next none =>
    rw [if_neg none] at whole
    have other : (chars rest).head? ≠ some ']' := fun first => by
      obtain ⟨after, same⟩ := List.head?_eq_some_iff.1 first
      refine none ((Option.isSome_map ..).trans (isSome_cutChars ⟨chars before, after, ?_⟩))
      rw [whole, same, empty]
      simp
    refine ⟨chars rest, by simpa using whole, ?_⟩
    simp [withTag, none, replaceFirst, found, marks, other]

/-- A text is put into the compound at the end of a command, where no quote and no other brace is
open: the tag, if a list of tags is open there, and otherwise a list with the tag as a last entry. -/
def TagsCompound (command tagged tag data : String) (body : List Char) : Prop :=
  ∃ front before after inserted opened, chars command = front ++ chars data ∧
    body = before ++ after ∧
    chars tagged = front ++ '\x7b' :: (before ++ (inserted ++ (after ++ ['\x7d']))) ∧
    before.foldlM nest [] = some opened ∧ (∀ c ∈ opened, c = '[') ∧
    (OpensTags before ∧
        inserted = chars ("\"" ++ tag ++ "\"") ++ (if after.head? = some ']' then [] else [',']) ∨
      (∀ start, start <+: body → ¬ OpensTags start) ∧ after = [] ∧
        inserted = (if body = [] then [] else [',']) ++
          (chars "Tags:[" ++ chars ("\"" ++ tag ++ "\"") ++ [']']))

/-- A tag is put into the data of the summoned object itself, in its list of tags or in a new one,
and nothing else is changed. -/
theorem withTag_tags_compound {command data : String} {body : List Char} (tag : String)
    (last : (Argument.split command).getLast? = some data)
    (compound : chars data = '\x7b' :: (body ++ ['\x7d']))
    (balanced : body.foldlM nest [] = some []) (clear : Clear (trim command) body) :
    TagsCompound (trim command) (withTag command tag) tag data body := by
  rcases clear with ⟨before, rest, front, start, found, whole, opens, ⟨after, rfl⟩, tags⟩ |
    ⟨missing, clear⟩
  · obtain ⟨behind, whole', tagged⟩ := @chars_withTag_of_found command tag _ _ found
    rw [opens] at whole' tagged
    have same : behind = after ++ ['\x7d'] := by simpa using whole'.symm.trans whole
    refine ⟨front, start, after, _, ['['], by rw [whole, compound], rfl, ?_, tags.foldlM_nest, by simp,
      .inl ⟨tags, rfl⟩⟩
    rw [tagged, same]
    cases after <;> simp
  · obtain ⟨front, whole⟩ := Argument.chars_trim_of_getLast? last
    have none : cut? "Tags:[]" (trim command) = none ∧ cut? "Tags:[" (trim command) = none := by
      unfold sought at missing
      split at missing
      · next some' => simp [missing] at some'
      · next none => exact ⟨by simpa using none, missing⟩
    refine ⟨front, body, [], _, [], whole, (List.append_nil body).symm, ?_, balanced, nofun,
      .inr ⟨clear, rfl, rfl⟩⟩
    have marks : chars "\x7bTags:[" = '\x7b' :: chars "Tags:[" ∧
        chars ",Tags:[" = ',' :: chars "Tags:[" ∧ chars "]\x7d" = [']', '\x7d'] ∧
        chars "\x7b\x7d" = ['\x7b', '\x7d'] := ⟨rfl, rfl, rfl, rfl⟩
    rw [compound] at whole
    simp only [withTag, none, Option.isSome_none, Bool.false_eq_true, if_false]
    by_cases empty : body = []
    · have ends : dropEnd? "\x7b\x7d" (trim command) = some (String.ofList front) :=
        dropEnd?_of_chars (by rw [whole, empty]; rfl)
      simp [ends, empty, marks]
    · have ends : dropEnd? "\x7d" (trim command) = some (String.ofList (front ++ '\x7b' :: body)) :=
        dropEnd?_of_chars (by rw [whole]; exact (List.append_assoc front ('\x7b' :: body) _).symm)
      have open' : dropEnd? "\x7b\x7d" (trim command) = Option.none := by
        -- a compound that is not empty does not end in an opening brace
        rw [Option.eq_none_iff_forall_ne_some]
        intro before braces
        obtain ⟨cs, c, rfl⟩ : ∃ cs c, body = cs ++ [c] :=
          ⟨_, _, (List.dropLast_concat_getLast empty).symm⟩
        have same : front ++ '\x7b' :: cs ++ [c, '\x7d'] = chars before ++ ['\x7b', '\x7d'] := by
          rw [← marks.2.2.2, ← chars_of_dropEnd? braces, whole]
          simp
        cases List.append_inj_right' same rfl
        exact foldlM_nest_brace cs balanced
      simp only [open', ends, if_neg empty, chars_append, chars_ofList, marks, List.append_assoc,
        List.cons_append, List.nil_append]

theorem withTag_tags_compound_rider :
    TagsCompound (trim "summon cow ~ ~ ~ \x7bA:1,Tags:['b c'],D:[\x7bTags:[e]\x7d]\x7d")
      (withTag "summon cow ~ ~ ~ \x7bA:1,Tags:['b c'],D:[\x7bTags:[e]\x7d]\x7d" "main.x") "main.x"
      "\x7bA:1,Tags:['b c'],D:[\x7bTags:[e]\x7d]\x7d" (chars "A:1,Tags:['b c'],D:[\x7bTags:[e]\x7d]") :=
  withTag_tags_compound "main.x" (by decide +kernel) (by decide +kernel) (by decide +kernel)
    (.inl ⟨"summon cow ~ ~ ~ \x7bA:1,", "'b c'],D:[\x7bTags:[e]\x7d]\x7d", chars "summon cow ~ ~ ~ ",
      chars "A:1,Tags:[", by decide +kernel, by decide +kernel, by decide +kernel, by decide +kernel,
      chars "A:1,", chars "Tags", [], by decide +kernel, by decide +kernel, by decide +kernel,
      by decide +kernel, nofun⟩)

/-- The tag goes to a passenger, if the first list of tags is the passenger's. -/
theorem withTag_tags_passenger :
    (Argument.split "summon cow ~ ~ ~ \x7bPassengers:[\x7bTags:[]\x7d]\x7d").getLast? =
        some "\x7bPassengers:[\x7bTags:[]\x7d]\x7d" ∧
      (chars "Passengers:[\x7bTags:[]\x7d]").foldlM nest [] = some [] ∧
      chars "\x7bTags:[]\x7d" <:+: chars "summon cow ~ ~ ~ \x7bPassengers:[\x7bTags:[]\x7d]\x7d" ∧
      ¬ chars "\x7bTags:[]\x7d" <:+:
        chars (withTag "summon cow ~ ~ ~ \x7bPassengers:[\x7bTags:[]\x7d]\x7d" "main.x") := by
  decide +kernel

end Summon

end CommandPack
