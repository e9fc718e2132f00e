import CommandPack.Proofs.Lowering.Declaring
import CommandPack.Proofs.Lowering.Disciplines
import CommandPack.Proofs.Text.Sealed
import CommandPack.Proofs.Text.Search

/-!
# Quoted texts

The texts that a statement substitutes in, the arguments of its header and the defaults of its
parameters are parts of the line that it stands in, and end where its words end.
-/

namespace CommandPack

open Text

variable {line rest : String} {st : Statement}

namespace Text

theorem excerpt_of_dropStart? {start s : String} (dropped : dropStart? start s = some rest) :
    Excerpt (chars rest) (chars s) := by
  obtain ⟨cs, found, rfl⟩ := Option.map_eq_some_iff.1 dropped
  rw [chars_ofList, ← List.isPrefixOf?_eq_some_iff_append_eq.1 found]
  exact .of_suffix (List.suffix_append _ _)

theorem excerpt_of_dropEnd? {s front : String} (dropped : dropEnd? ":" s = some front) :
    Excerpt (chars front) (chars s) := by
  refine ⟨[], [':'], chars_of_dropEnd? dropped, .inr ?_⟩
  rintro _ ⟨⟩
  decide

end Text

namespace Statement

theorem excerpt_dropColon (text : String) : Excerpt (chars (dropColon text)) (chars text) := by
  unfold dropColon
  simp only
  split
  · next rest dropped =>
    rw [trimEnd, chars_ofList]
    exact (excerpt_dropBlanksEnd _).trans ((excerpt_of_dropEnd? dropped).trans (excerpt_trim text))
  · exact excerpt_trim text

theorem excerpt_splitHead (line : String) : Excerpt (chars (splitHead line).2) (chars line) := by
  refine (excerpt_trim _).trans ?_
  rw [chars_ofList]
  exact .of_suffix (List.drop_suffix _ _)

theorem excerpt_of_ofSign? {head : String} (signed : ofSign? head rest = some st) :
    ∀ text ∈ st.texts, Excerpt (chars text) (chars rest) := by
  simp only [ofSign?] at signed
  split at signed
  · next value found =>
    cases signed
    obtain ⟨dropped, _⟩ := Option.filter_eq_some_iff.1 found
    intro text mem
    rw [List.mem_singleton.1 mem]
    exact (excerpt_trim value).trans (excerpt_of_dropStart? dropped)
  · split at signed
    · cases signed
      exact List.forall_mem_nil _
    · split_ifs at signed
      all_goals
        cases signed
        exact List.forall_mem_nil _

theorem excerpt_of_ofKeyword? {head : String} (inside : Excerpt (chars rest) (chars line))
    (found : ofKeyword? head rest line = .ok (some st)) :
    ∀ text ∈ st.texts, Excerpt (chars text) (chars line) := by
  have after : ∀ text ∈ [dropColon rest], Excerpt (chars text) (chars line) := by
    intro text mem
    rw [List.mem_singleton.1 mem]
    exact (excerpt_dropColon rest).trans inside
  have clauses : ∀ text ∈ [dropColon line], Excerpt (chars text) (chars line) := by
    intro text mem
    rw [List.mem_singleton.1 mem]
    exact excerpt_dropColon line
  simp only [ofKeyword?] at found
  split at found
  · cases found
    exact List.forall_mem_nil _
  · repeat' split at found
    all_goals cases found
    all_goals first | exact after | exact clauses | exact List.forall_mem_nil _

/-- The texts of a statement are parts of its line. -/
theorem excerpt_of_classify {resolve : String → Option Path}
    (parsed : classify resolve line = .ok st) :
    ∀ text ∈ st.texts, Excerpt (chars text) (chars line) := by
  have rest := excerpt_splitHead (Text.trim line)
  have whole := excerpt_trim line
  rcases form_of_classify parsed with form | ⟨⟨callee, _, rfl⟩, _⟩
  · by_cases same : st = .command (Text.trim line)
    · intro text mem
      rw [same] at mem
      rw [List.mem_singleton.1 mem]
      exact whole
    · intro text mem
      have fixed := fixed?_of_form form same
      unfold fixed? at fixed
      split at fixed
      · next signed =>
        cases fixed
        split at signed
        · cases signed
        · exact ((excerpt_of_ofSign? signed text mem).trans rest).trans whole
      · exact (excerpt_of_ofKeyword? rest fixed text mem).trans whole
  · intro text mem
    rw [List.mem_singleton.1 mem]
    exact rest.trans whole

end Statement

namespace Signature

theorem excerpt_listing (line : String) : Excerpt (chars (listing line)) (chars line) := by
  have named : Excerpt (chars ((Text.dropStart? "def" (Text.trim line)).getD (Text.trim line)))
      (chars line) := by
    cases dropped : Text.dropStart? "def" (Text.trim line) with
    | none => exact excerpt_trim line
    | some => exact (excerpt_of_dropStart? dropped).trans (excerpt_trim line)
  unfold listing
  simp only
  generalize (Text.dropStart? "def" (Text.trim line)).getD (Text.trim line) = body at *
  cases dropped : Text.dropEnd? ":" (Text.trim body) with
  | none => exact (excerpt_trim body).trans named
  | some => exact (excerpt_of_dropEnd? dropped).trans ((excerpt_trim body).trans named)

/-- The defaults in a header are parts of it. -/
theorem excerpt_of_default {signature : Signature} (parsed : Signature.parse line = .ok signature) :
    ∀ param ∈ signature.params, ∀ argument, param.default = some argument →
      Excerpt (chars argument) (chars line) := by
  obtain ⟨tokens, listed, _, read⟩ := Signature.of_parse parsed
  intro param mem argument default
  obtain ⟨_, token, inside, same⟩ := Signature.mem_readParams read param mem
  have own : Excerpt (chars token) (chars line) :=
    (Argument.excerpt_of_mem_split (listed ▸ .tail _ inside)).trans (excerpt_listing line)
  rw [same, Signature.cutOptional] at default
  split at default
  · next before after cut =>
    cases default
    obtain ⟨⟨front, back⟩, found, same⟩ := Option.map_eq_some_iff.1 cut
    cases same
    rw [Text.eq_append_of_cutChars found, ← List.append_assoc] at own
    rw [chars_ofList]
    exact Excerpt.trans (.of_suffix (List.suffix_append _ _)) own
  · cases default

end Signature

end CommandPack
