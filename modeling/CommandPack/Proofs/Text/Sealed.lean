import CommandPack.Proofs.Text.Lexing
import CommandPack.Proofs.Text.Splitting

/-!
# Sealed texts

A mark and a placeholder open with an exclamation mark, a letter and a brace. A text is sealed if
no exclamation mark and letter of this kind stand in it at the end of a word, so that no brace can
come to stand behind them. Cutting a sealed text where a word ends and putting sealed texts
together leave sealed texts.
-/

namespace CommandPack

namespace Text

/-- The characters that a word ends before. -/
def endsWord (c : Char) : Bool :=
  c ∈ Token.quoteMarks || c ∈ Token.punctuationMarks || isBlank c || c = '#'

/-- The letters of a mark and of a placeholder. -/
def isOpener (c : Char) : Bool :=
  c = 'f' || c = 's'

/-- Whether characters start like a mark or a placeholder, with the end of a word for the brace. -/
def opens : List Char → Bool
  | mark :: letter :: rest => mark = '!' && isOpener letter && rest.head?.all endsWord
  | _ => false

/-- A property of the character at an end of a text is decided at this character, and not for all
characters. -/
theorem each_of_all {o : Option Char} {p : Char → Prop} [DecidablePred p]
    (h : (o.all fun c => decide (p c)) = true) : ∀ c ∈ o, p c := by
  rintro c rfl
  exact of_decide_eq_true h

/-- Nothing opens at the end of a word. -/
def Sealed (cs : List Char) : Prop :=
  ∀ tail ∈ cs.tails, opens tail = false

instance (cs : List Char) : Decidable (Sealed cs) :=
  inferInstanceAs (Decidable (∀ tail ∈ cs.tails, opens tail = false))

section Sealed

variable {as bs cs : List Char} {c : Char}

theorem sealed_iff : Sealed cs ↔ ∀ tail, tail <:+ cs → opens tail = false := by
  simp only [Sealed, List.mem_tails]

theorem Sealed.of_suffix (h : Sealed cs) (suffix : as <:+ cs) : Sealed as :=
  sealed_iff.2 fun tail inside => sealed_iff.1 h tail (inside.trans suffix)

theorem Sealed.right (h : Sealed (as ++ bs)) : Sealed bs :=
  h.of_suffix (List.suffix_append _ _)

/-- Only an exclamation mark can open. -/
theorem sealed_of_not_mem (free : '!' ∉ cs) : Sealed cs := by
  refine sealed_iff.2 fun tail suffix => ?_
  match tail, suffix with
  | [], _ => rfl
  | [_], _ => rfl
  | mark :: letter :: rest, suffix =>
    have other : mark ≠ '!' := by
      rintro rfl
      exact free (suffix.subset (.head _))
    simp [opens, other]

/-- What opens goes on opening, unless it is the end of a text that goes on with the same word. -/
theorem opens_append (h : opens as = true)
    (ends : (∀ c ∈ as.getLast?, isOpener c = false) ∨ ∀ c ∈ bs.head?, endsWord c = true) :
    opens (as ++ bs) = true := by
  match as, h with
  | [mark, letter], h =>
    simp only [opens, List.head?_nil, Option.all_none, Bool.and_true, Bool.and_eq_true] at h
    rcases ends with ends | ends
    · have none := ends letter rfl
      rw [h.2] at none
      cases none
    · cases bs with
      | nil => simpa [opens] using h
      | cons c => simpa [opens, ends c rfl] using h
  | _ :: _ :: _ :: _, h => exact h

/-- A sealed text may be cut where a word ends, and behind a letter that opens nothing. -/
theorem Sealed.left (h : Sealed (as ++ bs))
    (ends : (∀ c ∈ as.getLast?, isOpener c = false) ∨ ∀ c ∈ bs.head?, endsWord c = true) :
    Sealed as := by
  refine sealed_iff.2 fun tail suffix => Bool.not_eq_true _ ▸ fun opening => ?_
  obtain ⟨front, rfl⟩ := suffix
  have ends' : (∀ c ∈ tail.getLast?, isOpener c = false) ∨ ∀ c ∈ bs.head?, endsWord c = true := by
    refine ends.imp_left fun ends c last => ends c ?_
    rw [List.getLast?_append, Option.mem_def.1 last]
    rfl
  have none := sealed_iff.1 h (tail ++ bs) ⟨front, by rw [List.append_assoc]⟩
  rw [opens_append opening ends'] at none
  cases none

/-- Sealed texts one after the other. An exclamation mark at the end must not meet a letter. -/
theorem Sealed.append (h : Sealed as) (h' : Sealed bs)
    (seam : as.getLast? ≠ some '!' ∨ ∀ c ∈ bs.head?, isOpener c = false) :
    Sealed (as ++ bs) := by
  induction as with
  | nil => exact h'
  | cons a as ih =>
    have later : Sealed (as ++ bs) := by
      cases as with
      | nil => exact h'
      | cons => exact ih (h.of_suffix (List.suffix_cons _ _)) (by simpa using seam)
    refine sealed_iff.2 fun tail suffix => ?_
    rcases List.suffix_cons_iff.1 suffix with rfl | suffix
    · have here := sealed_iff.1 h _ (List.suffix_refl _)
      match as with
      | [] =>
        cases bs with
        | nil => rfl
        | cons b =>
          rcases seam with other | other
          · have : a ≠ '!' := by simpa using other
            simp [opens, this]
          · simp [opens, other b rfl]
      | [b] =>
        simp only [opens, List.head?_nil, Option.all_none, Bool.and_true] at here
        simp [opens, here]
      | _ :: _ :: _ => exact here
    · exact sealed_iff.1 later tail suffix

/-- No mark and no placeholder opens in a sealed text. -/
theorem Sealed.no_opening (h : Sealed cs) (letter : isOpener c = true) :
    ¬ ['!', c, '\x7b'] <:+: cs := by
  rintro ⟨front, back, rfl⟩
  have none := sealed_iff.1 h (['!', c, '\x7b'] ++ back)
    ⟨front, by rw [List.append_assoc]⟩
  rw [show opens (['!', c, '\x7b'] ++ back) = true by simp [opens, letter, endsWord,
    Token.punctuationMarks]] at none
  cases none

/-- A part of a text that ends where a word ends, or behind a letter that opens nothing. -/
def Excerpt (as cs : List Char) : Prop :=
  ∃ front back, cs = front ++ (as ++ back) ∧
    ((∀ c ∈ as.getLast?, isOpener c = false) ∨ ∀ c ∈ back.head?, endsWord c = true)

theorem Excerpt.isInfix (h : Excerpt as cs) : as <:+: cs := by
  obtain ⟨front, back, rfl, _⟩ := h
  exact ⟨front, back, List.append_assoc ..⟩

theorem Sealed.excerpt (h : Sealed cs) (part : Excerpt as cs) : Sealed as := by
  obtain ⟨front, back, rfl, ends⟩ := part
  exact h.right.left ends

theorem Excerpt.of_suffix (suffix : as <:+ cs) : Excerpt as cs := by
  obtain ⟨front, rfl⟩ := suffix
  exact ⟨front, [], by rw [List.append_nil], .inr nofun⟩

theorem Excerpt.trans (h : Excerpt as bs) (h' : Excerpt bs cs) : Excerpt as cs := by
  obtain ⟨front, back, rfl, ends⟩ := h
  obtain ⟨before, after, rfl, ends'⟩ := h'
  refine ⟨before ++ front, back ++ after, by simp only [List.append_assoc], ?_⟩
  rcases ends with ends | ends
  · exact .inl ends
  · cases back with
    | cons => exact .inr ends
    | nil =>
      refine ends'.imp_left fun ends' c last => ends' c ?_
      rw [List.append_nil, List.getLast?_append, Option.mem_def.1 last]
      rfl

/-- The blanks behind a text are no part of a word. -/
theorem excerpt_dropBlanksEnd (cs : List Char) : Excerpt (dropBlanksEnd cs) cs := by
  obtain ⟨blanks, same, blank⟩ := exists_blanks cs
  refine ⟨[], blanks, same, .inr fun c first => ?_⟩
  rw [endsWord, blank c (List.mem_of_mem_head? first)]
  simp

theorem excerpt_trim (s : String) : Excerpt (chars (trim s)) (chars s) := by
  rw [trim, chars_ofList, trimChars]
  exact (excerpt_dropBlanksEnd _).trans (.of_suffix (List.dropWhile_suffix _))

theorem Sealed.trim {s : String} (h : Sealed (chars s)) : Sealed (chars (trim s)) :=
  h.excerpt (excerpt_trim s)

/-- A separator that words end before keeps the texts around it apart. -/
theorem Sealed.join {separator : String} {parts : List String}
    (apart : '!' ∉ chars separator ∧ chars separator ≠ [] ∧
      ∀ c ∈ (chars separator).head?, isOpener c = false)
    (h : ∀ part ∈ parts, Sealed (chars part)) : Sealed (chars (join separator parts)) := by
  induction parts with
  | nil => exact sealed_of_not_mem (by simp [Text.join])
  | cons part rest ih =>
    cases rest with
    | nil => exact h part (.head _)
    | cons =>
      have more := ih fun part mem => h part (.tail _ mem)
      rw [Text.join, chars_append, chars_append]
      · refine Sealed.append (Sealed.append (h part (.head _)) (sealed_of_not_mem apart.1)
          (.inr apart.2.2)) more (.inl fun last => apart.1 ?_)
        rw [List.getLast?_append] at last
        cases found : (chars separator).getLast? with
        | none => exact absurd (List.getLast?_eq_none_iff.1 found) apart.2.1
        | some =>
          rw [found] at last
          cases last
          exact List.mem_of_getLast? found
      · rintro ⟨⟩

end Sealed

end Text

/-! ### Arguments -/

namespace Argument

open Text Token

/-- The groups of a line end after a blank or at its end. -/
theorem excerpt_of_mem_groups (depth : Nat) (quoted : Bool) (kept tokens : List Token) :
    ∀ group ∈ groups depth quoted kept tokens,
      Excerpt (cover group) (cover (kept.reverse ++ tokens)) := by
  induction tokens generalizing depth quoted kept with
  | nil =>
    intro group mem
    rw [groups, List.mem_singleton] at mem
    rw [mem, List.append_nil]
    exact .of_suffix (List.suffix_refl _)
  | cons t rest ih =>
    have longer : kept.reverse ++ t :: rest = (t :: kept).reverse ++ rest := by
      rw [List.reverse_cons, List.append_assoc, List.singleton_append]
    rw [longer]
    intro group mem
    rw [groups] at mem
    split at mem
    · next ends =>
      rw [cover_append]
      rcases List.mem_cons.1 mem with rfl | mem
      · refine ⟨[], _, rfl, .inl fun c last => ?_⟩
        simp only [Bool.and_eq_true, endsInSpace, endsWith] at ends
        obtain ⟨front, same⟩ := List.isSuffixOf_iff_suffix.1 ends.2
        rw [List.reverse_cons, cover_append, cover_cons, ← same] at last
        simp only [cover_nil, List.append_nil, List.getLast?_append] at last
        cases last
        rfl
      · exact (ih _ _ [] group mem).trans (.of_suffix (List.suffix_append _ _))
    · exact ih _ _ _ group mem

theorem excerpt_of_mem_split {line argument : String} (mem : argument ∈ split line) :
    Excerpt (chars argument) (chars line) := by
  obtain ⟨mem, _⟩ := List.mem_filter.1 mem
  obtain ⟨group, inside, rfl⟩ := List.mem_map.1 mem
  have covered := excerpt_of_mem_groups 0 false [] (scan line) group inside
  rw [List.reverse_nil, List.nil_append, cover_scan, ← chars_join] at covered
  exact (excerpt_trim _).trans covered

end Argument

/-! ### Words -/

namespace Token

open Text

theorem IsMark.chars {t : Token} (h : t.IsMark) :
    ∃ c, Text.chars t.text = [c] ∧ endsWord c = true ∧ c ≠ '!' ∧ isOpener c = false := by
  obtain ⟨c, text, marks⟩ := h
  refine ⟨c, by rw [text, chars_singleton], ?_⟩
  rcases marks with ⟨_, mem⟩ | ⟨_, mem⟩
  · have other : ∀ c ∈ punctuationMarks, c ≠ '!' ∧ isOpener c = false := by
      simp [punctuationMarks, isOpener]
    exact ⟨by simp [endsWord, mem], other c mem⟩
  · have other : ∀ c ∈ quoteMarks, c ≠ '!' ∧ isOpener c = false := by
      simp [quoteMarks, isOpener]
    exact ⟨by simp [endsWord, mem], other c mem⟩

/-- Each token of a sealed text is sealed. -/
theorem sealed_of_parted {tokens : List Token} (parted : Parted tokens)
    (h : Sealed (cover tokens)) : ∀ t ∈ tokens, Sealed (Text.chars t.text) := by
  induction tokens with
  | nil => nofun
  | cons t rest ih =>
    obtain ⟨here, parted⟩ := parted
    rw [cover_cons] at h
    -- a mark after the token ends its word
    have cut (marks : ∀ u ∈ rest.head?, u.IsMark) : Sealed (Text.chars t.text) := by
      refine h.left (.inr fun c first => ?_)
      cases rest with
      | nil => cases first
      | cons u =>
        obtain ⟨c', chars, ends, _⟩ := (marks u rfl).chars
        rw [cover_cons, chars] at first
        cases first
        exact ends
    intro u mem
    rcases List.mem_cons.1 mem with rfl | mem
    · rcases here with isMark | ⟨_, space | marks⟩ | ⟨_, marks⟩
      · obtain ⟨c, chars, _, other, _⟩ := isMark.chars
        rw [chars]
        exact sealed_of_not_mem (by simpa using Ne.symm other)
      · refine h.left (.inl fun c last => ?_)
        obtain ⟨front, same⟩ := List.isSuffixOf_iff_suffix.1 space
        rw [← same, List.getLast?_append] at last
        cases last
        rfl
      · exact cut marks
      · exact cut marks
    · exact ih parted h.right u mem

end Token

end CommandPack
