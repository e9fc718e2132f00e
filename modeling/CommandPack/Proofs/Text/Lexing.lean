import CommandPack.Proofs.Text.Tokens

/-!
# The partition of a line

The rules by which tokens follow each other, given the quote that is open. The tokens of a line keep
these rules, and no other tokens that cover the line do.
-/

namespace CommandPack.Token

open Text

variable {quote : Option Char} {before rest tokens : List Token} {t : Token}

/-- Whether a fragment of a word ends behind a character. -/
def endsFragment (c : Char) : Bool :=
  c = ' ' || isDigit c

/-- Characters that neither a quote nor punctuation are, with a space or a digit only at the end. -/
structure IsFragment (cs : List Char) : Prop where
  some : cs ≠ []
  plain : ∀ c ∈ cs, c ∉ quoteMarks ∧ c ∉ punctuationMarks
  inner : ∀ c ∈ cs.dropLast, endsFragment c = false

/-- Tokens that may follow each other, given the quote that is open before them. -/
inductive Lexed : Option Char → List Token → Prop
  | done (quote : Option Char) : Lexed quote []
  | word {cs : List Char} {rest : List Token} (fragment : IsFragment cs)
      (next : (∃ c ∈ cs.getLast?, endsFragment c = true) ∨ ∀ u ∈ rest.head?, u.shape ≠ .word)
      (later : Lexed none rest) : Lexed none (⟨.word, String.ofList cs⟩ :: rest)
  | punctuation {c : Char} {rest : List Token} (mark : c ∈ punctuationMarks)
      (later : Lexed none rest) : Lexed none (⟨.punctuation c, String.singleton c⟩ :: rest)
  | opening {c : Char} {rest : List Token} (mark : c ∈ quoteMarks) (later : Lexed (some c) rest) :
      Lexed none (⟨.quote c, String.singleton c⟩ :: rest)
  | quoted {c : Char} {cs : List Char} {rest : List Token} (mark : c ∈ quoteMarks) (some' : cs ≠ [])
      (free : c ∉ cs) (next : ∀ u ∈ rest.head?, u = ⟨.quote c, String.singleton c⟩)
      (later : Lexed (some c) rest) : Lexed (some c) (⟨.quoted, String.ofList cs⟩ :: rest)
  | closing {c : Char} {rest : List Token} (mark : c ∈ quoteMarks) (later : Lexed none rest) :
      Lexed (some c) (⟨.quote c, String.singleton c⟩ :: rest)

/-! ### The tokens of a line -/

/-- Characters that may be held while a line is cut: none of them ends the token. -/
def Holds : Option Char → List Char → Prop
  | none, cs => ∀ c ∈ cs, (c ∉ quoteMarks ∧ c ∉ punctuationMarks) ∧ endsFragment c = false
  | some mark, cs => mark ∈ quoteMarks ∧ mark ∉ cs

theorem Holds.word {cs : List Char} {rest : List Token} (h : Holds none cs) (later : Lexed none rest)
    (next : ∀ u ∈ rest.head?, u.shape ≠ .word) : Lexed none (held .word cs ++ rest) := by
  cases cs with
  | nil => exact later
  | cons c cs =>
    refine .word ⟨by simp, fun d mem => (h d (List.mem_reverse.1 mem)).1, fun d mem => ?_⟩
      (.inr next) later
    exact (h d (List.mem_reverse.1 (List.dropLast_subset _ mem))).2

theorem Holds.quoted {mark : Char} {cs : List Char} {rest : List Token} (h : Holds (some mark) cs)
    (later : Lexed (some mark) rest)
    (next : ∀ u ∈ rest.head?, u = ⟨.quote mark, String.singleton mark⟩) :
    Lexed (some mark) (held .quoted cs ++ rest) := by
  cases cs with
  | nil => exact later
  | cons => exact .quoted h.1 (by simp) (fun mem => h.2 (List.mem_reverse.1 mem)) next later

theorem lexed_scanFrom (quote : Option Char) (cs rest : List Char) (h : Holds quote cs) :
    Lexed quote (scanFrom quote cs rest) := by
  induction rest generalizing quote cs with
  | nil =>
    cases quote with
    | none => simpa [scanFrom] using h.word (.done none) (by simp)
    | some mark => simpa [scanFrom] using h.quoted (.done (some mark)) (by simp)
  | cons c rest ih =>
    cases quote with
    | some mark =>
      rw [scanFrom]
      split
      · next same =>
        subst same
        exact h.quoted (.closing h.1 (ih none [] (by simp [Holds]))) (by rintro _ ⟨⟩; rfl)
      · next other => exact ih (some mark) _ ⟨h.1, List.not_mem_cons_of_ne_of_not_mem (Ne.symm other) h.2⟩
    | none =>
      rw [scanFrom]
      split
      · next isQuote =>
        exact h.word (.opening isQuote (ih _ [] ⟨isQuote, List.not_mem_nil⟩)) (by rintro _ ⟨⟩; simp)
      · next noQuote =>
        split
        · next isMark => exact h.word (.punctuation isMark (ih _ [] (by simp [Holds]))) (by rintro _ ⟨⟩; simp)
        · next noMark =>
          split
          · next ends =>
            -- the fragment goes up to this character
            refine .word ⟨by simp, fun d mem => ?_, fun d mem => ?_⟩
              (.inl ⟨c, by simp, ends⟩) (ih none [] (by simp [Holds]))
            · rcases List.mem_cons.1 (List.mem_reverse.1 mem) with rfl | mem
              · exact ⟨noQuote, noMark⟩
              · exact (h d mem).1
            · rw [List.reverse_cons, List.dropLast_concat] at mem
              exact (h d (List.mem_reverse.1 mem)).2
          · next inner =>
            refine ih none _ fun d mem => ?_
            rcases List.mem_cons.1 mem with rfl | mem
            · exact ⟨⟨noQuote, noMark⟩, Bool.eq_false_iff.2 inner⟩
            · exact h d mem

theorem lexed_scan (line : String) : Lexed none (scan line) :=
  lexed_scanFrom none [] (chars line) nofun

/-! ### No other tokens -/

theorem scanFrom_append {cs : List Char} (h : Holds quote cs) (kept rest : List Char) :
    scanFrom quote kept (cs ++ rest) = scanFrom quote (cs.reverse ++ kept) rest := by
  induction cs generalizing kept with
  | nil => rfl
  | cons c cs ih =>
    rw [List.cons_append, List.reverse_cons, List.append_assoc, List.singleton_append]
    cases quote with
    | some mark =>
      obtain ⟨other, later⟩ := not_or.1 (mt List.mem_cons.2 h.2)
      rw [scanFrom, if_neg (Ne.symm other), ih ⟨h.1, later⟩]
    | none =>
      obtain ⟨plain, inner⟩ := h c (.head _)
      rw [scanFrom, if_neg plain.1, if_neg plain.2, ← endsFragment, inner,
        if_neg Bool.false_ne_true, ih fun d mem => h d (.tail _ mem)]

theorem held_reverse (shape : Shape) {cs : List Char} (some : cs ≠ []) :
    held shape cs.reverse = [⟨shape, String.ofList cs⟩] := by
  obtain ⟨c, rest, same⟩ := List.exists_cons_of_ne_nil (mt List.reverse_eq_nil_iff.1 some)
  rw [same, held, ← same, List.reverse_reverse]
  rintro ⟨⟩

theorem apart {c : Char} (mark : c ∈ punctuationMarks) : c ∉ quoteMarks := by
  revert c
  simp [punctuationMarks, quoteMarks]

/-- A quote and a punctuation mark end what is held before them. -/
theorem Lexed.scanFrom_kept (h : Lexed quote rest)
    (ends : ∀ u ∈ rest.head?, u.shape ≠ (if quote.isSome then .quoted else .word)) (cs : List Char) :
    scanFrom quote cs (cover rest) =
      held (if quote.isSome then .quoted else .word) cs ++ scanFrom quote [] (cover rest) := by
  cases h with
  | done => cases quote <;> simp [scanFrom, held]
  | word => exact absurd rfl (ends _ rfl)
  | quoted => exact absurd rfl (ends _ rfl)
  | punctuation mark =>
    simp only [cover_cons, chars_singleton, List.singleton_append, scanFrom, if_neg (apart mark),
      if_pos mark]
    rfl
  | opening mark =>
    simp only [cover_cons, chars_singleton, List.singleton_append, scanFrom, if_pos mark]
    rfl
  | closing =>
    simp only [cover_cons, chars_singleton, List.singleton_append, scanFrom, if_true]
    rfl

/-- Tokens that keep the rules are the tokens of the text that they cover. -/
theorem Lexed.scanFrom_cover (h : Lexed quote tokens) :
    scanFrom quote [] (cover tokens) = tokens := by
  induction h with
  | done quote => cases quote <;> rfl
  | punctuation mark _ ih =>
    rw [cover_cons, chars_singleton, List.singleton_append, scanFrom, if_neg (apart mark),
      if_pos mark, ih]
    rfl
  | opening mark _ ih =>
    rw [cover_cons, chars_singleton, List.singleton_append, scanFrom, if_pos mark, ih]
    rfl
  | closing _ _ ih =>
    rw [cover_cons, chars_singleton, List.singleton_append, scanFrom, if_pos rfl, ih]
    rfl
  | @quoted c cs rest mark some' free next later ih =>
    have ends : ∀ u ∈ rest.head?, u.shape ≠ .quoted := fun u mem => by simp [next u mem]
    have holds : Holds (some c) cs := ⟨mark, free⟩
    rw [cover_cons, chars_ofList, scanFrom_append holds, List.append_nil, later.scanFrom_kept ends, ih]
    exact congrArg (· ++ rest) (held_reverse .quoted some')
  | @word cs rest fragment next later ih =>
    obtain ⟨front, last, rfl⟩ : ∃ front last, cs = front ++ [last] :=
      ⟨_, _, (List.dropLast_concat_getLast fragment.some).symm⟩
    obtain ⟨-, plain, inner⟩ := fragment
    rw [List.dropLast_concat] at inner
    have before : Holds none front := fun c mem => ⟨plain c (List.mem_append_left _ mem), inner c mem⟩
    have here := plain last (by simp)
    rw [cover_cons, chars_ofList]
    cases ends : endsFragment last with
    | true =>
      rw [List.append_assoc, scanFrom_append before, List.singleton_append, List.append_nil, scanFrom,
        if_neg here.1, if_neg here.2, ← endsFragment, ends, if_pos rfl, ih]
      exact congrArg (· ++ rest) (List.reverse_concat .. ▸ held_reverse .word (by simp))
    | false =>
      have whole : Holds none (front ++ [last]) :=
        List.forall_mem_append.2 ⟨before, List.forall_mem_singleton.2 ⟨here, ends⟩⟩
      have ends' : ∀ u ∈ rest.head?, u.shape ≠ .word := next.resolve_left (by simp [ends])
      rw [scanFrom_append whole, List.append_nil, later.scanFrom_kept ends', ih]
      exact congrArg (· ++ rest) (held_reverse .word (by simp))

/-! ### Whole words -/

/-- A token that is a punctuation mark or a quote. -/
def IsMark (t : Token) : Prop :=
  ∃ c, t.text = String.singleton c ∧
    (t.shape = .punctuation c ∧ c ∈ punctuationMarks ∨ t.shape = .quote c ∧ c ∈ quoteMarks)

/-- Tokens of a line before words are joined. -/
def Fragmented : List Token → Prop
  | [] => True
  | t :: rest =>
    (t.IsMark ∨ t.shape = .word ∧ (∀ u ∈ rest.head?, u.IsMark ∨ u.shape = .word) ∨
      t.shape = .quoted ∧ ∀ u ∈ rest.head?, u.IsMark) ∧ Fragmented rest

/-- Tokens of a line with whole words: what follows a word directly is a mark. -/
def Parted : List Token → Prop
  | [] => True
  | t :: rest =>
    (t.IsMark ∨ t.shape = .word ∧ (t.endsInSpace = true ∨ ∀ u ∈ rest.head?, u.IsMark) ∨
      t.shape = .quoted ∧ ∀ u ∈ rest.head?, u.IsMark) ∧ Parted rest

theorem isMark_punctuation {c : Char} (mem : c ∈ punctuationMarks) :
    IsMark ⟨.punctuation c, String.singleton c⟩ :=
  ⟨c, rfl, .inl ⟨rfl, mem⟩⟩

theorem isMark_quote {c : Char} (mem : c ∈ quoteMarks) : IsMark ⟨.quote c, String.singleton c⟩ :=
  ⟨c, rfl, .inr ⟨rfl, mem⟩⟩

theorem Lexed.fragmented (h : Lexed quote tokens) : Fragmented tokens := by
  induction h with
  | done => trivial
  | punctuation mark _ ih => exact ⟨.inl (isMark_punctuation mark), ih⟩
  | opening mark _ ih => exact ⟨.inl (isMark_quote mark), ih⟩
  | closing mark _ ih => exact ⟨.inl (isMark_quote mark), ih⟩
  | quoted mark _ _ next _ ih =>
    exact ⟨.inr (.inr ⟨rfl, fun u mem => next u mem ▸ isMark_quote mark⟩), ih⟩
  | word _ _ later ih =>
    refine ⟨.inr (.inl ⟨rfl, ?_⟩), ih⟩
    cases later with
    | done => exact nofun
    | word =>
      rintro _ ⟨⟩
      exact .inr rfl
    | punctuation mark =>
      rintro _ ⟨⟩
      exact .inl (isMark_punctuation mark)
    | opening mark =>
      rintro _ ⟨⟩
      exact .inl (isMark_quote mark)

theorem Parted.behind (h : Parted (before ++ rest)) : Parted rest := by
  induction before with
  | nil => exact h
  | cons _ _ ih => exact ih h.2

theorem IsMark.ne_word (h : t.IsMark) : t.isWord = false := by
  obtain ⟨c, _, ⟨shape, _⟩ | ⟨shape, _⟩⟩ := h <;> simp [isWord, shape]

/-- Joining words changes nothing but words. -/
theorem exists_joinWords_cons (t : Token) (rest : List Token) :
    ∃ u us, joinWords (t :: rest) = u :: us ∧ u.shape = t.shape ∧ (t.IsMark → u = t) := by
  rw [joinWords]
  split
  · exact ⟨t, [], rfl, rfl, fun _ => rfl⟩
  · next u us _ =>
    split
    · next words =>
      simp only [Bool.and_eq_true] at words
      have shape : t.shape = .word := of_decide_eq_true words.1.1
      refine ⟨_, us, rfl, shape.symm, fun isMark => ?_⟩
      rw [isMark.ne_word] at words
      cases words.1.1
    · exact ⟨t, u :: us, rfl, rfl, fun _ => rfl⟩

theorem parted_joinWords (h : Fragmented tokens) : Parted (joinWords tokens) := by
  induction tokens with
  | nil => trivial
  | cons t rest ih =>
    obtain ⟨here, later⟩ := h
    have parted := ih later
    cases rest with
    | nil =>
      refine ⟨here.imp_right fun here => here.imp ?_ ?_, trivial⟩
      · exact fun ⟨word, _⟩ => ⟨word, .inr nofun⟩
      · exact fun ⟨quoted, _⟩ => ⟨quoted, nofun⟩
    | cons next rest =>
      obtain ⟨u, us, joined, shape, same⟩ := exists_joinWords_cons next rest
      rw [joined] at parted
      rw [joinWords, joined]
      simp only
      split
      · next words =>
        -- the joined word ends as its second part does
        simp only [Bool.and_eq_true] at words
        have word : u.shape = .word := of_decide_eq_true words.1.2
        obtain ⟨ends, parted⟩ := parted
        refine ⟨.inr (.inl ⟨rfl, ?_⟩), parted⟩
        rcases ends with isMark | ⟨_, space | marks⟩ | ⟨quoted, _⟩
        · rw [isMark.ne_word] at words
          cases words.1.2
        · refine .inl (List.isSuffixOf_iff_suffix.2 ?_)
          rw [Text.chars_append]
          exact (List.isSuffixOf_iff_suffix.1 space).trans (List.suffix_append _ _)
        · exact .inr marks
        · rw [word] at quoted
          cases quoted
      · next apart =>
        refine ⟨here.imp_right fun here => here.imp ?_ ?_, parted⟩
        · rintro ⟨word, next'⟩
          refine ⟨word, ?_⟩
          rcases next' next rfl with isMark | word'
          · refine .inr ?_
            rintro _ ⟨⟩
            exact same isMark ▸ isMark
          · refine .inl ?_
            simpa [isWord, word, shape.trans word'] using apart
        · rintro ⟨quoted, next'⟩
          refine ⟨quoted, ?_⟩
          rintro _ ⟨⟩
          have isMark := next' next rfl
          exact same isMark ▸ isMark

theorem parted_words (line : String) : Parted (words line) :=
  parted_joinWords (lexed_scan line).fragmented

/-! ### Tokens at their places -/

/-- The quote that is open behind a token. -/
def openAfter (quote : Option Char) (t : Token) : Option Char :=
  match t.shape with
  | .quote mark => if quote.isSome then none else some mark
  | _ => quote

/-- How a token fits between the tokens before and after it. -/
def Fits (before : List Token) (t : Token) (after : List Token) : Prop :=
  match t.shape with
  | .word => before.foldl openAfter none = none ∧ IsFragment (chars t.text) ∧ ∀ u ∈ after.head?,
      u.shape = .word → ∃ c ∈ (chars t.text).getLast?, endsFragment c = true
  | .quote mark => t.text = String.singleton mark ∧ mark ∈ quoteMarks
  | .quoted => chars t.text ≠ [] ∧ ∃ mark ∉ chars t.text, before.foldl openAfter none = some mark ∧
      before.getLast? = some ⟨.quote mark, String.singleton mark⟩ ∧
      ∀ u ∈ after.head?, u = ⟨.quote mark, String.singleton mark⟩
  | .punctuation mark => before.foldl openAfter none = none ∧ t.text = String.singleton mark ∧
      mark ∈ punctuationMarks

theorem Fits.text_ne_empty {after : List Token} (h : Fits before t after) : t.text ≠ "" := by
  obtain ⟨shape, text⟩ := t
  rintro rfl
  have mark {c : Char} (same : "" = String.singleton c) : False := by
    rw [← chars_inj, chars_singleton] at same
    cases same
  cases shape with
  | word => exact h.2.1.some rfl
  | quoted => exact h.1 rfl
  | quote => exact mark h.1
  | punctuation => exact mark h.2.1

theorem Lexed.behind (h : Lexed quote (before ++ rest)) :
    Lexed (before.foldl openAfter quote) rest := by
  induction before generalizing quote with
  | nil => exact h
  | cons _ _ ih => cases h <;> exact ih ‹_›

/-- Quoted text stands directly behind the quote that opens it. -/
theorem Lexed.quote_before {u : Token} (h : Lexed quote (u :: t :: rest))
    (shape : t.shape = .quoted) :
    ∃ mark, u = ⟨.quote mark, String.singleton mark⟩ ∧ openAfter quote u = some mark := by
  cases h with
  | opening => exact ⟨_, rfl, rfl⟩
  | quoted _ _ _ next => rw [next t rfl] at shape; cases shape
  | word _ _ later | punctuation _ later | closing _ later => cases later <;> cases shape

theorem Lexed.fits {after : List Token} (h : Lexed none (before ++ t :: after)) :
    Fits before t after := by
  have here := h.behind
  generalize opened : before.foldl openAfter none = quote at here
  cases here with
  | word fragment next =>
    simp only [Fits, chars_ofList]
    exact ⟨opened, fragment, fun u mem shape => next.resolve_right fun other => other u mem shape⟩
  | punctuation isMark => exact ⟨opened, rfl, isMark⟩
  | opening isQuote | closing isQuote => exact ⟨rfl, isQuote⟩
  | quoted _ some' free next =>
    simp only [Fits, chars_ofList]
    refine ⟨some', _, free, opened, ?_, next⟩
    rcases List.eq_nil_or_concat before with rfl | ⟨front, u, rfl⟩
    · cases opened
    · rw [List.concat_eq_append] at h opened ⊢
      rw [List.append_assoc] at h
      obtain ⟨mark, rfl, open'⟩ := h.behind.quote_before rfl
      rw [List.foldl_append, List.foldl_cons, open'] at opened
      cases opened
      exact List.getLast?_concat

/-- The tokens of a line are its one partition by the rules, and whole words cover the line too, with
a space between two words. -/
theorem scan_partitions_line (line : String) :
    join (scan line) = line ∧
      (∀ before t after, scan line = before ++ t :: after → t.text ≠ "" ∧ Fits before t after) ∧
      (∀ tokens, Lexed none tokens ∧ join tokens = line ↔ tokens = scan line) ∧
      join (words line) = line ∧
      ∀ before t u after, words line = before ++ t :: u :: after → t.shape = .word →
        u.shape = .word → t.endsInSpace = true := by
  have covers : join (scan line) = line := by rw [← chars_inj, chars_join, cover_scan]
  refine ⟨covers, fun before t after same => ?_, fun tokens => ⟨?_, ?_⟩, join_words line, ?_⟩
  · have fits := (same ▸ lexed_scan line).fits
    exact ⟨fits.text_ne_empty, fits⟩
  · rintro ⟨lexed, rfl⟩
    rw [scan, chars_join, lexed.scanFrom_cover]
  · rintro rfl
    exact ⟨lexed_scan line, covers⟩
  · intro before t u after same shape shape'
    have notMark {t : Token} (shape : t.shape = .word) : ¬ t.IsMark := fun mark => by
      simpa [isWord, shape] using mark.ne_word
    rcases (same ▸ parted_words line).behind.1 with mark | ⟨-, space | next⟩ | ⟨quoted, -⟩
    · exact absurd mark (notMark shape)
    · exact space
    · exact absurd (next u rfl) (notMark shape')
    · rw [shape] at quoted
      cases quoted

end CommandPack.Token
