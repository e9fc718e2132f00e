import CommandPack.Proofs.Text.Tokens
import CommandPack.Proofs.Text.Trimmed

/-!
# Splitting a line character by character

The arguments of a line can be read off its characters: a cursor knows the open quote and the
number of open brackets, and a space ends an argument where neither is open. So blanks in front of
a line change no argument, and arguments that are written one after the other with single spaces
between them are read back.
-/

namespace CommandPack.Argument

open Text Token

variable {at' stop : Cursor} {c : Char} {shape : Shape} {blanks cs : List Char} {line : String}

/-! ### Cursors -/

/-- What is open at a place in a line. -/
structure Cursor where
  quote : Option Char := none
  depth : Nat := 0

namespace Cursor

/-- Whether a character ends an argument. -/
def ends (at' : Cursor) (c : Char) : Bool :=
  at'.quote.isNone && at'.depth = 0 && c = ' '

/-- What is open after a character. -/
def after (at' : Cursor) (c : Char) : Cursor :=
  match at'.quote with
  | some mark => if c = mark then { at' with quote := none } else at'
  | none =>
    if c ∈ quoteMarks then { at' with quote := some c }
    else if c ∈ punctuationMarks then { at' with depth := depthAfter at'.depth (.punctuation c) }
    else at'

/-- Reading characters inside one argument leads from a cursor to another. -/
def Reads : Cursor → List Char → Cursor → Prop
  | start, [], stop => start = stop
  | start, c :: cs, stop => start.ends c = false ∧ Reads (start.after c) cs stop

/-- The pieces of a text, with the space that ends each of them. -/
def pieces (at' : Cursor) (kept : List Char) : List Char → List (List Char)
  | [] => [kept.reverse]
  | c :: cs =>
    if at'.ends c then (c :: kept).reverse :: pieces at' [] cs else pieces (at'.after c) (c :: kept) cs

variable {start middle stop : Cursor} {as bs : List Char}

theorem eq_of_ends (h : at'.ends c = true) : at' = {} ∧ c = ' ' := by
  obtain ⟨quote, depth⟩ := at'
  simp only [ends, Bool.and_eq_true, decide_eq_true_eq, Option.isNone_iff_eq_none] at h
  obtain ⟨⟨rfl, rfl⟩, same⟩ := h
  exact ⟨rfl, same⟩

/-- Only quote characters open quoted text. -/
def Sane (at' : Cursor) : Prop :=
  ∀ mark ∈ at'.quote, mark ∈ quoteMarks

theorem sane_start : Sane {} := by
  rintro _ ⟨⟩

theorem Sane.after (h : at'.Sane) (c : Char) : (at'.after c).Sane := by
  unfold Cursor.after
  split
  · split
    · exact nofun
    · exact h
  · split
    · next isQuote =>
      rintro _ ⟨⟩
      exact isQuote
    · split
      · exact h
      · exact h

theorem Reads.sane (h : Reads start as stop) (sane : start.Sane) : stop.Sane := by
  induction as generalizing start with
  | nil => exact h ▸ sane
  | cons c _ ih => exact ih h.2 (sane.after c)

/-- What is neither a quote nor a punctuation mark opens and closes nothing. -/
theorem after_of_plain (sane : at'.Sane) (notQuote : c ∉ quoteMarks)
    (notPunctuation : c ∉ punctuationMarks) : at'.after c = at' := by
  unfold after
  split
  · next mark open' =>
    have other : c ≠ mark := by
      rintro rfl
      exact notQuote (sane c open')
    rw [if_neg other]
  · rw [if_neg notQuote, if_neg notPunctuation]

theorem plain_of_isBlank (blank : isBlank c = true) : c ∉ quoteMarks ∧ c ∉ punctuationMarks := by
  have marks : ∀ c ∈ quoteMarks ++ punctuationMarks, isBlank c = false := by
    simp [quoteMarks, punctuationMarks, isBlank]
  rw [← not_or, ← List.mem_append]
  exact fun mem => absurd (marks c mem) (by simp [blank])

theorem after_blank (sane : at'.Sane) (blank : isBlank c = true) : at'.after c = at' :=
  after_of_plain sane (plain_of_isBlank blank).1 (plain_of_isBlank blank).2

theorem Reads.eq_of_blanks (h : Reads start as stop) (sane : start.Sane)
    (blank : ∀ c ∈ as, isBlank c = true) : stop = start := by
  induction as with
  | nil => exact h.symm
  | cons c _ ih =>
    have same := after_blank sane (blank c (.head _))
    exact ih (same ▸ h.2) fun d hd => blank d (.tail _ hd)

theorem reads_append : Reads start (as ++ bs) stop ↔
    ∃ middle, Reads start as middle ∧ Reads middle bs stop := by
  induction as generalizing start with
  | nil => exact ⟨fun h => ⟨start, rfl, h⟩, fun ⟨_, same, h⟩ => same ▸ h⟩
  | cons _ _ ih =>
    simp only [List.cons_append, Reads, ih, and_assoc, exists_and_left]

/-- Characters inside one argument are kept. -/
theorem Reads.pieces (h : Reads start as stop) (kept rest : List Char) :
    start.pieces kept (as ++ rest) = stop.pieces (as.reverse ++ kept) rest := by
  induction as generalizing start kept with
  | nil => rw [show start = stop from h]; rfl
  | cons _ _ ih =>
    rw [List.cons_append, Cursor.pieces, h.1, if_neg Bool.false_ne_true, ih h.2, List.reverse_cons,
      List.append_assoc, List.singleton_append]

/-- What is kept already belongs to the first piece. -/
theorem pieces_kept (at' : Cursor) (kept more cs : List Char) :
    at'.pieces (kept ++ more) cs = (at'.pieces kept cs).modifyHead (more.reverse ++ ·) := by
  induction cs generalizing at' kept with
  | nil => simp [pieces]
  | cons c _ ih =>
    rw [pieces, pieces]
    split
    · simp
    · exact ih _ (c :: kept)

theorem pieces_ne_nil (at' : Cursor) (kept cs : List Char) : at'.pieces kept cs ≠ [] := by
  induction cs generalizing at' kept with
  | nil => exact nofun
  | cons _ _ ih =>
    rw [pieces]
    split
    · exact nofun
    · exact ih _ _

/-- A text is one argument, or its first argument ends at a space. -/
theorem reads_or_ends (start : Cursor) (cs : List Char) :
    (∃ stop, Reads start cs stop) ∨
      ∃ front rest, cs = front ++ ' ' :: rest ∧ Reads start front {} := by
  induction cs generalizing start with
  | nil => exact .inl ⟨start, rfl⟩
  | cons c cs ih =>
    cases ends : start.ends c with
    | true =>
      obtain ⟨rfl, rfl⟩ := eq_of_ends ends
      exact .inr ⟨[], cs, rfl, rfl⟩
    | false =>
      rcases ih (start.after c) with ⟨stop, reads⟩ | ⟨front, rest, rfl, reads⟩
      · exact .inl ⟨stop, ends, reads⟩
      · exact .inr ⟨c :: front, rest, rfl, ends, reads⟩

end Cursor

/-! ### Tokens and characters -/

theorem endsInSpace_iff :
    (Token.mk shape (String.ofList cs.reverse)).endsInSpace = true ↔ cs.head? = some ' ' := by
  change [' '].isSuffixOf (chars (String.ofList cs.reverse)) = true ↔ _
  rw [chars_ofList, List.isSuffixOf_iff_suffix]
  cases cs with
  | nil => simp
  | cons =>
    rw [List.reverse_cons, List.head?_cons, Option.some.injEq]
    constructor
    · rintro ⟨front, same⟩
      exact (List.singleton_inj.1 (List.append_inj_right' same rfl)).symm
    · rintro rfl
      exact List.suffix_append _ _

/-- Text that does not end in a space outside quotes goes on with the group. -/
theorem groups_held (depth : Nat) (quoted : Bool) (kept tokens : List Token)
    (text : shape = .word ∨ shape = .quoted) (inside : quoted = true ∨ cs.head? ≠ some ' ') :
    groups depth quoted kept (held shape cs ++ tokens) =
      groups depth quoted (held shape cs ++ kept) tokens := by
  cases cs with
  | nil => rfl
  | cons c cs =>
    change groups depth quoted kept (⟨shape, String.ofList (c :: cs).reverse⟩ :: tokens) =
      groups depth quoted (⟨shape, String.ofList (c :: cs).reverse⟩ :: kept) tokens
    have shapes : depthAfter depth shape = depth ∧ quotedAfter quoted shape = quoted := by
      rcases text with rfl | rfl <;> exact ⟨rfl, rfl⟩
    rw [groups, shapes.1, shapes.2, if_neg]
    intro ends
    simp only [Bool.and_eq_true, Bool.not_eq_true'] at ends
    rcases inside with quoted | other
    · rw [quoted] at ends
      cases ends.1.2
    · exact other (endsInSpace_iff.1 ends.2)

/-- A mark goes on with the group. -/
theorem groups_mark (depth : Nat) (quoted : Bool) (kept tokens : List Token) (mark : c ≠ ' ') :
    groups depth quoted kept (⟨shape, String.singleton c⟩ :: tokens) =
      groups (depthAfter depth shape) (quotedAfter quoted shape)
        (⟨shape, String.singleton c⟩ :: kept) tokens := by
  have other : (Token.mk shape (String.ofList [c].reverse)).endsInSpace ≠ true := by
    intro ends
    exact mark (Option.some.inj (endsInSpace_iff.1 ends))
  change groups depth quoted kept (⟨shape, String.ofList [c].reverse⟩ :: tokens) =
    groups _ _ (⟨shape, String.ofList [c].reverse⟩ :: kept) tokens
  rw [groups, Bool.eq_false_iff.2 other, Bool.and_false, if_neg Bool.false_ne_true]

theorem ne_space_of_quote (mem : c ∈ quoteMarks) : c ≠ ' ' := by
  rintro rfl
  exact absurd mem (by decide)

theorem ne_space_of_punctuation (mem : c ∈ punctuationMarks) : c ≠ ' ' := by
  rintro rfl
  exact absurd mem (by decide)

/-- The characters of kept tokens and of the text held after them, read backwards. -/
theorem cover_held_append (shape : Shape) (cs : List Char) (kept : List Token) :
    (cover (held shape cs ++ kept).reverse).reverse = cs ++ (cover kept.reverse).reverse := by
  have reversed : (held shape cs).reverse = held shape cs := by cases cs <;> rfl
  rw [List.reverse_append, reversed, cover_append, cover_held, List.reverse_append,
    List.reverse_reverse]

theorem cover_mark_cons (shape : Shape) (c : Char) (kept : List Token) :
    (cover (⟨shape, String.singleton c⟩ :: kept).reverse).reverse =
      c :: (cover kept.reverse).reverse := by
  rw [List.reverse_cons, cover_append, List.reverse_append, cover_cons, chars_singleton]
  rfl

/-- A space ends the group, unless a bracket is open. -/
theorem cover_groups_space {rest : List Char} (depth : Nat) (kept : List Token) (cs : List Char)
    {tokens : List Token}
    (later : ∀ kept, (groups depth false kept tokens).map cover =
      (Cursor.mk none depth).pieces (cover kept.reverse).reverse rest) :
    (groups depth false kept (held .word (' ' :: cs) ++ tokens)).map cover =
      if (Cursor.mk none depth).ends ' ' then
        (' ' :: (cs ++ (cover kept.reverse).reverse)).reverse ::
          (Cursor.mk none depth).pieces [] rest
      else
        (Cursor.mk none depth).pieces (' ' :: (cs ++ (cover kept.reverse).reverse)) rest := by
  have covered := cover_held_append .word (' ' :: cs) kept
  have same : (decide (depth = 0) && !false &&
      (Token.mk .word (String.ofList (' ' :: cs).reverse)).endsInSpace) =
        (Cursor.mk none depth).ends ' ' := by
    rw [endsInSpace_iff.2 rfl]
    simp [Cursor.ends]
  change (if (decide (depth = 0) && !false &&
        (Token.mk .word (String.ofList (' ' :: cs).reverse)).endsInSpace) = true then
      (⟨.word, String.ofList (' ' :: cs).reverse⟩ :: kept).reverse :: groups depth false [] tokens
    else
      groups depth false (⟨.word, String.ofList (' ' :: cs).reverse⟩ :: kept) tokens).map cover = _
  rw [same, ← List.cons_append, ← covered]
  split
  · rw [List.map_cons, later [], List.reverse_reverse]
    rfl
  · exact later _

/-- The groups of the tokens of a text are its pieces. -/
theorem cover_groups_scanFrom (quote : Option Char) (depth : Nat) (kept : List Token)
    (cs rest : List Char) (quotes : ∀ mark ∈ quote, mark ∈ quoteMarks)
    (inside : quote.isSome = true ∨ cs.head? ≠ some ' ') :
    (groups depth quote.isSome kept (scanFrom quote cs rest)).map cover =
      (Cursor.mk quote depth).pieces (cs ++ (cover kept.reverse).reverse) rest := by
  have unquoted : ∀ mark ∈ (none : Option Char), mark ∈ quoteMarks := nofun
  have fresh (quote : Option Char) : quote.isSome = true ∨ ([] : List Char).head? ≠ some ' ' :=
    .inr nofun
  induction rest generalizing quote depth kept cs with
  | nil =>
    have done {shape : Shape} (text : shape = .word ∨ shape = .quoted) :
        (groups depth quote.isSome kept (held shape cs)).map cover =
          [(cs ++ (cover kept.reverse).reverse).reverse] := by
      rw [← List.append_nil (held shape cs), groups_held depth _ kept [] text inside, groups,
        List.map_singleton, ← cover_held_append shape, List.reverse_reverse]
    cases quote with
    | none => exact done (.inl rfl)
    | some => exact done (.inr rfl)
  | cons c rest ih =>
    -- a mark ends the text before it, and the group goes on behind it
    have mark {shape mark : Shape} {quote' : Option Char} {depth' : Nat}
        (text : shape = .word ∨ shape = .quoted) (visible : c ≠ ' ')
        (depths : depthAfter depth mark = depth')
        (quoting : quotedAfter quote.isSome mark = quote'.isSome)
        (quotes : ∀ mark ∈ quote', mark ∈ quoteMarks)
        (after : (Cursor.mk quote depth).after c = ⟨quote', depth'⟩) :
        (groups depth quote.isSome kept
          (held shape cs ++ ⟨mark, String.singleton c⟩ :: scanFrom quote' [] rest)).map cover =
          (Cursor.mk quote depth).pieces (cs ++ (cover kept.reverse).reverse) (c :: rest) := by
      have stays : (Cursor.mk quote depth).ends c = false := by simp [Cursor.ends, visible]
      rw [groups_held depth _ kept _ text inside, groups_mark depth _ _ _ visible, depths, quoting,
        ih quote' depth' _ [] quotes (fresh _), cover_mark_cons, cover_held_append, Cursor.pieces,
        stays, if_neg Bool.false_ne_true, after]
      rfl
    cases quote with
    | some open' =>
      rw [scanFrom]
      split
      · next same =>
        have isQuote : c ∈ quoteMarks := same ▸ quotes open' rfl
        exact mark (.inr rfl) (ne_space_of_quote isQuote) rfl rfl unquoted (if_pos same)
      · next other =>
        have stays : (Cursor.mk (some open') depth).ends c = false := rfl
        have after : (Cursor.mk (some open') depth).after c = ⟨some open', depth⟩ :=
          if_neg other
        rw [Cursor.pieces, stays, if_neg Bool.false_ne_true, after]
        exact ih (some open') depth kept (c :: cs) quotes (.inl rfl)
    | none =>
      have outside := inside.resolve_left Bool.false_ne_true
      rw [scanFrom]
      split
      · next isQuote =>
        refine mark (.inl rfl) (ne_space_of_quote isQuote) rfl rfl ?_ (if_pos isQuote)
        rintro _ ⟨⟩
        exact isQuote
      · next noQuote =>
        split
        · next isMark =>
          refine mark (.inl rfl) (ne_space_of_punctuation isMark) rfl rfl unquoted ?_
          rw [Cursor.after, if_neg noQuote, if_pos isMark]
        · next noMark =>
          have after : (Cursor.mk none depth).after c = ⟨none, depth⟩ := by
            rw [Cursor.after, if_neg noQuote, if_neg noMark]
          by_cases space : c = ' '
          · subst space
            rw [Cursor.pieces, after, if_pos (by simp)]
            exact cover_groups_space depth kept cs fun kept =>
              ih none depth kept [] unquoted (fresh _)
          · have stays : (Cursor.mk none depth).ends c = false := by
              simp [Cursor.ends, space]
            have inside : (c :: cs).head? ≠ some ' ' := by simpa using space
            rw [Cursor.pieces, stays, if_neg Bool.false_ne_true, after]
            split
            · change (groups depth false kept _).map cover = _
              rw [groups_held depth false kept _ (.inl rfl) (.inr inside)]
              have later := ih none depth (held .word (c :: cs) ++ kept) [] unquoted (fresh _)
              rw [cover_held_append] at later
              exact later
            · exact ih none depth kept (c :: cs) unquoted (.inr inside)

/-! ### Arguments as characters -/

/-- The arguments of a text. -/
def argumentChars (cs : List Char) : List (List Char) :=
  ((Cursor.pieces {} [] cs).map trimChars).filter (· ≠ [])

theorem split_eq (line : String) : split line = (argumentChars (chars line)).map String.ofList := by
  have covered : (groups 0 false [] (scan line)).map cover = Cursor.pieces {} [] (chars line) :=
    cover_groups_scanFrom none 0 [] [] (chars line) nofun (.inr nofun)
  have empty (cs : List Char) : decide (String.ofList cs ≠ "") = decide (cs ≠ []) := by
    refine decide_eq_decide.2 (not_congr ⟨fun same => ?_, fun same => same ▸ rfl⟩)
    rw [← chars_inj, chars_ofList] at same
    exact same
  calc split line
      = ((groups 0 false [] (scan line)).map fun group =>
          String.ofList (trimChars (cover group))).filter (· ≠ "") := by
        simp only [split, Text.trim, chars_join]
    _ = ((((groups 0 false [] (scan line)).map cover).map trimChars).map String.ofList).filter
          (· ≠ "") := by
        rw [List.map_map, List.map_map]
        rfl
    _ = (argumentChars (chars line)).map String.ofList := by
        rw [covered, List.filter_map]
        exact congrArg (List.map _) (List.filter_congr fun cs _ => empty cs)

theorem argumentChars_single (h : Cursor.Reads {} cs stop) :
    argumentChars cs = [trimChars cs].filter (· ≠ []) := by
  have one := h.pieces [] []
  rw [List.append_nil, List.append_nil, Cursor.pieces, List.reverse_reverse] at one
  rw [argumentChars, one, List.map_singleton]

theorem argumentChars_append (h : Cursor.Reads {} cs {}) (rest : List Char) :
    argumentChars (cs ++ ' ' :: rest) = [trimChars cs].filter (· ≠ []) ++ argumentChars rest := by
  have first := h.pieces [] (' ' :: rest)
  have ends : Cursor.ends {} ' ' = true := rfl
  rw [List.append_nil, Cursor.pieces, if_pos ends, List.reverse_cons, List.reverse_reverse] at first
  have blank : ∀ c ∈ [' '], isBlank c = true := by
    intro c mem
    rw [List.mem_singleton.1 mem]
    rfl
  rw [argumentChars, first, List.map_cons, trimChars_append_blanks _ blank, ← List.singleton_append,
    List.filter_append]
  rfl

/-! ### Blanks around arguments -/

theorem trimChars_blank_cons (blank : isBlank c = true) (cs : List Char) :
    trimChars (c :: cs) = trimChars cs := by
  rw [trimChars, dropBlanks, List.dropWhile_cons, if_pos blank, trimChars, dropBlanks]

theorem argumentChars_blank_cons (blank : isBlank c = true) (cs : List Char) :
    argumentChars (c :: cs) = argumentChars cs := by
  rw [argumentChars, Cursor.pieces]
  split
  · next ends =>
    obtain ⟨-, rfl⟩ := Cursor.eq_of_ends ends
    rfl
  · have kept := Cursor.pieces_kept {} [] [c] cs
    rw [List.nil_append, List.reverse_singleton] at kept
    rw [Cursor.after_blank Cursor.sane_start blank, kept]
    unfold argumentChars
    cases Cursor.pieces {} [] cs with
    | nil => rfl
    | cons =>
      rw [List.modifyHead_cons, List.map_cons, List.map_cons, List.singleton_append,
        trimChars_blank_cons blank]

theorem argumentChars_blanks_append (blank : ∀ c ∈ blanks, isBlank c = true) (cs : List Char) :
    argumentChars (blanks ++ cs) = argumentChars cs := by
  induction blanks with
  | nil => rfl
  | cons c _ ih =>
    rw [List.cons_append, argumentChars_blank_cons (blank c (.head _))]
    exact ih fun d hd => blank d (.tail _ hd)

/-- Blanks in front of a line are no part of an argument. -/
theorem split_blanks_append (blank : ∀ c ∈ blanks, isBlank c = true) (line : String) :
    split (String.ofList blanks ++ line) = split line := by
  rw [split_eq, split_eq, chars_append, chars_ofList, argumentChars_blanks_append blank]

theorem argumentChars_append_blanks (cs : List Char) (blank : ∀ c ∈ blanks, isBlank c = true) :
    argumentChars (cs ++ blanks) = argumentChars cs := by
  have behind {at' : Cursor} (sane : at'.Sane) (kept : List Char) :
      ((at'.pieces kept blanks).map trimChars).filter (· ≠ []) =
        [trimChars kept.reverse].filter (· ≠ []) := by
    induction blanks generalizing kept with
    | nil => rfl
    | cons c blanks ih =>
      have later := ih fun d mem => blank d (.tail _ mem)
      have same : trimChars (c :: kept).reverse = trimChars kept.reverse := by
        rw [List.reverse_cons, trimChars_append_blanks _ (by simpa using blank c (.head _))]
      rw [Cursor.pieces, Cursor.after_blank sane (blank c (.head _))]
      split
      · rw [List.map_cons, ← List.singleton_append, List.filter_append, later, same]
        exact List.append_nil _
      · rw [later, same]
  have all {at' : Cursor} (sane : at'.Sane) (kept : List Char) :
      ((at'.pieces kept (cs ++ blanks)).map trimChars).filter (· ≠ []) =
        ((at'.pieces kept cs).map trimChars).filter (· ≠ []) := by
    induction cs generalizing at' kept with
    | nil => exact behind sane kept
    | cons c cs ih =>
      rw [List.cons_append, Cursor.pieces, Cursor.pieces]
      split
      · rw [List.map_cons, List.filter_cons, ih sane, List.map_cons, List.filter_cons]
      · exact ih (sane.after c) _
  exact all Cursor.sane_start []

/-- Blanks at the end of a line are no part of an argument. -/
theorem split_trimEnd (line : String) : split (Text.trimEnd line) = split line := by
  obtain ⟨blanks, whole, blank⟩ := exists_blanks (chars line)
  rw [split_eq, split_eq, Text.trimEnd, chars_ofList, whole, argumentChars_append_blanks _ blank,
    ← whole]

/-- Blanks at the two ends of a line are no part of an argument. -/
theorem split_trim (line : String) : split (Text.trim line) = split line := by
  obtain ⟨before, behind, whole, blank, blank'⟩ := exists_trimChars (chars line)
  rw [split_eq, split_eq, Text.trim, chars_ofList, whole, argumentChars_blanks_append blank,
    argumentChars_append_blanks _ blank', ← whole]

/-- The first argument starts with the character that its line starts with, if this is no blank. -/
theorem exists_split_eq_cons (starts : chars line = c :: cs) (solid : isBlank c = false) :
    ∃ first rest, split line = first :: rest ∧ (chars first).head? = some c := by
  have visible : Cursor.ends {} c = false := by
    simp only [Cursor.ends, Bool.and_eq_false_iff, decide_eq_false_iff_not]
    exact .inr fun space => by simp [space, isBlank] at solid
  have first (piece : List Char) : (trimChars (c :: piece)).head? = some c := by
    obtain ⟨before, behind, whole, blank, blank'⟩ := exists_trimChars (c :: piece)
    have other {blanks : List Char} (blank : ∀ c ∈ blanks, isBlank c = true) : c ∉ blanks :=
      fun mem => absurd (blank c mem) (by simp [solid])
    cases before with
    | cons => exact absurd (by simp [(List.cons.inj whole).1]) (other blank)
    | nil =>
      cases trimmed : trimChars (c :: piece) with
      | nil =>
        rw [trimmed, List.nil_append, List.nil_append] at whole
        exact absurd (whole ▸ .head _) (other blank')
      | cons =>
        rw [trimmed] at whole
        exact congrArg some (List.cons.inj whole).1.symm
  obtain ⟨piece, rest, cut⟩ := List.exists_cons_of_ne_nil (Cursor.pieces_ne_nil (Cursor.after {} c) [] cs)
  have begins : Cursor.pieces {} [] (c :: cs) = (c :: piece) :: rest := by
    have kept := Cursor.pieces_kept (Cursor.after {} c) [] [c] cs
    rw [cut] at kept
    rw [Cursor.pieces, visible, if_neg Bool.false_ne_true]
    exact kept
  have nonempty : trimChars (c :: piece) ≠ [] := fun none => by simpa [none] using first piece
  rw [split_eq, starts, argumentChars, begins, List.map_cons,
    List.filter_cons_of_pos (by simpa using nonempty), List.map_cons]
  exact ⟨_, _, rfl, by rw [chars_ofList, first]⟩

/-! ### Arguments written one after the other -/

/-- What is left of an argument without the blanks around it opens and closes the same. -/
theorem reads_trimChars (h : Cursor.Reads {} cs stop) : Cursor.Reads {} (trimChars cs) stop := by
  obtain ⟨before, behind, whole, blank, blank'⟩ := exists_trimChars cs
  rw [whole, Cursor.reads_append] at h
  obtain ⟨first, front, back⟩ := h
  rw [Cursor.reads_append] at back
  obtain ⟨last, middle, back⟩ := back
  rw [front.eq_of_blanks Cursor.sane_start blank] at middle
  rw [back.eq_of_blanks (middle.sane Cursor.sane_start) blank']
  exact middle

/-- All arguments but the last one are closed. -/
theorem reads_of_argumentChars {last : List Char} {front back : List (List Char)}
    (h : argumentChars cs = front ++ last :: back) :
    (∀ a ∈ front, Cursor.Reads {} a {}) ∧ ∃ stop, Cursor.Reads {} last stop := by
  induction hn : cs.length using Nat.strongRecOn generalizing cs front with
  | ind n ih =>
    rcases Cursor.reads_or_ends {} cs with ⟨stop, reads⟩ | ⟨word, rest, rfl, reads⟩
    · rw [argumentChars_single reads] at h
      by_cases empty : trimChars cs = []
      · simp [empty] at h
      · rw [List.filter_cons_of_pos (by simpa using empty)] at h
        cases front with
        | nil =>
          obtain ⟨rfl, -⟩ := List.cons.inj h
          exact ⟨nofun, stop, reads_trimChars reads⟩
        | cons => simp at h
    · rw [argumentChars_append reads] at h
      have shorter : rest.length < n := by
        rw [← hn, List.length_append, List.length_cons]
        omega
      by_cases empty : trimChars word = []
      · rw [empty] at h
        exact ih rest.length shorter h rfl
      · rw [List.filter_cons_of_pos (by simpa using empty)] at h
        cases front with
        | nil =>
          obtain ⟨rfl, -⟩ := List.cons.inj h
          exact ⟨nofun, {}, reads_trimChars reads⟩
        | cons =>
          obtain ⟨rfl, later⟩ := List.cons.inj h
          obtain ⟨closed, last⟩ := ih rest.length shorter later rfl
          exact ⟨List.forall_mem_cons.2 ⟨reads_trimChars reads, closed⟩, last⟩

/-- Arguments with single spaces between them are read back. Only the last one may be left open. -/
theorem split_join {front : List String} {last : String}
    (closed : ∀ part ∈ front, Cursor.Reads {} (chars part) {})
    (reads : Cursor.Reads {} (chars last) stop)
    (solid : ∀ part ∈ front ++ [last], part ≠ "" ∧ Trimmed (chars part)) :
    split (Text.join " " (front ++ [last])) = front ++ [last] := by
  have one {part : String} (mem : part ∈ front ++ [last]) :
      ([trimChars (chars part)].filter (· ≠ [])).map String.ofList = [part] := by
    have nonempty : chars part ≠ [] := fun none => (solid part mem).1 (chars_inj.1 none)
    rw [trimChars_eq_self_iff.2 (solid part mem).2, List.filter_cons_of_pos (by simpa using nonempty)]
    exact congrArg ([·]) (ofList_chars part)
  rw [split_eq]
  induction front with
  | nil => rw [List.nil_append, Text.join, argumentChars_single reads, one (.head _)]
  | cons part front ih =>
    have later := ih (fun p hp => closed p (.tail _ hp)) (fun p hp => solid p (.tail _ hp))
      fun hp => one (.tail _ hp)
    have joined : chars (Text.join " " (part :: (front ++ [last]))) =
        chars part ++ ' ' :: chars (Text.join " " (front ++ [last])) := by
      rw [Text.join, chars_append, chars_append, List.append_assoc]
      · rfl
      · simp
    rw [List.cons_append, joined, argumentChars_append (closed part (.head _)), List.map_append,
      one (.head _), later]
    rfl

/-- The first arguments of a line are read back. -/
theorem split_join_of_split {front back : List String} (h : split line = front ++ back) :
    split (Text.join " " front) = front := by
  rcases List.eq_nil_or_concat front with rfl | ⟨front, last, rfl⟩
  · rfl
  · rw [List.concat_eq_append] at h ⊢
    have same : chars ∘ String.ofList = id := funext chars_ofList
    have read := congrArg (List.map chars) h
    rw [split_eq, List.map_map, same, List.map_id, List.append_assoc, List.map_append,
      List.singleton_append, List.map_cons] at read
    obtain ⟨closed, stop, reads⟩ := reads_of_argumentChars read
    refine split_join (fun part mem => closed _ (List.mem_map_of_mem mem)) reads fun part mem => ?_
    have inside : part ∈ split line := h ▸ List.mem_append_left _ mem
    exact ⟨ne_empty_of_mem_split inside, trimmed_of_mem_split inside⟩

/-- A text that does not end in a blank ends in its last argument. -/
theorem exists_append_getLast? (some' : cs ≠ []) (ends : ∀ c ∈ cs.getLast?, isBlank c = false) :
    ∃ front last, cs = front ++ last ∧ (argumentChars cs).getLast? = some last := by
  induction hn : cs.length using Nat.strongRecOn generalizing cs with
  | ind n ih =>
    rcases Cursor.reads_or_ends {} cs with ⟨stop, reads⟩ | ⟨word, rest, rfl, reads⟩
    · have nothing {front blanks : List Char} (same : cs = front ++ blanks)
          (blank : ∀ c ∈ blanks, isBlank c = true) : blanks = [] := by
        rcases List.eq_nil_or_concat blanks with none | ⟨back, c, rfl⟩
        · exact none
        · rw [List.concat_eq_append] at same blank
          exact absurd (blank c (by simp)) (by simp [ends c (by simp [same])])
      obtain ⟨before, behind, whole, blank, blank'⟩ := exists_trimChars cs
      rw [← List.append_assoc] at whole
      rw [nothing whole blank', List.append_nil] at whole
      have nonempty : trimChars cs ≠ [] := fun none => by
        rw [none, List.append_nil] at whole
        exact some' (whole.trans (@nothing [] before whole blank))
      rw [argumentChars_single reads, List.filter_cons_of_pos (by simpa using nonempty)]
      exact ⟨before, _, whole, rfl⟩
    · cases rest with
      | nil => exact absurd (ends ' ' (by simp)) (by decide)
      | cons c rest =>
        obtain ⟨front, last, same, found⟩ := ih (c :: rest).length (by simp [← hn]; omega)
          (List.cons_ne_nil c rest) (by simpa using ends) rfl
        refine ⟨word ++ ' ' :: front, last, by rw [same]; simp, ?_⟩
        rw [argumentChars_append reads, List.getLast?_append, found]
        rfl

/-- A line ends in its last argument, apart from blanks. -/
theorem chars_trim_of_getLast? {last : String} (h : (split line).getLast? = some last) :
    ∃ front, chars (Text.trim line) = front ++ chars last := by
  rw [← split_trim, split_eq, List.getLast?_map] at h
  have some' : chars (Text.trim line) ≠ [] := fun none => by
    rw [none] at h
    cases h
  obtain ⟨front, cs, same, found⟩ := exists_append_getLast? some' fun c =>
    (chars_ofList (trimChars (chars line)) ▸ trimmed_trimChars (chars line)).2 c
  rw [found] at h
  cases h
  exact ⟨front, by rw [chars_ofList, same]⟩

/-! ### What arguments cover -/

theorem Cursor.flatten_pieces (at' : Cursor) (kept cs : List Char) :
    (at'.pieces kept cs).flatten = kept.reverse ++ cs := by
  induction cs generalizing at' kept with
  | nil => simp [Cursor.pieces]
  | cons _ _ ih =>
    rw [Cursor.pieces]
    split <;> simp [ih]

/-- Arguments cover their line up to blanks. -/
theorem solid_concat_split (line : String) :
    Text.solid (Text.concat (split line)) = Text.solid line := by
  have written (parts : List (List Char)) :
      chars (Text.concat (parts.map String.ofList)) = parts.flatten := by
    induction parts with
    | nil => rfl
    | cons _ _ ih => rw [List.map_cons, Text.concat, chars_append, chars_ofList, ih, List.flatten_cons]
  have trimmed : List.filter (!isBlank ·) ∘ trimChars = List.filter (!isBlank ·) := by
    funext cs
    obtain ⟨before, behind, whole, blank, blank'⟩ := exists_trimChars cs
    have gone {blanks : List Char} (blank : ∀ c ∈ blanks, isBlank c = true) :
        blanks.filter (!isBlank ·) = [] := List.filter_eq_nil_iff.2 (by simpa using blank)
    have cut := congrArg (List.filter (!isBlank ·)) whole
    rw [List.filter_append, List.filter_append, gone blank, gone blank', List.nil_append,
      List.append_nil] at cut
    exact cut.symm
  have covered : (argumentChars (chars line)).flatten.filter (!isBlank ·) =
      (chars line).filter (!isBlank ·) := by
    rw [argumentChars, List.flatten_filter_ne_nil, List.filter_flatten, List.map_map, trimmed,
      ← List.filter_flatten, Cursor.flatten_pieces]
    rfl
  rw [Text.solid, split_eq, written, covered, Text.solid]

end CommandPack.Argument
