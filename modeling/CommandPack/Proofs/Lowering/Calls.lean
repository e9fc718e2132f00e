import CommandPack.Proofs.Lowering.Scopes
import CommandPack.Proofs.Text.Splitting

/-!
# Calls

A line that starts with the name of a definition is a call of it. What the line adds to a body is
described by the expansion of the call: the functions on the way to the one that is called, the
argument that each of their parameters gets, and the commands that hand these arguments over.
-/

namespace CommandPack

open Text

/-! ### Lines that start with a name -/

/-- What names are made of is no mark and no blank. -/
theorem Name.plain_of_isPart {c : Char} (h : Name.isPart c = true) :
    c ∉ Token.quoteMarks ∧ c ∉ Token.punctuationMarks ∧ isBlank c = false := by
  have marks : (Token.quoteMarks ++ Token.punctuationMarks).all (!Name.isPart ·) = true := by decide
  rw [List.all_append, Bool.and_eq_true, List.all_eq_true, List.all_eq_true] at marks
  refine ⟨fun mem => ?_, fun mem => ?_, ?_⟩
  · simpa [h] using marks.1 c mem
  · simpa [h] using marks.2 c mem
  · have range : 48 ≤ c.toNat ∧ c.toNat ≤ 122 := by
      have bounds : 'a'.val.toNat = 97 ∧ 'z'.val.toNat = 122 ∧ '0'.val.toNat = 48 ∧
          '9'.val.toNat = 57 := by decide
      simp only [Name.isPart, Name.isStart, isDigit, Bool.or_eq_true, Bool.and_eq_true,
        decide_eq_true_eq, Char.le_def, UInt32.le_iff_toNat_le] at h
      unfold Char.toNat
      rcases h with (⟨low, high⟩ | rfl) | ⟨low, high⟩
      · omega
      · decide
      · omega
    simp only [isBlank, Bool.or_eq_false_iff, Bool.and_eq_false_iff, decide_eq_false_iff_not,
      beq_eq_false_iff_ne]
    omega

namespace Statement

/-- A word that does not end in a space is a part of the leading word. -/
theorem headChars_held {held : List Char} (open' : held.head? ≠ some ' ') (tokens : List Token) :
    headChars (Token.held .word held ++ tokens) = held.reverse ++ headChars tokens := by
  cases held with
  | nil => rfl
  | cons c held =>
    change headChars (⟨.word, String.ofList (c :: held).reverse⟩ :: tokens) = _
    rw [headChars, if_neg (by simp [Token.isWord]), if_neg (open' ∘ Argument.endsInSpace_iff.1),
      chars_ofList]

/-- A word that ends in a space ends the leading word. -/
theorem headChars_space (held : List Char) (tokens : List Token) :
    headChars (Token.held .word (' ' :: held) ++ tokens) = dropBlanksEnd held.reverse := by
  change headChars (⟨.word, String.ofList (' ' :: held).reverse⟩ :: tokens) = _
  rw [headChars, if_neg (by simp [Token.isWord]), if_pos (Argument.endsInSpace_iff.2 rfl),
    chars_ofList, List.reverse_cons, dropBlanksEnd_append_blanks _ (List.forall_mem_singleton.2 rfl)]

/-- A name at the start of a line is its leading word. -/
theorem headChars_scanFrom {held cs rest : List Char}
    (name : ∀ c ∈ held ++ cs, Name.isPart c = true) (ends : rest = [] ∨ rest.head? = some ' ') :
    headChars (Token.scanFrom none held (cs ++ rest)) = held.reverse ++ cs := by
  have goesOn {held : List Char} (name : ∀ c ∈ held, Name.isPart c = true) (tokens : List Token) :=
    headChars_held (fun first => absurd (name ' ' (List.mem_of_head? first)) (by decide)) tokens
  induction cs generalizing held with
  | nil =>
    rw [List.append_nil] at name ⊢
    rw [List.nil_append]
    cases rest with
    | nil =>
      have scanned := goesOn name []
      rw [List.append_nil, headChars, List.append_nil] at scanned
      rw [Token.scanFrom, scanned]
    | cons c =>
      obtain rfl : c = ' ' := by simpa using ends
      have last : ∀ c, held.reverse.getLast? = some c → isBlank c = false := by
        intro c last
        rw [List.getLast?_reverse] at last
        exact (Name.plain_of_isPart (name c (List.mem_of_head? last))).2.2
      rw [Token.scanFrom, if_neg (by decide), if_neg (by decide), if_pos (by decide),
        headChars_space, dropBlanksEnd_eq_self last]
  | cons c cs ih =>
    obtain ⟨noQuote, noMark, -⟩ := Name.plain_of_isPart (name c (by simp))
    have ahead : ∀ d ∈ c :: held, Name.isPart d = true := by
      intro d mem
      exact name d (by simp only [List.mem_cons, List.mem_append] at mem ⊢; tauto)
    have later : ∀ d ∈ cs, Name.isPart d = true := fun d mem => name d (by simp [mem])
    rw [List.cons_append, Token.scanFrom, if_neg noQuote, if_neg noMark]
    split
    · rw [goesOn ahead, ih later]
      simp
    · rw [ih (List.forall_mem_append.2 ⟨ahead, later⟩)]
      simp

/-- The leading word and the rest of a line that starts with a name. -/
theorem splitHead_name {name : String} (valid : Name.isVariable name = true) {after : String}
    (ends : chars after = [] ∨ (chars after).head? = some ' ') :
    splitHead (name ++ after) = (name, trim after) := by
  have head : headChars (Token.scan (name ++ after)) = chars name := by
    rw [Token.scan, chars_append]
    exact headChars_scanFrom (fun c mem => Name.isPart_of_mem valid mem) ends
  rw [splitHead, head, ofList_chars, chars_append, List.drop_left, ofList_chars]

/-- Lines that are trimmed still start with their name. -/
theorem trim_name_append {name : String} (valid : Name.isVariable name = true) (after : String) :
    trim (name ++ after) = name ++ trimEnd after := by
  have parts {c : Char} (mem : c ∈ chars name) : isBlank c = false :=
    (Name.plain_of_isPart (Name.isPart_of_mem valid mem)).2.2
  have some' : chars name ≠ [] := by
    intro none
    rw [Name.isVariable, none] at valid
    cases valid
  have front : dropBlanks (chars name ++ chars after) = chars name ++ chars after := by
    refine dropBlanks_eq_self fun c first => parts ?_
    rw [List.head?_append_of_ne_nil _ some'] at first
    exact List.mem_of_head? first
  rw [trim, chars_append, trimChars, front,
    dropBlanksEnd_append _ fun c last => parts (List.mem_of_getLast? last),
    trimEnd, ← chars_inj, chars_ofList, chars_append, chars_ofList]

theorem trim_trimEnd (text : String) : trim (trimEnd text) = trim text := by
  obtain ⟨blanks, whole, blank⟩ := exists_blanks (chars text)
  have same : trimChars (dropBlanksEnd (chars text)) = trimChars (chars text) := by
    conv_rhs => rw [whole]
    exact (trimChars_append_blanks _ blank).symm
  rw [trim, trimEnd, chars_ofList, same, trim]

/-- A word that is neither a keyword nor forbidden decides nothing. -/
theorem ofKeyword?_of_not_mem {head : String} (free : head ∉ Name.keywords)
    (allowed : head ∉ Name.forbidden) (rest line : String) :
    ofKeyword? head rest line = .ok none := by
  simp only [Name.keywords, List.cons_append, List.mem_cons, List.mem_append, List.not_mem_nil,
    or_false, not_or] at free
  simp only [ofKeyword?, free, allowed, decide_false, Bool.false_and, Bool.false_eq_true, if_false]

theorem ofKeyword?_of_forbidden {head : String} (mem : head ∈ Name.forbidden) (rest line : String) :
    ofKeyword? head rest line =
      .error (.malformedCommand ("\"" ++ head ++ "\" cannot be used as a command here.")) := by
  have others : head ≠ "def" ∧ head ≠ "else" ∧ head ≠ "repeat" ∧ head ≠ "while" ∧
      head ≠ "whilenot" ∧ head ≠ "loop" ∧ head ≠ "break" ∧ head ≠ "continue" := by
    revert mem head
    decide
  simp [ofKeyword?, others, mem]

/-- How a line that starts with the name of a definition is classified, whatever stands behind the
name: only a keyword, a forbidden word or a sign keeps it from being a call. -/
theorem classify_name {resolve : String → Option Path} {name after : String} {callee : Path}
    (valid : Name.isFunction name = true) (resolved : resolve name = some callee)
    (ends : chars after = [] ∨ (chars after).head? = some ' ')
    (unsigned : ∀ c ∈ (chars (trim after)).head?, c ∉ ['=', '+', '-', '*', '/', '%', '<', '>']) :
    classify resolve (name ++ after) =
      if name ∈ Name.forbidden then
        .error (.malformedCommand ("\"" ++ name ++ "\" cannot be used as a command here."))
      else
        .ok (.call callee (trim after)) := by
  have isVariable := Name.isVariable_of_isFunction valid
  simp only [Name.isFunction, Bool.and_eq_true, Bool.not_eq_true', decide_eq_false_iff_not] at valid
  have some' : name ≠ "" := by
    rintro rfl
    exact absurd isVariable (by decide)
  have ends' : chars (trimEnd after) = [] ∨ (chars (trimEnd after)).head? = some ' ' := by
    rw [trimEnd, chars_ofList]
    obtain ⟨rest, whole⟩ := dropBlanksEnd_prefix (chars after)
    cases kept : dropBlanksEnd (chars after) with
    | nil => exact .inl rfl
    | cons =>
      rw [kept] at whole
      rw [← whole] at ends
      exact .inr (ends.resolve_left (by simp))
  have split : splitHead (trim (name ++ after)) = (name, trim after) := by
    rw [trim_name_append isVariable, splitHead_name isVariable ends', trim_trimEnd]
  have noSign : ofSign? name (trim after) = none := by
    cases signed : ofSign? name (trim after) with
    | none => rfl
    | some =>
      obtain ⟨c, cs, starts, sign⟩ := sign_of_ofSign? signed
      exact absurd sign (unsigned c (by rw [starts]; rfl))
  have fixed : fixed? name (trim after) (trim (name ++ after)) =
      ofKeyword? name (trim after) (trim (name ++ after)) := by
    rw [fixed?, if_neg some', noSign]
  rw [classify_eq, split, fixed]
  by_cases forbidden : name ∈ Name.forbidden
  · rw [ofKeyword?_of_forbidden forbidden, if_pos forbidden]
    rfl
  · rw [ofKeyword?_of_not_mem valid.1.2 forbidden, if_neg forbidden]
    simp [some', valid.1.2, resolved, Except.map]

/-- Every function that can be defined can be called, with and without arguments, except for those
that are named like a forbidden word. -/
theorem classify_defined {resolve : String → Option Path} {line arguments : String}
    {signature : Signature} {callee : Path} (parsed : Signature.parse line = .ok signature)
    (resolved : resolve signature.name = some callee)
    (unsigned : ∀ c ∈ (chars (trim arguments)).head?,
      c ∉ ['=', '+', '-', '*', '/', '%', '<', '>']) :
    (signature.name ∉ Name.forbidden →
      classify resolve signature.name = .ok (.call callee "") ∧
      classify resolve (signature.name ++ " " ++ arguments) =
        .ok (.call callee (trim arguments))) ∧
    (signature.name ∈ Name.forbidden →
      classify resolve signature.name = .error (.malformedCommand
        ("\"" ++ signature.name ++ "\" cannot be used as a command here.")) ∧
      classify resolve (signature.name ++ " " ++ arguments) = .error (.malformedCommand
        ("\"" ++ signature.name ++ "\" cannot be used as a command here."))) := by
  have valid := Signature.isFunction_of_parse parsed
  have alone := @classify_name resolve signature.name "" callee valid resolved (.inl rfl) nofun
  have blank : trim (" " ++ arguments) = trim arguments := by
    have written : chars (" " ++ arguments) = ' ' :: chars arguments := chars_append " " arguments
    rw [trim, written, Argument.trimChars_blank_cons (by decide), trim]
  have starts : (chars (" " ++ arguments)).head? = some ' ' := by
    rw [chars_append]
    rfl
  have followed := @classify_name resolve signature.name (" " ++ arguments) callee valid resolved
    (.inr starts) (by rwa [blank])
  rw [String.append_empty] at alone
  rw [blank, ← String.append_assoc] at followed
  constructor
  · intro allowed
    rw [if_neg allowed] at alone followed
    exact ⟨alone, followed⟩
  · intro forbidden
    rw [if_pos forbidden] at alone followed
    exact ⟨alone, followed⟩

/-- A call with and without arguments. -/
theorem classify_defined_greet :
    classify (fun _ => some ⟨["main", "greet"]⟩) "greet" = .ok (.call ⟨["main", "greet"]⟩ "") ∧
      classify (fun _ => some ⟨["main", "greet"]⟩) ("greet" ++ " " ++ "  @p x=\"a b\" ") =
        .ok (.call ⟨["main", "greet"]⟩ (trim "  @p x=\"a b\" ")) :=
  (@classify_defined _ "def greet who x#s=hi:" _
    ⟨"greet", [⟨"who", .entity false false, none⟩, ⟨"x", .string, some "hi"⟩]⟩ _ rfl rfl
    (by rintro _ ⟨⟩; decide)).1 (by decide)

/-- A definition with the name of a forbidden word is accepted, but a line that starts with this
word is not. -/
theorem classify_function_rejected :
    Signature.parse "def function:" = .ok ⟨"function", []⟩ ∧
      classify (fun _ => some ⟨["main", "function"]⟩) "function" =
        .error (.malformedCommand "\"function\" cannot be used as a command here.") :=
  ⟨rfl, rfl⟩

end Statement

/-! ### Calls written out -/

namespace Invocation

variable {self : Routine} {ws : Workspace} {callee : Path} {arguments : List String}

/-- The tag that a command gives to what it selects. -/
def addedTag? : Command → Option String
  | .addTag _ tag => some tag
  | _ => none

/-- The tags that are released after a call are those that were given before it. -/
theorem Expansion.tags_bindings (e : Expansion self ws callee arguments) :
    e.bindings.filterMap addedTag? = Handed.tags e.all := by
  have tags : ∀ {all : List Handed} {bindings : List Command},
      List.Forall₂ (Passes self ws) (Handed.carried all) bindings →
        bindings.filterMap addedTag? = Handed.tags all := by
    intro all bindings passes
    induction all generalizing bindings with
    | nil =>
      cases passes
      rfl
    | cons handed _ ih =>
      rw [Handed.carried, List.filter_cons] at passes
      rw [Handed.tags, List.filter_cons]
      split at passes
      · obtain ⟨command, later, first, rest, rfl⟩ := List.forall₂_cons_left_iff.1 passes
        rw [List.filterMap_cons]
        cases first with
        | mark entity =>
          rw [if_pos entity, List.map_cons]
          exact congrArg (handed.slot :: ·) (ih rest)
        | number integer =>
          rw [if_neg (by rw [integer]; decide)]
          exact ih rest
        | copy integer =>
          rw [if_neg (by rw [integer]; decide)]
          exact ih rest
      · next string =>
        have other : ¬ handed.param.kind.isEntity = true := by
          cases kind : handed.param.kind <;> simp [kind, Kind.isString, Kind.isEntity] at string ⊢
        rw [if_neg other]
        exact ih passes
  exact tags e.passes

end Invocation

/-- Calls are balanced and complete: the commands of a line that calls a function are those that
bind arguments, one call, and the releases of exactly the tags that were given before it. Which
function is called and what every parameter on the way to it gets is in the expansion. -/
theorem Lowering.line_call_balanced {compile : Compile} {self : Routine} {site : Site}
    {text arguments : String} {callee : Path} {body body' : Body} {ws ws' : Workspace} {u : Unit}
    (classified : Statement.classify (ws.resolveFunction? self.path) text =
      .ok (.call callee arguments))
    (gives : BodyM.Gives (Lowering.line compile self site text) body ws u body' ws') :
    ∃ e : Invocation.Expansion self ws' callee (Argument.split arguments),
      body'.commands = body.commands ++ (e.bindings ++ .invoke [] ⟨e.last, e.strings⟩ ::
        (Invocation.Handed.tags e.all).map .releaseTag) ∧
      e.bindings.filterMap Invocation.addedTag? = Invocation.Handed.tags e.all ∧
      e.last ≠ self.owner ∧ e.last.encloses self.owner = false := by
  obtain ⟨parsed, mid, classified', statement, rfl⟩ := Lowering.gives_line.1 gives
  rw [classified] at classified'
  cases classified'
  obtain ⟨rfl, e, rfl⟩ := Invocation.expansion_of_call statement
  exact ⟨e, rfl, e.tags_bindings, e.leads.allowed⟩

/-- A function with an entity and an integer parameter, and one inside it with a string parameter
and a default. -/
def nestedFunctions : Workspace where
  routines := Table.ofList
    [(⟨["main", "f"]⟩,
      { path := ⟨["main", "f"]⟩, kind := .defined, start := 1, depth := 1, owner := ⟨["main", "f"]⟩
        params := [⟨"a", .entity false false, none⟩, ⟨"n", .integer, none⟩] }),
     (⟨["main", "f", "g"]⟩,
      { path := ⟨["main", "f", "g"]⟩, kind := .defined, start := 2, depth := 2
        owner := ⟨["main", "f", "g"]⟩
        params := [⟨"s", .string, none⟩, ⟨"k", .integer, some "3"⟩] })]
  ints := ["main.f.n", "main.f.g.k"]
  slots := Table.ofList [("main.f.n", "main.f.n.0"), ("main.f.g.k", "main.f.g.k.1")]

/-- A call of the inner function. -/
theorem Lowering.line_call_balanced_nested :
    ∃ e : Invocation.Expansion (.ofRoot ⟨["main"]⟩)
        (nestedFunctions.record (.lineStarted ⟨["main"]⟩ 0 "f @p 5 g !"))
        ⟨["main", "f"]⟩ (Argument.split "@p 5 g !"),
      [.addTag "@p" "main.f.a", .setScore "main.f.n.0" 5, .setScore "main.f.g.k.1" 3,
        .invoke [] ⟨⟨["main", "f", "g"]⟩, ["!"]⟩, .releaseTag "main.f.a"] =
          [] ++ (e.bindings ++ .invoke [] ⟨e.last, e.strings⟩ ::
            (Invocation.Handed.tags e.all).map .releaseTag) ∧
      e.bindings.filterMap Invocation.addedTag? = Invocation.Handed.tags e.all ∧
      e.last ≠ ⟨["main"]⟩ ∧ e.last.encloses ⟨["main"]⟩ = false :=
  @Lowering.line_call_balanced (fun _ _ => throw .exhausted) (.ofRoot ⟨["main"]⟩) ⟨0, []⟩
    "f @p 5 g !" "@p 5 g !" ⟨["main", "f"]⟩ {} { commands :=
      [.addTag "@p" "main.f.a", .setScore "main.f.n.0" 5, .setScore "main.f.g.k.1" 3,
        .invoke [] ⟨⟨["main", "f", "g"]⟩, ["!"]⟩, .releaseTag "main.f.a"] }
    nestedFunctions _ () rfl rfl

end CommandPack
