import CommandPack.Proofs.Linking.Ending
import CommandPack.Proofs.Lowering.Calls

/-!
# Definitions that are found again

The header of a definition is read twice: the definitions of a block are registered before its first
line is compiled, and each line is read again when its turn comes. Both readings give the same name.
The line finds the definition that was registered for it, also from a guarded block and in a
variant, exactly if the root is a single name.
-/

namespace CommandPack

open Text Workspace Linking WorkM Statement Token
open Signature (parse)

/-! ### The two readings of a header -/

namespace Statement

open Token (scanFrom)

variable {held cs blanks : List Char} {line : String} {signature : Signature}

/-- Blanks add nothing but blanks to the leading word. -/
theorem headChars_blanks (open' : held.head? ≠ some ' ') (blank : ∀ c ∈ blanks, isBlank c = true) :
    dropBlanksEnd (headChars (scanFrom none held blanks)) = dropBlanksEnd held.reverse := by
  induction blanks generalizing held with
  | nil =>
    have ends := headChars_held open' []
    rw [List.append_nil, headChars, List.append_nil] at ends
    rw [scanFrom, ends]
  | cons c _ ih =>
    have here := blank c (.head _)
    obtain ⟨noQuote, noMark⟩ := Argument.Cursor.plain_of_isBlank here
    rw [scanFrom, if_neg noQuote, if_neg noMark]
    split
    · next ends =>
      have space : c = ' ' := by
        rcases Bool.or_eq_true_iff.1 ends with space | digit
        · exact of_decide_eq_true space
        · have part : Name.isPart c = true := Bool.or_eq_true_iff.2 (.inr digit)
          exact absurd here (by rw [(Name.plain_of_isPart part).2.2]; exact Bool.false_ne_true)
      rw [space, headChars_space, dropBlanksEnd_eq_self fun _ => getLast?_dropBlanksEnd]
    · next other =>
      have goesOn : (c :: held).head? ≠ some ' ' := by
        rintro ⟨⟩
        exact other rfl
      rw [ih goesOn fun d mem => blank d (.tail _ mem), List.reverse_cons,
        dropBlanksEnd_append_blanks _ (by simpa using here)]

/-- Blanks at the end of a line leave its leading word as it is, unless the line is one word. -/
theorem headChars_append_blanks (open' : held.head? ≠ some ' ')
    (blank : ∀ c ∈ blanks, isBlank c = true) :
    headChars (scanFrom none held (cs ++ blanks)) = headChars (scanFrom none held cs) ∨
      headChars (scanFrom none held cs) = held.reverse ++ cs ∧
        dropBlanksEnd (headChars (scanFrom none held (cs ++ blanks))) =
          dropBlanksEnd (held.reverse ++ cs) := by
  induction cs generalizing held with
  | nil =>
    have ends := headChars_held open' []
    rw [List.append_nil, headChars] at ends
    exact .inr ⟨ends, by rw [List.append_nil]; exact headChars_blanks open' blank⟩
  | cons c cs ih =>
    rw [List.cons_append, scanFrom, scanFrom]
    split
    · exact .inl (by simp [headChars_held open', headChars, isWord])
    · split
      · exact .inl (by simp [headChars_held open', headChars, isWord])
      · by_cases space : c = ' '
        · subst space
          exact .inl (by simp [headChars_space])
        · have goesOn : (c :: held).head? ≠ some ' ' := fun same => space (Option.some.inj same)
          split
          · next ends =>
            have digit : isDigit c = true := by simpa [space] using ends
            have solid : ∀ d, (c :: held).reverse.getLast? = some d → isBlank d = false := by
              rintro d last
              rw [List.getLast?_reverse] at last
              cases last
              exact (Name.plain_of_isPart (Bool.or_eq_true_iff.2 (.inr digit))).2.2
            rw [headChars_held goesOn, headChars_held goesOn]
            rcases @ih [] (by simp) with same | ⟨whole, same⟩
            · exact .inl (by rw [same])
            · refine .inr ⟨by rw [whole]; simp, ?_⟩
              rw [dropBlanksEnd_append _ solid, same, ← dropBlanksEnd_append _ solid]
              simp
          · simpa using ih goesOn

/-- A line that starts with `def` starts with it after trimming, too. -/
theorem splitHead_trim (head : (splitHead line).1 = "def") :
    (splitHead (trim line)).1 = "def" := by
  have word : headChars (scan line) = chars "def" := by
    rw [← head, splitHead, chars_ofList]
  obtain ⟨after, split⟩ := headChars_prefix (scan line)
  rw [cover_scan, word] at split
  have front : trimChars (chars line) = dropBlanksEnd (chars line) := by
    rw [← split, trimChars, dropBlanks_eq_self (by rintro _ ⟨⟩; decide)]
  obtain ⟨blanks, whole, blank⟩ := exists_blanks (chars line)
  rw [scan, whole] at word
  rw [splitHead, scan, trim, chars_ofList, front]
  change String.ofList (headChars _) = _
  rcases @headChars_append_blanks [] (dropBlanksEnd (chars line)) _ (by simp) blank with
    same | ⟨all, same⟩
  · rw [← same, word]
    rfl
  · rw [word, List.reverse_nil, List.nil_append,
      dropBlanksEnd_eq_self fun _ => getLast?_dropBlanksEnd] at same
    rw [all, List.reverse_nil, List.nil_append, ← same]
    rfl

theorem trim_trim (text : String) : trim (trim text) = trim text := by
  rw [trim_eq_self_iff, trim, chars_ofList]
  exact trimmed_trimChars _

/-- A header that can be registered is read as a definition of the same name. -/
theorem classify_of_parse (head : (splitHead line).1 = "def")
    (parsed : parse line = .ok signature) (resolve : String → Option Path) :
    classify resolve line = .ok (.define signature.name) := by
  have again : parse (trim line) = .ok signature := by
    simpa only [parse, trim_trim] using parsed
  have form := form_of_parse (trim_trim line) (splitHead_trim head) again
  have fixed := fixed?_of_form form (by rintro ⟨⟩)
  rw [classify_eq, ← trim_trim line, fixed]
  rfl

end Statement

/-! ### Lines that a build comes to -/

/-- A compilation that is in order stays in order up to every line that it comes to. -/
theorem Reaches.situated {task : Task} {c : Stage} {visit : Visit} (reaches : Reaches task c visit) :
    ∀ {home}, task.Sits home c → c.2.Develops visit.ws ∧ ∃ home line following,
      Situated home visit.routine visit.index (line :: following) visit.ws ∧
        line.depth = visit.routine.depth := by
  induction reaches with
  | enter found enters _ ih =>
    intro _ sits
    obtain ⟨entered, inner⟩ := sits.enter found rfl enters
    exact (ih inner).imp_left entered.trans
  | deeper deeper _ ih => exact fun sits => ih (sits.pass deeper.le)
  | start here => exact fun sits => ⟨.refl _, _, _, _, sits.situated, here⟩
  | statement here _ parsed _ ih =>
    exact fun sits => (ih (sits.start here parsed)).imp_left (Alike.record ..).develops.trans
  | next here _ parsed ran _ ih =>
    intro _ sits
    obtain ⟨passed, later⟩ := sits.next here parsed ran
    exact (ih later).imp_left passed.trans
  | define resolved found _ _ ih => exact fun sits => ih (sits.define resolved found).1
  | block splits hpath free _ ih =>
    intro _ sits
    obtain ⟨opened, inner⟩ := sits.block splits hpath free
    exact (ih inner).imp_left opened.trans
  | header splits hpath free ran =>
    intro _ sits
    obtain ⟨line, situated, here, _⟩ := sits.at_line
    obtain ⟨opened, inner⟩ := sits.block splits hpath free
    obtain ⟨develops, housed⟩ := inner.ran ran
    have develops := opened.trans develops
    exact ⟨develops, _, line, _, situated.mono develops housed, here⟩
  | rest splits hpath free ran heads _ ih =>
    intro _ sits
    obtain ⟨passed, later⟩ := sits.after splits hpath free ran heads
    exact (ih later).imp_left passed.trans
  | guard hpath free _ ih =>
    intro _ sits
    obtain ⟨opened, inner⟩ := sits.guard hpath free
    exact (ih inner).imp_left opened.trans

namespace Linking

variable {st st₀ mid st' : LinkState} {ws' : Workspace} {callee path : Path}
  {arguments : List String} {limit depth : Nat} {line : String} {lines : List String} {halt : Halt}

/-- Linking takes the next routine, makes a variant or keeps a routine, or stores final lines. -/
inductive Step (st : LinkState) : LinkState → Prop
  | take {path : Path} {queue : List Path} (waiting : st.queue = path :: queue) :
      Step st (st.taking path queue)
  | move {st' : LinkState} (move : Move st st') : Step st st'
  | store (path : Path) (lines : List String) : Step st (st.storing path lines)

abbrev Steps : LinkState → LinkState → Prop :=
  Relation.ReflTransGen Step

theorem Steps.tidy (steps : Steps st st') (tidy : st.Tidy) : st'.Tidy ∧ Progress st st' := by
  induction steps with
  | refl => exact ⟨tidy, .refl st⟩
  | tail _ step ih =>
    obtain ⟨tidy, progress⟩ := ih
    cases step with
    | take waiting => exact ⟨(tidy.take waiting).2, progress.trans ⟨rfl, rfl, le_rfl, le_rfl⟩⟩
    | move move => exact ⟨tidy.move move, progress.trans (move.progress tidy.housed)⟩
    | store path lines => exact ⟨tidy.store lines, progress.trans (.store path lines)⟩

theorem Moves.steps (moves : Moves st st') : Steps st st' := by
  induction moves with
  | refl => exact .refl
  | tail _ move ih => exact ih.tail (.move move)

/-- Linking that starts in a state may compile a line for a variant. -/
inductive Revisits (st₀ : LinkState) (visit : Visit) : Prop
  | intro {st : LinkState} {callee : Path} {r : Routine} {template : Template}
      {arguments : List String} (steps : Steps st₀ st) (found : st.ws.routines.get? callee = some r)
      (isTemplate : r.template = some template)
      (free : st.ws.routines.get? (nextPath callee template) = none)
      (reaches : Reaches (.routine (nextPath callee template) none)
        ({}, prepared callee r template arguments st.ws) visit)

theorem Revisits.situated {visit : Visit} (h : Revisits st₀ visit) (tidy : st₀.Tidy) :
    (visit.ws.lines = st₀.ws.lines ∧ visit.ws.settings = st₀.ws.settings) ∧
      ∃ home line following,
        Situated home visit.routine visit.index (line :: following) visit.ws ∧
          line.depth = visit.routine.depth := by
  obtain ⟨steps, found, -, free, reaches⟩ := h
  obtain ⟨tidy, progress⟩ := steps.tidy tidy
  obtain ⟨prepares, housed⟩ := prepared_housed tidy.housed found free
  obtain ⟨develops, situated⟩ := reaches.situated
    (.routine housed ((get?_prepared _).trans (if_pos rfl)) (Routine.placed_self rfl))
  have develops := prepares.trans develops
  exact ⟨⟨develops.lines.trans progress.lines, develops.settings.trans progress.settings⟩, situated⟩

/-- The lines that are started are lines that linking may compile. -/
def Accounts (st₀ : LinkState) (ws : Workspace) : Prop :=
  ∀ start ∈ ws.starts, start ∈ st₀.ws.starts ∨ ∃ visit, Revisits st₀ visit ∧ visit.start = start

theorem Accounts.left {r : Routine} {template : Template} {after : Workspace}
    (h : Accounts st₀ st.ws) (steps : Steps st₀ st)
    (found : st.ws.routines.get? callee = some r) (isTemplate : r.template = some template)
    (free : st.ws.routines.get? (nextPath callee template) = none)
    (left : (Task.routine (nextPath callee template) none).Left
      ({}, prepared callee r template arguments st.ws) after) (same : ws'.starts = after.starts) :
    Accounts st₀ ws' := by
  obtain ⟨-, more, starts, reached⟩ := left
  intro start mem
  rw [same, starts] at mem
  rcases List.mem_append.1 mem with old | new
  · exact h start old
  · obtain ⟨visit, reaches, same⟩ := reached start new
    exact .inr ⟨visit, ⟨steps, found, isTemplate, free, reaches⟩, same⟩

theorem Steps.accounts (steps : Steps st₀ st) : Accounts st₀ st.ws := by
  induction steps with
  | refl => exact fun _ => .inl
  | tail steps step ih =>
    cases step with
    | take | store => exact ih
    | move move =>
      cases move with
      | make found isTemplate free compiled =>
        exact ih.left steps found isTemplate free compiled.left rfl
      | keep =>
        rw [LinkState.ws_keeping]
        exact ih

/-- A variant that cannot be made. -/
theorem Accounts.of_fails (steps : Steps st₀ st) (tidy : st.Tidy)
    (failed : Fails (makeVariant callee arguments) st.ws halt ws') : Accounts st₀ ws' := by
  cases unmade_of_fails failed with
  | unknown | early | taken => exact steps.accounts
  | inside found isTemplate free inside =>
    have left := ((breaking_compile _ {} inside).ends
      ⟨prepared_stands tidy.housed found free, False.elim, False.elim⟩ Task.fits_nesting).2
    exact steps.accounts.left steps found isTemplate free left rfl

theorem Accounts.of_resolve (steps : Steps st₀ st) (tidy : st.Tidy)
    (failed : Fails (resolve limit depth line) st halt st') : Accounts st₀ st'.ws := by
  induction limit generalizing depth line st with
  | zero =>
    obtain ⟨-, rfl⟩ := fails_throw.1 failed
    exact steps.accounts
  | succ _ ih =>
    cases trouble_of_fails failed with
    | unbound | deep => exact steps.accounts
    | variant _ _ _ _ unmade => exact .of_fails steps tidy unmade
    | unknown _ _ called => exact Steps.accounts (steps.trans (Moves.of_callee called).steps)
    | inside _ _ called _ _ inside =>
      have moves := Moves.of_callee called
      exact ih (steps.trans moves.steps) (tidy.moves moves) inside

theorem Accounts.of_resolveAll (steps : Steps st₀ st) (tidy : st.Tidy)
    (failed : Fails (resolveAll limit lines) st halt st') : Accounts st₀ st'.ws := by
  induction lines generalizing st with
  | nil => exact absurd failed fails_pure
  | cons _ _ ih =>
    simp only [resolveAll, fails_bind, fails_pure, and_false, exists_false,
      or_false] at failed
    rcases failed with first | ⟨_, _, given, later⟩
    · exact .of_resolve steps tidy first
    · have moves := Moves.of_resolve given
      exact ih (steps.trans moves.steps) (tidy.moves moves) later

/-- However linking ends, it accounts for the lines that it has started. -/
theorem Accounts.of_run {result : EStateM.Result Halt LinkState Unit} (steps : Steps st₀ st)
    (tidy : st.Tidy) (ends : run limit st = result) :
    ∀ st', (result = .ok () st' ∨ ∃ halt, result = .error halt st') → Accounts st₀ st'.ws := by
  induction limit generalizing st with
  | zero =>
    rintro st' (rfl | ⟨halt, rfl⟩)
    · cases ends
    · obtain ⟨-, rfl⟩ := fails_throw.1 (ends : Fails (throw .exhausted) st halt st')
      exact steps.accounts
  | succ limit ih =>
    have round {path : Path} {queue : List Path} {mid : LinkState} (waiting : st.queue = path :: queue)
        (given : Gives (routine limit path) (st.taking path queue) () mid) :
        Steps st₀ mid ∧ mid.Tidy := by
      have taken := steps.tail (.take waiting)
      obtain ⟨_, _, _, -, resolved, -, rfl⟩ := gives_routine.1 given
      exact ⟨(taken.trans (Moves.of_resolveAll resolved).steps).tail (.store ..),
        (tidy_of_routine (tidy.take waiting).2 given).1⟩
    rintro st' (rfl | ⟨halt, rfl⟩)
    · rcases (gives_run tidy).1 ends with ⟨-, rfl⟩ | ⟨_, _, _, waiting, given, later⟩
      · exact steps.accounts
      · exact ih (round waiting given).1 (round waiting given).2 later _ (.inl rfl)
    · obtain ⟨path, queue, waiting, stuck | ⟨_, given, later⟩⟩ := fails_run tidy ends
      · have taken := (tidy.take waiting).2
        obtain ⟨_, found⟩ := taken.known (.inl (.head _))
        obtain ⟨_, inside, -⟩ := fails_routine taken found stuck
        exact .of_resolveAll (steps.tail (.take waiting)) taken inside
      · exact ih (round waiting given).1 (round waiting given).2 later _ (.inr ⟨_, rfl⟩)

end Linking

namespace Workspace

variable {settings : Settings} {read : Workspace} {visit : Visit}

/-- A build comes to a line: when the root is compiled, or later, for a variant. -/
inductive Comes (settings : Settings) (read : Workspace) (visit : Visit) : Prop
  | compiling (reaches : Reaches (.routine settings.rootPath none) ({}, read.withRoot) visit)
  | linking {compiled : Workspace} (compiles : read.compile = (.ok (), compiled))
      (inside : Revisits compiled.linkState visit)

theorem Unbuilt.comes (h : Unbuilt settings read) (comes : Comes settings read visit) :
    (visit.ws.lines = read.lines ∧ visit.ws.settings = settings) ∧ ∃ home line following,
      Situated home visit.routine visit.index (line :: following) visit.ws ∧
        line.depth = visit.routine.depth := by
  cases comes with
  | compiling reaches =>
    obtain ⟨develops, situated⟩ := reaches.situated h.sits
    exact ⟨⟨develops.lines, develops.settings.trans h.settings⟩, situated⟩
  | linking compiles inside =>
    obtain ⟨visits, ran⟩ := h.ran compiles
    obtain ⟨develops, housed⟩ := ran.housed h.housed_withRoot (by rintro _ ⟨⟩)
    obtain ⟨⟨lines, same⟩, situated⟩ := inside.situated (.linkState housed)
    exact ⟨⟨lines.trans develops.lines, same.trans (develops.settings.trans h.settings)⟩, situated⟩

/-- Linking starts no lines after its last round. -/
theorem exists_run_of_link (limit : Nat) (ws : Workspace) :
    ∃ st, (run limit ws.linkState = .ok () st ∨ ∃ halt, run limit ws.linkState = .error halt st) ∧
      (ws.link limit).2.starts = st.ws.starts := by
  unfold link
  cases run limit ws.linkState with
  | error halt st => exact ⟨st, .inr ⟨halt, rfl⟩, rfl⟩
  | ok u st =>
    refine ⟨st, .inl rfl, ?_⟩
    dsimp only
    split
    · exact starts_prune_unshield
    · next added => exact (addPrelude_frame added).2.2.trans starts_prune_unshield

end Workspace

namespace Pack

/-- A header that can be registered is read as a definition of the registered name, whatever else
is defined. So at every line with a definition that a build comes to, the block of the line has
registered this very definition, and the line looks its name up. The name leads to the definition,
unless there is a dot in the name of the root: then it leads nowhere. All lines in the journal of a
build, also of one that fails, are lines that it comes to. -/
theorem build_finds_definitions (settings : Settings) (sources : List (String × String)) :
    (∀ line signature, (splitHead line).1 = "def" → parse line = .ok signature →
      ∀ resolve, classify resolve line = .ok (.define signature.name)) ∧
    ∀ read, addSources { settings } sources = .ok read →
      (∀ visit, Comes settings read visit → ∀ line, read.lines[visit.index]? = some line →
        line.defines → ∃ home signature r, visit.routine.Within home visit.ws ∧
          parse line.text = .ok signature ∧
          visit.ws.routines.get? (home.child signature.name) = some r ∧
          r.origin = Definition.entry home visit.routine.depth visit.index signature ∧
          classify (visit.ws.resolveFunction? visit.routine.path) line.text =
            .ok (.define signature.name) ∧
          visit.ws.resolveFunction? visit.routine.path signature.name =
            if '.' ∈ chars settings.root then none else some (home.child signature.name)) ∧
      (∀ start ∈ read.compile.2.starts, ∃ visit,
        Comes settings read visit ∧ visit.start = start) ∧
      ∀ compiled limit, read.compile = (.ok (), compiled) →
        ∀ start ∈ (compiled.link limit).2.starts, ∃ visit,
          Comes settings read visit ∧ visit.start = start := by
  refine ⟨fun line signature head parsed => classify_of_parse head parsed,
    fun read reads => ?_⟩
  have unbuilt := unbuilt_of_addSources reads
  have compiling : ∀ start ∈ read.compile.2.starts, ∃ visit,
      Comes settings read visit ∧ visit.start = start := by
    obtain ⟨⟨-, more, starts, reached⟩, -⟩ := unbuilt.stops_compile False.elim
    intro start mem
    rw [starts, show read.withRoot.starts = [] from starts_addSources reads] at mem
    obtain ⟨visit, reaches, same⟩ := reached start mem
    exact ⟨visit, .compiling reaches, same⟩
  refine ⟨fun visit comes line here defines => ?_, compiling,
    fun compiled limit compiles start mem => ?_⟩
  · obtain ⟨⟨lines, same⟩, home, line', following, situated, level⟩ := unbuilt.comes comes
    rw [← lines, situated.at_index.1] at here
    cases here
    obtain ⟨signature, r, parsed, found, origin, resolves⟩ := situated.finds level defines
    rw [same] at resolves
    exact ⟨home, signature, r, situated.within, parsed, found, origin,
      classify_of_parse defines parsed _, resolves⟩
  · obtain ⟨st, ends, starts⟩ := exists_run_of_link limit compiled
    rw [starts] at mem
    have tidy := LinkState.Tidy.linkState (housed_of_compile reads compiles)
    rcases Accounts.of_run .refl tidy rfl st ends start mem with old | new
    · rw [show compiled = read.compile.2 by rw [compiles]] at old
      exact compiling start old
    · obtain ⟨visit, inside, same⟩ := new
      exact ⟨visit, .linking compiles inside, same⟩

/-- A definition behind a block that may leave the loop, in a template. -/
def guardedDefinition : String :=
  "def t  s#s :\n    while s:\n        if s:\n            break\n" ++
    "        def  g n#i=3  w#i=-4 :\n            say n\n            say s\n        g\nt hello"

theorem build_finds_definitions_guarded : ∃ read visit home,
    addSources {} [("", guardedDefinition)] = .ok read ∧ Comes {} read visit ∧
      visit.start = (⟨["main", "t", "s0", "w0", "b1"]⟩, 4) ∧ visit.routine.Within home visit.ws ∧
        visit.ws.resolveFunction? visit.routine.path "g" = some (home.child "g") := by
  obtain ⟨read, compiled, reads, compiles, named, defines, started⟩ : ∃ read compiled,
      addSources {} [("", guardedDefinition)] = .ok read ∧ read.compile = (.ok (), compiled) ∧
      ((read.lines[4]?.map fun line => (parse line.text).map Signature.name) =
        some (.ok "g")) ∧ (∀ line ∈ read.lines[4]?, line.defines) ∧
      (⟨["main", "t", "s0", "w0", "b1"]⟩, 4) ∈ (compiled.link 100).2.starts := by decide +kernel
  obtain ⟨-, finds⟩ := build_finds_definitions {} [("", guardedDefinition)]
  obtain ⟨found, -, linking⟩ := finds read reads
  obtain ⟨visit, comes, start⟩ := linking compiled 100 compiles _ started
  obtain ⟨line, here, named⟩ := Option.map_eq_some_iff.1 named
  have index : visit.index = 4 := congrArg Prod.snd start
  obtain ⟨home, signature, r, within, parsed, -, -, -, resolves⟩ :=
    found visit comes line (index ▸ here) (defines line here)
  rw [parsed] at named
  rw [show signature.name = "g" from Except.ok.inj named] at resolves
  exact ⟨read, visit, home, reads, comes, start, within, resolves⟩

/-- Under a root with a dot, no definition is found. -/
theorem build_dotted_root : Pack.build 100 { root := "a.b" } [("", "def f:\n    say 1\n    say 2\nf")] =
    .error (.fault
      { cause := .internal "definition \"f\" was never registered"
        place := some { source := none, line := 1, text := "def f:" } }) := by
  decide +kernel

end Pack

end CommandPack
