import CommandPack.Proofs.Linking.Builds
import CommandPack.Proofs.Linking.Hitches
import CommandPack.Proofs.Linking.Rewriting
import CommandPack.Proofs.Lowering.Hygiene

/-!
# Hygiene of linking

If the source lines are sealed, then the marks in the commands of a workspace are those that its
calls were written with, before linking and while variants are compiled. So linking puts calls
nowhere but in the place of these marks, and it never looks for a routine or a string that a source
line seems to name.
-/

namespace CommandPack

open Text Workspace Linking CallMark

variable {last : Char} {before text : String} {halt : Halt}

/-! ### Marks at the end of a line -/

namespace Text

/-- Behind a text that has a pattern nowhere and ends in a blank, the pattern occurs where it was
written, unless it occurs in the rest. -/
theorem eq_of_occurrence {pattern as bs front after : List Char} (some' : pattern ≠ [])
    (blank : ' ' ∉ pattern) (free : ¬ pattern <:+: as) (ends : as = [] ∨ as.getLast? = some ' ')
    (rest : ¬ pattern <:+: pattern.tail ++ bs)
    (same : as ++ (pattern ++ bs) = front ++ (pattern ++ after)) : front = as ∧ after = bs := by
  have first : front = as := by
    rcases List.append_eq_append_iff.1 same with ⟨more, rfl, later⟩ | ⟨more, rfl, later⟩
    · cases more with
      | nil => exact List.append_nil _
      | cons c more =>
        obtain ⟨d, pattern, rfl⟩ := List.exists_cons_of_ne_nil some'
        obtain ⟨-, later⟩ := List.cons.inj later
        refine absurd ⟨more, after, ?_⟩ rest
        rw [List.append_assoc]
        exact later.symm
    · cases more with
      | nil => exact (List.append_nil _).symm
      | cons c more =>
        have last : (c :: more).getLast? = some ' ' := by
          rcases ends with none | ends
          · simp at none
          · rwa [List.getLast?_append_of_ne_nil _ (List.cons_ne_nil c more)] at ends
        have here : pattern <+: c :: more ++ (pattern ++ bs) := ⟨after, later⟩
        have inside := (prefix_of_prefix_append blank last here).isInfix
        exact absurd (inside.trans (List.suffix_append _ _).isInfix) free
  subst first
  exact ⟨rfl, List.append_cancel_left (List.append_cancel_left same).symm⟩

/-- Every opening brace stands behind a backslash or a closing brace, given what stands in front. -/
def Braced : Char → List Char → Prop
  | _, [] => True
  | last, c :: cs => (c = '\x7b' → last = '\\' ∨ last = '\x7d') ∧ Braced c cs

theorem Braced.no_opening {c : Char} {cs : List Char} (h : Braced last cs)
    (letter : isOpener c = true) : ¬ ['!', c, '\x7b'] <:+: cs := by
  induction cs generalizing last with
  | nil => simp
  | cons _ _ ih =>
    intro inside
    rcases List.infix_cons_iff.1 inside with here | later
    · obtain ⟨rest, same⟩ := here
      cases same
      obtain ⟨-, -, behind, -⟩ := h
      rcases behind rfl with rfl | rfl <;> exact absurd letter (by decide)
    · exact ih h.2 later

end Text

namespace CallMark

theorem braced_escapeChars (cs : List Char) {rest : List Char} (h : Braced '\x7d' rest) :
    Braced last (escapeChars cs ++ '\x7d' :: rest) := by
  induction cs generalizing last with
  | nil => exact ⟨fun brace => absurd brace (by decide), h⟩
  | cons _ _ ih =>
    rw [escapeChars]
    split
    · exact ⟨fun brace => absurd brace (by decide), fun _ => .inl rfl, ih⟩
    · next plain =>
      refine ⟨fun brace => absurd ?_ plain, ih⟩
      simp [brace]

theorem braced_arguments (arguments : List String) :
    Braced '\x7d' (chars (concat (arguments.map renderArgument))) := by
  induction arguments with
  | nil => exact trivial
  | cons _ _ ih =>
    rw [chars_concat_renderArgument]
    exact ⟨fun _ => .inr rfl, braced_escapeChars _ ih⟩

/-- Nothing opens in a mark behind its own opening. -/
theorem not_infix_tail {mark : CallMark} {c : Char} (calm : Calm mark.target.render)
    (letter : isOpener c = true) : ¬ ['!', c, '\x7b'] <:+: chars mark.target.render ++
      '\x7d' :: chars (concat (mark.arguments.map renderArgument)) := by
  intro inside
  have other : '\x7d' ∉ ['!', c, '\x7b'] := by
    intro mem
    simp only [List.mem_cons, Char.reduceEq, List.not_mem_nil, or_false, false_or] at mem
    subst mem
    exact absurd letter (by decide)
  rcases infix_append_cons (List.cons_ne_nil _ _) other inside with left | right
  · exact calm (left.subset (.head _))
  · exact (braced_arguments _).no_opening letter right

/-- In a line that ends in a mark, a mark opens where it was written and nowhere else, and no
placeholder opens. -/
theorem opens_once {mark : CallMark} (isContext : Markless.Context before)
    (calm : Calm mark.target.render) :
    (∀ front after, chars (before ++ mark.render) = front ++ (openingChars ++ after) →
      front = chars before ∧ chars mark.render = openingChars ++ after) ∧
      ¬ chars "!s\x7b" <:+: chars (before ++ mark.render) := by
  have written := chars_append_render before mark
  have tail {c : Char} (letter : isOpener c = true) := @not_infix_tail mark c calm letter
  -- neither letter nor brace of the opening starts another one
  have behind {c : Char} (letter : isOpener c = true) : ¬ ['!', c, '\x7b'] <:+:
      openingChars.tail ++ (chars mark.target.render ++
        '\x7d' :: chars (concat (mark.arguments.map renderArgument))) := by
    intro inside
    rcases List.infix_cons_iff.1 inside with here | inside
    · exact absurd (List.cons_prefix_cons.1 here).1 (by decide)
    · rcases List.infix_cons_iff.1 inside with here | inside
      · exact absurd (List.cons_prefix_cons.1 here).1 (by decide)
      · exact tail letter inside
  have letters : isOpener 'f' = true ∧ isOpener 's' = true := by decide
  refine ⟨fun front after same => ?_, ?_⟩
  · rw [written] at same
    obtain ⟨rfl, rfl⟩ := eq_of_occurrence (by decide) (by decide) isContext.unmarked isContext.ends
      (behind letters.1) same
    refine ⟨rfl, ?_⟩
    have alone := chars_append_render "" mark
    rwa [String.empty_append] at alone
  · rw [written]
    refine not_infix_behind (by decide) (by decide) isContext.unheld isContext.ends ?_
    intro inside
    rcases List.infix_cons_iff.1 inside with here | inside
    · exact absurd (List.cons_prefix_cons.1 (List.cons_prefix_cons.1 here).2).1 (by decide)
    · exact behind letters.2 inside

end CallMark

/-! ### The marks of commands -/

namespace Command

/-- What stands in front of the mark of a call. -/
def front (pack : String) (clauses : List Clause) : String :=
  if clauses = [] then "" else "execute " ++ Clause.renderAll pack clauses ++ " run "

variable {pack : String} {clauses : List Clause} {mark : CallMark} {command : Command}

theorem render_invoke : (invoke clauses mark).render pack = front pack clauses ++ mark.render := by
  cases clauses with
  | nil => exact (String.empty_append).symm
  | cons => rfl

theorem ends_front : chars (front pack clauses) = [] ∨
    (chars (front pack clauses)).getLast? = some ' ' := by
  unfold front
  split
  · exact .inl rfl
  · refine .inr ?_
    rw [chars_append, List.getLast?_append_of_ne_nil _ (by decide)]
    decide

theorem sealed_front (h : ∀ clause ∈ clauses, Sealed (chars (clause.render pack))) :
    Sealed (chars (front pack clauses)) := by
  unfold front
  split
  · exact sealed_of_not_mem (by decide)
  · refine Sealed.between
      (Sealed.join ⟨by decide, by decide, each_of_all (by decide)⟩ fun text mem => ?_)
      (by decide) (by decide) (each_of_all (by decide))
    obtain ⟨clause, own, rfl⟩ := List.mem_map.1 mem
    exact h clause own

theorem markless_of_sealed (h : Sealed (chars text)) : Markless text :=
  ⟨h.no_opening (by decide), h.no_opening (by decide)⟩

theorem Hygienic.context (h : (invoke clauses mark).Hygienic pack) :
    Markless.Context (front pack clauses) :=
  ⟨markless_of_sealed (sealed_front h.1), ends_front⟩

end Command

namespace Workspace

variable {ws : Workspace} {command : Command} {path : Path} {r : Routine}

/-- The paths of routines are read back from marks. -/
theorem Clean.plain_path (h : ws.Clean) (housed : ws.Housed)
    (found : ws.routines.get? path = some r) : path.Plain := by
  obtain ⟨segments, same, dotless⟩ := housed.orderly.below found
  have spelled := housed.spelled found
  have calm := h.calm_path housed found
  rw [Path.Spelled, same, List.tail_cons] at spelled
  refine ⟨by rw [same]; exact List.cons_ne_nil _ _, fun segment mem c special => ?_, fun opens =>
    calm (opens.subset (.head _))⟩
  rw [same] at mem
  rcases List.mem_cons.1 mem with rfl | mem
  · exact h.plain.free _ (.head _) c special
  · intro inside
    have part := spelled segment mem c inside
    have none : ['.', '\x7d', '\\', '\x01'].all (!Name.isPart ·) = true := by decide
    have other := List.all_eq_true.1 none c special
    simp [part] at other

/-- A command of a clean workspace has no marks, or it is a call with its mark at the end. -/
theorem Clean.marks (sound : Discipline.hygiene.Sound ws)
    (writes : Discipline.hygiene.Writes ws command) :
    (Sealed (chars (command.render ws.settings.pack)) ∧
        ∀ clauses mark, command ≠ .invoke clauses mark) ∨
      ∃ clauses mark, command = .invoke clauses mark ∧ ws.Answers mark ∧
        Markless.Context (Command.front ws.settings.pack clauses) ∧ mark.target.Plain ∧
        Calm mark.target.render ∧ (∀ argument ∈ mark.arguments, Sealed (chars argument)) := by
  obtain ⟨hygienic, answers⟩ := writes
  cases command with
  | invoke clauses mark =>
    obtain ⟨r, found, full⟩ := answers clauses mark rfl
    have clean : ws.Clean := sound.holds
    exact .inr ⟨clauses, mark, rfl, ⟨r, found, full⟩, hygienic.context,
      clean.plain_path sound.housed found, clean.calm_path sound.housed found, hygienic.2⟩
  | _ => exact .inl ⟨hygienic, by rintro _ _ ⟨⟩⟩

/-- The mark that linking finds in a command is the one that the command was written with. -/
theorem Clean.found (sound : Discipline.hygiene.Sound ws)
    (writes : Discipline.hygiene.Writes ws command) {found : Found}
    (marked : find? (command.render ws.settings.pack) = some found) :
    ∃ clauses, command = .invoke clauses found.mark ∧ ws.Answers found.mark ∧
      found.before = Command.front ws.settings.pack clauses ∧ found.after = "" ∧
      Markless.Context found.before ∧ Sealed (chars found.before) ∧
      ∀ argument ∈ found.mark.arguments, Sealed (chars argument) := by
  rcases Clean.marks sound writes with ⟨unmarked, -⟩ |
    ⟨clauses, mark, rfl, answers, context, plain, -, arguments⟩
  · rw [(Command.markless_of_sealed unmarked).steady.unmarked] at marked
    cases marked
  · rw [Command.render_invoke, find?_render context.isContext plain] at marked
    cases marked
    exact ⟨clauses, rfl, answers, rfl, rfl, context, Command.sealed_front writes.1.1, arguments⟩

end Workspace

/-! ### Linking -/

/-- A sealed text behind what may stand in front of a mark. -/
theorem Markless.Context.sealed_append (h : Markless.Context before) (front : Sealed (chars before))
    (own : Sealed (chars text)) : Sealed (chars (before ++ text)) := by
  rw [chars_append]
  refine front.append own (.inl ?_)
  rcases h.ends with none | ends
  · rw [none]
    decide
  · rw [ends]
    decide

theorem calm_callText {pack : String} {path : Path} (named : Calm pack) (own : Calm path.render) :
    Calm (callText pack path) := by
  have function : Calm "function " := by decide
  have colon : Calm ":" := by decide
  have artifact : Calm path.artifact := fun mem => own ((Path.Plain.artifact_suffix path).subset mem)
  exact function.append named |>.append colon |>.append artifact

/-- Linking keeps the commands of a workspace hygienic. -/
theorem Discipline.links_hygiene : Discipline.hygiene.Links where
  swap clean symbols := ⟨clean.of_change rfl rfl rfl (fun _ _ => clean.slots) symbols, trivial⟩
  variant {ws command found r template n} sound writes marked known isTemplate free := by
    have clean : ws.Clean := sound.holds
    obtain ⟨clauses, -, ⟨callee, known', full⟩, -, -, -, -, arguments⟩ :=
      Clean.found sound writes marked
    cases known.symm.trans known'
    have own : r.path = found.mark.target := sound.housed.orderly.keyed known
    have names : ∀ param ∈ r.params, Calm (r.path.qualify param.name) := by
      intro param mem
      rw [own]
      exact Path.calm_qualify (clean.calm_path sound.housed known)
        ((clean.params known).2.2 param mem).1
    refine ⟨fun param declared string => ?_, clean.root, clean.plain, clean.pack, clean.lines,
      clean.slots, clean.symbols, fun {q r'} got => ?_⟩
    · -- the call has a value for every string parameter
      obtain ⟨own, isParam, rfl⟩ := List.mem_map.1 declared
      rw [variant, List.map_fst_zip]
      · refine List.mem_map.2 ⟨own, List.mem_filter.2 ⟨isParam, ?_⟩, rfl⟩
        rw [show own.kind = .string from string]
        rfl
      · rw [List.length_map, ← List.countP_eq_length_filter, full]
    · rw [Table.get?_insert] at got
      split at got
      · cases got
        refine ⟨fun name mem => ?_, fun binding mem => ?_, (clean.params known).2.2⟩
        · rcases List.mem_append.1 mem with declared | bound
          · obtain ⟨own, inside, rfl⟩ := List.mem_map.1 declared
            obtain ⟨param, isParam, rfl⟩ := List.mem_map.1 inside
            exact names param isParam
          · obtain ⟨binding, inside, rfl⟩ := List.mem_map.1 bound
            obtain ⟨listed, -⟩ := List.of_mem_zip (a := binding.1) (b := binding.2) inside
            obtain ⟨param, isParam, same⟩ := List.mem_map.1 listed
            rw [← same]
            exact names param (List.mem_filter.1 isParam).1
        · obtain ⟨-, valued⟩ := List.of_mem_zip (a := binding.1) (b := binding.2) mem
          exact arguments binding.2 valued
      · exact clean.params got
  steady {ws command} sound writes steady := by
    rcases Clean.marks sound writes with ⟨whole, -⟩ | ⟨clauses, mark, rfl, -, context, plain, -⟩
    · exact ⟨whole, by rintro _ _ ⟨⟩⟩
    · have marked := find?_render context.isContext plain
      rw [← Command.render_invoke, steady.unmarked] at marked
      cases marked
  call {ws command found target r} sound writes marked known := by
    have clean : ws.Clean := sound.holds
    obtain ⟨-, -, -, -, after, context, front, -⟩ := Clean.found sound writes marked
    have called : Sealed (chars (found.calling ws.settings.pack target)) := by
      rw [Found.calling, after, String.append_empty]
      exact context.sealed_append front
        (calm_callText clean.pack (clean.calm_path sound.housed known)).sealed
    have skips : Sealed (chars (skipped (found.calling ws.settings.pack target))) := by
      have start : Calm ("# " ++ "skipped empty call" ++ ": ") := by decide
      rw [skipped, inertText, chars_append]
      exact start.sealed.append called (.inl (by decide))
    exact ⟨⟨called, by rintro _ _ ⟨⟩⟩, skips, by rintro _ _ ⟨⟩⟩
  inline {ws command found replaced} sound writes marked single := by
    obtain ⟨-, -, -, -, after, context, front, -⟩ := Clean.found sound writes marked
    refine ⟨?_, by rintro _ _ ⟨⟩⟩
    rw [after, String.append_empty]
    exact context.sealed_append front single.1

/-! ### Faults -/

/-- A fault for want of a routine or of the value of a string. -/
def Halt.Misled : Halt → Prop
  | .fault f => (∃ name, f.cause = .unknownFunction name) ∨ ∃ name, f.cause = .unboundString name
  | .exhausted => False

theorem Halt.misled_locate {place : Place} : (halt.locate place).Misled ↔ halt.Misled := by
  cases halt with
  | fault f =>
    change Halt.Misled (.fault (f.locate place)) ↔ _
    unfold Fault.locate
    split <;> rfl
  | exhausted => rfl

theorem Halt.Usual.not_misled {strict : Prop} (h : halt.Usual strict) : ¬ halt.Misled := by
  cases halt with
  | fault f =>
    change f.cause.Usual strict at h
    rintro (⟨name, same⟩ | ⟨name, same⟩) <;> exact (same ▸ h : Cause.Usual strict _)
  | exhausted => exact id

namespace Linking

variable {ws : Workspace} {callee : Path} {arguments : List String} {halt : Halt}

/-- Making a variant of a routine that is there does not look for others. -/
theorem Unmade.not_misled {ws' : Workspace} (unmade : Unmade ws callee arguments halt ws')
    (housed : ws.Housed) (known : ws.Knows callee) : ¬ halt.Misled := by
  cases unmade with
  | unknown unknown =>
    obtain ⟨r, found⟩ := known
    rw [unknown] at found
    cases found
  | early => exact fun misled => by rcases misled with ⟨_, same⟩ | ⟨_, same⟩ <;> cases same
  | taken => exact fun misled => by rcases misled with ⟨_, same⟩ | ⟨_, same⟩ <;> cases same
  | @inside r template _ _ found _ free failed =>
    have stands := @prepared_stands ws callee arguments r template {} housed found free
    have ends := (breaking_compile _ {} failed).ends ⟨stands, False.elim, False.elim⟩
      Task.fits_nesting
    exact ends.1.not_misled

/-- Linking a clean workspace does not look for what is not there. -/
theorem Hitch.not_misled (hitch : Hitch Discipline.hygiene halt) : ¬ halt.Misled := by
  induction hitch with
  | unbound fit writes unmarked held =>
    rcases Clean.marks fit.sound writes with ⟨whole, -⟩ | ⟨clauses, mark, rfl, -, context, plain, -⟩
    · rw [(Command.markless_of_sealed whole).steady.unheld] at held
      cases held
    · rw [Command.render_invoke, find?_render context.isContext plain] at unmarked
      cases unmarked
  | unknown fit writes marked unknown =>
    obtain ⟨-, -, ⟨r, known, -⟩, -⟩ := Clean.found fit.sound writes marked
    rw [unknown] at known
    cases known
  | deep => exact fun misled => by rcases misled with ⟨_, same⟩ | ⟨_, same⟩ <;> cases same
  | variant fit writes marked unmade =>
    obtain ⟨-, -, ⟨r, known, -⟩, -⟩ := Clean.found fit.sound writes marked
    exact unmade.not_misled fit.sound.housed ⟨r, known⟩
  | exhausted => exact id
  | located => rwa [Halt.misled_locate]

/-! ### What becomes of commands -/

/-- What linking makes of a command. Where a call was marked, something else may come to stand, or
the whole call is skipped; every other text stays as it is. -/
inductive Rewritten (pack : String) : Command → String → Prop
  | steady {command : Command} (steady : ∀ clauses mark, command ≠ .invoke clauses mark) :
      Rewritten pack command (command.render pack)
  | replaced {clauses : List Clause} {mark : CallMark} (text : String) :
      Rewritten pack (.invoke clauses mark) (Command.front pack clauses ++ text)
  | skipped {clauses : List Clause} {mark : CallMark} (target : Path) :
      Rewritten pack (.invoke clauses mark)
        (skipped (Command.front pack clauses ++ callText pack target))

variable {st st' : LinkState} {command : Command} {visits : List Visit} {lines : List String}
  {out : LinkedLine} {outs : List LinkedLine}

theorem Resolves.rewritten
    (resolves : Resolves (command.render st.ws.settings.pack) st visits out st')
    (sound : Discipline.hygiene.Sound st.ws) (writes : Discipline.hygiene.Writes st.ws command) :
    Rewritten st.ws.settings.pack command out.text := by
  cases resolves with
  | steady steady =>
    rcases Clean.marks sound writes with ⟨-, other⟩ |
      ⟨clauses, mark, rfl, -, context, plain, -⟩
    · exact .steady other
    · have marked := find?_render context.isContext plain
      rw [← Command.render_invoke, steady.unmarked] at marked
      cases marked
  | empty marked finds | inert marked finds =>
    have pack := (Discipline.Linked.finds sound Discipline.links_hygiene writes marked finds).pack
    obtain ⟨clauses, rfl, -, before, after, -⟩ := Clean.found sound writes marked
    rw [Found.calling, before, after, String.append_empty, pack]
    exact .skipped _
  | single marked =>
    obtain ⟨clauses, rfl, -, before, after, -⟩ := Clean.found sound writes marked
    rw [before, after, String.append_empty]
    exact .replaced _
  | call marked =>
    obtain ⟨clauses, rfl, -, before, after, -⟩ := Clean.found sound writes marked
    rw [Found.calling, before, after, String.append_empty]
    exact .replaced _

theorem ResolvesAll.rewritten (resolves : ResolvesAll lines st visits outs st') :
    ∀ commands : List Command, lines = commands.map (·.render st.ws.settings.pack) →
      Discipline.hygiene.Sound st.ws →
      (∀ command ∈ commands, Discipline.hygiene.Writes st.ws command) →
        List.Forall₂ (Rewritten st.ws.settings.pack) commands (outs.map LinkedLine.text) := by
  induction resolves with
  | nil =>
    intro commands same _ _
    rw [List.map_eq_nil_iff.1 same.symm]
    exact .nil
  | cons first _ ih =>
    intro commands same sound writes
    obtain ⟨command, commands, rfl, rfl, rfl⟩ := List.map_eq_cons_iff.1 same.symm
    obtain ⟨linked, -⟩ := Discipline.Linked.resolves Discipline.links_hygiene first command rfl
      sound (writes _ (.head _))
    have later := ih commands (by rw [linked.pack]) linked.sound
      fun command mem => linked.writes (writes command (.tail _ mem))
    rw [linked.pack] at later
    exact .cons (first.rewritten sound (writes _ (.head _))) later

/-- What linking makes of the commands of a routine. One that has been linked stays as it is. -/
theorem Rounds.rewritten {rounds : List (Path × List LinkedLine)}
    (ran : Rounds st visits rounds st') : st.Tidy → Discipline.hygiene.Sound st.ws →
      ∀ {q : Path} {r' : Routine}, st'.ws.routines.get? q = some r' →
        (q ∈ st.visited → ∃ r, st.ws.routines.get? q = some r ∧ r'.commands = r.commands) ∧
        (q ∉ st.visited → ∃ commands,
          (∀ r, st.ws.routines.get? q = some r → commands = r.commands) ∧
          (∀ command ∈ commands, Discipline.hygiene.Writes st'.ws command) ∧
          (r'.commands = commands ∨
            List.Forall₂ (Rewritten st.ws.settings.pack) commands (st'.ws.linesOf r'))) := by
  have links := Discipline.links_hygiene
  induction ran with
  | done =>
    intro _ sound q r' found
    refine ⟨fun _ => ⟨r', found, rfl⟩, fun _ => ⟨r'.commands, fun r found' => ?_,
      sound.stored found, .inl rfl⟩⟩
    cases found.symm.trans found'
    rfl
  | @next st mid _ path _ r _ _ outs _ waiting found resolved later ih =>
    intro tidy sound q r' found'
    obtain ⟨new, taken⟩ := tidy.take waiting
    have moves := resolved.moves
    obtain ⟨linked, written⟩ := Discipline.Linked.resolvesAll links resolved r.commands rfl sound
      (sound.stored found)
    have stored := Discipline.Linked.store linked.sound path written
    have behind := Discipline.Linked.rounds links later stored.sound
    obtain ⟨before, after⟩ := ih ((taken.moves moves).store _) stored.sound found'
    have visited : (mid.storing path (outs.map LinkedLine.text)).visited = path :: st.visited :=
      moves.visited_eq
    rw [visited] at before after
    -- all other routines have the commands that they had
    have carried {r₀ : Routine} (other : q ≠ path) (known : st.ws.routines.get? q = some r₀) :
        ∃ r₁, (mid.storing path (outs.map LinkedLine.text)).ws.routines.get? q = some r₁ ∧
          r₁.commands = r₀.commands := by
      obtain ⟨r₁, known₁, moved⟩ := moves.moved taken known
      refine ⟨r₁, ?_, by rw [moved.same]⟩
      rw [LinkState.storing, updateRoutine, Table.get?_modify, known₁, Option.map_some,
        if_neg other]
    by_cases here : q = path
    · subst here
      refine ⟨fun old => absurd old new, fun _ => ⟨r.commands, fun r₀ known => ?_,
        fun command mem => behind.writes (stored.writes (linked.writes
          (sound.stored found command mem))), .inr ?_⟩⟩
      · cases found.symm.trans known
        rfl
      · obtain ⟨_, known, same⟩ := before (.head _)
        obtain ⟨_, -, rfl⟩ := found_before known
        rw [if_pos rfl] at same
        rw [linesOf, same, List.map_map]
        exact (List.map_id _).symm ▸ resolved.rewritten r.commands rfl sound (sound.stored found)
    · refine ⟨fun old => ?_, fun fresh => ?_⟩
      · obtain ⟨r₀, known⟩ := tidy.known (.inl old)
        obtain ⟨r₁, known₁, same⟩ := carried here known
        obtain ⟨_, known₂, same₂⟩ := before (.tail _ old)
        cases known₁.symm.trans known₂
        exact ⟨r₀, known, same₂.trans same⟩
      · obtain ⟨commands, start, writes, made⟩ := after (by simp [here, fresh])
        refine ⟨commands, fun r₀ known => ?_, writes, ?_⟩
        · obtain ⟨r₁, known₁, same⟩ := carried here known
          exact (start r₁ known₁).trans same
        · rwa [stored.pack, linked.pack] at made

end Linking

/-! ### Whole programs -/

namespace Workspace

variable {settings : Settings} {sources : List (String × String)} {ws read compiled : Workspace}
  {command : Command}

/-- Wherever a mark opens in a command, it is the mark of a call to a routine and the end of the
command, and no placeholder opens. -/
structure MarksCalls (ws : Workspace) (command : Command) : Prop where
  marks : ∀ before after,
    chars (command.render ws.settings.pack) = before ++ (openingChars ++ after) →
      ∃ clauses mark, command = .invoke clauses mark ∧ ws.Knows mark.target ∧
        chars mark.render = openingChars ++ after
  unheld : ¬ chars "!s\x7b" <:+: chars (command.render ws.settings.pack)

theorem MarksCalls.of_writes (sound : Discipline.hygiene.Sound ws)
    (writes : Discipline.hygiene.Writes ws command) : ws.MarksCalls command := by
  rcases Clean.marks sound writes with ⟨whole, -⟩ |
    ⟨clauses, mark, rfl, ⟨r, known, -⟩, context, -, calm, -⟩
  · have markless := Command.markless_of_sealed whole
    refine ⟨fun before after same => absurd ⟨before, after, ?_⟩ markless.unmarked, markless.unheld⟩
    rw [same, List.append_assoc]
  · obtain ⟨once, unheld⟩ := opens_once context calm
    rw [← Command.render_invoke] at once unheld
    exact ⟨fun before after same => ⟨clauses, mark, rfl, ⟨r, known⟩, (once before after same).2⟩,
      unheld⟩

theorem Unbuilt.clean_withRoot (h : Unbuilt settings ws) (plain : settings.rootPath.Plain)
    (root : Calm settings.root) (pack : Calm settings.pack)
    (sealed : ∀ line ∈ ws.lines, Sealed (chars line.text)) : ws.withRoot.Clean := by
  have settings' : ws.withRoot.settings = settings := h.settings
  have symbols : ws.withRoot.symbols = {} := h.symbols
  have slots : ws.withRoot.slots = {} := h.slots
  refine ⟨settings' ▸ root, settings' ▸ plain, settings' ▸ pack, sealed, fun {path objective} found => ?_, ?_,
    fun {q r} found => ?_⟩
  · rw [slots] at found
    cases found
  · rw [symbols]
    exact ⟨nofun, nofun, nofun⟩
  · obtain ⟨-, rfl⟩ := h.only_root found
    exact ⟨nofun, nofun, nofun⟩

/-- If no word of a source line ends like the opening of a mark or of a placeholder, then marks open
in the commands of a compiled workspace only where calls were written; linking fails neither for want
of a routine nor for want of the value of a string; and it changes nothing in the commands, those of
variants included, but the marks of calls. -/
theorem compile_marks_only_calls (reads : addSources { settings } sources = .ok read)
    (compiles : read.compile = (.ok (), compiled)) (plain : settings.rootPath.Plain)
    (root : Calm settings.root) (pack : Calm settings.pack)
    (sealed : ∀ line ∈ read.lines, Sealed (chars line.text)) :
    (∀ path r, compiled.routines.get? path = some r →
      ∀ command ∈ r.commands, compiled.MarksCalls command) ∧
    (∀ limit halt final, compiled.link limit = (.error halt, final) → ¬ halt.Misled) ∧
    ∀ limit linked, WorkM.Gives (run limit) compiled.linkState () linked →
      ∀ path r, linked.ws.routines.get? path = some r → ∃ commands,
        (∀ r', compiled.routines.get? path = some r' → commands = r'.commands) ∧
        (∀ command ∈ commands, linked.ws.MarksCalls command) ∧
        (r.commands = commands ∨
          List.Forall₂ (Linking.Rewritten settings.pack) commands (linked.ws.linesOf r)) := by
  have unbuilt := unbuilt_of_addSources reads
  obtain ⟨visits, ran⟩ := unbuilt.ran compiles
  have clean := unbuilt.clean_withRoot plain root pack sealed
  obtain ⟨sound, -, -, course⟩ :=
    ran.disciplined Discipline.hygiene (unbuilt.ready _ clean ⟨nofun, nofun, nofun⟩)
  have fit : Fit Discipline.hygiene compiled.linkState := .linkState sound
  have settings' : compiled.settings = settings :=
    course.follows.develops.settings.trans unbuilt.settings
  refine ⟨fun path r found command mem => .of_writes sound (sound.stored found command mem),
    fun limit halt final failed => ?_, fun limit linked given path r found => ?_⟩
  · rcases link_eq_error failed with ⟨st, stuck⟩ | ⟨text, rfl⟩
    · exact (Hitch.of_run Discipline.links_hygiene fit stuck).not_misled
    · exact fun misled => by rcases misled with ⟨_, same⟩ | ⟨_, same⟩ <;> cases same
  · obtain ⟨visits, rounds, ran⟩ := traced_run fit.tidy given
    have linked := Discipline.Linked.rounds Discipline.links_hygiene ran sound
    obtain ⟨commands, start, writes, made⟩ := (ran.rewritten fit.tidy sound found).2 nofun
    refine ⟨commands, start, fun command mem => .of_writes linked.sound (writes command mem), ?_⟩
    rw [← settings']
    exact made

/-- Texts that look like marks and placeholders, a call under a condition, and two calls with a
string. -/
def lookalikes : String :=
  "say !f\x7bmain.x\x7d!s\x7by\x7d\nif a:\n    say 1\n    say 2" ++
    "\ndef g t#s:\n    say t !f\x7bz\x7d\n    say t\ng hi\nif b:\n    g hi"

theorem compile_marks_only_calls_lookalikes :
    ∃ read compiled pack final, addSources {} [("", lookalikes)] = .ok read ∧
      read.compile = (.ok (), compiled) ∧ ({} : Settings).rootPath.Plain ∧
      Calm ({} : Settings).root ∧ Calm ({} : Settings).pack ∧
      (∀ line ∈ read.lines, Sealed (chars line.text)) ∧
      compiled.link 100 = (.ok pack, final) ∧
      pack.function? "main" = some ["say !f\x7bmain.x\x7d!s\x7by\x7d",
        "execute if a run function pack:e0", "function pack:g.s0",
        "execute if b run function pack:g.s0"] ∧
      (∀ path r, compiled.routines.get? path = some r →
        ∀ command ∈ r.commands, compiled.MarksCalls command) ∧
      ∀ limit halt final, compiled.link limit = (.error halt, final) → ¬ halt.Misled := by
  obtain ⟨read, compiled, reads, compiles, sealed, pack, final, linked, function⟩ :
      ∃ read compiled, addSources {} [("", lookalikes)] = .ok read ∧
        read.compile = (.ok (), compiled) ∧ (∀ line ∈ read.lines, Sealed (chars line.text)) ∧
        ∃ pack final, compiled.link 100 = (.ok pack, final) ∧
          pack.function? "main" = some ["say !f\x7bmain.x\x7d!s\x7by\x7d",
            "execute if a run function pack:e0", "function pack:g.s0",
            "execute if b run function pack:g.s0"] := by
    decide +kernel
  have plain : ({} : Settings).rootPath.Plain := by decide
  have root : Calm ({} : Settings).root := by decide
  have named : Calm ({} : Settings).pack := by decide
  obtain ⟨marks, misled, -⟩ := compile_marks_only_calls reads compiles plain root named sealed
  exact ⟨read, compiled, pack, final, reads, compiles, plain, root, named, sealed, linked,
    function, marks, misled⟩

/-- A clarifier that goes away in front of a brace lets source text open a mark or a placeholder:
linking looks for what it names, or puts a call in its place. -/
theorem clarifier_opens_mark :
    (∃ f, Pack.build 100 {} [("", "say !f#v\x7bmain.x\x7d")] = .error (.fault f) ∧
      f.cause = .unknownFunction "main.x") ∧
    (∃ f, Pack.build 100 {} [("", "say !s#v\x7bx\x7d")] = .error (.fault f) ∧
      f.cause = .unboundString "x") ∧
    ∃ pack, Pack.build 100 {} [("", "def g:\n    say 1\n    say 2\nsay !f#v\x7bmain.g\x7d")] =
        .ok pack ∧ pack.function? "main" = some ["say function pack:g"] := by
  exact ⟨by decide +kernel, by decide +kernel, by decide +kernel⟩

end Workspace

end CommandPack
