import CommandPack.Proofs.Linking.Resolving

/-!
# Linking as rewriting

What linking makes of a line can be said without a state, by the lines that all routines have at the
start: a call is skipped, replaced by what the single line of its callee becomes, or made by name.
A line that this gives is not changed by rewriting it again. A line that can be rewritten at all can
be rewritten in as many rounds as there are routines, and one more.
-/

namespace CommandPack

open CallMark Text

/-! ### Texts without marks -/

/-- Neither a mark nor a placeholder opens in a text. -/
structure Markless (text : String) : Prop where
  unmarked : Unmarked text
  unheld : ¬ chars "!s\x7b" <:+: chars text

instance (text : String) : Decidable (Markless text) :=
  decidable_of_iff (Unmarked text ∧ ¬ chars "!s\x7b" <:+: chars text)
    ⟨fun ⟨unmarked, unheld⟩ => ⟨unmarked, unheld⟩, fun h => ⟨h.unmarked, h.unheld⟩⟩

/-- What may stand in front of a mark, if no placeholder opens there either. -/
structure Markless.Context (text : String) : Prop extends Markless text where
  ends : chars text = [] ∨ (chars text).getLast? = some ' '

instance (text : String) : Decidable (Markless.Context text) :=
  decidable_of_iff
    (Markless text ∧ (chars text = [] ∨ (chars text).getLast? = some ' '))
    ⟨fun ⟨markless, ends⟩ => ⟨markless, ends⟩, fun h => ⟨h.toMarkless, h.ends⟩⟩

/-- A line without marks, or with one at its end. A brace in the name of the target would end the
name too early. -/
inductive CallMark.Written : String → Prop
  | text {line : String} (markless : Markless line) : Written line
  | call {context : String} {mark : CallMark} (isContext : Markless.Context context)
      (target : '\x7d' ∉ chars mark.target.render) : Written (context ++ mark.render)

namespace Markless

variable {text context : String}

theorem steady (h : Markless text) : Steady text := by
  refine ⟨find?_of_unmarked h.unmarked, ?_⟩
  rw [Placeholder.find?, cut?, cutChars_eq_none h.unheld]
  rfl

theorem Context.isContext (h : Context context) : IsContext context :=
  ⟨h.unmarked, h.ends⟩

/-- A text without marks has none behind a context. -/
theorem Context.append (h : Context context) (markless : Markless text) :
    Markless (context ++ text) := by
  refine ⟨h.isContext.unmarked_append markless.unmarked, ?_⟩
  rw [chars_append]
  exact not_infix_behind (by decide) (by decide) h.unheld h.ends markless.unheld

/-- The text of a call has no marks, as far as the names in it have none. -/
theorem callText {pack : String} {path : Path} (name : Markless pack)
    (markless : Markless path.render) : Markless (CommandPack.callText pack path) where
  unmarked := not_infix_callText (by decide) (by decide) (by decide) (by decide)
    name.unmarked markless.unmarked
  unheld := not_infix_callText (by decide) (by decide) (by decide) (by decide)
    name.unheld markless.unheld

/-- The text of a call that is not made. -/
theorem skipped (h : Markless text) : Markless (Linking.skipped text) := by
  have isContext : Context "# skipped empty call: " := by decide
  have same : Linking.skipped text = "# skipped empty call: " ++ text := by
    rw [Linking.skipped, inertText]
    rfl
  rw [same]
  exact isContext.append h

end Markless

/-- A line that linking leaves alone is left alone behind a context. -/
theorem Steady.behind {context line : String} (h : Steady line)
    (isContext : Markless.Context context) : Steady (context ++ line) := by
  obtain ⟨unmarked, unheld⟩ := h
  constructor
  · rw [find?, chars_append,
      cutChars_behind (by decide) isContext.unmarked isContext.ends]
    rw [find?] at unmarked
    cases hcut : cutChars openingChars (chars line) with
    | none => rfl
    | some cut =>
      simp only [hcut, Option.bind_eq_bind, Option.bind_some] at unmarked
      simp only [Option.bind_eq_bind, Option.map_some, Option.bind_some]
      cases hgroups : readGroups (.inside []) cut.2 with
      | none => rfl
      | some =>
        simp only [hgroups, Option.bind_some] at unmarked ⊢
        split at unmarked
        · cases unmarked
        · rfl
  · rw [Placeholder.find?, cut?, chars_append,
      cutChars_behind (by decide) isContext.unheld isContext.ends]
    rw [Placeholder.find?, cut?] at unheld
    cases hcut : cutChars (chars "!s\x7b") (chars line) with
    | none => rfl
    | some => simpa [hcut] using unheld

/-! ### Marks at the end of a line -/

namespace CallMark

/-- A mark whose target has no brace in it is read up to its end, if it is read at all. -/
theorem readGroups_to_end {cs : List Char} (brace : '\x7d' ∉ cs) (arguments : List String)
    (held : List Char) {groups : List (List Char)} {after : List Char} :
    (readGroups (.inside held) (cs ++
        '\x7d' :: chars (concat (arguments.map renderArgument))) = some (groups, after) →
      after = []) ∧
    (readGroups (.escaped held) (cs ++
        '\x7d' :: chars (concat (arguments.map renderArgument))) = some (groups, after) →
      after = []) := by
  induction cs generalizing held with
  | nil =>
    refine ⟨fun given => ?_, fun given => ?_⟩
    · rw [List.nil_append, readGroups, if_neg (by decide), if_pos rfl,
        readGroups_arguments] at given
      cases given
      rfl
    · -- the brace belongs to the target, which goes on to the end of the first argument
      rw [List.nil_append, readGroups] at given
      cases arguments with
      | nil =>
        rw [List.map_nil, concat] at given
        cases given
      | cons =>
        rw [chars_concat_renderArgument, readGroups, if_neg (by decide), if_neg (by decide),
          readGroups_escapeChars, readGroups_arguments] at given
        cases given
        rfl
  | cons c _ ih =>
    rw [List.mem_cons, not_or] at brace
    refine ⟨fun given => ?_, fun given => ?_⟩
    · rw [List.cons_append, readGroups, if_neg (Ne.symm brace.1)] at given
      split_ifs at given
      · exact (ih brace.2 held).2 given
      · exact (ih brace.2 (c :: held)).1 given
    · rw [List.cons_append, readGroups] at given
      exact (ih brace.2 (c :: held)).1 given

end CallMark

/-- The mark of a line is at its end, behind a context. -/
theorem CallMark.Written.of_find? {line : String} {found : Found} (h : Written line)
    (marked : find? line = some found) :
    Markless.Context found.before ∧ found.after = "" := by
  cases h with
  | text markless =>
    rw [markless.steady.unmarked] at marked
    cases marked
  | @call _ mark isContext target =>
    rw [find?, chars_append_render,
      cutChars_unmarked isContext.isContext.1] at marked
    simp only [Option.bind_eq_bind, Option.bind_some] at marked
    cases hgroups : readGroups (.inside []) (chars mark.target.render ++
        '\x7d' :: chars (concat (mark.arguments.map renderArgument))) with
    | none => simp [hgroups] at marked
    | some read =>
      obtain ⟨groups, after⟩ := read
      obtain rfl := (readGroups_to_end target mark.arguments []).1 hgroups
      simp only [hgroups, Option.bind_some] at marked
      split at marked
      · next same =>
        cases same
        cases marked
        rw [ofList_chars]
        exact ⟨isContext, rfl⟩
      · cases marked

/-! ### Rewriting -/

/-- What a line becomes, and the routine that has to be kept for it. -/
structure Rewritten where
  line : String
  kept : Option Path := none
  deriving DecidableEq, Repr

namespace Linking

/-- Rewrites a line by the lines of all routines, in at most as many rounds as given. -/
def rewrite (pack : String) (code : Path → Option (List String)) : Nat → String → Option Rewritten
  | 0, _ => none
  | rounds + 1, line =>
    match find? line with
    | none => if (Placeholder.find? line).isNone then some { line } else none
    | some found =>
      if found.mark.arguments = [] then
        match code found.mark.target with
        | none => none
        | some [] => some { line := skipped (found.calling pack found.mark.target) }
        | some [single] => do
          let inner ← rewrite pack code rounds single
          if isInert inner.line then
            return { inner with line := skipped (found.calling pack found.mark.target) }
          else
            return { inner with line := found.before ++ inner.line ++ found.after }
        | some _ =>
          some { line := found.calling pack found.mark.target, kept := some found.mark.target }
      else
        none

/-- What one round of rewriting does. -/
inductive Round (pack : String) (code : Path → Option (List String)) (n : Nat) (line : String) :
    Rewritten → Prop
  | plain (steady : Steady line) : Round pack code n line { line }
  | empty {found : Found} (marked : find? line = some found)
      (arguments : found.mark.arguments = []) (lines : code found.mark.target = some []) :
      Round pack code n line { line := skipped (found.calling pack found.mark.target) }
  | single {found : Found} {single : String} {inner : Rewritten}
      (marked : find? line = some found) (arguments : found.mark.arguments = [])
      (lines : code found.mark.target = some [single])
      (inside : rewrite pack code n single = some inner) :
      Round pack code n line
        { inner with line := found.inlining pack found.mark.target inner.line }
  | call {found : Found} {lines : List String} (marked : find? line = some found)
      (arguments : found.mark.arguments = []) (lines' : code found.mark.target = some lines)
      (several : 1 < lines.length) :
      Round pack code n line
        { line := found.calling pack found.mark.target, kept := some found.mark.target }

section Rewrite

variable {pack : String} {code : Path → Option (List String)} {n m : Nat} {line : String}
  {out out' : Rewritten}

theorem rewrite_succ : rewrite pack code (n + 1) line = some out ↔
    Round pack code n line out := by
  constructor
  · intro given
    rw [rewrite] at given
    split at given
    · next none =>
      split_ifs at given with unheld
      cases given
      exact .plain ⟨none, Option.isNone_iff_eq_none.1 unheld⟩
    · next found marked =>
      split_ifs at given with arguments
      split at given
      · cases given
      · next lines =>
        cases given
        exact .empty marked arguments lines
      · next single lines =>
        simp only [Option.bind_eq_bind, Option.bind_eq_some_iff] at given
        obtain ⟨inner, inside, given⟩ := given
        rw [← apply_ite pure, ← apply_ite (Rewritten.mk · inner.kept)] at given
        cases given
        exact .single marked arguments lines inside
      · next lines none one some' =>
        cases given
        refine .call marked arguments some' ?_
        match lines, none, one with
        | [], none, _ => exact absurd rfl none
        | [line], _, one => exact absurd rfl (one line)
        | _ :: _ :: _, _, _ => simp
  · intro round
    cases round with
    | plain steady => simp [rewrite, steady.unmarked, steady.unheld]
    | empty marked arguments lines => simp [rewrite, marked, arguments, lines]
    | single marked arguments lines inside =>
      simp only [rewrite, marked, arguments, if_true, lines, inside, Found.inlining]
      split <;> simp [*]
    | @call _ lines marked arguments lines' several =>
      match lines, several with
      | _ :: _ :: _, _ => simp [rewrite, marked, arguments, lines']

/-- More rounds give what fewer rounds have given. -/
theorem rewrite_mono (given : rewrite pack code n line = some out) (le : n ≤ m) :
    rewrite pack code m line = some out := by
  induction n generalizing m line out with
  | zero => cases given
  | succ n ih =>
    obtain ⟨m, rfl⟩ := Nat.exists_eq_succ_of_ne_zero (Nat.ne_zero_of_lt le)
    rw [Nat.succ_eq_add_one, rewrite_succ] at *
    cases given with
    | plain steady => exact .plain steady
    | empty marked arguments lines => exact .empty marked arguments lines
    | single marked arguments lines inside =>
      exact .single marked arguments lines (ih inside (Nat.le_of_succ_le_succ le))
    | call marked arguments lines several => exact .call marked arguments lines several

theorem rewrite_unique (given : rewrite pack code n line = some out)
    (given' : rewrite pack code m line = some out') : out = out' := by
  have most := rewrite_mono given (Nat.le_max_left n m)
  rw [rewrite_mono given' (Nat.le_max_right n m)] at most
  exact (Option.some.inj most).symm

/-- A routine is kept for its lines, of which there are several. -/
theorem several_of_rewrite {target : Path} (given : rewrite pack code n line = some out)
    (kept : out.kept = some target) : ∃ lines, code target = some lines ∧ 1 < lines.length := by
  induction n generalizing line out with
  | zero => cases given
  | succ n ih =>
    cases rewrite_succ.1 given with
    | plain => cases kept
    | empty => cases kept
    | single _ _ _ inside => exact ih inside kept
    | call _ _ lines several => exact Option.some.inj kept ▸ ⟨_, lines, several⟩

/-- A line that needs all its rounds goes through a different routine in each of them but one. -/
theorem exists_chain (short : rewrite pack code n line = none)
    (given : rewrite pack code (n + 1) line = some out) :
    ∃ targets : List Path, targets.Nodup ∧ targets.length = n ∧
      ∀ target ∈ targets, ∃ single, code target = some [single] ∧
        (rewrite pack code n single).isSome = true := by
  induction n generalizing line out with
  | zero => exact ⟨[], .nil, rfl, List.forall_mem_nil _⟩
  | succ n ih =>
    -- a round that goes through no routine needs no further rounds
    have settled {out' : Rewritten} (round : Round pack code n line out') : False := by
      rw [rewrite_succ.2 round] at short
      cases short
    cases rewrite_succ.1 given with
    | plain steady => exact (settled (.plain steady)).elim
    | empty marked arguments lines => exact (settled (.empty marked arguments lines)).elim
    | call marked arguments lines several =>
      exact (settled (.call marked arguments lines several)).elim
    | @single found single _ marked arguments lines inside =>
      cases first : rewrite pack code n single with
      | some =>
        obtain rfl := rewrite_unique first inside
        exact (settled (.single marked arguments lines first)).elim
      | none =>
        obtain ⟨targets, nodup, length, all⟩ := ih first inside
        refine ⟨found.mark.target :: targets, List.nodup_cons.2 ⟨fun again => ?_, nodup⟩,
          congrArg (· + 1) length, List.forall_mem_cons.2 ⟨⟨single, lines, ?_⟩, ?_⟩⟩
        · obtain ⟨single', lines', earlier⟩ := all _ again
          cases lines.symm.trans lines'
          rw [first] at earlier
          cases earlier
        · rw [inside]
          rfl
        · intro target mem
          obtain ⟨single', lines', earlier⟩ := all target mem
          obtain ⟨out', given'⟩ := Option.isSome_iff_exists.1 earlier
          exact ⟨single', lines', by rw [rewrite_mono given' n.le_succ]; rfl⟩

/-- No line needs more rounds than there are routines, and one more. -/
theorem rewrite_bounded {keys : List Path}
    (known : ∀ path lines, code path = some lines → path ∈ keys)
    (given : rewrite pack code n line = some out) :
    rewrite pack code (keys.length + 1) line = some out := by
  induction n generalizing out with
  | zero => cases given
  | succ n ih =>
    cases fewer : rewrite pack code n line with
    | some =>
      obtain rfl := rewrite_unique fewer given
      exact ih fewer
    | none =>
      obtain ⟨targets, nodup, length, all⟩ := exists_chain fewer given
      have within : targets ⊆ keys := fun target mem =>
        have ⟨_, lines, _⟩ := all target mem
        known target _ lines
      have count : targets.length ≤ keys.length := (nodup.subperm within).length_le
      exact rewrite_mono given (Nat.succ_le_succ (length ▸ count))

end Rewrite

end Linking

/-! ### Workspaces -/

/-- The texts of the commands of a routine. -/
def Workspace.linesOf (ws : Workspace) (r : Routine) : List String :=
  r.commands.map (·.render ws.settings.pack)

/-- A workspace of which linking rewrites each line by itself. -/
structure Workspace.Rewritable (ws : Workspace) : Prop where
  pack : Markless ws.settings.pack
  keyed {path : Path} {r : Routine} : ws.routines.get? path = some r → r.path = path
  markless {path : Path} {r : Routine} : ws.routines.get? path = some r → Markless path.render
  untemplated {path : Path} {r : Routine} : ws.routines.get? path = some r → r.template = none
  written {path : Path} {r : Routine} : ws.routines.get? path = some r →
    ∀ line ∈ ws.linesOf r, Written line

namespace Workspace

/-- The lines of all routines. -/
def code (ws : Workspace) (path : Path) : Option (List String) :=
  (ws.routines.get? path).map ws.linesOf

/-- What a line becomes when the workspace is linked. -/
def rewrite (ws : Workspace) (line : String) : Option Rewritten :=
  Linking.rewrite ws.settings.pack ws.code (ws.routines.size + 1) line

variable {ws : Workspace} {line : String} {out : Rewritten} {rounds : Nat}

theorem code_eq_some {path : Path} {lines : List String} (h : ws.code path = some lines) :
    ∃ r, ws.routines.get? path = some r ∧ ws.linesOf r = lines :=
  Option.map_eq_some_iff.1 h

theorem rewrite_eq_some (given : Linking.rewrite ws.settings.pack ws.code rounds line = some out) :
    ws.rewrite line = some out := by
  have known (path : Path) (lines : List String) (h : ws.code path = some lines) :
      path ∈ ws.routines.keys := by
    obtain ⟨r, found, _⟩ := code_eq_some h
    exact List.mem_map.2 ⟨_, (Table.get?_eq_some_iff ..).1 found, rfl⟩
  have bounded := Linking.rewrite_bounded known given
  rwa [Table.length_keys] at bounded

/-- Linking leaves alone what rewriting gives. -/
theorem Rewritable.steady (h : ws.Rewritable) (written : Written line)
    (given : Linking.rewrite ws.settings.pack ws.code rounds line = some out) :
    Steady out.line := by
  induction rounds generalizing line out with
  | zero => cases given
  | succ _ ih =>
    have called {found : Found} {lines : List String}
        (marked : find? line = some found)
        (known : ws.code found.mark.target = some lines) :
        Markless (found.calling ws.settings.pack found.mark.target) := by
      obtain ⟨isContext, none⟩ := written.of_find? marked
      obtain ⟨r, registered, _⟩ := code_eq_some known
      rw [Found.calling, none, String.append_empty]
      exact isContext.append (.callText h.pack (h.markless registered))
    cases Linking.rewrite_succ.1 given with
    | plain steady => exact steady
    | empty marked _ lines => exact (called marked lines).skipped.steady
    | single marked _ lines inside =>
      unfold Found.inlining
      split
      · exact (called marked lines).skipped.steady
      obtain ⟨isContext, none⟩ := written.of_find? marked
      obtain ⟨r, registered, lines'⟩ := code_eq_some lines
      have writtenSingle : Written _ := h.written registered _ (by rw [lines']; exact .head _)
      rw [none, String.append_empty]
      exact (ih writtenSingle inside).behind isContext
    | call marked _ lines => exact (called marked lines).steady

/-- A workspace whose lines have no marks left when they have been rewritten. -/
structure Settles (ws : Workspace) : Prop where
  keyed {path : Path} {r : Routine} : ws.routines.get? path = some r → r.path = path
  untemplated {path : Path} {r : Routine} : ws.routines.get? path = some r → r.template = none
  unmarked {path : Path} {r : Routine} : ws.routines.get? path = some r → ∀ line ∈ ws.linesOf r,
    ∀ out, ws.rewrite line = some out → find? out.line = none

theorem Rewritable.settles (h : ws.Rewritable) : ws.Settles :=
  ⟨h.keyed, h.untemplated,
    fun found line mem _ given => (h.steady (h.written found line mem) given).unmarked⟩

/-- The routines that are used, or kept for a line of another one that is. -/
inductive Reached (ws : Workspace) : Path → Prop
  | used {path : Path} {r : Routine} (found : ws.routines.get? path = some r)
      (used : r.used = true) : Reached ws path
  | kept {path target : Path} {lines : List String} {line : String} {out : Rewritten}
      (reached : Reached ws path) (code : ws.code path = some lines) (mem : line ∈ lines)
      (rewritten : ws.rewrite line = some out) (kept : out.kept = some target) : Reached ws target

/-- What is reached is registered. -/
theorem Reached.known {path : Path} (h : ws.Reached path) : ∃ lines, ws.code path = some lines := by
  cases h with
  | used found => exact ⟨_, by rw [code, found]; rfl⟩
  | kept _ _ _ rewritten isKept =>
    obtain ⟨lines, known, -⟩ := Linking.several_of_rewrite rewritten isKept
    exact ⟨lines, known⟩

end Workspace

end CommandPack
