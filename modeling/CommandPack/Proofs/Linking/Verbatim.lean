import CommandPack.Proofs.Linking.Ending
import CommandPack.Proofs.Lowering.Literal
import CommandPack.Proofs.Text.Shielding

/-!
# Programs of commands

A program of commands that no variable or definition is in is passed on: its pack has the root
routine with the lines of the program, with single spaces between their arguments.
-/

namespace CommandPack

open Text Workspace

/-- A line with single spaces between its arguments. -/
def Argument.spaced (text : String) : String :=
  Text.join " " (Argument.split text)

namespace Shield

open Argument Token

/-! ### Arguments -/

/-- A text, and the same text with the shielding character behind some exclamation marks. -/
inductive Guards : List Char → List Char → Prop
  | nil : Guards [] []
  | keep {cs ds : List Char} (c : Char) (h : Guards cs ds) : Guards (c :: cs) (c :: ds)
  | guard {cs ds : List Char} (h : Guards cs ds) : Guards ('!' :: cs) ('!' :: '\x01' :: ds)

namespace Guards

variable {cs ds : List Char}

theorem append {cs' ds' : List Char} (h : Guards cs ds) (h' : Guards cs' ds') :
    Guards (cs ++ cs') (ds ++ ds') := by
  induction h with
  | nil => exact h'
  | keep c _ ih => exact .keep c ih
  | guard _ ih => exact .guard ih

theorem nil_iff (h : Guards cs ds) : cs = [] ↔ ds = [] := by
  cases h <;> simp

theorem erased (h : Guards cs ds) : ds.filter (· ≠ '\x01') = cs.filter (· ≠ '\x01') := by
  induction h with
  | nil => rfl
  | keep c _ ih => rw [List.filter_cons, List.filter_cons, ih]
  | guard _ ih => simp only [List.filter_cons, ih]; rfl

theorem of_replaced {x : Char} (h : Replaced ['!', x, '\x7b'] ['!', '\x01', x, '\x7b'] cs ds) :
    Guards cs ds := by
  induction h with
  | nil => exact .nil
  | keep _ _ ih => exact .keep _ ih
  | swap _ ih => exact .guard (.keep _ (.keep _ ih))

theorem dropBlanks (h : Guards cs ds) : Guards (Text.dropBlanks cs) (Text.dropBlanks ds) := by
  unfold Text.dropBlanks
  induction h with
  | nil => exact .nil
  | keep c h ih =>
    rw [List.dropWhile_cons, List.dropWhile_cons]
    split
    · exact ih
    · exact .keep c h
  | guard h _ => exact .guard h

theorem dropBlanksEnd_cons (c : Char) (cs : List Char) : Text.dropBlanksEnd (c :: cs) =
    if Text.dropBlanksEnd cs = [] ∧ isBlank c = true then [] else c :: Text.dropBlanksEnd cs := by
  unfold Text.dropBlanksEnd
  rw [List.reverse_cons, List.dropWhile_append]
  cases h : cs.reverse.dropWhile isBlank <;> cases hc : isBlank c <;> simp [hc]

theorem dropBlanksEnd (h : Guards cs ds) :
    Guards (Text.dropBlanksEnd cs) (Text.dropBlanksEnd ds) := by
  induction h with
  | nil => exact .nil
  | keep c _ ih =>
    simp only [dropBlanksEnd_cons, ih.nil_iff]
    split
    · exact .nil
    · exact .keep c ih
  | guard _ ih =>
    have visible : isBlank '!' = false ∧ isBlank '\x01' = false := ⟨rfl, rfl⟩
    simp only [dropBlanksEnd_cons, visible, Bool.false_eq_true, and_false, if_false]
    exact .guard ih

/-- The pieces of a text are shielded one by one. -/
theorem pieces (h : Guards cs ds) {at' : Cursor} (sane : at'.Sane) {kept kept' : List Char}
    (before : Guards kept.reverse kept'.reverse) :
    List.Forall₂ Guards (at'.pieces kept cs) (at'.pieces kept' ds) := by
  induction h generalizing at' kept kept' with
  | nil => exact .cons before .nil
  | keep c _ ih =>
    have longer : Guards (c :: kept).reverse (c :: kept').reverse := by
      rw [List.reverse_cons, List.reverse_cons]
      exact before.append (.keep c .nil)
    rw [Cursor.pieces, Cursor.pieces]
    split
    · exact .cons longer (ih sane .nil)
    · exact ih (sane.after c) longer
  | guard _ ih =>
    have inside {c : Char} (plain : c ∉ ' ' :: (quoteMarks ++ punctuationMarks))
        (kept cs : List Char) : at'.pieces kept (c :: cs) = at'.pieces (c :: kept) cs := by
      rw [List.mem_cons, not_or, List.mem_append, not_or] at plain
      rw [Cursor.pieces, Cursor.after_of_plain sane plain.2.1 plain.2.2]
      simp [Cursor.ends, plain.1]
    rw [inside (by decide), inside (by decide), inside (by decide)]
    refine ih sane ?_
    simp only [List.reverse_cons, List.append_assoc]
    exact before.append (.guard .nil)

end Guards

theorem Guards.split {s t : String} (h : Guards (chars s) (chars t)) :
    (Argument.split t).map remove = (Argument.split s).map remove := by
  rw [split_eq, split_eq]
  have shielded : List.Forall₂ Guards (argumentChars (chars s)) (argumentChars (chars t)) := by
    refine List.rel_filter ?_ (List.rel_map ?_ (h.pieces Cursor.sane_start .nil))
    · intro _ _ same
      simp [same.nil_iff]
    · intro _ _ same
      exact same.dropBlanks.dropBlanksEnd
  generalize argumentChars (chars s) = as, argumentChars (chars t) = bs at shielded
  induction shielded with
  | nil => rfl
  | cons same _ ih => simp only [List.map_cons, ih, remove, chars_ofList, same.erased]

/-- The arguments of a shielded text are those of the text. -/
theorem split_apply {s : String} (free : '\x01' ∉ chars s) :
    (split (apply s)).map remove = split s := by
  have step (x : Char) (t : String) : Guards (chars t)
      (chars (replaceAll (.ofList ['!', x, '\x7b']) (.ofList ['!', '\x01', x, '\x7b']) t)) := by
    rw [replaceAll, chars_ofList, chars_ofList, chars_ofList]
    exact .of_replaced (replaceChars_replaced (by simp) _ _)
  rw [apply, (step 's' _).split, (step 'f' s).split]
  refine (List.map_congr_left fun argument mem => ?_).trans (List.map_id _)
  exact remove_eq_self_iff.2 fun inside => free ((excerpt_of_mem_split mem).isInfix.subset inside)

end Shield

/-! ### Reading -/

/-- What is left of raw lines without their comments and without empty lines. -/
def Comment.contents (raws : List String) : List String :=
  (raws.filterMap strip).filter (· ≠ "")

/-- What is left of sources. -/
def Comment.contentsOf (sources : List (String × String)) : List String :=
  sources.flatMap fun source => contents (Text.lines source.2)

/-- A raw line whose content, if there is any, is a command at the outermost level. -/
def Line.PassesOn (unit : Nat) (raw : String) : Prop :=
  ∀ content ∈ Comment.contents [raw], Indent.depth? raw unit = some 0 ∧ '\x01' ∉ chars content ∧
    Statement.form (Shield.apply content) = .ok (.command (Shield.apply content)) ∧
    Statement.IsLiteral (Shield.apply content)

instance (unit : Nat) (raw : String) : Decidable (Line.PassesOn unit raw) :=
  List.decidableBAll _ _

/-- A line of the outermost level with a shielded content that is passed on. -/
structure Line.Carries (line : Line) (content : String) : Prop where
  depth : line.depth = 0
  text : Shield.apply content = line.text
  nonempty : content ≠ ""
  free : '\x01' ∉ chars content
  passed : Statement.IsPassthrough line.text

theorem Line.carries_readNumbered {unit : Nat} (source : Nat) {raws : List String}
    (each : ∀ raw ∈ raws, PassesOn unit raw) (number : Nat) :
    ∃ lines, readNumbered unit source number raws = .ok lines ∧
      List.Forall₂ Carries lines (Comment.contents raws) := by
  induction raws generalizing number with
  | nil => exact ⟨[], rfl, .nil⟩
  | cons first rest ih =>
    obtain ⟨lines, read, carried⟩ := ih (fun raw mem => each raw (.tail _ mem)) (number + 1)
    rw [readNumbered]
    split
    · next none => exact ⟨lines, read, by simpa [Comment.contents, none] using carried⟩
    · next none => exact ⟨lines, read, by simpa [Comment.contents, none] using carried⟩
    · next content nonempty stripped =>
      have nonempty : content ≠ "" := fun none => nonempty (none ▸ rfl)
      obtain ⟨depth, free, passed⟩ := each first (.head _) content
        (by simp [Comment.contents, stripped, nonempty])
      have contents : Comment.contents (first :: rest) = content :: Comment.contents rest := by
        simp [Comment.contents, stripped, nonempty]
      rw [depth, read, contents]
      exact ⟨_, rfl, .cons ⟨rfl, rfl, nonempty, free, passed⟩ carried⟩

/-- Sources of commands can be read. -/
theorem Workspace.carries_addSources {sources : List (String × String)} {ws : Workspace}
    (each : ∀ source ∈ sources, ∀ raw ∈ Text.lines source.2,
      Line.PassesOn (Indent.unitOf source.2 ws.settings.defaultIndent) raw) :
    ∃ ws' lines, ws.addSources sources = .ok ws' ∧ ws'.lines = ws.lines ++ lines ∧
      List.Forall₂ Line.Carries lines (Comment.contentsOf sources) := by
  induction sources generalizing ws with
  | nil => exact ⟨ws, [], rfl, (List.append_nil _).symm, .nil⟩
  | cons source _ ih =>
    obtain ⟨lines, read, carried⟩ := Line.carries_readNumbered ws.sources.length
      (each source (.head _)) 1
    obtain ⟨mid, first, settings, longer⟩ : ∃ mid, ws.addSource source.1 source.2 = .ok mid ∧
        mid.settings = ws.settings ∧ mid.lines = ws.lines ++ lines :=
      ⟨_, addSource_eq_ok.2 ⟨lines, read, rfl⟩, rfl, rfl⟩
    obtain ⟨ws', later, added, same, rests⟩ := @ih mid fun other mem =>
      settings ▸ each other (.tail _ mem)
    exact ⟨ws', lines ++ later, addSources_cons_eq_ok.2 ⟨mid, first, added⟩,
      by rw [same, longer, List.append_assoc], List.rel_append carried rests⟩

/-! ### Compiling -/

theorem Statement.head_ne_def {line text : String} (trimmed : trim line = line)
    (passed : form line = .ok (.command text)) : (splitHead line).1 ≠ "def" := by
  intro head
  have signed (st : Statement) (h : ofSign? "def" (splitHead line).2 = some st) :
      st ≠ .command text := by
    rintro rfl
    unfold ofSign? at h
    simp only at h
    repeat' split at h
    all_goals cases h
  rw [form, classify_eq, trimmed, head, fixed?, if_neg (by decide)] at passed
  split at passed
  · next st found => exact signed st found (Except.ok.inj passed)
  · cases passed

namespace Lowering

variable {compile : Compile} {self : Routine} {site : Site} {text : String}
  {commands : List Command} {ws : Workspace}

theorem gives_line_command (undeclared : ws.Undeclared)
    (undefined : ws.resolveFunction? self.path = fun _ => none)
    (passed : Statement.IsPassthrough text) (some' : trim (Argument.spaced text) ≠ "") :
    BodyM.Gives (line compile self site text) { commands } ws ()
      { commands := commands ++ [.text (Argument.spaced text)] }
      (ws.record (.lineStarted self.path site.index text)) := by
  refine gives_line.2 ⟨.command text, { commands := commands ++ [.text (Argument.spaced text)] },
    (congrArg (Statement.classify · text) undefined).trans passed.1, ?_, rfl⟩
  have substituted := @Undeclared.substitute (ws.record (.lineStarted self.path site.index text))
    self.path text undeclared passed.2
  simp only [statement, Assignment.substitute, BodyM.gives_bind, BodyM.gives_lift,
    WorkM.gives_query, BodyM.gives_emit, substituted]
  refine ⟨_, _, _, ⟨⟨rfl, rfl⟩, rfl⟩, ?_, rfl, rfl⟩
  simpa [Command.isBlank, Argument.spaced] using some'

/-- Commands are passed on one by one. -/
theorem gives_lines_commands (undeclared : ws.Undeclared)
    (undefined : ws.resolveFunction? self.path = fun _ => none) {lines : List Line}
    (each : ∀ line ∈ lines, line.depth = self.depth ∧ Statement.IsPassthrough line.text ∧
      trim (Argument.spaced line.text) ≠ "") (opens : Bool) (index : Nat) :
    ∃ journal, BodyM.Gives (Lowering.lines compile self opens index lines) { commands } ws ()
      { commands := commands ++ lines.map fun line => .text (Argument.spaced line.text) }
      { ws with journal } := by
  induction lines generalizing commands ws opens index with
  | nil => exact ⟨ws.journal, by simp [Lowering.lines]⟩
  | cons line lines ih =>
    obtain ⟨level, passed, some'⟩ := each line (.head _)
    obtain ⟨journal, ran⟩ := @ih (commands ++ [.text (Argument.spaced line.text)])
      (ws.record (.lineStarted self.path index line.text)) undeclared undefined
      (fun l mem => each l (.tail _ mem)) (Text.endsWith ":" line.text) (index + 1)
    refine ⟨journal, gives_lines_cons level rfl
      (gives_line_command undeclared undefined passed some') ?_⟩
    rwa [List.append_assoc, List.singleton_append] at ran

end Lowering

/-- A program of commands is compiled to these commands. -/
theorem Workspace.Unbuilt.compile_commands {settings : Settings} {ws : Workspace}
    (h : Unbuilt settings ws) (some' : ws.lines ≠ [])
    (each : ∀ line ∈ ws.lines, line.depth = 0 ∧ Statement.IsPassthrough line.text ∧
      trim (Argument.spaced line.text) ≠ "") :
    ∃ compiled, ws.compile = (.ok (), compiled) ∧ compiled.settings = settings ∧
      compiled.ints = [] ∧ compiled.constants = [] ∧ compiled.slots = {} ∧
      compiled.routines.entries = [(settings.rootPath, { Routine.ofRoot settings.rootPath with
        commands := ws.lines.map fun line => .text (Argument.spaced line.text)
        compiled := true })] := by
  have noDefs : ∀ line ∈ ws.lines, (Statement.splitHead line.text).1 ≠ "def" := fun line mem =>
    Statement.head_ne_def (h.trimmed line mem) (each line mem).2.1.1
  have bare := h.bare_withRoot noDefs
  obtain ⟨limit, nesting⟩ : ∃ limit, ws.withRoot.nesting = limit + 1 :=
    ⟨_, (Nat.succ_pred_eq_of_pos (Nat.mul_pos (Nat.succ_pos _) (Nat.succ_pos _))).symm⟩
  let started := ws.withRoot.record (.routineStarted settings.rootPath)
  let result : Body := { commands := ws.lines.map fun line => .text (Argument.spaced line.text) }
  obtain ⟨journal, ran⟩ := @Lowering.gives_lines_commands (Lowering.compile limit)
    (.ofRoot settings.rootPath) [] started bare.undeclared (bare.resolveFunction? _) ws.lines each
    false 0
  obtain ⟨first, rest, lines⟩ := List.exists_cons_of_ne_nil some'
  have given : WorkM.Gives (Lowering.routine (Lowering.compile limit) settings.rootPath none)
      ws.withRoot ()
      (Lowering.stored (.ofRoot settings.rootPath) result { started with journal }) :=
    Lowering.gives_routine h.found_root lines (each first (lines ▸ .head _)).1 rfl
      (lines ▸ (Bare.gives_registerAll noDefs).2 rfl) (lines ▸ ran) ⟨_, h.found_root⟩
  refine ⟨_, (?_ : ws.compile = (_, Lowering.stored (.ofRoot settings.rootPath) result
    { started with journal })), h.settings, h.ints, h.constants, h.slots, ?_⟩
  · rw [compile, h.register_root]
    simp only [compileRoutine, h.settings]
    rw [nesting, Lowering.compile, show Lowering.routine _ _ _ ws.withRoot = _ from given]
  · simp [Lowering.stored, updateRoutine, started, result, record, withRoot, h.routines, h.settings,
      Table.modify, Table.map, Table.insert, Table.contains, Routine.ofRoot]

/-! ### Linking -/

namespace Linking

theorem gives_resolveAll_steady {limit : Nat} {lines : List String} (st : LinkState)
    (steady : ∀ line ∈ lines, Steady line) :
    WorkM.Gives (resolveAll (limit + 1) lines) st lines st := by
  induction lines with
  | nil => exact WorkM.gives_pure.2 ⟨rfl, rfl⟩
  | cons line _ ih =>
    exact gives_resolveAll_cons.2 ⟨line, _, st, gives_resolve.2 (.steady (steady line (.head _))),
      ih fun line mem => steady line (.tail _ mem), rfl⟩

end Linking

/-- A single routine without calls is linked as it is. -/
theorem Workspace.link_steady {ws : Workspace} {root : Path} {r : Routine} {lines : List String}
    (housed : ws.Housed) (entries : ws.routines.entries = [(root, r)])
    (own : r.path = root ∧ r.used = true ∧ r.commands = lines.map .text) (some' : lines ≠ [])
    (steady : ∀ line ∈ lines, Steady line) (none : ws.ints = [] ∧ ws.constants = []) (limit : Nat) :
    ∃ pack final, ws.link (limit + 2) = (.ok pack, final) ∧
      pack.functions.entries = [(root.render, lines.map Shield.remove)] ∧
      pack.slots = ws.slots := by
  obtain ⟨path, used, commands⟩ := own
  have found : ws.routines.get? root = some r := by simp [Table.get?, entries]
  have queue : ws.linkState.queue = [root] := by
    simp [linkState, Table.values, entries, used, path]
  have tidy := LinkState.Tidy.linkState housed
  have linked : WorkM.Gives (Linking.routine (limit + 1) root) (ws.linkState.taking root []) ()
      ((ws.linkState.taking root []).storing root lines) := by
    refine Linking.gives_routine.2 ⟨r, lines, _, found, ?_, ⟨r, found⟩, rfl⟩
    rw [commands, List.map_map]
    exact (List.map_id lines).symm ▸ Linking.gives_resolveAll_steady _ steady
  have ran : WorkM.Gives (Linking.run (limit + 2)) ws.linkState () _ :=
    (Linking.gives_run tidy).2 (.inr ⟨root, [], _, queue, linked,
      (Linking.gives_run (Linking.tidy_of_routine (tidy.take queue).2 linked).1).2
        (.inl ⟨rfl, rfl⟩)⟩)
  unfold link
  rw [show Linking.run (limit + 2) ws.linkState = _ from ran]
  have frame := @prune_unshield_frame ((ws.linkState.taking root []).storing root lines).ws
  have added : ((ws.linkState.taking root []).storing root lines).ws.prune.unshield.addPrelude =
      .ok ((ws.linkState.taking root []).storing root lines).ws.prune.unshield := by
    rw [addPrelude, frame.2.1, frame.2.2]
    exact if_pos (by simp [LinkState.storing, LinkState.taking, updateRoutine, linkState, none])
  simp only [added]
  refine ⟨_, _, rfl, ?_, slots_prune_unshield⟩
  have kept :
      ((ws.linkState.taking root []).storing root lines).ws.prune.unshield.routines.entries =
        [(root, { r with commands := lines.map fun line => .text (Shield.remove line) })] := by
    have whole : keeps { r with commands := lines.map .text } = true := by simp [keeps, used, some']
    unfold unshield prune
    split <;> simp [LinkState.storing, LinkState.taking, linkState, updateRoutine, record,
      Table.map, Table.filter, Table.modify, entries, whole, Command.render]
  simp [Pack.ofWorkspace, Table.values, kept, Table.ofList, Table.insert, Table.contains, path,
    Command.render]

/-! ### Lines of a pack -/

namespace Argument

variable {text : String}

/-- A pattern without spaces is in no line whose arguments do not have it. -/
theorem not_infix_spaced {pattern : List Char} (some' : pattern ≠ []) (blank : ' ' ∉ pattern)
    (free : ¬ pattern <:+: chars text) : ¬ pattern <:+: chars (spaced text) := by
  have free : ∀ part ∈ split text, ¬ pattern <:+: chars part := fun part mem inside =>
    free (inside.trans (excerpt_of_mem_split mem).isInfix)
  unfold spaced
  generalize split text = parts at free
  induction parts with
  | nil => exact fun inside => some' (List.infix_nil.1 inside)
  | cons part rest ih =>
    cases rest with
    | nil => exact free part (.head _)
    | cons =>
      rw [Text.join, chars_append, chars_append, List.append_assoc]
      · intro inside
        rcases infix_append_cons some' blank inside with first | later
        · exact free part (.head _) first
        · exact ih (fun part mem => free part (.tail _ mem)) later
      · simp

theorem trim_spaced_ne_empty (trimmed : trim text = text) (some' : text ≠ "") :
    trim (spaced text) ≠ "" := by
  have parts : split text ≠ [] := by
    cases starts : chars text with
    | nil => exact absurd (chars_inj.1 starts) some'
    | cons c _ =>
      obtain ⟨_, _, cut, -⟩ := exists_split_eq_cons starts
        ((trim_eq_self_iff.1 trimmed).1 c (by rw [starts]; rfl))
      simp [cut]
  rw [spaced, trim_eq_self_iff.2 (trimmed_join (fun _ => ne_empty_of_mem_split)
    fun _ => trimmed_of_mem_split)]
  intro none
  exact chars_join_ne_nil parts (fun _ => ne_empty_of_mem_split) (congrArg chars none)

end Argument

namespace Shield

theorem steady_spaced_apply (text : String) : Steady (Argument.spaced (apply text)) :=
  Markless.steady
    ⟨Argument.not_infix_spaced (by decide) (by decide) (not_infix_apply (by decide) text),
      Argument.not_infix_spaced (by decide) (by decide) (not_infix_apply (by decide) text)⟩

theorem remove_spaced_apply {text : String} (free : '\x01' ∉ chars text) :
    remove (Argument.spaced (apply text)) = Argument.spaced text := by
  rw [Argument.spaced, Argument.spaced, ← split_apply free]
  induction Argument.split (apply text) with
  | nil => rfl
  | cons part rest ih =>
    cases rest with
    | nil => rfl
    | cons =>
      have space : remove " " = " " := by decide
      rw [Text.join, remove_append, remove_append, ih, space]
      · rfl
      · simp

theorem apply_ne_empty {text : String} (free : '\x01' ∉ chars text) (some' : text ≠ "") :
    apply text ≠ "" := by
  intro none
  have restored := remove_apply text
  rw [none, remove_eq_self_iff.2 free] at restored
  exact some' restored.symm

end Shield

/-- A program whose lines are all commands at the outermost level, without variables and
definitions, is passed on: its pack has one function, the root, with the lines of the program as
they were, with single spaces between their arguments. -/
theorem Pack.build_passes_commands {settings : Settings} {sources : List (String × String)}
    (nonempty : Comment.contentsOf sources ≠ [])
    (commands : ∀ source ∈ sources, ∀ raw ∈ Text.lines source.2,
      Line.PassesOn (Indent.unitOf source.2 settings.defaultIndent) raw) (limit : Nat) :
    ∃ pack, Pack.build (limit + 2) settings sources = .ok pack ∧ pack.slots = {} ∧
      pack.functions.entries =
        [(settings.rootPath.render, (Comment.contentsOf sources).map Argument.spaced)] := by
  obtain ⟨read, lines, reads, same, carried⟩ := @carries_addSources sources { settings } commands
  have same : read.lines = lines := same
  subst same
  have unbuilt := unbuilt_of_addSources reads
  have origin : ∀ line ∈ read.lines, ∃ content, line.Carries content :=
    ((List.forall₂_and_left _ _).1 (carried.imp fun _ content own => ⟨⟨content, own⟩, own⟩)).1
  have some' : read.lines ≠ [] := by
    rintro none
    rw [none, List.forall₂_nil_left_iff] at carried
    exact nonempty carried
  obtain ⟨compiled, compiles, settled, ints, constants, slots, entries⟩ :=
    unbuilt.compile_commands some' fun line mem => by
      obtain ⟨content, own⟩ := origin line mem
      have shielded : line.text ≠ "" := own.text ▸ Shield.apply_ne_empty own.free own.nonempty
      exact ⟨own.depth, own.passed,
        Argument.trim_spaced_ne_empty (unbuilt.trimmed line mem) shielded⟩
  obtain ⟨pack, final, links, functions, slots'⟩ := link_steady (housed_of_compile reads compiles)
    entries ⟨rfl, rfl, by rw [List.map_map]; rfl⟩ (by simpa using some')
    (by
      intro _ mem
      obtain ⟨line, inside, rfl⟩ := List.mem_map.1 mem
      obtain ⟨content, own⟩ := origin line inside
      exact own.text ▸ Shield.steady_spaced_apply content) ⟨ints, constants⟩ limit
  refine ⟨pack, build_eq_ok.2 ⟨read, compiled, final, reads, compiles, links⟩,
    slots'.trans slots, ?_⟩
  have restored : read.lines.map (fun line => Shield.remove (Argument.spaced line.text)) =
      (Comment.contentsOf sources).map Argument.spaced := by
    rw [← List.forall₂_eq_eq_eq]
    exact List.rel_map (fun _ _ own => own.text ▸ Shield.remove_spaced_apply own.free) carried
  rw [functions, List.map_map, ← restored]
  rfl

/-- Text that looks like marks, between comments and empty lines. -/
def markerLike : String :=
  "# call\nsay  !f\x7bx\x7d \"a  !s\x7by\x7d\"  # twice\n\n" ++
    "tellraw   @a [ !s\x7by\x7d\\,  '!f\x7b' ]"

/-- Text that looks like marks is passed on. -/
theorem Pack.build_passes_commands_markerLike :
    Comment.contentsOf [("", markerLike)] ≠ [] ∧
    (∀ source ∈ [("", markerLike)], ∀ raw ∈ Text.lines source.2,
      Line.PassesOn (Indent.unitOf source.2 4) raw) ∧
    ∃ pack, Pack.build 2 {} [("", markerLike)] = .ok pack ∧ pack.slots = {} ∧
      pack.functions.entries = [("main", ["say !f\x7bx\x7d \"a  !s\x7by\x7d\"",
        "tellraw @a [ !s\x7by\x7d\\,  '!f\x7b' ]"])] := by
  have nonempty : Comment.contentsOf [("", markerLike)] ≠ [] := by decide +kernel
  have commands : ∀ source ∈ [("", markerLike)], ∀ raw ∈ Text.lines source.2,
      Line.PassesOn (Indent.unitOf source.2 4) raw := by decide +kernel
  obtain ⟨pack, built, slots, functions⟩ :=
    @Pack.build_passes_commands {} [("", markerLike)] nonempty commands 0
  exact ⟨nonempty, commands, pack, built, slots, functions.trans (by decide +kernel)⟩

end CommandPack
