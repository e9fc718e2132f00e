import CommandPack.Proofs.Linking.Marks
import CommandPack.Proofs.Lowering.Quoting
import CommandPack.Proofs.Lowering.Settling

/-!
# Hygiene of marks

Linking takes a text for a mark or a placeholder wherever one opens in it. If the source lines are
sealed, then the only marks in the commands of a compiled workspace are those of its calls, each
at the end of its command and with a target that is there, and there are no placeholders.
-/

namespace CommandPack

open Text Workspace BodyM Lowering Scoreboard

variable {name objective out pack tag : String}

/-! ### Texts without exclamation marks -/

namespace Text

/-- A text without exclamation marks. -/
def Calm (s : String) : Prop :=
  '!' ∉ chars s

instance (s : String) : Decidable (Calm s) :=
  inferInstanceAs (Decidable (_ ∉ _))

theorem Calm.append {a b : String} (h : Calm a) (h' : Calm b) : Calm (a ++ b) := by
  simp [Calm, chars_append, show '!' ∉ chars a from h, show '!' ∉ chars b from h']

theorem Calm.sealed {s : String} (h : Calm s) : Sealed (chars s) :=
  sealed_of_not_mem h

theorem calm_natural (n : Nat) : Calm (natural n) := fun mem =>
  absurd (isDigit_of_mem_natural mem) (by decide)

theorem calm_integer (value : Int) : Calm (integer value) := by
  cases value with
  | ofNat n => exact calm_natural n
  | negSucc => exact Calm.append (by decide) (calm_natural _)

/-- A sealed text between two others that are calm. -/
theorem Sealed.between {before s after : String} (h : Sealed (chars s)) (left : Calm before)
    (right : Calm after) (next : ∀ c ∈ (chars after).head?, isOpener c = false) :
    Sealed (chars (before ++ s ++ after)) := by
  rw [chars_append, chars_append]
  refine Sealed.append (Sealed.append left.sealed h (.inl fun last => ?_)) right.sealed (.inr next)
  exact left (List.mem_of_getLast? last)

end Text

theorem Name.calm (h : Name.isVariable name = true) : Calm name := fun mem =>
  absurd (Name.isPart_of_mem h mem) (by decide)

namespace Path

variable {root : String} {path : Path}

theorem calm_render (below : path.Below root) (spelled : path.Spelled) (calm : Calm root) :
    Calm path.render := by
  obtain ⟨segments, same, _⟩ := below
  intro mem
  rw [Spelled, same, List.tail_cons] at spelled
  rw [render, same, chars_join_cons, suffixChars, List.mem_append, List.mem_flatMap] at mem
  rcases mem with mem | ⟨segment, inside, mem⟩
  · exact calm mem
  · rcases List.mem_cons.1 mem with dot | mem
    · cases dot
    · exact absurd (spelled segment inside _ mem) (by decide)

theorem calm_qualify (calm : Calm path.render) (own : Calm name) : Calm (path.qualify name) :=
  have dot : Calm "." := by decide
  calm.append dot |>.append own

end Path

/-! ### Substitution -/

/-- The names and values of variables are harmless: no name has an exclamation mark, values are
sealed, and every string variable has one. -/
structure Symbols.Clean (symbols : Symbols) : Prop where
  names {name : String} : symbols.contains name = true → Calm name
  strings {path value : String} : symbols.string? path = some value → Sealed (chars value)
  valued {path : String} : symbols.kind? path = some .string →
    ∃ value, symbols.string? path = some value

namespace Workspace

variable {ws ws' : Workspace}

/-- The texts that a compilation puts together are harmless. -/
structure Clean (ws : Workspace) : Prop where
  root : Calm ws.settings.root
  plain : ws.settings.rootPath.Plain
  pack : Calm ws.settings.pack
  lines : ∀ line ∈ ws.lines, Sealed (chars line.text)
  slots {path objective : String} : ws.slots.get? path = some objective → Calm objective
  symbols : ws.symbols.Clean
  params {q : Path} {r : Routine} : ws.routines.get? q = some r →
    (∀ name ∈ paramPaths r, Calm name) ∧
      (∀ binding ∈ r.bindings, Sealed (chars binding.2)) ∧
      ∀ param ∈ r.params, Calm param.name ∧
        ∀ argument, param.default = some argument → Sealed (chars argument)

end Workspace

theorem calm_selectTag {kind : Kind} (h : Calm tag) : Calm (selectTag tag kind) := by
  have opening : Calm "[tag=" := by decide
  have all : Calm "@e[tag=" := by decide
  unfold selectTag
  split
  · next player single =>
    have start : Calm (if player then "@p" else "@e") := by split <;> decide
    have limit : Calm (if single then ",limit=1" else "") := by split <;> decide
    exact start.append opening |>.append h |>.append limit |>.append (by decide)
  · exact all.append h |>.append (by decide)

theorem Scoreboard.calm_carrier (calm : Calm pack) : Calm (carrier pack) :=
  have name : Calm (carrierName pack) := calm.append (by decide)
  have start : Calm "@e[name=" := by decide
  start.append name |>.append (by decide)

namespace Substitution

variable {ws : Workspace} {scope : Path}

theorem calm_select (calm : Calm pack) (own : Calm objective) :
    Calm (select pack objective) :=
  have space : Calm " " := by decide
  (calm_carrier calm).append space |>.append own

theorem calm_component (calm : Calm pack) (own : Calm objective) :
    Calm (component pack objective) :=
  have name : Calm (carrierName pack) := calm.append (by decide)
  have start : Calm "\x7b\"score\":\x7b\"name\":\"@e[name=" := by decide
  have middle : Calm "]\",\"objective\":\"" := by decide
  start.append name |>.append middle |>.append own |>.append (by decide)

theorem sealed_stringText (clean : ws.Clean) {path : String}
    (string : ws.symbols.kind? path = some .string) : Sealed (chars (stringText ws path)) := by
  obtain ⟨value, found⟩ := clean.symbols.valued string
  rw [stringText, found]
  exact clean.symbols.strings found

/-- A replacement is sealed, and a selector has no exclamation mark. -/
theorem sealed_evaluate (clean : ws.Clean) {word : String} {replacement : Replacement}
    (h : Sealed (chars word)) (found : evaluate ws scope word = .ok (some replacement)) :
    Sealed (chars replacement.text) ∧ ∀ text, replacement = .selector text → Calm text := by
  have name : Sealed (chars (Statement.splitClarifier word).1) := by
    unfold Statement.splitClarifier
    split
    · next name clarifier cut =>
      obtain ⟨⟨before, after⟩, found, same⟩ := Option.map_eq_some_iff.1 cut
      cases same
      rw [Text.eq_append_of_cutChars found] at h
      rw [chars_ofList]
      refine h.left (.inr ?_)
      rintro _ ⟨⟩
      decide
    · exact h
  unfold evaluate at found
  generalize Statement.splitClarifier word = parts at found name
  obtain ⟨own, clarifier⟩ := parts
  simp only at found
  split at found
  · cases found
    exact ⟨name, nofun⟩
  · split at found
    · cases found
    · next path resolved =>
      split at found
      · cases found
      · split at found
        · cases found
          have calm (kind : Kind) : Calm (selectTag path kind) :=
            calm_selectTag (clean.symbols.names (contains_of_resolve? resolved))
          constructor
          · rw [Replacement.text]
            exact (calm _).sealed
          · rintro _ ⟨⟩
            exact calm _
        · cases found
      · split at found
        · cases found
        · next objective slot =>
          have calm := clean.slots (Workspace.objective_eq_ok.1 slot)
          split at found
          · cases found
            exact ⟨(calm_select clean.pack calm).sealed, nofun⟩
          · cases found
            exact ⟨(calm_component clean.pack calm).sealed, nofun⟩
          · cases found
      · next string =>
        cases found
        exact ⟨sealed_stringText clean string, nofun⟩

theorem exists_of_map_eq_ok {α β : Type} {result : Except Cause α} {f : α → β} {b : β}
    (h : result.map f = .ok b) : ∃ a, result = .ok a ∧ f a = b := by
  cases result with
  | error => cases h
  | ok a => exact ⟨a, rfl, Except.ok.inj h⟩

/-- A mark is not substituted. -/
theorem substituteWords_mark {t : Token} {rest : List Token} (h : t.IsMark) :
    substituteWords ws scope false (t :: rest) =
      (substituteWords ws scope false rest).map (t.text ++ ·) := by
  obtain ⟨c, _, ⟨shape, _⟩ | ⟨shape, _⟩⟩ := h <;> simp only [substituteWords, shape]

/-- No text starts with a letter of a mark if its first token is a punctuation mark. -/
theorem head_substituteWords {tokens : List Token} (marks : ∀ t ∈ tokens.head?, t.IsMark)
    (written : substituteWords ws scope false tokens = .ok out) :
    ∀ c ∈ (chars out).head?, isOpener c = false := by
  cases tokens with
  | nil =>
    cases written
    nofun
  | cons t =>
    rw [substituteWords_mark (marks t rfl)] at written
    obtain ⟨more, _, rfl⟩ := exists_of_map_eq_ok written
    obtain ⟨c, mark, _, _, other⟩ := (marks t rfl).chars
    rw [chars_append, mark]
    rintro _ ⟨⟩
    exact other

theorem calm_of_opened? {replacement : Replacement} {t : Token} {rest : List Token} {text : String}
    (calm : ∀ text, replacement = .selector text → Calm text)
    (found : opened? replacement t rest = some text) : Calm text := by
  unfold opened? at found
  split at found
  · next whole next rest' =>
    split at found
    · intro mem
      refine calm whole rfl ?_
      rw [chars_of_dropEnd? found]
      exact List.mem_append_left _ mem
    · cases found
  · cases found

/-- Substituting in the words of a sealed text gives a sealed text. -/
theorem sealed_substituteWords (clean : ws.Clean) {tokens : List Token} {usedUp : Bool}
    (parted : Token.Parted tokens) (h : Sealed (Token.cover tokens))
    (written : substituteWords ws scope usedUp tokens = .ok out) : Sealed (chars out) := by
  have each := Token.sealed_of_parted parted h
  induction tokens generalizing usedUp out with
  | nil =>
    cases usedUp <;> cases written <;> exact sealed_of_not_mem (by decide)
  | cons t rest ih =>
    obtain ⟨here, parted⟩ := parted
    have own : Sealed (chars t.text) := each t (.head _)
    rw [Token.cover_cons] at h
    have later {usedUp : Bool} {out : String}
        (written : substituteWords ws scope usedUp rest = .ok out) : Sealed (chars out) :=
      ih parted h.right written fun u mem => each u (.tail _ mem)
    cases usedUp with
    | true => exact later written
    | false =>
      rcases here with isMark | ⟨word, ends⟩ | ⟨quoted, marks⟩
      · rw [substituteWords_mark isMark] at written
        obtain ⟨more, writtenRest, rfl⟩ := exists_of_map_eq_ok written
        obtain ⟨c, mark, _, other, _⟩ := isMark.chars
        rw [chars_append]
        exact own.append (later writtenRest) (.inl (by simpa [mark] using other))
      · simp only [substituteWords, word] at written
        split at written
        · cases written
        · obtain ⟨more, writtenRest, rfl⟩ := exists_of_map_eq_ok written
          rw [chars_append]
          refine own.append (later writtenRest) (ends.imp (fun space => ?_) fun marks => ?_)
          · obtain ⟨front, same⟩ := List.isSuffixOf_iff_suffix.1 space
            rw [← same, List.getLast?_append]
            exact nofun
          · exact head_substituteWords marks writtenRest
        · next replacement found =>
          obtain ⟨instead, calm⟩ := sealed_evaluate clean own.trim found
          split at written
          · next text opening =>
            obtain ⟨more, writtenRest, rfl⟩ := exists_of_map_eq_ok written
            have front : Calm (text ++ ",") :=
              (calm_of_opened? calm opening).append (by decide)
            rw [chars_append]
            exact front.sealed.append (later writtenRest)
              (.inl fun last => front (List.mem_of_getLast? last))
          · obtain ⟨more, writtenRest, rfl⟩ := exists_of_map_eq_ok written
            rw [chars_append, chars_append]
            by_cases space : t.endsInSpace = true
            · rw [if_pos space]
              refine Sealed.append (instead.append (by decide) (.inr (each_of_all (by decide))))
                (later writtenRest) (.inl ?_)
              rw [List.getLast?_append]
              exact nofun
            · rw [if_neg space, show chars "" = [] from rfl, List.append_nil]
              exact instead.append (later writtenRest)
                (.inr (head_substituteWords (ends.resolve_left space) writtenRest))
      · -- quoted text ends before a quote
        simp only [substituteWords, quoted] at written
        obtain ⟨more, writtenRest, rfl⟩ := exists_of_map_eq_ok written
        rw [chars_append]
        refine Sealed.append ?_ (later writtenRest)
          (.inr (head_substituteWords marks writtenRest))
        cases found : quotedValue? ws scope (Text.trim t.text) with
        | none => exact own
        | some =>
          unfold quotedValue? at found
          split at found
          · cases found
          · split at found
            · next string =>
              cases found
              exact sealed_stringText clean string
            · cases found

theorem sealed_substituteArgument (clean : ws.Clean) {argument : String}
    (h : Sealed (chars argument)) (written : substituteArgument ws scope argument = .ok out) :
    Sealed (chars out) := by
  refine sealed_substituteWords clean (Token.parted_words argument) ?_ written
  rw [Token.cover_words]
  exact h

theorem sealed_substituteArguments (clean : ws.Clean) {arguments outs : List String}
    (h : ∀ argument ∈ arguments, Sealed (chars argument))
    (written : substituteArguments ws scope arguments = .ok outs) :
    ∀ out ∈ outs, Sealed (chars out) := by
  induction arguments generalizing outs with
  | nil =>
    cases written
    nofun
  | cons argument _ ih =>
    rw [substituteArguments] at written
    split at written
    · cases written
    · next text first =>
      obtain ⟨more, writtenRest, rfl⟩ := exists_of_map_eq_ok written
      intro out mem
      rcases List.mem_cons.1 mem with rfl | mem
      · exact sealed_substituteArgument clean (h argument (.head _)) first
      · exact ih (fun argument mem => h argument (.tail _ mem)) writtenRest out mem

theorem sealed_substitute (clean : ws.Clean) {text : String} (h : Sealed (chars text))
    (written : substitute ws scope text = .ok out) : Sealed (chars out) := by
  obtain ⟨outs, writtenAll, rfl⟩ := exists_of_map_eq_ok written
  refine Sealed.join ⟨by decide, by decide, each_of_all (by decide)⟩ ?_
  exact sealed_substituteArguments clean
    (fun argument mem => h.excerpt (Argument.excerpt_of_mem_split mem)) writtenAll

end Substitution

/-! ### Commands -/

/-- A calm text behind a sealed one. -/
theorem Text.Sealed.append_calm {a b : String} (h : Sealed (chars a)) (calm : Calm b)
    (next : ∀ c ∈ (chars b).head?, isOpener c = false) : Sealed (chars (a ++ b)) := by
  rw [chars_append]
  exact h.append calm.sealed (.inr next)

/-- Characters put into a sealed text where no word goes on. -/
theorem Text.Sealed.insert {as bs m : List Char} (h : Sealed (as ++ bs)) (free : '!' ∉ m)
    (some' : m ≠ []) (last : ∀ c ∈ as.getLast?, isOpener c = false ∧ c ≠ '!') :
    Sealed (as ++ m ++ bs) := by
  have front : Sealed as := h.left (.inl fun c mem => (last c mem).1)
  have middle : Sealed (as ++ m) :=
    front.append (sealed_of_not_mem free) (.inl fun ends => (last _ ends).2 rfl)
  refine middle.append h.right (.inl fun ends => free ?_)
  rw [List.getLast?_append_of_ne_nil _ some'] at ends
  exact List.mem_of_getLast? ends

namespace Summon

theorem sealed_withTag {command : String} (h : Sealed (chars command)) (calm : Calm tag) :
    Sealed (chars (withTag command tag)) := by
  have own := h.trim
  have quote : Calm "\"" := by decide
  have entry : Calm ("\"" ++ tag ++ "\"") := quote.append calm |>.append quote
  have some' : chars ("\"" ++ tag ++ "\"") ≠ [] := by
    simp [show chars "\"" = ['"'] from rfl]
  -- the entry goes behind an opening bracket
  have bracket (front : List Char) :
      ∀ c ∈ (front ++ chars "Tags:[").getLast?, isOpener c = false ∧ c ≠ '!' := by
    rw [List.getLast?_append_of_ne_nil _ (by decide)]
    exact each_of_all (by decide)
  unfold withTag
  simp only
  generalize Text.trim command = command at own
  generalize "\"" ++ tag ++ "\"" = entry' at entry some'
  split
  · next found =>
    obtain ⟨before, after, same, replaced⟩ :=
      chars_replaceFirst ("Tags:[" ++ entry' ++ "]") found
    rw [same, show chars "Tags:[]" = chars "Tags:[" ++ chars "]" from rfl, List.append_assoc,
      ← List.append_assoc] at own
    rw [replaced]
    simpa using own.insert entry some' (bracket before)
  · split
    · next found =>
      obtain ⟨before, after, same, replaced⟩ :=
        chars_replaceFirst ("Tags:[" ++ entry' ++ ",") found
      have more : Calm (entry' ++ ",") := entry.append (by decide)
      rw [same, ← List.append_assoc] at own
      rw [replaced]
      simpa using own.insert more (by simp [some']) (bracket before)
    · -- in all other cases the data goes to the end
      have data {text : String} (front : String) (h : Sealed (chars text)) (calm : Calm front)
          (starts : chars front ≠ [] ∧ ∀ c ∈ (chars front).head?, isOpener c = false) :
          Sealed (chars (text ++ front ++ entry' ++ "]\x7d")) := by
        rw [String.append_assoc, String.append_assoc]
        refine h.append_calm (calm.append (entry.append (by decide))) ?_
        rw [chars_append, List.head?_append_of_ne_nil _ starts.1]
        exact starts.2
      -- a brace ends the word before it
      have cut {text before ending : String} (h : Sealed (chars text))
          (found : dropEnd? ending text = some before)
          (ends : ∀ c ∈ (chars ending).head?, endsWord c = true) : Sealed (chars before) := by
        rw [chars_of_dropEnd? found] at h
        exact h.left (.inr ends)
      split
      · next before found =>
        exact data _ (cut own found (each_of_all (by decide))) (by decide)
          ⟨by decide, each_of_all (by decide)⟩
      · split
        · next before found =>
          exact data _ (cut own found (each_of_all (by decide))) (by decide)
            ⟨by decide, each_of_all (by decide)⟩
        · split
          · exact data _ own (by decide) ⟨by decide, each_of_all (by decide)⟩
          · exact data _ own (by decide) ⟨by decide, each_of_all (by decide)⟩

end Summon

/-- The texts that set a score or change it by a number. -/
theorem Scoreboard.calm_players {verb : String} (value : Int) (start : Calm verb) (calm : Calm pack)
    (own : Calm objective) :
    Calm (verb ++ carrier pack ++ " " ++ objective ++ " " ++ integer value) :=
  have space : Calm " " := by decide
  start.append (calm_carrier calm) |>.append space |>.append own |>.append space
    |>.append (calm_integer value)

theorem Scoreboard.calm_operation {target source : String} (op : ScoreOp) (calm : Calm pack)
    (first : Calm target) (second : Calm source) :
    Calm (operation pack target op.symbol source) := by
  have symbol : Calm op.symbol := by
    cases op with
    | assign => decide
    | apply operator => cases operator <;> decide
  have carrier := calm_carrier calm
  have start : Calm "scoreboard players operation " := by decide
  have space : Calm " " := by decide
  exact start.append carrier |>.append space |>.append first |>.append space |>.append symbol
    |>.append space |>.append carrier |>.append space |>.append second

namespace Marker

variable {tag : String}

theorem calm_present (calm : Calm tag) : Calm (present tag) :=
  have start : Calm "entity @e[tag=" := by decide
  start.append calm |>.append (by decide)

theorem calm_summon (calm : Calm tag) : Calm (summon tag) :=
  have start : Calm ("summon area_effect_cloud 0 0 0 " ++
      "\x7bAge:-2147483648,Duration:-1,WaitTime:-2147483648,Tags:[\"") := by decide
  start.append calm |>.append (by decide)

theorem calm_kill (calm : Calm tag) : Calm (kill tag) :=
  have start : Calm "kill @e[tag=" := by decide
  start.append calm |>.append (by decide)

end Marker

theorem Clause.calm_score {range : ScoreRange} (calm : Calm pack) (own : Calm objective) :
    Calm (Clause.render pack (.score objective range)) := by
  have name : Calm (carrierName pack) := calm.append (by decide)
  have ends : Calm range.render := by
    cases range with
    | exactly value => exact calm_integer value
    | atLeast value => exact (calm_integer value).append (by decide)
    | atMost value => exact Calm.append (by decide) (calm_integer value)
  have start : Calm "entity @e[name=" := by decide
  have scores : Calm ",scores=\x7b" := by decide
  have equals : Calm "=" := by decide
  exact start.append name |>.append scores |>.append own |>.append equals |>.append ends
    |>.append (by decide)

/-- Nothing that opens in the text of a command was written by the source, a mark apart. -/
def Command.Hygienic (pack : String) : Command → Prop
  | .invoke clauses mark => (∀ clause ∈ clauses, Sealed (chars (clause.render pack))) ∧
    ∀ argument ∈ mark.arguments, Sealed (chars argument)
  | command => Sealed (chars (command.render pack))

namespace Workspace.Clean

variable {ws ws' : Workspace} {self : Routine} {path out : String}

theorem of_change (h : ws.Clean) (settings : ws'.settings = ws.settings)
    (lines : ws'.lines = ws.lines) (routines : ws'.routines = ws.routines)
    (slots : ∀ path objective, ws'.slots.get? path = some objective → Calm objective)
    (symbols : ws'.symbols.Clean) : ws'.Clean where
  root := settings ▸ h.root
  plain := settings ▸ h.plain
  pack := settings ▸ h.pack
  lines := lines ▸ h.lines
  slots := slots _ _
  symbols := symbols
  params found := h.params (routines ▸ found)

theorem calm_path (h : ws.Clean) (housed : ws.Housed) {q : Path} {r : Routine}
    (found : ws.routines.get? q = some r) : Calm q.render :=
  q.calm_render (housed.orderly.below found) (housed.spelled found) h.root

theorem calm_tag (h : ws.Clean) (housed : ws.Housed) (tagged : ws.Tagged tag) : Calm tag := by
  obtain ⟨q, r, found, rfl | rfl | rfl⟩ := tagged <;>
    exact (h.calm_path housed found).append (by decide)

theorem calm_target (h : ws.Clean) (housed : ws.Housed) (has : ws.Has self)
    {locals : List String} (target : Target self locals ws path) : Calm path := by
  cases target with
  | own valid =>
    obtain ⟨r, found, _⟩ := has
    exact Path.calm_qualify (h.calm_path housed found) (Name.calm valid)
  | declared _ resolved => exact h.symbols.names (contains_of_resolve? resolved)

theorem calm_named (h : ws.Clean) (housed : ws.Housed) (has : ws.Has self)
    (named : Named self ws path) : Calm path := by
  cases named with
  | target target => exact h.calm_target housed has target
  | param found defined mem =>
    refine (h.params found).1 _ ?_
    rw [paramPaths, declaredParams, if_pos (by rw [defined]; rfl),
      (housed.orderly.owned found defined).1, List.map_map]
    exact List.mem_append_left _ (List.mem_map.2 ⟨_, mem, rfl⟩)

theorem sealed_written (h : ws.Clean) (written : Written self (Sealed ∘ chars) ws out) :
    Sealed (chars out) := by
  obtain ⟨text, source, written⟩ := written
  exact Substitution.sealed_substitute h source written

/-- A slot that is named after a calm name is calm. -/
theorem calm_slot {n : Nat} (calm : Calm name)
    (named : chars objective <:+ chars (name ++ "." ++ natural n)) : Calm objective := by
  have dot : Calm "." := by decide
  have whole : Calm (name ++ "." ++ natural n) := calm.append dot |>.append (calm_natural n)
  exact fun mem => whole (named.subset mem)

end Workspace.Clean

/-- Declaring a variable that is no string. -/
theorem Symbols.Clean.declare {symbols : Symbols} {path : String} {kind : Kind}
    (h : symbols.Clean) (calm : Calm path) (kindOk : kind.isString = false) :
    (symbols.declare path kind).Clean where
  names found := by
    rcases Symbols.contains_declare.1 found with rfl | found
    · exact calm
    · exact h.names found
  strings found := h.strings found
  valued string := by
    rw [Symbols.kind?_declare] at string
    split at string
    · cases string
      cases kindOk
    · exact h.valued string

theorem Symbols.Clean.bind {symbols : Symbols} {path value : String} (h : symbols.Clean)
    (calm : Calm path) (own : Sealed (chars value)) : (symbols.bind path value).Clean where
  names found := by
    rcases Symbols.contains_bind.1 found with rfl | found
    · exact calm
    · exact h.names found
  strings found := by
    rw [Symbols.string?_bind] at found
    split at found
    · cases found
      exact own
    · exact h.strings found
  valued string := by
    rw [Symbols.kind?_bind] at string
    rw [Symbols.string?_bind]
    split at string
    · next same => exact ⟨value, if_pos same⟩
    · next other =>
      obtain ⟨value, found⟩ := h.valued string
      exact ⟨value, by rw [if_neg other, found]⟩

/-! ### Sealed lines -/

/-- Entering a body with values for its strings. -/
theorem Symbols.Clean.bindParams {self : Routine} {ws : Workspace} (h : ws.symbols.Clean)
    (names : ∀ name ∈ paramPaths self, Calm name)
    (values : ∀ binding ∈ self.bindings, Sealed (chars binding.2)) (full : self.Full) :
    (bindParams self ws).symbols.Clean where
  names found := (contains_bindParams.1 found).elim (names _) h.names
  strings found := (string?_bindParams found).elim (values _) h.strings
  valued string := by
    refine Option.isSome_iff_exists.1 (isSome_string?_bindParams ?_)
    rcases kind?_bindParams string with ⟨_, bound⟩ | declared | old
    · exact .inl bound
    · exact .inl (full _ declared rfl)
    · exact .inr (Option.isSome_iff_exists.2 (h.valued old))

namespace Workspace.Clean

variable {ws ws' : Workspace} {self : Routine}

/-- An effect leaves a clean workspace clean. -/
theorem effect {calls : Prop} {start stop : Stage} (h : start.2.Clean) (housed : start.2.Housed)
    (has : start.2.Has self) (effect : Effect self (Sealed ∘ chars) calls start stop) :
    stop.2.Clean := by
  have kept := Effects.kept_of_effect effect
  cases effect with
  | emit | wait | addLocal => exact h
  | declare target kindOk =>
    exact h.of_change rfl rfl rfl (fun _ _ => h.slots)
      (h.symbols.declare (h.calm_target housed has target) kindOk)
  | @addInt _ ws path target =>
    have calm : Calm path := by
      rcases target with target | ⟨declared, found, rfl⟩
      · exact h.calm_target housed has target
      · exact (h.symbols.names found).append (by decide)
    refine h.of_change kept.settings kept.lines kept.routines (fun name objective found => ?_)
      (ws.addInt_symbols path ▸ h.symbols)
    rcases (ws.allots_addInt path).named found with old | ⟨rfl, n, suffix⟩
    · exact h.slots old
    · exact calm_slot calm suffix
  | bindString target written =>
    exact h.of_change rfl rfl rfl (fun _ _ => h.slots)
      (h.symbols.bind (h.calm_target housed has target) (h.sealed_written written))
  | @addConstant _ ws =>
    unfold Workspace.addConstant
    split
    · exact h
    · refine h.of_change rfl rfl rfl (fun name objective found => ?_) h.symbols
      simp only [Table.get?_insert] at found
      split at found
      · cases found
        intro mem
        rw [Workspace.shorten, chars_ofList] at mem
        have calm : Calm (Workspace.constantPath ws.constants.length) :=
          Calm.append (by decide) (calm_natural _)
        exact calm (List.mem_of_mem_drop mem)
      · exact h.slots found

/-- Entering a body with values for its strings leaves a clean workspace clean. -/
theorem enter (h : ws.Clean) (housed : ws.Housed)
    (found : ws.routines.get? self.path = some self) (full : self.Full)
    (enters : Enters self ws ws') : ws'.Clean := by
  obtain ⟨develops, housed', _⟩ := enters.housed housed ⟨self, found, rfl⟩
  have root : Calm ws'.settings.root := develops.settings ▸ h.root
  have own : Calm self.path.render := h.calm_path housed found
  obtain ⟨names, values, _⟩ := h.params found
  -- a definition of the body is spelled in a line of the body
  have param {line : String} {signature : Signature}
      (parsed : Signature.parse line = .ok signature) :
      ∀ param ∈ signature.params,
        Calm ((self.path.child signature.name).qualify param.name) := by
    intro param mem
    refine Path.calm_qualify ?_ (Name.calm (Signature.isVariable_of_parse parsed param mem))
    rw [Path.render_child (housed.orderly.below found).ne_nil]
    exact Path.calm_qualify own
      (Name.calm (Name.isVariable_of_isFunction (Signature.isFunction_of_parse parsed)))
  refine ⟨root, develops.settings ▸ h.plain, develops.settings ▸ h.pack, develops.lines ▸ h.lines,
    ?_, ?_, ?_⟩
  · intro name objective slot
    rcases enters.allots.1.named slot with old | ⟨⟨line, signature, parsed, p, mem, rfl⟩, n, suffix⟩
    · exact h.slots old
    · exact calm_slot (param parsed p mem) suffix
  · rw [enters.symbols]
    exact h.symbols.bindParams names values full
  · intro q r foundNew
    rcases enters.adds foundNew with old | ⟨_, i, line, signature, mem, _, parsed, rfl, rfl⟩
    · exact h.params old
    · refine ⟨fun name mem => ?_, nofun, ?_⟩
      · simp only [paramPaths, declaredParams, Definition.routine,
          RoutineKind.bindsParams, if_true, List.map_nil, List.append_nil, List.map_map,
          List.mem_map] at mem
        obtain ⟨p, inside, rfl⟩ := mem
        exact param parsed p inside
      · have inLines := List.mem_of_mem_drop (Block.mem_of_mem_own mem)
        exact fun p inside => ⟨Name.calm (Signature.isVariable_of_parse parsed p inside),
          fun argument default => (h.lines line inLines).excerpt
            (Signature.excerpt_of_default parsed p inside argument default)⟩

end Workspace.Clean

/-- Every command that a body adds is hygienic. -/
theorem Workspace.Clean.emission {self : Routine} {calls : Prop} {ws : Workspace}
    {command : Command} (h : ws.Clean) (housed : ws.Housed) (has : ws.Has self)
    (emission : Emission self (Sealed ∘ chars) calls ws command) :
    command.Hygienic ws.settings.pack := by
  have slot {path objective : String} (found : ws.objective path = .ok objective) :
      Calm objective := h.slots (objective_eq_ok.1 found)
  cases emission with
  | text written => exact h.sealed_written written
  | summon written named =>
    exact Summon.sealed_withTag (h.sealed_written written) (h.calm_named housed has named)
  | addTag written named =>
    have adds : Calm " add " := by decide
    have whole := (h.sealed_written written).between (by decide : Calm "tag ")
      (adds.append (h.calm_named housed has named)) (by
        rw [chars_append]
        rintro _ ⟨⟩
        decide)
    rwa [← String.append_assoc] at whole
  | releaseTag named =>
    have calm := h.calm_named housed has named
    have start : Calm "tag @e[tag=" := by decide
    exact (start.append calm |>.append (by decide) |>.append calm).sealed
  | setScore found => exact (calm_players _ (by decide) h.pack (slot found)).sealed
  | addScore found => exact (calm_players _ (by decide) h.pack (slot found)).sealed
  | removeScore found => exact (calm_players _ (by decide) h.pack (slot found)).sealed
  | combineScores found found' =>
    exact (calm_operation _ h.pack (slot found) (slot found')).sealed
  | call _ _ _ _ written =>
    exact ⟨nofun, fun argument mem => h.sealed_written (written argument mem)⟩

/-- Sealed lines lead to commands in which nothing opens but the marks of calls. -/
def Discipline.ByEffect.hygiene : ByEffect where
  Source := Sealed ∘ chars
  Holds := Clean
  Writes ws command := command.Hygienic ws.settings.pack ∧
    ∀ clauses mark, command = .invoke clauses mark → ws.Answers mark
  Tests ws clause := Sealed (chars (clause.render ws.settings.pack))
  writes_mono := by
    rintro ws ws' command ⟨hygienic, registered⟩ develops -
    refine ⟨develops.settings ▸ hygienic, fun clauses mark isCall => ?_⟩
    exact (registered clauses mark isCall).mono develops
  tests_mono tests develops _ := develops.settings ▸ tests
  Keeps _ symbols := symbols.Clean
  keeps clean := clean.symbols
  keeps_mono clean _ _ := clean
  sources := by
    rintro ws st clean ⟨line, mem, resolve, parsed⟩ text own
    have whole := (clean.lines line mem).excerpt (Statement.excerpt_of_classify parsed text own)
    exact ⟨whole, fun _ inside => whole.excerpt (Argument.excerpt_of_mem_split inside)⟩
  defaults clean found mem default := ((clean.params found).2.2 _ mem).2 _ default
  effect clean housed has effect := ⟨clean.effect housed has effect, trivial⟩
  emission {self calls ws command} clean housed has emission := by
    refine ⟨clean.emission housed has emission, fun clauses mark isCall => ?_⟩
    cases emission with
    | call _ found _ full _ =>
      cases isCall
      exact ⟨_, found, full⟩
    | _ => cases isCall
  words clean _ source written := Substitution.sealed_substituteArgument clean source written
  score clean found := (Clause.calm_score clean.pack (clean.slots (objective_eq_ok.1 found))).sealed
  keyword ws := ⟨(by decide : Calm "if").sealed, (by decide : Calm "unless").sealed⟩
  marker wanted clean housed tagged := by
    refine Calm.sealed (Calm.append ?_ (Marker.calm_present (clean.calm_tag housed tagged)))
    cases wanted <;> decide
  markers clean housed tagged := by
    have calm := clean.calm_tag housed tagged
    have start : Calm "execute unless " := by decide
    refine ⟨⟨(Marker.calm_summon calm).sealed, nofun⟩, ⟨?_, nofun⟩,
      ⟨(Marker.calm_kill calm).sealed, nofun⟩⟩
    exact (start.append (Marker.calm_present calm) |>.append (by decide) |>.append
      (Marker.calm_summon calm)).sealed
  invoke {ws block r clauses} _ _ found _ params tests := by
    refine ⟨⟨tests, nofun⟩, fun clauses' mark isCall => ?_⟩
    cases isCall
    exact ⟨r, found, by simp [params]⟩
  enter clean housed found full enters := clean.enter housed found full enters
  release {ws locals} clean := by
    obtain ⟨_, slots, _⟩ := releaseLocals_slots locals ws
    have alike := releaseLocals_alike locals ws
    refine clean.of_change alike.settings alike.lines (releaseLocals_kept ..).1
      (fun _ _ found => clean.slots (slots ▸ found)) ⟨?_, ?_, ?_⟩
    · exact fun found => clean.symbols.names (contains_releaseLocals.1 found)
    · intro path value found
      rcases symbols_releaseLocals locals ws path with ⟨_, same⟩ | ⟨_, none⟩
      · exact clean.symbols.strings (same ▸ found)
      · rw [none] at found
        cases found
    · intro path string
      rcases symbols_releaseLocals locals ws path with ⟨kind, same⟩ | ⟨none, _⟩
      · rw [same]
        exact clean.symbols.valued (kind ▸ string)
      · rw [none] at string
        cases string
  stable {ws ws'} clean base develops origins := by
    have settings : ws'.settings = ws.settings := develops.settings
    have slots : ws'.base.slots = ws.base.slots := congrArg Workspace.slots base
    have symbols : ws'.base.symbols = ws.base.symbols := congrArg Workspace.symbols base
    refine ⟨settings ▸ clean.root, settings ▸ clean.plain, settings ▸ clean.pack,
      develops.lines ▸ clean.lines,
      fun found => clean.slots (slots ▸ found : ws.base.slots.get? _ = some _),
      (symbols ▸ clean.symbols : ws'.base.symbols.Clean), fun {q r'} found => ?_⟩
    rcases origins q r' found with ⟨r, old, same⟩ | ⟨isBlock, params, bindings⟩
    · rw [paramPaths_of_origin same, Routine.bindings_of_origin same,
        Routine.params_of_origin same]
      exact clean.params old
    · have none : paramPaths r' = [] := by
        simp [paramPaths, declaredParams, params, bindings]
      rw [none, params, bindings]
      exact ⟨nofun, nofun, nofun⟩

/-- Compilations of sealed lines are hygienic. -/
def Discipline.hygiene : Discipline :=
  ByEffect.hygiene.discipline

end CommandPack
