import CommandPack.Proofs.Lowering.Effect
import CommandPack.Proofs.Text.Splitting

/-!
# Assignments of entities

An entity variable is a tag. Assigning to one that is there takes its tag from all objects and then
gives it to the objects that the new selector matches. The selector is read in between, so that it
does not see the old tag any more.
-/

namespace CommandPack

open Text BodyM

/-! ### Tags of objects -/

/-- The tags that objects have. -/
abbrev Tags (Object : Type) := Object → Set String

/-- The objects that a selector matches. Apart from what is fixed about the objects it depends on
their tags alone. -/
abbrev Matcher (Object : Type) := String → Tags Object → Object → Prop

namespace Tags

variable {Object : Type}

/-- No object has the tag any more. -/
def release (tag : String) (tags : Tags Object) : Tags Object := fun object =>
  tags object \ {tag}

/-- All objects that a selector matches get the tag. -/
def add (selects : Matcher Object) (selector tag : String) (tags : Tags Object) : Tags Object :=
  fun object => {other | other ∈ tags object ∨ other = tag ∧ selects selector tags object}

/-- What commands do to tags, if all of them are about tags. -/
def run (selects : Matcher Object) (tags : Tags Object) : List Command → Option (Tags Object)
  | [] => some tags
  | .releaseTag tag :: rest => run selects (tags.release tag) rest
  | .addTag selector tag :: rest => run selects (tags.add selects selector tag) rest
  | _ :: _ => none

/-- A tag that is moved is on the objects that the selector matches without it. -/
theorem mem_add_release {selects : Matcher Object} {selector tag : String} {tags : Tags Object}
    {object : Object} :
    tag ∈ (tags.release tag).add selects selector tag object ↔
      selects selector (tags.release tag) object := by
  constructor
  · rintro (old | ⟨-, matched⟩)
    · exact absurd rfl old.2
    · exact matched
  · intro matched
    exact .inr ⟨rfl, matched⟩

/-- All other tags stay where they are. -/
theorem mem_add_release_of_ne {selects : Matcher Object} {selector tag other : String}
    {tags : Tags Object} {object : Object} (ne : other ≠ tag) :
    other ∈ (tags.release tag).add selects selector tag object ↔ other ∈ tags object := by
  constructor
  · rintro (old | ⟨same, -⟩)
    · exact old.1
    · exact absurd same ne
  · intro old
    exact .inl ⟨old, ne⟩

end Tags

/-! ### Reassigned variables -/

/-- A text that starts like a selector is no number. -/
theorem Condition.literal?_of_at {text : String} (starts : startsWith "@" text = true) :
    literal? text = none := by
  obtain ⟨rest, written⟩ : ∃ rest, chars text = '@' :: rest := by
    obtain ⟨rest, same⟩ := List.isPrefixOf_iff_prefix.1 starts
    exact ⟨rest, same.symm⟩
  have trimmed : chars (trim text) = '@' :: dropBlanksEnd rest := by
    have front : dropBlanks ('@' :: rest) = ['@'] ++ rest := dropBlanks_eq_self (by simp [isBlank])
    rw [trim, chars_ofList, written, trimChars, front, dropBlanksEnd_append _ (by simp [isBlank])]
    rfl
  rw [literal?, signed?, trimmed]
  rfl

namespace Assignment

variable {self : Routine} {ws : Workspace} {body : Body} {target value path expression : String}
  {player single : Bool}

/-- Assigning a selector to an entity variable releases its tag and adds it again. -/
theorem gives_reassign (valid : Name.isVariable target = true)
    (resolved : ws.resolve? self.path target = some path)
    (entity : ws.symbols.kind? path = some (.entity player single))
    (noSummon : (Argument.split value).head? ≠ some "summon")
    (noInt : intSource? ws self value = none)
    (written : Substitution.substitute ws self.path value = .ok expression)
    (starts : startsWith "@" expression = true) :
    Gives (assign self target none value) body ws ()
      { body with commands := body.commands ++ [.releaseTag path, .addTag expression path] }
      (ws.declare path (.entity false false)) := by
  have filled : value ≠ "" := by
    rintro rfl
    cases written
    exact absurd starts (by decide)
  have noLiteral : Condition.literal? expression = none := Condition.literal?_of_at starts
  simp only [assign, valid, filled, noSummon, Bool.not_true, Bool.false_eq_true, if_false,
    gives_bind, gives_lift, WorkM.gives_query]
  refine ⟨none, body, ws, ⟨⟨rfl, rfl⟩, rfl⟩, path,
    { body with commands := body.commands ++ [.releaseTag path] }, ws, ?_,
    expression, _, _, gives_substitute.2 ⟨written, rfl, rfl⟩, ws, _, _, ⟨⟨rfl, rfl⟩, rfl⟩, ?_⟩
  · simp only [destination, gives_bind, gives_lift, WorkM.gives_query]
    refine ⟨ws, body, ws, ⟨⟨rfl, rfl⟩, rfl⟩, ?_⟩
    simp only [resolved, entity, gives_bind, gives_emit, gives_pure]
    exact ⟨(), _, _, ⟨rfl, rfl, rfl⟩, trivial, rfl, rfl⟩
  · simp [noInt, assignInferred, noLiteral, starts, assignEntity, gives_bind, Command.isBlank]

end Assignment

/-- An entity variable that is assigned again is the selection of its new selector among objects
that do not have its tag any more, and all other tags stay. This is the selection from the tags
before the statement exactly if the selector does not notice that the tag is released. -/
theorem Lowering.statement_moves_tag {compile : Compile} {self : Routine} {site : Site}
    {ws : Workspace} {body : Body} {target value path expression : String} {player single : Bool}
    (valid : Name.isVariable target = true)
    (resolved : ws.resolve? self.path target = some path)
    (entity : ws.symbols.kind? path = some (.entity player single))
    (noSummon : (Argument.split value).head? ≠ some "summon")
    (noInt : Assignment.intSource? ws self value = none)
    (written : Substitution.substitute ws self.path value = .ok expression)
    (starts : startsWith "@" expression = true) :
    ∃ commands,
      Gives (Lowering.statement compile self site (.assign target none value)) body ws ()
        { body with commands := body.commands ++ commands }
        (ws.declare path (.entity false false)) ∧
      ∀ (Object : Type) (selects : Matcher Object) (tags : Tags Object), ∃ after,
        tags.run selects commands = some after ∧
        (∀ object, path ∈ after object ↔ selects expression (tags.release path) object) ∧
        (∀ object other, other ≠ path → (other ∈ after object ↔ other ∈ tags object)) ∧
        ((∀ object, path ∈ after object ↔ selects expression tags object) ↔
          ∀ object,
            selects expression (tags.release path) object ↔ selects expression tags object) := by
  refine ⟨[.releaseTag path, .addTag expression path],
    Assignment.gives_reassign valid resolved entity noSummon noInt written starts,
    fun Object selects tags => ⟨_, rfl, ?_, ?_, ?_⟩⟩
  · intro object
    exact Tags.mem_add_release
  · intro object other ne
    exact Tags.mem_add_release_of_ne ne
  · simp only [Tags.mem_add_release]

/-- A workspace with one entity variable. -/
def oneEntity : Workspace where
  symbols := { kinds := Table.ofList [("main.x", .entity false false)] }

/-- Cows with the tag of the variable. -/
def taggedCows : Matcher Bool := fun _ tags isCow => isCow = true ∧ "main.x" ∈ tags isCow

/-- The variable is assigned all cows, tagged or not. -/
theorem Lowering.statement_moves_tag_cows :
    ∃ commands,
      Gives (Lowering.statement (fun _ _ => throw .exhausted) (.ofRoot ⟨["main"]⟩) ⟨0, []⟩
        (.assign "x" none "@e[type=cow]")) {} oneEntity ()
        { commands := [] ++ commands } (oneEntity.declare "main.x" (.entity false false)) ∧
      ∀ (Object : Type) (selects : Matcher Object) (tags : Tags Object), ∃ after,
        tags.run selects commands = some after ∧
        (∀ object, "main.x" ∈ after object ↔
          selects "@e[type=cow]" (tags.release "main.x") object) ∧
        (∀ object other, other ≠ "main.x" → (other ∈ after object ↔ other ∈ tags object)) ∧
        ((∀ object, "main.x" ∈ after object ↔ selects "@e[type=cow]" tags object) ↔
          ∀ object, selects "@e[type=cow]" (tags.release "main.x") object ↔
            selects "@e[type=cow]" tags object) :=
  @Lowering.statement_moves_tag (fun _ _ => throw .exhausted) (.ofRoot ⟨["main"]⟩) ⟨0, []⟩
    oneEntity {} "x" "@e[type=cow]" "main.x" "@e[type=cow]" false false
    rfl rfl rfl (by decide) rfl rfl rfl

/-- Selecting from the variable itself loses all of it: the one cow that has the tag before the
statement has it no more. -/
theorem Lowering.statement_loses_tag :
    Substitution.substitute oneEntity ⟨["main"]⟩ "x[type=cow]" =
        .ok "@e[tag=main.x,type=cow]" ∧
      ∃ commands,
        Gives (Lowering.statement (fun _ _ => throw .exhausted) (.ofRoot ⟨["main"]⟩) ⟨0, []⟩
          (.assign "x" none "x[type=cow]")) {} oneEntity () { commands := commands }
          (oneEntity.declare "main.x" (.entity false false)) ∧
        ∃ after, Tags.run taggedCows (fun _ => {"main.x"}) commands = some after ∧
          taggedCows "@e[tag=main.x,type=cow]" (fun _ => {"main.x"}) true ∧
          "main.x" ∉ after true := by
  refine ⟨rfl, [.releaseTag "main.x", .addTag "@e[tag=main.x,type=cow]" "main.x"], rfl, _, rfl,
    ⟨rfl, rfl⟩, ?_⟩
  rintro (old | ⟨-, -, tagged⟩)
  · exact old.2 rfl
  · exact tagged.2 rfl

end CommandPack
