import CommandPack.Proofs.Code

/-!
# What the code of a script can touch

The commands of a script without calls of definitions change only the markers of their own
routines, of the `else` chain that they go on with, and of the loop around them as far as they
may ask something of it. They enter only their own routines.
-/

namespace CommandPack

open Machine Marker

variable {tag : String} {block : Path}
variable {σ : Type} {fx : World σ} {header : List Clause} {used' : List Path}

namespace Marker

/-- Texts that end differently are different. -/
theorem append_ne {a b e f : String} (h : (Text.chars e).isSuffixOf (Text.chars f) = false)
    (h' : (Text.chars f).isSuffixOf (Text.chars e) = false) : a ++ e ≠ b ++ f := by
  intro same
  have ends : Text.chars e <:+ Text.chars (b ++ f) := by
    rw [← same, Text.chars_append]
    exact List.suffix_append _ _
  have ends' : Text.chars f <:+ Text.chars (b ++ f) := by
    rw [Text.chars_append]
    exact List.suffix_append _ _
  rcases List.suffix_or_suffix_of_suffix ends ends' with suffix | suffix
  · rw [List.isSuffixOf_iff_suffix.2 suffix] at h
    cases h
  · rw [List.isSuffixOf_iff_suffix.2 suffix] at h'
    cases h'

theorem chainTag_ne_exitTag (p q : Path) : chainTag p ≠ exitTag q :=
  append_ne (by decide) (by decide)

theorem chainTag_ne_roundTag (p q : Path) : chainTag p ≠ roundTag q :=
  append_ne (by decide) (by decide)

theorem exitTag_ne_roundTag (p q : Path) : exitTag p ≠ roundTag q :=
  append_ne (by decide) (by decide)

end Marker

namespace Code

variable {D : Dialect} {view : View} {lp : Option Path} {tail : Tail} {chain : Option String}
  {piece : Piece} {rest : Script} {cs : List Command} {x s x' s' : Bool} {used : List Path}

/-- Tests for the absence of requests and a header about the user state. -/
theorem passes_absenceTests {w : Path} {st : State σ}
    (unmarked : ∀ c ∈ header, isMarkerTest c = false) :
    Passes fx (Block.absenceTests w x s ++ header) st ↔
      (x = true → exitTag w ∉ st.markers) ∧ (s = true → roundTag w ∉ st.markers) ∧
        fx.passes header st.user := by
  cases x <;> cases s <;>
    simp [Block.absenceTests, passes_marker_cons, passes_of_unmarked unmarked]

theorem View.arena_eq {p : Path} (found : view p = some (lp, cs)) :
    view.arena p = some cs := by
  simp [View.arena, found]

/-- What stands in a guarded rest may ask for what came before it. -/
theorem flags_le (h : Code D view lp tail chain (.after x' s' rest) cs x s used) :
    (x' = true → x = true) ∧ (s' = true → s = true) := by
  cases h with
  | unguarded => simp
  | guarded | dropped => simp +contextual

/-- The markers that code may change. -/
def Tags (lp : Option Path) (chain : Option String) (x s : Bool) (used : List Path)
    (tag : String) : Prop :=
  chain = some tag ∨
    (∃ p ∈ used, tag = chainTag p ∨ tag = exitTag p ∨ tag = roundTag p) ∨
    ∃ w, lp = some w ∧ (x = true ∧ tag = exitTag w ∨ s = true ∧ tag = roundTag w)

theorem Tags.mono {chain' : Option String} (h : Tags lp chain' x' s' used' tag)
    (chained : ∀ t, chain' = some t → Tags lp chain x s used t) (exits : x' = true → x = true)
    (skips : s' = true → s = true) (subset : used' ⊆ used) : Tags lp chain x s used tag := by
  rcases h with h | ⟨p, mem, h⟩ | ⟨w, hw, h⟩
  · exact chained tag h
  · exact .inr (.inl ⟨p, subset mem, h⟩)
  · exact .inr (.inr ⟨w, hw, h.imp (And.imp_left exits) (And.imp_left skips)⟩)

/-- The markers of a loop belong to its body. -/
theorem Tags.of_loop (h : Tags (some block) none x' s' used' tag) (mem : block ∈ used)
    (subset : used' ⊆ used) : Tags lp chain x s used tag := by
  rcases h with none | ⟨p, mem, h⟩ | ⟨w, hw, h⟩
  · cases none
  · exact .inr (.inl ⟨p, subset mem, h⟩)
  · cases hw
    exact .inr (.inl ⟨block, mem, .inr (h.imp And.right And.right)⟩)

theorem Tags.chainTag (mem : block ∈ used) : Tags lp chain x s used (chainTag block) :=
  .inr (.inl ⟨block, mem, .inl rfl⟩)

theorem Tags.exitTag (mem : block ∈ used) : Tags lp chain x s used (exitTag block) :=
  .inr (.inl ⟨block, mem, .inr (.inl rfl)⟩)

theorem Tags.roundTag (mem : block ∈ used) : Tags lp chain x s used (roundTag block) :=
  .inr (.inl ⟨block, mem, .inr (.inr rfl)⟩)

/-- A text whose statement becomes user commands. -/
def Quiet (D : Dialect) (text : String) : Prop :=
  ∀ cs, D.emits text cs → ∀ c ∈ cs, c.isUser = true

section Lists

variable {tags : String → Prop} {paths : Path → Prop} {as bs : List Command}

/-- All commands of a list are confined. -/
def AllConfined (tags : String → Prop) (paths : Path → Prop) (cs : List Command) : Prop :=
  ∀ c ∈ cs, Confined tags paths c

@[simp]
theorem allConfined_nil : AllConfined tags paths [] := nofun

@[simp]
theorem allConfined_cons {c : Command} :
    AllConfined tags paths (c :: cs) ↔ Confined tags paths c ∧ AllConfined tags paths cs :=
  List.forall_mem_cons

@[simp]
theorem allConfined_append :
    AllConfined tags paths (as ++ bs) ↔ AllConfined tags paths as ∧ AllConfined tags paths bs :=
  List.forall_mem_append

theorem allConfined_of_isUser (h : ∀ c ∈ cs, c.isUser = true) : AllConfined tags paths cs :=
  fun c mem => .of_isUser (h c mem)

theorem allConfined_front (h : tags tag) : AllConfined tags paths (front tag rest) := by
  unfold front
  split <;> simp [Confined, h]

theorem allConfined_killMarkers (exits : tags (exitTag block))
    (skips : tags (roundTag block)) :
    AllConfined tags paths (Loop.killMarkers block x s) := by
  cases x <;> cases s <;> simp [Loop.killMarkers, Confined, exits, skips]

theorem allConfined_roundStart (h : tags (roundTag block)) :
    AllConfined tags paths (roundStart block s) := by
  unfold roundStart
  split <;> simp [Confined, h]

theorem allConfined_roundAgain {pending : List Command} (user : ∀ c ∈ pending, c.isUser = true)
    (h : paths block) : AllConfined tags paths (roundAgain block pending header s) := by
  unfold roundAgain
  split <;> simp [Confined, h, allConfined_of_isUser user]

end Lists

/-- Code without calls of definitions is confined, and so are the commands of its routines. -/
theorem confined (h : Code D view lp tail chain piece cs x s used)
    (quiet : ∀ text ∈ piece.script.plains, Quiet D text) (tags : String → Prop)
    (paths : Path → Prop) (htags : ∀ tag, Tags lp chain x s used tag → tags tag)
    (hpaths : ∀ p ∈ used, paths p) (htail : ∀ x s, AllConfined tags paths (tail x s)) :
    AllConfined tags paths cs ∧
      ∀ p ∈ used, ∀ entry, view p = some entry → AllConfined tags paths entry.2 := by
  -- the routine of a block, the routines in it and the routines after it
  have split {block : Path} {used' used : List Path} {entry : Option Path × List Command}
      (found : view block = some entry) (here : AllConfined tags paths entry.2)
      (inside : ∀ p ∈ used', ∀ entry, view p = some entry → AllConfined tags paths entry.2)
      (after : ∀ p ∈ used, ∀ entry, view p = some entry → AllConfined tags paths entry.2) :
      ∀ p ∈ block :: used' ++ used, ∀ entry, view p = some entry →
        AllConfined tags paths entry.2 := by
    intro p mem entry' found'
    rcases List.mem_append.1 mem with mem | mem
    · rcases List.mem_cons.1 mem with rfl | mem
      · rw [found] at found'
        cases found'
        exact here
      · exact inside p mem entry' found'
    · exact after p mem entry' found'
  have nothing : ∀ x s, AllConfined tags paths (noTail x s) := by simp [noTail]
  induction h with
  | done => exact ⟨htail _ _, by simp⟩
  | plain emits _ ih =>
    obtain ⟨text, quiet⟩ := List.forall_mem_cons.1 quiet
    obtain ⟨here, inner⟩ := ih quiet
      (fun tag h => htags tag (h.mono nofun id id (List.Subset.refl _))) hpaths htail
    exact ⟨allConfined_append.2 ⟨allConfined_of_isUser (text _ emits), here⟩, inner⟩
  | define _ ih =>
    exact ih quiet (fun tag h => htags tag (h.mono nofun id id (List.Subset.refl _))) hpaths
      htail
  | @branch _ _ _ _ _ _ block _ opening _ _ _ _ _ _ _ _ _ tests _ found _ opens after ihInside
      ihAfter =>
    obtain ⟨quietBody, quietRest⟩ := List.forall_mem_append.1 quiet
    obtain ⟨exits, skips⟩ := flags_le after
    have own : tags (chainTag block) := htags _ (Tags.chainTag (by simp))
    obtain ⟨hinner, hblocks⟩ := ihInside quietBody
      (fun tag h => htags tag (h.mono nofun exits skips (by intro p mem; simp [mem])))
      (fun p mem => hpaths p (by simp [mem])) nothing
    obtain ⟨hafter, hblocks'⟩ := ihAfter quietRest
      (fun tag h => htags tag (h.mono
        (by
          rintro t ⟨⟩
          exact Tags.chainTag (by simp)) id id (by intro p mem; simp [mem])))
      (fun p mem => hpaths p (by simp [mem])) htail
    refine ⟨?_, split found (by simp [allConfined_front own, hinner]) hblocks hblocks'⟩
    have opened : AllConfined tags paths opening := by
      rcases opens with rfl | ⟨rfl, _⟩ <;> simp [Confined, own]
    have calls : paths block := hpaths block (by simp)
    simp [opened, allConfined_of_isUser (D.isUser_of_tests tests), Confined, calls, hafter]
  | @otherwise _ _ tag _ _ _ block _ closing _ _ _ _ _ _ _ _ _ tests _ found _ closes after ihInside
      ihAfter =>
    obtain ⟨quietBody, quietRest⟩ := List.forall_mem_append.1 quiet
    obtain ⟨exits, skips⟩ := flags_le after
    have own : tags tag := htags _ (.inl rfl)
    obtain ⟨hinner, hblocks⟩ := ihInside quietBody
      (fun tag h => htags tag (h.mono nofun exits skips (by intro p mem; simp [mem])))
      (fun p mem => hpaths p (by simp [mem])) nothing
    obtain ⟨hafter, hblocks'⟩ := ihAfter quietRest
      (fun tag h => htags tag (h.mono (fun t ht => .inl ht) id id (by intro p mem; simp [mem])))
      (fun p mem => hpaths p (by simp [mem])) htail
    refine ⟨?_, split found (by simp [allConfined_front own, hinner]) hblocks hblocks'⟩
    have closed : AllConfined tags paths closing := by
      rcases closes with rfl | ⟨rfl, _⟩ <;> simp [Confined, own]
    have calls : paths block := hpaths block (by simp)
    simp [closed, allConfined_of_isUser (D.isUser_of_tests tests), Confined, calls, hafter]
  | @times _ _ _ _ _ _ block _ _ _ _ _ _ _ _ _ found _ ihInside ihAfter =>
    obtain ⟨quietBody, quietRest⟩ := List.forall_mem_append.1 quiet
    obtain ⟨hinner, hblocks⟩ := ihInside quietBody
      (fun tag h => htags tag (h.of_loop (by simp) (by intro p mem; simp [mem])))
      (fun p mem => hpaths p (by simp [mem])) nothing
    obtain ⟨hafter, hblocks'⟩ := ihAfter quietRest
      (fun tag h => htags tag (h.mono nofun id id (by intro p mem; simp [mem])))
      (fun p mem => hpaths p (by simp [mem])) htail
    have exits : tags (exitTag block) := htags _ (Tags.exitTag (by simp))
    have skips : tags (roundTag block) := htags _ (Tags.roundTag (by simp))
    have calls : paths block := hpaths block (by simp)
    refine ⟨?_, split found (by simp [allConfined_roundStart skips, hinner]) hblocks hblocks'⟩
    refine allConfined_append.2 ⟨?_, allConfined_append.2
      ⟨allConfined_killMarkers exits skips, hafter⟩⟩
    intro c mem
    rw [List.eq_of_mem_replicate mem]
    exact calls
  | @loop _ _ _ _ _ _ _ block _ _ _ _ _ _ _ _ _ _ tests _ found _ ihInside ihAfter =>
    obtain ⟨quietBody, quietRest⟩ := List.forall_mem_append.1 quiet
    have user := D.isUser_of_tests tests
    have exits : tags (exitTag block) := htags _ (Tags.exitTag (by simp))
    have skips : tags (roundTag block) := htags _ (Tags.roundTag (by simp))
    have calls : paths block := hpaths block (by simp)
    obtain ⟨hinner, hblocks⟩ := ihInside quietBody
      (fun tag h => htags tag (h.of_loop (by simp) (by intro p mem; simp [mem])))
      (fun p mem => hpaths p (by simp [mem]))
      (fun _ _ => by simp [loopTail, allConfined_of_isUser user, Confined, calls])
    obtain ⟨hafter, hblocks'⟩ := ihAfter quietRest
      (fun tag h => htags tag (h.mono nofun id id (by intro p mem; simp [mem])))
      (fun p mem => hpaths p (by simp [mem])) htail
    refine ⟨?_, split found ?_ hblocks hblocks'⟩
    · simp [allConfined_of_isUser user, Confined, calls, allConfined_killMarkers exits skips,
        hafter]
    · simp [allConfined_roundStart skips, hinner, allConfined_roundAgain user calls]
  | exit =>
    have asks := htags _ (.inr (.inr ⟨_, rfl, .inl ⟨rfl, rfl⟩⟩))
    exact ⟨allConfined_cons.2 ⟨asks, htail _ _⟩, by simp⟩
  | next =>
    have asks := htags _ (.inr (.inr ⟨_, rfl, .inr ⟨rfl, rfl⟩⟩))
    exact ⟨allConfined_cons.2 ⟨asks, htail _ _⟩, by simp⟩
  | unguarded _ ih => exact ih quiet htags hpaths htail
  | @guarded _ _ _ _ guard _ _ _ _ _ used found _ ih =>
    obtain ⟨hinner, hblocks⟩ := ih quiet
      (fun tag h => htags tag (h.mono (fun t ht => .inl ht) (by simp +contextual)
        (by simp +contextual) (by intro p mem; simp [mem])))
      (fun p mem => hpaths p (by simp [mem])) htail
    refine ⟨by simp [Confined, hpaths guard (by simp)], ?_⟩
    have all := @split guard used [] _ found hinner hblocks (by simp)
    simpa using all
  | @dropped _ _ _ _ guard _ _ _ _ used found _ ih =>
    obtain ⟨hinner, hblocks⟩ := ih quiet
      (fun tag h => htags tag (h.mono (fun t ht => .inl ht) (by simp +contextual)
        (by simp +contextual) (by intro p mem; simp [mem])))
      (fun p mem => hpaths p (by simp [mem])) nothing
    refine ⟨htail _ _, ?_⟩
    have all := @split guard used [] _ found hinner hblocks (by simp)
    simpa using all

/-- What a run of code without calls of definitions enters and which markers it leaves alone. -/
theorem frame {a : State σ} {log : List Path} {out : Option (State σ)}
    (code : Code D view lp noTail none piece cs x s used)
    (quiet : ∀ text ∈ piece.script.plains, Quiet D text) (run : Runs view.arena fx cs a log out) :
    (∀ p ∈ log, p ∈ used) ∧ ∀ b, out = some b → ∀ tag, ¬ Tags lp none x s used tag →
      (tag ∈ b.markers ↔ tag ∈ a.markers) := by
  obtain ⟨here, inner⟩ := code.confined quiet (Tags lp none x s used) (· ∈ used) (fun _ h => h)
    (fun _ h => h) (by simp [noTail])
  refine run.frame ?_ here
  intro p mem cs found
  rw [View.arena, Option.map_eq_some_iff] at found
  obtain ⟨entry, found, rfl⟩ := found
  exact inner p mem entry found

/-- The marker of a chain is not touched by code with other routines. -/
theorem not_tags_chainTag {q : Path} (apart : ∀ p ∈ used, chainTag p ≠ chainTag q) :
    ¬ Tags lp none x s used (chainTag q) := by
  rintro (none | ⟨p, mem, same | same | same⟩ | ⟨w, _, ⟨_, same⟩ | ⟨_, same⟩⟩)
  · cases none
  · exact apart p mem same.symm
  · exact chainTag_ne_exitTag _ _ same
  · exact chainTag_ne_roundTag _ _ same
  · exact chainTag_ne_exitTag _ _ same
  · exact chainTag_ne_roundTag _ _ same

end Code

end CommandPack
