import CommandPack.Proofs.Linking.Ordering

/-!
# Linked lines keep actions

A line that linking is finished with does what the line that it comes from was to do. What a line
is rewritten to depends on the lines at the start alone, so this goes by the rounds of rewriting,
and it holds of the lines of every routine that has been linked.
-/

namespace CommandPack

open Linking CallMark Shield

variable {context text : String} {mark : CallMark}

/-! ### What is linked -/

/-- What a line of a compiled workspace does. -/
def Instr.ofMarked (line : String) : Instr Path :=
  if isInert line then
    .quiet
  else
    match find? line with
    | some found => .call found.before found.mark.target
    | none => .act "" line

/-- The lines that the compiler writes: they have no mark, or one mark at the end behind a
context. -/
def CallMark.Shaped (line : String) : Prop :=
  Unmarked line ∨
    ∃ context mark, line = context ++ render mark ∧ IsContext context ∧ mark.target.Plain

/-- The routines of a workspace before linking. -/
def Workspace.marked (ws : Workspace) : Listing Path := fun path =>
  (ws.routines.get? path).map fun r => (ws.linesOf r).map Instr.ofMarked

/-- A workspace that can be linked line by line. -/
structure Workspace.Linkable (ws : Workspace) : Prop where
  unmarkedPack : Unmarked ws.settings.pack
  unshieldedPack : '\x01' ∉ Text.chars ws.settings.pack
  keyed {path : Path} {r : Routine} : ws.routines.get? path = some r → r.path = path
  plain {path : Path} {r : Routine} : ws.routines.get? path = some r → path.Plain
  plainLoad : ws.loadPath.Plain
  untemplated {path : Path} {r : Routine} : ws.routines.get? path = some r → r.template = none
  shaped {path : Path} {r : Routine} : ws.routines.get? path = some r →
    ∀ line ∈ ws.linesOf r, Shaped line
  /-- Taking the shields away makes no line inert. -/
  steady {path : Path} {r : Routine} : ws.routines.get? path = some r →
    ∀ line ∈ ws.linesOf r, isInert (remove line) = isInert line
  artifacts : (ws.routines.keys.map Path.artifact).Nodup

/-- The routines that a state of linking keeps in the pack. -/
def LinkState.Kept (st : LinkState) (path : Path) : Prop :=
  ∃ r, st.ws.routines.get? path = some r ∧ r.used = true ∧ r.commands ≠ []

/-! ### Lines -/

section Lines

variable {ws : Workspace} {line pack : String} {code : Listing Path} {kept : Path → Prop}

/-- What comes instead of the mark of an inert line leaves the line inert. -/
theorem Linking.isInert_of_find? {found : Found}
    (marked : find? line = some found) (inert : isInert line = true) (rest : String) :
    isInert (found.before ++ rest) = true := by
  obtain ⟨after, same⟩ := chars_of_find? marked
  obtain ⟨text, hash⟩ := isInert_iff.1 inert
  rw [same] at hash
  refine isInert_iff.2 ?_
  cases hbefore : Text.chars found.before with
  | nil =>
    rw [hbefore] at hash
    cases hash
  | cons =>
    rw [hbefore, List.cons_append] at hash
    rw [Text.chars_append, hbefore, (List.cons.inj hash).1]
    exact ⟨_, rfl⟩

/-- A line without marks does what it is to do. -/
theorem Resolved.of_unmarked (unmarked : Unmarked line)
    (steady : isInert (remove line) = isInert line) :
    Resolved pack code kept line (.ofMarked line) := by
  unfold Instr.ofMarked
  split
  · next inert => exact ⟨.quiet, .quiet, .of_inert inert unmarked⟩
  · next active =>
    rw [find?_of_unmarked unmarked]
    have reads : ReadsNamed pack (remove "" ++ remove line)
        (.act (remove "") (remove line)) := by
      refine .command ?_
      rw [← remove_append, String.empty_append, steady]
      exact Bool.eq_false_iff.2 active
    rw [← remove_append, String.empty_append] at reads
    exact ⟨_, .act, reads, nofun, unmarked⟩

/-- A call that is not made has no mark. -/
theorem CallMark.unmarked_skipped (unmarked : Unmarked line) : Unmarked (skipped line) := by
  have isContext : IsContext "# skipped empty call: " := by decide
  have same : skipped line = "# skipped empty call: " ++ line := by
    rw [skipped, inertText]
    rfl
  rw [same]
  exact isContext.unmarked_append unmarked

/-- What comes instead of a mark does what the line was to do. -/
theorem Resolved.placed {out : Instr String} (isContext : IsContext context)
    (plain : mark.target.Plain) (unmarked : Unmarked text)
    (inlined : Inlined remove Path.artifact code kept (.call context mark.target) out)
    (settled : isInert (context ++ mark.render) = false → Settled pack (context ++ text) out) :
    Resolved pack code kept (context ++ text) (.ofMarked (context ++ mark.render)) := by
  have marked := find?_render isContext plain
  unfold Instr.ofMarked
  split
  · next inert =>
    exact ⟨.quiet, .quiet, .of_inert (isInert_of_find? marked inert text)
      (isContext.unmarked_append unmarked)⟩
  · next active =>
    rw [marked]
    exact ⟨out, inlined, settled (Bool.eq_false_iff.2 active)⟩

/-- A call of a routine that does nothing. -/
theorem Resolved.skipped (isContext : IsContext context) (plain : mark.target.Plain)
    (unmarked : Unmarked text)
    (silent : Inlined remove Path.artifact code kept (.call context mark.target) .quiet) :
    Resolved pack code kept (Linking.skipped text) (.ofMarked (context ++ mark.render)) := by
  refine ⟨.quiet, ?_, .of_inert (isInert_skipped _) (unmarked_skipped unmarked)⟩
  unfold Instr.ofMarked
  split
  · exact .quiet
  · rw [find?_render isContext plain]
    exact silent

namespace Workspace

/-- The instructions of a routine are those of its lines. -/
theorem marked_of_code {path : Path} {lines : List String} (h : ws.code path = some lines) :
    ws.marked path = some (lines.map .ofMarked) := by
  obtain ⟨r, found, rfl⟩ := code_eq_some h
  rw [marked, found, Option.map_some]

/-- What a line is rewritten to does what the line is to do. -/
theorem Linkable.resolved (linkable : ws.Linkable) {rounds : Nat} {out : Rewritten}
    (shaped : Shaped line) (steady : isInert (remove line) = isInert line)
    (given : Linking.rewrite ws.settings.pack ws.code rounds line = some out) :
    Resolved ws.settings.pack ws.marked (out.kept = some ·) out.line (.ofMarked line) := by
  induction rounds generalizing line out with
  | zero => cases given
  | succ _ ih =>
    rcases shaped with unmarked | ⟨context, mark, rfl, isContext, plain⟩
    · have none := find?_of_unmarked unmarked
      cases rewrite_succ.1 given with
      | plain => exact .of_unmarked unmarked steady
      | empty marked => cases none.symm.trans marked
      | single marked => cases none.symm.trans marked
      | call marked => cases none.symm.trans marked
    · have marked := find?_render isContext plain
      have called := unmarked_callText linkable.unmarkedPack plain
      have skips := isContext.unmarked_append called
      cases rewrite_succ.1 given with
      | plain settled => cases settled.unmarked.symm.trans marked
      | empty marked' _ lines =>
        cases marked.symm.trans marked'
        rw [Found.calling, String.append_empty]
        exact .skipped isContext plain skips (.empty (marked_of_code lines))
      | @single _ single _ marked' _ lines inside =>
        cases marked.symm.trans marked'
        obtain ⟨r, found, same⟩ := code_eq_some lines
        have mem : single ∈ ws.linesOf r := same ▸ .head _
        obtain ⟨out, inlined, settled⟩ :=
          ih (linkable.shaped found _ mem) (linkable.steady found _ mem) inside
        unfold Found.inlining
        split
        · next inert =>
          rw [settled.eq_quiet inert] at inlined
          rw [Found.calling, String.append_empty]
          exact .skipped isContext plain skips (.single (marked_of_code lines) inlined)
        · next active =>
          rw [String.append_empty]
          refine .placed isContext plain settled.unmarked (.single (marked_of_code lines) inlined) ?_
          exact fun activeLine =>
            settled.under isContext (steady.trans activeLine) (Bool.eq_false_iff.2 active)
      | call marked' =>
        cases marked.symm.trans marked'
        rw [Found.calling, String.append_empty]
        refine .placed isContext plain called (.call rfl) fun activeLine => ?_
        exact .call isContext (steady.trans activeLine) linkable.unmarkedPack
          linkable.unshieldedPack plain

theorem Linkable.settles (linkable : ws.Linkable) : ws.Settles where
  keyed := linkable.keyed
  untemplated := linkable.untemplated
  unmarked found line mem _ given := by
    obtain ⟨_, -, settled⟩ :=
      linkable.resolved (linkable.shaped found line mem) (linkable.steady found line mem) given
    exact find?_of_unmarked settled.unmarked

end Workspace

end Lines

/-! ### Runs -/

namespace Linking.Mirrors

variable {ws : Workspace} {st : LinkState} {path : Path} {r : Routine}

/-- When nothing waits any more, the lines of a used routine do what they are to do. -/
theorem resolved (h : Mirrors ws (fun _ => False) st) (linkable : ws.Linkable)
    (done : st.queue = []) (found : st.ws.routines.get? path = some r) (used : r.used = true) :
    ∃ body, ws.marked path = some body ∧
      List.Forall₂ (Resolved ws.settings.pack ws.marked st.Kept) (ws.linesOf r) body := by
  have visited : path ∈ st.visited := ((h.used found).1 used).resolve_right (by simp [done])
  obtain ⟨lines, outs, hlines, rewritten, same, kept⟩ := h.linked visited not_false
  refine ⟨_, Workspace.marked_of_code hlines, ?_⟩
  rw [code_eq_of_get? found, h.based.settings] at same
  obtain ⟨r₀, registered, rfl⟩ := Workspace.code_eq_some hlines
  rw [Workspace.linesOf, Option.some.inj same, List.forall₂_map_left_iff,
    List.forall₂_map_right_iff, List.forall₂_iff_get]
  obtain ⟨length, each⟩ := List.forall₂_iff_get.1 rewritten
  refine ⟨length.symm, fun i hout hline => ?_⟩
  have mem := List.get_mem (ws.linesOf r₀) ⟨i, hline⟩
  have given := each i hline hout
  refine (linkable.resolved (linkable.shaped registered _ mem)
    (linkable.steady registered _ mem) given).mono fun target isKept => ?_
  obtain ⟨_, hlines, several⟩ := several_of_rewrite given isKept
  obtain ⟨r', found', count⟩ := h.get?_of_lines hlines
  exact ⟨r', found', (h.used found').2 (kept _ (List.get_mem _ _) target isKept),
    List.ne_nil_of_length_pos (by omega)⟩

end Linking.Mirrors

end CommandPack
