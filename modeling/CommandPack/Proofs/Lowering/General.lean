import CommandPack.Proofs.ElseChain
import CommandPack.Proofs.Lowering.Program
import CommandPack.Proofs.Text.Pieces

/-!
# Programs of all kinds

What holds of the code of every program: its headers ask only about the user state, and only a
statement that names a definition calls one. This is enough to say how `else` chains run.
-/

namespace CommandPack

open BodyM Statement

variable {self : Routine} {ws : Workspace} {text : String}

/-! ### Calls -/

/-- A line that may call a definition: nothing else decides its form, and its leading word ends in
the name of a definition. -/
def Statement.MayCall (lines : List Line) (text : String) : Prop :=
  form text = .ok (.command (Text.trim text)) ∧
    ∃ line ∈ lines, (splitHead line.text).1 = "def" ∧
      ∃ signature, Signature.parse line.text = .ok signature ∧
        (Path.parse (splitHead (Text.trim text)).1).leaf = signature.name

/-- Without calls effects add user commands only. -/
theorem Effects.isUser {source : String → Prop} {calls : Prop} {start stop : Body × Workspace}
    (h : Effects self source calls start stop) (noCalls : ¬ calls) :
    ∃ added, stop.1.commands = start.1.commands ++ added ∧ ∀ c ∈ added, c.isUser = true := by
  induction h with
  | refl => exact ⟨[], by simp, by simp⟩
  | tail _ effect ih =>
    obtain ⟨added, commands, user⟩ := ih
    cases effect with
    | @emit _ _ command emission =>
      refine ⟨added ++ [command], by rw [← List.append_assoc, ← commands], ?_⟩
      intro c mem
      rcases List.mem_append.1 mem with mem | mem
      · exact user c mem
      · rw [List.mem_singleton.1 mem]
        cases emission with
        | call allowed => exact absurd allowed noCalls
        | _ => rfl
    | _ => exact ⟨added, commands, user⟩

/-- A header adds user commands before itself and asks nothing about markers. -/
theorem Condition.header_user {body body' : Body} {ws' : Workspace} {clauses : List Clause}
    (noPending : body.pending = [])
    (h : Gives (Condition.header self.path text) body ws clauses body' ws') :
    (∀ c ∈ body'.pending, c.isUser = true) ∧
      ∀ c ∈ clauses, Machine.isMarkerTest c = false := by
  obtain ⟨_, waiting, checked⟩ :
      Effects self (fun _ => True) False (body, ws) (body', ws') ∧ _ ∧ _ :=
    Condition.effects_header (fun _ _ => trivial) h
  obtain ⟨added, hbody, combines⟩ := waiting.body
  refine ⟨fun c mem => ?_, fun c mem => ?_⟩
  · change body' = _ at hbody
    rw [hbody] at mem
    simp only [noPending, List.nil_append] at mem
    obtain ⟨target, op, source, rfl⟩ := combines c mem
    rfl
  · cases checked c mem with
    | words | score => rfl

/-- Plain statements become user commands unless they may call, and headers are those of the
compiler. -/
def Dialect.general (pack : String) (lines : List Line) : Dialect where
  pack := pack
  emits text cs := MayCall lines text ∨ ∀ c ∈ cs, c.isUser = true
  tests text pending clauses := ∃ (self : Routine) (body body' : Body) (ws ws' : Workspace),
    body.pending = [] ∧ body'.pending = pending ∧
      Gives (Condition.header self.path text) body ws clauses body' ws'
  isUser_of_tests := by
    rintro text pending clauses ⟨self, body, body', ws, ws', noPending, rfl, given⟩
    exact (Condition.header_user noPending given).1
  unmarked_of_tests := by
    rintro text pending clauses ⟨self, body, body', ws, ws', noPending, rfl, given⟩
    exact (Condition.header_user noPending given).2

/-! ### The regime -/

/-- Every definition comes from a line. -/
structure Workspace.Listed (pack : String) (lines : List Line) (ws : Workspace) : Prop where
  pack : ws.settings.pack = pack
  sameLines : ws.lines = lines
  listed {q : Path} {r : Routine} : ws.routines.get? q = some r → r.kind = .defined →
    ∃ line ∈ lines, (splitHead line.text).1 = "def" ∧
      ∃ signature, Signature.parse line.text = .ok signature ∧ q.leaf = signature.name

namespace Workspace.Listed

variable {pack : String} {lines : List Line} {ws ws' : Workspace}

theorem of_routines (h : ws.Listed pack lines) (routines : ws'.routines = ws.routines)
    (sameLines : ws'.lines = ws.lines) (settings : ws'.settings = ws.settings) :
    ws'.Listed pack lines where
  pack := by rw [settings, h.pack]
  sameLines := sameLines.trans h.sameLines
  listed {q r} found defined := h.listed (routines ▸ found) defined

/-- A name that stands for a definition ends in the name of one. -/
theorem mayCall (h : ws.Listed pack lines) {scope callee : Path}
    (form : form text = .ok (.command (Text.trim text)))
    (resolved : ws.resolveFunction? scope (splitHead (Text.trim text)).1 = some callee) :
    MayCall lines text := by
  have defined := Workspace.isDefined_of_resolveFunction? resolved
  unfold Workspace.resolveFunction? at resolved
  split at resolved
  · cases resolved
  · obtain ⟨dotted, candidate, rfl⟩ := List.mem_map.1 (List.mem_of_find?_eq_some resolved)
    obtain ⟨segments, _, rfl⟩ := List.mem_map.1 candidate
    obtain ⟨r, found, kind⟩ := Workspace.isDefined_iff.1 defined
    obtain ⟨line, mem, isDef, signature, parsed, name⟩ := h.listed found kind
    rw [Path.leaf_parse_qualify] at name
    exact ⟨form, line, mem, isDef, signature, parsed, name⟩

/-- The definitions of lines are listed. -/
theorem registered (h : ws.Listed pack lines) {own : List (Nat × Line)}
    (subset : ∀ d ∈ own, d.2 ∈ lines ∧ d.2.defines)
    (registered : Definition.Registered self own ws ws') : ws'.Listed pack lines := by
  induction registered with
  | nil => exact h
  | @cons i line _ ws _ signature parsed _ _ ih =>
    obtain ⟨sameLines, settings, _⟩ := Definition.entered_kept self i signature ws
    obtain ⟨mem, isDef⟩ := subset _ (.head _)
    refine ih ⟨by rw [settings, h.pack], sameLines.trans h.sameLines, fun {q r} found defined => ?_⟩
      fun d mem => subset d (.tail _ mem)
    rw [Definition.entered, Table.get?_insert] at found
    split at found
    · next same =>
      refine ⟨line, mem, isDef, signature, parsed, ?_⟩
      rw [same]
      simp [Path.leaf, Path.child]
    · exact h.listed found defined

end Workspace.Listed

/-- Every program compiles to code in the general dialect. -/
def Regime.general (pack : String) (lines : List Line) : Regime where
  dialect := .general pack lines
  Holds := Workspace.Listed pack lines
  Text _ := True
  Test _ := True
  pack h := h.pack
  stable h _ sameLines settings origins := by
    refine ⟨by rw [settings, h.pack], sameLines.trans h.sameLines, fun {q r'} found defined => ?_⟩
    rcases origins q r' found with ⟨r, old, same⟩ | ⟨isBlock, _, _⟩
    · exact h.listed old ((Routine.kind_of_origin same).symm.trans defined)
    · rw [defined] at isBlock
      cases isBlock
  plain := by
    intro compile self site st body body' ws ws' text u _ h parsed plain given
    have effects := Lowering.statement_effects parsed plain given
    have kept := effects.kept
    have holds := h.of_routines kept.routines kept.lines kept.settings
    rcases form_of_classify parsed with form | ⟨⟨callee, resolved, _⟩, form⟩
    · obtain ⟨added, commands, user⟩ := effects.isUser (by
        rintro ⟨callee, arguments, rfl⟩
        exact form_ne_call form)
      exact ⟨holds, added, commands, .inr user⟩
    · obtain ⟨added, commands⟩ := kept.commands
      exact ⟨holds, added, commands, .inl (h.mayCall form resolved)⟩
  header := by
    intro self body body' ws ws' text clauses _ _ noPending given
    exact ⟨self, body, body', ws, ws', noPending, rfl, given⟩
  enter {ws path self} h _ := by
    obtain ⟨routines, sameLines, settings⟩ := Lowering.bindParams_kept self ws
    exact h.of_routines routines sameLines settings
  scan {ws ws' self index u} h given := by
    refine h.registered (fun d mem => ?_) (Definition.registered given)
    obtain ⟨own, defines⟩ := List.mem_filter.1 mem
    rw [← h.sameLines]
    exact ⟨List.mem_of_mem_drop (Block.mem_of_mem_own own), of_decide_eq_true defines⟩
  release {ws locals} h := by
    obtain ⟨routines, sameLines, settings⟩ := Lowering.releaseLocals_kept locals ws
    exact h.of_routines routines sameLines settings

/-- Nothing is defined at the start. -/
theorem Workspace.Unbuilt.listed_withRoot {settings : Settings} (h : ws.Unbuilt settings) :
    ws.withRoot.Listed settings.pack ws.lines where
  pack := congrArg Settings.pack h.settings
  sameLines := rfl
  listed {q r} found defined := by
    obtain ⟨-, rfl⟩ := h.only_root found
    cases defined

/-! ### Else chains -/

/-- A loop with a chain whose first branch leaves the loop. -/
def Script.leaving : Script :=
  .loop .holds "go"
    (.branch "if a" .exit (.otherwise "if b" (.plain "say b" .done)
      (.otherwise "" (.plain "say c" .done) .done))) .done

end CommandPack
