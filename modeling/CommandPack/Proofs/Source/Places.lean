import CommandPack.Linking.Link
import CommandPack.Proofs.Text.Trimmed

/-!
# The places of lines

A line of a workspace knows its source and its number there. So its place, and the place of a line
that cannot be read, point at a line of the sources that has text.
-/

namespace CommandPack

variable {rest : List (String × String)}

/-- A raw line with text that is no comment: it has arguments, and the first one does not start with
`#`. -/
def Line.Significant (raw : String) : Prop :=
  ∃ first rest, Argument.split raw = first :: rest ∧ Text.startsWith "#" first = false

/-- A place with the name of one of the sources, if it has a name, and with the number of a line of
it that has text. Numbers start from one. -/
def Place.PointsInto (sources : List (String × String)) (place : Place) : Prop :=
  ∃ (k : Nat) (name text raw : String), sources[k]? = some (name, text) ∧
    place.source = (if name = "" then none else some name) ∧ 1 ≤ place.line ∧
    (Text.lines text)[place.line - 1]? = some raw ∧ Line.Significant raw

theorem Comment.significant_of_strip {raw content : String}
    (stripped : Comment.strip raw = some content) (some' : content ≠ "") :
    Line.Significant raw := by
  unfold Comment.strip at stripped
  split at stripped
  · cases stripped
    exact absurd rfl some'
  · next first rest split' =>
    split at stripped
    · cases stripped
    · next other => exact ⟨first, rest, split', by simpa using other⟩

namespace Line

variable {unit source number : Nat} {raws : List String} {fault : Fault}

/-- A line that cannot be read is named by its number. -/
theorem placed_of_readNumbered (failed : readNumbered unit source number raws = .error fault) :
    fault.cause = .unknownIndentation ∧ ∃ place k raw, fault.place = some place ∧
      place.source = none ∧ place.line = number + k ∧ raws[k]? = some raw ∧ Significant raw := by
  induction raws generalizing number with
  | nil => cases failed
  | cons first rest ih =>
    have later (failed : readNumbered unit source (number + 1) rest = .error fault) :
        fault.cause = .unknownIndentation ∧ ∃ place k raw, fault.place = some place ∧
          place.source = none ∧ place.line = number + k ∧ (first :: rest)[k]? = some raw ∧
          Significant raw := by
      obtain ⟨cause, place, k, raw, placed, nameless, numbered, at', significant⟩ := ih failed
      exact ⟨cause, place, k + 1, raw, placed, nameless, by omega, by simpa using at', significant⟩
    unfold readNumbered at failed
    split at failed
    · exact later failed
    · exact later failed
    · next content nonempty stripped =>
      split at failed
      · cases failed
        exact ⟨rfl, _, 0, first, rfl, rfl, rfl, rfl,
          Comment.significant_of_strip stripped fun none => nonempty (none ▸ rfl)⟩
      · cases rests : readNumbered unit source (number + 1) rest with
        | error =>
          simp only [rests, Except.map, Except.error.injEq] at failed
          subst failed
          exact later rests
        | ok => simp [rests, Except.map] at failed

end Line

namespace Workspace

variable {ws ws' : Workspace} {sources : List (String × String)} {name text : String}
  {fault : Fault}

/-- The lines of a workspace are lines of the sources. -/
structure Cites (sources : List (String × String)) (ws : Workspace) : Prop where
  names : ws.sources = sources.map Prod.fst
  lines : ∀ line ∈ ws.lines, ∃ name text raw, sources[line.source]? = some (name, text) ∧
    1 ≤ line.number ∧ (Text.lines text)[line.number - 1]? = some raw ∧ Line.Significant raw

theorem Cites.placeAt (h : ws.Cites sources) {i : Nat} (within : i < ws.lines.length) :
    (ws.placeAt i).PointsInto sources := by
  have at' : ws.lines[i]? = some ws.lines[i] := List.getElem?_eq_getElem within
  obtain ⟨name, text, raw, source, positive, numbered, significant⟩ :=
    h.lines _ (List.getElem_mem within)
  rw [Workspace.placeAt, at']
  refine ⟨_, name, text, raw, source, ?_, positive, numbered, significant⟩
  have named : ws.sources[ws.lines[i].source]? = some name := by
    rw [h.names, List.getElem?_map, source, Option.map_some]
  simp only [named, Option.filter_some, decide_eq_true_eq, ne_eq, ite_not]

theorem addSource_eq_ok : ws.addSource name text = .ok ws' ↔
    ∃ lines, Line.read text ws.settings.defaultIndent ws.sources.length = .ok lines ∧
      { ws with lines := ws.lines ++ lines, sources := ws.sources ++ [name] }.record
        (.sourceRead ws.sources.length name lines.length) = ws' := by
  unfold addSource
  cases read : Line.read text ws.settings.defaultIndent ws.sources.length <;> simp [read]

theorem Cites.addSource (h : ws.Cites sources) (added : ws.addSource name text = .ok ws') :
    ws'.Cites (sources ++ [(name, text)]) := by
  obtain ⟨lines, read, rfl⟩ := addSource_eq_ok.1 added
  have length : ws.sources.length = sources.length := by
    rw [h.names, List.length_map]
  refine ⟨by simp [record, h.names], fun line mem => ?_⟩
  rcases List.mem_append.1 mem with old | new
  · obtain ⟨name', text', raw, source, rest⟩ := h.lines line old
    have early := (List.getElem?_eq_some_iff.1 source).1
    exact ⟨name', text', raw, by rw [List.getElem?_append_left early, source], rest⟩
  · obtain ⟨k, raw, content, depth, at', stripped, nonempty, rfl⟩ :=
      (Line.of_readNumbered read).2 line new
    exact ⟨name, text, raw, by simp [length], Nat.le_add_right .., by simpa using at',
      Comment.significant_of_strip stripped nonempty⟩

/-- A source that cannot be read. -/
theorem placed_of_addSource (failed : ws.addSource name text = .error fault) :
    fault.cause = .unknownIndentation ∧ ∃ place k raw, fault.place = some place ∧
      place.source = (if name = "" then none else some name) ∧ place.line = 1 + k ∧
      (Text.lines text)[k]? = some raw ∧ Line.Significant raw := by
  unfold Workspace.addSource at failed
  simp only at failed
  split at failed
  · cases failed
  · next inner unread =>
    cases failed
    obtain ⟨cause, place, k, raw, placed, nameless, rest⟩ := Line.placed_of_readNumbered unread
    refine ⟨cause, _, k, raw, by rw [placed, Option.map_some], ?_, ?_⟩
    · split
      · exact nameless
      · rfl
    · split <;> exact rest

theorem addSources_cons_eq_ok :
    ws.addSources ((name, text) :: rest) = .ok ws' ↔
      ∃ mid, ws.addSource name text = .ok mid ∧ mid.addSources rest = .ok ws' := by
  rw [Workspace.addSources]
  cases ws.addSource name text <;> simp [bind, Except.bind]

theorem Cites.addSources (h : ws.Cites sources) (added : ws.addSources rest = .ok ws') :
    ws'.Cites (sources ++ rest) := by
  induction rest generalizing ws sources with
  | nil =>
    cases added
    rwa [List.append_nil]
  | cons _ _ ih =>
    obtain ⟨mid, first, later⟩ := addSources_cons_eq_ok.1 added
    have cites := ih (h.addSource first) later
    rwa [List.append_assoc, List.singleton_append] at cites

theorem cites_of_addSources {settings : Settings}
    (added : Workspace.addSources { settings } sources = .ok ws) : ws.Cites sources :=
  (⟨rfl, fun _ mem => absurd mem List.not_mem_nil⟩ :
    Cites [] { settings }).addSources added

/-- Sources that cannot be read. -/
theorem pointsInto_of_addSources (failed : ws.addSources rest = .error fault) :
    fault.cause = .unknownIndentation ∧ ∃ place, fault.place = some place ∧
      place.PointsInto rest := by
  induction rest generalizing ws with
  | nil => cases failed
  | cons source _ ih =>
    obtain ⟨name, text⟩ := source
    rw [Workspace.addSources] at failed
    cases first : ws.addSource name text with
    | error =>
      simp only [first, bind, Except.bind, Except.error.injEq] at failed
      subst failed
      obtain ⟨cause, place, k, raw, placed, named, numbered, at', significant⟩ :=
        placed_of_addSource first
      exact ⟨cause, place, placed, 0, name, text, raw, rfl, named, by omega,
        by rw [numbered, Nat.add_sub_cancel_left]; exact at', significant⟩
    | ok =>
      rw [first] at failed
      obtain ⟨cause, place, placed, k, points⟩ := ih failed
      exact ⟨cause, place, placed, k + 1, by simpa using points⟩

/-- No source has more lines than its text. -/
theorem length_addSources (added : ws.addSources rest = .ok ws') :
    ws'.lines.length ≤
      ws.lines.length + (rest.map fun source => (Text.lines source.2).length).sum := by
  induction rest generalizing ws with
  | nil =>
    cases added
    exact Nat.le_add_right ..
  | cons source _ ih =>
    obtain ⟨mid, first, later⟩ := addSources_cons_eq_ok.1 added
    have later := ih later
    have now : mid.lines.length ≤ ws.lines.length + (Text.lines source.2).length := by
      obtain ⟨lines, read, rfl⟩ := addSource_eq_ok.1 first
      simpa [record] using (Line.of_readNumbered read).1
    simp only [List.map_cons, List.sum_cons]
    omega

end Workspace

end CommandPack
