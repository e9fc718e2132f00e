import CommandPack.Proofs.Linking.Moves

/-!
# Disciplines of linking

Linking writes lines in place of marks and compiles variants. A discipline of compilations that
these two things keep is kept by all of linking: it holds for every line that is linked and at every
line that is compiled for a variant.
-/

namespace CommandPack

open Workspace Linking CallMark

/-- A discipline that linking keeps. -/
structure Discipline.Links (D : Discipline) : Prop where
  /-- The variables that a definition has kept may be declared again. -/
  swap {ws : Workspace} {symbols : Symbols} : D.Holds ws → D.Keeps ws symbols →
    D.Holds { ws with symbols } ∧ D.Leads ws { ws with symbols }
  /-- A call may bring a variant with it. -/
  variant {ws : Workspace} {command : Command} {found : Found} {r : Routine}
    {template : Template} {n : Nat} : D.Sound ws → D.Writes ws command →
    find? (command.render ws.settings.pack) = some found →
    ws.routines.get? found.mark.target = some r → r.template = some template →
    ws.routines.get? (found.mark.target.block .variant n) = none →
    D.Apt (variant r (found.mark.target.block .variant n) found.mark.arguments) ∧
      D.Holds { ws with
        routines := ws.routines.insert (found.mark.target.block .variant n)
          (variant r (found.mark.target.block .variant n) found.mark.arguments) }
  steady {ws : Workspace} {command : Command} : D.Sound ws → D.Writes ws command →
    Steady (command.render ws.settings.pack) →
    D.Writes ws (.text (command.render ws.settings.pack))
  call {ws : Workspace} {command : Command} {found : Found} {target : Path}
    {r : Routine} : D.Sound ws → D.Writes ws command →
    find? (command.render ws.settings.pack) = some found →
    ws.routines.get? target = some r →
    D.Writes ws (.text (found.calling ws.settings.pack target)) ∧
      D.Writes ws (.text (skipped (found.calling ws.settings.pack target)))
  inline {ws : Workspace} {command : Command} {found : Found} {replaced : String} :
    D.Sound ws → D.Writes ws command →
    find? (command.render ws.settings.pack) = some found →
    D.Writes ws (.text replaced) →
    D.Writes ws (.text (found.before ++ replaced ++ found.after))

namespace Discipline

variable {D : Discipline} {st mid st' : LinkState} {ws : Workspace} {visits : List Visit}
  {command : Command} {found : Found} {target : Path}

/-- What a part of linking comes to. -/
structure Linked (D : Discipline) (st : LinkState) (visits : List Visit) (st' : LinkState) :
    Prop where
  sound : D.Sound st'.ws
  visited : ∀ visit ∈ visits, D.Sound visit.ws
  course : D.Course st.ws visits st'.ws

theorem Linked.refl (sound : D.Sound st.ws) : D.Linked st [] st :=
  ⟨sound, List.forall_mem_nil _, .refl _⟩

theorem Linked.trans {visits' : List Visit} (h : D.Linked st visits mid)
    (h' : D.Linked mid visits' st') : D.Linked st (visits ++ visits') st' where
  sound := h'.sound
  visited visit mem := (List.mem_append.1 mem).elim (h.visited visit) (h'.visited visit)
  course := h.course.trans h'.course

theorem Linked.pack (h : D.Linked st visits st') :
    st'.ws.settings.pack = st.ws.settings.pack := by
  rw [h.course.follows.develops.settings]

theorem Linked.writes (h : D.Linked st visits st') (writes : D.Writes st.ws command) :
    D.Writes st'.ws command :=
  h.course.follows.writes writes

/-- A routine is kept. -/
theorem Linked.keep (sound : D.Sound st.ws) (target : Path) :
    D.Linked st [] (st.keeping target) := by
  refine ⟨?_, List.forall_mem_nil _, .done ?_⟩
  · rw [LinkState.ws_keeping]
    exact (sound.of_update target ({ · with used := true }) (fun _ => rfl)
      (fun _ _ kept => .inl kept) fun _ _ mem => .inl mem).2
  · rw [LinkState.ws_keeping]
    exact .update target fun _ => rfl

/-- The linked lines of a routine are stored. -/
theorem Linked.store (sound : D.Sound st.ws) (path : Path) {lines : List String}
    (written : ∀ line ∈ lines, D.Writes st.ws (.text line)) :
    D.Linked st [] (st.storing path lines) := by
  have stored := sound.of_update path ({ · with commands := lines.map .text }) (fun _ => rfl)
    (fun _ _ kept => .inl kept) fun _ command mem => by
      obtain ⟨line, inside, rfl⟩ := List.mem_map.1 mem
      exact .inr (written line inside)
  exact ⟨stored.2, List.forall_mem_nil _, .done (.update path fun _ => rfl)⟩

/-- Other variables are declared. -/
theorem Sound.swap (sound : D.Sound ws) (links : D.Links) {symbols : Symbols}
    (keeps : D.Keeps ws symbols) :
    D.Follows ws { ws with symbols } ∧ D.Sound { ws with symbols } := by
  obtain ⟨holds, leads⟩ := links.swap sound.holds keeps
  have alike : Alike ws { ws with symbols } := .of_routines rfl rfl rfl
  exact ⟨⟨alike.develops, leads⟩, sound.of_routines holds alike leads rfl⟩

/-- A workspace with one more routine that has nothing in it yet. -/
theorem Sound.insert (sound : D.Sound ws) {r : Routine} (free : ws.routines.get? r.path = none)
    (housed : Housed { ws with routines := ws.routines.insert r.path r })
    (holds : D.Holds { ws with routines := ws.routines.insert r.path r })
    (loop : r.loop = none) (template : r.template = none) (commands : r.commands = []) :
    D.Follows ws { ws with routines := ws.routines.insert r.path r } ∧
      D.Sound { ws with routines := ws.routines.insert r.path r } := by
  have follows : D.Follows ws { ws with routines := ws.routines.insert r.path r } :=
    .of_base (Develops.insert free) rfl
  refine ⟨follows, housed, holds, ?_, ?_, ?_⟩
  · intro q inner r' found inside
    rw [Table.get?_insert] at found
    split at found
    · cases found
      rw [loop] at inside
      cases inside
    · obtain ⟨owner, known⟩ := sound.looped found inside
      obtain ⟨owner', known', _⟩ := follows.develops.kept known
      exact ⟨owner', known'⟩
  · intro q r' kept found deferred
    rw [Table.get?_insert] at found
    split at found
    · cases found
      rw [template] at deferred
      cases deferred
    · exact follows.keeps (sound.deferred found deferred)
  · intro q r' found command mem
    rw [Table.get?_insert] at found
    split at found
    · cases found
      rw [commands] at mem
      cases mem
    · exact follows.writes (sound.stored found command mem)

/-- A variant is about to be compiled. -/
theorem Sound.prepared (sound : D.Sound ws) (links : D.Links) (writes : D.Writes ws command)
    (marked : find? (command.render ws.settings.pack) = some found) {r : Routine}
    {template : Template} (known : ws.routines.get? found.mark.target = some r)
    (isTemplate : r.template = some template)
    (free : ws.routines.get? (nextPath found.mark.target template) = none) :
    D.Follows ws (prepared found.mark.target r template found.mark.arguments ws) ∧
      D.Ready (.routine (nextPath found.mark.target template) none)
        ({}, prepared found.mark.target r template found.mark.arguments ws) := by
  let counts (routine : Routine) : Routine :=
    { routine with template := some { template with counter := template.counter + 1 } }
  have kept : D.Keeps ws template.symbols := sound.deferred known isTemplate
  have sound₁ : D.Sound (counted found.mark.target template ws) := by
    refine (sound.of_update found.mark.target counts (fun _ => rfl) ?_ fun _ _ mem => .inl mem).2
    rintro _ _ ⟨⟩
    exact .inr kept
  have follows₁ : D.Follows ws (counted found.mark.target template ws) := .update _ fun _ => rfl
  have known₁ : (counted found.mark.target template ws).routines.get? found.mark.target =
      some (counts r) := by
    rw [get?_counted, known, Option.map_some, if_pos rfl]
  have free₁ : (counted found.mark.target template ws).routines.get?
      (nextPath found.mark.target template) = none := by
    rw [get?_counted, free, Option.map_none]
  obtain ⟨apt, holds⟩ := links.variant sound₁ (follows₁.writes writes) marked known₁ rfl free₁
  obtain ⟨-, housed⟩ := @prepared_housed ws _ found.mark.arguments r template sound.housed known free
  obtain ⟨follows₂, sound₂⟩ := sound₁.insert
    (r := variant r (nextPath found.mark.target template) found.mark.arguments) free₁
    (housed.of_alike (.of_routines rfl rfl rfl)) holds rfl rfl rfl
  have follows₃ := follows₁.trans follows₂
  obtain ⟨follows₄, sound₄⟩ := sound₂.swap links (follows₃.keeps kept)
  refine ⟨follows₃.trans follows₄, by rintro _ ⟨⟩, ⟨fun self own => ?_, nofun⟩, sound₄,
    nofun, nofun, nofun⟩
  rw [get?_prepared, if_pos rfl] at own
  cases own
  exact apt

/-- A mark leads to a routine. -/
theorem Linked.finds (sound : D.Sound st.ws) (links : D.Links) (writes : D.Writes st.ws command)
    (marked : find? (command.render st.ws.settings.pack) = some found)
    (finds : Finds found.mark st visits target mid) : D.Linked st visits mid := by
  cases finds with
  | plain | again => exact .refl sound
  | new _ _ known isTemplate free compiled =>
    obtain ⟨prepares, ready⟩ := sound.prepared links writes marked known isTemplate free
    obtain ⟨sound₁, -, visited, course⟩ := compiled.disciplined D ready
    -- the variables that were declared before are still good
    have course₁ := course.front prepares
    obtain ⟨back, sound₂⟩ := sound₁.swap links (course₁.follows.keeps (D.keeps sound.holds))
    exact ⟨sound₂.record _, visited, course₁.back (back.trans (.record ..))⟩

/-- One line is linked. -/
theorem Linked.resolves (links : D.Links) {line : String} {out : LinkedLine}
    (resolves : Resolves line st visits out st') :
    ∀ command, line = command.render st.ws.settings.pack → D.Sound st.ws →
      D.Writes st.ws command → D.Linked st visits st' ∧ D.Writes st'.ws (.text out.text) := by
  induction resolves with
  | steady steady =>
    rintro command rfl sound writes
    exact ⟨.refl sound, links.steady sound writes steady⟩
  | empty marked finds known =>
    rintro command rfl sound writes
    have linked := Linked.finds sound links writes marked finds
    exact ⟨linked, (links.call linked.sound (linked.writes writes)
      (linked.pack.symm ▸ marked) known).2⟩
  | inert marked finds known commands _ _ ih =>
    rintro command rfl sound writes
    have linked := Linked.finds sound links writes marked finds
    obtain ⟨inside, -⟩ := ih _ rfl linked.sound
      (linked.sound.stored known _ (commands ▸ .head _))
    exact ⟨linked.trans inside, inside.writes (links.call linked.sound (linked.writes writes)
      (linked.pack.symm ▸ marked) known).2⟩
  | single marked finds known commands _ _ ih =>
    rintro command rfl sound writes
    have linked := Linked.finds sound links writes marked finds
    obtain ⟨inside, single⟩ := ih _ rfl linked.sound
      (linked.sound.stored known _ (commands ▸ .head _))
    have whole := linked.trans inside
    exact ⟨whole, links.inline whole.sound (whole.writes writes) (whole.pack.symm ▸ marked) single⟩
  | @call _ _ _ _ _ target _ marked finds known =>
    rintro command rfl sound writes
    have linked := Linked.finds sound links writes marked finds
    have kept := Linked.keep linked.sound target
    have whole := linked.trans kept
    rw [List.append_nil] at whole
    exact ⟨whole, kept.writes (links.call linked.sound (linked.writes writes)
      (linked.pack.symm ▸ marked) known).1⟩

/-- The lines of a routine are linked. -/
theorem Linked.resolvesAll (links : D.Links) {lines : List String} {outs : List LinkedLine}
    (resolves : ResolvesAll lines st visits outs st') :
    ∀ commands : List Command, lines = commands.map (·.render st.ws.settings.pack) →
      D.Sound st.ws → (∀ command ∈ commands, D.Writes st.ws command) →
      D.Linked st visits st' ∧ ∀ line ∈ outs.map LinkedLine.text, D.Writes st'.ws (.text line) := by
  induction resolves with
  | nil =>
    intro commands _ sound _
    exact ⟨.refl sound, List.forall_mem_nil _⟩
  | @cons line _ _ _ _ _ _ _ _ first _ ih =>
    intro commands same sound writes
    obtain ⟨command, commands, rfl, rfl, rfl⟩ := List.map_eq_cons_iff.1 same.symm
    obtain ⟨linked, written⟩ := Linked.resolves links first command rfl sound (writes _ (.head _))
    obtain ⟨linked', written'⟩ := ih commands (by rw [linked.pack]) linked.sound
      fun command mem => linked.writes (writes command (.tail _ mem))
    refine ⟨linked.trans linked', fun line mem => ?_⟩
    rcases List.mem_cons.1 mem with rfl | mem
    · exact linked'.writes written
    · exact written' line mem

/-- Linking keeps a discipline. -/
theorem Linked.rounds (links : D.Links) {rounds : List (Path × List LinkedLine)}
    (ran : Rounds st visits rounds st') : D.Sound st.ws → D.Linked st visits st' := by
  induction ran with
  | done => exact fun sound => .refl sound
  | @next st _ _ path queue r _ _ _ _ _ known resolved _ ih =>
    intro sound
    have taken : D.Linked st [] (st.taking path queue) :=
      ⟨sound, List.forall_mem_nil _, .refl _⟩
    obtain ⟨linked, written⟩ := Linked.resolvesAll links resolved r.commands rfl sound
      (sound.stored known)
    have stored := Linked.store linked.sound path written
    have front := (taken.trans linked).trans stored
    rw [List.append_nil, List.nil_append] at front
    exact front.trans (ih stored.sound)

end Discipline

end CommandPack
