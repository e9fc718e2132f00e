import CommandPack.Proofs.Lowering.Scopes

/-!
# Declarations

Names are declared by entering a body, which declares the parameters of its routine, and by its
statements. Leaving a body removes none but its locals. What a header of a definition says about
parameters is said about its tokens.
-/

namespace CommandPack

open Workspace BodyM Lowering Definition

variable {self : Routine} {ws ws' : Workspace}

namespace Lowering

variable {self : Routine} {ws : Workspace} {path : String}

/-- Entering a body declares its parameters. -/
theorem contains_bindParams : (bindParams self ws).symbols.contains path = true ↔
    path ∈ paramPaths self ∨ ws.symbols.contains path = true := by
  have declared (params : List (String × Kind)) (ws : Workspace) :
      (params.foldl (fun ws param => ws.declare param.1 param.2) ws).symbols.contains path = true ↔
        path ∈ params.map Prod.fst ∨ ws.symbols.contains path = true := by
    induction params generalizing ws with
    | nil => simp
    | cons _ _ ih =>
      rw [List.foldl_cons, ih]
      simp [Workspace.declare, or_left_comm, or_assoc]
  have bound (bindings : List (String × String)) (ws : Workspace) :
      (bindings.foldl (fun ws b => ws.bindString b.1 b.2) ws).symbols.contains path = true ↔
        path ∈ bindings.map Prod.fst ∨ ws.symbols.contains path = true := by
    induction bindings generalizing ws with
    | nil => simp
    | cons _ _ ih =>
      rw [List.foldl_cons, ih]
      simp [Workspace.bindString, or_left_comm, or_assoc]
  unfold bindParams paramPaths
  rw [bound, declared, List.mem_append]
  tauto

/-- The kinds of variables after entering a body. -/
theorem kind?_bindParams {kind : Kind}
    (h : (bindParams self ws).symbols.kind? path = some kind) :
    (kind = .string ∧ path ∈ self.bindings.map Prod.fst) ∨ (path, kind) ∈ declaredParams self ∨
      ws.symbols.kind? path = some kind := by
  have declared (params : List (String × Kind)) (ws : Workspace)
      (h : (params.foldl (fun ws param => ws.declare param.1 param.2) ws).symbols.kind? path =
        some kind) : (path, kind) ∈ params ∨ ws.symbols.kind? path = some kind := by
    induction params generalizing ws with
    | nil => exact .inr h
    | cons _ _ ih =>
      rcases ih _ h with mem | found
      · exact .inl (.tail _ mem)
      · change (ws.symbols.declare ..).kind? path = some kind at found
        rw [Symbols.kind?_declare] at found
        split at found
        · next same =>
          cases found
          exact .inl (same ▸ .head _)
        · exact .inr found
  have bound (bindings : List (String × String)) (ws : Workspace)
      (h : (bindings.foldl (fun ws b => ws.bindString b.1 b.2) ws).symbols.kind? path =
        some kind) :
      (kind = .string ∧ path ∈ bindings.map Prod.fst) ∨ ws.symbols.kind? path = some kind := by
    induction bindings generalizing ws with
    | nil => exact .inr h
    | cons _ _ ih =>
      rcases ih _ h with ⟨string, mem⟩ | found
      · exact .inl ⟨string, .tail _ mem⟩
      · change (ws.symbols.bind ..).kind? path = some kind at found
        rw [Symbols.kind?_bind] at found
        split at found
        · next same =>
          cases found
          exact .inl ⟨rfl, same ▸ .head _⟩
        · exact .inr found
  exact (bound _ _ h).imp_right (declared _ _)

theorem string?_declared (params : List (String × Kind)) (ws : Workspace) :
    (params.foldl (fun ws param => ws.declare param.1 param.2) ws).symbols.string? path =
      ws.symbols.string? path := by
  induction params generalizing ws with
  | nil => rfl
  | cons _ _ ih => exact ih _

/-- The values of variables after entering a body. -/
theorem string?_bindParams {value : String}
    (h : (bindParams self ws).symbols.string? path = some value) :
    (path, value) ∈ self.bindings ∨ ws.symbols.string? path = some value := by
  have bound (bindings : List (String × String)) (ws : Workspace)
      (h : (bindings.foldl (fun ws b => ws.bindString b.1 b.2) ws).symbols.string? path =
        some value) : (path, value) ∈ bindings ∨ ws.symbols.string? path = some value := by
    induction bindings generalizing ws with
    | nil => exact .inr h
    | cons _ _ ih =>
      rcases ih _ h with mem | found
      · exact .inl (.tail _ mem)
      · change (ws.symbols.bind ..).string? path = some value at found
        rw [Symbols.string?_bind] at found
        split at found
        · next same =>
          cases found
          exact .inl (same ▸ .head _)
        · exact .inr found
  exact (bound _ _ h).imp_right fun found => string?_declared _ ws ▸ found

/-- Bindings have values, and entering a body takes none away. -/
theorem isSome_string?_bindParams
    (h : path ∈ self.bindings.map Prod.fst ∨ (ws.symbols.string? path).isSome = true) :
    ((bindParams self ws).symbols.string? path).isSome = true := by
  have bound (bindings : List (String × String)) (ws : Workspace)
      (h : path ∈ bindings.map Prod.fst ∨ (ws.symbols.string? path).isSome = true) :
      ((bindings.foldl (fun ws b => ws.bindString b.1 b.2) ws).symbols.string? path).isSome =
        true := by
    induction bindings generalizing ws with
    | nil => exact h.resolve_left (List.not_mem_nil)
    | cons _ _ ih =>
      refine ih _ ?_
      change _ ∨ ((ws.symbols.bind ..).string? path).isSome = true
      rw [Symbols.string?_bind]
      rw [List.map_cons, List.mem_cons, or_assoc] at h
      rcases h with rfl | mem | found
      · exact .inr (by rw [if_pos rfl]; rfl)
      · exact .inl mem
      · exact .inr (by split <;> simp [found])
  exact bound _ _ (h.imp_right fun found => by rw [string?_declared]; exact found)

/-- Leaving a body takes variables away with their values and leaves all others as they are. -/
theorem symbols_releaseLocals (locals : List String) (ws : Workspace) (path : String) :
    ((releaseLocals ws locals).symbols.kind? path = ws.symbols.kind? path ∧
        (releaseLocals ws locals).symbols.string? path = ws.symbols.string? path) ∨
      ((releaseLocals ws locals).symbols.kind? path = none ∧
        (releaseLocals ws locals).symbols.string? path = none) := by
  unfold releaseLocals
  induction locals generalizing ws with
  | nil => exact .inl ⟨rfl, rfl⟩
  | cons first _ ih =>
    rw [List.foldl_cons]
    split
    · exact ih ws
    · rcases ih (ws.removeSymbol first) with ⟨kind, string⟩ | gone
      · by_cases same : path = first
        · obtain ⟨noKind, noString⟩ : (ws.symbols.remove first).kind? path = none ∧
              (ws.symbols.remove first).string? path = none := same ▸ Symbols.remove_at
          exact .inr ⟨kind.trans noKind, string.trans noString⟩
        · obtain ⟨sameKind, sameString⟩ :=
            @Symbols.remove_other ws.symbols first path same
          exact .inl ⟨kind.trans sameKind, string.trans sameString⟩
      · exact .inr gone

/-- Leaving a body removes none but its locals. -/
theorem contains_releaseLocals {locals : List String} :
    ((releaseLocals ws locals).symbols.contains path = true → ws.symbols.contains path = true) ∧
      (ws.symbols.contains path = true → path ∉ locals →
        (releaseLocals ws locals).symbols.contains path = true) := by
  unfold releaseLocals
  induction locals generalizing ws with
  | nil => exact ⟨id, fun found _ => found⟩
  | cons _ _ ih =>
    rw [List.foldl_cons]
    split
    · exact ⟨ih.1, fun found absent => ih.2 found fun mem => absent (.tail _ mem)⟩
    · constructor
      · intro found
        exact (Symbols.contains_remove.1 (ih.1 found)).2
      · intro found absent
        refine ih.2 (Symbols.contains_remove.2 ⟨fun same => ?_, found⟩) fun mem =>
          absent (.tail _ mem)
        exact absent (same ▸ .head _)

end Lowering

/-! ### Slots -/

namespace Workspace

variable {names names' : String → Prop} {ws ws₁ ws' : Workspace}

/-- Some names get slots, each with the end of a text that starts with the name as its
objective. -/
structure Allots (names : String → Prop) (ws ws' : Workspace) : Prop where
  ints : ws.ints ⊆ ws'.ints
  kept {path : String} : (ws.slots.get? path).isSome = true → (ws'.slots.get? path).isSome = true
  added {path : String} : path ∈ ws'.ints → path ∈ ws.ints ∨ (ws'.slots.get? path).isSome = true
  named {path objective : String} : ws'.slots.get? path = some objective →
    ws.slots.get? path = some objective ∨ names path ∧ ∃ n,
      Text.chars objective <:+ Text.chars (path ++ "." ++ Text.natural n)
  constants : ws'.constants = ws.constants

theorem Allots.of_eq (ints : ws'.ints = ws.ints) (slots : ws'.slots = ws.slots)
    (constants : ws'.constants = ws.constants) : Allots names ws ws' where
  ints := ints ▸ List.Subset.refl _
  kept found := slots ▸ found
  added mem := .inl (ints ▸ mem)
  named found := .inl (slots ▸ found)
  constants := constants

theorem Allots.trans (h : Allots names ws ws₁) (h' : Allots names ws₁ ws') :
    Allots names ws ws' where
  ints := List.Subset.trans h.ints h'.ints
  kept found := h'.kept (h.kept found)
  added mem := by
    rcases h'.added mem with mem | found
    · exact (h.added mem).imp_right h'.kept
    · exact .inr found
  named found := by
    rcases h'.named found with found | new
    · exact h.named found
    · exact .inr new
  constants := h'.constants.trans h.constants

theorem Allots.mono (h : Allots names ws ws') (more : ∀ path, names path → names' path) :
    Allots names' ws ws' :=
  ⟨h.ints, h.kept, h.added, fun found => (h.named found).imp_right fun ⟨name, new⟩ =>
    ⟨more _ name, new⟩, h.constants⟩

theorem allots_addInt (ws : Workspace) (path : String) :
    Allots (· = path) ws (ws.addInt path) := by
  unfold addInt
  split
  · exact .of_eq rfl rfl rfl
  · refine ⟨List.subset_append_left _ _, fun {name} found => ?_, fun {name} mem => ?_,
      fun {name objective} found => ?_, rfl⟩
    · rw [Table.get?_insert]
      split
      · rfl
      · exact found
    · rcases List.mem_append.1 mem with mem | mem
      · exact .inl mem
      · rw [List.mem_singleton.1 mem, Table.get?_insert, if_pos rfl]
        exact .inr rfl
    · rw [Table.get?_insert] at found
      split at found
      · next same =>
        cases found
        refine .inr ⟨same, ws.slots.size, ?_⟩
        rw [same, shorten, Text.chars_ofList]
        exact List.drop_suffix _ _
      · exact .inl found

end Workspace

/-- The slots of the parameters of a definition. -/
theorem Definition.allots_addParamSlots (path : Path) (params : List Param) (ws : Workspace) :
    Allots (fun name => ∃ param ∈ params, name = path.qualify param.name) ws
        (addParamSlots ws path params) ∧
      ∀ param ∈ params, param.kind = .integer →
        path.qualify param.name ∈ (addParamSlots ws path params).ints := by
  unfold addParamSlots
  induction params generalizing ws with
  | nil => exact ⟨.of_eq rfl rfl rfl, List.forall_mem_nil _⟩
  | cons param params ih =>
    rw [List.foldl_cons]
    obtain ⟨later, slots⟩ :=
      ih (if param.kind.isInteger then ws.addInt (path.qualify param.name) else ws)
    have first : Allots (fun name => ∃ p ∈ param :: params, name = path.qualify p.name) ws
        (if param.kind.isInteger then ws.addInt (path.qualify param.name) else ws) := by
      split
      · exact (ws.allots_addInt _).mono fun name same => ⟨param, .head _, same⟩
      · exact .of_eq rfl rfl rfl
    refine ⟨first.trans (later.mono fun name ⟨p, mem, same⟩ => ⟨p, .tail _ mem, same⟩), ?_⟩
    intro p mem integer
    rcases List.mem_cons.1 mem with rfl | mem
    · refine later.ints ?_
      rw [if_pos (by rw [integer]; rfl)]
      exact ws.mem_ints_addInt _
    · exact slots p mem integer

/-- The slots of the parameters of all definitions of a body. -/
theorem Definition.Registered.allots {own : List (Nat × Line)}
    (h : Definition.Registered self own ws ws') :
    Allots (fun name => ∃ line signature, Signature.parse line = .ok signature ∧
        ∃ param ∈ signature.params,
          name = (self.path.child signature.name).qualify param.name) ws ws' ∧
      ∀ q r, ws'.routines.get? q = some r → ws.routines.get? q = some r ∨
        ∀ param ∈ r.params, param.kind = .integer → q.qualify param.name ∈ ws'.ints := by
  induction h with
  | nil => exact ⟨.of_eq rfl rfl rfl, fun q r found => .inl found⟩
  | @cons i line _ ws _ signature parsed _ _ ih =>
    obtain ⟨later, slots⟩ := ih
    obtain ⟨first, ints⟩ := Definition.allots_addParamSlots
      (self.path.child signature.name) signature.params ws
    have entered : Allots _ ws (Definition.entered self i signature ws) :=
      ⟨first.ints, first.kept, first.added, first.named, first.constants⟩
    refine ⟨(entered.mono fun name ⟨param, mem, same⟩ =>
      ⟨line.text, signature, parsed, param, mem, same⟩).trans later, fun q r found => ?_⟩
    rcases slots q r found with found | slots
    · rw [Definition.entered, Table.get?_insert] at found
      split at found
      · next same =>
        cases found
        refine .inr fun param mem integer => later.ints ?_
        rw [same]
        exact ints param mem integer
      · exact .inl found
    · exact .inr slots

theorem Definition.Registered.symbols {own : List (Nat × Line)}
    (h : Registered self own ws ws') : ws'.symbols = ws.symbols := by
  induction h with
  | nil => rfl
  | cons _ _ _ ih => exact ih.trans (entered_kept ..).2.2

theorem Lowering.Enters.symbols (h : Enters self ws ws') :
    ws'.symbols = (bindParams self ws).symbols :=
  h.registered.symbols

theorem Lowering.Enters.contains_iff {path : String} (h : Enters self ws ws') :
    ws'.symbols.contains path = true ↔
      path ∈ paramPaths self ∨ ws.symbols.contains path = true := by
  rw [← contains_bindParams, h.symbols]

theorem Lowering.bindParams_slots (self : Routine) (ws : Workspace) :
    (bindParams self ws).ints = ws.ints ∧ (bindParams self ws).slots = ws.slots ∧
      (bindParams self ws).constants = ws.constants := by
  obtain ⟨symbols, same⟩ := exists_bindParams_eq self ws
  rw [same]
  exact ⟨rfl, rfl, rfl⟩

/-- Entering a body gives slots to the parameters of its definitions. -/
theorem Lowering.Enters.allots (h : Enters self ws ws') :
    Allots (fun name => ∃ line signature, Signature.parse line = .ok signature ∧
        ∃ param ∈ signature.params,
          name = (self.path.child signature.name).qualify param.name) ws ws' ∧
      ∀ q r, ws'.routines.get? q = some r → ws.routines.get? q = some r ∨
        ∀ param ∈ r.params, param.kind = .integer → q.qualify param.name ∈ ws'.ints := by
  obtain ⟨ints, slots, constants⟩ := bindParams_slots self ws
  obtain ⟨allots, added⟩ := h.registered.allots
  rw [(bindParams_kept self ws).1] at added
  exact ⟨(Allots.of_eq ints slots constants).trans allots, added⟩

theorem Lowering.releaseLocals_slots (locals : List String) (ws : Workspace) :
    (releaseLocals ws locals).ints = ws.ints ∧
      (releaseLocals ws locals).slots = ws.slots ∧
      (releaseLocals ws locals).constants = ws.constants := by
  obtain ⟨symbols, same⟩ := exists_releaseLocals_eq locals ws
  rw [same]
  exact ⟨rfl, rfl, rfl⟩

/-- The parameters of a definition are read from its tokens. -/
theorem Signature.mem_readParams {function : String} {seen : Bool} {tokens : List String}
    {params : List Param} (h : Signature.readParams function seen tokens = .ok params) :
    ∀ param ∈ params, Name.isVariable param.name = true ∧
      ∃ token ∈ tokens, param.default = (Signature.cutOptional "=" token).2 := by
  induction tokens generalizing seen params with
  | nil =>
    cases h
    simp
  | cons token _ ih =>
    simp only [Signature.readParams, bind, Except.bind, pure, Except.pure, throw, throwThe,
      MonadExceptOf.throw] at h
    split at h
    · cases h
    · split at h
      · cases h
      · next valid =>
        split at h
        · split at h
          · cases h
          · next others read =>
            cases h
            intro param mem
            rcases List.mem_cons.1 mem with rfl | mem
            · exact ⟨by simpa using valid, token, .head _, rfl⟩
            · obtain ⟨name, other, mem', default⟩ := ih read param mem
              exact ⟨name, other, .tail _ mem', default⟩
        · cases h

theorem Signature.isVariable_of_parse {line : String} {signature : Signature}
    (h : Signature.parse line = .ok signature) :
    ∀ param ∈ signature.params, Name.isVariable param.name = true := by
  obtain ⟨tokens, _, _, read⟩ := Signature.of_parse h
  exact fun param mem => (Signature.mem_readParams read param mem).1

theorem Lowering.paramPaths_of_origin {r r' : Routine} (h : r.origin = r'.origin) :
    paramPaths r = paramPaths r' := by
  simp only [paramPaths, declaredParams, Routine.kind_of_origin h,
    Routine.params_of_origin h, Routine.owner_of_origin h, Routine.bindings_of_origin h]

end CommandPack
