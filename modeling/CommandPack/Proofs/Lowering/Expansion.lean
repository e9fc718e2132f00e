import CommandPack.Proofs.Lowering.Step

/-!
# Calls written out

What a call adds to a body is described by its expansion: the functions on the way to the one that
is called, the argument that each of their parameters gets, and the commands that hand these
arguments over.
-/

namespace CommandPack

theorem Workspace.objective_eq_ok {ws : Workspace} {path objective : String} :
    ws.objective path = .ok objective ↔ ws.slots.get? path = some objective := by
  unfold Workspace.objective
  cases ws.slots.get? path <;> simp

@[simp]
theorem Assignment.gives_substitute {self : Routine} {body body' : Body} {ws ws' : Workspace}
    {text out : String} :
    BodyM.Gives (substitute self text) body ws out body' ws' ↔
      Substitution.substitute ws self.path text = .ok out ∧ body' = body ∧ ws' = ws := by
  simp [substitute, and_assoc, and_comm]

theorem Workspace.isDefined_iff {ws : Workspace} {path : Path} :
    ws.isDefined path = true ↔ ∃ r, ws.routines.get? path = some r ∧ r.kind = .defined := by
  simp [isDefined, Option.any_eq_true]

theorem Workspace.kind_of_isDefined {ws : Workspace} {path : Path} {r : Routine}
    (h : ws.isDefined path = true) (found : ws.routines.get? path = some r) : r.kind = .defined := by
  simpa [isDefined, found] using h

namespace Invocation

open BodyM

/-- A parameter of a function on the way of a call, with the argument that it gets. -/
structure Handed where
  callee : Path
  param : Param
  argument : String

namespace Handed

/-- The tag or the slot of the parameter. -/
def slot (handed : Handed) : String :=
  handed.callee.qualify handed.param.name

def parameter (handed : Handed) : Path × Param :=
  (handed.callee, handed.param)

/-- What is handed over by a command. -/
def carried (all : List Handed) : List Handed :=
  all.filter fun handed => !handed.param.kind.isString

/-- What is handed over in the call itself. -/
def spelled (all : List Handed) : List Handed :=
  all.filter fun handed => handed.param.kind.isString

/-- The tags that arguments are marked with. -/
def tags (all : List Handed) : List String :=
  (all.filter fun handed => handed.param.kind.isEntity).map slot

end Handed

/-- The command that hands an argument over: it marks what a selector selects with the tag of the
parameter, or it sets the slot of the parameter. -/
inductive Passes (self : Routine) (ws : Workspace) : Handed → Command → Prop
  | mark {handed : Handed} {selector : String} (entity : handed.param.kind.isEntity = true)
      (written : Substitution.substitute ws self.path handed.argument = .ok selector) :
      Passes self ws handed (.addTag selector handed.slot)
  | number {handed : Handed} {expression objective : String} {value : Int}
      (integer : handed.param.kind = .integer)
      (written : Substitution.substitute ws self.path handed.argument = .ok expression)
      (literal : Condition.literal? expression = some value)
      (slot : ws.slots.get? handed.slot = some objective) :
      Passes self ws handed (.setScore objective value)
  | copy {handed : Handed} {source objective objective' : String}
      (integer : handed.param.kind = .integer)
      (names : Assignment.intSource? ws self handed.argument = some source)
      (slot : ws.slots.get? handed.slot = some objective)
      (slot' : ws.slots.get? source = some objective') :
      Passes self ws handed (.combineScores objective .assign objective')

/-- A function may be called that neither is the definition around the caller nor encloses it. -/
def Allowed (self : Routine) (callee : Path) : Prop :=
  callee ≠ self.owner ∧ callee.encloses self.owner = false

/-- All parameters of a function get an argument, one each and in their order. -/
def Completes (ws : Workspace) (path : Path) (own : List Handed) : Prop :=
  ∃ routine, ws.routines.get? path = some routine ∧
    own.map Handed.parameter = routine.params.map (path, ·)

/-- Words lead from the function that a call names to one that is selected in it. Every function
before the last one has all its arguments when the next one is selected. -/
inductive Leads (self : Routine) (ws : Workspace) (callee : Path) :
    List String → List Handed → Path → Prop
  | start (allowed : Allowed self callee) : Leads self ws callee [] [] callee
  | select {words : List String} {handed own : List Handed} {last : Path} {name : String}
      (before : Leads self ws callee words handed last) (complete : Completes ws last own)
      (defined : ws.isDefined (last.child name) = true) (allowed : Allowed self (last.child name)) :
      Leads self ws callee (words ++ (own.map Handed.argument ++ [name])) (handed ++ own)
        (last.child name)

variable {self : Routine} {ws ws' : Workspace} {callee last : Path} {start body body' : Body}
  {words : List String} {handed own : List Handed} {one : Handed} {call bound : Partial}
  {left : List Param}

/-- A parameter that gets an argument belongs to a definition. -/
def Handed.Registered (handed : Handed) (ws : Workspace) : Prop :=
  ∃ routine, ws.routines.get? handed.callee = some routine ∧ routine.kind = .defined ∧
    handed.param ∈ routine.params

theorem Completes.registered (h : Completes ws last own) (defined : ws.isDefined last = true)
    (mem : one ∈ own) : one.Registered ws := by
  obtain ⟨routine, found, params⟩ := h
  have mem := List.mem_map_of_mem (f := Handed.parameter) mem
  rw [params] at mem
  obtain ⟨param, mem, same⟩ := List.mem_map.1 mem
  cases same
  exact ⟨routine, found, ws.kind_of_isDefined defined found, mem⟩

namespace Leads

theorem allowed (h : Leads self ws callee words handed last) : Allowed self last := by
  cases h with
  | start allowed => exact allowed
  | select _ _ _ allowed => exact allowed

/-- A call of a definition leads to one. -/
theorem isDefined (h : Leads self ws callee words handed last)
    (defined : ws.isDefined callee = true) : ws.isDefined last = true := by
  cases h with
  | start => exact defined
  | select _ _ defined => exact defined

theorem registered (h : Leads self ws callee words handed last)
    (defined : ws.isDefined callee = true) (mem : one ∈ handed) : one.Registered ws := by
  induction h with
  | start => cases mem
  | select before complete _ _ ih =>
    rcases List.mem_append.1 mem with earlier | own
    · exact ih earlier
    · exact complete.registered (before.isDefined defined) own

theorem argument_mem (h : Leads self ws callee words handed last) (mem : one ∈ handed) :
    one.argument ∈ words := by
  induction h with
  | start => cases mem
  | select _ _ _ _ ih =>
    rcases List.mem_append.1 mem with earlier | own
    · exact List.mem_append_left _ (ih earlier)
    · exact List.mem_append_right _ (List.mem_append_left _ (List.mem_map_of_mem own))

end Leads

theorem allowed_of_checkRecursion {u : Unit} (h : checkRecursion self callee = .ok u) :
    Allowed self callee := by
  unfold checkRecursion at h
  split at h
  · cases h
  · next free =>
    simp only [Bool.or_eq_true, decide_eq_true_eq, not_or, Bool.not_eq_true] at free
    exact free

/-- A call on its way: what has been handed over so far, and to which functions. -/
structure Progress (caller : Routine) (ws : Workspace) (callee : Path) (start : Body)
    (words : List String) (handed own : List Handed) (call : Partial) (left : List Param)
    (body : Body) : Prop where
  leads : Leads caller ws callee words handed call.callee
  params : ∃ routine, ws.routines.get? call.callee = some routine ∧
    own.map Handed.parameter ++ left.map (call.callee, ·) = routine.params.map (call.callee, ·)
  bindings : ∃ bindings, body = { start with commands := start.commands ++ bindings } ∧
    List.Forall₂ (Passes caller ws) (Handed.carried (handed ++ own)) bindings
  released : call.released = Handed.tags (handed ++ own)
  strings : List.Forall₂ (fun handed text =>
    Substitution.substitute ws caller.path handed.argument = .ok text) (Handed.spelled own)
      call.strings

theorem Handed.carried_append (all more : List Handed) :
    carried (all ++ more) = carried all ++ carried more :=
  List.filter_append ..

theorem Handed.spelled_append (all more : List Handed) :
    spelled (all ++ more) = spelled all ++ spelled more :=
  List.filter_append ..

theorem Handed.tags_append (all more : List Handed) :
    tags (all ++ more) = tags all ++ tags more := by
  rw [tags, List.filter_append, List.map_append, tags, tags]

/-- A call that has handed over nothing. -/
theorem Progress.initial {routine : Routine} (allowed : Allowed self callee)
    (found : ws.routines.get? callee = some routine) :
    Progress self ws callee body [] [] [] { callee, params := routine.params } routine.params
      body :=
  ⟨.start allowed, ⟨routine, found, rfl⟩, ⟨[], by simp, .nil⟩, rfl, .nil⟩

/-- The next parameter belongs to a definition. -/
theorem Progress.registered {param : Param}
    (h : Progress self ws callee start words handed own call (param :: left) body)
    (defined : ws.isDefined callee = true) :
    ∃ routine, ws.routines.get? call.callee = some routine ∧ routine.kind = .defined ∧
      param ∈ routine.params := by
  obtain ⟨routine, found, params⟩ := h.params
  have mem : (call.callee, param) ∈ routine.params.map (call.callee, ·) := by simp [← params]
  exact ⟨routine, found, ws.kind_of_isDefined (h.leads.isDefined defined) found,
    by simpa using mem⟩

/-- The next parameter gets an argument. -/
theorem Progress.bindArgument {param : Param} {argument : String}
    (h : Progress self ws callee start words handed own call (param :: left) body)
    (gives : Gives (bindArgument self call param argument) body ws bound body' ws') :
    ws' = ws ∧ Progress self ws callee start words handed
      (own ++ [⟨call.callee, param, argument⟩]) bound left body' := by
  obtain ⟨leads, ⟨routine, found, params⟩, ⟨bindings, rfl, passes⟩, released, strings⟩ := h
  have params' : (own ++ [Handed.mk call.callee param argument]).map Handed.parameter ++
      left.map (call.callee, ·) = routine.params.map (call.callee, ·) := by
    rw [← params, List.map_append, List.append_assoc]
    rfl
  have carry {command : Command} (noString : param.kind.isString = false)
      (one : Passes self ws ⟨call.callee, param, argument⟩ command) :
      List.Forall₂ (Passes self ws)
        (Handed.carried (handed ++ (own ++ [⟨call.callee, param, argument⟩])))
        (bindings ++ [command]) := by
    rw [← List.append_assoc, Handed.carried_append]
    refine List.rel_append passes ?_
    rw [Handed.carried, List.filter_cons_of_pos (by simp [noString])]
    exact .cons one .nil
  have untagged (other : param.kind.isEntity = false) :
      call.released = Handed.tags (handed ++ (own ++ [⟨call.callee, param, argument⟩])) := by
    rw [← List.append_assoc, Handed.tags_append, released]
    simp [Handed.tags, other]
  have unspelled (noString : param.kind.isString = false) : List.Forall₂ (fun handed text =>
      Substitution.substitute ws self.path handed.argument = .ok text)
        (Handed.spelled (own ++ [⟨call.callee, param, argument⟩])) call.strings := by
    rw [Handed.spelled_append]
    simpa [Handed.spelled, noString] using strings
  simp only [Invocation.bindArgument, gives_bind, Assignment.gives_substitute] at gives
  obtain ⟨expression, _, _, ⟨written, rfl, rfl⟩, gives⟩ := gives
  split at gives
  · next player single kind =>
    have noString : param.kind.isString = false := by rw [kind]; rfl
    have entity : param.kind.isEntity = true := by rw [kind]; rfl
    simp only [gives_bind, gives_emit, gives_pure] at gives
    obtain ⟨_, _, _, ⟨_, rfl, rfl⟩, rfl, rfl, rfl⟩ := gives
    have one := carry noString (.mark entity written)
    refine ⟨rfl, leads, ⟨routine, found, params'⟩, ⟨_, ?_, one⟩, ?_, unspelled noString⟩
    · simp [Handed.slot]
    · rw [← List.append_assoc, Handed.tags_append, ← released]
      simp [Handed.tags, entity, Handed.slot]
  · next kind =>
    have noString : param.kind.isString = false := by rw [kind]; rfl
    have other : param.kind.isEntity = false := by rw [kind]; rfl
    simp only [gives_bind, gives_lift, WorkM.gives_query, Except.ok.injEq] at gives
    obtain ⟨_, _, _, ⟨⟨rfl, rfl⟩, rfl⟩, gives⟩ := gives
    split at gives
    · next value _ literal =>
      simp only [Assignment.setInt, gives_bind, gives_lift, WorkM.gives_query, gives_emit,
        gives_pure, Workspace.objective_eq_ok] at gives
      obtain ⟨_, _, _, ⟨objective, _, _, ⟨⟨slot, rfl⟩, rfl⟩, _, rfl, rfl⟩, rfl, rfl, rfl⟩ := gives
      exact ⟨rfl, leads, ⟨routine, found, params'⟩,
        ⟨_, by simp, carry noString (.number kind written literal slot)⟩, untagged other,
        unspelled noString⟩
    · next source _ names =>
      simp only [Assignment.copyInt, gives_bind, gives_lift, WorkM.gives_query, gives_emit,
        gives_pure, Workspace.objective_eq_ok] at gives
      obtain ⟨_, _, _, ⟨objective, _, _, ⟨⟨slot, rfl⟩, rfl⟩, objective', _, _,
        ⟨⟨slot', rfl⟩, rfl⟩, _, rfl, rfl⟩, rfl, rfl, rfl⟩ := gives
      exact ⟨rfl, leads, ⟨routine, found, params'⟩,
        ⟨_, by simp, carry noString (.copy kind names slot slot')⟩, untagged other,
        unspelled noString⟩
    · simp only [gives_bind, gives_lift, WorkM.gives_fail, false_and, exists_false] at gives
  · next kind =>
    have other : param.kind.isEntity = false := by rw [kind]; rfl
    simp only [gives_pure] at gives
    obtain ⟨rfl, rfl, rfl⟩ := gives
    refine ⟨rfl, leads, ⟨routine, found, params'⟩, ⟨bindings, rfl, ?_⟩, untagged other, ?_⟩
    · rw [← List.append_assoc, Handed.carried_append]
      simpa [Handed.carried, kind, Kind.isString] using passes
    · rw [Handed.spelled_append]
      refine List.rel_append strings ?_
      rw [Handed.spelled, List.filter_cons_of_pos (by simp [kind, Kind.isString])]
      exact .cons written .nil

/-- A further word selects a function in the one that has all its arguments. -/
theorem Progress.selectInner {name : String}
    (h : Progress self ws callee start words handed own call [] body)
    (gives : Gives (selectInner self call name) body ws bound body' ws') :
    ws' = ws ∧ Progress self ws callee start (words ++ (own.map Handed.argument ++ [name]))
      (handed ++ own) [] bound bound.params body' := by
  obtain ⟨leads, ⟨routine, found, params⟩, bindings, released, strings⟩ := h
  simp only [Invocation.selectInner, gives_bind, gives_lift, WorkM.gives_query,
    Except.ok.injEq] at gives
  obtain ⟨_, _, _, ⟨⟨rfl, rfl⟩, rfl⟩, gives⟩ := gives
  split at gives
  · next defined =>
    simp only [gives_bind, gives_lift, WorkM.gives_query, WorkM.gives_routine, gives_pure] at gives
    obtain ⟨_, _, _, ⟨⟨checked, rfl⟩, rfl⟩, inner, _, _, ⟨⟨found', rfl⟩, rfl⟩, rfl, rfl, rfl⟩ :=
      gives
    have complete : Completes _ call.callee own := ⟨routine, found, by simpa using params⟩
    exact ⟨rfl, .select leads complete defined (allowed_of_checkRecursion checked),
      ⟨inner, found', rfl⟩, by simpa using bindings, by simpa using released, .nil⟩
  · simp at gives

/-- All arguments of a call are used up. -/
theorem Progress.bindArguments {arguments : List String}
    (h : Progress self ws callee start words handed own call call.params body)
    (gives : Gives (bindArguments self call arguments) body ws bound body' ws') :
    ws' = ws ∧ ∃ words' handed' own',
      words' ++ own'.map Handed.argument = words ++ (own.map Handed.argument ++ arguments) ∧
      Progress self ws callee start words' handed' own' bound bound.params body' := by
  induction arguments generalizing call body words handed own with
  | nil =>
    simp only [Invocation.bindArguments, gives_pure] at gives
    obtain ⟨rfl, rfl, rfl⟩ := gives
    exact ⟨rfl, words, handed, own, by rw [List.append_nil], h⟩
  | cons _ _ ih =>
    simp only [Invocation.bindArguments] at gives
    split at gives
    · next param params left =>
      simp only [gives_bind] at gives
      obtain ⟨next, mid, _, first, gives⟩ := gives
      rw [left] at h
      obtain ⟨rfl, progress⟩ := h.bindArgument first
      have going : Progress self _ callee start words handed _ { next with params } params mid :=
        ⟨progress.leads, progress.params, progress.bindings, progress.released, progress.strings⟩
      obtain ⟨rfl, words', handed', own', used, progress⟩ := ih going gives
      exact ⟨rfl, words', handed', own', by rw [used]; simp, progress⟩
    · next none =>
      simp only [gives_bind] at gives
      obtain ⟨inner, mid, _, selected, gives⟩ := gives
      rw [none] at h
      obtain ⟨rfl, progress⟩ := h.selectInner selected
      obtain ⟨rfl, words', handed', own', used, progress⟩ := ih progress gives
      exact ⟨rfl, words', handed', own', by rw [used]; simp, progress⟩

/-- Parameters without an argument get their defaults. -/
theorem Progress.bindDefaults (h : Progress self ws callee start words handed own call left body)
    (gives : Gives (bindDefaults self call left) body ws bound body' ws') :
    ws' = ws ∧ ∃ filled : List Handed,
      (∀ handed ∈ filled, handed.param.default = some handed.argument) ∧
      Progress self ws callee start words handed (own ++ filled) bound [] body' := by
  induction left generalizing call body own with
  | nil =>
    simp only [Invocation.bindDefaults, gives_pure] at gives
    obtain ⟨rfl, rfl, rfl⟩ := gives
    exact ⟨rfl, [], by simp, by rwa [List.append_nil]⟩
  | cons param _ ih =>
    simp only [Invocation.bindDefaults] at gives
    split at gives
    · next argument default =>
      simp only [gives_bind] at gives
      obtain ⟨next, mid, _, first, gives⟩ := gives
      obtain ⟨rfl, progress⟩ := h.bindArgument first
      obtain ⟨rfl, filled, defaults, progress⟩ := ih progress gives
      refine ⟨rfl, ⟨call.callee, param, argument⟩ :: filled, ?_, ?_⟩
      · exact List.forall_mem_cons.2 ⟨default, defaults⟩
      · simpa using progress
    · simp at gives

/-- A call as it is written out. -/
structure Expansion (caller : Routine) (ws : Workspace) (callee : Path)
    (arguments : List String) where
  /-- The words up to the name of the function that is called in the end. -/
  words : List String
  /-- What the functions on the way to it get. -/
  handed : List Handed
  /-- The function that is called in the end. -/
  last : Path
  /-- What it gets itself: the arguments that are left, then defaults. -/
  given : List Handed
  filled : List Handed
  /-- The commands before the call. -/
  bindings : List Command
  /-- The strings in the call. -/
  strings : List String
  leads : Leads caller ws callee words handed last
  complete : Completes ws last (given ++ filled)
  used : words ++ given.map Handed.argument = arguments
  defaults : ∀ handed ∈ filled, handed.param.default = some handed.argument
  /-- Every argument that is no string is handed over by exactly one command. -/
  passes : List.Forall₂ (Passes caller ws) (Handed.carried (handed ++ (given ++ filled))) bindings
  /-- The call has exactly one string for every string parameter. -/
  spells : List.Forall₂ (fun handed text =>
    Substitution.substitute ws caller.path handed.argument = .ok text)
      (Handed.spelled (given ++ filled)) strings

namespace Expansion

variable {arguments : List String}

/-- All that is handed over on the way, in its order. -/
def all (e : Expansion self ws callee arguments) : List Handed :=
  e.handed ++ (e.given ++ e.filled)

/-- The commands of a call: those that bind arguments, the call itself, and the releases of the
tags. -/
def commands (e : Expansion self ws callee arguments) : List Command :=
  e.bindings ++ .invoke [] ⟨e.last, e.strings⟩ :: (Handed.tags e.all).map .releaseTag

end Expansion

theorem expansion_of_call {arguments : String} {u : Unit}
    (gives : Gives (Invocation.call self callee arguments) body ws u body' ws') :
    ws' = ws ∧ ∃ e : Expansion self ws callee (Argument.split arguments),
      body' = { body with commands := body.commands ++ e.commands } := by
  simp only [Invocation.call, gives_bind, gives_lift, WorkM.gives_query, WorkM.gives_routine,
    gives_emit, gives_emitAll] at gives
  obtain ⟨_, body, ws, ⟨⟨checked, rfl⟩, rfl⟩, routine, _, _, ⟨⟨found, rfl⟩, rfl⟩, bound, _, _, bind,
    complete, _, _, fill, _, _, _, ⟨_, rfl, rfl⟩, rfl, rfl⟩ := gives
  obtain ⟨rfl, words, handed, given, used, progress⟩ :=
    (Progress.initial (allowed_of_checkRecursion checked) found).bindArguments bind
  obtain ⟨rfl, filled, defaults, progress⟩ := progress.bindDefaults fill
  obtain ⟨leads, ⟨last, found', params⟩, ⟨bindings, rfl, passes⟩, released, strings⟩ := progress
  refine ⟨rfl, ⟨words, handed, complete.callee, given, filled, bindings, complete.strings, leads,
    ?_, ?_, defaults, passes, strings⟩, ?_⟩
  · exact ⟨last, found', by simpa using params⟩
  · simpa using used
  · simp [Expansion.commands, Expansion.all, released]

namespace Expansion

variable {arguments : List String}

/-- Every parameter that gets an argument belongs to a definition. -/
theorem registered (e : Expansion self ws callee arguments) (defined : ws.isDefined callee = true)
    (mem : one ∈ e.all) : one.Registered ws := by
  rcases List.mem_append.1 mem with before | own
  · exact e.leads.registered defined before
  · exact e.complete.registered (e.leads.isDefined defined) own

/-- What is handed over is an argument of the call or a default. -/
theorem sourced (e : Expansion self ws callee arguments) (mem : one ∈ e.all) :
    one.argument ∈ arguments ∨ one.param.default = some one.argument := by
  rw [← e.used, List.mem_append]
  rcases List.mem_append.1 mem with before | own
  · exact .inl (.inl (e.leads.argument_mem before))
  · rcases List.mem_append.1 own with given | filled
    · exact .inl (.inr (List.mem_map_of_mem given))
    · exact .inr (e.defaults _ filled)

/-- The call has as many strings as its function has string parameters. -/
theorem full (e : Expansion self ws callee arguments) (defined : ws.isDefined callee = true) :
    ∃ routine, ws.routines.get? e.last = some routine ∧ routine.kind = .defined ∧
      e.strings.length = routine.params.countP (·.kind.isString) := by
  obtain ⟨routine, found, params⟩ := e.complete
  have same : (e.given ++ e.filled).map Handed.param = routine.params := by
    simpa [Function.comp_def, Handed.parameter] using congrArg (List.map Prod.snd) params
  refine ⟨routine, found, ws.kind_of_isDefined (e.leads.isDefined defined) found, ?_⟩
  rw [← e.spells.length_eq, Handed.spelled, ← List.countP_eq_length_filter, ← same,
    List.countP_map]
  rfl

end Expansion

end Invocation

end CommandPack
