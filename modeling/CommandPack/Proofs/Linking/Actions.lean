import Mathlib

/-!
# Actions of called code

Lines are read as instructions: a line does nothing, performs one command, or calls other code
under a context. Putting the only instruction of a callee in place of a call, and leaving out
calls to empty code, keeps the sequence of actions, endless or not.
-/

namespace CommandPack

/-- What a line does. -/
inductive Instr (ν : Type)
  | quiet
  | act (context command : String)
  | call (context : String) (target : ν)
  deriving DecidableEq, Repr

/-- An instruction under one more context. -/
def Instr.under {ν : Type} (context : String) : Instr ν → Instr ν
  | quiet => quiet
  | act inner command => act (context ++ inner) command
  | call inner target => call (context ++ inner) target

/-- Code by the names that it is called by. -/
abbrev Listing (ν : Type) := ν → Option (List (Instr ν))

/-- Under a context, instructions perform actions one after the other: commands, each with all the
contexts around it. They come to their end, or they are stopped before it. -/
inductive Performs {ν : Type} (code : Listing ν) :
    String → List (Instr ν) → List (String × String) → Bool → Prop
  | stop {context : String} {instrs : List (Instr ν)} : Performs code context instrs [] false
  | done {context : String} : Performs code context [] [] true
  | quiet {context : String} {rest : List (Instr ν)} {log : List (String × String)} {ended : Bool}
      (after : Performs code context rest log ended) :
      Performs code context (.quiet :: rest) log ended
  | act {context inner command : String} {rest : List (Instr ν)} {log : List (String × String)}
      {ended : Bool} (after : Performs code context rest log ended) :
      Performs code context (.act inner command :: rest) ((context ++ inner, command) :: log) ended
  | call {context inner : String} {target : ν} {body rest : List (Instr ν)}
      {log log' : List (String × String)} {ended : Bool} (found : code target = some body)
      (inside : Performs code (context ++ inner) body log true)
      (after : Performs code context rest log' ended) :
      Performs code context (.call inner target :: rest) (log ++ log') ended
  | enter {context inner : String} {target : ν} {body rest : List (Instr ν)}
      {log : List (String × String)} (found : code target = some body)
      (inside : Performs code (context ++ inner) body log false) :
      Performs code context (.call inner target :: rest) log false

/-- An instruction stands for another one, where calls of code that is not kept are replaced, targets
have other names, and texts are stripped. -/
inductive Inlined {ν μ : Type} (strip : String → String) (name : ν → μ) (code : Listing ν)
    (kept : ν → Prop) : Instr ν → Instr μ → Prop
  | quiet : Inlined strip name code kept .quiet .quiet
  | act {context command : String} :
      Inlined strip name code kept (.act context command) (.act (strip context) (strip command))
  | empty {context : String} {target : ν} (found : code target = some []) :
      Inlined strip name code kept (.call context target) .quiet
  | single {context : String} {target : ν} {instr : Instr ν} {out : Instr μ}
      (found : code target = some [instr]) (inner : Inlined strip name code kept instr out) :
      Inlined strip name code kept (.call context target) (out.under (strip context))
  | call {context : String} {target : ν} (keeps : kept target) :
      Inlined strip name code kept (.call context target) (.call (strip context) (name target))

theorem Inlined.mono {ν μ : Type} {strip : String → String} {name : ν → μ} {code : Listing ν}
    {kept kept' : ν → Prop} (grows : ∀ target, kept target → kept' target) {instr : Instr ν}
    {out : Instr μ} (h : Inlined strip name code kept instr out) :
    Inlined strip name code kept' instr out := by
  induction h with
  | quiet => exact .quiet
  | act => exact .act
  | empty found => exact .empty found
  | single found _ ih => exact .single found ih
  | call keeps => exact .call (grows _ keeps)

namespace Performs

variable {ν μ : Type} {code : Listing ν} {code' : Listing μ} {context inner : String}
  {instr : Instr ν} {instrs rest : List (Instr ν)} {log log' : List (String × String)}
  {ended : Bool}

theorem append (first : Performs code context instrs log true)
    (second : Performs code context rest log' ended) :
    Performs code context (instrs ++ rest) (log ++ log') ended := by
  generalize hend : true = whole at first
  induction first with
  | stop => cases hend
  | done => exact second
  | quiet _ ih => exact .quiet (ih second hend)
  | act _ ih => exact .act (ih second hend)
  | call found inside _ _ ih =>
    rw [List.cons_append, List.append_assoc]
    exact .call found inside (ih second hend)
  | enter => cases hend

/-- Code that is stopped in its first part is stopped. -/
theorem stop_append (first : Performs code context instrs log false) :
    Performs code context (instrs ++ rest) log false := by
  generalize hend : false = whole at first
  induction first with
  | stop => exact .stop
  | done => cases hend
  | quiet _ ih => exact .quiet (ih hend)
  | act _ ih => exact .act (ih hend)
  | call found inside _ _ ih => exact .call found inside (ih hend)
  | enter found inside => exact .enter found inside

/-- One instruction with the rest of the code. -/
theorem cons (first : Performs code context [instr] log true)
    (second : Performs code context rest log' ended) :
    Performs code context (instr :: rest) (log ++ log') ended :=
  first.append second

/-- Contexts can be moved between an instruction and what is around it. -/
theorem under (h : Performs code (context ++ inner) [instr] log ended) :
    Performs code context [instr.under inner] log ended := by
  cases h with
  | stop => exact .stop
  | quiet after =>
    cases after with
    | stop => exact .stop
    | done => exact .quiet .done
  | act after =>
    rw [String.append_assoc]
    cases after with
    | stop => exact .act .stop
    | done => exact .act .done
  | call found inside after =>
    rw [String.append_assoc] at inside
    cases after with
    | stop => exact .call found inside .stop
    | done => exact .call found inside .done
  | enter found inside =>
    rw [String.append_assoc] at inside
    exact .enter found inside

/-! ### Inlined code -/

variable {strip : String → String} {name : ν → μ} {kept : ν → Prop} {outs : List (Instr μ)}
  {out : Instr μ}

/-- Kept code is there under its other name, with all its instructions inlined. -/
def Linked (strip : String → String) (name : ν → μ) (code : Listing ν) (kept : ν → Prop)
    (code' : Listing μ) : Prop :=
  ∀ target, kept target → ∃ body body', code target = some body ∧
    code' (name target) = some body' ∧ List.Forall₂ (Inlined strip name code kept) body body'

/-- Inlined code performs the actions of the code that it stands for. -/
theorem inlined (linked : Linked strip name code kept code')
    (hom : ∀ a b, strip (a ++ b) = strip a ++ strip b)
    (run : Performs code context instrs log ended)
    (h : List.Forall₂ (Inlined strip name code kept) instrs outs) :
    Performs code' (strip context) outs (log.map (Prod.map strip strip)) ended := by
  induction run generalizing outs with
  | stop => exact .stop
  | done =>
    cases h
    exact .done
  | quiet _ ih =>
    cases h with
    | cons here later =>
      cases here
      exact .quiet (ih later)
  | act _ ih =>
    cases h with
    | cons here later =>
      cases here
      rw [List.map_cons, Prod.map_apply, hom]
      exact .act (ih later)
  | @call _ _ target body _ _ _ _ found inside _ ihInside ih =>
    cases h with
    | cons here later =>
      rw [List.map_append]
      rw [hom] at ihInside
      cases here with
      | empty found' =>
        cases found.symm.trans found'
        cases inside
        exact .quiet (ih later)
      | single found' here =>
        cases found.symm.trans found'
        exact (ihInside (.cons here .nil)).under.cons (ih later)
      | call keeps =>
        obtain ⟨body, body', foundBody, found', bodies⟩ := linked target keeps
        cases found.symm.trans foundBody
        exact .call found' (ihInside bodies) (ih later)
  | @enter _ _ target body _ _ found inside ih =>
    cases h with
    | cons here =>
      rw [hom] at ih
      cases here with
      | empty found' =>
        cases found.symm.trans found'
        cases inside
        exact .stop
      | single found' here =>
        cases found.symm.trans found'
        exact (ih (.cons here .nil)).under.stop_append
      | call keeps =>
        obtain ⟨body, body', foundBody, found', bodies⟩ := linked target keeps
        cases found.symm.trans foundBody
        exact .enter found' (ih bodies)

/-- What is inlined to nothing performs nothing. -/
theorem of_inlined_quiet (h : Inlined strip name code kept instr .quiet) :
    Performs code context [instr] [] true := by
  generalize hout : Instr.quiet = out at h
  induction h generalizing context with
  | quiet => exact .quiet .done
  | act => cases hout
  | empty found => exact .call found .done .done
  | @single _ _ _ out found _ ih =>
    cases out with
    | quiet => exact .call found (ih rfl) .done
    | act | call => cases hout
  | call => cases hout

/-- What is inlined to one action performs it. -/
theorem of_inlined_act (context : String) {command : String}
    (hom : ∀ a b, strip (a ++ b) = strip a ++ strip b)
    (h : Inlined strip name code kept instr (.act inner command)) :
    ∃ action, (strip context ++ inner, command) = Prod.map strip strip action ∧
      Performs code context [instr] [action] true := by
  generalize hout : Instr.act inner command = out at h
  induction h generalizing context inner with
  | quiet => cases hout
  | @act inner command =>
    cases hout
    exact ⟨(context ++ inner, command), by rw [Prod.map_apply, hom], .act .done⟩
  | empty => cases hout
  | @single outer _ _ out found _ ih =>
    cases out with
    | act =>
      cases hout
      obtain ⟨action, same, run⟩ := ih (context ++ outer) rfl
      rw [hom, String.append_assoc] at same
      exact ⟨action, same, .call found run .done⟩
    | quiet | call => cases hout
  | call => cases hout

/-- What is inlined to a call performs what the called code does. -/
theorem of_inlined_call (context : String) {target' : μ}
    (hom : ∀ a b, strip (a ++ b) = strip a ++ strip b)
    (h : Inlined strip name code kept instr (.call inner target')) :
    ∃ target outer, kept target ∧ target' = name target ∧
      strip (context ++ outer) = strip context ++ inner ∧
      ∀ body log ended, code target = some body → Performs code (context ++ outer) body log ended →
        Performs code context [instr] log ended := by
  generalize hout : Instr.call inner target' = out at h
  induction h generalizing context inner with
  | quiet => cases hout
  | act => cases hout
  | empty => cases hout
  | @single outer _ _ out found _ ih =>
    cases out with
    | call =>
      cases hout
      obtain ⟨target, outer', keeps, same, contexts, runs⟩ := ih (context ++ outer) rfl
      refine ⟨target, outer ++ outer', keeps, same, ?_, fun body log ended foundBody run => ?_⟩
      · rw [← String.append_assoc, contexts, hom, String.append_assoc]
      · rw [← String.append_assoc] at run
        have inside := runs body log ended foundBody run
        cases ended with
        | true =>
          rw [← List.append_nil log]
          exact .call found inside .done
        | false => exact .enter found inside
    | quiet | act => cases hout
  | @call outer target keeps =>
    cases hout
    refine ⟨target, outer, keeps, rfl, hom context outer, fun body log ended found run => ?_⟩
    cases ended with
    | true =>
      rw [← List.append_nil log]
      exact .call found run .done
    | false => exact .enter found run

/-- The code that inlined code stands for performs its actions. -/
theorem of_inlined (linked : Linked strip name code kept code')
    (hom : ∀ a b, strip (a ++ b) = strip a ++ strip b) {context' : String}
    (run : Performs code' context' outs log' ended) (same : context' = strip context)
    (h : List.Forall₂ (Inlined strip name code kept) instrs outs) :
    ∃ log, log' = log.map (Prod.map strip strip) ∧ Performs code context instrs log ended := by
  induction run generalizing context instrs with
  | stop => exact ⟨[], rfl, .stop⟩
  | done =>
    cases h
    exact ⟨[], rfl, .done⟩
  | quiet _ ih =>
    cases h with
    | cons here later =>
      obtain ⟨log, hlog, run⟩ := ih same later
      exact ⟨log, hlog, (of_inlined_quiet here).cons run⟩
  | act _ ih =>
    cases h with
    | cons here later =>
      obtain ⟨log, hlog, run⟩ := ih same later
      obtain ⟨action, haction, first⟩ := of_inlined_act context hom here
      refine ⟨action :: log, ?_, first.cons run⟩
      rw [List.map_cons, ← haction, ← hlog, same]
  | call found _ _ ihInside ih =>
    cases h with
    | cons here later =>
      obtain ⟨target, outer, keeps, hname, contexts, runs⟩ :=
        of_inlined_call context hom here
      obtain ⟨body, body', foundBody, found', bodies⟩ := linked target keeps
      rw [hname] at found
      cases found.symm.trans found'
      obtain ⟨first, hfirst, inside⟩ := ihInside (by rw [contexts, same]) bodies
      obtain ⟨log, hlog, run⟩ := ih same later
      refine ⟨first ++ log, by rw [List.map_append, hfirst, hlog], ?_⟩
      exact (runs body first true foundBody inside).cons run
  | enter found _ ih =>
    cases h with
    | cons here =>
      obtain ⟨target, outer, keeps, hname, contexts, runs⟩ :=
        of_inlined_call context hom here
      obtain ⟨body, body', foundBody, found', bodies⟩ := linked target keeps
      rw [hname] at found
      cases found.symm.trans found'
      obtain ⟨log, hlog, inside⟩ := ih (by rw [contexts, same]) bodies
      exact ⟨log, hlog, (runs body log false foundBody inside).stop_append⟩

end Performs

end CommandPack
