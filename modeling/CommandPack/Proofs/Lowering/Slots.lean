import CommandPack.Proofs.Lowering.Declaring
import CommandPack.Proofs.Lowering.Disciplines

/-!
# Slots

The slots of a workspace are booked one after the other and never changed: integer variables under
their paths with the number of slots before them, constants under paths of their own. If the number
of slots has three digits less than an objective name has characters, then a name shows the whole
number and two characters before it. Numbers tell variables apart, and the two characters tell
variables from constants.
-/

namespace CommandPack

open Text Workspace BodyM

variable {κ ν : Type} {t : Table κ ν} {k : κ} {path : Path} {ws : Workspace} {self : Routine}

namespace Text

theorem natural_injective : Function.Injective natural := by
  intro m n same
  have digits : Nat.toDigits 10 m = Nat.toDigits 10 n := by
    rw [← chars_ofList (Nat.toDigits 10 m), ← chars_ofList (Nat.toDigits 10 n)]
    exact congrArg chars same
  rw [← @Nat.ofDigitChars_ten_toDigits m, digits, Nat.ofDigitChars_ten_toDigits]

theorem length_natural_le {n digits : Nat} (some' : 0 < digits) (small : n < 10 ^ digits) :
    (chars (natural n)).length ≤ digits := by
  rw [natural, chars_ofList]
  exact (Nat.length_toDigits_le_iff (by decide) some').2 small

theorem dot_not_mem_natural (n : Nat) : '.' ∉ chars (natural n) := fun mem =>
  absurd (isDigit_of_mem_natural mem) (by decide)

/-- A text is cut at its last dot in one way. -/
theorem append_dot_inj {as bs cs ds : List Char} (free : '.' ∉ bs) (free' : '.' ∉ ds)
    (same : as ++ '.' :: bs = cs ++ '.' :: ds) : as = cs ∧ bs = ds := by
  -- what one front has more than the other would put a dot behind the last one
  have more {as bs cs ds : List Char} {extra : List Char} (free : '.' ∉ bs)
      (front : cs = as ++ extra) (rest : '.' :: bs = extra ++ '.' :: ds) : as = cs ∧ bs = ds := by
    cases extra with
    | nil =>
      rw [List.append_nil] at front
      exact ⟨front.symm, (List.cons.inj rest).2⟩
    | cons =>
      rw [List.cons_append] at rest
      refine absurd ?_ free
      rw [(List.cons.inj rest).2]
      exact List.mem_append_right _ (.head _)
  rcases List.append_eq_append_iff.1 same with ⟨extra, front, rest⟩ | ⟨extra, front, rest⟩
  · exact more free front rest
  · obtain ⟨sameFront, sameRest⟩ := more free' front rest
    exact ⟨sameFront.symm, sameRest.symm⟩

end Text

/-- A new key goes to the end with its value. -/
theorem Table.entries_insert [DecidableEq κ] (free : t.get? k = none) (v : ν) :
    (t.insert k v).entries = t.entries ++ [(k, v)] := by
  have absent : ¬ t.contains k = true := by
    rw [contains_eq, free]
    exact Bool.false_ne_true
  rw [insert, dif_neg absent]

theorem Table.size_insert [DecidableEq κ] (free : t.get? k = none) (v : ν) :
    (t.insert k v).size = t.size + 1 := by
  rw [size, entries_insert free, List.length_append, List.length_singleton, size]

/-! ### Paths with slots -/

/-- A path from the root on, in characters that names have. -/
structure Path.IsScope (root : String) (path : Path) : Prop where
  below : path.Below root
  spelled : path.Spelled

theorem Path.IsScope.child {root name : String} (h : path.IsScope root)
    (valid : Name.isVariable name = true) : (path.child name).IsScope root where
  below := h.below.child (Name.dot_not_mem valid)
  spelled := h.spelled.child h.below.ne_nil fun _ => Name.isPart_of_mem valid

theorem Workspace.Housed.isScope {q : Path} {r : Routine} (h : ws.Housed)
    (found : ws.routines.get? q = some r) : q.IsScope ws.settings.root :=
  ⟨h.orderly.below found, h.spelled found⟩

theorem Workspace.Housed.isScope_self (h : ws.Housed) (has : ws.Has self) :
    self.path.IsScope ws.settings.root := by
  obtain ⟨r, found, _⟩ := has
  exact h.isScope found

/-- The paths of integer variables and of the differences that headers test. -/
inductive Slottable (root : String) : String → Prop
  | ofName {name : String} {scope : Path} (isScope : scope.IsScope root)
      (valid : Name.isVariable name = true) : Slottable root (scope.qualify name)
  | scratch {path : String} (declared : Slottable root path) :
      Slottable root (Condition.scratch path)

namespace Slottable

variable {root path : String}

/-- The characters of such a path. -/
theorem drawn (h : Slottable root path) : ∀ c ∈ chars path,
    c ∈ chars root ∨ c ∈ chars ".TEST" ∨ Name.isPart c = true := by
  induction h with
  | ofName isScope valid =>
    obtain ⟨segments, same, -⟩ := isScope.below
    have spelled := isScope.spelled
    rw [Path.Spelled, same, List.tail_cons] at spelled
    intro c mem
    rw [Path.qualify, chars_append, chars_append, Path.render, same, Path.chars_join_cons,
      Path.suffixChars, List.mem_append, List.mem_append, List.mem_append,
      List.mem_flatMap] at mem
    rcases mem with ((inRoot | ⟨segment, inside, mem⟩) | dot) | inName
    · exact .inl inRoot
    · rcases List.mem_cons.1 mem with rfl | mem
      · exact .inr (.inl (by decide))
      · exact .inr (.inr (spelled segment inside c mem))
    · rw [List.mem_singleton.1 dot]
      exact .inr (.inl (by decide))
    · exact .inr (.inr (Name.isPart_of_mem valid inName))
  | scratch _ ih =>
    intro c mem
    rw [Condition.scratch, chars_append] at mem
    rcases List.mem_append.1 mem with mem | mem
    · exact ih c mem
    · exact .inr (.inl mem)

/-- No such path reads like the path of a constant. -/
theorem ne_constantPath (h : Slottable root path) (i : Nat) : path ≠ constantPath i := by
  intro same
  have cut : chars (constantPath i) = chars "CONSTANT" ++ '.' :: chars (natural i) := by
    rw [constantPath, chars_append]
    rfl
  cases h with
  | ofName _ valid =>
    rw [← chars_inj, cut, Path.qualify, chars_append, chars_append, List.append_assoc] at same
    obtain ⟨-, digits⟩ := append_dot_inj (Name.dot_not_mem valid) (dot_not_mem_natural i) same
    unfold Name.isVariable at valid
    split at valid
    · cases valid
    · next c rest spelled =>
      rw [Bool.and_eq_true] at valid
      have mem : c ∈ chars (natural i) := by
        rw [← digits, spelled]
        exact .head _
      have digit := isDigit_of_mem_natural mem
      have start := valid.1
      simp only [Name.isStart, isDigit, Bool.or_eq_true, Bool.and_eq_true, decide_eq_true_eq,
        Char.le_def, UInt32.le_iff_toNat_le] at start digit
      rcases start with ⟨low, _⟩ | rfl
      · exact absurd (low.trans digit.2) (by decide)
      · exact absurd digit.2 (by decide)
  | scratch =>
    rw [← chars_inj, cut, Condition.scratch, chars_append] at same
    have free : '.' ∉ chars "TEST" := by decide
    obtain ⟨-, digits⟩ := append_dot_inj free (dot_not_mem_natural i) same
    have mem : 'T' ∈ chars (natural i) := by
      rw [← digits]
      exact .head _
    exact absurd (isDigit_of_mem_natural mem) (by decide)

/-- No such path ends like `CONSTANT`, in two characters or as a whole. -/
theorem not_suffix_constant (h : Slottable root path) {tail : List Char} (suffix : tail <:+ chars path)
    (suffix' : tail <:+ chars "CONSTANT") (long : tail = chars path ∨ 2 ≤ tail.length) : False := by
  cases h with
  | @ofName name scope _ valid =>
    obtain ⟨front, last, spelled⟩ : ∃ front last, chars name = front ++ [last] := by
      rcases List.eq_nil_or_concat (chars name) with none | ⟨front, last, some'⟩
      · simp [Name.isVariable, none] at valid
      · exact ⟨front, last, by simpa using some'⟩
    have whole : chars (scope.qualify name) = chars (scope.qualify "") ++ front ++ [last] := by
      simp [Path.qualify, spelled]
    have some' : tail ≠ [] := by
      rintro rfl
      rcases long with none | short
      · simp [whole] at none
      · exact absurd short (by decide)
    obtain ⟨front', last', rfl⟩ := (List.eq_nil_or_concat tail).resolve_left some'
    obtain ⟨before, own⟩ := suffix
    obtain ⟨before', constant⟩ := suffix'
    rw [whole, List.concat_eq_append, ← List.append_assoc] at own
    rw [List.concat_eq_append, ← List.append_assoc,
      show chars "CONSTANT" = chars "CONSTAN" ++ ['T'] from rfl] at constant
    have sameOwn := (List.append_inj' own rfl).2
    have sameConstant := (List.append_inj' constant rfl).2
    have part := Name.isPart_of_mem valid (spelled ▸ List.mem_append_right front (.head _))
    rw [← (List.cons.inj sameOwn).1, (List.cons.inj sameConstant).1] at part
    exact absurd part (by decide)
  | @scratch declared =>
    have ends : ['S', 'T'] <:+ chars (Condition.scratch declared) := by
      rw [Condition.scratch, chars_append]
      exact ⟨chars declared ++ ['.', 'T', 'E'], by rw [List.append_assoc]; rfl⟩
    have long : 2 ≤ tail.length := by
      rcases long with rfl | long
      · exact ends.length_le
      · exact long
    have own : ['S', 'T'] <:+ tail := List.suffix_of_suffix_length_le ends suffix long
    have constant : ['N', 'T'] <:+ tail :=
      List.suffix_of_suffix_length_le ⟨chars "CONSTA", rfl⟩ suffix' long
    have same : ['S', 'T'] = ['N', 'T'] :=
      (List.suffix_of_suffix_length_le own constant (Nat.le_refl 2)).eq_of_length rfl
    exact absurd same (by decide)

end Slottable

/-! ### The books of a workspace -/

namespace Workspace

variable {ws ws₁ ws' : Workspace} {path name objective : String}

/-- One workspace has the slots of another one and perhaps more behind them. -/
structure Enlarges (ws ws' : Workspace) : Prop where
  settings : ws'.settings = ws.settings
  slots : ws.slots.entries <+: ws'.slots.entries
  ints : ws.ints <+: ws'.ints
  constants : ws.constants <+: ws'.constants

namespace Enlarges

theorem of_eq (settings : ws'.settings = ws.settings) (slots : ws'.slots = ws.slots)
    (ints : ws'.ints = ws.ints) (constants : ws'.constants = ws.constants) : Enlarges ws ws' :=
  ⟨settings, slots ▸ List.prefix_rfl, ints ▸ List.prefix_rfl, constants ▸ List.prefix_rfl⟩

theorem refl (ws : Workspace) : Enlarges ws ws :=
  .of_eq rfl rfl rfl rfl

theorem trans (h : Enlarges ws ws₁) (h' : Enlarges ws₁ ws') : Enlarges ws ws' where
  settings := h'.settings.trans h.settings
  slots := h.slots.trans h'.slots
  ints := h.ints.trans h'.ints
  constants := h.constants.trans h'.constants

/-- A slot keeps its objective. -/
theorem kept (h : Enlarges ws ws') (found : ws.slots.get? path = some objective) :
    ws'.slots.get? path = some objective := by
  rw [Table.get?_eq_some_iff] at found ⊢
  exact h.slots.subset found

end Enlarges

/-- The slots are those of the integer variables and constants. The objective of a variable has the
number of the slots before it. -/
structure Booked (ws : Workspace) : Prop where
  nodup : ws.ints.Nodup
  distinct : ws.constants.Nodup
  size : ws.slots.size = ws.ints.length + ws.constants.length
  slottable {path : String} : path ∈ ws.ints → Slottable ws.settings.root path
  keys {path : String} : path ∈ ws.slots.keys ↔
    path ∈ ws.ints ∨ ∃ i < ws.constants.length, path = constantPath i
  ordered : ws.ints.Sublist ws.slots.keys
  counted : ((List.range ws.constants.length).map constantPath).Sublist ws.slots.keys
  ints {path objective : String} : path ∈ ws.ints → ws.slots.get? path = some objective →
    objective = ws.shorten (path ++ "." ++ natural (ws.slots.keys.idxOf path))
  constants {i : Nat} {objective : String} : i < ws.constants.length →
    ws.slots.get? (constantPath i) = some objective → objective = ws.shorten (constantPath i)

namespace Booked

theorem of_eq (h : ws.Booked) (settings : ws'.settings = ws.settings)
    (slots : ws'.slots = ws.slots) (ints : ws'.ints = ws.ints)
    (constants : ws'.constants = ws.constants) : ws'.Booked := by
  have shorten (name : String) : ws'.shorten name = ws.shorten name := by
    rw [Workspace.shorten, Workspace.shorten, settings]
  refine ⟨ints ▸ h.nodup, constants ▸ h.distinct, by rw [slots, ints, constants, h.size],
    fun mem => settings ▸ h.slottable (ints ▸ mem), by rw [slots, ints, constants]; exact h.keys,
    by rw [slots, ints]; exact h.ordered, by rw [slots, constants]; exact h.counted,
    fun mem found => ?_, fun bound found => ?_⟩
  · rw [shorten, slots]
    exact h.ints (ints ▸ mem) (slots ▸ found)
  · rw [shorten]
    exact h.constants (constants ▸ bound) (slots ▸ found)

theorem get?_eq_none (h : ws.Booked) (absent : path ∉ ws.ints)
    (other : ∀ i < ws.constants.length, path ≠ constantPath i) : ws.slots.get? path = none := by
  refine Option.eq_none_iff_forall_ne_some.2 fun objective found => ?_
  rcases h.keys.1 (Table.mem_keys_iff.2 ⟨objective, found⟩) with mem | ⟨i, bound, same⟩
  · exact absent mem
  · exact other i bound same

/-- The place of a key stays when another one is added. -/
theorem idxOf_insert (free : ws.slots.get? path = none) (known : name ∈ ws.slots.keys) :
    (ws.slots.insert path objective).keys.idxOf name = ws.slots.keys.idxOf name := by
  rw [Table.keys_insert free, List.idxOf_append_of_mem known]

theorem addInt (h : ws.Booked) (slottable : Slottable ws.settings.root path) :
    (ws.addInt path).Booked ∧ ws.Enlarges (ws.addInt path) := by
  unfold Workspace.addInt
  split
  · exact ⟨h, .refl ws⟩
  · next absent =>
    have free := h.get?_eq_none absent fun i _ => slottable.ne_constantPath i
    have entries := Table.entries_insert free
      (ws.shorten (path ++ "." ++ natural ws.slots.size))
    refine ⟨⟨?_, h.distinct, ?_, fun {name} mem => ?_, fun {name} => ?_, ?_, ?_,
      fun {name objective} mem found => ?_, fun {i objective} bound found => ?_⟩,
      rfl, ⟨_, entries.symm⟩, List.prefix_append .., List.prefix_rfl⟩
    · exact List.nodup_append.2 ⟨h.nodup, by simp, by
        rintro a mem b (_ | ⟨_, ⟨⟩⟩) rfl
        exact absent mem⟩
    · change (ws.slots.insert path _).size = (ws.ints ++ [path]).length + ws.constants.length
      rw [Table.size_insert free, h.size, List.length_append, List.length_singleton]
      omega
    · rcases List.mem_append.1 mem with mem | mem
      · exact h.slottable mem
      · rw [List.mem_singleton.1 mem]
        exact slottable
    · rw [Table.keys_insert free, List.mem_append, List.mem_append, h.keys]
      exact or_right_comm
    · rw [Table.keys_insert free]
      exact h.ordered.append (.refl _)
    · rw [Table.keys_insert free]
      exact h.counted.trans (List.sublist_append_left ..)
    · rw [Table.get?_insert] at found
      split at found
      · next same =>
        -- the new slot has as many slots before it as there were
        cases found
        rw [same, Table.keys_insert free, List.idxOf_append_of_notMem fun known => ?_,
          List.idxOf_cons_self, Nat.add_zero, Table.length_keys]
        · rfl
        · obtain ⟨_, found⟩ := Table.mem_keys_iff.1 known
          rw [free] at found
          cases found
      · next other =>
        have mem := (List.mem_append.1 mem).resolve_right (by simpa using other)
        rw [idxOf_insert free (h.keys.2 (.inl mem))]
        exact h.ints mem found
    · rw [Table.get?_insert, if_neg (slottable.ne_constantPath i).symm] at found
      exact h.constants bound found

theorem addConstant (h : ws.Booked) (value : Int) :
    (ws.addConstant value).2.Booked ∧ ws.Enlarges (ws.addConstant value).2 := by
  unfold Workspace.addConstant
  split
  · exact ⟨h, .refl ws⟩
  · next absent =>
    have new : value ∉ ws.constants := by
      rw [List.findIdx?_eq_none_iff] at absent
      intro mem
      simpa using absent value mem
    have free : ws.slots.get? (constantPath ws.constants.length) = none := by
      refine h.get?_eq_none (fun mem => (h.slottable mem).ne_constantPath _ rfl)
        fun i bound same => ?_
      have digits : natural ws.constants.length = natural i := by
        rw [constantPath, constantPath, ← chars_inj, chars_append, chars_append] at same
        exact chars_inj.1 (List.append_cancel_left same)
      exact absurd (natural_injective digits) (Nat.ne_of_gt bound)
    have entries := Table.entries_insert free
      (ws.shorten (constantPath ws.constants.length))
    refine ⟨⟨h.nodup, ?_, ?_, h.slottable, fun {name} => ?_, ?_, ?_,
      fun {name objective} mem found => ?_, fun {i objective} bound found => ?_⟩, rfl,
      ⟨_, entries.symm⟩, List.prefix_rfl, List.prefix_append ..⟩
    · exact List.nodup_append.2 ⟨h.distinct, by simp, by
        rintro a mem b (_ | ⟨_, ⟨⟩⟩) rfl
        exact new mem⟩
    · change (ws.slots.insert _ _).size = ws.ints.length + (ws.constants ++ [value]).length
      rw [Table.size_insert free, h.size, List.length_append, List.length_singleton]
      omega
    · rw [Table.keys_insert free, List.mem_append, h.keys, List.mem_singleton, List.length_append,
        List.length_singleton, or_assoc]
      refine or_congr_right ⟨?_, ?_⟩
      · rintro (⟨i, bound, same⟩ | same)
        · exact ⟨i, by omega, same⟩
        · exact ⟨_, by omega, same⟩
      · rintro ⟨i, bound, same⟩
        rcases Nat.lt_succ_iff_lt_or_eq.1 bound with bound | rfl
        · exact .inl ⟨i, bound, same⟩
        · exact .inr same
    · rw [Table.keys_insert free]
      exact h.ordered.trans (List.sublist_append_left ..)
    · rw [Table.keys_insert free, List.length_append, List.length_singleton, List.range_succ,
        List.map_append]
      exact h.counted.append (.refl _)
    · rw [Table.get?_insert, if_neg ((h.slottable mem).ne_constantPath _)] at found
      rw [idxOf_insert free (h.keys.2 (.inl mem))]
      exact h.ints mem found
    · rw [Table.get?_insert] at found
      split at found
      · next same =>
        cases found
        rw [same]
        rfl
      · next other =>
        rw [List.length_append, List.length_singleton] at bound
        have inside : i ≠ ws.constants.length := fun same => other (same ▸ rfl)
        exact h.constants (by omega) found

end Booked

/-! ### Bodies -/

namespace Booked

theorem addParamSlots (h : ws.Booked) {path : Path} {params : List Param}
    (isScope : path.IsScope ws.settings.root)
    (valid : ∀ param ∈ params, Name.isVariable param.name = true) :
    (Definition.addParamSlots ws path params).Booked ∧
      ws.Enlarges (Definition.addParamSlots ws path params) := by
  unfold Definition.addParamSlots
  induction params generalizing ws with
  | nil => exact ⟨h, .refl ws⟩
  | cons param _ ih =>
    rw [List.foldl_cons]
    have first : (if param.kind.isInteger then ws.addInt (path.qualify param.name)
          else ws).Booked ∧
        ws.Enlarges (if param.kind.isInteger then ws.addInt (path.qualify param.name)
          else ws) := by
      split
      · exact h.addInt (.ofName isScope (valid param (.head _)))
      · exact ⟨h, .refl ws⟩
    obtain ⟨booked, enlarges⟩ := ih first.1 (by rw [first.2.settings]; exact isScope)
      fun param mem => valid param (.tail _ mem)
    exact ⟨booked, first.2.trans enlarges⟩

theorem registered (h : ws.Booked) {own : List (Nat × Line)}
    (isScope : self.path.IsScope ws.settings.root)
    (registered : Definition.Registered self own ws ws') : ws'.Booked ∧ ws.Enlarges ws' := by
  induction registered with
  | @nil ws => exact ⟨h, .refl ws⟩
  | @cons i _ _ ws _ signature parsed _ _ ih =>
    have named : (self.path.child signature.name).IsScope ws.settings.root :=
      isScope.child (Name.isVariable_of_isFunction (Signature.isFunction_of_parse parsed))
    obtain ⟨booked, enlarges⟩ := h.addParamSlots named (Signature.isVariable_of_parse parsed)
    have entered : ws.Enlarges (Definition.entered self i signature ws) :=
      ⟨enlarges.settings, enlarges.slots, enlarges.ints, enlarges.constants⟩
    obtain ⟨booked', enlarges'⟩ := ih (booked.of_eq rfl rfl rfl rfl) (entered.settings ▸ isScope)
    exact ⟨booked', entered.trans enlarges'⟩

/-- Parameters have slots from their definitions on, so entering a body adds only those of the
definitions in it. -/
theorem enters (h : ws.Booked) (isScope : self.path.IsScope ws.settings.root)
    (enters : Lowering.Enters self ws ws') : ws'.Booked ∧ ws.Enlarges ws' := by
  obtain ⟨_, _, settings⟩ := Lowering.bindParams_kept self ws
  obtain ⟨ints, slots, constants⟩ := Lowering.bindParams_slots self ws
  obtain ⟨booked, enlarges⟩ := (h.of_eq settings slots ints constants).registered
    (by rw [settings]; exact isScope) enters.registered
  exact ⟨booked, .trans (.of_eq settings slots ints constants) enlarges⟩

end Booked

/-! ### Objective names -/

/-- An objective name has no more characters than it may have. -/
theorem length_shorten_le (ws : Workspace) (name : String) :
    (chars (ws.shorten name)).length ≤ ws.settings.slotLimit := by
  rw [shorten, chars_ofList, List.length_drop]
  omega

/-- What is left of a name with a number that is not too long. -/
theorem chars_shorten {front : String} {n : Nat}
    (short : (chars (natural n)).length + 3 ≤ ws.settings.slotLimit) :
    ∃ tail, chars (ws.shorten (front ++ "." ++ natural n)) = tail ++ '.' :: chars (natural n) ∧
      tail <:+ chars front ∧ (tail = chars front ∨ 2 ≤ tail.length) := by
  have whole : chars (front ++ "." ++ natural n) = chars front ++ '.' :: chars (natural n) := by
    rw [chars_append, chars_append, List.append_assoc]
    rfl
  rw [shorten, chars_ofList, whole, List.length_append, List.length_cons]
  refine ⟨_, List.drop_append_of_le_length (by omega), List.drop_suffix _ _, ?_⟩
  by_cases all : (chars front).length + ((chars (natural n)).length + 1) ≤ ws.settings.slotLimit
  · exact .inl (by rw [Nat.sub_eq_zero_of_le all, List.drop_zero])
  · exact .inr (by rw [List.length_drop]; omega)

namespace Booked

/-- What an objective is made from. -/
theorem named (h : ws.Booked) (found : ws.slots.get? path = some objective) :
    ∃ front n, n < ws.slots.size ∧ objective = ws.shorten (front ++ "." ++ natural n) ∧
      (Slottable ws.settings.root path ∧ front = path ∧ n = ws.slots.keys.idxOf path ∨
        front = "CONSTANT" ∧ path = constantPath n) := by
  have known := Table.mem_keys_iff.2 ⟨objective, found⟩
  have size := h.size
  rcases h.keys.1 known with mem | ⟨i, bound, rfl⟩
  · refine ⟨path, _, ?_, h.ints mem found, .inl ⟨h.slottable mem, rfl, rfl⟩⟩
    rw [← Table.length_keys]
    exact List.idxOf_lt_length_of_mem known
  · exact ⟨"CONSTANT", i, by omega, h.constants bound found, .inr ⟨rfl, rfl⟩⟩

theorem length_objective_le (h : ws.Booked) (found : ws.slots.get? path = some objective) :
    (chars objective).length ≤ ws.settings.slotLimit := by
  obtain ⟨_, _, _, rfl, _⟩ := h.named found
  exact ws.length_shorten_le _

/-- An objective has no control character that the root does not have. -/
theorem control_not_mem_objective (h : ws.Booked) (free : '\x01' ∉ chars ws.settings.root)
    (found : ws.slots.get? path = some objective) : '\x01' ∉ chars objective := by
  obtain ⟨front, n, -, rfl, origin⟩ := h.named found
  have clear : '\x01' ∉ chars front := by
    rcases origin with ⟨slottable, rfl, -⟩ | ⟨rfl, -⟩
    · intro mem
      rcases slottable.drawn _ mem with inRoot | ends | part
      · exact free inRoot
      · exact absurd ends (by decide)
      · exact absurd part (by decide)
    · decide
  intro mem
  rw [shorten, chars_ofList] at mem
  have mem := List.mem_of_mem_drop mem
  rw [chars_append, chars_append, List.mem_append, List.mem_append] at mem
  rcases mem with (inFront | dot) | digit
  · exact clear inFront
  · exact absurd dot (by decide)
  · exact absurd (isDigit_of_mem_natural digit) (by decide)

/-- As long as there is room for their numbers, different slots have different objectives. -/
theorem objective_injective (h : ws.Booked)
    (room : ws.slots.size < 10 ^ (ws.settings.slotLimit - 3))
    (found : ws.slots.get? path = some objective)
    (found' : ws.slots.get? name = some objective) : path = name := by
  obtain ⟨front, n, small, rfl, origin⟩ := h.named found
  obtain ⟨front', n', small', same, origin'⟩ := h.named found'
  have digits : 0 < ws.settings.slotLimit - 3 := by
    rcases Nat.eq_zero_or_pos (ws.settings.slotLimit - 3) with none | some'
    · rw [none, Nat.pow_zero] at room
      omega
    · exact some'
  have short {n : Nat} (small : n < ws.slots.size) :
      (chars (natural n)).length + 3 ≤ ws.settings.slotLimit := by
    have := length_natural_le digits (small.trans room)
    omega
  obtain ⟨tail, spelled, suffix, long⟩ := @chars_shorten ws front n (short small)
  obtain ⟨tail', spelled', suffix', long'⟩ := @chars_shorten ws front' n' (short small')
  rw [same, spelled'] at spelled
  obtain ⟨rfl, sameDigits⟩ :=
    append_dot_inj (dot_not_mem_natural n') (dot_not_mem_natural n) spelled
  obtain rfl := natural_injective (chars_inj.1 sameDigits)
  rcases origin with ⟨slottable, rfl, position⟩ | ⟨rfl, rfl⟩ <;>
    rcases origin' with ⟨slottable', rfl, position'⟩ | ⟨rfl, rfl⟩
  · have known := Table.mem_keys_iff.2 ⟨_, found⟩
    exact (List.idxOf_inj known).1 (position.symm.trans position')
  · exact (slottable.not_suffix_constant suffix suffix' long).elim
  · exact (slottable'.not_suffix_constant suffix' suffix long').elim
  · rfl

end Booked

end Workspace

end CommandPack
