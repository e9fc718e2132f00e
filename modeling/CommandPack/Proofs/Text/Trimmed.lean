import CommandPack.Mark.Shield
import CommandPack.Source.Line
import Mathlib

/-!
# Trimmed text

Text without blanks at its ends, and the operations that keep it so: joining arguments with
single spaces, and replacing a pattern by a text with the same ends.
-/

namespace CommandPack.Text

variable {cs : List Char}

/-! ### Blanks at the ends -/

@[simp]
theorem chars_empty : chars "" = [] := rfl

/-- No blank stands at either end. -/
def Trimmed (cs : List Char) : Prop :=
  (∀ c, cs.head? = some c → isBlank c = false) ∧ ∀ c, cs.getLast? = some c → isBlank c = false

theorem dropBlanks_eq_self (h : ∀ c, cs.head? = some c → isBlank c = false) :
    dropBlanks cs = cs := by
  cases cs with
  | nil => rfl
  | cons c => simp [dropBlanks, h c rfl]

theorem dropBlanksEnd_eq_self (h : ∀ c, cs.getLast? = some c → isBlank c = false) :
    dropBlanksEnd cs = cs := by
  have reversed : dropBlanks cs.reverse = cs.reverse :=
    dropBlanks_eq_self fun c hc => h c (by rwa [List.head?_reverse] at hc)
  rw [dropBlanksEnd, ← dropBlanks, reversed, List.reverse_reverse]

theorem head?_dropBlanks {c : Char} (h : (dropBlanks cs).head? = some c) : isBlank c = false := by
  have notBlank := List.head?_dropWhile_not isBlank cs
  rw [← dropBlanks, h] at notBlank
  simpa using notBlank

theorem getLast?_dropBlanksEnd {c : Char} (h : (dropBlanksEnd cs).getLast? = some c) :
    isBlank c = false := by
  rw [dropBlanksEnd, List.getLast?_reverse] at h
  exact head?_dropBlanks h

/-- Dropping blanks at the end leaves the front. -/
theorem dropBlanksEnd_prefix (cs : List Char) : dropBlanksEnd cs <+: cs := by
  rw [dropBlanksEnd, ← List.reverse_suffix, List.reverse_reverse]
  exact List.dropWhile_suffix _

/-- Behind a text that does not end in a blank only the blanks of the other one are dropped. -/
theorem dropBlanksEnd_append {as : List Char} (bs : List Char)
    (last : ∀ c, as.getLast? = some c → isBlank c = false) :
    dropBlanksEnd (as ++ bs) = as ++ dropBlanksEnd bs := by
  have kept : dropBlanksEnd as = as := dropBlanksEnd_eq_self last
  unfold dropBlanksEnd at kept ⊢
  rw [List.reverse_append, List.dropWhile_append]
  split
  · next none => rw [kept, List.isEmpty_iff.1 none, List.reverse_nil, List.append_nil]
  · rw [List.reverse_append, List.reverse_reverse]

theorem trimmed_trimChars (cs : List Char) : Trimmed (trimChars cs) := by
  refine ⟨fun c hc => ?_, fun c hc => getLast?_dropBlanksEnd hc⟩
  obtain ⟨rest, hrest⟩ := dropBlanksEnd_prefix (dropBlanks cs)
  apply @head?_dropBlanks cs
  rw [← hrest, List.head?_append, ← trimChars, hc]
  rfl

theorem trimChars_eq_self_iff : trimChars cs = cs ↔ Trimmed cs := by
  constructor
  · intro h
    rw [← h]
    exact trimmed_trimChars cs
  · rintro ⟨first, last⟩
    rw [trimChars, dropBlanks_eq_self first, dropBlanksEnd_eq_self last]

theorem trim_eq_self_iff {s : String} : trim s = s ↔ Trimmed (chars s) := by
  rw [← trimChars_eq_self_iff, trim, ← chars_inj, chars_ofList]

theorem dropBlanksEnd_append_blanks (cs : List Char) {blanks : List Char}
    (blank : ∀ c ∈ blanks, isBlank c = true) : dropBlanksEnd (cs ++ blanks) = dropBlanksEnd cs := by
  rw [dropBlanksEnd, List.reverse_append, List.dropWhile_append_of_pos (by simpa using blank),
    dropBlanksEnd]

theorem trimChars_append_blanks (cs : List Char) {blanks : List Char}
    (blank : ∀ c ∈ blanks, isBlank c = true) : trimChars (cs ++ blanks) = trimChars cs := by
  rw [trimChars, trimChars, dropBlanks, List.dropWhile_append]
  split
  · next none =>
    have all : blanks.dropWhile isBlank = [] := List.dropWhile_eq_nil_iff.2 blank
    rw [all, dropBlanks, List.isEmpty_iff.1 none]
  · exact dropBlanksEnd_append_blanks _ blank

/-- A text is its trimmed front and blanks. -/
theorem exists_blanks (cs : List Char) :
    ∃ blanks, cs = dropBlanksEnd cs ++ blanks ∧ ∀ c ∈ blanks, isBlank c = true := by
  refine ⟨(cs.reverse.takeWhile isBlank).reverse, ?_, ?_⟩
  · rw [dropBlanksEnd, ← List.reverse_append, List.takeWhile_append_dropWhile, List.reverse_reverse]
  · intro c mem
    rw [List.mem_reverse] at mem
    exact List.mem_takeWhile_imp mem

/-- A text is its trimmed middle between blanks. -/
theorem exists_trimChars (cs : List Char) : ∃ before behind,
    cs = before ++ (trimChars cs ++ behind) ∧ (∀ c ∈ before, isBlank c = true) ∧
      ∀ c ∈ behind, isBlank c = true := by
  obtain ⟨behind, whole, blank⟩ := exists_blanks (dropBlanks cs)
  refine ⟨cs.takeWhile isBlank, behind, ?_, fun c mem => List.mem_takeWhile_imp mem, blank⟩
  rw [trimChars, ← whole, dropBlanks, List.takeWhile_append_dropWhile]

/-- A text without its blanks. -/
def solid (s : String) : String :=
  String.ofList ((chars s).filter (!isBlank ·))

/-! ### Joining -/

theorem Trimmed.append {as bs : List Char} (ha : Trimmed as) (hb : Trimmed bs) (nonempty : as ≠ [])
    (middle : List Char) : bs ≠ [] → Trimmed (as ++ (middle ++ bs)) := by
  intro nonempty'
  refine ⟨fun c hc => ha.1 c ?_, fun c hc => hb.2 c ?_⟩
  · cases as with
    | nil => exact absurd rfl nonempty
    | cons => simpa using hc
  · rw [← List.append_assoc, List.getLast?_append, Option.or_of_isSome] at hc
    · exact hc
    · simp [nonempty']

theorem chars_join_ne_nil {separator : String} {parts : List String} (some : parts ≠ [])
    (nonempty : ∀ part ∈ parts, part ≠ "") : chars (join separator parts) ≠ [] := by
  have first {part : String} (h : part ≠ "") : chars part ≠ [] := by
    intro none
    exact h (chars_inj.1 none)
  match parts with
  | [] => exact absurd rfl some
  | [part] => exact first (nonempty part (.head _))
  | part :: next :: rest =>
    rw [join, chars_append, chars_append]
    · simp [first (nonempty part (.head _))]
    · simp

/-- Trimmed parts make a trimmed text. -/
theorem trimmed_join {separator : String} {parts : List String}
    (nonempty : ∀ part ∈ parts, part ≠ "") (trimmed : ∀ part ∈ parts, Trimmed (chars part)) :
    Trimmed (chars (join separator parts)) := by
  induction parts with
  | nil => exact ⟨by simp [join], by simp [join]⟩
  | cons part rest ih =>
    cases rest with
    | nil => exact trimmed part (.head _)
    | cons =>
      rw [join, chars_append, chars_append, List.append_assoc]
      · refine (trimmed part (.head _)).append
          (ih (fun p hp => nonempty p (.tail _ hp)) fun p hp => trimmed p (.tail _ hp)) ?_ _ ?_
        · intro none
          exact nonempty part (.head _) (chars_inj.1 none)
        · exact chars_join_ne_nil (by simp) fun p hp => nonempty p (.tail _ hp)
      · simp

/-! ### Replacing -/

/-- A text with every occurrence of a pattern replaced, from left to right. -/
inductive Replaced (pattern replacement : List Char) : List Char → List Char → Prop
  | nil : Replaced pattern replacement [] []
  | keep {c : Char} {cs ds : List Char} (other : ¬ pattern <+: c :: cs)
      (rest : Replaced pattern replacement cs ds) :
      Replaced pattern replacement (c :: cs) (c :: ds)
  | swap {cs ds : List Char} (rest : Replaced pattern replacement cs ds) :
      Replaced pattern replacement (pattern ++ cs) (replacement ++ ds)

theorem replaceChars_skip (pattern replacement : List Char) (skip : Nat) (cs : List Char) :
    replaceChars pattern replacement skip cs = replaceChars pattern replacement 0 (cs.drop skip) := by
  induction skip generalizing cs with
  | zero => rfl
  | succ _ ih =>
    cases cs with
    | nil => rfl
    | cons => rw [replaceChars, ih, List.drop_succ_cons]

theorem replaceChars_replaced {pattern : List Char} (nonempty : pattern ≠ [])
    (replacement cs : List Char) :
    Replaced pattern replacement cs (replaceChars pattern replacement 0 cs) := by
  induction hn : cs.length using Nat.strongRecOn generalizing cs with
  | ind n ih =>
    cases cs with
    | nil => exact .nil
    | cons c cs =>
      rw [replaceChars]
      split
      · next found =>
        obtain ⟨rest, hrest⟩ := List.isPrefixOf_iff_prefix.1 found
        obtain ⟨p, ps, rfl⟩ := List.exists_cons_of_ne_nil nonempty
        have hcs : cs = ps ++ rest := by simpa using (List.cons.inj hrest).2.symm
        rw [replaceChars_skip, ← hrest, hcs]
        refine .swap ?_
        have drops : (ps ++ rest).drop ((p :: ps).length - 1) = rest := by simp
        rw [drops]
        refine ih rest.length ?_ rest rfl
        rw [← hn, hcs, List.length_cons, List.length_append]
        omega
      · next other =>
        refine .keep (fun h => other (List.isPrefixOf_iff_prefix.2 h)) ?_
        exact ih cs.length (by rw [← hn]; simp) cs rfl

/-- Replacing keeps the ends, if the replacement has the ends of the pattern. -/
theorem Replaced.ends {pattern replacement ds : List Char} (h : Replaced pattern replacement cs ds)
    (nonempty : pattern ≠ []) (first : replacement.head? = pattern.head?)
    (last : replacement.getLast? = pattern.getLast?) :
    ds.head? = cs.head? ∧ ds.getLast? = cs.getLast? := by
  have nonempty' : replacement ≠ [] := by
    rintro rfl
    cases pattern with
    | nil => exact nonempty rfl
    | cons => simp at first
  induction h with
  | nil => exact ⟨rfl, rfl⟩
  | keep _ _ ih =>
    refine ⟨rfl, ?_⟩
    rw [List.getLast?_cons, List.getLast?_cons, ih.2]
  | swap _ ih =>
    rw [List.head?_append, List.head?_append, List.getLast?_append, List.getLast?_append, ih.2,
      first, last]
    refine ⟨?_, rfl⟩
    cases pattern with
    | nil => exact absurd rfl nonempty
    | cons => simp

theorem trimmed_replaceAll {pattern replacement s : String} (nonempty : chars pattern ≠ [])
    (first : (chars replacement).head? = (chars pattern).head?)
    (last : (chars replacement).getLast? = (chars pattern).getLast?) (h : Trimmed (chars s)) :
    Trimmed (chars (replaceAll pattern replacement s)) := by
  rw [replaceAll, chars_ofList]
  obtain ⟨heads, lasts⟩ :=
    (replaceChars_replaced nonempty (chars replacement) (chars s)).ends nonempty first last
  exact ⟨fun c hc => h.1 c (heads ▸ hc), fun c hc => h.2 c (lasts ▸ hc)⟩

end CommandPack.Text

namespace CommandPack

open Text

variable {line : String}

theorem Shield.trimmed_apply {s : String} (h : Trimmed (chars s)) :
    Trimmed (chars (Shield.apply s)) :=
  trimmed_replaceAll (by decide) (by decide) (by decide)
    (trimmed_replaceAll (by decide) (by decide) (by decide) h)

namespace Argument

theorem ne_empty_of_mem_split {argument : String} (h : argument ∈ split line) : argument ≠ "" := by
  simpa using (List.mem_filter.1 h).2

theorem trimmed_of_mem_split {argument : String} (h : argument ∈ split line) :
    Trimmed (chars argument) := by
  obtain ⟨group, _, rfl⟩ := List.mem_map.1 (List.mem_filter.1 h).1
  rw [Text.trim, chars_ofList]
  exact trimmed_trimChars _

end Argument

/-- What is left of a line without its comment is trimmed. -/
theorem Comment.trimmed_of_strip {content : String} (h : Comment.strip line = some content) :
    Trimmed (chars content) := by
  unfold Comment.strip at h
  split at h
  · cases h
    exact ⟨by simp, by simp⟩
  · next first rest split =>
    split at h
    · cases h
    · split at h
      · cases h
        have sub : ∀ part ∈ (first :: rest).takeWhile (· ≠ "#"), part ∈ Argument.split line := by
          intro part mem
          rw [split]
          exact List.takeWhile_subset _ mem
        exact trimmed_join (fun part mem => Argument.ne_empty_of_mem_split (sub part mem))
          fun part mem => Argument.trimmed_of_mem_split (sub part mem)
      · cases h
        rw [Text.trim, chars_ofList]
        exact trimmed_trimChars _

/-- Each line that is read comes from a raw line of its number. -/
theorem Line.of_readNumbered {unit source number : Nat} {raws : List String} {lines : List Line}
    (read : readNumbered unit source number raws = .ok lines) :
    lines.length ≤ raws.length ∧ ∀ line ∈ lines, ∃ k raw content depth, raws[k]? = some raw ∧
      Comment.strip raw = some content ∧ content ≠ "" ∧
      line = ⟨depth, Shield.apply content, number + k, source⟩ := by
  induction raws generalizing number lines with
  | nil =>
    cases read
    exact ⟨Nat.le_refl _, nofun⟩
  | cons first rest ih =>
    have later {lines : List Line} (read : readNumbered unit source (number + 1) rest = .ok lines) :
        ∀ line ∈ lines, ∃ k raw content depth, (first :: rest)[k]? = some raw ∧
          Comment.strip raw = some content ∧ content ≠ "" ∧
          line = ⟨depth, Shield.apply content, number + k, source⟩ := by
      intro line mem
      obtain ⟨k, raw, content, depth, at', own⟩ := (ih read).2 line mem
      exact ⟨k + 1, raw, content, depth, at', by rwa [Nat.add_assoc, Nat.add_comm 1] at own⟩
    rw [readNumbered] at read
    split at read
    · exact ⟨Nat.le_succ_of_le (ih read).1, later read⟩
    · exact ⟨Nat.le_succ_of_le (ih read).1, later read⟩
    · next content nonempty stripped =>
      split at read
      · cases read
      · next depth _ =>
        cases rests : readNumbered unit source (number + 1) rest with
        | error => simp [rests, Except.map] at read
        | ok =>
          simp only [rests, Except.map, Except.ok.injEq] at read
          subst read
          refine ⟨Nat.succ_le_succ (ih rests).1, List.forall_mem_cons.2 ⟨?_, later rests⟩⟩
          exact ⟨0, first, content, depth, rfl, stripped, fun none => nonempty (none ▸ rfl), rfl⟩

end CommandPack
