import CommandPack.Mark.Call
import CommandPack.Mark.Placeholder
import CommandPack.Proofs.Text.Search
import CommandPack.Proofs.Text.Trimmed

/-!
# Shielded text

Shielding a text leaves no mark and no placeholder in it: the replacement of one opening makes no
other, since the shielding character only comes between an exclamation mark and a letter. Removing
the shield takes nothing else away.
-/

namespace CommandPack

open Text

namespace Text

variable {pattern replacement cs ds : List Char}

/-- A start without exclamation marks is left as it is. -/
theorem Replaced.of_start (h : Replaced pattern replacement cs ds)
    (first : replacement.head? = some '!') {start : List Char} (free : '!' ∉ start)
    (starts : start <+: ds) : start <+: cs := by
  induction start generalizing cs ds with
  | nil => exact List.nil_prefix
  | cons c start ih =>
    cases h with
    | nil => exact starts
    | keep _ rest =>
      obtain ⟨rfl, more⟩ := List.cons_prefix_cons.1 starts
      exact List.cons_prefix_cons.2 ⟨rfl, ih rest (fun mem => free (.tail _ mem)) more⟩
    | swap =>
      obtain ⟨_, rfl⟩ := List.head?_eq_some_iff.1 first
      obtain ⟨rfl, -⟩ := List.cons_prefix_cons.1 starts
      exact absurd List.mem_cons_self free

/-- Shielding leaves no opening with its letter and makes no other. -/
theorem Replaced.of_opening {x y : Char} (h : Replaced ['!', x, '\x7b'] ['!', '\x01', x, '\x7b'] cs ds)
    (letters : x ≠ '!' ∧ y ≠ '!' ∧ y ≠ '\x01') (opens : ['!', y, '\x7b'] <:+: ds) :
    y ≠ x ∧ ['!', y, '\x7b'] <:+: cs := by
  induction h with
  | nil => simp at opens
  | @keep c cs ds other rest ih =>
    rcases List.infix_cons_iff.1 opens with here | later
    · obtain ⟨rfl, more⟩ := List.cons_prefix_cons.1 here
      have free : '!' ∉ [y, '\x7b'] := by simp [letters.2.1.symm]
      have kept : ['!', y, '\x7b'] <+: '!' :: cs :=
        List.cons_prefix_cons.2 ⟨rfl, rest.of_start rfl free more⟩
      exact ⟨fun same => other (same ▸ kept), kept.isInfix⟩
    · exact (ih later).imp_right fun inside => inside.trans (List.suffix_cons ..).isInfix
  | @swap cs ds _ ih =>
    have later : ['!', y, '\x7b'] <:+: ds := by
      simpa [List.infix_cons_iff, letters.1.symm, letters.2.2] using opens
    exact (ih later).imp_right fun inside => inside.trans (List.suffix_append ..).isInfix

theorem Replaced.filter {keeps : Char → Bool} (h : Replaced pattern replacement cs ds)
    (same : replacement.filter keeps = pattern.filter keeps) : ds.filter keeps = cs.filter keeps := by
  induction h with
  | nil => rfl
  | keep _ _ ih => rw [List.filter_cons, List.filter_cons, ih]
  | swap _ ih => rw [List.filter_append, List.filter_append, same, ih]

end Text

namespace Shield

@[simp]
theorem chars_remove (text : String) : chars (remove text) = (chars text).filter (· ≠ '\x01') :=
  chars_ofList _

@[simp]
theorem remove_append (a b : String) : remove (a ++ b) = remove a ++ remove b := by
  rw [← chars_inj]
  simp only [chars_remove, chars_append, List.filter_append]

theorem remove_eq_self_iff {text : String} : remove text = text ↔ '\x01' ∉ chars text := by
  rw [← chars_inj, chars_remove, List.filter_eq_self]
  simp [List.forall_mem_ne']

theorem not_infix_apply {letter : Char} (mem : letter ∈ ['f', 's']) (s : String) :
    ¬ ['!', letter, '\x7b'] <:+: chars (apply s) := by
  have letters : ∀ x ∈ ['f', 's'], x ≠ '!' ∧ letter ≠ '!' ∧ letter ≠ '\x01' := by
    rcases List.mem_pair.1 mem with rfl | rfl <;> simp
  intro opens
  rw [apply, replaceAll, chars_ofList] at opens
  obtain ⟨other, opens⟩ := (replaceChars_replaced (by decide) _ _).of_opening
    (letters 's' (by decide)) opens
  rw [replaceAll, chars_ofList] at opens
  obtain ⟨other', -⟩ := (replaceChars_replaced (by decide) _ _).of_opening
    (letters 'f' (by decide)) opens
  simp [other, other'] at mem

theorem remove_apply (s : String) : remove (apply s) = remove s := by
  have shielded {pattern replacement : String} (some' : chars pattern ≠ [])
      (same : (chars replacement).filter (· ≠ '\x01') = (chars pattern).filter (· ≠ '\x01'))
      (t : String) : remove (replaceAll pattern replacement t) = remove t := by
    rw [remove, replaceAll, chars_ofList]
    exact congrArg String.ofList ((replaceChars_replaced some' _ _).filter same)
  rw [apply, shielded (by decide) (by decide), shielded (by decide) (by decide)]

/-- Shielding hides every mark and placeholder, and removing the shield takes from the text exactly
the shielding characters that it had before. -/
theorem apply_hides_and_remove_restores (text : String) :
    CallMark.find? (apply text) = none ∧ Placeholder.find? (apply text) = none ∧
      remove (apply text) = String.ofList ((chars text).filter (· ≠ '\x01')) ∧
      (remove (apply text) = text ↔ '\x01' ∉ chars text) := by
  refine ⟨?_, ?_, remove_apply text, ?_⟩
  · rw [CallMark.find?, CallMark.openingChars, cutChars_eq_none (not_infix_apply (by decide) text)]
    rfl
  · have free : ¬ chars "!s\x7b" <:+: chars (apply text) := not_infix_apply (.tail _ (.head _)) text
    rw [Placeholder.find?, cut?, cutChars_eq_none free]
    rfl
  · rw [remove_apply, remove_eq_self_iff]

end Shield

end CommandPack
