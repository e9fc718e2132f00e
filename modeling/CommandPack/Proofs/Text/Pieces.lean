import CommandPack.Path
import Mathlib

/-!
# Texts cut into pieces

Cutting a text at a character and writing the pieces with that character between them are
inverse to each other, and two texts with the character between them are cut one after the other.
-/

namespace CommandPack

namespace Text

variable {separator : Char}

theorem chars_singleton (c : Char) : chars (String.singleton c) = [c] := by
  rw [chars_eq_toList, String.toList_singleton]

theorem piecesChars_ne_nil (cs : List Char) : piecesChars separator cs ≠ [] := by
  induction cs with
  | nil => simp [piecesChars]
  | cons =>
    rw [piecesChars]
    split
    · exact nofun
    · split <;> exact nofun

/-- Texts with the separator between them are cut one after the other. -/
theorem piecesChars_append (as bs : List Char) :
    piecesChars separator (as ++ separator :: bs) =
      piecesChars separator as ++ piecesChars separator bs := by
  induction as with
  | nil => simp [piecesChars]
  | cons c cs ih =>
    rw [List.cons_append, piecesChars, piecesChars, ih]
    split
    · rfl
    · cases hcs : piecesChars separator cs with
      | nil => exact absurd hcs (piecesChars_ne_nil cs)
      | cons => rfl

theorem piecesChars_of_not_mem {cs : List Char} (free : separator ∉ cs) :
    piecesChars separator cs = [cs] := by
  induction cs with
  | nil => rfl
  | cons _ _ ih =>
    rw [List.mem_cons, not_or] at free
    rw [piecesChars, if_neg (Ne.symm free.1), ih free.2]

theorem pieces_append (a b : String) :
    pieces separator (a ++ String.singleton separator ++ b) =
      pieces separator a ++ pieces separator b := by
  rw [pieces, chars_append, chars_append, chars_singleton, List.append_assoc, List.singleton_append,
    piecesChars_append, List.map_append, pieces, pieces]

theorem pieces_join {separator : Char} {segments : List String} (some' : segments ≠ [])
    (free : ∀ segment ∈ segments, separator ∉ chars segment) :
    pieces separator (join (String.singleton separator) segments) = segments := by
  induction segments with
  | nil => exact absurd rfl some'
  | cons segment rest ih =>
    have here : pieces separator segment = [segment] := by
      rw [pieces, piecesChars_of_not_mem (free segment (.head _)), List.map_singleton,
        ofList_chars]
    cases rest with
    | nil => exact here
    | cons next rest =>
      rw [join, pieces_append, here,
        ih (List.cons_ne_nil next rest) fun s mem => free s (.tail _ mem)]
      · rfl
      · exact nofun

/-- Characters of joined texts belong to the separator or to one of the texts. -/
theorem of_mem_join {separator : String} {parts : List String} {c : Char}
    (mem : c ∈ chars (join separator parts)) :
    c ∈ chars separator ∨ ∃ part ∈ parts, c ∈ chars part := by
  induction parts with
  | nil => cases mem
  | cons part rest ih =>
    cases rest with
    | nil => exact .inr ⟨part, .head _, mem⟩
    | cons =>
      rw [join, chars_append, chars_append, List.append_assoc] at mem
      · rcases List.mem_append.1 mem with mem | mem
        · exact .inr ⟨part, .head _, mem⟩
        · rcases List.mem_append.1 mem with mem | mem
          · exact .inl mem
          · exact (ih mem).imp_right fun ⟨p, hp, mem⟩ => ⟨p, .tail _ hp, mem⟩
      · exact nofun

theorem not_mem_of_mem_piecesChars {cs piece : List Char} (h : piece ∈ piecesChars separator cs) :
    separator ∉ piece := by
  induction cs generalizing piece with
  | nil =>
    rw [List.mem_singleton.1 h]
    exact List.not_mem_nil
  | cons c cs ih =>
    rw [piecesChars] at h
    split at h
    · rcases List.mem_cons.1 h with rfl | h
      · exact List.not_mem_nil
      · exact ih h
    · next other =>
      split at h
      · next first rest found =>
        rcases List.mem_cons.1 h with rfl | h
        · rw [List.mem_cons, not_or]
          exact ⟨Ne.symm other, ih (by rw [found]; exact .head _)⟩
        · exact ih (by rw [found]; exact .tail _ h)
      · next none => exact absurd none (piecesChars_ne_nil cs)

/-- No piece has the separator in it. -/
theorem not_mem_of_mem_pieces {s piece : String} (h : piece ∈ pieces separator s) :
    separator ∉ chars piece := by
  obtain ⟨cs, mem, rfl⟩ := List.mem_map.1 h
  rw [chars_ofList]
  exact not_mem_of_mem_piecesChars mem

end Text

/-- A qualified name ends in the last piece of the name. -/
theorem Path.leaf_parse_qualify (scope : Path) (name : String) :
    (Path.parse (scope.qualify name)).leaf = (Path.parse name).leaf := by
  have pieces : (Path.parse (scope.qualify name)).segments =
      Text.pieces '.' scope.render ++ (Path.parse name).segments :=
    Text.pieces_append scope.render name
  have some : (Path.parse name).segments ≠ [] := by
    simp [Path.parse, Text.pieces, Text.piecesChars_ne_nil]
  rw [Path.leaf, Path.leaf, pieces, List.getLast?_append, List.getLast?_eq_some_getLast some]
  rfl

end CommandPack
