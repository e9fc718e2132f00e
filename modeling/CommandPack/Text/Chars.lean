/-!
# Characters of a text

`chars` takes a text apart into its characters. It reads the UTF-8 bytes from left
to right by structural recursion, so that closed texts evaluate in linear time, and
agrees with `String.toList`.
-/

namespace CommandPack.Text

/-- Puts a character together from the leading bits of a byte and six bits of each
byte that follows it. -/
def assemble (leading : Nat) (following : List UInt8) : Char :=
  Char.ofNat (following.foldl (fun value byte => value * 64 + (byte.toNat - 0x80)) leading)

/-- Decodes UTF-8 bytes. The first byte of a character tells how many follow. -/
def decode : List UInt8 → List Char
  | [] => []
  | a :: rest =>
    if a.toNat < 0x80 then
      assemble a.toNat [] :: decode rest
    else if a.toNat < 0xE0 then
      match rest with
      | b :: rest => assemble (a.toNat - 0xC0) [b] :: decode rest
      | [] => []
    else if a.toNat < 0xF0 then
      match rest with
      | b :: c :: rest => assemble (a.toNat - 0xE0) [b, c] :: decode rest
      | _ => []
    else
      match rest with
      | b :: c :: d :: rest => assemble (a.toNat - 0xF0) [b, c, d] :: decode rest
      | _ => []

theorem ofNat_eq_of_eq_val {n : Nat} {c : Char} (h : n = c.val.toNat) : Char.ofNat n = c := by
  rw [h]
  exact c.ofNat_toNat

theorem decode_one {a : UInt8} (h : a.toNat < 0x80) (rest : List UInt8) :
    decode (a :: rest) = assemble a.toNat [] :: decode rest := by
  rw [decode.eq_def]
  simp only [if_pos h]

theorem decode_two {a : UInt8} (h : 0x80 ≤ a.toNat) (h' : a.toNat < 0xE0) (b : UInt8)
    (rest : List UInt8) :
    decode (a :: b :: rest) = assemble (a.toNat - 0xC0) [b] :: decode rest := by
  rw [decode.eq_def]
  simp only [if_neg (Nat.not_lt.2 h), if_pos h']

theorem decode_three {a : UInt8} (h : 0xE0 ≤ a.toNat) (h' : a.toNat < 0xF0) (b c : UInt8)
    (rest : List UInt8) :
    decode (a :: b :: c :: rest) = assemble (a.toNat - 0xE0) [b, c] :: decode rest := by
  have low : ¬ a.toNat < 0x80 := by omega
  rw [decode.eq_def]
  simp only [if_neg low, if_neg (Nat.not_lt.2 h), if_pos h']

theorem decode_four {a : UInt8} (h : 0xF0 ≤ a.toNat) (b c d : UInt8) (rest : List UInt8) :
    decode (a :: b :: c :: d :: rest) = assemble (a.toNat - 0xF0) [b, c, d] :: decode rest := by
  have low : ¬ a.toNat < 0x80 := by omega
  have middle : ¬ a.toNat < 0xE0 := by omega
  rw [decode.eq_def]
  simp only [if_neg low, if_neg middle, if_neg (Nat.not_lt.2 h)]

/-- Decoding takes one encoded character off the front. -/
theorem decode_utf8EncodeChar (c : Char) (rest : List UInt8) :
    decode (String.utf8EncodeChar c ++ rest) = c :: decode rest := by
  have bound : c.val.toNat < 0x110000 := by
    rcases c.valid with h | h <;> simp only [UInt32.toNat] at * <;> omega
  simp only [String.utf8EncodeChar]
  split
  · have value : (UInt8.ofNat c.val.toNat).toNat = c.val.toNat := by
      rw [UInt8.toNat_ofNat']; omega
    rw [List.cons_append, List.nil_append, decode_one (by omega)]
    exact congrArg (List.cons · (decode rest)) (ofNat_eq_of_eq_val value)
  · split
    · have value : (UInt8.ofNat (c.val.toNat / 64 % 32 + 192)).toNat =
          c.val.toNat / 64 % 32 + 192 := by rw [UInt8.toNat_ofNat']; omega
      rw [List.cons_append, List.cons_append, List.nil_append,
        decode_two (by omega) (by omega)]
      refine congrArg (List.cons · (decode rest)) (ofNat_eq_of_eq_val ?_)
      simp only [List.foldl_cons, List.foldl_nil, value, UInt8.toNat_ofNat']
      omega
    · split
      · have value : (UInt8.ofNat (c.val.toNat / 4096 % 16 + 224)).toNat =
            c.val.toNat / 4096 % 16 + 224 := by rw [UInt8.toNat_ofNat']; omega
        rw [List.cons_append, List.cons_append, List.cons_append, List.nil_append,
          decode_three (by omega) (by omega)]
        refine congrArg (List.cons · (decode rest)) (ofNat_eq_of_eq_val ?_)
        simp only [List.foldl_cons, List.foldl_nil, value, UInt8.toNat_ofNat']
        omega
      · have value : (UInt8.ofNat (c.val.toNat / 262144 % 8 + 240)).toNat =
            c.val.toNat / 262144 % 8 + 240 := by rw [UInt8.toNat_ofNat']; omega
        rw [List.cons_append, List.cons_append, List.cons_append, List.cons_append,
          List.nil_append, decode_four (by omega)]
        refine congrArg (List.cons · (decode rest)) (ofNat_eq_of_eq_val ?_)
        simp only [List.foldl_cons, List.foldl_nil, value, UInt8.toNat_ofNat']
        omega

theorem decode_flatMap_utf8EncodeChar (cs : List Char) :
    decode (cs.flatMap String.utf8EncodeChar) = cs := by
  induction cs with
  | nil => rfl
  | cons _ _ ih => rw [List.flatMap_cons, decode_utf8EncodeChar, ih]

/-- The characters of a text. -/
def chars (s : String) : List Char :=
  decode s.toByteArray.data.toList

@[simp]
theorem chars_ofList (cs : List Char) : chars (String.ofList cs) = cs := by
  simp only [chars, String.ofList, List.utf8Encode, List.toList_data_toByteArray]
  exact decode_flatMap_utf8EncodeChar cs

theorem chars_eq_toList (s : String) : chars s = s.toList := by
  have h := chars_ofList s.toList
  rwa [String.ofList_toList] at h

@[simp]
theorem ofList_chars (s : String) : String.ofList (chars s) = s := by
  rw [chars_eq_toList, String.ofList_toList]

@[simp]
theorem chars_append (s t : String) : chars (s ++ t) = chars s ++ chars t := by
  simp only [chars_eq_toList, String.toList_append]

theorem chars_inj {s t : String} : chars s = chars t ↔ s = t := by
  rw [chars_eq_toList, chars_eq_toList, String.toList_inj]

end CommandPack.Text
