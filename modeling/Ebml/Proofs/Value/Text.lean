import Mathlib
import Ebml.Value

/-!
# Text as values

Zero bytes behind a text are padding, and no other byte of UTF-8 text is zero but the encoding of the
character NUL. So cutting zero bytes off the end of an encoded text cuts off whole characters, and
what is left is the encoding of the text without the NUL characters at its end.
-/

namespace Ebml

/-- The text without the NUL characters at its end. -/
def trimNuls (s : String) : String :=
  .ofList (s.toList.rdropWhile (· == '\x00'))

/-! ## Characters in UTF-8 -/

/-- The bytes of a text are those of its characters. -/
theorem toList_toUTF8 (s : String) :
    s.toUTF8.data.toList = s.toList.flatMap String.utf8EncodeChar := by
  conv_lhs => rw [← String.ofList_toList (s := s)]
  rw [String.toUTF8_eq_toByteArray, String.toByteArray_ofList, List.utf8Encode,
    List.toList_data_toByteArray]

theorem utf8EncodeChar_nul : String.utf8EncodeChar '\x00' = [0] := rfl

theorem ofNat_ne_zero {n : Nat} (hpos : 0 < n) (hlt : n < 256) : UInt8.ofNat n ≠ 0 := by
  intro heq
  have hvalue := congrArg UInt8.toNat heq
  rw [UInt8.toNat_ofNat', Nat.mod_eq_of_lt hlt] at hvalue
  exact Nat.ne_of_gt hpos hvalue

/-- The last byte of a character is zero only if the character is. -/
theorem exists_utf8EncodeChar_concat {c : Char} (h : c ≠ '\x00') :
    ∃ front last, String.utf8EncodeChar c = front ++ [last] ∧ last ≠ 0 := by
  have hpos : 0 < c.val.toNat :=
    Nat.pos_of_ne_zero fun hzero => h (Char.ext (UInt32.toNat_inj.mp hzero))
  have hlast : UInt8.ofNat (c.val.toNat % 64 + 128) ≠ 0 := ofNat_ne_zero (by omega) (by omega)
  unfold String.utf8EncodeChar
  dsimp only
  split
  · rename_i hascii
    exact ⟨[], _, rfl, ofNat_ne_zero hpos (by omega)⟩
  · split
    · exact ⟨[_], _, rfl, hlast⟩
    · split
      · exact ⟨[_, _], _, rfl, hlast⟩
      · exact ⟨[_, _, _], _, rfl, hlast⟩

/-! ## Padding -/

theorem trimZeros_append_zero (bytes : Bytes) : trimZeros (bytes ++ [0]) = trimZeros bytes :=
  List.rdropWhile_concat_pos _ _ _ rfl

theorem trimZeros_append_of_ne {last : UInt8} (h : last ≠ 0) (bytes : Bytes) :
    trimZeros (bytes ++ [last]) = bytes ++ [last] :=
  List.rdropWhile_concat_neg _ _ _ (by simpa using h)

theorem trimZeros_append_replicate (bytes : Bytes) (k : Nat) :
    trimZeros (bytes ++ List.replicate k 0) = trimZeros bytes := by
  induction k with
  | zero => rw [List.replicate_zero, List.append_nil]
  | succ k ih => rw [List.replicate_succ', ← List.append_assoc, trimZeros_append_zero, ih]

/-- The zero bytes at the end of an encoded text are its NUL characters at the end. -/
theorem trimZeros_flatMap_utf8 (chars : List Char) :
    trimZeros (chars.flatMap String.utf8EncodeChar) =
      (chars.rdropWhile (· == '\x00')).flatMap String.utf8EncodeChar := by
  induction chars using List.reverseRecOn with
  | nil => rfl
  | append_singleton chars c ih =>
    rw [List.flatMap_append, List.flatMap_singleton]
    by_cases hnul : c = '\x00'
    · rw [hnul, utf8EncodeChar_nul, trimZeros_append_zero, ih,
        List.rdropWhile_concat_pos _ _ _ rfl]
    · obtain ⟨front, last, hchar, hlast⟩ := exists_utf8EncodeChar_concat hnul
      rw [List.rdropWhile_concat_neg _ _ _ (by simpa using hnul), List.flatMap_append,
        List.flatMap_singleton, hchar, ← List.append_assoc, trimZeros_append_of_ne hlast]

/-- Without its padding an encoded text is the encoding of the text without its NULs at the end. -/
theorem trimZeros_padded (s : String) (k : Nat) :
    trimZeros (s.toUTF8.data.toList ++ List.replicate k 0) = (trimNuls s).toUTF8.data.toList := by
  rw [trimZeros_append_replicate, toList_toUTF8, trimZeros_flatMap_utf8, toList_toUTF8, trimNuls,
    String.toList_ofList]

/-! ## Reading -/

theorem fromUTF8?_toUTF8 (s : String) : String.fromUTF8? s.toUTF8 = some s := by
  rw [String.toUTF8_eq_toByteArray, String.fromUTF8?, dif_pos s.isValidUTF8]
  rfl

theorem Value.readUtf8_padded (name : String) (s : String) (k : Nat) :
    readUtf8 name (s.toUTF8.data.toList ++ List.replicate k 0) = .ok (trimNuls s) := by
  have hbytes (b : ByteArray) : b.data.toList.toByteArray = b :=
    ByteArray.ext (by rw [List.data_toByteArray, Array.toArray_toList])
  rw [readUtf8, trimZeros_padded, hbytes, fromUTF8?_toUTF8]

end Ebml
