import Ebml.Proofs.Vint.Field

/-!
# Reading what was written

A field that was encoded is complete and as wide as its first byte says, and it holds the value that
was encoded. So a header that was written is read again, whatever follows it
(`Header.decode_of_encode`).
-/

namespace Ebml

/-! ## Ids -/

/-- A number is below the power of 256 that has as many digits. -/
theorem lt_pow_byteLength (n : Nat) : n < 256 ^ byteLength n := by
  unfold byteLength
  split
  · rename_i hzero
    simp [hzero]
  · rename_i hpos
    have hlog : n < 2 ^ (n.log2 + 1) := Nat.lt_log2_self
    have hle : 2 ^ (n.log2 + 1) ≤ 2 ^ (8 * (n.log2 / 8 + 1)) :=
      Nat.pow_le_pow_right (by omega) (by omega)
    have hbytes : 256 ^ (n.log2 / 8 + 1) = 2 ^ (8 * (n.log2 / 8 + 1)) := by
      rw [Nat.pow_mul]
    omega

theorem beNat_beBytes_byteLength (n : Nat) : beNat (beBytes (byteLength n) n) = n := by
  rw [beNat_beBytes, Nat.mod_eq_of_lt (lt_pow_byteLength n)]

/-- An id that was encoded is a field that holds it. -/
theorem isIdField_of_encodeId {id : Nat} {field : Bytes} (h : encodeId id = .ok field) :
    IsIdField field ∧ beNat field = id := by
  have hvalue := beNat_beBytes_byteLength id
  unfold encodeId at h
  split at h
  · simp at h
  · rename_i first rest hbytes
    split at h
    · rename_i hwidth
      rw [Except.ok.injEq] at h
      subst h
      rw [hbytes] at hvalue
      exact ⟨⟨hwidth.2, by simpa using hwidth.1⟩, hvalue⟩
    · simp at h

/-! ## Sizes -/

/-- The bytes of a number whose highest bit is the marker bit of a field of this width. -/
theorem isSizeField_beBytes {width n : Nat} (hpos : 1 ≤ width) (hle : width ≤ maxSizeWidth)
    (hn : n < 2 ^ (7 * width)) : IsSizeField (beBytes width (2 ^ (7 * width) + n)) := by
  refine ⟨by rwa [length_beBytes], ?_⟩
  obtain ⟨w, rfl⟩ := Nat.exists_eq_add_of_le hpos
  have hw : w ≤ 7 := by
    unfold maxSizeWidth at hle
    omega
  rw [length_beBytes, Nat.add_comm 1 w, beBytes, List.head?_cons, Option.map_some]
  congr 1
  -- The first byte is the marker bit and the data bits above the lower bytes.
  have hsplit : 2 ^ (7 * (w + 1)) = 2 ^ (7 - w) * 256 ^ w := by
    rw [show (256 : Nat) = 2 ^ 8 from rfl, ← Nat.pow_mul, ← Nat.pow_add]
    congr 1
    omega
  rw [Nat.add_comm 1 w, hsplit] at hn
  have hlo : 2 ^ (7 - w) ≤ (2 ^ (7 * (w + 1)) + n) / 256 ^ w := by
    rw [Nat.le_div_iff_mul_le (Nat.pow_pos (by omega)), hsplit]
    omega
  have hhi : (2 ^ (7 * (w + 1)) + n) / 256 ^ w < 2 ^ (8 - w) := by
    rw [Nat.div_lt_iff_lt_mul (Nat.pow_pos (by omega)), hsplit]
    have hdouble : 2 ^ (8 - w) = 2 * 2 ^ (7 - w) := by
      rw [show 8 - w = 7 - w + 1 by omega, Nat.pow_succ, Nat.mul_comm]
    rw [hdouble, Nat.mul_assoc]
    omega
  have hbyte : 2 ^ (8 - w) ≤ 2 ^ 8 := Nat.pow_le_pow_right (by omega) (by omega)
  have htoNat : (UInt8.ofNat ((2 ^ (7 * (w + 1)) + n) / 256 ^ w)).toNat =
      (2 ^ (7 * (w + 1)) + n) / 256 ^ w := by
    rw [UInt8.toNat_ofNat', Nat.mod_eq_of_lt]
    omega
  apply vintWidth_eq (by omega) (by omega)
  · rw [htoNat, show 8 - (w + 1) = 7 - w by omega]
    exact hlo
  · rw [htoNat, show 9 - (w + 1) = 8 - w by omega]
    exact hhi

/-- The data bits of a field are what was put there. -/
theorem ofField_beBytes {width n : Nat} (hpos : 1 ≤ width) (hn : n < 2 ^ (7 * width)) :
    DataSize.ofField (beBytes width (2 ^ (7 * width) + n)) =
      if n = unknownPattern width then .unknown else .known n := by
  have hfits : 2 ^ (7 * width) + n < 256 ^ width := by
    have hpow : 256 ^ width = 2 ^ (7 * width) * 2 ^ width := by
      rw [show (256 : Nat) = 2 ^ 8 from rfl, ← Nat.pow_mul, ← Nat.pow_add]
      congr 1
      omega
    have htwo : 2 ^ 1 ≤ 2 ^ width := Nat.pow_le_pow_right (by omega) hpos
    calc 2 ^ (7 * width) + n < 2 ^ (7 * width) * 2 := by omega
      _ ≤ 2 ^ (7 * width) * 2 ^ width := Nat.mul_le_mul_left _ htwo
      _ = 256 ^ width := hpow.symm
  have hvalue : beNat (beBytes width (2 ^ (7 * width) + n)) % 2 ^ (7 * width) = n := by
    rw [beNat_beBytes, Nat.mod_eq_of_lt hfits, Nat.add_mod_left, Nat.mod_eq_of_lt hn]
  simp only [DataSize.ofField, length_beBytes, hvalue]

theorem unknownPattern_lt (width : Nat) : unknownPattern width < 2 ^ (7 * width) :=
  Nat.sub_lt (Nat.pow_pos (by omega)) Nat.one_pos

/-- A size that was encoded is a field that stands for it. -/
theorem isSizeField_of_encodeSizeAt {width n : Nat} {field : Bytes}
    (h : encodeSizeAt width n = .ok field) :
    IsSizeField field ∧ DataSize.ofField field = .known n := by
  unfold encodeSizeAt at h
  split at h
  · simp at h
  · rename_i hwidth
    split at h
    · simp at h
    · rename_i hfits
      rw [Except.ok.injEq] at h
      subst h
      have hn := unknownPattern_lt width
      refine ⟨isSizeField_beBytes (by omega) (by omega) (by omega), ?_⟩
      rw [ofField_beBytes (by omega) (by omega), if_neg (by omega)]

theorem isSizeField_of_encodeSize {n : Nat} {field : Bytes} (h : encodeSize n = .ok field) :
    IsSizeField field ∧ DataSize.ofField field = .known n := by
  unfold encodeSize at h
  split at h
  · simp at h
  · exact isSizeField_of_encodeSizeAt h

theorem isSizeField_of_encodeUnknown {width : Nat} {field : Bytes}
    (h : encodeUnknown width = .ok field) :
    IsSizeField field ∧ DataSize.ofField field = .unknown := by
  unfold encodeUnknown at h
  split at h
  · simp at h
  · rename_i hwidth
    rw [Except.ok.injEq] at h
    subst h
    have hn := unknownPattern_lt width
    refine ⟨isSizeField_beBytes (by omega) (by omega) hn, ?_⟩
    rw [ofField_beBytes (by omega) hn, if_pos rfl]

/-! ## Headers -/

namespace Header

theorem isSizeField_of_encodeSizeField {h : Header} {field : Bytes}
    (henc : h.encodeSizeField = .ok field) :
    IsSizeField field ∧ DataSize.ofField field = h.size := by
  unfold encodeSizeField at henc
  split at henc
  · rename_i hsize _
    rw [hsize]
    exact isSizeField_of_encodeSize henc
  · rename_i hsize _
    rw [hsize]
    exact isSizeField_of_encodeSizeAt henc
  · rename_i hsize
    rw [hsize]
    exact isSizeField_of_encodeUnknown henc

/-- A header is written as its two fields. -/
theorem fields_of_encode {h : Header} {bytes : Bytes} (henc : h.encode = .ok bytes) :
    ∃ idField sizeField, encodeId h.id = .ok idField ∧ h.encodeSizeField = .ok sizeField ∧
      bytes = idField ++ sizeField := by
  unfold encode at henc
  split at henc
  · simp at henc
  · rename_i idField hid
    split at henc
    · simp at henc
    · rename_i sizeField hsize
      exact ⟨idField, sizeField, hid, hsize, (Except.ok.inj henc).symm⟩

/-- The fields of a header that were written are read as that header, in the width that the size was
given, whatever follows. -/
theorem decode_of_fields {h : Header} {idField sizeField : Bytes} (hid : encodeId h.id = .ok idField)
    (hsize : h.encodeSizeField = .ok sizeField) (rest : Bytes) :
    decode (idField ++ sizeField ++ rest) =
      .ok (some (⟨h.id, h.size, some sizeField.length⟩, (idField ++ sizeField).length)) := by
  obtain ⟨hidField, hvalue⟩ := isIdField_of_encodeId hid
  obtain ⟨hsizeField, hstands⟩ := isSizeField_of_encodeSizeField hsize
  rw [decode_fields hidField hsizeField, ofFields, hvalue, hstands]

/-- A header that was written is read again, whatever follows. -/
theorem decode_of_encode {h : Header} {bytes : Bytes} (henc : h.encode = .ok bytes) (rest : Bytes) :
    ∃ header, decode (bytes ++ rest) = .ok (some (header, bytes.length)) ∧ header.id = h.id ∧
      header.size = h.size := by
  obtain ⟨idField, sizeField, hid, hsize, rfl⟩ := fields_of_encode henc
  exact ⟨_, decode_of_fields hid hsize rest, rfl, rfl⟩

end Header

end Ebml
