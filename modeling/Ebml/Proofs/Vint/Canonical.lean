import Ebml.Proofs.Vint.Codec

/-!
# Writing what was read

A field is the only one that decodes to its value in its width: the marker bit in front tells the
width, and the other bits are the value. So a header that was read is written with the same bytes
again, and together with `Header.decode_of_fields` this makes reading and writing inverse to each
other in both directions (`Header.write_and_decode`).
-/

namespace Ebml

/-! ## The marker bit -/

/-- The marker bit of a first byte is its highest bit. -/
theorem vintWidth_bounds (first : UInt8) (h : vintWidth first ≤ 8) :
    2 ^ (8 - vintWidth first) ≤ first.toNat ∧ first.toNat < 2 ^ (9 - vintWidth first) := by
  cases hfind : (List.range' 1 8).find? fun w => 2 ^ (8 - w) ≤ first.toNat with
  | none => simp [vintWidth, hfind] at h
  | some w =>
    have hwidth : vintWidth first = w := by simp [vintWidth, hfind]
    rw [List.find?_range'_eq_some] at hfind
    obtain ⟨hlo, hmem, hbefore⟩ := hfind
    simp only [decide_eq_true_eq, List.mem_range'_1, Bool.not_eq_eq_eq_not, Bool.not_true,
      decide_eq_false_iff_not, Nat.not_le] at hlo hmem hbefore
    rw [hwidth]
    refine ⟨hlo, ?_⟩
    by_cases hone : w = 1
    · have := first.toNat_lt
      simpa [hone] using this
    · have hlt := hbefore (w - 1) (by omega) (by omega)
      rwa [show 8 - (w - 1) = 9 - w by omega] at hlt

/-- The highest byte of a field without its marker bit counts for less than the marker bit. -/
theorem IsSizeField.beNat_bounds {field : Bytes} (h : IsSizeField field) :
    2 ^ (7 * field.length) ≤ beNat field ∧ beNat field < 2 * 2 ^ (7 * field.length) := by
  cases field with
  | nil => exact absurd rfl h.ne_nil
  | cons first rest =>
    have hwidth : vintWidth first = rest.length + 1 := by simpa using h.width_eq
    have hle : rest.length + 1 ≤ 8 := h.le_limit
    obtain ⟨hlo, hhi⟩ := vintWidth_bounds first (by omega)
    have hrest := beNat_lt rest
    -- Of `7 * width` bits the first byte has `8 - width` and the others have 8 each.
    have hpow : 2 ^ (7 * (rest.length + 1)) = 2 ^ (7 - rest.length) * 256 ^ rest.length := by
      rw [show (256 : Nat) = 2 ^ 8 from rfl, ← Nat.pow_mul, ← Nat.pow_add]
      congr 1
      omega
    have hdouble : 2 ^ (9 - (rest.length + 1)) = 2 * 2 ^ (7 - rest.length) := by
      rw [show 9 - (rest.length + 1) = 7 - rest.length + 1 by omega, Nat.pow_succ, Nat.mul_comm]
    rw [hwidth, show 8 - (rest.length + 1) = 7 - rest.length by omega] at hlo
    rw [hwidth, hdouble] at hhi
    rw [beNat_cons, List.length_cons, hpow]
    constructor
    · calc 2 ^ (7 - rest.length) * 256 ^ rest.length
          ≤ first.toNat * 256 ^ rest.length := Nat.mul_le_mul_right _ hlo
        _ ≤ first.toNat * 256 ^ rest.length + beNat rest := Nat.le_add_right _ _
    · calc first.toNat * 256 ^ rest.length + beNat rest
          < (first.toNat + 1) * 256 ^ rest.length := by rw [Nat.succ_mul]; omega
        _ ≤ 2 * 2 ^ (7 - rest.length) * 256 ^ rest.length := Nat.mul_le_mul_right _ hhi
        _ = 2 * (2 ^ (7 - rest.length) * 256 ^ rest.length) := Nat.mul_assoc _ _ _

/-! ## Ids -/

/-- A number has as many digits as the power of 256 that it reaches. -/
theorem byteLength_eq {n width : Nat} (hlo : 256 ^ width ≤ n) (hhi : n < 256 ^ (width + 1)) :
    byteLength n = width + 1 := by
  have hpos : n ≠ 0 := Nat.ne_of_gt (Nat.lt_of_lt_of_le (Nat.pow_pos (by omega)) hlo)
  rw [show (256 : Nat) = 2 ^ 8 from rfl, ← Nat.pow_mul] at hlo hhi
  have hle := (Nat.le_log2 hpos).mpr hlo
  have hlt := (Nat.log2_lt hpos).mpr hhi
  rw [byteLength, if_neg hpos]
  omega

/-- An id field is how its id is written. -/
theorem encodeId_beNat {field : Bytes} (h : IsIdField field) : encodeId (beNat field) = .ok field := by
  cases field with
  | nil => exact absurd rfl h.ne_nil
  | cons first rest =>
    have hwidth : vintWidth first = rest.length + 1 := by simpa using h.width_eq
    have hle : rest.length + 1 ≤ maxIdWidth := h.le_limit
    have hfirst : 1 ≤ first.toNat := by
      have hlo := (vintWidth_bounds first (by rw [maxIdWidth] at hle; omega)).1
      exact Nat.le_trans Nat.one_le_two_pow hlo
    have hlength : byteLength (beNat (first :: rest)) = rest.length + 1 := by
      apply byteLength_eq _ (beNat_lt (first :: rest))
      rw [beNat_cons]
      exact Nat.le_add_right_of_le (Nat.le_mul_of_pos_left _ hfirst)
    have hbytes : beBytes (rest.length + 1) (beNat (first :: rest)) = first :: rest :=
      beBytes_beNat (first :: rest)
    rw [encodeId, hlength, hbytes]
    simp [hwidth, hle]

/-- An id can be written exactly if some byte string is read as it. -/
theorem encodeId_iff_decodeId (id : Nat) :
    (∃ field, encodeId id = .ok field) ↔ ∃ bytes width, decodeId bytes = .ok (some (id, width)) := by
  constructor
  · rintro ⟨field, henc⟩
    obtain ⟨hfield, hvalue⟩ := isIdField_of_encodeId henc
    have hsplit := splitId_append hfield []
    rw [List.append_nil] at hsplit
    exact ⟨field, field.length, by rw [decodeId_eq, hsplit, ← hvalue]; rfl⟩
  · rintro ⟨bytes, width, hdec⟩
    rw [decodeId_eq] at hdec
    cases hsplit : splitId bytes with
    | error e => simp [hsplit, Except.map] at hdec
    | ok found =>
      cases found with
      | none => simp [hsplit, Except.map] at hdec
      | some field =>
        simp only [hsplit, Except.map, Option.map_some, Except.ok.injEq, Option.some.injEq,
          Prod.mk.injEq] at hdec
        exact ⟨field, hdec.1 ▸ encodeId_beNat (isField_of_splitField hsplit).1⟩

/-! ## Sizes -/

/-- A field is the bytes of its marker bit and the bits behind it. -/
theorem beBytes_of_sizeField {field : Bytes} (h : IsSizeField field) :
    beBytes field.length (2 ^ (7 * field.length) + beNat field % 2 ^ (7 * field.length)) = field := by
  obtain ⟨hlo, hhi⟩ := h.beNat_bounds
  have hmod : beNat field % 2 ^ (7 * field.length) = beNat field - 2 ^ (7 * field.length) := by
    rw [Nat.mod_eq_sub_mod hlo, Nat.mod_eq_of_lt (by omega)]
  rw [hmod, Nat.add_sub_cancel' hlo, beBytes_beNat]

/-- A size field is how the size that it stands for is written in its width. -/
theorem encodeSizeField_ofField {field : Bytes} (h : IsSizeField field) (id : Nat) :
    (Header.mk id (.ofField field) (some field.length)).encodeSizeField = .ok field := by
  have hpos := h.length_pos
  have hle := h.le_limit
  have hwidth : ¬(field.length < 1 ∨ maxSizeWidth < field.length) := by omega
  have hbytes := beBytes_of_sizeField h
  have hlt : beNat field % 2 ^ (7 * field.length) < 2 ^ (7 * field.length) :=
    Nat.mod_lt _ (Nat.pow_pos (by omega))
  by_cases hones : beNat field % 2 ^ (7 * field.length) = unknownPattern field.length
  · have hsize : DataSize.ofField field = .unknown := by simp [DataSize.ofField, hones]
    rw [hones] at hbytes
    simp only [Header.encodeSizeField, hsize, Option.getD_some, encodeUnknown, if_neg hwidth, hbytes]
  · have hsize : DataSize.ofField field = .known (beNat field % 2 ^ (7 * field.length)) := by
      simp [DataSize.ofField, hones]
    have hfits : ¬unknownPattern field.length ≤ beNat field % 2 ^ (7 * field.length) := by
      rw [unknownPattern] at hones ⊢
      omega
    simp only [Header.encodeSizeField, hsize, encodeSizeAt, if_neg hwidth, if_neg hfits, hbytes]

/-! ## Headers -/

namespace Header

/-- The two fields of a header are how it is written. -/
theorem encode_ofFields {idField sizeField : Bytes} (hid : IsIdField idField)
    (hsize : IsSizeField sizeField) :
    (ofFields idField sizeField).encode = .ok (idField ++ sizeField) := by
  have hidField : encodeId (ofFields idField sizeField).id = .ok idField := encodeId_beNat hid
  have hsizeField : (ofFields idField sizeField).encodeSizeField = .ok sizeField :=
    encodeSizeField_ofField hsize _
  rw [encode, hidField, hsizeField]

/-- A header that was read is written with the bytes it was read from. -/
theorem encode_of_decode {bytes : Bytes} {h : Header} {used : Nat}
    (hdec : decode bytes = .ok (some (h, used))) : h.encode = .ok (bytes.take used) := by
  obtain ⟨idField, sizeField, rest, hid, hsize, rfl, rfl, rfl⟩ := decode_eq_some_iff.mp hdec
  rw [encode_ofFields hid hsize, List.take_left]

/-- An output that has room for a header takes it whole. -/
theorem write_of_encode {h : Header} {bytes : Bytes} (henc : h.encode = .ok bytes) (out : Sink)
    (hroom : ∀ room ∈ out.room, bytes.length ≤ room) :
    (h.write out).1 = .ok bytes.length ∧ (h.write out).2.written = out.written ++ bytes := by
  rw [write, henc]
  cases hout : out.room with
  | none => simp [Sink.write, hout]
  | some room =>
    have hle := hroom room hout
    simp [Sink.write, hout, hle, List.take_of_length_le hle]

/-- What was written whole is behind what was there before. -/
theorem written_of_write {out out' : Sink} {bytes : Bytes} (h : out.write bytes = (.ok (), out')) :
    out'.written = out.written ++ bytes := by
  unfold Sink.write at h
  split at h
  · rw [← (Prod.mk.inj h).2]
  · dsimp only at h
    split at h
    · rename_i hle
      rw [← (Prod.mk.inj h).2, List.take_of_length_le hle]
    · simp at h

/-- A header that was written is its two fields, at most 12 bytes, and it is read again whatever
follows: the same id and size, with the width in which the size was written. -/
theorem decode_of_write {h : Header} {out out' : Sink} {n : Nat} (hwrite : h.write out = (.ok n, out')) :
    ∃ idField sizeField, encodeId h.id = .ok idField ∧ h.encodeSizeField = .ok sizeField ∧
      out'.written = out.written ++ (idField ++ sizeField) ∧ n = (idField ++ sizeField).length ∧
      n ≤ 12 ∧ ∀ rest, decode (idField ++ sizeField ++ rest) =
        .ok (some (⟨h.id, h.size, some sizeField.length⟩, n)) := by
  unfold write at hwrite
  split at hwrite
  · simp at hwrite
  rename_i bytes henc
  split at hwrite
  · rename_i out₁ hput
    obtain ⟨hn, rfl⟩ := Prod.mk.inj hwrite
    obtain rfl := Except.ok.inj hn
    obtain ⟨idField, sizeField, hid, hsize, rfl⟩ := fields_of_encode henc
    refine ⟨idField, sizeField, hid, hsize, written_of_write hput, rfl, ?_, decode_of_fields hid hsize⟩
    have hidle : idField.length ≤ 4 := (isIdField_of_encodeId hid).1.le_limit
    have hsizele : sizeField.length ≤ 8 := (isSizeField_of_encodeSizeField hsize).1.le_limit
    rw [List.length_append]
    omega
  · simp at hwrite

/-- A header that was read is written with the bytes it was read from. -/
theorem write_of_decode {bytes : Bytes} {h : Header} {used : Nat} {out : Sink}
    (hdec : decode bytes = .ok (some (h, used))) (hroom : ∀ room ∈ out.room, used ≤ room) :
    (h.write out).1 = .ok used ∧ (h.write out).2.written = out.written ++ bytes.take used := by
  have hlength : (bytes.take used).length = used := List.length_take_of_le (used_of_decode hdec).2
  have hwrite := write_of_encode (encode_of_decode hdec) out (by rwa [hlength])
  rwa [hlength] at hwrite

/-- Writing and reading undo each other. A header that was written, at most 12 bytes long, is read
again whatever follows it: the same id and size, with the width in which the size was written. A
header that was read is written with the very bytes it was read from. And an id can be written
exactly if some byte string is read as it. -/
theorem write_and_decode :
    (∀ (h : Header) (out out' : Sink) (n : Nat), h.write out = (.ok n, out') →
      ∃ idField sizeField, encodeId h.id = .ok idField ∧ h.encodeSizeField = .ok sizeField ∧
        out'.written = out.written ++ (idField ++ sizeField) ∧ n = (idField ++ sizeField).length ∧
        n ≤ 12 ∧ ∀ rest, decode (idField ++ sizeField ++ rest) =
          .ok (some (⟨h.id, h.size, some sizeField.length⟩, n))) ∧
      (∀ (bytes : Bytes) (h : Header) (used : Nat), decode bytes = .ok (some (h, used)) →
        ∀ out : Sink, (∀ room ∈ out.room, used ≤ room) →
          (h.write out).1 = .ok used ∧ (h.write out).2.written = out.written ++ bytes.take used) ∧
      ∀ id, (∃ field, encodeId id = .ok field) ↔
        ∃ bytes width, decodeId bytes = .ok (some (id, width)) := by
  refine ⟨fun h out out' n hwrite => ?_, fun bytes h used hdec out hroom => ?_, fun id => ?_⟩
  · exact decode_of_write hwrite
  · exact write_of_decode hdec hroom
  · exact encodeId_iff_decodeId id

/-- The unknown length in 8 bytes behind an id of 4, written where 12 bytes have room, and a size
that is padded to two bytes. -/
theorem write_and_decode_of_padded :
    let live : Bytes := [0x1A, 0x45, 0xDF, 0xA3, 1, 255, 255, 255, 255, 255, 255, 255, 0x42]
    decode live = .ok (some (⟨0x1A45DFA3, .unknown, some 8⟩, 12)) ∧
      (write ⟨0x1A45DFA3, .unknown, some 8⟩ { room := some 12 }).2.written = live.take 12 ∧
      write ⟨0xEC, .known 5, some 2⟩ {} = (.ok 3, ⟨[0xEC, 0x40, 5], none⟩) ∧
      decode ([0xEC, 0x40, 5] ++ [9]) = .ok (some (⟨0xEC, .known 5, some 2⟩, 3)) ∧
      ∃ field, encodeId 0x1A45DFA3 = .ok field := by
  have hdec : decode [0x1A, 0x45, 0xDF, 0xA3, 1, 255, 255, 255, 255, 255, 255, 255, 0x42] =
      .ok (some (⟨0x1A45DFA3, .unknown, some 8⟩, 12)) := by cbv
  have hwrite : write ⟨0xEC, .known 5, some 2⟩ {} = (.ok 3, ⟨[0xEC, 0x40, 5], none⟩) := rfl
  have hidField : encodeId 0xEC = .ok [0xEC] := rfl
  have hsizeField : encodeSizeField ⟨0xEC, .known 5, some 2⟩ = .ok [0x40, 5] := by cbv
  obtain ⟨hwritten, hread, hids⟩ := write_and_decode
  obtain ⟨idField, sizeField, hid, hsize, -, -, -, hrest⟩ := hwritten _ _ _ _ hwrite
  obtain rfl := Except.ok.inj (hid.symm.trans hidField)
  obtain rfl := Except.ok.inj (hsize.symm.trans hsizeField)
  refine ⟨hdec, ?_, hwrite, hrest [9], (hids _).mpr ⟨[0x1A, 0x45, 0xDF, 0xA3], 4, by cbv⟩⟩
  exact (hread _ _ _ hdec { room := some 12 } (by simp)).2

end Header

end Ebml
