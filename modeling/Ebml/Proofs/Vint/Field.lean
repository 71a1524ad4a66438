import Ebml.Header

/-!
# Complete fields

Both header fields are split off a byte string in the same way and then read as a whole. What a
decoder answers therefore depends only on the field in front: more bytes after it change nothing, and
a header is an id field followed by a size field (`Header.decode_eq_some_iff`).
-/

namespace Ebml

/-! ## The announced width -/

/-- Every first byte announces at least one byte. -/
theorem vintWidth_pos (first : UInt8) : 0 < vintWidth first := by
  unfold vintWidth
  cases hfind : (List.range' 1 8).find? fun w => 2 ^ (8 - w) ≤ first.toNat with
  | none => simp
  | some w =>
    have hmem := List.mem_of_find?_eq_some hfind
    simp only [List.mem_range'_1] at hmem
    simp only [Option.getD_some]
    omega

/-- A first byte announces `w` bytes if its marker bit is the `w`-th from the top. -/
theorem vintWidth_eq {first : UInt8} {w : Nat} (hpos : 1 ≤ w) (hle : w ≤ 8)
    (hlo : 2 ^ (8 - w) ≤ first.toNat) (hhi : first.toNat < 2 ^ (9 - w)) : vintWidth first = w := by
  have hfind : (List.range' 1 8).find? (fun v => 2 ^ (8 - v) ≤ first.toNat) = some w := by
    rw [List.find?_range'_eq_some]
    refine ⟨by simpa using hlo, by simp; omega, fun v hv hlt => ?_⟩
    have : 2 ^ (9 - w) ≤ 2 ^ (8 - v) := Nat.pow_le_pow_right (by omega) (by omega)
    simp
    omega
  simp [vintWidth, hfind]

/-! ## Splitting a field off -/

section

variable {limit : Nat} {tooWide : Nat → VintError}

/-- The field in front of a byte string is not empty, not too wide and as wide as it says. -/
structure IsField (limit : Nat) (field : Bytes) : Prop where
  le_limit : field.length ≤ limit
  width_eq : field.head?.map vintWidth = some field.length

namespace IsField

variable {field : Bytes}

theorem ne_nil (h : IsField limit field) : field ≠ [] := by
  rintro rfl
  simpa using h.width_eq

theorem length_pos (h : IsField limit field) : 0 < field.length :=
  List.length_pos_iff.mpr h.ne_nil

/-- A field in front is what is split off, whatever follows it. -/
theorem splitField_append (h : IsField limit field) (rest : Bytes) :
    splitField limit tooWide (field ++ rest) = .ok (some field) := by
  cases field with
  | nil => exact absurd rfl h.ne_nil
  | cons first more =>
    have hwidth : vintWidth first = (first :: more).length := by simpa using h.width_eq
    have hle := h.le_limit
    rw [List.cons_append, splitField]
    simp only [hwidth]
    rw [if_neg (by omega), if_neg (by simp)]
    simp

end IsField

/-- What is split off is a field, and the byte string starts with it. -/
theorem isField_of_splitField {bytes field : Bytes}
    (h : splitField limit tooWide bytes = .ok (some field)) :
    IsField limit field ∧ ∃ rest, bytes = field ++ rest := by
  cases bytes with
  | nil => simp [splitField] at h
  | cons first more =>
    rw [splitField] at h
    by_cases hwide : limit < vintWidth first
    · simp [hwide] at h
    · by_cases hshort : (first :: more).length < vintWidth first
      · simp only [hwide, hshort] at h
        simp at h
      · simp only [hwide, hshort, if_false, Except.ok.injEq, Option.some.injEq] at h
        have hlen : field.length = vintWidth first := by
          rw [← h, List.length_take]; omega
        refine ⟨⟨by omega, ?_⟩, (first :: more).drop (vintWidth first), ?_⟩
        · obtain ⟨w, hw⟩ := Nat.exists_eq_succ_of_ne_zero (Nat.ne_of_gt (vintWidth_pos first))
          rw [← h, hw, List.take_succ_cons, List.head?_cons, Option.map_some, hw]
          rw [← h, hw, List.take_succ_cons] at hlen
          rw [hlen]
        · rw [← h, List.take_append_drop]

/-- A field that is too wide stays so, whatever follows. -/
theorem splitField_append_error {bytes : Bytes} {e : VintError}
    (h : splitField limit tooWide bytes = .error e) (rest : Bytes) :
    splitField limit tooWide (bytes ++ rest) = .error e := by
  cases bytes with
  | nil => simp [splitField] at h
  | cons first more =>
    rw [splitField] at h
    rw [List.cons_append, splitField]
    by_cases hwide : limit < vintWidth first
    · simpa [hwide] using h
    · by_cases hshort : (first :: more).length < vintWidth first
      · simp only [hwide, hshort] at h
        simp at h
      · simp only [hwide, hshort] at h
        simp at h

/-- It is too wide from its first byte on. -/
theorem splitField_front_of_error {front more : Bytes} {e : VintError} (hne : front ≠ [])
    (h : splitField limit tooWide (front ++ more) = .error e) :
    splitField limit tooWide front = .error e := by
  cases front with
  | nil => exact absurd rfl hne
  | cons first rest =>
    rw [List.cons_append, splitField] at h
    rw [splitField]
    by_cases hwide : limit < vintWidth first
    · simpa [hwide] using h
    · by_cases hshort : (first :: (rest ++ more)).length < vintWidth first
      · simp only [hwide, hshort] at h
        simp at h
      · simp only [hwide, hshort] at h
        simp at h

/-- A byte string that ends inside a field is shorter than the field, which is not too wide. -/
theorem splitField_none {first : UInt8} {more : Bytes}
    (h : splitField limit tooWide (first :: more) = .ok none) :
    vintWidth first ≤ limit ∧ (first :: more).length < vintWidth first := by
  rw [splitField] at h
  by_cases hwide : limit < vintWidth first
  · simp [hwide] at h
  · by_cases hshort : (first :: more).length < vintWidth first
    · exact ⟨by omega, hshort⟩
    · simp only [hwide, hshort] at h
      simp at h

/-- A byte string that starts like a field but is shorter lacks bytes. -/
theorem splitField_of_short {first : UInt8} {more : Bytes} (hle : vintWidth first ≤ limit)
    (hshort : more.length + 1 < vintWidth first) :
    splitField limit tooWide (first :: more) = .ok none := by
  rw [splitField, if_neg (by omega), if_pos (by rwa [List.length_cons])]

/-- Without its bytes there is no field. -/
theorem splitField_nil : splitField limit tooWide [] = .ok none := rfl

/-- What lacks bytes lacked them before. -/
theorem splitField_front_of_none {front more : Bytes}
    (h : splitField limit tooWide (front ++ more) = .ok none) :
    splitField limit tooWide front = .ok none := by
  cases front with
  | nil => exact splitField_nil
  | cons first rest =>
    rw [List.cons_append] at h
    obtain ⟨hle, hshort⟩ := splitField_none h
    rw [List.length_cons, List.length_append] at hshort
    exact splitField_of_short hle (by omega)

/-- A field lacks bytes until the last one is there. -/
theorem IsField.splitField_front {front more : Bytes} (h : IsField limit (front ++ more))
    (hmore : more ≠ []) : splitField limit tooWide front = .ok none := by
  cases front with
  | nil => exact splitField_nil
  | cons first rest =>
    have hwidth : vintWidth first = ((first :: rest) ++ more).length := by simpa using h.width_eq
    have hle := h.le_limit
    have hpos := List.length_pos_iff.mpr hmore
    rw [List.length_append, List.length_cons] at hwidth hle
    exact splitField_of_short (by omega) (by omega)

end

/-! ## The two fields of a header -/

/-- The bytes of an id. -/
abbrev IsIdField (field : Bytes) : Prop := IsField maxIdWidth field

/-- The bytes of a size. -/
abbrev IsSizeField (field : Bytes) : Prop := IsField maxSizeWidth field

/-- The id in front, still as a field. -/
abbrev splitId (bytes : Bytes) : Except VintError (Option Bytes) :=
  splitField maxIdWidth .idTooWide bytes

/-- The size in front, still as a field. -/
abbrev splitSize (bytes : Bytes) : Except VintError (Option Bytes) :=
  splitField maxSizeWidth .sizeTooWide bytes

/-- The header that two fields make up. -/
def Header.ofFields (idField sizeField : Bytes) : Header :=
  ⟨beNat idField, .ofField sizeField, some sizeField.length⟩

theorem splitId_append {field : Bytes} (h : IsIdField field) (rest : Bytes) :
    splitId (field ++ rest) = .ok (some field) :=
  h.splitField_append rest

theorem splitSize_append {field : Bytes} (h : IsSizeField field) (rest : Bytes) :
    splitSize (field ++ rest) = .ok (some field) :=
  h.splitField_append rest

theorem decodeId_eq (bytes : Bytes) :
    decodeId bytes = (splitId bytes).map (Option.map fun f => (beNat f, f.length)) := by
  rw [decodeId]
  split <;> rename_i h <;> simp [h, Except.map]

theorem decodeSize_eq (bytes : Bytes) :
    decodeSize bytes = (splitSize bytes).map (Option.map fun f => (DataSize.ofField f, f.length)) := by
  rw [decodeSize]
  split <;> rename_i h <;> simp [h, Except.map]

namespace Header

/-- An id that is too wide spoils the header. -/
theorem decode_of_id_error {bytes : Bytes} {e : VintError} (h : splitId bytes = .error e) :
    decode bytes = .error e := by
  simp [decode, decodeId_eq, h, Except.map]

/-- Without a whole id there is no header. -/
theorem decode_of_id_none {bytes : Bytes} (h : splitId bytes = .ok none) :
    decode bytes = .ok none := by
  simp [decode, decodeId_eq, h, Except.map]

/-- Behind a whole id the size decides. -/
theorem decode_of_id {idField : Bytes} (h : IsIdField idField) (rest : Bytes) :
    decode (idField ++ rest) =
      (splitSize rest).map (Option.map fun f => (ofFields idField f, idField.length + f.length)) := by
  simp only [decode, decodeId_eq, splitId_append h, Except.map, Option.map_some,
    List.drop_left, decodeSize_eq]
  cases splitSize rest with
  | error e => rfl
  | ok found => cases found <;> rfl

/-- Two fields are read as their header, whatever follows. -/
theorem decode_fields {idField sizeField : Bytes} (hid : IsIdField idField)
    (hsize : IsSizeField sizeField) (rest : Bytes) :
    decode (idField ++ sizeField ++ rest) =
      .ok (some (ofFields idField sizeField, (idField ++ sizeField).length)) := by
  rw [List.append_assoc, decode_of_id hid, splitSize_append hsize]
  simp [Except.map]

/-- A header was read exactly if its two fields stand in front. -/
theorem decode_eq_some_iff {bytes : Bytes} {h : Header} {used : Nat} :
    decode bytes = .ok (some (h, used)) ↔
      ∃ idField sizeField rest, IsIdField idField ∧ IsSizeField sizeField ∧
        bytes = idField ++ sizeField ++ rest ∧ h = ofFields idField sizeField ∧
        used = (idField ++ sizeField).length := by
  constructor
  · intro hdec
    rcases hid : splitId bytes with e | _ | idField
    · simp [decode_of_id_error hid] at hdec
    · simp [decode_of_id_none hid] at hdec
    · obtain ⟨hidField, rest, rfl⟩ := isField_of_splitField hid
      rw [decode_of_id hidField] at hdec
      rcases hsize : splitSize rest with e | _ | sizeField
      · simp [hsize, Except.map] at hdec
      · simp [hsize, Except.map] at hdec
      · obtain ⟨hsizeField, rest, rfl⟩ := isField_of_splitField hsize
        simp only [hsize, Except.map, Option.map_some, Except.ok.injEq, Option.some.injEq,
          Prod.mk.injEq] at hdec
        exact ⟨idField, sizeField, rest, hidField, hsizeField, by simp, hdec.1.symm,
          by rw [List.length_append]; exact hdec.2.symm⟩
  · rintro ⟨idField, sizeField, rest, hid, hsize, rfl, rfl, rfl⟩
    exact decode_fields hid hsize rest

/-- A whole header is read whatever follows. -/
theorem decode_append {bytes : Bytes} {h : Header}
    (hdec : decode bytes = .ok (some (h, bytes.length))) (rest : Bytes) :
    decode (bytes ++ rest) = .ok (some (h, bytes.length)) := by
  obtain ⟨idField, sizeField, more, hid, hsize, rfl, rfl, hused⟩ := decode_eq_some_iff.mp hdec
  obtain rfl : more = [] := by
    apply List.eq_nil_of_length_eq_zero
    simpa using hused
  rw [List.append_nil]
  exact decode_fields hid hsize rest

/-- A header that was read takes bytes, and no more than there are. -/
theorem used_of_decode {bytes : Bytes} {h : Header} {used : Nat}
    (hdec : decode bytes = .ok (some (h, used))) : 0 < used ∧ used ≤ bytes.length := by
  obtain ⟨idField, sizeField, rest, hid, -, rfl, -, rfl⟩ := decode_eq_some_iff.mp hdec
  have := hid.length_pos
  simp only [List.length_append]
  omega

end Header

end Ebml
