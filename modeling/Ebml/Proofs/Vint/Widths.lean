import Mathlib
import Ebml.Proofs.Vint.Canonical
import Ebml.Proofs.Vint.Deciding

/-!
# The widths of a size

A field of `width` bytes holds sizes up to `2 ^ (7 * width) - 2`. One more would set all its data bits,
and that is how the unknown length is written. So what fits in a width fits in every wider one, a size
that is written without a given width takes the least in which it fits, and a known size and an unknown
one never have the same bytes (`sizes_written`).
-/

namespace Ebml

/-- A size can be written in a field of this width. -/
def FitsField (width value : Nat) : Prop :=
  1 ≤ width ∧ width ≤ 8 ∧ value ≤ 2 ^ (7 * width) - 2

variable {width value : Nat}

/-- Of the values of a field only the largest is reserved. -/
theorem lt_unknownPattern_iff (hpos : 1 ≤ width) :
    value < unknownPattern width ↔ value ≤ 2 ^ (7 * width) - 2 := by
  have htwo : 2 ^ 1 ≤ 2 ^ (7 * width) := Nat.pow_le_pow_right (by omega) (by omega)
  rw [unknownPattern]
  omega

/-- What fits in a field fits in a wider one, and so does what is smaller. -/
theorem FitsField.mono {wider smaller : Nat} (h : FitsField width value) (hwider : width ≤ wider)
    (hle : wider ≤ 8) (hsmaller : smaller ≤ value) : FitsField wider smaller := by
  obtain ⟨hpos, -, hfits⟩ := h
  have hpow : 2 ^ (7 * width) ≤ 2 ^ (7 * wider) := Nat.pow_le_pow_right (by omega) (by omega)
  exact ⟨by omega, hle, by omega⟩

theorem fitsField_eight : FitsField 8 value ↔ value ≤ 2 ^ 56 - 2 := by
  simp [FitsField]

/-! ## A given width -/

theorem encodeSizeAt_of_fits (h : FitsField width value) :
    encodeSizeAt width value = .ok (beBytes width (2 ^ (7 * width) + value)) := by
  obtain ⟨hpos, hle, hfits⟩ := h
  have hlt := (lt_unknownPattern_iff hpos).mpr hfits
  rw [encodeSizeAt, if_neg (by unfold maxSizeWidth; omega), if_neg (by omega)]

theorem encodeSizeAt_invalid (h : ¬(1 ≤ width ∧ width ≤ 8)) :
    encodeSizeAt width value = .error (.invalidWidth width) := by
  rw [encodeSizeAt, if_pos (by unfold maxSizeWidth; omega)]

theorem encodeSizeAt_outOfRange (hpos : 1 ≤ width) (hle : width ≤ 8)
    (hlarge : 2 ^ (7 * width) - 2 < value) :
    encodeSizeAt width value = .error (.sizeOutOfRange value width) := by
  have hge : ¬value < unknownPattern width := by
    rw [lt_unknownPattern_iff hpos]
    omega
  rw [encodeSizeAt, if_neg (by unfold maxSizeWidth; omega), if_pos (by omega)]

/-- A size can be written exactly in the widths in which it fits. -/
theorem encodeSizeAt_iff : (∃ field, encodeSizeAt width value = .ok field) ↔ FitsField width value := by
  refine ⟨fun ⟨field, henc⟩ => ?_, fun h => ⟨_, encodeSizeAt_of_fits h⟩⟩
  by_cases hwidth : 1 ≤ width ∧ width ≤ 8
  · by_cases hfits : value ≤ 2 ^ (7 * width) - 2
    · exact ⟨hwidth.1, hwidth.2, hfits⟩
    · rw [encodeSizeAt_outOfRange hwidth.1 hwidth.2 (by omega)] at henc
      simp at henc
  · rw [encodeSizeAt_invalid hwidth] at henc
    simp at henc

theorem length_of_encodeSizeAt {field : Bytes} (h : encodeSizeAt width value = .ok field) :
    field.length = width := by
  have hfits := encodeSizeAt_iff.mp ⟨field, h⟩
  rw [encodeSizeAt_of_fits hfits, Except.ok.injEq] at h
  rw [← h, length_beBytes]

/-! ## The least width -/

/-- The width that is chosen is the least in which the size fits. -/
theorem sizeWidth_least (h : sizeWidth value = .ok width) :
    FitsField width value ∧ ∀ w, FitsField w value → width ≤ w := by
  unfold sizeWidth at h
  split at h
  · rename_i w hfind
    obtain rfl := Except.ok.inj h
    rw [List.find?_range'_eq_some] at hfind
    obtain ⟨hlt, hmem, hbefore⟩ := hfind
    rw [List.mem_range'_1] at hmem
    have hfits := (lt_unknownPattern_iff hmem.1).mp (by simpa using hlt)
    refine ⟨⟨hmem.1, by omega, hfits⟩, fun v hv => Nat.not_lt.mp fun hless => ?_⟩
    have hmiss := hbefore v hv.1 hless
    rw [decide_eq_true ((lt_unknownPattern_iff hv.1).mpr hv.2.2)] at hmiss
    simp at hmiss
  · simp at h

theorem sizeWidth_outOfRange (h : 2 ^ 56 - 2 < value) :
    sizeWidth value = .error (.sizeOutOfRange value 8) := by
  unfold sizeWidth
  split
  · rename_i width hfind
    have hwidth : sizeWidth value = .ok width := by rw [sizeWidth, hfind]
    have hfits := (sizeWidth_least hwidth).1
    have hle := fitsField_eight.mp (hfits.mono hfits.2.1 (Nat.le_refl 8) (Nat.le_refl value))
    omega
  · rfl

theorem exists_sizeWidth (h : value ≤ 2 ^ 56 - 2) : ∃ width, sizeWidth value = .ok width := by
  have hlt : value < unknownPattern 8 := (lt_unknownPattern_iff (by omega)).mpr h
  unfold sizeWidth
  split
  · exact ⟨_, rfl⟩
  · rename_i hnone
    rw [List.find?_eq_none] at hnone
    have := hnone 8 (by decide)
    simp at this
    omega

/-- A size that is written without a given width is written in the least in which it fits. -/
theorem encodeSize_least {field : Bytes} (h : encodeSize value = .ok field) :
    encodeSizeAt field.length value = .ok field ∧ ∀ w, FitsField w value → field.length ≤ w := by
  unfold encodeSize at h
  split at h
  · simp at h
  · rename_i width hwidth
    rw [length_of_encodeSizeAt h]
    exact ⟨h, (sizeWidth_least hwidth).2⟩

theorem encodeSize_outOfRange (h : 2 ^ 56 - 2 < value) :
    encodeSize value = .error (.sizeOutOfRange value 8) := by
  rw [encodeSize, sizeWidth_outOfRange h]

theorem encodeSize_iff : (∃ field, encodeSize value = .ok field) ↔ value ≤ 2 ^ 56 - 2 := by
  constructor
  · rintro ⟨field, henc⟩
    refine Nat.not_lt.mp fun hlarge => ?_
    rw [encodeSize_outOfRange hlarge] at henc
    simp at henc
  · intro h
    obtain ⟨width, hwidth⟩ := exists_sizeWidth h
    rw [encodeSize, hwidth]
    exact encodeSizeAt_iff.mpr (sizeWidth_least hwidth).1

/-- A larger size takes no fewer bytes. -/
theorem length_encodeSize_mono {more : Nat} {field longer : Bytes} (hle : value ≤ more)
    (h : encodeSize value = .ok field) (h' : encodeSize more = .ok longer) :
    field.length ≤ longer.length := by
  have hfits := encodeSizeAt_iff.mp ⟨longer, (encodeSize_least h').1⟩
  exact (encodeSize_least h).2 _ (hfits.mono (Nat.le_refl _) hfits.2.1 hle)

/-! ## Fields of sizes -/

/-- A size that was written, with or without a given width, announces its width in its first byte and
is read again whatever follows. -/
theorem decodeSize_of_encode {field : Bytes}
    (h : encodeSizeAt width value = .ok field ∨ encodeSize value = .ok field) :
    field.head?.map vintWidth = some field.length ∧
      ∀ rest, decodeSize (field ++ rest) = .ok (some (.known value, field.length)) := by
  obtain ⟨hfield, hstands⟩ : IsSizeField field ∧ DataSize.ofField field = .known value :=
    h.elim isSizeField_of_encodeSizeAt isSizeField_of_encodeSize
  refine ⟨hfield.width_eq, fun rest => ?_⟩
  rw [readsField_decodeSize.decode_append hfield, hstands]

theorem encodeUnknown_iff :
    (∃ field, encodeUnknown width = .ok field) ↔ 1 ≤ width ∧ width ≤ 8 := by
  unfold encodeUnknown maxSizeWidth
  split
  · simp
    omega
  · simp
    omega

/-- The unknown length is as wide as it was asked for, and nothing else reads as it. -/
theorem decodeSize_of_encodeUnknown {field : Bytes} (h : encodeUnknown width = .ok field) :
    field.length = width ∧ field.head?.map vintWidth = some field.length ∧
      ∀ rest, decodeSize (field ++ rest) = .ok (some (.unknown, field.length)) := by
  obtain ⟨hfield, hstands⟩ := isSizeField_of_encodeUnknown h
  refine ⟨?_, hfield.width_eq, fun rest => ?_⟩
  · unfold encodeUnknown at h
    split at h
    · simp at h
    · rw [← Except.ok.inj h, length_beBytes]
  · rw [readsField_decodeSize.decode_append hfield, hstands]

/-- A field is how the known size that it stands for is written in its width. -/
theorem encodeSizeAt_of_ofField {field : Bytes} (h : IsSizeField field)
    (hstands : DataSize.ofField field = .known value) : encodeSizeAt field.length value = .ok field := by
  have henc := encodeSizeField_ofField h 0
  rwa [hstands] at henc

/-- A field that stands for the unknown length is how that is written in its width. -/
theorem encodeUnknown_of_ofField {field : Bytes} (h : IsSizeField field)
    (hstands : DataSize.ofField field = .unknown) : encodeUnknown field.length = .ok field := by
  have henc := encodeSizeField_ofField h 0
  rwa [hstands] at henc

/-- A known size is read exactly where it was written. -/
theorem decodeSize_known_iff {bytes : Bytes} :
    decodeSize bytes = .ok (some (.known value, width)) ↔
      ∃ field rest, encodeSizeAt width value = .ok field ∧ bytes = field ++ rest := by
  constructor
  · intro h
    obtain ⟨field, rest, hfield, rfl, hstands, rfl⟩ := readsField_decodeSize.field_of_decode h
    exact ⟨field, rest, encodeSizeAt_of_ofField hfield hstands.symm, rfl⟩
  · rintro ⟨field, rest, henc, rfl⟩
    rw [(decodeSize_of_encode (.inl henc)).2 rest, length_of_encodeSizeAt henc]

/-- The unknown length is read exactly where it was written. -/
theorem decodeSize_unknown_iff {bytes : Bytes} :
    decodeSize bytes = .ok (some (.unknown, width)) ↔
      ∃ field rest, encodeUnknown width = .ok field ∧ bytes = field ++ rest := by
  constructor
  · intro h
    obtain ⟨field, rest, hfield, rfl, hstands, rfl⟩ := readsField_decodeSize.field_of_decode h
    exact ⟨field, rest, encodeUnknown_of_ofField hfield hstands.symm, rfl⟩
  · rintro ⟨field, rest, henc, rfl⟩
    obtain ⟨hlength, -, hread⟩ := decodeSize_of_encodeUnknown henc
    rw [hread rest, hlength]

/-- A first byte announces more than 8 bytes only if it is zero, and then 9. -/
theorem vintWidth_gt_iff {first : UInt8} : 8 < vintWidth first ↔ first = 0 := by
  constructor
  · intro h
    cases hfind : (List.range' 1 8).find? fun w => 2 ^ (8 - w) ≤ first.toNat with
    | none =>
      rw [List.find?_eq_none] at hfind
      have hlow := hfind 8 (by decide)
      apply UInt8.toNat_inj.mp
      simpa using hlow
    | some w =>
      have hmem := List.mem_of_find?_eq_some hfind
      rw [List.mem_range'_1] at hmem
      simp only [vintWidth, hfind, Option.getD_some] at h
      omega
  · rintro rfl
    decide

/-- Only what its first byte announces spoils a size. -/
theorem splitSize_error_iff {first : UInt8} {rest : Bytes} {e : VintError} :
    splitSize (first :: rest) = .error e ↔
      8 < vintWidth first ∧ e = .sizeTooWide (vintWidth first) := by
  rw [splitSize, splitField, maxSizeWidth]
  by_cases hwide : 8 < vintWidth first
  · simp [hwide, eq_comm]
  · simp only [hwide, if_false, false_and, iff_false]
    split <;> simp

/-- The only sizes that cannot be read whatever follows start with a zero byte. -/
theorem decodeSize_error_iff {bytes : Bytes} {e : VintError} :
    decodeSize bytes = .error e ↔ e = .sizeTooWide 9 ∧ bytes.head? = some 0 := by
  rw [readsField_decodeSize.decode_eq_error]
  cases bytes with
  | nil => simp [splitField_nil]
  | cons first rest =>
    rw [splitSize_error_iff, vintWidth_gt_iff, List.head?_cons, Option.some.injEq, and_comm]
    refine and_congr_left fun hzero => ?_
    rw [hzero, show vintWidth 0 = 9 by decide]

/-- In a given width a size can be written exactly if there is such a width and the size is below the
reserved value, and otherwise the error says which of the two it is. Without a given width every size
up to `2 ^ 56 - 2` can be written. It takes the least width in which it can be, so a larger size takes
no fewer bytes. The first byte announces the width of the field, a known size is read as itself, and
the unknown length, which can be written in each width, as the unknown length. -/
theorem sizes_written (value width : Nat) :
    ((∃ field, encodeSizeAt width value = .ok field) ↔
        1 ≤ width ∧ width ≤ 8 ∧ value ≤ 2 ^ (7 * width) - 2) ∧
      (¬(1 ≤ width ∧ width ≤ 8) → encodeSizeAt width value = .error (.invalidWidth width)) ∧
      (1 ≤ width → width ≤ 8 → 2 ^ (7 * width) - 2 < value →
        encodeSizeAt width value = .error (.sizeOutOfRange value width)) ∧
      (∀ field, encodeSizeAt width value = .ok field → field.length = width) ∧
      ((∃ field, encodeSize value = .ok field) ↔ value ≤ 2 ^ 56 - 2) ∧
      (2 ^ 56 - 2 < value → encodeSize value = .error (.sizeOutOfRange value 8)) ∧
      (∀ field, encodeSize value = .ok field → encodeSizeAt field.length value = .ok field ∧
        ∀ w, (∃ other, encodeSizeAt w value = .ok other) → field.length ≤ w) ∧
      (∀ more field longer, value ≤ more → encodeSize value = .ok field →
        encodeSize more = .ok longer → field.length ≤ longer.length) ∧
      (∀ field, encodeSizeAt width value = .ok field ∨ encodeSize value = .ok field →
        field.head?.map vintWidth = some field.length ∧
          ∀ rest, decodeSize (field ++ rest) = .ok (some (.known value, field.length))) ∧
      ((∃ field, encodeUnknown width = .ok field) ↔ 1 ≤ width ∧ width ≤ 8) ∧
      ∀ field, encodeUnknown width = .ok field →
        field.length = width ∧ field.head?.map vintWidth = some field.length ∧
          ∀ rest, decodeSize (field ++ rest) = .ok (some (.unknown, field.length)) := by
  refine ⟨encodeSizeAt_iff, encodeSizeAt_invalid, encodeSizeAt_outOfRange,
    fun field h => length_of_encodeSizeAt h, encodeSize_iff, encodeSize_outOfRange,
    fun field h => ?_, fun more field longer hle h h' => length_encodeSize_mono hle h h',
    fun field h => decodeSize_of_encode h, encodeUnknown_iff,
    fun field h => decodeSize_of_encodeUnknown h⟩
  obtain ⟨hat, hleast⟩ := encodeSize_least h
  exact ⟨hat, fun w hw => hleast w (encodeSizeAt_iff.mp hw)⟩

/-- The largest size of two bytes, the value behind it, which is reserved there, and a width that no
field has. -/
theorem sizes_written_at_limit :
    encodeSize 16382 = .ok [0x7F, 0xFE] ∧
      (∀ w, (∃ other, encodeSizeAt w 16382 = .ok other) → 2 ≤ w) ∧
      encodeSizeAt 2 16383 = .error (.sizeOutOfRange 16383 2) ∧
      encodeSizeAt 9 16382 = .error (.invalidWidth 9) ∧
      (∀ longer, encodeSize 16383 = .ok longer → 2 ≤ longer.length) ∧
      (∀ rest, decodeSize ([0x7F, 0xFE] ++ rest) = .ok (some (.known 16382, 2))) ∧
      encodeUnknown 2 = .ok [0x7F, 0xFF] ∧
      ∀ rest, decodeSize ([0x7F, 0xFF] ++ rest) = .ok (some (.unknown, 2)) := by
  have hsize : encodeSize 16382 = .ok [0x7F, 0xFE] := by cbv
  have hunknown : encodeUnknown 2 = .ok [0x7F, 0xFF] := by cbv
  obtain ⟨-, -, -, -, -, -, hleast, hmono, hread, -, hreserved⟩ := sizes_written 16382 2
  obtain ⟨-, -, hlarge, -⟩ := sizes_written 16383 2
  obtain ⟨-, hinvalid, -⟩ := sizes_written 16382 9
  exact ⟨hsize, (hleast _ hsize).2, hlarge (by omega) (by omega) (by omega), hinvalid (by omega),
    fun longer h => hmono 16383 _ longer (by omega) hsize h, (hread _ (.inr hsize)).2, hunknown,
    (hreserved _ hunknown).2.2⟩

end Ebml
