import Mathlib
import Ebml.Element
import Ebml.Proofs.Bytes.Signed
import Ebml.Proofs.Vint.Widths

/-!
# The grammar of frames

A payload is a frame exactly if it is a track number as a size field of any width, a timecode in two
bytes, a byte of flags and any data. What is no frame starts with a zero byte, which announces no size
field, or with the field of the unknown length, or it ends too early, and these are told apart by the
error (`decode_grammar`). Three bits of the flags are reserved and are not kept; all else in a payload
can be written again from the frame.
-/

namespace Ebml

/-! ## Flags -/

/-- What holds of all numbers below 256 holds of every byte. -/
theorem forall_byte {P : UInt8 → Prop} (h : ∀ n < 256, P (UInt8.ofNat n)) (b : UInt8) : P b := by
  have hb := h b.toNat b.toNat_lt
  rwa [UInt8.ofNat_toNat] at hb

/-- The bits of a lacing are the two that it was read from. -/
theorem Lacing.toFlags_ofFlags (flags : UInt8) : (ofFlags flags).toFlags = flags &&& 6 := by
  revert flags
  exact forall_byte (by decide +kernel)

/-- A lacing is known by its bits. -/
theorem Lacing.toFlags_injective {l l' : Lacing} (h : l.toFlags = l'.toFlags) : l = l' := by
  revert h
  cases l <;> cases l' <;> decide

namespace Frame

theorem flag_eq_testBit (flags : UInt8) (bit : Nat) : flag flags bit = flags.toNat.testBit bit := by
  rw [flag, Nat.testBit_eq_decide_div_mod_eq]
  rfl

/-- The flags of a frame as a byte, the reserved bits being zero. -/
def flagsByte (f : Frame) : UInt8 :=
  (if f.keyFrame then 0x80 else 0) ||| (if f.invisible then 8 else 0) ||| f.lacing.toFlags |||
    (if f.discardable then 1 else 0)

/-- A frame as a payload, with the track number in a field of the given width. -/
def encode (width : Nat) (f : Frame) : Except VintError Bytes :=
  (encodeSizeAt width f.track).map fun field =>
    field ++ (beBytesInt 2 f.timecode ++ f.flagsByte :: f.data)

/-- The payload is the frame behind a header with this field for the track number and these flags. -/
structure Written (f : Frame) (field : Bytes) (flags : UInt8) (payload : Bytes) : Prop where
  payload_eq : payload = field ++ (beBytesInt 2 f.timecode ++ flags :: f.data)
  track : encodeSizeAt field.length f.track = .ok field
  timecode : FitsSigned 2 f.timecode
  keyFrame : f.keyFrame = flags.toNat.testBit 7
  invisible : f.invisible = flags.toNat.testBit 3
  discardable : f.discardable = flags.toNat.testBit 0
  lacing : f.lacing.toFlags = flags &&& 6

/-- A byte without its bits 4 to 6 is made up of the others. -/
theorem bits_masked (flags : UInt8) :
    (if flags.toNat.testBit 7 then 0x80 else 0) ||| (if flags.toNat.testBit 3 then 8 else 0) |||
      (flags &&& 6) ||| (if flags.toNat.testBit 0 then 1 else 0) = flags &&& 0x8F := by
  revert flags
  exact forall_byte (by decide +kernel)

/-- All but the reserved bits of the flags are kept. -/
theorem Written.flagsByte_eq {f : Frame} {field payload : Bytes} {flags : UInt8}
    (h : f.Written field flags payload) : f.flagsByte = flags &&& 0x8F := by
  rw [flagsByte, h.keyFrame, h.invisible, h.discardable, h.lacing, bits_masked]

/-- A frame that was read is written with the same bytes, the reserved bits apart. -/
theorem Written.encode_eq {f : Frame} {field payload : Bytes} {flags : UInt8}
    (h : f.Written field flags payload) : f.encode field.length =
      .ok (field ++ (beBytesInt 2 f.timecode ++ (flags &&& 0x8F) :: f.data)) := by
  rw [encode, h.track, h.flagsByte_eq]
  rfl

/-! ## Decoding -/

variable {payload field : Bytes} {width : Nat}

/-- The frame that a header of these parts stands for. -/
def ofParts (track : Nat) (high low flags : UInt8) (data : Bytes) : Frame where
  track := track
  timecode := beInt [high, low]
  keyFrame := flag flags 7
  invisible := flag flags 3
  discardable := flag flags 0
  lacing := .ofFlags flags
  data := data

/-- Behind the track number the rest of the header decides. -/
theorem decode_of_track {track : Nat} (h : encodeSizeAt width track = .ok field) (rest : Bytes) :
    decode (field ++ rest) =
      match rest with
      | high :: low :: flags :: data => .ok (ofParts track high low flags data)
      | _ => .error (.truncated (field ++ rest).length) := by
  rw [decode, (decodeSize_of_encode (.inl h)).2 rest]
  dsimp only
  rw [List.drop_left]
  rfl

theorem decode_of_reserved (h : encodeUnknown width = .ok field) (rest : Bytes) :
    decode (field ++ rest) = .error .reservedTrack := by
  rw [decode, (decodeSize_of_encodeUnknown h).2.2 rest]

theorem decode_of_zero (h : payload.head? = some 0) :
    decode payload = .error (.vint (.sizeTooWide 9)) := by
  rw [decode, decodeSize_error_iff.mpr ⟨rfl, h⟩]

theorem written_ofParts {track : Nat} (h : encodeSizeAt width track = .ok field)
    (high low flags : UInt8) (data : Bytes) :
    (ofParts track high low flags data).Written field flags
      (field ++ high :: low :: flags :: data) where
  payload_eq := by
    have hbytes : beBytesInt 2 (beInt [high, low]) = [high, low] := beBytesInt_beInt [high, low]
    rw [ofParts, hbytes]
    rfl
  track := by rwa [length_of_encodeSizeAt h]
  timecode := fitsSigned_beInt [high, low]
  keyFrame := flag_eq_testBit flags 7
  invisible := flag_eq_testBit flags 3
  discardable := flag_eq_testBit flags 0
  lacing := Lacing.toFlags_ofFlags flags

/-- A frame is read from what it was written as. -/
theorem Written.decode_eq {f : Frame} {flags : UInt8} (h : f.Written field flags payload) :
    decode payload = .ok f := by
  obtain ⟨high, low, hbytes⟩ : ∃ high low, beBytesInt 2 f.timecode = [high, low] := ⟨_, _, rfl⟩
  have htimecode : beInt [high, low] = f.timecode := by rw [← hbytes, beInt_beBytesInt h.timecode]
  have hlacing : Lacing.ofFlags flags = f.lacing :=
    Lacing.toFlags_injective ((Lacing.toFlags_ofFlags flags).trans h.lacing.symm)
  rw [h.payload_eq, hbytes, decode_of_track h.track]
  simp only [List.cons_append, List.nil_append, ofParts, htimecode, hlacing, flag_eq_testBit,
    ← h.keyFrame, ← h.invisible, ← h.discardable]

/-- A payload that begins like a frame and has all of its header. -/
def HasHeader (payload : Bytes) : Prop :=
  ∃ width track field high low flags data,
    encodeSizeAt width track = .ok field ∧ payload = field ++ high :: low :: flags :: data

/-- A payload that begins with the field of the unknown length. -/
def StartsReserved (payload : Bytes) : Prop :=
  ∃ width field rest, encodeUnknown width = .ok field ∧ payload = field ++ rest

theorem decode_of_hasHeader (h : HasHeader payload) :
    ∃ f field flags, f.Written field flags payload ∧ decode payload = .ok f := by
  obtain ⟨width, track, field, high, low, flags, data, henc, rfl⟩ := h
  have hwritten := written_ofParts henc high low flags data
  exact ⟨_, field, flags, hwritten, hwritten.decode_eq⟩

theorem decode_of_startsReserved (h : StartsReserved payload) :
    decode payload = .error .reservedTrack := by
  obtain ⟨width, field, rest, henc, rfl⟩ := h
  exact decode_of_reserved henc rest

/-- A payload that begins in no other way ends inside its header. -/
theorem decode_of_else (hheader : ¬HasHeader payload) (hzero : payload.head? ≠ some 0)
    (hreserved : ¬StartsReserved payload) :
    decode payload = .error (.truncated payload.length) := by
  rcases hsize : decodeSize payload with e | _ | ⟨_ | _, width⟩
  · exact absurd (decodeSize_error_iff.mp hsize).2 hzero
  · rw [decode, hsize]
  · obtain ⟨field, rest, henc, rfl⟩ := decodeSize_known_iff.mp hsize
    rw [decode_of_track henc]
    split
    · rename_i high low flags data
      exact absurd ⟨_, _, field, high, low, flags, data, henc, rfl⟩ hheader
    · rfl
  · exact absurd ⟨width, decodeSize_unknown_iff.mp hsize⟩ hreserved

/-- What a payload is read as says how it begins, and so does the error if it is no frame. -/
theorem decode_says (payload : Bytes) :
    match decode payload with
    | .ok f => HasHeader payload ∧ ∃ field flags, f.Written field flags payload
    | .error (.vint e) => e = .sizeTooWide 9 ∧ payload.head? = some 0
    | .error .reservedTrack => StartsReserved payload
    | .error (.truncated n) => n = payload.length ∧ ¬HasHeader payload ∧
        payload.head? ≠ some 0 ∧ ¬StartsReserved payload := by
  by_cases hheader : HasHeader payload
  · obtain ⟨f, field, flags, hwritten, hdecode⟩ := decode_of_hasHeader hheader
    rw [hdecode]
    exact ⟨hheader, field, flags, hwritten⟩
  · by_cases hzero : payload.head? = some 0
    · rw [decode_of_zero hzero]
      exact ⟨rfl, hzero⟩
    · by_cases hreserved : StartsReserved payload
      · rw [decode_of_startsReserved hreserved]
        exact hreserved
      · rw [decode_of_else hheader hzero hreserved]
        exact ⟨rfl, hheader, hzero, hreserved⟩

/-- A payload is read as a frame exactly if it begins with the whole header of one, and then as the
frame that is written so: with the track number of the field in front, the timecode of the two bytes
behind it, the flags of the next and all the rest as data. Written again with a field of that width the
frame is the payload but for bits 4 to 6 of its flags. A payload that is no frame is refused for its
first byte if that is zero, for its track number if it begins with the field of the unknown length, and
for its length in all other cases. A binary simple block has this frame, or this error, as its value. -/
theorem decode_grammar :
    (∀ payload,
      ((∃ f, decode payload = .ok f) ↔ HasHeader payload) ∧
      (∀ f, decode payload = .ok f ↔ ∃ field flags, f.Written field flags payload) ∧
      (∀ (f : Frame) field flags, f.Written field flags payload → f.encode field.length =
        .ok (field ++ (beBytesInt 2 f.timecode ++ (flags &&& 0x8F) :: f.data))) ∧
      (∀ e, decode payload = .error (.vint e) ↔ e = .sizeTooWide 9 ∧ payload.head? = some 0) ∧
      (decode payload = .error .reservedTrack ↔ StartsReserved payload) ∧
      ∀ n, decode payload = .error (.truncated n) ↔ n = payload.length ∧ ¬HasHeader payload ∧
        payload.head? ≠ some 0 ∧ ¬StartsReserved payload) ∧
    ∀ l : Leaf, l.element.decl.type = .binary → l.element.decl.id = Matroska.simpleBlockId →
      l.frame? = (decode l.content).map some ∧
      (∀ f, l.value = .ok (.frame f) ↔ l.frame? = .ok (some f)) ∧
      ∀ e, l.value = .error (.frame e) ↔ l.frame? = .error e := by
  refine ⟨fun payload => ?_, fun l htype hid => ?_⟩
  · -- One of four things is said of each payload, and no two of them agree.
    have hsays := decode_says payload
    refine ⟨⟨fun ⟨f, hdecode⟩ => ?_, fun h => ?_⟩, fun f => ⟨fun hdecode => ?_, ?_⟩,
      fun f field flags h => h.encode_eq, fun e => ⟨fun hdecode => ?_, ?_⟩,
      ⟨fun hdecode => ?_, decode_of_startsReserved⟩, fun n => ⟨fun hdecode => ?_, ?_⟩⟩
    · rw [hdecode] at hsays
      exact hsays.1
    · obtain ⟨f, -, -, -, hdecode⟩ := decode_of_hasHeader h
      exact ⟨f, hdecode⟩
    · rw [hdecode] at hsays
      exact hsays.2
    · rintro ⟨field, flags, hwritten⟩
      exact hwritten.decode_eq
    · rwa [hdecode] at hsays
    · rintro ⟨rfl, hzero⟩
      exact decode_of_zero hzero
    · rwa [hdecode] at hsays
    · rwa [hdecode] at hsays
    · rintro ⟨rfl, hheader, hzero, hreserved⟩
      exact decode_of_else hheader hzero hreserved
  · have hframe : l.frame? = (decode l.content).map some := if_pos hid
    have hvalue : l.value = ((decode l.content).mapError ValueError.frame).map Value.frame := by
      rw [Leaf.value, Value.decode, htype]
      exact if_pos hid
    rw [hframe, hvalue]
    cases decode l.content <;> simp [Except.map, Except.mapError]

/-- A track number in two bytes, a negative timecode and all reserved bits of the flags set; a header
that lacks its flags; and a simple block whose track number is the reserved one. -/
theorem decode_grammar_of_reserved_bits :
    let f : Frame := ⟨129, -2, false, true, true, .ebml, [7]⟩
    let l : Leaf := ⟨⟨⟨Matroska.simpleBlockId, "SimpleBlock", 2, .binary, false⟩, 0⟩, none, 4, [],
      [0xFF, 0, 0, 0x80], .lenient⟩
    decode [0x40, 0x81, 0xFF, 0xFE, 0x7F, 7] = .ok f ∧
      f.encode 2 = .ok [0x40, 0x81, 0xFF, 0xFE, 0x0F, 7] ∧
      decode [0x81, 0, 0x10] = .error (.truncated 3) ∧ ¬HasHeader [0x81, 0, 0x10] ∧
      decode [0, 0x81] = .error (.vint (.sizeTooWide 9)) ∧
      StartsReserved [0xFF, 0, 0, 0x80] ∧ l.value = .error (.frame .reservedTrack) := by
  intro f l
  obtain ⟨hpayload, hleaf⟩ := decode_grammar
  have hdecode : decode [0x40, 0x81, 0xFF, 0xFE, 0x7F, 7] = .ok f := by cbv
  have hshort : decode [0x81, 0, 0x10] = .error (.truncated 3) := by cbv
  have hreserved : decode [0xFF, 0, 0, 0x80] = .error .reservedTrack := by cbv
  have hwritten : f.Written [0x40, 0x81] 0x7F [0x40, 0x81, 0xFF, 0xFE, 0x7F, 7] := by
    exact ⟨by decide, by cbv, by decide, by decide, by decide, by decide, by decide⟩
  obtain ⟨hframe, -, herror⟩ := hleaf l rfl rfl
  obtain ⟨-, -, hagain, -⟩ := hpayload [0x40, 0x81, 0xFF, 0xFE, 0x7F, 7]
  obtain ⟨-, -, -, -, -, htruncated⟩ := hpayload [0x81, 0, 0x10]
  obtain ⟨-, -, -, hzero, -⟩ := hpayload [0, 0x81]
  obtain ⟨-, -, -, -, hstarts, -⟩ := hpayload [0xFF, 0, 0, 0x80]
  refine ⟨hdecode, ?_, hshort, ((htruncated 3).mp hshort).2.1, (hzero _).mpr ⟨rfl, rfl⟩,
    hstarts.mp hreserved, (herror _).mpr ?_⟩
  · have hbytes : [0x40, 0x81] ++ (beBytesInt 2 f.timecode ++ (0x7F &&& 0x8F) :: f.data) =
        [0x40, 0x81, 0xFF, 0xFE, 0x0F, 7] := by decide
    rw [← hbytes]
    exact hagain f _ _ hwritten
  · rw [hframe]
    change (decode [0xFF, 0, 0, 0x80]).map some = _
    rw [hreserved]
    rfl

end Frame

end Ebml
