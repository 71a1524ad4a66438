import Ebml.Proofs.Vint.Canonical
import Ebml.Vint.Buffer

/-!
# Encodings in buffers and outputs

Fields and headers have widest encodings, so a buffer of that many bytes is never too short, and behind
the bytes that an encoder announces it stays as it was. A field that cannot be encoded leaves the whole
buffer alone. A header with an id but no size does not: its id is there by then. So headers are written
by way of a buffer of their own, and an output gets a whole header or nothing (`encoders_contained`).
-/

namespace Ebml

/-! ## Buffers -/

/-- A buffer was given an encoding and nothing else: it was long enough, the encoding is at its front,
as long as announced, and what is behind that is as before. -/
structure Filled.Contains (f : Filled) (encoding : Except VintError Bytes) (buffer : Bytes) :
    Prop where
  ne_tooShort : f.outcome ≠ .error .tooShort
  length_eq : f.buffer.length = buffer.length
  error_iff : ∀ e, f.outcome = .error (.vint e) ↔ encoding = .error e
  of_ok : ∀ n, f.outcome = .ok n →
    n ≤ buffer.length ∧ encoding = .ok (f.buffer.take n) ∧ f.buffer.drop n = buffer.drop n

/-- If there is no encoding the whole buffer is as before. -/
structure Filled.Atomic (f : Filled) (encoding : Except VintError Bytes) (buffer : Bytes) : Prop
    extends f.Contains encoding buffer where
  unchanged : ∀ e, f.outcome = .error e → f.buffer = buffer

namespace Filled.Contains

variable {encoding : Except VintError Bytes} {buffer bytes : Bytes}

theorem of_written (hencoding : encoding = .ok bytes) (hroom : bytes.length ≤ buffer.length) :
    (Filled.mk (.ok bytes.length) (bytes ++ buffer.drop bytes.length)).Contains encoding buffer where
  ne_tooShort := by simp
  length_eq := by
    rw [List.length_append, List.length_drop]
    omega
  error_iff e := by simp [hencoding]
  of_ok n h := by
    obtain rfl := Except.ok.inj h
    exact ⟨hroom, by rw [List.take_left, hencoding], List.drop_left⟩

theorem of_refused {e : VintError} {filled : Bytes} (hencoding : encoding = .error e)
    (hlength : filled.length = buffer.length) :
    (Filled.mk (.error (.vint e)) filled).Contains encoding buffer where
  ne_tooShort := by simp
  length_eq := hlength
  error_iff e' := by simp [hencoding]
  of_ok n h := by simp at h

end Filled.Contains

section

variable {encoding : Except VintError Bytes} {buffer bytes : Bytes}

theorem fillFront_of_error {e : VintError} (h : encoding = .error e) :
    fillFront encoding buffer = ⟨.error (.vint e), buffer⟩ := by
  subst h
  rfl

theorem fillFront_of_ok (h : encoding = .ok bytes) (hroom : bytes.length ≤ buffer.length) :
    fillFront encoding buffer = ⟨.ok bytes.length, bytes ++ buffer.drop bytes.length⟩ := by
  subst h
  exact if_pos hroom

/-- A field that fits is put at the front of a buffer, and without one the buffer is left alone. -/
theorem fillFront_atomic (hroom : ∀ bytes, encoding = .ok bytes → bytes.length ≤ buffer.length) :
    (fillFront encoding buffer).Atomic encoding buffer := by
  cases hencoding : encoding with
  | error e =>
    rw [fillFront_of_error rfl]
    exact ⟨.of_refused rfl rfl, fun _ _ => rfl⟩
  | ok bytes =>
    rw [fillFront_of_ok rfl (hroom bytes hencoding)]
    exact ⟨.of_written rfl (hroom bytes hencoding), by simp⟩

end

/-! ## Widest encodings -/

theorem length_encodeId_le {id : Nat} {field : Bytes} (h : encodeId id = .ok field) :
    field.length ≤ 4 :=
  (isIdField_of_encodeId h).1.le_limit

theorem length_encodeSize_le {value : Nat} {field : Bytes} (h : encodeSize value = .ok field) :
    field.length ≤ 8 :=
  (isSizeField_of_encodeSize h).1.le_limit

theorem length_encodeSizeAt_le {width value : Nat} {field : Bytes}
    (h : encodeSizeAt width value = .ok field) : field.length ≤ 8 :=
  (isSizeField_of_encodeSizeAt h).1.le_limit

theorem length_encodeUnknown_le {width : Nat} {field : Bytes} (h : encodeUnknown width = .ok field) :
    field.length ≤ 8 :=
  (isSizeField_of_encodeUnknown h).1.le_limit

namespace Header

variable {h : Header} {buffer : Bytes}

theorem length_encodeSizeField_le {field : Bytes} (henc : h.encodeSizeField = .ok field) :
    field.length ≤ 8 :=
  (isSizeField_of_encodeSizeField henc).1.le_limit

/-! ## Headers in buffers -/

/-- The size goes into what is left of the buffer behind the id. -/
theorem encodeInto_of_fields {idField sizeField : Bytes} (hroom : 12 ≤ buffer.length)
    (hid : encodeId h.id = .ok idField) (hsize : h.encodeSizeField = .ok sizeField) :
    h.encodeInto buffer =
      ⟨.ok (idField.length + sizeField.length),
        idField ++ (sizeField ++ buffer.drop (idField.length + sizeField.length))⟩ := by
  have hidle := length_encodeId_le hid
  have hsizele := length_encodeSizeField_le hsize
  have hrest : sizeField.length ≤ (buffer.drop idField.length).length := by
    rw [List.length_drop]
    omega
  rw [encodeInto, encodeIdInto, fillFront_of_ok hid (by omega)]
  dsimp only
  rw [List.drop_left, List.take_left, fillFront_of_ok hsize hrest, List.drop_drop]

/-- A header without a size leaves its id in the buffer. -/
theorem encodeInto_of_id_only {idField : Bytes} {e : VintError} (hroom : 12 ≤ buffer.length)
    (hid : encodeId h.id = .ok idField) (hsize : h.encodeSizeField = .error e) :
    h.encodeInto buffer = ⟨.error (.vint e), idField ++ buffer.drop idField.length⟩ := by
  have hidle := length_encodeId_le hid
  rw [encodeInto, encodeIdInto, fillFront_of_ok hid (by omega)]
  dsimp only
  rw [List.drop_left, List.take_left, fillFront_of_error hsize]

theorem encodeInto_contains (hroom : 12 ≤ buffer.length) :
    (h.encodeInto buffer).Contains h.encode buffer := by
  cases hid : encodeId h.id with
  | error e =>
    have hencode : h.encode = .error e := by rw [encode, hid]
    rw [encodeInto, encodeIdInto, fillFront_of_error hid]
    exact .of_refused hencode rfl
  | ok idField =>
    have hidle := length_encodeId_le hid
    cases hsize : h.encodeSizeField with
    | error e =>
      -- Here the id is in the buffer already, though the header is refused.
      have hencode : h.encode = .error e := by rw [encode, hid, hsize]
      rw [encodeInto_of_id_only hroom hid hsize]
      refine .of_refused hencode ?_
      rw [List.length_append, List.length_drop]
      omega
    | ok sizeField =>
      have hsizele := length_encodeSizeField_le hsize
      have hencode : h.encode = .ok (idField ++ sizeField) := by rw [encode, hid, hsize]
      have hfits : (idField ++ sizeField).length ≤ buffer.length := by
        rw [List.length_append]
        omega
      have hwritten := Filled.Contains.of_written hencode hfits
      rw [encodeInto_of_fields hroom hid hsize]
      simpa only [List.length_append, List.append_assoc] using hwritten

/-! ## Headers in outputs -/

/-- Write a header by way of a buffer: it is encoded there, and then what was announced of the buffer
is handed to the output. There is no answer if the buffer is too short. -/
def writeVia (scratch : Bytes) (h : Header) (out : Sink) : Option (Except WriteError Nat × Sink) :=
  match h.encodeInto scratch with
  | ⟨.error .tooShort, _⟩ => none
  | ⟨.error (.vint e), _⟩ => some (.error (.vint e), out)
  | ⟨.ok n, filled⟩ =>
    match out.write (filled.take n) with
    | (.ok (), out') => some (.ok n, out')
    | (.error e, out') => some (.error (.io e), out')

/-- A header that cannot be encoded is not written. -/
theorem write_of_error {e : VintError} (henc : h.encode = .error e) (out : Sink) :
    h.write out = (.error (.vint e), out) := by
  rw [write, henc]

/-- A header cannot be encoded if its id or its size cannot. -/
theorem exists_encode_error
    (hfault : (∃ e, encodeId h.id = .error e) ∨ ∃ e, h.encodeSizeField = .error e) :
    ∃ e, h.encode = .error e := by
  unfold encode
  split
  · exact ⟨_, rfl⟩
  · rename_i idField hid
    obtain ⟨e, hsize⟩ := hfault.resolve_left (by simp [hid])
    rw [hsize]
    exact ⟨e, rfl⟩

/-- By way of a buffer the same becomes of an output, whatever was in the buffer. -/
theorem writeVia_eq {scratch : Bytes} (hroom : 12 ≤ scratch.length) (out : Sink) :
    h.writeVia scratch out = some (h.write out) := by
  obtain ⟨hlong, hlength, herror, hok⟩ := encodeInto_contains (h := h) hroom
  rw [writeVia]
  generalize h.encodeInto scratch = f at hlong hlength herror hok ⊢
  obtain ⟨outcome, filled⟩ := f
  match outcome with
  | .error .tooShort => exact absurd rfl hlong
  | .error (.vint e) => rw [write_of_error ((herror e).mp rfl)]
  | .ok n =>
    obtain ⟨hle, hencode, -⟩ := hok n rfl
    have htaken : (filled.take n).length = n := List.length_take_of_le (hlength ▸ hle)
    rw [write, hencode]
    dsimp only
    rw [htaken]
    cases out.write (filled.take n) with
    | mk answer out' => cases answer <;> rfl

end Header

/-! ## Elements in outputs -/

section

variable {id n : Nat} {content out out' : Bytes}

theorem appendElement_of_error {e : VintError}
    (henc : (Header.mk id (.known content.length) none).encode = .error e) (out : Bytes) :
    appendElement id content out = .error e := by
  rw [appendElement, henc]

/-- What is appended is the header, as it would be written, and the content. -/
theorem written_of_appendElement (h : appendElement id content out = .ok (n, out')) :
    ∃ header, (Header.mk id (.known content.length) none).encode = .ok header ∧
      out' = out ++ (header ++ content) ∧ n = (header ++ content).length := by
  unfold appendElement at h
  split at h
  · simp at h
  · rename_i header henc
    obtain ⟨rfl, rfl⟩ := Prod.mk.inj (Except.ok.inj h)
    exact ⟨header, henc, List.append_assoc out header content, List.length_append.symm⟩

end

/-- A buffer as long as the widest encoding is never too short for an encoder: 4 bytes for an id, 8 for
a size and 12 for a header. What is announced is at its front and all behind it is as before; if a
field cannot be encoded the whole buffer is. A header goes to an output by way of such a buffer, and if
its id or its size cannot be encoded the output is left as it is. An element is appended as its header
and its content, as many bytes as announced, or not at all. -/
theorem encoders_contained :
    (∀ buffer : Bytes, 4 ≤ buffer.length → ∀ id,
      (encodeIdInto id buffer).Atomic (encodeId id) buffer) ∧
    (∀ buffer : Bytes, 8 ≤ buffer.length → ∀ value width,
      (encodeSizeInto value buffer).Atomic (encodeSize value) buffer ∧
      (encodeSizeAtInto width value buffer).Atomic (encodeSizeAt width value) buffer ∧
      (encodeUnknownInto width buffer).Atomic (encodeUnknown width) buffer) ∧
    (∀ buffer : Bytes, 12 ≤ buffer.length → ∀ h : Header,
      (h.encodeInto buffer).Contains h.encode buffer ∧
      ∀ out, h.writeVia buffer out = some (h.write out)) ∧
    (∀ h : Header, (∃ e, encodeId h.id = .error e) ∨ (∃ e, h.encodeSizeField = .error e) →
      ∃ e, ∀ out, h.write out = (.error (.vint e), out)) ∧
    (∀ id (content : Bytes),
      (∃ e, encodeId id = .error e) ∨ (∃ e, encodeSize content.length = .error e) →
      ∃ e, ∀ out, appendElement id content out = .error e ∧
        (Header.mk id (.known content.length) none).write ⟨out, none⟩ =
          (.error (.vint e), ⟨out, none⟩)) ∧
    ∀ id content out n out', appendElement id content out = .ok (n, out') →
      ∃ header, (Header.mk id (.known content.length) none).encode = .ok header ∧
        out' = out ++ (header ++ content) ∧ n = (header ++ content).length := by
  refine ⟨fun buffer hroom id => ?_, fun buffer hroom value width => ⟨?_, ?_, ?_⟩,
    fun buffer hroom h => ⟨h.encodeInto_contains hroom, fun out => h.writeVia_eq hroom out⟩,
    fun h hfault => ?_, fun id content hfault => ?_,
    fun id content out n out' happend => written_of_appendElement happend⟩
  · exact fillFront_atomic fun _ henc => Nat.le_trans (length_encodeId_le henc) hroom
  · exact fillFront_atomic fun _ henc => Nat.le_trans (length_encodeSize_le henc) hroom
  · exact fillFront_atomic fun _ henc => Nat.le_trans (length_encodeSizeAt_le henc) hroom
  · exact fillFront_atomic fun _ henc => Nat.le_trans (length_encodeUnknown_le henc) hroom
  · obtain ⟨e, henc⟩ := Header.exists_encode_error hfault
    exact ⟨e, Header.write_of_error henc⟩
  · obtain ⟨e, henc⟩ := Header.exists_encode_error (h := ⟨id, .known content.length, none⟩) hfault
    exact ⟨e, fun out => ⟨appendElement_of_error henc out, Header.write_of_error henc _⟩⟩

/-- A buffer of 12 bytes gets the id of a header whose size does not fit, an output does not; a padded
size takes two bytes of a buffer of 8; and a void element is appended. -/
theorem encoders_contained_of_wide_size :
    let buffer : Bytes := List.replicate 12 0xAA
    let bad : Header := ⟨0xEC, .known 127, some 1⟩
    (bad.encodeInto buffer).buffer = 0xEC :: List.replicate 11 0xAA ∧
      (∃ e, ∀ out, bad.write out = (.error (.vint e), out)) ∧
      bad.writeVia buffer {} = some (bad.write {}) ∧
      (encodeSizeAtInto 2 5 (List.replicate 8 0xAA)).buffer.drop 2 = List.replicate 6 0xAA ∧
      (encodeIdInto 0x100 (List.replicate 4 0xAA)).buffer = List.replicate 4 0xAA ∧
      (∃ e, ∀ out, appendElement 0x100 [7] out = .error e) ∧
      ∃ header, (Header.mk 0xEC (.known 1) none).encode = .ok header ∧
        [9, 0xEC, 0x81, 7] = [9] ++ (header ++ [7]) := by
  intro buffer bad
  obtain ⟨hids, hsizes, hheaders, hwrites, hrefused, happends⟩ := encoders_contained
  have hbad : bad.encodeSizeField = .error (.sizeOutOfRange 127 1) := by cbv
  have hid : encodeId 0x100 = .error (.invalidId 0x100) := rfl
  have hfilled : (encodeSizeAtInto 2 5 (List.replicate 8 0xAA)).outcome = .ok 2 := by cbv
  have hempty : (encodeIdInto 0x100 (List.replicate 4 0xAA)).outcome =
      .error (.vint (.invalidId 0x100)) := rfl
  obtain ⟨-, hpadded, -⟩ := hsizes (List.replicate 8 0xAA) (by simp) 5 2
  obtain ⟨e, hnone⟩ := hrefused 0x100 [7] (.inl ⟨_, hid⟩)
  obtain ⟨header, henc, hbytes, -⟩ := happends 0xEC [7] [9] 3 [9, 0xEC, 0x81, 7] rfl
  have hvoid : encodeId 0xEC = .ok [0xEC] := rfl
  have hlong : 12 ≤ buffer.length := by simp [buffer]
  obtain ⟨-, hvia⟩ := hheaders buffer hlong bad
  have hfront := bad.encodeInto_of_id_only hlong hvoid hbad
  refine ⟨?_, hwrites bad (.inr ⟨_, hbad⟩), hvia {}, ?_, ?_, ⟨e, fun out => (hnone out).1⟩,
    header, henc, hbytes⟩
  · rw [hfront]
    rfl
  · rw [(hpadded.of_ok 2 hfilled).2.2]
    rfl
  · exact (hids (List.replicate 4 0xAA) (by simp) 0x100).unchanged _ hempty

end Ebml
