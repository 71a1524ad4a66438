import Ebml.Proofs.Vint.Field

/-!
# Deciding on the front

Whoever reads a stream knows only the front of it. A decoder for such a reader is timely: it keeps to
its answer whatever follows, it gives none before the last byte that it uses is there, and as long as
it waits there are bytes that it can wait for. A decoder of fields is timely because the first byte
announces the rest (`Timely.of_readsField`), and two timely decoders in turn are timely again
(`Timely.inTurn`), which is how a header is read (`decoders_timely`).
-/

namespace Ebml

variable {α β γ : Type} {limit : Nat}

/-- A decoder that decides exactly when it has the bytes that it needs, which are at most `limit`. -/
structure Timely (limit : Nat) (decode : Bytes → Except VintError (Option (α × Nat))) : Prop where
  /-- An answer, be it an error, is the same whatever follows. -/
  keeps : ∀ front more, decode front ≠ .ok none → decode (front ++ more) = decode front
  /-- The bytes used are there, no more than the limit, and they are enough. -/
  enough : ∀ bytes a used, decode bytes = .ok (some (a, used)) →
    used ≤ limit ∧ used ≤ bytes.length ∧ decode (bytes.take used) = .ok (some (a, used))
  /-- With any fewer bytes there is no answer yet. -/
  waits : ∀ bytes a used, decode bytes = .ok (some (a, used)) →
    ∀ n < used, decode (bytes.take n) = .ok none
  /-- Where there is no answer yet, some bytes would complete what is there. -/
  hopes : ∀ front, decode front = .ok none → ∃ more a used,
    (front ++ more).length ≤ limit ∧ decode (front ++ more) = .ok (some (a, used))

/-! ## Single fields -/

section

variable {tooWide : Nat → VintError}

/-- What is split off is split off whatever follows. -/
theorem splitField_append_ne {front : Bytes} (h : splitField limit tooWide front ≠ .ok none)
    (more : Bytes) : splitField limit tooWide (front ++ more) = splitField limit tooWide front := by
  rcases hsplit : splitField limit tooWide front with e | _ | field
  · exact splitField_append_error hsplit more
  · exact absurd hsplit h
  · obtain ⟨hfield, rest, rfl⟩ := isField_of_splitField hsplit
    rw [List.append_assoc]
    exact hfield.splitField_append (rest ++ more)

/-- The front of a field lacks bytes. -/
theorem IsField.splitField_take {field : Bytes} (h : IsField limit field) {n : Nat}
    (hn : n < field.length) : splitField limit tooWide (field.take n) = .ok none := by
  rw [← List.take_append_drop n field] at h
  exact h.splitField_front (by simpa using hn)

/-- A byte string that lacks bytes can be completed to a field. -/
theorem exists_isField {front : Bytes} (hpos : 0 < limit)
    (h : splitField limit tooWide front = .ok none) : ∃ more, IsField limit (front ++ more) := by
  cases front with
  | nil =>
    -- A byte that starts with the marker bit is a field of its own.
    exact ⟨[0x80], hpos, rfl⟩
  | cons first rest =>
    obtain ⟨hlimit, hshort⟩ := splitField_none h
    have hlength : (first :: rest ++ List.replicate (vintWidth first - (first :: rest).length)
        0).length = vintWidth first := by
      rw [List.length_append, List.length_replicate]
      omega
    exact ⟨_, by rwa [hlength], by rw [hlength]; rfl⟩

/-- A decoder that splits the field in front off and reads it as a whole. -/
def ReadsField (limit : Nat) (tooWide : Nat → VintError) (read : Bytes → α)
    (decode : Bytes → Except VintError (Option (α × Nat))) : Prop :=
  ∀ bytes, decode bytes =
    (splitField limit tooWide bytes).map (Option.map fun field => (read field, field.length))

namespace ReadsField

variable {read : Bytes → α} {decode : Bytes → Except VintError (Option (α × Nat))}

/-- The field in front is read whatever follows. -/
theorem decode_append (h : ReadsField limit tooWide read decode) {field : Bytes}
    (hfield : IsField limit field) (rest : Bytes) :
    decode (field ++ rest) = .ok (some (read field, field.length)) := by
  rw [h, hfield.splitField_append]
  rfl

theorem decode_field (h : ReadsField limit tooWide read decode) {field : Bytes}
    (hfield : IsField limit field) : decode field = .ok (some (read field, field.length)) := by
  rw [← h.decode_append hfield [], List.append_nil]

theorem decode_eq_none (h : ReadsField limit tooWide read decode) {bytes : Bytes} :
    decode bytes = .ok none ↔ splitField limit tooWide bytes = .ok none := by
  rw [h]
  rcases splitField limit tooWide bytes with e | _ | field <;> simp [Except.map]

theorem decode_eq_error (h : ReadsField limit tooWide read decode) {bytes : Bytes} {e : VintError} :
    decode bytes = .error e ↔ splitField limit tooWide bytes = .error e := by
  rw [h]
  rcases splitField limit tooWide bytes with e' | _ | field <;> simp [Except.map]

/-- An answer is read from the field in front. -/
theorem field_of_decode (h : ReadsField limit tooWide read decode) {bytes : Bytes} {a : α}
    {used : Nat} (hdecode : decode bytes = .ok (some (a, used))) :
    ∃ field rest, IsField limit field ∧ bytes = field ++ rest ∧ a = read field ∧
      used = field.length := by
  rw [h] at hdecode
  rcases hsplit : splitField limit tooWide bytes with e | _ | field
  · simp [hsplit, Except.map] at hdecode
  · simp [hsplit, Except.map] at hdecode
  · obtain ⟨hfield, rest, hbytes⟩ := isField_of_splitField hsplit
    simp only [hsplit, Except.map, Option.map_some, Except.ok.injEq, Option.some.injEq,
      Prod.mk.injEq] at hdecode
    exact ⟨field, rest, hfield, hbytes, hdecode.1.symm, hdecode.2.symm⟩

end ReadsField

/-- A decoder of fields is timely. -/
theorem Timely.of_readsField {read : Bytes → α}
    {decode : Bytes → Except VintError (Option (α × Nat))} (hpos : 0 < limit)
    (h : ReadsField limit tooWide read decode) : Timely limit decode where
  keeps front more hne := by
    rw [h, h, splitField_append_ne (mt h.decode_eq_none.mpr hne)]
  enough bytes a used hdecode := by
    obtain ⟨field, rest, hfield, rfl, rfl, rfl⟩ := h.field_of_decode hdecode
    rw [List.take_left, List.length_append]
    exact ⟨hfield.le_limit, Nat.le_add_right _ _, h.decode_field hfield⟩
  waits bytes a used hdecode n hn := by
    obtain ⟨field, rest, hfield, rfl, rfl, rfl⟩ := h.field_of_decode hdecode
    rw [h.decode_eq_none, List.take_append_of_le_length (Nat.le_of_lt hn)]
    exact hfield.splitField_take hn
  hopes front hnone := by
    obtain ⟨more, hfield⟩ := exists_isField hpos (h.decode_eq_none.mp hnone)
    exact ⟨more, _, _, hfield.le_limit, h.decode_field hfield⟩

end

/-! ## One decoder after the other -/

/-- Read one thing and right behind it another, and join the two and the length of the second. -/
def inTurn (first : Bytes → Except VintError (Option (α × Nat)))
    (second : Bytes → Except VintError (Option (β × Nat))) (join : α → β → Nat → γ) (bytes : Bytes) :
    Except VintError (Option (γ × Nat)) :=
  match first bytes with
  | .error e => .error e
  | .ok none => .ok none
  | .ok (some (a, n)) =>
    match second (bytes.drop n) with
    | .error e => .error e
    | .ok none => .ok none
    | .ok (some (b, m)) => .ok (some (join a b m, n + m))

namespace Timely

variable {first : Bytes → Except VintError (Option (α × Nat))}
  {second : Bytes → Except VintError (Option (β × Nat))} {join : α → β → Nat → γ} {l₁ l₂ : Nat}

/-- Behind the first answer the second decides. -/
theorem inTurn_append (h : Timely l₁ first) {bytes : Bytes} {a : α}
    (hfirst : first bytes = .ok (some (a, bytes.length))) (rest : Bytes) :
    inTurn first second join (bytes ++ rest) =
      (second rest).map (Option.map fun (b, m) => (join a b m, bytes.length + m)) := by
  have hsame : first (bytes ++ rest) = .ok (some (a, bytes.length)) := by
    rw [h.keeps bytes rest (by simp [hfirst]), hfirst]
  simp only [inTurn, hsame, List.drop_left]
  rcases second rest with e | _ | ⟨b, m⟩ <;> rfl

/-- Where the first decoder answers, the bytes that it used stand in front. -/
theorem front_of_first (h : Timely l₁ first) {bytes : Bytes} {a : α} {n : Nat}
    (hfirst : first bytes = .ok (some (a, n))) :
    ∃ front rest, bytes = front ++ rest ∧ n = front.length ∧ front.length ≤ l₁ ∧
      first front = .ok (some (a, front.length)) := by
  obtain ⟨hlimit, hle, henough⟩ := h.enough bytes a n hfirst
  have hlength : (bytes.take n).length = n := List.length_take_of_le hle
  exact ⟨bytes.take n, bytes.drop n, (List.take_append_drop n bytes).symm, hlength.symm,
    by rwa [hlength], by rwa [hlength]⟩

/-- Where the first decoder waits, it can be given exactly what it lacks. -/
theorem exists_first (h : Timely l₁ first) {front : Bytes} (hnone : first front = .ok none) :
    ∃ more a, (front ++ more).length ≤ l₁ ∧
      first (front ++ more) = .ok (some (a, (front ++ more).length)) := by
  obtain ⟨more, a, n, -, hfirst⟩ := h.hopes front hnone
  obtain ⟨used, rest, hsplit, -, hlimit, hused⟩ := h.front_of_first hfirst
  -- What it uses cannot end within what it has, or it would have answered.
  rcases List.append_eq_append_iff.mp hsplit with ⟨lacking, rfl, -⟩ | ⟨behind, rfl, -⟩
  · exact ⟨lacking, a, hlimit, hused⟩
  · rw [h.keeps used behind (by simp [hused]), hused] at hnone
    simp at hnone

/-- An answer of both is that of the second behind what the first used. -/
theorem parts_of_inTurn (h : Timely l₁ first) {bytes : Bytes} {c : γ} {used : Nat}
    (hdecode : inTurn first second join bytes = .ok (some (c, used))) :
    ∃ front rest a b m, bytes = front ++ rest ∧ front.length ≤ l₁ ∧
      first front = .ok (some (a, front.length)) ∧ second rest = .ok (some (b, m)) ∧
      c = join a b m ∧ used = front.length + m := by
  rcases hfirst : first bytes with e | _ | ⟨a, n⟩
  · simp [inTurn, hfirst] at hdecode
  · simp [inTurn, hfirst] at hdecode
  · obtain ⟨front, rest, rfl, -, hlimit, hfront⟩ := h.front_of_first hfirst
    rw [h.inTurn_append hfront] at hdecode
    rcases hsecond : second rest with e | _ | ⟨b, m⟩
    · simp [hsecond, Except.map] at hdecode
    · simp [hsecond, Except.map] at hdecode
    · simp only [hsecond, Except.map, Option.map_some, Except.ok.injEq, Option.some.injEq,
        Prod.mk.injEq] at hdecode
      exact ⟨front, rest, a, b, m, rfl, hlimit, hfront, hsecond, hdecode.1.symm, hdecode.2.symm⟩

/-- Two timely decoders in turn are timely. The second must wait for its first byte. -/
theorem inTurn (h₁ : Timely l₁ first) (h₂ : Timely l₂ second) (hnil : second [] = .ok none) :
    Timely (l₁ + l₂) (Ebml.inTurn first second join) where
  keeps bytes more hne := by
    rcases hfirst : first bytes with e | _ | ⟨a, n⟩
    · have hsame := h₁.keeps bytes more (by simp [hfirst])
      simp [Ebml.inTurn, hsame, hfirst]
    · simp [Ebml.inTurn, hfirst] at hne
    · obtain ⟨front, rest, rfl, -, -, hfront⟩ := h₁.front_of_first hfirst
      rw [h₁.inTurn_append hfront] at hne
      have hrest : second rest ≠ .ok none := by
        intro hnone
        simp [hnone, Except.map] at hne
      rw [List.append_assoc, h₁.inTurn_append hfront, h₁.inTurn_append hfront,
        h₂.keeps rest more hrest]
  enough bytes c used hdecode := by
    obtain ⟨front, rest, a, b, m, rfl, hlimit, hfront, hsecond, rfl, rfl⟩ :=
      h₁.parts_of_inTurn hdecode
    obtain ⟨hlimit', hle, henough⟩ := h₂.enough rest b m hsecond
    refine ⟨Nat.add_le_add hlimit hlimit', ?_, ?_⟩
    · rw [List.length_append]
      exact Nat.add_le_add_left hle _
    · rw [List.take_length_add_append, h₁.inTurn_append hfront, henough]
      rfl
  waits bytes c used hdecode n hn := by
    obtain ⟨front, rest, a, b, m, rfl, -, hfront, hsecond, rfl, rfl⟩ := h₁.parts_of_inTurn hdecode
    by_cases hinside : n < front.length
    · have hnone := h₁.waits front a _ hfront n hinside
      rw [List.take_append_of_le_length (Nat.le_of_lt hinside)]
      simp [Ebml.inTurn, hnone]
    · obtain ⟨k, rfl⟩ := Nat.exists_eq_add_of_le (Nat.not_lt.mp hinside)
      rw [List.take_length_add_append, h₁.inTurn_append hfront,
        h₂.waits rest b m hsecond k (by omega)]
      rfl
  hopes bytes hnone := by
    rcases hfirst : first bytes with e | _ | ⟨a, n⟩
    · simp [Ebml.inTurn, hfirst] at hnone
    · -- Complete the first, and put behind it what the second hopes for from the start.
      obtain ⟨more, a, hlimit, hfront⟩ := h₁.exists_first hfirst
      obtain ⟨rest, b, m, hlimit', hsecond⟩ := h₂.hopes [] hnil
      rw [List.nil_append] at hlimit' hsecond
      refine ⟨more ++ rest, join a b m, (bytes ++ more).length + m, ?_, ?_⟩
      · rw [← List.append_assoc, List.length_append]
        exact Nat.add_le_add hlimit hlimit'
      · rw [← List.append_assoc, h₁.inTurn_append hfront, hsecond]
        rfl
    · obtain ⟨front, rest, rfl, -, hlimit, hfront⟩ := h₁.front_of_first hfirst
      rw [h₁.inTurn_append hfront] at hnone
      have hrest : second rest = .ok none := by
        rcases hsecond : second rest with e | _ | ⟨b, m⟩
        · simp [hsecond, Except.map] at hnone
        · rfl
        · simp [hsecond, Except.map] at hnone
      obtain ⟨more, b, m, hlimit', hsecond⟩ := h₂.hopes rest hrest
      refine ⟨more, join a b m, front.length + m, ?_, ?_⟩
      · rw [List.append_assoc, List.length_append]
        exact Nat.add_le_add hlimit hlimit'
      · rw [List.append_assoc, h₁.inTurn_append hfront, hsecond]
        rfl

end Timely

/-! ## The decoders of headers -/

theorem readsField_decodeId : ReadsField maxIdWidth .idTooWide beNat decodeId :=
  decodeId_eq

theorem readsField_decodeSize : ReadsField maxSizeWidth .sizeTooWide DataSize.ofField decodeSize :=
  decodeSize_eq

theorem timely_decodeId : Timely 4 decodeId :=
  .of_readsField (by decide) readsField_decodeId

theorem timely_decodeSize : Timely 8 decodeSize :=
  .of_readsField (by decide) readsField_decodeSize

/-- A header is its id and right behind it its size. -/
theorem Header.decode_eq_inTurn : Header.decode =
    inTurn decodeId decodeSize fun id size width => ⟨id, size, some width⟩ := by
  funext bytes
  rw [Header.decode, inTurn]
  rcases decodeId bytes with e | _ | ⟨id, n⟩
  · rfl
  · rfl
  · dsimp only
    rcases decodeSize (bytes.drop n) with e | _ | ⟨size, width⟩ <;> rfl

/-- The decoders of ids, of sizes and of whole headers decide in time: what they answer, also that a
field is too wide, stands whatever follows, they answer with the last byte that they use and not
before, and as long as they wait a header of at most 12 bytes can still come of what is there. -/
theorem decoders_timely : Timely 4 decodeId ∧ Timely 8 decodeSize ∧ Timely 12 Header.decode := by
  refine ⟨timely_decodeId, timely_decodeSize, ?_⟩
  rw [Header.decode_eq_inTurn]
  exact timely_decodeId.inTurn timely_decodeSize rfl

/-- A header of three bytes with its content behind it is not read from fewer, a size that is too wide
is so whatever follows, and half of an id can still become a header. -/
theorem decoders_timely_of_cut_header :
    Header.decode [0x42, 0x86, 0x81, 1] = .ok (some (⟨0x4286, .known 1, some 1⟩, 3)) ∧
      (∀ n < 3, Header.decode ([0x42, 0x86, 0x81, 1].take n) = .ok none) ∧
      (∀ more, Header.decode ([0x42, 0x86, 0] ++ more) = .error (.sizeTooWide 9)) ∧
      ∃ more header used, ([0x42] ++ more).length ≤ 12 ∧
        Header.decode ([0x42] ++ more) = .ok (some (header, used)) := by
  obtain ⟨-, -, htimely⟩ := decoders_timely
  have hwhole : Header.decode [0x42, 0x86, 0x81, 1] =
      .ok (some (⟨0x4286, .known 1, some 1⟩, 3)) := by cbv
  have hspoilt : Header.decode [0x42, 0x86, 0] = .error (.sizeTooWide 9) := by cbv
  refine ⟨hwhole, htimely.waits _ _ _ hwhole, fun more => ?_, htimely.hopes _ (by cbv)⟩
  rw [htimely.keeps _ more (by simp [hspoilt]), hspoilt]

end Ebml
