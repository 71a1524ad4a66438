import Ebml.Proofs.Source.Handing
import Ebml.Source.Stream

/-!
# What a stream still brings

A source over a stream will bring the bytes it holds and those of the reads to come. Whatever is asked
of it, what it hands out comes off the front of these (`Hands.brings`), so the pushed source that
holds all of them from the start hands out the same (`Hands.whole`). Where the source balks it used
up one failure of the stream, and none that only said that a read was interrupted (`Balks.used`).
-/

namespace Ebml

/-! ## Answers of a stream -/

namespace Stream

/-- The bytes that a stream's answers deliver. -/
def delivered : List StreamRead → Bytes
  | [] => []
  | .bytes bytes :: rest => bytes ++ delivered rest
  | .failure _ :: rest => delivered rest

/-- The failures that a reader of the stream gets to see: it repeats a read that was interrupted. -/
def failures : List StreamRead → List IoError
  | [] => []
  | .bytes _ :: rest => failures rest
  | .failure e :: rest => if e.kind = .interrupted then failures rest else e :: failures rest

theorem not_interrupted_of_mem {answers : List StreamRead} {e : IoError}
    (h : e ∈ failures answers) : e.kind ≠ .interrupted := by
  fun_induction failures answers with
  | case1 => simp at h
  | case2 _ _ ih => exact ih h
  | case3 _ _ _ ih => exact ih h
  | case4 e' rest hother ih =>
    rcases List.mem_cons.mp h with rfl | h
    · exact hother
    · exact ih h

/-- No read gives nothing before the end. -/
def Flowing (answers : List StreamRead) : Prop :=
  ∀ a ∈ answers, a ≠ .bytes []

theorem Flowing.tail {a : StreamRead} {rest : List StreamRead} (h : Flowing (a :: rest)) :
    Flowing rest :=
  fun b hb => h b (List.mem_cons_of_mem _ hb)

section

variable (limit : Nat) (bytes : Bytes) (rest : List StreamRead)

theorem delivered_leftOver :
    bytes.take limit ++ delivered (leftOver limit bytes rest) = bytes ++ delivered rest := by
  unfold leftOver
  split
  · rename_i hempty
    rw [List.isEmpty_iff] at hempty
    rw [← List.take_append_drop limit bytes, hempty, List.append_nil, List.take_take, Nat.min_self]
  · rw [delivered, ← List.append_assoc, List.take_append_drop]

theorem failures_leftOver : failures (leftOver limit bytes rest) = failures rest := by
  unfold leftOver
  split <;> rfl

theorem Flowing.leftOver (h : Flowing rest) : Flowing (leftOver limit bytes rest) := by
  unfold Stream.leftOver
  split
  · exact h
  · rename_i hne
    intro a ha
    rcases List.mem_cons.mp ha with rfl | ha
    · simpa using hne
    · exact h a ha

end

/-- A read takes what it gives off the front of what was to be delivered, and only the end gives
nothing. If it fails it used up the first failure to be seen. -/
theorem readAnswers_spec {limit : Nat} (reads : Nat) {answers : List StreamRead} (hpos : 0 < limit)
    (h : Flowing answers) :
    match readAnswers limit reads answers with
    | (.ok bytes, s) =>
      Flowing s.answers ∧ delivered answers = bytes ++ delivered s.answers ∧
        failures s.answers = failures answers ∧ (bytes = [] → s.answers = [])
    | (.error e, s) =>
      Flowing s.answers ∧ delivered answers = delivered s.answers ∧
        failures answers = e :: failures s.answers := by
  -- The induction is on the answers, since a read that was interrupted goes on to the next one.
  induction answers generalizing reads with
  | nil => exact ⟨h, rfl, rfl, fun _ => rfl⟩
  | cons a rest ih =>
    cases a with
    | bytes bytes =>
      have hne : bytes ≠ [] := fun hnil => h (.bytes bytes) List.mem_cons_self (by rw [hnil])
      refine ⟨h.tail.leftOver limit bytes rest, (delivered_leftOver limit bytes rest).symm,
        failures_leftOver limit bytes rest, fun hnil => ?_⟩
      rcases List.take_eq_nil_iff.mp hnil with hzero | hnil
      · omega
      · exact absurd hnil hne
    | failure e =>
      unfold readAnswers
      by_cases hkind : e.kind = .interrupted
      · simp only [if_pos hkind, failures, delivered]
        exact ih (reads + 1) h.tail
      · simp only [if_neg hkind, failures, delivered]
        exact ⟨h.tail, trivial, trivial⟩

end Stream

/-! ## Sources over a stream -/

namespace StreamSource

/-- All bytes that the source will hand out. -/
def toCome (s : StreamSource) : Bytes :=
  s.buffer ++ if s.ended then [] else Stream.delivered s.stream.answers

/-- All failures of the stream that it will hand on. -/
def toFail (s : StreamSource) : List IoError :=
  Stream.failures s.stream.answers

/-- The source that was given all the bytes to come in advance. -/
def whole (s : StreamSource) : PushSource :=
  .ofBytes s.toCome

/-- A source whose stream does not end before its time. -/
structure Proper (s : StreamSource) : Prop where
  chunk_pos : 0 < s.chunk
  flowing : Stream.Flowing s.stream.answers
  buffer_of_ended : s.ended = true → s.buffer = []

theorem proper_ofStream {answers : List StreamRead} (chunk : Nat) (h : Stream.Flowing answers) :
    (ofStream ⟨answers, 0⟩ chunk).Proper :=
  ⟨Nat.lt_of_lt_of_le Nat.one_pos (Nat.le_max_right chunk 1), h, fun _ => rfl⟩

/-- A source that ended brings nothing. -/
theorem Proper.toCome_of_ended {s : StreamSource} (h : s.Proper) (hended : s.ended = true) :
    s.toCome = [] := by
  rw [toCome, h.buffer_of_ended hended, if_pos hended, List.append_nil]

/-- The source handed out the bytes, and nothing of what is to come got lost. -/
structure Brings (s : StreamSource) (bytes : Bytes) (s' : StreamSource) : Prop where
  proper : s'.Proper
  toCome_eq : s.toCome = bytes ++ s'.toCome
  toFail_suffix : s'.toFail <:+ s.toFail
  moves : s.buffer ≠ [] → s'.buffer = [] → bytes ≠ []

variable {s s' s'' : StreamSource}

theorem Brings.refl (h : s.Proper) : Brings s [] s :=
  ⟨h, rfl, List.suffix_refl _, fun hne hnil => absurd hnil hne⟩

theorem Brings.trans {bytes more : Bytes} (h : Brings s bytes s') (h' : Brings s' more s'') :
    Brings s (bytes ++ more) s'' where
  proper := h'.proper
  toCome_eq := by rw [h.toCome_eq, h'.toCome_eq, List.append_assoc]
  toFail_suffix := h'.toFail_suffix.trans h.toFail_suffix
  moves hne hnil := by
    by_cases hmiddle : s'.buffer = []
    · exact List.append_ne_nil_of_left_ne_nil (h.moves hne hmiddle) more
    · exact List.append_ne_nil_of_right_ne_nil bytes (h'.moves hmiddle hnil)

/-! ## Operations -/

theorem fill_of_buffer (h : s.buffer ≠ []) : s.fill = (.ok (), s) := by
  rw [fill, if_pos (.inr h)]

/-- Filling hands out nothing. It leaves no byte only at the end, and if it fails it used up one
failure to come. -/
theorem fill_spec (h : s.Proper) :
    Brings s [] s.fill.2 ∧
      match s.fill with
      | (.ok (), s') => s'.buffer = [] → s'.ended = true
      | (.error e, s') => s.toFail = e :: s'.toFail ∧ s'.buffer = [] := by
  by_cases hfull : s.ended ∨ s.buffer ≠ []
  · rw [fill, if_pos hfull]
    exact ⟨.refl h, fun hnil => hfull.resolve_right fun hne => hne hnil⟩
  · have hspec := Stream.readAnswers_spec s.stream.reads h.chunk_pos h.flowing
    rw [fill, if_neg hfull]
    simp only [not_or, ne_eq, Decidable.not_not, Bool.not_eq_true] at hfull
    obtain ⟨hopen, hempty⟩ := hfull
    rw [Stream.read]
    generalize Stream.readAnswers s.chunk s.stream.reads s.stream.answers = answer at hspec ⊢
    obtain ⟨outcome, stream⟩ := answer
    cases outcome with
    | error e =>
      obtain ⟨hflowing, hdelivered, hfailures⟩ := hspec
      have hcome : s.toCome = toCome { s with stream := stream } := by
        rw [toCome, toCome, hdelivered]
      have hfail : s.toFail = e :: toFail { s with stream := stream } := hfailures
      refine ⟨⟨⟨h.chunk_pos, hflowing, h.buffer_of_ended⟩, hcome, ?_, fun hne => ?_⟩, hfail, hempty⟩
      · rw [hfail]
        exact List.suffix_cons _ _
      · exact absurd hempty hne
    | ok bytes =>
      obtain ⟨hflowing, hdelivered, hfailures, hends⟩ := hspec
      refine ⟨⟨⟨h.chunk_pos, hflowing, fun hended => ?_⟩, ?_, ?_, fun hne => ?_⟩, fun hnil => ?_⟩
      · simpa using hended
      · -- A read that gives nothing ends the source, and then the stream had nothing left.
        simp only [toCome, hempty, hopen, List.nil_append, hdelivered]
        cases bytes with
        | nil => simp [hends rfl, Stream.delivered]
        | cons b more => simp
      · simp only [toFail, hfailures, List.suffix_refl]
      · exact absurd hempty hne
      · simpa using hnil

theorem brings_fill (h : s.Proper) : Brings s [] s.fill.2 :=
  (fill_spec h).1

/-- Bytes that are held are handed out from the front. -/
theorem brings_drop (h : s.Proper) (n : Nat) :
    Brings s (s.buffer.take n) { s with buffer := s.buffer.drop n } where
  proper := ⟨h.chunk_pos, h.flowing, fun hended => by simp [h.buffer_of_ended hended]⟩
  toCome_eq := by simp only [toCome]; rw [← List.append_assoc, List.take_append_drop]
  toFail_suffix := List.suffix_refl _
  moves hne hnil htake := by
    apply hne
    rw [← List.take_append_drop n s.buffer, htake]
    exact hnil

theorem brings_readBytes (h : s.Proper) (n : Nat) :
    Brings s (bytesOf (s.readBytes n).1) (s.readBytes n).2 := by
  have hfill := brings_fill h
  unfold readBytes
  split <;> rename_i heq <;> rw [heq] at hfill
  · exact hfill
  · exact hfill.trans (brings_drop hfill.proper n)

theorem byteOf_readByte (s : StreamSource) : byteOf s.readByte.1 = bytesOf (s.readBytes 1).1 := by
  unfold readByte readBytes
  split
  · rfl
  · rename_i s' _
    cases hbuffer : s'.buffer <;> simp [byteOf, bytesOf]

end StreamSource

instance : AnnouncingSource StreamSource where
  held s := s.buffer
  available_held s n h := by
    change s.available.1 = _ at h
    change n = s.available.2.buffer.length
    unfold StreamSource.available at h ⊢
    split at h
    · simp at h
    · exact (Except.ok.inj h).symm
  readByte_held s b rest h := by
    change s.readByte.1 = _ ∧ s.readByte.2.buffer = _
    simp [StreamSource.readByte, StreamSource.fill_of_buffer (s := s) (by simp [h]), h]
  readBytes_held n s h := by
    change (s.readBytes n).1 = _ ∧ (s.readBytes n).2.buffer = _
    simp [StreamSource.readBytes, StreamSource.fill_of_buffer h]

open StreamSource (Brings)

variable {s s' : StreamSource}

/-- Whatever is asked of a source, it hands out the front of what was to come. -/
theorem Hands.brings {bytes : Bytes} (h : Hands s bytes s') (hs : s.Proper) : Brings s bytes s' := by
  induction h with
  | refl => exact .refl hs
  | @available s' bytes _ ih =>
    have hfill := StreamSource.brings_fill ih.proper
    rw [← s'.available_snd] at hfill
    rw [← List.append_nil bytes]
    exact ih.trans hfill
  | @eof s' bytes _ ih =>
    have hfill := StreamSource.brings_fill ih.proper
    rw [← s'.eof_snd] at hfill
    rw [← List.append_nil bytes]
    exact ih.trans hfill
  | @readByte s' bytes _ ih =>
    have hread := StreamSource.brings_readBytes ih.proper 1
    rw [← s'.byteOf_readByte, ← s'.readByte_snd] at hread
    exact ih.trans hread
  | readBytes n _ ih => exact ih.trans (StreamSource.brings_readBytes ih.proper n)

/-- The source that was given all the bytes to come hands out the same. -/
theorem Hands.whole {bytes : Bytes} (h : Hands s bytes s') (hs : s.Proper) :
    Hands s.whole bytes s'.whole := by
  rw [StreamSource.whole, (h.brings hs).toCome_eq]
  exact PushSource.hands_ofBytes bytes s'.toCome

/-- Nothing comes of a source that has nothing to bring. -/
theorem Reaches.toCome_eq_nil (h : Reaches s s') (hs : s.Proper) (hnil : s.toCome = []) :
    s'.toCome = [] := by
  obtain ⟨bytes, hhands⟩ := h
  rw [(hhands.brings hs).toCome_eq] at hnil
  exact (List.append_eq_nil_iff.mp hnil).2

/-- A source that says that it is at its end brings nothing, and one that says that it is not holds
bytes. -/
theorem eof_spec (hs : s.Proper) :
    match ByteSource.eof s with
    | (.ok true, s') => s'.toCome = []
    | (.ok false, s') => s'.buffer ≠ []
    | (.error _, _) => True := by
  obtain ⟨hbrings, hfill⟩ := StreamSource.fill_spec hs
  change match s.eof with
    | (.ok true, s') => s'.toCome = []
    | (.ok false, s') => s'.buffer ≠ []
    | (.error _, _) => True
  unfold StreamSource.eof
  generalize s.fill = filled at hbrings hfill
  obtain ⟨outcome, s'⟩ := filled
  cases outcome with
  | error e => trivial
  | ok _ =>
    cases hended : s'.ended with
    | true => simpa [hended] using hbrings.proper.toCome_of_ended hended
    | false => simpa [hended] using hfill

theorem fill_of_available_error {e : IoError} (h : ByteSource.available s = (.error e, s')) :
    s.fill = (.error e, s') := by
  change s.available = _ at h
  unfold StreamSource.available at h
  split at h
  · rename_i heq
    rw [heq]
    simpa using h
  · simp at h

/-- Where a source balks it used up a failure of the stream and holds nothing. -/
theorem Balks.used {e : IoError} (h : Balks s e s') (hs : s.Proper) :
    e :: s'.toFail <:+ s.toFail ∧ s'.buffer = [] := by
  obtain ⟨s₁, ⟨bytes, hhands⟩, hfails⟩ := h
  have hbrings := hhands.brings hs
  have hspec := (StreamSource.fill_spec hbrings.proper).2
  rw [fill_of_available_error hfails] at hspec
  obtain ⟨hfail, hbuffer⟩ := hspec
  exact ⟨hfail ▸ hbrings.toFail_suffix, hbuffer⟩

/-- A source that balks has less left. -/
theorem Balks.remaining_lt {e : IoError} (h : Balks s e s') : s'.remaining < s.remaining := by
  obtain ⟨s₁, ⟨bytes, hhands⟩, hfails⟩ := h
  refine Nat.lt_of_lt_of_le ?_ (hhands.remaining_le : s₁.remaining ≤ s.remaining)
  have hfill := fill_of_available_error hfails
  have hweight := Stream.weight_readAnswers s₁.chunk s₁.stream.reads s₁.stream.answers
  by_cases hfull : s₁.ended ∨ s₁.buffer ≠ []
  · simp [StreamSource.fill, hfull] at hfill
  · rw [StreamSource.fill, if_neg hfull, Stream.read] at hfill
    simp only [not_or, ne_eq, Decidable.not_not, Bool.not_eq_true] at hfull
    split at hfill
    · rename_i stream heq
      simp only [heq] at hweight
      obtain ⟨-, rfl⟩ := Prod.mk.inj hfill
      change _ < s₁.remaining
      simpa [StreamSource.remaining, hfull] using hweight
    · simp at hfill

end Ebml
