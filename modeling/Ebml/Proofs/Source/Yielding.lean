import Ebml.Proofs.Source.Streaming

/-!
# Sources that can be read to their end

`Yields s rest` says that no operation of the source will fail and that `rest` is what it will hand
out before its end. A finished source of pushed bytes yields the bytes that it holds. A source over a
stream without failures yields what comes before the first read that gives nothing; it does not
matter what the stream would answer after that, because such a source never reads again.
-/

namespace Ebml

open AnnouncingSource (held)

/-- A source for which it is known when it yields a byte string and then ends. -/
class YieldingSource (σ : Type) [FiniteSource σ] [AnnouncingSource σ] where
  Yields : σ → Bytes → Prop
  available_ok : ∀ {s : σ} {rest : Bytes}, Yields s rest →
    ∃ n, (ByteSource.available s).1 = .ok n
  /-- What is handed out comes off the front, and bytes that were held are only gone if some came. -/
  hands : ∀ {s s' : σ} {bytes rest : Bytes}, Yields s rest → Hands s bytes s' →
    (∃ rest', rest = bytes ++ rest' ∧ Yields s' rest') ∧ (held s ≠ [] → held s' = [] → bytes ≠ [])
  /-- At the end the bytes that are held are all that is left, before it there are some. -/
  eof_spec : ∀ {s : σ} {rest : Bytes}, Yields s rest →
    match ByteSource.eof s with
    | (.ok true, s') => ∀ bytes s'', Hands s' bytes s'' → held s'' = [] → bytes = rest
    | (.ok false, s') => held s' ≠ []
    | (.error _, _) => False

export YieldingSource (Yields)

/-- A source that yields bytes never balks. -/
theorem not_balks_of_yields {σ : Type} [FiniteSource σ] [AnnouncingSource σ] [YieldingSource σ]
    {s s' : σ} {rest : Bytes} {e : IoError} (h : Yields s rest) : ¬Balks s e s' := by
  rintro ⟨s₁, ⟨bytes, hhands⟩, hfails⟩
  obtain ⟨⟨rest', -, hyields⟩, -⟩ := YieldingSource.hands h hhands
  obtain ⟨n, hok⟩ := YieldingSource.available_ok hyields
  simp [hfails] at hok

/-! ## Pushed bytes -/

instance : YieldingSource PushSource where
  Yields s rest := s.finished = true ∧ s.buffer = rest
  available_ok {s} _ _ := ⟨s.buffer.length, rfl⟩
  hands {s s'} bytes rest h hhands := by
    obtain ⟨hbuffer, hfinished⟩ := PushSource.buffer_of_hands hhands
    refine ⟨⟨s'.buffer, h.2.symm.trans hbuffer, hfinished.trans h.1, rfl⟩, fun hne hnil => ?_⟩
    rw [show s'.buffer = [] from hnil, List.append_nil] at hbuffer
    rwa [← hbuffer]
  eof_spec {s rest} h := by
    have heof : ByteSource.eof s = (.ok true, s) := by rw [← h.1]; rfl
    rw [heof]
    intro bytes s'' hhands hnil
    have hbuffer := (PushSource.buffer_of_hands hhands).1
    rw [show s''.buffer = [] from hnil, List.append_nil, h.2] at hbuffer
    exact hbuffer.symm

/-! ## Streams -/

namespace Stream

/-- The bytes that are delivered before the first read that gives nothing. -/
def untilEmpty : List StreamRead → Bytes
  | [] => []
  | .bytes [] :: _ => []
  | .bytes (b :: more) :: rest => b :: more ++ untilEmpty rest
  | .failure _ :: rest => untilEmpty rest

theorem untilEmpty_bytes {bytes : Bytes} (hne : bytes ≠ []) (rest : List StreamRead) :
    untilEmpty (.bytes bytes :: rest) = bytes ++ untilEmpty rest := by
  obtain ⟨b, more, rfl⟩ := List.exists_cons_of_ne_nil hne
  rfl

/-- What a read leaves over comes next. -/
theorem untilEmpty_leftOver (limit : Nat) {bytes : Bytes} (hne : bytes ≠ [])
    (rest : List StreamRead) :
    untilEmpty (.bytes bytes :: rest) =
      bytes.take limit ++ untilEmpty (leftOver limit bytes rest) := by
  rw [untilEmpty_bytes hne, leftOver]
  split
  · rename_i hempty
    rw [List.isEmpty_iff, List.drop_eq_nil_iff] at hempty
    rw [List.take_of_length_le hempty]
  · rename_i hmore
    rw [untilEmpty_bytes (by simpa using hmore), ← List.append_assoc, List.take_append_drop]

/-- The failures that are seen before the first read that gives nothing. -/
def failuresUntilEmpty : List StreamRead → List IoError
  | [] => []
  | .bytes [] :: _ => []
  | .bytes (_ :: _) :: rest => failuresUntilEmpty rest
  | .failure e :: rest =>
    if e.kind = .interrupted then failuresUntilEmpty rest else e :: failuresUntilEmpty rest

theorem failuresUntilEmpty_bytes {bytes : Bytes} (hne : bytes ≠ []) (rest : List StreamRead) :
    failuresUntilEmpty (.bytes bytes :: rest) = failuresUntilEmpty rest := by
  obtain ⟨b, more, rfl⟩ := List.exists_cons_of_ne_nil hne
  rfl

theorem failuresUntilEmpty_leftOver (limit : Nat) (bytes : Bytes) (rest : List StreamRead) :
    failuresUntilEmpty (leftOver limit bytes rest) = failuresUntilEmpty rest := by
  unfold leftOver
  split
  · rfl
  · rename_i hmore
    exact failuresUntilEmpty_bytes (by simpa using hmore) rest

/-- A stream that never fails does not fail before its end. -/
theorem failuresUntilEmpty_of_failures {answers : List StreamRead} (h : failures answers = []) :
    failuresUntilEmpty answers = [] := by
  fun_induction failuresUntilEmpty answers with
  | case1 => rfl
  | case2 => rfl
  | case3 _ _ rest ih => exact ih h
  | case4 e rest hkind ih => exact ih (by simpa [failures, hkind] using h)
  | case5 e rest hkind => simp [failures, hkind] at h

/-- A read gives what comes next, and nothing only at the end. If it fails it used up the first
failure to be seen. -/
theorem readAnswers_untilEmpty {limit : Nat} (reads : Nat) (answers : List StreamRead)
    (hpos : 0 < limit) :
    match readAnswers limit reads answers with
    | (.ok bytes, s) =>
      (untilEmpty answers = bytes ++ if bytes.isEmpty then [] else untilEmpty s.answers) ∧
        failuresUntilEmpty answers = if bytes.isEmpty then [] else failuresUntilEmpty s.answers
    | (.error e, s) =>
      untilEmpty answers = untilEmpty s.answers ∧
        failuresUntilEmpty answers = e :: failuresUntilEmpty s.answers := by
  induction answers generalizing reads with
  | nil => exact ⟨rfl, rfl⟩
  | cons a rest ih =>
    cases a with
    | bytes bytes =>
      by_cases hne : bytes = []
      · simp [hne, readAnswers, untilEmpty, failuresUntilEmpty]
      · have htake : (bytes.take limit).isEmpty = false := by
          rw [List.isEmpty_eq_false_iff, ne_eq, List.take_eq_nil_iff]
          rintro (hzero | hnil)
          · omega
          · exact hne hnil
        simp only [readAnswers, htake, Bool.false_eq_true, if_false]
        rw [failuresUntilEmpty_bytes hne, failuresUntilEmpty_leftOver]
        exact ⟨untilEmpty_leftOver limit hne rest, rfl⟩
    | failure e =>
      unfold readAnswers
      by_cases hkind : e.kind = .interrupted
      · simpa only [if_pos hkind, untilEmpty, failuresUntilEmpty] using ih (reads + 1)
      · simp only [if_neg hkind, untilEmpty, failuresUntilEmpty, and_self]

end Stream

namespace StreamSource

/-- The bytes held and those to come. -/
def untilEmpty (s : StreamSource) : Bytes :=
  s.buffer ++ if s.ended then [] else Stream.untilEmpty s.stream.answers

/-- The failures to be seen before the end. -/
def failuresUntilEmpty (s : StreamSource) : List IoError :=
  if s.ended then [] else Stream.failuresUntilEmpty s.stream.answers

/-- A source that asks for some bytes at a time and holds none once it saw the end. -/
structure Regular (s : StreamSource) : Prop where
  chunk_pos : 0 < s.chunk
  buffer_of_ended : s.ended = true → s.buffer = []

theorem regular_ofStream (stream : Stream) (chunk : Nat) : (ofStream stream chunk).Regular :=
  ⟨Nat.lt_of_lt_of_le Nat.one_pos (Nat.le_max_right chunk 1), fun _ => rfl⟩

/-- The source handed out the bytes, the rest is still to come, and failures were at most used up. -/
structure Passes (s : StreamSource) (bytes : Bytes) (s' : StreamSource) : Prop where
  regular : s'.Regular
  untilEmpty_eq : s.untilEmpty = bytes ++ s'.untilEmpty
  failures_suffix : s'.failuresUntilEmpty <:+ s.failuresUntilEmpty
  moves : s.buffer ≠ [] → s'.buffer = [] → bytes ≠ []

variable {s s' s'' : StreamSource}

theorem Passes.refl (h : s.Regular) : Passes s [] s :=
  ⟨h, rfl, List.suffix_refl _, fun hne hnil => absurd hnil hne⟩

theorem Passes.trans {bytes more : Bytes} (h : Passes s bytes s') (h' : Passes s' more s'') :
    Passes s (bytes ++ more) s'' where
  regular := h'.regular
  untilEmpty_eq := by rw [h.untilEmpty_eq, h'.untilEmpty_eq, List.append_assoc]
  failures_suffix := h'.failures_suffix.trans h.failures_suffix
  moves hne hnil := by
    by_cases hmiddle : s'.buffer = []
    · exact List.append_ne_nil_of_left_ne_nil (h.moves hne hmiddle) more
    · exact List.append_ne_nil_of_right_ne_nil bytes (h'.moves hmiddle hnil)

/-- Filling hands out nothing. -/
theorem Regular.fill (h : s.Regular) : Passes s [] s.fill.2 := by
  unfold StreamSource.fill
  split
  · exact .refl h
  · rename_i hfull
    simp only [not_or, ne_eq, Decidable.not_not, Bool.not_eq_true] at hfull
    obtain ⟨hopen, hempty⟩ := hfull
    -- The stream is read, so the bytes that were still to come of it are now held or still to come.
    have hspec := Stream.readAnswers_untilEmpty s.stream.reads s.stream.answers h.chunk_pos
    rw [← Stream.read] at hspec
    generalize s.stream.read s.chunk = answer at hspec ⊢
    obtain ⟨outcome, stream⟩ := answer
    have hcome : s.untilEmpty = Stream.untilEmpty s.stream.answers := by
      rw [untilEmpty, hempty, hopen, if_neg Bool.false_ne_true, List.nil_append]
    have hfail : s.failuresUntilEmpty = Stream.failuresUntilEmpty s.stream.answers := by
      rw [failuresUntilEmpty, hopen, if_neg Bool.false_ne_true]
    cases outcome with
    | error e =>
      obtain ⟨hbytes, hfailures⟩ := hspec
      refine ⟨⟨h.chunk_pos, h.buffer_of_ended⟩, ?_, ?_, fun hne => absurd hempty hne⟩
      · rw [hcome, hbytes, untilEmpty, hempty, hopen, if_neg Bool.false_ne_true]
        rfl
      · rw [hfail, hfailures, failuresUntilEmpty, hopen, if_neg Bool.false_ne_true]
        exact List.suffix_cons _ _
    | ok bytes =>
      obtain ⟨hbytes, hfailures⟩ := hspec
      refine ⟨⟨h.chunk_pos, fun hended => by simpa using hended⟩, ?_, ?_,
        fun hne => absurd hempty hne⟩
      · rw [hcome, hbytes]
        rfl
      · rw [hfail, hfailures]
        exact List.suffix_refl _

theorem Regular.drop (h : s.Regular) (n : Nat) :
    Passes s (s.buffer.take n) { s with buffer := s.buffer.drop n } where
  regular := ⟨h.chunk_pos, fun hended => by simp [h.buffer_of_ended hended]⟩
  untilEmpty_eq := by simp only [untilEmpty]; rw [← List.append_assoc, List.take_append_drop]
  failures_suffix := List.suffix_refl _
  moves hne hnil htake := by
    apply hne
    rw [← List.take_append_drop n s.buffer, htake]
    exact hnil

theorem Regular.readBytes (h : s.Regular) (n : Nat) :
    Passes s (bytesOf (s.readBytes n).1) (s.readBytes n).2 := by
  have hfill := h.fill
  unfold StreamSource.readBytes
  split <;> rename_i heq <;> rw [heq] at hfill
  · exact hfill
  · exact hfill.trans (hfill.regular.drop n)

/-- Whatever is asked of a source, it hands out the front of what is to come. -/
theorem Regular.hands {bytes : Bytes} (h : s.Regular) (hhands : Hands s bytes s') :
    Passes s bytes s' := by
  induction hhands with
  | refl => exact .refl h
  | @available s' bytes _ ih =>
    have hfill := ih.regular.fill
    rw [← s'.available_snd] at hfill
    rw [← List.append_nil bytes]
    exact ih.trans hfill
  | @eof s' bytes _ ih =>
    have hfill := ih.regular.fill
    rw [← s'.eof_snd] at hfill
    rw [← List.append_nil bytes]
    exact ih.trans hfill
  | @readByte s' bytes _ ih =>
    have hread := ih.regular.readBytes 1
    rw [← s'.byteOf_readByte, ← s'.readByte_snd] at hread
    exact ih.trans hread
  | readBytes n _ ih => exact ih.trans (ih.regular.readBytes n)

/-- A source over a stream that does not fail before its end. -/
structure Unfailing (s : StreamSource) : Prop extends Regular s where
  failures_eq : s.failuresUntilEmpty = []

theorem Passes.unfailing {bytes : Bytes} (h : Passes s bytes s') (hs : s.Unfailing) :
    s'.Unfailing := by
  have hsuffix := h.failures_suffix
  rw [hs.failures_eq] at hsuffix
  exact ⟨h.regular, List.suffix_nil.mp hsuffix⟩

/-- Filling succeeds and leaves no byte only at the end. -/
theorem Unfailing.fill_ok (h : s.Unfailing) :
    s.fill.1 = .ok () ∧ (s.fill.2.buffer = [] → s.fill.2.ended = true) := by
  unfold StreamSource.fill
  split
  · rename_i hfull
    exact ⟨rfl, fun hnil => hfull.resolve_right fun hne => hne hnil⟩
  · rename_i hfull
    simp only [not_or, ne_eq, Decidable.not_not, Bool.not_eq_true] at hfull
    have hnever := h.failures_eq
    rw [failuresUntilEmpty, hfull.1, if_neg (by simp)] at hnever
    have hspec := Stream.readAnswers_untilEmpty s.stream.reads s.stream.answers h.chunk_pos
    rw [← Stream.read, hnever] at hspec
    generalize s.stream.read s.chunk = answer at hspec ⊢
    obtain ⟨outcome, stream⟩ := answer
    cases outcome with
    | error e => simp at hspec
    | ok bytes => exact ⟨rfl, fun hnil => by simpa using hnil⟩

end StreamSource

instance : YieldingSource StreamSource where
  Yields s rest := s.Unfailing ∧ s.untilEmpty = rest
  available_ok {s} _ h := by
    have hok := h.1.fill_ok.1
    change ∃ n, s.available.1 = .ok n
    unfold StreamSource.available
    split <;> simp_all
  hands {s s'} bytes rest h hhands := by
    have hpasses := h.1.hands hhands
    exact ⟨⟨s'.untilEmpty, h.2.symm.trans hpasses.untilEmpty_eq, hpasses.unfailing h.1, rfl⟩,
      hpasses.moves⟩
  eof_spec {s rest} h := by
    obtain ⟨hok, hends⟩ := h.1.fill_ok
    have hfill := h.1.fill
    have heof : ByteSource.eof s = (.ok s.fill.2.ended, s.fill.2) := by
      change s.eof = _
      unfold StreamSource.eof
      split <;> simp_all
    rw [heof]
    generalize s.fill.2 = s' at hfill hends
    have hcome := hfill.untilEmpty_eq
    rw [h.2, List.nil_append] at hcome
    cases hended : s'.ended with
    | true =>
      -- An ended source holds nothing and brings nothing.
      have hnil : s'.untilEmpty = [] := by
        rw [StreamSource.untilEmpty, hfill.regular.buffer_of_ended hended, if_pos hended]
        rfl
      intro bytes s'' hhands _
      have hpasses := (hfill.regular.hands hhands).untilEmpty_eq
      rw [hnil] at hpasses
      rw [hcome, hnil, (List.append_eq_nil_iff.mp hpasses.symm).1]
    | false =>
      intro hnil
      simp [hends hnil] at hended

/-- A source over a stream that never fails yields what is delivered before the first empty read. -/
theorem yields_ofStream {answers : List StreamRead} (chunk : Nat)
    (h : Stream.failures answers = []) :
    Yields (StreamSource.ofStream ⟨answers, 0⟩ chunk) (Stream.untilEmpty answers) :=
  ⟨⟨StreamSource.regular_ofStream _ chunk, Stream.failuresUntilEmpty_of_failures h⟩, rfl⟩

end Ebml
