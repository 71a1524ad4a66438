import Ebml.Proofs.Source.Yielding

/-!
# Streams that fail

A source over a stream that fails before its end hands out the bytes that come before the failure
(`StreamSource.FailsAfter`). While it answers whatever it is asked it goes on through these
(`FailsAfter.serves`), and it fails only when the last of them was handed out (`FailsAfter.fails`). A
read that was interrupted is no failure, since it is repeated.
-/

namespace Ebml

namespace Stream

/-- The bytes that are delivered before the first failure that is seen or the first read that gives
nothing. -/
def untilFailure : List StreamRead → Bytes
  | [] => []
  | .bytes [] :: _ => []
  | .bytes (b :: more) :: rest => b :: more ++ untilFailure rest
  | .failure e :: rest => if e.kind = .interrupted then untilFailure rest else []

theorem untilFailure_bytes {bytes : Bytes} (hne : bytes ≠ []) (rest : List StreamRead) :
    untilFailure (.bytes bytes :: rest) = bytes ++ untilFailure rest := by
  obtain ⟨b, more, rfl⟩ := List.exists_cons_of_ne_nil hne
  rfl

/-- What a read leaves over comes next. -/
theorem untilFailure_leftOver (limit : Nat) {bytes : Bytes} (hne : bytes ≠ [])
    (rest : List StreamRead) :
    untilFailure (.bytes bytes :: rest) =
      bytes.take limit ++ untilFailure (leftOver limit bytes rest) := by
  rw [untilFailure_bytes hne, leftOver]
  split
  · rename_i hempty
    rw [List.isEmpty_iff, List.drop_eq_nil_iff] at hempty
    rw [List.take_of_length_le hempty]
  · rename_i hmore
    rw [untilFailure_bytes (by simpa using hmore), ← List.append_assoc, List.take_append_drop]

/-- A read gives some of these bytes or, if there are none, fails. -/
theorem readAnswers_untilFailure {limit : Nat} (reads : Nat) {answers : List StreamRead}
    (hpos : 0 < limit) (h : failuresUntilEmpty answers ≠ []) :
    match readAnswers limit reads answers with
    | (.ok bytes, s) => bytes ≠ [] ∧ untilFailure answers = bytes ++ untilFailure s.answers
    | (.error _, _) => untilFailure answers = [] := by
  -- The induction is on the answers, since a read that was interrupted goes on to the next one.
  induction answers generalizing reads with
  | nil => exact absurd rfl h
  | cons a rest ih =>
    cases a with
    | bytes bytes =>
      have hne : bytes ≠ [] := by
        rintro rfl
        exact h rfl
      refine ⟨fun hnil => ?_, untilFailure_leftOver limit hne rest⟩
      rcases List.take_eq_nil_iff.mp hnil with hzero | hnil
      · omega
      · exact hne hnil
    | failure e =>
      unfold readAnswers
      by_cases hkind : e.kind = .interrupted
      · rw [failuresUntilEmpty, if_pos hkind] at h
        simpa only [if_pos hkind, untilFailure] using ih (reads + 1) h
      · simp only [if_neg hkind, untilFailure]

end Stream

namespace StreamSource

variable {s s' : StreamSource} {rest : Bytes} {e : IoError}

/-! ## Answered operations -/

theorem fill_of_readBytes {n : Nat} {bytes : Bytes} (h : (s.readBytes n).1 = .ok bytes) :
    s.fill.1 = .ok () ∧ (s.readBytes n).2 = { s.fill.2 with buffer := s.fill.2.buffer.drop n } := by
  unfold readBytes at h ⊢
  split at h <;> simp_all

/-- Whatever is asked of a source, it fills itself first and then hands out bytes from the front. -/
theorem serves_induction {P : StreamSource → Prop}
    (hfill : ∀ s, P s → s.fill.1 = .ok () → P s.fill.2)
    (hdrop : ∀ s n, P s → P { s with buffer := s.buffer.drop n }) (h : Serves s s') (hs : P s) :
    P s' := by
  -- An operation that answered filled the source without a failure.
  induction h with
  | refl => exact hs
  | @available s' n _ hok ih =>
    change s'.available.1 = _ at hok
    change P s'.available.2
    rw [s'.available_snd]
    refine hfill s' ih ?_
    unfold available at hok
    split at hok <;> simp_all
  | @eof s' answer _ hok ih =>
    change s'.eof.1 = _ at hok
    change P s'.eof.2
    rw [s'.eof_snd]
    refine hfill s' ih ?_
    unfold eof at hok
    split at hok <;> simp_all
  | @readByte s' b _ hok ih =>
    change s'.readByte.1 = _ at hok
    change P s'.readByte.2
    have hread : ∃ bytes, (s'.readBytes 1).1 = .ok bytes := by
      unfold readByte at hok
      unfold readBytes
      split at hok <;> simp_all
    obtain ⟨bytes, hread⟩ := hread
    obtain ⟨hfilled, hsource⟩ := fill_of_readBytes hread
    rw [s'.readByte_snd, hsource]
    exact hdrop _ 1 (hfill s' ih hfilled)
  | @readBytes s' bytes n _ hok ih =>
    obtain ⟨hfilled, hsource⟩ := fill_of_readBytes hok
    change P (s'.readBytes n).2
    rw [hsource]
    exact hdrop _ n (hfill s' ih hfilled)

/-- An operation fails where the source cannot fill itself. -/
theorem fill_of_fails (h : Fails s e s') : s.fill = (.error e, s') := by
  rcases h with h | h | ⟨n, h⟩
  · change s.available = _ at h
    unfold available at h
    split at h <;> simp_all
  · change s.readByte = _ at h
    unfold readByte at h
    split at h <;> simp_all
  · change s.readBytes n = _ at h
    unfold readBytes at h
    split at h <;> simp_all

/-! ## Sources that fail -/

/-- The bytes held and those to come before the first failure. -/
def untilFailure (s : StreamSource) : Bytes :=
  s.buffer ++ if s.ended then [] else Stream.untilFailure s.stream.answers

/-- A source that will fail with `e` as soon as it has handed out `rest`. -/
structure FailsAfter (s : StreamSource) (rest : Bytes) (e : IoError) : Prop extends Regular s where
  failure_eq : s.failuresUntilEmpty.head? = some e
  bytes_eq : s.untilFailure = rest

namespace FailsAfter

theorem ended_eq (h : s.FailsAfter rest e) : s.ended = false := by
  cases hended : s.ended with
  | false => rfl
  | true =>
    have hfailure := h.failure_eq
    simp [failuresUntilEmpty, hended] at hfailure

/-- What is held is left. -/
theorem ne_nil_of_held (h : s.FailsAfter rest e) (hheld : s.buffer ≠ []) : rest ≠ [] := by
  rw [← h.bytes_eq, untilFailure]
  exact List.append_ne_nil_of_left_ne_nil hheld _

/-- Filling leaves some byte or, if there are none left, fails. -/
theorem fill (h : s.FailsAfter rest e) :
    match s.fill with
    | (.ok (), s') => s'.FailsAfter rest e ∧ s'.buffer ≠ []
    | (.error cause, _) => cause = e ∧ rest = [] := by
  have hopen := h.ended_eq
  by_cases hheld : s.buffer = []
  · have hfailure := h.failure_eq
    have hbytes := h.bytes_eq
    rw [failuresUntilEmpty, hopen, if_neg Bool.false_ne_true] at hfailure
    rw [untilFailure, hheld, hopen, if_neg Bool.false_ne_true, List.nil_append] at hbytes
    have hempty := Stream.readAnswers_untilEmpty s.stream.reads s.stream.answers h.chunk_pos
    have hread := @Stream.readAnswers_untilFailure s.chunk s.stream.reads s.stream.answers
      h.chunk_pos (fun hnil => by simp [hnil] at hfailure)
    rw [StreamSource.fill, if_neg (by simp [hopen, hheld]), Stream.read]
    generalize Stream.readAnswers s.chunk s.stream.reads s.stream.answers = answer at hempty hread ⊢
    obtain ⟨outcome, stream⟩ := answer
    cases outcome with
    | error cause =>
      rw [hempty.2] at hfailure
      exact ⟨Option.some.inj hfailure, hbytes.symm.trans hread⟩
    | ok bytes =>
      obtain ⟨hne, hcome⟩ := hread
      have hsome : bytes.isEmpty = false := by simpa using hne
      rw [hempty.2, hsome, if_neg Bool.false_ne_true] at hfailure
      refine ⟨⟨⟨h.chunk_pos, fun hended => by simp [hsome] at hended⟩, ?_, ?_⟩, hne⟩
      · simpa [failuresUntilEmpty, hsome] using hfailure
      · rw [← hbytes, hcome]
        simp [untilFailure, hsome]
  · -- A source that holds bytes does not read.
    rw [fill_of_buffer hheld]
    exact ⟨h, hheld⟩

/-- Asked what it has, the source holds some byte afterwards or fails because none is left. -/
theorem available (h : s.FailsAfter rest e) :
    match ByteSource.available s with
    | (.ok _, s') => s'.FailsAfter rest e ∧ s'.buffer ≠ []
    | (.error cause, _) => cause = e ∧ rest = [] := by
  have hfill := h.fill
  change match s.available with
    | (.ok _, s') => s'.FailsAfter rest e ∧ s'.buffer ≠ []
    | (.error cause, _) => cause = e ∧ rest = []
  unfold StreamSource.available
  generalize s.fill = filled at hfill ⊢
  obtain ⟨outcome, s'⟩ := filled
  cases outcome <;> exact hfill

/-- It never comes to its end. -/
theorem eof (h : s.FailsAfter rest e) :
    match ByteSource.eof s with
    | (.ok answer, s') => answer = false ∧ s'.FailsAfter rest e ∧ s'.buffer ≠ []
    | (.error cause, _) => cause = e ∧ rest = [] := by
  have hfill := h.fill
  change match s.eof with
    | (.ok answer, s') => answer = false ∧ s'.FailsAfter rest e ∧ s'.buffer ≠ []
    | (.error cause, _) => cause = e ∧ rest = []
  unfold StreamSource.eof
  generalize s.fill = filled at hfill ⊢
  obtain ⟨outcome, s'⟩ := filled
  cases outcome with
  | error cause => exact hfill
  | ok _ => exact ⟨hfill.1.ended_eq, hfill⟩

theorem drop (h : s.FailsAfter rest e) (n : Nat) :
    ∃ rest', rest = s.buffer.take n ++ rest' ∧
      FailsAfter { s with buffer := s.buffer.drop n } rest' e := by
  refine ⟨_, ?_, (h.toRegular.drop n).regular, h.failure_eq, rfl⟩
  rw [← h.bytes_eq, untilFailure, untilFailure, ← List.append_assoc, List.take_append_drop]

/-- While the source answers, it hands out the front of what is left before the failure. -/
theorem serves (h : s.FailsAfter rest e) (hserves : Serves s s') {bytes : Bytes}
    (hhands : Hands s bytes s') : ∃ rest', rest = bytes ++ rest' ∧ s'.FailsAfter rest' e := by
  have hfront : ∃ front rest', rest = front ++ rest' ∧ s.untilEmpty = front ++ s'.untilEmpty ∧
      s'.FailsAfter rest' e := by
    refine serves_induction (P := fun s' => ∃ front rest', rest = front ++ rest' ∧
      s.untilEmpty = front ++ s'.untilEmpty ∧ s'.FailsAfter rest' e) ?_ ?_ hserves
      ⟨[], rest, rfl, rfl, h⟩
    · rintro s₁ ⟨front, rest', hrest, hall, hfails⟩ hok
      have hfill := hfails.fill
      rw [show s₁.fill = (.ok (), s₁.fill.2) from Prod.ext hok rfl] at hfill
      exact ⟨front, rest', hrest, hall.trans (by rw [hfails.toRegular.fill.untilEmpty_eq]; rfl),
        hfill.1⟩
    · rintro s₁ n ⟨front, rest', rfl, hall, hfails⟩
      obtain ⟨rest'', rfl, hfails'⟩ := hfails.drop n
      refine ⟨front ++ s₁.buffer.take n, rest'', (List.append_assoc ..).symm, ?_, hfails'⟩
      rw [hall, (hfails.toRegular.drop n).untilEmpty_eq, List.append_assoc]
  -- What was handed out is told by what is still to come.
  obtain ⟨front, rest', hrest, hall, hfails⟩ := hfront
  have hsame := (h.toRegular.hands hhands).untilEmpty_eq.symm.trans hall
  obtain rfl : bytes = front := List.append_cancel_right hsame
  exact ⟨rest', hrest, hfails⟩

/-- The first failure comes when all that was left is handed out. -/
theorem fails {s₁ : StreamSource} {cause : IoError} (h : s.FailsAfter rest e)
    (hserves : Serves s s₁) (hfails : Fails s₁ cause s') {bytes : Bytes}
    (hhands : Hands s bytes s') : cause = e ∧ bytes = rest := by
  obtain ⟨front, hfront⟩ := hserves.reaches
  obtain ⟨rest', rfl, hfailing⟩ := h.serves hserves hfront
  have hfill := hfailing.fill
  have hpasses := hfailing.toRegular.fill
  rw [fill_of_fails hfails] at hfill hpasses
  obtain ⟨rfl, rfl⟩ := hfill
  refine ⟨rfl, ?_⟩
  -- The operation that failed handed out nothing.
  have hall := (h.toRegular.hands hfront).untilEmpty_eq
  rw [hpasses.untilEmpty_eq, List.nil_append] at hall
  rw [List.append_nil]
  exact List.append_cancel_right ((h.toRegular.hands hhands).untilEmpty_eq.symm.trans hall)

end FailsAfter

/-- A source over a stream that fails before its end. -/
theorem failsAfter_ofStream (stream : Stream) (chunk : Nat)
    (h : (Stream.failuresUntilEmpty stream.answers).head? = some e) :
    (ofStream stream chunk).FailsAfter (Stream.untilFailure stream.answers) e :=
  ⟨regular_ofStream stream chunk, h, rfl⟩

end StreamSource

end Ebml
