import Ebml.Proofs.Reader.Mixing
import Ebml.Proofs.Reader.Unfailing
import Ebml.Proofs.Scanner.Serving
import Ebml.Proofs.Source.Failing

/-!
# Drains that met no failure

A reader of a stream that is drained to the end of the input met no failure on the way
(`Sound.drain`): every call went well, so the stream answered whatever it was asked, and at its end
there is nothing that it could still have failed to deliver.
-/

namespace Ebml

namespace StreamSource

variable {s s' : StreamSource}

/-- A read that goes well uses no failure up. -/
theorem failuresUntilEmpty_fill (h : s.Regular) (hok : s.fill.1 = .ok ()) :
    s.fill.2.failuresUntilEmpty = s.failuresUntilEmpty := by
  unfold fill at hok ⊢
  split
  · rfl
  · rename_i hfull
    rw [if_neg hfull] at hok
    simp only [not_or, ne_eq, Decidable.not_not, Bool.not_eq_true] at hfull
    have hspec := Stream.readAnswers_untilEmpty s.stream.reads s.stream.answers h.chunk_pos
    rw [← Stream.read] at hspec
    generalize s.stream.read s.chunk = answer at hspec hok ⊢
    obtain ⟨outcome, stream⟩ := answer
    cases outcome with
    | error e => simp at hok
    | ok bytes =>
      rw [failuresUntilEmpty, failuresUntilEmpty, hfull.1, if_neg Bool.false_ne_true, hspec.2]

/-- A source that knows whether it ended holds bytes if it did not. -/
theorem of_eof {answer : Bool} (h : ByteSource.eof s = (.ok answer, s')) :
    s'.ended = answer ∧ (answer = false → s'.buffer ≠ []) := by
  change s.eof = _ at h
  unfold eof at h
  split at h
  · simp at h
  · rename_i s₁ hfill
    simp only [Prod.mk.injEq, Except.ok.injEq] at h
    obtain ⟨rfl, rfl⟩ := h
    refine ⟨rfl, fun hopen => ?_⟩
    unfold fill at hfill
    split at hfill
    · rename_i hfull
      obtain ⟨-, rfl⟩ := Prod.mk.inj hfill
      exact hfull.resolve_left (by simp [hopen])
    · split at hfill
      · simp at hfill
      · obtain ⟨-, rfl⟩ := Prod.mk.inj hfill
        simpa using hopen

/-- While a source answers whatever it is asked, it meets no failure. -/
theorem failuresUntilEmpty_of_serves (h : Serves s s') (hs : s.Regular) :
    s'.failuresUntilEmpty = s.failuresUntilEmpty := by
  refine (serves_induction (P := fun s' => s'.Regular ∧
    s'.failuresUntilEmpty = s.failuresUntilEmpty) ?_ ?_ h ⟨hs, rfl⟩).2
  · rintro s₁ ⟨hregular, hsame⟩ hok
    exact ⟨hregular.fill.regular, (failuresUntilEmpty_fill hregular hok).trans hsame⟩
  · rintro s₁ n ⟨hregular, hsame⟩
    exact ⟨(hregular.drop n).regular, hsame⟩

end StreamSource

namespace Reader

/-- A scan meets no failure of the source but the one that it reports. -/
theorem served_scan {σ : Type} [FiniteSource σ] (r : Reader σ) :
    Scanner.Served r.source r.scan.1 r.scan.2.source := by
  cases hclosed : r.scanner.closed with
  | true =>
    rw [scan_eq_self hclosed]
    exact .of_serves .refl (by simp)
  | false =>
    rw [scan_eq_run hclosed]
    exact Scanner.served_run r.scanner r.source Collector.receiver r.collector

theorem serves_scan {σ : Type} [FiniteSource σ] {r : Reader σ} (h : r.scan.1 = .ok ()) :
    Serves r.source r.scan.2.source := by
  have hserved := served_scan r
  rw [h] at hserved
  exact hserved.serves_of_ok

/-- A reader of a stream as calls that succeed leave it, whether or not the stream fails later. -/
structure Sound (r : Reader StreamSource) : Prop where
  regular : r.source.Regular
  maxChunk_pos : 0 < r.scanner.maxChunk
  coherent : r.scanner.closed = false → r.scanner.Coherent
  ended_of_closed : r.scanner.closed = true → r.source.ended = true

theorem sound_ofStream (c : ReaderConfig) (stream : Stream) (chunk : Nat) :
    Sound (ofSource c (StreamSource.ofStream stream chunk)) where
  regular := StreamSource.regular_ofStream stream chunk
  maxChunk_pos := Nat.lt_of_lt_of_le Nat.one_pos (Nat.le_max_right c.maxChunk 1)
  coherent _ := Scanner.coherent_fresh _ _
  ended_of_closed hclosed := by simp [ofSource] at hclosed

namespace Sound

variable {r r' r'' : Reader StreamSource}

theorem moved {s : StreamSource} (h : Sound r) (hserves : Serves r.source s) :
    Sound { r with source := s } := by
  obtain ⟨_, hhands⟩ := hserves.reaches
  exact ⟨(h.regular.hands hhands).regular, h.maxChunk_pos, h.coherent, fun hclosed =>
    StreamSource.ended_of_hands hhands (h.ended_of_closed hclosed)⟩

/-- A scan that goes well keeps a reader sound. One that finds no element uses up what was held. -/
theorem scan (h : Sound r) (hs : r.scan = (.ok (), r')) :
    Sound r' ∧ Serves r.source r'.source ∧
      (r.scanner.closed = false → r'.collector.hasPending = false → r.source.buffer ≠ [] →
        r.bytesRead < r'.bytesRead) := by
  cases hclosed : r.scanner.closed with
  | true =>
    rw [scan_eq_self hclosed] at hs
    obtain ⟨-, rfl⟩ := Prod.mk.inj hs
    exact ⟨h, .refl, by simp⟩
  | false =>
    have hserves := @serves_scan _ _ r (by rw [hs])
    rw [hs] at hserves
    rw [scan_eq_run hclosed] at hs
    obtain ⟨bytes, events, k, hhands, htrail, hheard, hreceiver, hhalt⟩ :=
      Scanner.run_halts Collector.receiver r.source r.collector (h.coherent hclosed) h.maxChunk_pos
    generalize Scanner.run Collector.receiver r.scanner r.source r.collector = p at *
    obtain ⟨houtcome, rfl⟩ := Prod.mk.inj hs
    have hsound := h.moved hserves
    have hopen := htrail.frame.closed_eq.trans hclosed
    refine ⟨⟨hsound.regular, ?_, fun _ => htrail.coherent (h.coherent hclosed), ?_⟩, hserves, ?_⟩
    · rw [htrail.frame.maxChunk_eq]
      exact h.maxChunk_pos
    · exact fun hclosed' => absurd (hopen.symm.trans hclosed') (by simp)
    · intro _ hnone hheld
      have hread : p.scanner.consumed = r.bytesRead + bytes.length := htrail.frame.consumed_eq
      rw [houtcome] at hhalt
      -- A scan that went well was paused for an element or used up what it could get.
      cases hhalt with
      | paused hno =>
        obtain rfl : p.receiver = k := hreceiver
        simp [Collector.receiver] at hno
        simp [hno] at hnone
      | usedUp _ hempty =>
        have hpos := List.length_pos_iff.mpr ((h.regular.hands hhands).moves hheld hempty)
        show r.bytesRead < p.scanner.consumed
        omega

/-- Asking whether there may be another element keeps a reader sound. If there may be one, it waits,
or the scan is closed, or the source holds bytes. -/
theorem mayHaveNext {answer : Bool} (h : Sound r) (hm : r.mayHaveNext = (.ok answer, r')) :
    Sound r' ∧ Serves r.source r'.source ∧ (answer = true → Supplied r') := by
  have heof {ended : Bool} := @Serves.eof _ _ r.source _ ended .refl
  unfold Reader.mayHaveNext at hm
  split at hm
  · rename_i hpending
    obtain ⟨-, rfl⟩ := Prod.mk.inj hm
    exact ⟨h, .refl, fun _ => .inl hpending⟩
  split at hm
  · rename_i hclosed
    obtain ⟨-, rfl⟩ := Prod.mk.inj hm
    exact ⟨h, .refl, fun _ => .inr (.inl hclosed)⟩
  split at hm <;> rename_i source hsource <;> simp only [hsource] at heof
  · simp at hm
  · obtain ⟨-, rfl⟩ := Prod.mk.inj hm
    exact ⟨h.moved (heof rfl), heof rfl, fun _ =>
      .inr (.inr ((StreamSource.of_eof hsource).2 rfl))⟩
  · have hended := (StreamSource.of_eof hsource).1
    split at hm <;> rename_i r₁ hscan
    · simp at hm
    · obtain ⟨-, rfl⟩ := Prod.mk.inj hm
      obtain ⟨hsound, hserves, -⟩ := (h.moved (heof rfl)).scan hscan
      obtain ⟨_, hhands⟩ := hserves.reaches
      have hended' := StreamSource.ended_of_hands hhands hended
      cases hpending : r₁.collector.hasPending with
      | true => exact ⟨hsound, (heof rfl).trans hserves, fun _ => .inl hpending⟩
      | false =>
        -- Closing leaves the source as it is.
        refine ⟨⟨hsound.regular, ?_, fun hopen => ?_, fun _ => hended'⟩, (heof rfl).trans hserves,
          fun _ => .inr (.inl (closed_close r₁))⟩
        · have hmax : r₁.close.scanner.maxChunk = r₁.scanner.maxChunk := by
            rw [Reader.close, Scanner.close]
            split <;> rfl
          exact hmax.symm ▸ hsound.maxChunk_pos
        · exact absurd ((closed_close r₁).symm.trans hopen) (by simp)

/-- A call for the next element keeps a reader sound. Without one it read on or is closed. -/
theorem next? {answer : Option Element} (h : Sound r) (hn : r.next? = (.ok answer, r')) :
    Sound r' ∧ Serves r.source r'.source ∧
      (answer = none → Supplied r → r.bytesRead < r'.bytesRead ∨ r'.scanner.closed = true) := by
  unfold Reader.next? at hn
  split at hn
  · rename_i hpending
    obtain ⟨e, waiting, hqueue⟩ := exists_pending hpending
    obtain ⟨hanswer, rfl⟩ := Prod.mk.inj hn
    rw [pop_fst hqueue] at hanswer
    exact ⟨⟨h.regular, h.maxChunk_pos, h.coherent, h.ended_of_closed⟩, .refl, fun hnone => by
      simp [hnone] at hanswer⟩
  · rename_i hpending
    rw [Bool.not_eq_true] at hpending
    split at hn <;> rename_i r₁ hscan
    · simp at hn
    · obtain ⟨hanswer, rfl⟩ := Prod.mk.inj hn
      obtain ⟨hsound, hserves, hmoves⟩ := h.scan hscan
      refine ⟨⟨hsound.regular, hsound.maxChunk_pos, hsound.coherent, hsound.ended_of_closed⟩,
        hserves, fun hnone hsupplied => ?_⟩
      -- Without an answer nothing waits behind the scan, so it was not paused.
      have hpending' : r₁.collector.hasPending = false := by
        cases hp : r₁.collector.hasPending with
        | false => rfl
        | true =>
          obtain ⟨e, waiting, hqueue⟩ := exists_pending hp
          rw [pop_fst hqueue, hnone] at hanswer
          simp at hanswer
      cases hclosed : r.scanner.closed with
      | true =>
        rw [scan_eq_self hclosed] at hscan
        obtain ⟨-, rfl⟩ := Prod.mk.inj hscan
        exact .inr hclosed
      | false =>
        have hheld := (hsupplied.resolve_left (by simp [hpending])).resolve_left (by simp [hclosed])
        exact .inl (hmoves hclosed hpending' hheld)

end Sound

/-! ## Drains -/

/-- A stream never starves a drain, and one that was drained to its end does not fail before. -/
theorem Sound.drain {r : Reader StreamSource} (h : Sound r) :
    r.drain.stop ≠ .starved ∧ (r.drain.stop = .ended → r.source.failuresUntilEmpty = []) := by
  have hsame {r r' : Reader StreamSource} (h : Sound r) (hserves : Serves r.source r'.source) :=
    StreamSource.failuresUntilEmpty_of_serves hserves h.regular
  -- The failures that are still to come are those of before as long as the source answers.
  fun_induction Reader.drain r with
  | case1 => simp
  | case2 r r' hm =>
    obtain ⟨rfl, -, hclosed⟩ := eq_of_mayHaveNext_false hm
    refine ⟨by simp, fun _ => ?_⟩
    rw [StreamSource.failuresUntilEmpty, h.ended_of_closed hclosed, if_pos rfl]
  | case3 => simp
  | case4 =>
    rename_i r r' hm element r'' hn rest ih
    obtain ⟨h', hserves, -⟩ := h.mayHaveNext hm
    obtain ⟨h'', hserves', -⟩ := h'.next? hn
    rw [← hsame h hserves, ← hsame h' hserves']
    exact ih h''
  | case5 r r' hm r'' hn _ ih =>
    obtain ⟨h', hserves, -⟩ := h.mayHaveNext hm
    obtain ⟨h'', hserves', -⟩ := h'.next? hn
    rw [← hsame h hserves, ← hsame h' hserves']
    exact ih h''
  | case6 r r' hm r'' hn hstuck =>
    obtain ⟨h', -, hsupplied⟩ := h.mayHaveNext hm
    -- A reader that was supplied and gives nothing read on or is closed.
    exact absurd ((h'.next? hn).2.2 rfl (hsupplied rfl)) hstuck

end Reader

end Ebml
