import Mathlib
import Ebml.Proofs.Reader.Offering
import Ebml.Proofs.Reader.Recovering
import Ebml.Proofs.Scanner.Calming

/-!
# Readers of streams that never fail

How a stream cuts its bytes into answers, and how many a reader asks for at once, does not show in
what the reader hands out. All that a drain of such a reader comes to (`Undisturbed.drain_spec`) and
all that it offers to a visitor (`offered_ofStream`) can be read off the bytes. Where the stream ends
the scan is calm, so to be asked whether there may be another element never brings an error up: what
cannot be read is reported by the call for the next element (`mayHaveNext_ne_error`).
-/

namespace Ebml

/-! ## Ended streams -/

namespace StreamSource

variable {s s' : StreamSource}

theorem fill_of_ended (h : s.ended = true) : s.fill = (.ok (), s) := by
  rw [fill, if_pos (.inl h)]

theorem ended_fill (h : s.ended = true) : s.fill.2.ended = true := by
  rwa [fill_of_ended h]

theorem ended_readBytes (h : s.ended = true) (n : Nat) : (s.readBytes n).2.ended = true := by
  rw [readBytes, fill_of_ended h]
  exact h

/-- A stream that ended stays at its end. -/
theorem ended_of_hands {bytes : Bytes} (hhands : Hands s bytes s') (h : s.ended = true) :
    s'.ended = true := by
  induction hhands with
  | refl => exact h
  | @available s' _ _ ih => exact s'.available_snd ▸ ended_fill ih
  | @eof s' _ _ ih => exact s'.eof_snd ▸ ended_fill ih
  | @readByte s' _ _ ih => exact s'.readByte_snd ▸ ended_readBytes ih 1
  | readBytes n _ ih => exact ended_readBytes ih n

/-- Nothing is left of a stream that ended. -/
theorem Unfailing.untilEmpty_of_ended (h : s.Unfailing) (hended : s.ended = true) :
    s.untilEmpty = [] := by
  rw [untilEmpty, h.buffer_of_ended hended, if_pos hended, List.append_nil]

/-- A stream that never fails can say whether it ended. -/
theorem Unfailing.eof_eq (h : s.Unfailing) : ByteSource.eof s = (.ok s.fill.2.ended, s.fill.2) := by
  have hok := h.fill_ok.1
  change s.eof = _
  unfold eof
  split <;> simp_all

end StreamSource

namespace Reader

open AnnouncingSource (held)

/-! ## Calm readers -/

/-- A reader that used up its input is calm just if the input can be read to its end. -/
theorem UnderWay.calm_iff {c : ReaderConfig} {input : Bytes} {taken : List Element}
    {r : Reader PushSource} (h : UnderWay c input taken r) (hbuffer : r.source.buffer = []) :
    r.scanner.Calm ↔ (reading c input).2 = .ok () := by
  obtain ⟨bytes, log, htrail, rfl, -⟩ := h
  rw [hbuffer, reading_of_trail htrail]
  rfl

/-- A scan that pauses for an element leaves a calm reader. -/
theorem calm_of_scan {σ : Type} [FiniteSource σ] {r : Reader σ} (hco : r.scanner.Coherent)
    (hopen : r.scanner.closed = false) (hpending : r.collector.hasPending = false)
    (hpending' : r.scan.2.collector.hasPending = true) : r.scan.2.scanner.Calm := by
  rw [scan_eq_run hopen] at hpending' ⊢
  obtain ⟨_, _, t₀, _, _, event, -, htrail, -, -, hlast, -⟩ :=
    @Scanner.run_pauses σ _ _ Collector.receiver (fun _ => rfl) r.scanner r.source r.collector hco
      (by simpa [Collector.receiver] using hpending) (by simpa [Collector.receiver] using hpending')
  exact hlast.calm (htrail.coherent hco)

/-! ## What calls that succeed keep -/

/-- The reader is assured of all that is left of the input, its scan is calm until it is closed, and
it is closed only at the end of the stream. -/
structure Undisturbed (c : ReaderConfig) (input : Bytes) (taken : List Element)
    (r : Reader StreamSource) : Prop where
  assured : Assured c input taken r
  calm : r.scanner.closed = false → r.scanner.Calm
  ended_of_closed : r.scanner.closed = true → r.source.ended = true

/-- A reader at the start of a stream that never fails. -/
theorem undisturbed_ofStream (c : ReaderConfig) (stream : Stream) (chunk : Nat)
    (h : Stream.failuresUntilEmpty stream.answers = []) :
    Undisturbed c (Stream.untilEmpty stream.answers) []
      (ofSource c (StreamSource.ofStream stream chunk)) where
  assured := ⟨_, ⟨⟨StreamSource.regular_ofStream stream chunk, h⟩, rfl⟩,
    .inl ⟨[], [], .refl _, rfl, rfl⟩⟩
  calm _ := Scanner.calm_of_header rfl rfl
  ended_of_closed hclosed := by simp [ofSource] at hclosed

variable {c : ReaderConfig} {input : Bytes} {taken : List Element} {r r' : Reader StreamSource}

/-- Asking for the progress does not disturb a reader. -/
theorem Undisturbed.of_progress {p : Nat × Nat} (h : Undisturbed c input taken r)
    (hp : r.progress = (.ok p, r')) : Undisturbed c input taken r' := by
  refine ⟨(h.assured.of_progress hp).1, ?_, ?_⟩ <;> rw [(progress_eq hp).1]
  · exact h.calm
  · exact fun hclosed => StreamSource.ended_of_hands (Hands.refl _).available
      (h.ended_of_closed hclosed)

/-- Asking whether there may be another element brings up no error. -/
theorem Undisturbed.mayHaveNext (h : Undisturbed c input taken r) :
    match r.mayHaveNext with
    | (.ok true, r') => Undisturbed c input taken r' ∧ Supplied r'
    | (.ok false, r') => r' = r ∧ Spent r
    | (.error _, _) => False := by
  have hspec := h.assured.mayHaveNext
  generalize hanswer : r.mayHaveNext = answer at hspec ⊢
  unfold Reader.mayHaveNext at hanswer
  split at hanswer
  · subst hanswer
    exact ⟨h, hspec.2⟩
  rename_i hpending
  rw [Bool.not_eq_true] at hpending
  split at hanswer
  · rename_i hclosed
    subst hanswer
    exact ⟨rfl, hpending, hclosed⟩
  rename_i hopen
  rw [Bool.not_eq_true] at hopen
  obtain ⟨rest, ⟨hunfailing, hrest⟩, hstands⟩ := h.assured
  have hunder := hstands.underWay hopen
  have hfill := hunfailing.fill
  rw [hunfailing.eof_eq] at hanswer
  generalize r.source.fill.2 = source at hanswer hfill
  have hyields : Yields source rest :=
    ⟨hfill.unfailing hunfailing, hfill.untilEmpty_eq.symm.trans hrest⟩
  cases hended : source.ended with
  | false =>
    rw [hended] at hanswer
    subst hanswer
    exact ⟨⟨hspec.1, h.calm, fun hclosed => absurd (hopen.symm.trans hclosed) (by simp)⟩, hspec.2⟩
  | true =>
    -- Nothing is left of the stream, so all was read, and a calm scan means that it reads well.
    obtain rfl : rest = [] := hyields.2.symm.trans (hyields.1.untilEmpty_of_ended hended)
    have hwell : (reading c input).2 = .ok () := (hunder.calm_iff rfl).mp (h.calm hopen)
    obtain ⟨bytes, rest', hhands, hrest', -, -, hunder', hend⟩ :=
      @scan_of_yields _ _ _ _ c input [] taken { r with source := source } hyields hunder
    obtain ⟨rfl, rfl⟩ := List.append_eq_nil_iff.mp hrest'.symm
    have hended' := StreamSource.ended_of_hands hhands hended
    rw [hended] at hanswer
    dsimp only at hanswer
    generalize Reader.scan { r with source := source } = scanned at *
    obtain ⟨outcome, r'⟩ := scanned
    cases outcome with
    | error e => simp [reading_of_failed hend.2] at hwell
    | ok u =>
      dsimp only at hanswer
      subst hanswer
      refine ⟨⟨hspec.1, fun hopen' => ?_, fun _ => ?_⟩, hspec.2⟩
      · cases hpending' : r'.collector.hasPending with
        | true => exact (hunder'.calm_iff rfl).mpr hwell
        | false =>
          rw [hpending', if_neg Bool.false_ne_true, closed_close] at hopen'
          simp at hopen'
      · split <;> exact hended'

/-- A call for the next element keeps a reader undisturbed or comes upon what cannot be read. -/
theorem Undisturbed.next? (h : Undisturbed c input taken r) :
    match r.next? with
    | (.ok (some e), r') => Undisturbed c input (taken ++ [e]) r'
    | (.ok none, r') =>
      Undisturbed c input taken r' ∧
        (Supplied r → r.bytesRead < r'.bytesRead ∨ r'.scanner.closed = true)
    | (.error e, _) => Failed c input taken e := by
  cases hp : r.collector.hasPending with
  | true =>
    obtain ⟨e, waiting, hpending⟩ := exists_pending hp
    have hassured := h.assured.next? (.inl hp)
    rw [next?_of_pending hpending] at hassured ⊢
    exact ⟨hassured, h.calm, h.ended_of_closed⟩
  | false =>
    cases hclosed : r.scanner.closed with
    | true =>
      rw [Spent.next? ⟨hp, hclosed⟩]
      exact ⟨h, fun _ => .inr hclosed⟩
    | false =>
      -- That it read on is known of assured readers. Here the scan must be calm as well when it
      -- stops.
      have hmoves := h.assured.next?
      obtain ⟨rest, hyields, hstands⟩ := h.assured
      have hunder := hstands.underWay hclosed
      have hco : r.scanner.Coherent := hunder.coherent
      have hcalm := calm_of_scan hco hclosed hp
      have hopen' : r.scan.2.scanner.closed = false := (scan_accounts r).closed_eq.trans hclosed
      obtain ⟨bytes, rest', -, -, -, hyields', hunder', hend⟩ := scan_of_yields hyields hunder
      rw [Reader.next?, if_neg (by simp [hp])] at hmoves ⊢
      generalize r.scan = scanned at *
      obtain ⟨outcome, r'⟩ := scanned
      have hclosed' : r'.scanner.closed = true → r'.source.ended = true := fun hclosed =>
        absurd (hopen'.symm.trans hclosed) (by simp)
      cases outcome with
      | error e => exact hend.2
      | ok u =>
        cases hp' : r'.collector.hasPending with
        | true =>
          obtain ⟨e, waiting, hpending⟩ := exists_pending hp'
          dsimp only
          rw [pop_fst hpending]
          exact ⟨⟨rest', hyields', .inl (hunder'.pop hpending)⟩, fun _ => hcalm hp', hclosed'⟩
        | false =>
          obtain ⟨-, hlacking⟩ := hend.resolve_left (by simp [hp'])
          dsimp only at hmoves ⊢
          rw [pop_of_not_pending hp'] at hmoves ⊢
          exact ⟨⟨⟨rest', hyields', .inl hunder'⟩,
            fun _ => hlacking.calm hunder'.coherent hopen', hclosed'⟩, fun hsupplied =>
              (hmoves hsupplied).2⟩

/-- What comes of asking for an element after the reader said that there may be one. -/
theorem Undisturbed.round (h : Undisturbed c input taken r) (hmay : r.mayHaveNext = (.ok true, r')) :
    Undisturbed c input taken r' ∧ Supplied r' := by
  have hspec := h.mayHaveNext
  rwa [hmay] at hspec

section

variable {r'' : Reader StreamSource}

theorem Undisturbed.of_some {e : Element} (h : Undisturbed c input taken r)
    (hn : r.next? = (.ok (some e), r')) : Undisturbed c input (taken ++ [e]) r' := by
  have hspec := h.next?
  rwa [hn] at hspec

theorem Undisturbed.of_none (h : Undisturbed c input taken r) (hn : r.next? = (.ok none, r')) :
    Undisturbed c input taken r' ∧
      (Supplied r → r.bytesRead < r'.bytesRead ∨ r'.scanner.closed = true) := by
  have hspec := h.next?
  rwa [hn] at hspec

end

/-! ## Calls that succeed -/

/-- Calls to a reader one after the other, none of which failed, and the reader after them. -/
inductive Succeeded (first : Reader StreamSource) : Reader StreamSource → Prop
  | begin : Succeeded first first
  | mayHaveNext {r r' : Reader StreamSource} {answer : Bool} :
      Succeeded first r → r.mayHaveNext = (.ok answer, r') → Succeeded first r'
  | next? {r r' : Reader StreamSource} {answer : Option Element} :
      Succeeded first r → r.next? = (.ok answer, r') → Succeeded first r'
  | progress {r r' : Reader StreamSource} {answer : Nat × Nat} :
      Succeeded first r → r.progress = (.ok answer, r') → Succeeded first r'

theorem Succeeded.undisturbed {first : Reader StreamSource} (h : Succeeded first r)
    (hfirst : Undisturbed c input taken first) : ∃ taken, Undisturbed c input taken r := by
  induction h with
  | begin => exact ⟨taken, hfirst⟩
  | @mayHaveNext r r' answer _ hm ih =>
    obtain ⟨taken, h⟩ := ih
    have hspec := h.mayHaveNext
    rw [hm] at hspec
    cases answer with
    | true => exact ⟨taken, hspec.1⟩
    | false => exact ⟨taken, hspec.1 ▸ h⟩
  | @next? r r' answer _ hn ih =>
    obtain ⟨taken, h⟩ := ih
    cases answer with
    | none => exact ⟨taken, (h.of_none hn).1⟩
    | some e => exact ⟨taken ++ [e], h.of_some hn⟩
  | progress _ hp ih =>
    obtain ⟨taken, h⟩ := ih
    exact ⟨taken, h.of_progress hp⟩

/-- Over a stream that never fails, what cannot be read is first reported by the call for the next
element, never by the question whether there may be one. -/
theorem mayHaveNext_ne_error (c : ReaderConfig) (stream : Stream) (chunk : Nat)
    (h : Stream.failuresUntilEmpty stream.answers = [])
    (hcalls : Succeeded (ofSource c (StreamSource.ofStream stream chunk)) r) (e : ScanError) :
    r.mayHaveNext.1 ≠ .error e := by
  obtain ⟨taken, hundisturbed⟩ := hcalls.undisturbed (undisturbed_ofStream c stream chunk h)
  have hspec := hundisturbed.mayHaveNext
  intro herror
  rw [show r.mayHaveNext = (.error e, r.mayHaveNext.2) from Prod.ext herror rfl] at hspec
  exact hspec

/-! ## Draining -/

/-- Where a drain stops that reads elements with the given ending. -/
def DrainEnd.ofEnding : Except ScanError Unit → DrainEnd
  | .ok () => .ended
  | .error e => .malformed e

theorem Undisturbed.drain_stop (h : Undisturbed c input taken r) (e : ScanError) :
    r.drain.stop ≠ .unreadable e := by
  fun_induction drain r generalizing taken with
  | case1 r e' r' hm =>
    have hspec := h.mayHaveNext
    rw [hm] at hspec
    exact hspec.elim
  | case2 => simp
  | case3 => simp
  | case4 =>
    rename_i r r' hm element r'' hn rest ih
    exact ih ((h.round hm).1.of_some hn)
  | case5 r r' hm r'' hn _ ih => exact ih ((h.round hm).1.of_none hn).1
  | case6 => simp

/-- A drain hands out what is left of the elements of the input and stops where they end. One that
comes to the end of the input has read all its bytes. -/
theorem Undisturbed.drain_spec (h : Undisturbed c input taken r) :
    (reading c input).1 = taken ++ r.drain.elements ∧
      r.drain.stop = .ofEnding (reading c input).2 ∧
        (r.drain.stop = .ended → r.drain.reader.bytesRead = input.length) := by
  have hspec := h.assured.drain_spec.2
  have hstop := h.drain_stop
  generalize r.drain = drained at hspec hstop ⊢
  obtain ⟨elements, stop, r'⟩ := drained
  cases stop with
  | ended =>
    obtain ⟨hspent, rest, hthrough⟩ := hspec
    rw [reading_of_through hthrough hspent.hasPending_eq]
    exact ⟨rfl, rfl, fun _ => hthrough.bytesRead_eq⟩
  | starved => exact hspec.elim
  | unreadable e => exact absurd rfl (hstop e)
  | malformed e =>
    rw [reading_of_failed hspec]
    exact ⟨rfl, rfl, fun hended => by simp at hended⟩

/-! ## Offers -/

/-- A reader of such a stream offers the elements of its bytes. -/
theorem offered_ofStream (c : ReaderConfig) (stream : Stream) (chunk : Nat)
    (h : Stream.failuresUntilEmpty stream.answers = []) :
    offered (ofSource c (StreamSource.ofStream stream chunk)) =
      reading c (Stream.untilEmpty stream.answers) :=
  (undisturbed_ofStream c stream chunk h).assured.reading_eq_offered.symm

end Reader

end Ebml
