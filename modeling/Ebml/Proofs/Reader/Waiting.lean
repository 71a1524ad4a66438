import Mathlib
import Ebml.Proofs.Reader.History
import Ebml.Proofs.Reader.Persisting
import Ebml.Reader.Apply

/-!
# What a reader waits for

A read of a stream may take any time, so a reader should read only when the bytes in hand decide
nothing more. `StreamSource.inHand` is a source of just these bytes, to which more could be pushed:
there a scan stalls where the stream would be read. Up to that point both scans take the same steps
(`step_decided`), so what the bytes in hand decide is handed out without a read
(`decided_without_read`). And whatever is done with a reader, its stream is read only when no byte
is in hand (`Unhurried`).
-/

namespace Ebml

namespace StreamSource

/-- The bytes in hand, to which more could be pushed. -/
def inHand (s : StreamSource) : PushSource :=
  ⟨s.buffer, false⟩

/-- The source with other bytes in hand, its stream as it was. -/
def holding (s : StreamSource) (buffer : Bytes) : StreamSource :=
  { s with buffer := buffer }

/-- Bytes to which more can be pushed are those in hand of a source that holds them. -/
theorem inHand_holding (s : StreamSource) {p : PushSource} (h : p.finished = false) :
    (s.holding p.buffer).inHand = p := by
  rw [inHand, holding, ← h]

end StreamSource

namespace Scanner

open StreamSource (fill_of_buffer)

/-! ## Header fields -/

section

variable {s : StreamSource} {n : Nat}

theorem takeBytes_inHand (h : n ≤ s.buffer.length) :
    takeBytes n s.inHand = ⟨s.buffer.take n, none, ⟨s.buffer.drop n, false⟩⟩ ∧
      takeBytes n s = ⟨s.buffer.take n, none, s.holding (s.buffer.drop n)⟩ := by
  -- A byte in hand comes from both sources alike and leaves them with the same bytes in hand.
  induction n generalizing s with
  | zero => exact ⟨rfl, rfl⟩
  | succ n ih =>
    cases hbuffer : s.buffer with
    | nil => simp [hbuffer] at h
    | cons b rest =>
      have hpushed : ByteSource.readByte s.inHand = (.ok (some b), (s.holding rest).inHand) := by
        change s.inHand.readByte = _
        simp [PushSource.readByte, StreamSource.inHand, StreamSource.holding, hbuffer]
      have hread : ByteSource.readByte s = (.ok (some b), s.holding rest) := by
        change s.readByte = _
        rw [StreamSource.readByte, fill_of_buffer (by simp [hbuffer])]
        simp [StreamSource.holding, hbuffer]
      have hn : n ≤ (s.holding rest).buffer.length := by
        simp only [hbuffer, List.length_cons] at h
        exact Nat.le_of_succ_le_succ h
      obtain ⟨hpushed', hread'⟩ := ih hn
      rw [takeBytes, takeBytes, hpushed, hread]
      simp only [hpushed', hread']
      exact ⟨rfl, rfl⟩

theorem available_inHand (h : s.buffer ≠ []) :
    ByteSource.available s = (.ok s.buffer.length, s) := by
  change s.available = _
  rw [StreamSource.available, fill_of_buffer h]

/-- From no bytes nothing is taken. From some the same is taken as from the stream. -/
theorem pull_inHand (n : Nat) (s : StreamSource) :
    pull n s.inHand = ⟨[], none, s.inHand⟩ ∨
      ∃ bytes buffer, pull n s.inHand = ⟨bytes, none, ⟨buffer, false⟩⟩ ∧
        pull n s = ⟨bytes, none, s.holding buffer⟩ := by
  have hpushed : ByteSource.available s.inHand = (.ok s.buffer.length, s.inHand) := rfl
  rw [pull, pull, hpushed]
  by_cases hempty : s.buffer = []
  · refine .inl ?_
    simp [hempty, takeBytes]
  · rw [available_inHand hempty]
    obtain ⟨hpushed', hread⟩ := takeBytes_inHand (Nat.min_le_right n s.buffer.length)
    exact .inr ⟨_, _, hpushed', hread⟩

end

/-- What comes of the bytes in hand is that more are needed, or it comes of the stream as well
without a read. -/
def Decided {β : Type} (lacking : β) (s : StreamSource) (p : Fetched PushSource β)
    (q : Fetched StreamSource β) : Prop :=
  p.outcome = .ok lacking ∨
    p.source.finished = false ∧ q = ⟨p.outcome, p.scanner, s.holding p.source.buffer⟩

section

variable {t : Scanner} {s : StreamSource}

theorem fetch_decided {wanted : Nat} (hpos : 0 < wanted)
    (hroom : t.window.bytes.length + wanted ≤ maxHeaderLength) :
    Decided false s (fetch wanted t s.inHand) (fetch wanted t s) := by
  rcases pull_inHand wanted s with hnone | ⟨bytes, buffer, hpushed, hread⟩
  · refine .inl ?_
    have happend : t.window.append? [] = some ⟨t.window.start, t.window.bytes ++ []⟩ := by
      rw [HeaderWindow.append?, if_pos (by simp only [List.length_nil]; omega)]
    have hshort : (0 : Nat) ≠ wanted := by omega
    simp [fetch, hnone, happend, hshort]
  · refine .inr ?_
    simp only [fetch, hpushed, hread]
    split <;> exact ⟨rfl, rfl⟩

variable {α : Type} {limit : Nat} {tooWide : Nat → VintError} {value : Bytes → α}
  {decode : Bytes → Except VintError (Option α)} {front sofar : Bytes}

theorem completeField_decided
    (hdecode : ∀ bytes, decode bytes = (splitField limit tooWide bytes).map (Option.map value))
    (hroom : front.length + limit ≤ maxHeaderLength) (hwindow : t.window.bytes = front ++ sofar)
    (hne : sofar ≠ []) :
    Decided none s (completeField decode (t.window.start + front.length) t s.inHand)
      (completeField decode (t.window.start + front.length) t s) := by
  unfold completeField
  rw [sliceFrom_front hwindow]
  rcases hsplit : splitField limit tooWide sofar with e | _ | field
  · simp only [hdecode, hsplit, Except.map]
    exact .inr ⟨rfl, rfl⟩
  · -- The field goes on, so the bytes in hand are asked for what is missing of it.
    obtain ⟨first, more, rfl⟩ := List.exists_cons_of_ne_nil hne
    obtain ⟨hlimit, hshort⟩ := splitField_none hsplit
    rw [List.length_cons] at hshort
    have hlen : t.window.bytes.length = front.length + (more.length + 1) := by
      rw [hwindow, List.length_append, List.length_cons]
    have hfetch := @fetch_decided t s (vintWidth first - (more.length + 1)) (by omega) (by omega)
    simp only [hdecode, hsplit, Except.map, Option.map_none, get?_front hwindow, List.length_cons]
    generalize fetch _ t s.inHand = fetched at hfetch ⊢
    obtain ⟨outcome, t', p⟩ := fetched
    rcases hfetch with hlacking | ⟨hopen, heq⟩
    · obtain rfl : outcome = .ok false := hlacking
      exact .inl rfl
    · rw [heq]
      match outcome with
      | .error e => exact .inr ⟨hopen, rfl⟩
      | .ok false => exact .inl rfl
      | .ok true =>
        dsimp only
        split <;> exact .inr ⟨hopen, rfl⟩
  · simp only [hdecode, hsplit, Except.map, Option.map_some]
    exact .inr ⟨rfl, rfl⟩

theorem readField_decided
    (hdecode : ∀ bytes, decode bytes = (splitField limit tooWide bytes).map (Option.map value))
    (hpos : 0 < limit) (hroom : front.length + limit ≤ maxHeaderLength)
    (hwindow : t.window.bytes = front ++ sofar) :
    Decided none s (readField decode (t.window.start + front.length) t s.inHand)
      (readField decode (t.window.start + front.length) t s) := by
  unfold readField
  rw [contains_front hwindow]
  by_cases hempty : sofar = []
  · subst hempty
    have hlen : t.window.bytes.length = front.length := by simp [hwindow]
    rw [if_neg (by simp), if_neg (by simp)]
    obtain ⟨bytes, p, -, hpushed⟩ := @fetch_takes _ _ t s.inHand 1 Nat.one_pos (by omega)
    have hfetch := @fetch_decided t s 1 Nat.one_pos (by omega)
    -- The first byte of the field came from the bytes in hand, or there was none.
    rcases hpushed with ⟨hpushed, hall⟩ | ⟨hpushed, -⟩ | ⟨e, hpushed, -⟩ <;>
      rw [hpushed] at hfetch ⊢
    · obtain ⟨hopen, heq⟩ := hfetch.resolve_left (by simp)
      obtain ⟨first, rfl⟩ := List.length_eq_one_iff.mp hall
      have hcomplete := @completeField_decided (t.absorb [first]) (s.holding p.buffer) α limit
        tooWide value decode front [first] hdecode hroom (absorb_front hwindow _) (by simp)
      rw [start_absorb, s.inHand_holding hopen] at hcomplete
      rw [heq]
      exact hcomplete
    · exact .inl rfl
    · obtain ⟨hopen, heq⟩ := hfetch.resolve_left (by simp)
      rw [heq]
      exact .inr ⟨hopen, rfl⟩
  · rw [if_pos (by simpa using hempty), if_pos (by simpa using hempty)]
    exact completeField_decided hdecode hroom hwindow hempty

end

/-! ## Steps -/

/-- Over the bytes in hand a step stalls, or it is the step over the stream, which is not read. -/
def StepDecided (s : StreamSource) (p : Stepped PushSource) (q : Stepped StreamSource) : Prop :=
  p.outcome = .ok .stalled ∨
    p.source.finished = false ∧ q = ⟨p.outcome, p.scanner, s.holding p.source.buffer⟩

variable {t : Scanner} (s : StreamSource)

theorem stepId_decided : StepDecided s (stepId t s.inHand) (stepId t s) := by
  have hread := @readField_decided t s _ maxIdWidth .idTooWide (fun f => (beNat f, f.length))
    decodeId [] t.window.bytes decodeId_eq (by decide) (by decide) rfl
  rw [List.length_nil, Nat.add_zero] at hread
  unfold stepId
  split
  · exact .inr ⟨rfl, rfl⟩
  · generalize readField _ _ t s.inHand = fetched at hread ⊢
    obtain ⟨outcome, t', p⟩ := fetched
    rcases hread with hlacking | ⟨hopen, heq⟩
    · obtain rfl : outcome = .ok none := hlacking
      exact .inl rfl
    · rw [heq]
      rcases outcome with e | _ | field <;> exact .inr ⟨hopen, rfl⟩

theorem stepSize_decided {id idWidth index : Nat} (hphase : t.phase = .size id idWidth (some index))
    (hco : t.Coherent) :
    StepDecided s (stepSize id idWidth (some index) t s.inHand)
      (stepSize id idWidth (some index) t s) := by
  simp only [Coherent, hphase] at hco
  obtain ⟨-, -, -, idField, part, hwindow, hid, -, rfl, -⟩ := hco
  have hroom : idField.length + maxSizeWidth ≤ maxHeaderLength := by
    have := hid.le_limit
    unfold maxHeaderLength
    omega
  have hread := @readField_decided t s _ maxSizeWidth .sizeTooWide
    (fun f => (DataSize.ofField f, f.length)) decodeSize idField part decodeSize_eq (by decide)
    hroom hwindow
  unfold stepSize
  generalize readField _ _ t s.inHand = fetched at hread ⊢
  obtain ⟨outcome, t', p⟩ := fetched
  rcases hread with hlacking | ⟨hopen, heq⟩
  · obtain rfl : outcome = .ok none := hlacking
    exact .inl rfl
  · rw [heq]
    rcases outcome with e | _ | field <;> exact .inr ⟨hopen, rfl⟩

theorem readContent_decided (leaf : Option Occurrence) (stop : Nat) :
    StepDecided s (readContent leaf stop t s.inHand) (readContent leaf stop t s) := by
  have hpushed : ByteSource.available s.inHand = (.ok s.buffer.length, s.inHand) := rfl
  unfold readContent
  rw [hpushed]
  split
  · exact .inr ⟨rfl, rfl⟩
  · -- With bytes in hand the stream is not read, and both sources give the same of them.
    by_cases hempty : s.buffer = []
    · refine .inl ?_
      simp [hempty]
    · rw [available_inHand hempty]
      dsimp only
      generalize min (min (stop - t.consumed) t.maxChunk) s.buffer.length = wanted
      split
      · exact .inl rfl
      · have hpushed' : ByteSource.readBytes wanted s.inHand =
            (.ok (s.buffer.take wanted), (s.holding (s.buffer.drop wanted)).inHand) := by
          change s.inHand.readBytes wanted = _
          simp [PushSource.readBytes, StreamSource.inHand, StreamSource.holding, hempty]
        have hread : ByteSource.readBytes wanted s =
            (.ok (s.buffer.take wanted), s.holding (s.buffer.drop wanted)) := by
          change s.readBytes wanted = _
          rw [StreamSource.readBytes, fill_of_buffer hempty]
          rfl
        rw [hpushed', hread]
        dsimp only
        split
        · exact .inl rfl
        · exact .inr ⟨rfl, rfl⟩

theorem step_decided (hco : t.Coherent) : StepDecided s (step t s.inHand) (step t s) := by
  unfold step
  split
  · exact stepId_decided s
  · rename_i hphase
    obtain ⟨index, rfl, -⟩ := hco.latest_of_size hphase
    exact stepSize_decided s hphase hco
  · exact .inr ⟨rfl, rfl⟩
  · rename_i hphase
    obtain ⟨stop, rfl⟩ := hco.stop_of_content hphase
    exact readContent_decided s _ _
  · exact .inr ⟨rfl, rfl⟩

/-- A run over the bytes in hand ends in a stall, or it is the run over the stream, which is not
read. -/
theorem run_decided {κ : Type} (hco : t.Coherent) (r : Receiver κ) (k : κ) :
    ((run r t s.inHand k).outcome = .ok () ∧
        ∃ k', r.poll k' = (true, (run r t s.inHand k).receiver)) ∨
      ∃ buffer, run r t s k = ⟨(run r t s.inHand k).outcome, (run r t s.inHand k).scanner,
        s.holding buffer, (run r t s.inHand k).receiver⟩ := by
  have halike := run_alike (R := fun t p s' => t.Coherent ∧ p = s'.inHand ∧ ∃ b, s' = s.holding b)
    (E := fun _ _ _ => True) (fun t p s' h => ?_) r t s.inHand s k ⟨hco, rfl, s.buffer, rfl⟩
  · obtain ⟨-, hstalled⟩ | ⟨s', heq, -, -, buffer, rfl⟩ := halike
    · exact .inl hstalled
    · exact .inr ⟨buffer, heq⟩
  · obtain ⟨hco', rfl, b, rfl⟩ := h
    obtain ⟨_, -, htransition⟩ := @step_transition _ _ t (s.holding b).inHand hco'
    rcases step_decided (s.holding b) hco' with hstalled | ⟨hopen, heq⟩
    · exact .inl ⟨trivial, hstalled⟩
    · refine .inr ⟨_, heq, htransition.coherent hco', ?_, _, rfl⟩
      exact ((s.holding b).inHand_holding hopen).symm

end Scanner

/-! ## What the bytes in hand decide -/

namespace Reader

/-- The reader as it would be over just the bytes in hand, to which more could be pushed. -/
def inHand (r : Reader StreamSource) : Reader PushSource :=
  ⟨r.source.inHand, r.scanner, r.collector⟩

/-- An answer that more bytes would not change: an element, or an error that is not the source's. -/
def Conclusive : Except ScanError (Option Element) → Prop
  | .ok element => element ≠ none
  | .error e => ∀ cause, e ≠ .io cause

/-- A scan of the bytes in hand finds no element, or it is the scan of the stream, which is not
read. -/
theorem scan_decided {r : Reader StreamSource} (hsound : r.scanner.Sound) :
    (r.inHand.scan.1 = .ok () ∧ r.inHand.scan.2.collector.hasPending = false) ∨
      ∃ buffer, r.scan = (r.inHand.scan.1,
        ⟨r.source.holding buffer, r.inHand.scan.2.scanner, r.inHand.scan.2.collector⟩) := by
  cases hclosed : r.scanner.closed with
  | true =>
    have hclosed' : r.inHand.scanner.closed = true := hclosed
    rw [scan_eq_self hclosed, scan_eq_self hclosed']
    exact .inr ⟨r.source.buffer, rfl⟩
  | false =>
    have hclosed' : r.inHand.scanner.closed = false := hclosed
    rw [scan_eq_run hclosed, scan_eq_run hclosed']
    change (_ = _ ∧ (Scanner.run Collector.receiver r.scanner r.source.inHand
      r.collector).receiver.hasPending = false) ∨ _
    have hrun :=
      Scanner.run_decided r.source (hsound.coherent hclosed) Collector.receiver r.collector
    rcases hrun with ⟨hok, k, hpoll⟩ | ⟨buffer, heq⟩
    · -- The collector was still willing when the scan stalled, so nothing waits.
      obtain ⟨hwilling, rfl⟩ := Prod.mk.inj hpoll
      exact .inl ⟨hok, by simpa using hwilling⟩
    · exact .inr ⟨buffer, by rw [heq]; rfl⟩

/-- An answer that the bytes in hand decide is the answer over the stream, which is not read for
it. -/
theorem decided_without_read {r : Reader StreamSource} (hsound : r.scanner.Sound)
    (h : Conclusive r.inHand.next?.1) :
    r.next?.1 = r.inHand.next?.1 ∧ r.next?.2.source.stream = r.source.stream := by
  cases hpending : r.collector.hasPending with
  | true =>
    have hpending' : r.inHand.collector.hasPending = true := hpending
    rw [next?, next?, if_pos hpending, if_pos hpending']
    exact ⟨rfl, rfl⟩
  | false =>
    have hpending' : r.inHand.collector.hasPending = false := hpending
    rw [next?, if_neg (by simp [hpending'])] at h
    rw [next?, next?, if_neg (by simp [hpending]), if_neg (by simp [hpending'])]
    have hscan := scan_decided hsound
    generalize r.inHand.scan = scanned at h hscan ⊢
    obtain ⟨outcome, r'⟩ := scanned
    -- If the bytes in hand do not decide, the answer over them is that there is no element yet.
    rcases hscan with ⟨hok, hnone⟩ | ⟨buffer, heq⟩
    · obtain rfl : outcome = .ok () := hok
      have hpop : r'.pop = (none, r') := pop_of_not_pending hnone
      change Conclusive (.ok r'.pop.1) at h
      rw [hpop] at h
      exact absurd rfl h
    · rw [heq]
      cases outcome <;> exact ⟨rfl, rfl⟩

end Reader

/-! ## When the stream is read -/

/-- What leads from one state of a source to another if its stream is read only while no byte is in
hand: bytes in hand are handed out, and where there are none the next chunk is read. -/
inductive Unhurried (s : StreamSource) : StreamSource → Prop
  | refl : Unhurried s s
  | serve {s' : StreamSource} (n : Nat) :
      Unhurried s s' → Unhurried s (s'.holding (s'.buffer.drop n))
  | read {s' : StreamSource} : Unhurried s s' → s'.buffer = [] → Unhurried s s'.fill.2

namespace Unhurried

variable {s s' : StreamSource}

theorem fill (h : Unhurried s s') : Unhurried s s'.fill.2 := by
  by_cases hempty : s'.buffer = []
  · exact h.read hempty
  · rw [StreamSource.fill_of_buffer hempty]
    exact h

theorem readBytes (h : Unhurried s s') (n : Nat) : Unhurried s (s'.readBytes n).2 := by
  have hfill := h.fill
  unfold StreamSource.readBytes
  split <;> rename_i heq <;> rw [heq] at hfill
  · exact hfill
  · exact hfill.serve n

/-- Nothing that can be asked of a source makes it read while bytes are in hand. -/
theorem of_hands {bytes : Bytes} (h : Hands s bytes s') : Unhurried s s' := by
  induction h with
  | refl => exact .refl
  | @available s' _ _ ih =>
    change Unhurried s s'.available.2
    rw [s'.available_snd]
    exact ih.fill
  | @eof s' _ _ ih =>
    change Unhurried s s'.eof.2
    rw [s'.eof_snd]
    exact ih.fill
  | @readByte s' _ _ ih =>
    change Unhurried s s'.readByte.2
    rw [s'.readByte_snd]
    exact ih.readBytes 1
  | readBytes n _ ih => exact ih.readBytes n

theorem of_reaches (h : Reaches s s') : Unhurried s s' := by
  obtain ⟨_, hhands⟩ := h
  exact of_hands hhands

end Unhurried

namespace Reader

section

variable {σ : Type} [SteadySource σ]

/-- What every question to a reader and every call for an element keeps, showing its elements to a
visitor keeps. -/
theorem apply_induction {P : Reader σ → Prop} (mayHaveNext : ∀ r, P r → P r.mayHaveNext.2)
    (progress : ∀ r, P r → P r.progress.2) (next? : ∀ r, P r → P r.next?.2)
    (eof : ∀ r, P r → P { r with source := (ByteSource.eof r.source).2 }) {ν ε : Type}
    (v : Visitor ν ε) (r : Reader σ) (state : ν) (h : P r) : P (apply v r state).reader := by
  -- Each call of a round leads from a reader of the kind to another one.
  have hmay {r r' : Reader σ} {answer} (hr : P r) (heq : r.mayHaveNext = (answer, r')) : P r' := by
    simpa [heq] using mayHaveNext r hr
  have hprogress {r r' : Reader σ} {answer} (hr : P r) (heq : r.progress = (answer, r')) :
      P r' := by
    simpa [heq] using progress r hr
  have hnext {r r' : Reader σ} {answer} (hr : P r) (heq : r.next? = (answer, r')) : P r' := by
    simpa [heq] using next? r hr
  have heof {r : Reader σ} {source : σ} {answer} (hr : P r)
      (heq : ByteSource.eof r.source = (answer, source)) : P { r with source := source } := by
    simpa [heq] using eof r hr
  fun_induction apply v r state with
  | case1 => exact h
  | case2 r state _ e r₁ hm => exact hmay h hm
  | case3 r state _ r₁ hm => exact hmay h hm
  | case4 r state _ r₁ hm e r₂ hb => exact hprogress (hmay h hm) hb
  | case5 r state _ r₁ hm before r₂ hb e r₃ hn => exact hnext (hprogress (hmay h hm) hb) hn
  | case6 r state _ r₁ hm before r₂ hb element r₃ hn => exact hnext (hprogress (hmay h hm) hb) hn
  | case7 r state _ r₁ hm before r₂ hb element r₃ hn state' hv ih =>
    exact ih (hnext (hprogress (hmay h hm) hb) hn)
  | case8 r state _ r₁ hm before r₂ hb r₃ hn e r₄ ha =>
    exact hprogress (hnext (hprogress (hmay h hm) hb) hn) ha
  | case9 r state _ r₁ hm before r₂ hb r₃ hn after r₄ ha _ ih =>
    exact ih (hprogress (hnext (hprogress (hmay h hm) hb) hn) ha)
  | case10 r state _ r₁ hm before r₂ hb r₃ hn after r₄ ha _ e source he =>
    exact heof (hprogress (hnext (hprogress (hmay h hm) hb) hn) ha) he
  | case11 r state _ r₁ hm before r₂ hb r₃ hn after r₄ ha _ source he =>
    exact heof (hprogress (hnext (hprogress (hmay h hm) hb) hn) ha) he
  | case12 r state _ r₁ hm before r₂ hb r₃ hn after r₄ ha _ source he ih =>
    exact ih (heof (hprogress (hnext (hprogress (hmay h hm) hb) hn) ha) he)

end

section

variable {σ : Type} [FiniteSource σ] (r : Reader σ)

theorem progress_reaches : Reaches r.source r.progress.2.source := by
  have havailable : Reaches r.source (ByteSource.available r.source).2 :=
    ⟨_, (Hands.refl _).available⟩
  unfold progress
  split <;> rename_i heq <;> rw [heq] at havailable <;> exact havailable

variable [AnnouncingSource σ]

theorem next?_reaches : Reaches r.source r.next?.2.source := by
  have hscan := scan_reaches r
  unfold next?
  split
  · exact .refl _
  · split <;> rename_i heq <;> rw [heq] at hscan <;> exact hscan

theorem mayHaveNext_reaches : Reaches r.source r.mayHaveNext.2.source := by
  have heof : Reaches r.source (ByteSource.eof r.source).2 := ⟨_, (Hands.refl _).eof⟩
  unfold mayHaveNext
  split
  · exact .refl _
  · split
    · exact .refl _
    · split <;> rename_i heq <;> rw [heq] at heof
      · exact heof
      · exact heof
      · rename_i source
        have hscan := heof.trans (scan_reaches { r with source := source })
        split <;> rename_i heq' <;> rw [heq'] at hscan
        · exact hscan
        · split <;> exact hscan

end

/-! ## Readers of streams -/

theorem sound_scan {σ : Type} [FiniteSource σ] {r : Reader σ} (h : r.scanner.Sound) :
    r.scan.2.scanner.Sound := by
  cases hclosed : r.scanner.closed with
  | true => rw [scan_eq_self hclosed]; exact h
  | false =>
    obtain ⟨_, _, -, htrail, -⟩ :=
      Scanner.run_trail Collector.receiver r.scanner r.source r.collector (h.coherent hclosed)
    rw [scan_eq_run hclosed]
    exact (htrail.coherent (h.coherent hclosed)).sound (htrail.frame.closed_eq.trans hclosed)

theorem sound_next? {σ : Type} [FiniteSource σ] {r : Reader σ} (h : r.scanner.Sound) :
    r.next?.2.scanner.Sound := by
  have hscan := sound_scan h
  unfold next?
  split
  · exact h
  · split <;> rename_i heq <;> rw [heq] at hscan <;> exact hscan

theorem sound_mayHaveNext {σ : Type} [FiniteSource σ] {r : Reader σ} (h : r.scanner.Sound) :
    r.mayHaveNext.2.scanner.Sound := by
  unfold mayHaveNext
  split
  · exact h
  · split
    · exact h
    · split
      · exact h
      · exact h
      · rename_i source _
        have hscan := @sound_scan _ _ { r with source := source } h
        split <;> rename_i heq <;> rw [heq] at hscan
        · exact hscan
        · split
          · exact hscan
          · exact Scanner.sound_close hscan

theorem scanner_progress {σ : Type} [FiniteSource σ] (r : Reader σ) :
    r.progress.2.scanner = r.scanner := by
  unfold progress
  split <;> rfl

/-- The readers of streams that come of any use, whatever its calls answered. The owner may also put
another source in the place of the one that is read. -/
inductive Reachable (c : ReaderConfig) : Reader StreamSource → Prop
  | begin (s : StreamSource) : Reachable c (ofSource c s)
  | mayHaveNext {r : Reader StreamSource} : Reachable c r → Reachable c r.mayHaveNext.2
  | next? {r : Reader StreamSource} : Reachable c r → Reachable c r.next?.2
  | apply {r : Reader StreamSource} {ν ε : Type} (v : Visitor ν ε) (state : ν) :
      Reachable c r → Reachable c (apply v r state).reader
  | replace {r : Reader StreamSource} (s : StreamSource) :
      Reachable c r → Reachable c { r with source := s }

theorem Reachable.sound {c : ReaderConfig} {r : Reader StreamSource} (h : Reachable c r) :
    r.scanner.Sound := by
  induction h with
  | begin s => exact Scanner.sound_fresh c.schema (max c.maxChunk 1)
  | mayHaveNext _ ih => exact sound_mayHaveNext ih
  | next? _ ih => exact sound_next? ih
  | @apply r _ _ v state _ ih =>
    refine apply_induction (P := fun r => r.scanner.Sound) ?_ ?_ ?_ ?_ v r state ih
    · exact fun _ hr => sound_mayHaveNext hr
    · exact fun r hr => (scanner_progress r).symm ▸ hr
    · exact fun _ hr => sound_next? hr
    · exact fun _ hr => hr
  | replace s _ ih => exact ih

theorem apply_reaches {ν ε : Type} (v : Visitor ν ε) (r : Reader StreamSource) (state : ν) :
    Reaches r.source (apply v r state).reader.source := by
  refine apply_induction (P := fun r' => Reaches r.source r'.source) ?_ ?_ ?_ ?_ v r state (.refl _)
  · exact fun r' hr => hr.trans (mayHaveNext_reaches r')
  · exact fun r' hr => hr.trans (progress_reaches r')
  · exact fun r' hr => hr.trans (next?_reaches r')
  · exact fun r' hr => hr.trans ⟨_, (Hands.refl _).eof⟩

/-- However a reader of a stream came about: an element or an error of the scan that the bytes in
hand decide is what it answers next, and the stream is not read for it. No use of the reader, nor of
its source by itself, reads the stream while a byte is in hand. -/
theorem answers_without_waiting (c : ReaderConfig) {r : Reader StreamSource} (h : Reachable c r) :
    (Conclusive r.inHand.next?.1 →
        r.next?.1 = r.inHand.next?.1 ∧ r.next?.2.source.stream = r.source.stream) ∧
      Unhurried r.source r.next?.2.source ∧ Unhurried r.source r.mayHaveNext.2.source ∧
      (∀ {ν ε : Type} (v : Visitor ν ε) (state : ν),
        Unhurried r.source (apply v r state).reader.source) ∧
      ∀ {bytes : Bytes} {s : StreamSource}, Hands r.source bytes s → Unhurried r.source s :=
  ⟨decided_without_read h.sound, .of_reaches (next?_reaches r), .of_reaches (mayHaveNext_reaches r),
    fun v state => .of_reaches (apply_reaches v r state), .of_hands⟩

/-- A stream delivers a void element in one read and would fail in the next. Asked whether there may
be more, a reader reads once, and then hands out the element without the second read. -/
theorem void_element_without_waiting :
    let r := (ofSource {} (.ofStream
      ⟨[.bytes [0xEC, 0x81, 7], .failure ⟨.timedOut, "no more for now"⟩], 0⟩ 16)).mayHaveNext.2
    Reachable {} r ∧ Conclusive r.inHand.next?.1 ∧
      (∃ l, r.next?.1 = .ok (some (.leaf l)) ∧ l.content = [7]) ∧
      r.source.stream.reads = 1 ∧ r.next?.2.source.stream.reads = 1 := by
  intro r
  have hreachable : Reachable {} r := .mayHaveNext (.begin _)
  have hanswer : ∃ l, r.inHand.next?.1 = .ok (some (.leaf l)) ∧ l.content = [7] :=
    ⟨⟨⟨⟨0xEC, "Void", -1, .binary, false⟩, 0⟩, some [], 1, [0xEC, 0x81], [7], .lenient⟩,
      by cbv, rfl⟩
  have hconclusive : Conclusive r.inHand.next?.1 := by
    obtain ⟨l, hl, -⟩ := hanswer
    rw [hl]
    exact Option.some_ne_none _
  have hreads : r.source.stream.reads = 1 := by cbv
  obtain ⟨hsame, hstream⟩ := (answers_without_waiting {} hreachable).1 hconclusive
  rw [hsame, hstream]
  exact ⟨hreachable, hconclusive, hanswer, hreads, hreads⟩

end Reader

end Ebml
