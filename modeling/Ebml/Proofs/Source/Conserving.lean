import Mathlib
import Ebml.Proofs.Source.Calling

/-!
# Sources lose nothing

A source is a queue: what it hands out comes in the order in which it was read or pushed, and what it
did not hand out yet it still holds (`sources_lossless`). A source over a stream moreover disturbs the
stream as little as it can (`StreamSource.Obeys`), and what it announced it has at hand
(`StreamSource.announced`).
-/

namespace Ebml

open SourceCall (makeAll)

namespace StreamSource

variable {s s' : StreamSource} {log more : List (Except IoError Bytes)}

/-! ## The reads of one call -/

/-- What holds of one more call of a source whose reads came to `log` so far, where the reads of this
call come to `more`. -/
structure Obeys (s : StreamSource) (log more : List (Except IoError Bytes)) (call : SourceCall) :
    Prop where
  reads : Stream.Reads s.chunk s.stream more (call.make s).2.stream
  /-- It reads only while it holds no byte and has not seen the end. -/
  idle : more ≠ [] → s.buffer = [] ∧ .ok [] ∉ log
  /-- It does not leave it at a read that was interrupted. -/
  repeats : ∀ a ∈ more.getLast?, ¬Stream.Interrupted a
  /-- It reports the read that fails for good, if one does, and no other failure. -/
  reports : reported [(call.make s).1] = Stream.failed more
  /-- If it fails, all but the stream is as it was. -/
  unharmed : ∀ e, (call.make s).1 = .error e →
    e.kind ≠ .interrupted ∧ { (call.make s).2 with stream := s.stream } = s

theorem Fills.idle {outcome : Except IoError Unit} (h : Fills s log outcome s') (hlog : log ≠ []) :
    s.buffer = [] ∧ s.ended = false := by
  cases h with
  | kept => exact absurd rfl hlog
  | failed hopen hempty => exact ⟨hempty, hopen⟩
  | filled hopen hempty => exact ⟨hempty, hopen⟩

theorem Fills.repeats {outcome : Except IoError Unit} (h : Fills s log outcome s') :
    ∀ a ∈ log.getLast?, ¬Stream.Interrupted a := by
  cases h with
  | kept => simp
  | failed _ _ _ _ hlast => simpa [Stream.Interrupted] using hlast
  | filled => simp [Stream.Interrupted]

theorem Fills.unharmed {e : IoError} (h : Fills s log (.error e) s') :
    e.kind ≠ .interrupted ∧ { s' with stream := s.stream } = s := by
  cases h with
  | failed _ _ _ _ hlast => exact ⟨hlast, rfl⟩

/-- A call fails only in filling the buffer. -/
theorem fill_of_make_error {call : SourceCall} {e : IoError} (h : (call.make s).1 = .error e) :
    s.fill.1 = .error e ∧ (call.make s).2 = s.fill.2 := by
  rw [make_eq] at h ⊢
  generalize s.fill = fill at h
  obtain ⟨outcome, filled⟩ := fill
  cases outcome with
  | error e' => exact ⟨congrArg Except.error (Except.error.inj h), rfl⟩
  | ok _ => simp at h

/-- A source says that it is at its end exactly if it has seen the end. -/
theorem eof_iff (s : StreamSource) :
    (SourceCall.eof.make s).1 = .ok (.atEnd true) ↔ (SourceCall.eof.make s).2.ended = true := by
  obtain ⟨log, hfills⟩ := s.exists_fills
  rw [make_eq]
  generalize s.fill = fill at hfills
  obtain ⟨outcome, filled⟩ := fill
  cases outcome with
  | ok _ => simp [answer]
  | error e =>
    cases hfills with
    | failed hopen => simp [hopen]

/-! ## Bytes that were announced -/

theorem make_of_held (h : s.buffer ≠ []) (call : SourceCall) :
    call.make s = (.ok (s.answer call), s.drop call.wanted) := by
  rw [make_eq, fill, if_pos (.inr h)]

/-- While not all bytes held are handed out, calls only take bytes away. -/
theorem makeAll_of_held {calls : List SourceCall}
    (h : (handedOut (makeAll calls s).1).length < s.buffer.length) :
    (makeAll calls s).2 = s.drop (handedOut (makeAll calls s).1).length := by
  induction calls generalizing s with
  | nil => rfl
  | cons call calls ih =>
    -- Bytes are held, so this call reads nothing and takes what it wants off the front.
    have hheld : s.buffer ≠ [] := List.ne_nil_of_length_pos (by omega)
    have hmake := make_of_held hheld call
    have hhanded : handedOut (makeAll (call :: calls) s).1 =
        s.buffer.take call.wanted ++ handedOut (makeAll calls (s.drop call.wanted)).1 := by
      rw [makeAll, hmake, ← handed_answer]
      rfl
    have hstate : (makeAll (call :: calls) s).2 = (makeAll calls (s.drop call.wanted)).2 := by
      rw [makeAll, hmake]
    rw [hhanded, List.length_append, List.length_take] at h ⊢
    have hrest : (handedOut (makeAll calls (s.drop call.wanted)).1).length <
        (s.drop call.wanted).buffer.length := by
      rw [buffer_drop, List.length_drop]
      omega
    rw [hstate, ih hrest, Nat.min_eq_left (by omega)]
    simp [drop]

/-- Bytes that were announced come without a read and without fail: each call that is made before all
of them are handed out gets as many as it asks for, as far as there are. -/
theorem announced {n : Nat} (h : (SourceCall.available.make s).1 = .ok (.count n))
    {later : List SourceCall} (next : SourceCall)
    (hless : (handedOut (makeAll later (SourceCall.available.make s).2).1).length < n) :
    let made := makeAll later (SourceCall.available.make s).2
    ∃ answer, (next.make made.2).1 = .ok answer ∧
      (next.make made.2).2.stream = (SourceCall.available.make s).2.stream ∧
      answer.handed.length = min next.wanted (n - (handedOut made.1).length) := by
  obtain ⟨filled, hfilled, rfl⟩ : ∃ filled, (SourceCall.available.make s).2 = filled ∧
      filled.buffer.length = n := by
    rw [make_eq] at h ⊢
    generalize s.fill = fill at h
    obtain ⟨outcome, filled⟩ := fill
    cases outcome with
    | error e => simp at h
    | ok _ => exact ⟨_, rfl, by simpa [answer, SourceCall.wanted] using h⟩
  rw [hfilled] at hless ⊢
  intro made
  have hmade : made.2 = filled.drop (handedOut made.1).length := makeAll_of_held hless
  -- Fewer were handed out than were announced, so some are still held.
  have hheld : made.2.buffer ≠ [] := by
    apply List.ne_nil_of_length_pos
    rw [hmade, buffer_drop, List.length_drop]
    exact Nat.sub_pos_of_lt hless
  refine ⟨made.2.answer next, by rw [make_of_held hheld], ?_, ?_⟩
  · rw [make_of_held hheld, hmade, stream_drop, stream_drop]
  · rw [handed_answer, List.length_take, hmade, buffer_drop, List.length_drop]

/-! ## The next call -/

/-- Behind calls that balance comes a call that obeys, and it says that the source is at its end exactly
if a read gave nothing by then and no byte is held. -/
theorem Balances.exists_obeys {start : StreamSource} {replies : List Reply}
    (h : Balances start log replies s) (hopen : start.ended = false) (call : SourceCall) :
    ∃ more, s.Obeys log more call ∧ (call = .eof → ((call.make s).1 = .ok (.atEnd true) ↔
      .ok [] ∈ log ++ more ∧ (call.make s).2.buffer = [])) := by
  obtain ⟨more, hfills, hcall⟩ := exists_make call s
  refine ⟨more, ⟨hcall.reads, fun hmore => ?_, hfills.repeats, hcall.failures_eq, fun e he => ?_⟩, ?_⟩
  · obtain ⟨hempty, hnotyet⟩ := hfills.idle hmore
    exact ⟨hempty, fun hmem => by simp [h.ended_iff.mpr (.inr hmem)] at hnotyet⟩
  · obtain ⟨hfill, hstate⟩ := fill_of_make_error he
    rw [hfill] at hfills
    rw [hstate]
    exact hfills.unharmed
  · rintro rfl
    have hwhole := h.trans hcall
    have hseen : (SourceCall.eof.make s).2.ended = true ↔ .ok [] ∈ log ++ more := by
      simpa [hopen] using hwhole.ended_iff
    rw [eof_iff, hseen]
    refine ⟨fun hmem => ⟨hmem, ?_⟩, fun h => h.1⟩
    exact hwhole.emptied (by simp [hopen]) (hseen.mpr hmem)

end StreamSource

/-! ## Pushed bytes -/

/-- The bytes that a call hands out are handed out by the source. -/
theorem SourceCall.make_hands {σ : Type} [FiniteSource σ] (call : SourceCall) (s : σ) :
    Hands s (Reply.handed (call.make s).1) (call.make s).2 := by
  -- Two of the four calls hand bytes out. Of the others it has to be said that they do not.
  cases call with
  | available =>
    have hnone : Reply.handed (SourceCall.available.make s).1 = [] := by
      simp only [make]
      cases (ByteSource.available s).1 <;> rfl
    rw [hnone]
    exact (Hands.refl s).available
  | readByte =>
    have hbyte : Reply.handed (SourceCall.readByte.make s).1 = byteOf (ByteSource.readByte s).1 := by
      simp only [make]
      rcases (ByteSource.readByte s).1 with e | _ | b <;> rfl
    rw [hbyte]
    exact (Hands.refl s).readByte
  | readBytes n =>
    have hbytes : Reply.handed ((SourceCall.readBytes n).make s).1 =
        bytesOf (ByteSource.readBytes n s).1 := by
      simp only [make]
      cases (ByteSource.readBytes n s).1 <;> rfl
    rw [hbytes]
    exact (Hands.refl s).readBytes n
  | eof =>
    have hnone : Reply.handed (SourceCall.eof.make s).1 = [] := by
      simp only [make]
      cases (ByteSource.eof s).1 <;> rfl
    rw [hnone]
    exact (Hands.refl s).eof

/-- What is done with a source of pushed bytes, by who reads it or by its owner. -/
inductive PushAction
  | call (call : SourceCall)
  | push (chunk : Bytes)
  | finish

namespace PushAction

/-- The replies that an action gets, if it is a call, and the source after it. -/
def perform : PushAction → PushSource → List Reply × PushSource
  | call c, s => ([(c.make s).1], (c.make s).2)
  | push chunk, s => ([], s.push chunk)
  | finish, s => ([], s.finish)

/-- The replies to actions one after the other and the source after them. -/
def performAll : List PushAction → PushSource → List Reply × PushSource
  | [], s => ([], s)
  | action :: actions, s =>
    let performed := performAll actions (action.perform s).2
    ((action.perform s).1 ++ performed.1, performed.2)

/-- The bytes that are pushed before the source is finished. -/
def pushed : List PushAction → Bytes
  | [] => []
  | call _ :: actions => pushed actions
  | push chunk :: actions => chunk ++ pushed actions
  | finish :: _ => []

/-- What was handed out and what is still held is what was held before and what was pushed. -/
theorem handedOut_performAll (actions : List PushAction) (s : PushSource) :
    handedOut (performAll actions s).1 ++ (performAll actions s).2.buffer =
      s.buffer ++ if s.finished then [] else pushed actions := by
  induction actions generalizing s with
  | nil => simp [performAll, handedOut, pushed]
  | cons action actions ih =>
    simp only [performAll, handedOut, List.flatMap_append, List.append_assoc] at ih ⊢
    rw [ih]
    cases action with
    | call c =>
      obtain ⟨hbuffer, hfinished⟩ := PushSource.buffer_of_hands (c.make_hands s)
      simp only [perform, pushed, hfinished, hbuffer, List.flatMap_cons, List.flatMap_nil,
        List.append_nil, List.append_assoc]
    | push chunk =>
      by_cases hfinished : s.finished <;> simp [perform, PushSource.push, pushed, hfinished]
    | finish => simp [perform, PushSource.finish, pushed]

end PushAction

/-! ## Both sources -/

/-- Sources are queues. For a source over a stream, whatever reads the stream is made of and however
many bytes it asks for at a time, and any calls: what they were handed and what is held is what the
reads delivered, in order, the failures that they reported are those of the reads, and only the last
read may have given nothing. One more call reads only if no byte is held and the end was not seen,
repeats a read that was interrupted, reports a failure without harm, and says that the source is at its
end exactly if a read gave nothing and no byte is held. What the source announces comes without a read.
For a source of pushed bytes, whatever its owner and its reader do: what was handed out and what is held
is what was pushed before the first finish. -/
theorem sources_lossless :
    (∀ (script : List StreamRead) (chunk : Nat) (calls : List SourceCall),
      let made := makeAll calls (StreamSource.ofStream ⟨script, 0⟩ chunk)
      (∃ log, Stream.Reads (max chunk 1) ⟨script, 0⟩ log made.2.stream ∧
        made.2.stream.reads = log.length ∧ handedOut made.1 ++ made.2.buffer = Stream.gave log ∧
        reported made.1 = Stream.failed log ∧ .ok [] ∉ log.dropLast ∧
        ∀ call, ∃ more, made.2.Obeys log more call ∧
          (call = .eof → ((call.make made.2).1 = .ok (.atEnd true) ↔
            .ok [] ∈ log ++ more ∧ (call.make made.2).2.buffer = []))) ∧
      ∀ n, (SourceCall.available.make made.2).1 = .ok (.count n) →
        ∀ (later : List SourceCall) (next : SourceCall),
          let after := makeAll later (SourceCall.available.make made.2).2
          (handedOut after.1).length < n →
            ∃ answer, (next.make after.2).1 = .ok answer ∧
              (next.make after.2).2.stream = (SourceCall.available.make made.2).2.stream ∧
              answer.handed.length = min next.wanted (n - (handedOut after.1).length)) ∧
    ∀ actions : List PushAction,
      handedOut (PushAction.performAll actions {}).1 ++ (PushAction.performAll actions {}).2.buffer =
        PushAction.pushed actions := by
  refine ⟨fun script chunk calls => ⟨?_, ?_⟩, fun actions => ?_⟩
  · obtain ⟨log, hmade⟩ := StreamSource.exists_makeAll calls (.ofStream ⟨script, 0⟩ chunk)
    have hcount := hmade.reads.reads_eq
    exact ⟨log, hmade.reads, by simpa [StreamSource.ofStream] using hcount, hmade.bytes_eq.symm,
      hmade.failures_eq, hmade.last, hmade.exists_obeys rfl⟩
  · intro n hcount later next after hless
    exact StreamSource.announced hcount next hless
  · simpa using PushAction.handedOut_performAll actions {}

/-- The answers of a stream that is interrupted, fails, and would go on after its end. -/
def flakyAnswers : List StreamRead :=
  [.failure ⟨.interrupted, "interrupted"⟩, .bytes [1, 2, 3],
    .failure ⟨.connectionReset, "connection reset"⟩, .bytes [4], .bytes [], .bytes [9]]

/-- A source that asks this stream for two bytes at a time. -/
def flakySource : StreamSource :=
  .ofStream ⟨flakyAnswers, 0⟩ 2

/-- Calls that bring it to its end. -/
def flakyCalls : List SourceCall :=
  [.available, .readByte, .readBytes 5, .readByte, .available, .eof, .readByte, .eof]

/-- Actions on a source that is pushed to after its end. -/
def lateActions : List PushAction :=
  [.push [1], .call .readByte, .push [2], .finish, .push [3], .call (.readBytes 5)]

/-- All bytes before the end are handed out, in six reads, and the end stays the end. What the source
announces first it has. -/
theorem sources_lossless_of_flaky :
    (∃ log, Stream.Reads 2 ⟨flakyAnswers, 0⟩ log (makeAll flakyCalls flakySource).2.stream ∧
      log.length = 6 ∧ Stream.gave log = [1, 2, 3, 4] ∧
      Stream.failed log = [⟨.connectionReset, "connection reset"⟩] ∧
      ∃ more, (makeAll flakyCalls flakySource).2.Obeys log more .eof ∧ .ok [] ∈ log ++ more) ∧
    (∃ answer, ((SourceCall.readBytes 5).make
      (makeAll [.readByte] (SourceCall.available.make flakySource).2).2).1 = .ok answer ∧
        answer.handed.length = 1) ∧
    handedOut (PushAction.performAll lateActions {}).1 = [1, 2] := by
  obtain ⟨hstream, hpush⟩ := sources_lossless
  obtain ⟨⟨log, hreads, hcount, hbytes, hfailures, -, hcall⟩, -⟩ := hstream flakyAnswers 2 flakyCalls
  obtain ⟨more, hobeys, heof⟩ := hcall .eof
  obtain ⟨-, hannounced⟩ := hstream flakyAnswers 2 []
  have hhanded : handedOut (makeAll flakyCalls flakySource).1 ++
      (makeAll flakyCalls flakySource).2.buffer = [1, 2, 3, 4] := by cbv
  have hreported : reported (makeAll flakyCalls flakySource).1 =
      [⟨.connectionReset, "connection reset"⟩] := by cbv
  have hmade : (makeAll flakyCalls flakySource).2.stream.reads = 6 := by cbv
  have hend : (SourceCall.eof.make (makeAll flakyCalls flakySource).2).1 = .ok (.atEnd true) := by cbv
  have hcounted : (SourceCall.available.make flakySource).1 = .ok (.count 2) := by cbv
  have hone : (handedOut (makeAll [.readByte] (SourceCall.available.make flakySource).2).1).length =
      1 := by cbv
  have hless : (handedOut (makeAll [.readByte] (SourceCall.available.make flakySource).2).1).length <
      2 := by
    rw [hone]
    decide
  obtain ⟨answer, hanswer, -, hlength⟩ := hannounced 2 hcounted [.readByte] (.readBytes 5) hless
  refine ⟨⟨log, hreads, hcount.symm.trans hmade, hbytes.symm.trans hhanded,
    hfailures.symm.trans hreported, more, hobeys, ((heof rfl).mp hend).1⟩,
    ⟨answer, hanswer, hlength.trans ?_⟩, ?_⟩
  · change min 5 (2 - (handedOut
      (makeAll [.readByte] (SourceCall.available.make flakySource).2).1).length) = 1
    rw [hone]
    decide
  · have hheld : (PushAction.performAll lateActions {}).2.buffer = [] := by cbv
    have hpushed := hpush lateActions
    rwa [hheld, List.append_nil] at hpushed

end Ebml
