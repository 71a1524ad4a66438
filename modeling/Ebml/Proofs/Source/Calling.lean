import Ebml.Proofs.Source.Handing
import Ebml.Source.Stream

/-!
# Calls of a source

What a caller gets out of a source, call by call, against what goes into it. A source over a stream
makes its reads as it is called: none while it holds bytes or after a read that gave nothing, otherwise
one, and again as long as it is interrupted (`StreamSource.Fills`). From this it follows for any calls
that what they were handed and what is still held is what the reads delivered, and that they saw the
failures of these reads (`StreamSource.Balances`).
-/

namespace Ebml

/-! ## Calls and answers -/

/-- A call of a source. -/
inductive SourceCall
  | available
  | readByte
  | readBytes (n : Nat)
  | eof

/-- The answer of a call that did not fail. -/
inductive SourceAnswer
  | count (n : Nat)
  | byte (b : Option UInt8)
  | bytes (chunk : Bytes)
  | atEnd (ended : Bool)

/-- What a call came to. -/
abbrev Reply := Except IoError SourceAnswer

/-- The bytes that an answer hands out. -/
def SourceAnswer.handed : SourceAnswer → Bytes
  | .byte b => b.toList
  | .bytes chunk => chunk
  | _ => []

namespace Reply

/-- The bytes that a reply hands out. -/
def handed : Reply → Bytes
  | .ok answer => answer.handed
  | .error _ => []

/-- The failure that it reports. -/
def failure? : Reply → Option IoError
  | .ok _ => none
  | .error e => some e

end Reply

/-- All bytes that replies hand out. -/
def handedOut (replies : List Reply) : Bytes :=
  replies.flatMap Reply.handed

/-- The failures that are reported. -/
def reported (replies : List Reply) : List IoError :=
  replies.filterMap Reply.failure?

namespace SourceCall

/-- How many bytes a call asks for. -/
def wanted : SourceCall → Nat
  | readByte => 1
  | readBytes n => n
  | _ => 0

variable {σ : Type} [FiniteSource σ]

/-- The reply to a call and the source after it. -/
def make : SourceCall → σ → Reply × σ
  | available, s => ((ByteSource.available s).1.map .count, (ByteSource.available s).2)
  | readByte, s => ((ByteSource.readByte s).1.map .byte, (ByteSource.readByte s).2)
  | readBytes n, s => ((ByteSource.readBytes n s).1.map .bytes, (ByteSource.readBytes n s).2)
  | eof, s => ((ByteSource.eof s).1.map .atEnd, (ByteSource.eof s).2)

/-- The replies to calls made one after the other and the source after them. -/
def makeAll : List SourceCall → σ → List Reply × σ
  | [], s => ([], s)
  | call :: calls, s =>
    let made := makeAll calls (call.make s).2
    ((call.make s).1 :: made.1, made.2)

end SourceCall

/-! ## Reads of a stream -/

namespace Stream

/-- One read of up to `limit` bytes, be it interrupted. -/
def readOnce (limit : Nat) (s : Stream) : Except IoError Bytes × Stream :=
  match s.answers with
  | [] => (.ok [], ⟨[], s.reads + 1⟩)
  | .bytes bytes :: rest => (.ok (bytes.take limit), ⟨leftOver limit bytes rest, s.reads + 1⟩)
  | .failure e :: rest => (.error e, ⟨rest, s.reads + 1⟩)

/-- Reads made one after the other and what they came to. -/
inductive Reads (limit : Nat) : Stream → List (Except IoError Bytes) → Stream → Prop
  | nil (s : Stream) : Reads limit s [] s
  | cons {s s' : Stream} {log : List (Except IoError Bytes)} :
      Reads limit (readOnce limit s).2 log s' → Reads limit s ((readOnce limit s).1 :: log) s'

/-- The bytes that reads delivered. -/
def gave (log : List (Except IoError Bytes)) : Bytes :=
  log.flatMap bytesOf

/-- A read that was broken off and may simply be repeated. -/
def Interrupted (read : Except IoError Bytes) : Prop :=
  ∃ e, read = .error e ∧ e.kind = .interrupted

/-- The failure of a read that was not just interrupted. -/
def failure? : Except IoError Bytes → Option IoError
  | .ok _ => none
  | .error e => if e.kind = .interrupted then none else some e

/-- The failures of reads that were not just interrupted. -/
def failed (log : List (Except IoError Bytes)) : List IoError :=
  log.filterMap failure?

variable {limit : Nat} {s s' s'' : Stream} {log more : List (Except IoError Bytes)}

theorem Reads.trans (h : Reads limit s log s') (h' : Reads limit s' more s'') :
    Reads limit s (log ++ more) s'' := by
  induction h with
  | nil => exact h'
  | cons _ ih => exact .cons (ih h')

/-- Every read is counted. -/
theorem Reads.reads_eq (h : Reads limit s log s') : s'.reads = s.reads + log.length := by
  induction h with
  | nil => rfl
  | @cons s _ _ _ ih =>
    have honce : (readOnce limit s).2.reads = s.reads + 1 := by
      unfold readOnce
      split <;> rfl
    rw [ih, honce, List.length_cons]
    omega

theorem gave_append (log more : List (Except IoError Bytes)) :
    gave (log ++ more) = gave log ++ gave more :=
  List.flatMap_append

theorem failed_append (log more : List (Except IoError Bytes)) :
    failed (log ++ more) = failed log ++ failed more :=
  List.filterMap_append

/-- Reads that were all interrupted gave nothing, and nobody is told of them. -/
theorem nothing_of_interrupted (h : ∀ a ∈ log, Interrupted a) :
    gave log = [] ∧ failed log = [] ∧ .ok [] ∉ log := by
  refine ⟨?_, ?_, fun hmem => ?_⟩
  · rw [gave, List.flatMap_eq_nil_iff]
    intro a ha
    obtain ⟨e, rfl, -⟩ := h a ha
    rfl
  · rw [failed, List.filterMap_eq_nil_iff]
    intro a ha
    obtain ⟨e, rfl, hkind⟩ := h a ha
    exact if_pos hkind
  · obtain ⟨e, heq, -⟩ := h _ hmem
    simp at heq

/-- A read that is repeated while it is interrupted is the last of several reads, and all those before
it were interrupted. -/
theorem exists_reads (limit reads : Nat) (answers : List StreamRead) :
    ∃ interruptions : List (Except IoError Bytes),
      Reads limit ⟨answers, reads⟩ (interruptions ++ [(readAnswers limit reads answers).1])
        (readAnswers limit reads answers).2 ∧
      (∀ a ∈ interruptions, Interrupted a) ∧ ¬Interrupted (readAnswers limit reads answers).1 := by
  induction answers generalizing reads with
  | nil => exact ⟨[], .cons (.nil _), by simp, by simp [Interrupted, readAnswers]⟩
  | cons a rest ih =>
    cases a with
    | bytes bytes => exact ⟨[], .cons (.nil _), by simp, by simp [Interrupted, readAnswers]⟩
    | failure e =>
      unfold readAnswers
      split
      · rename_i hkind
        obtain ⟨interruptions, hreads, hall, hlast⟩ := ih (reads + 1)
        refine ⟨.error e :: interruptions, .cons hreads, fun a ha => ?_, hlast⟩
        rcases List.mem_cons.mp ha with rfl | ha
        · exact ⟨e, rfl, hkind⟩
        · exact hall a ha
      · rename_i hkind
        exact ⟨[], .cons (.nil _), by simp, by simpa [Interrupted] using hkind⟩

end Stream

/-! ## Filling -/

namespace StreamSource

/-- How a source fills its buffer: the reads made, how it came out and the source after it. -/
inductive Fills (s : StreamSource) :
    List (Except IoError Bytes) → Except IoError Unit → StreamSource → Prop
  /-- It does not read while it holds bytes and not after the end. -/
  | kept (h : s.ended = true ∨ s.buffer ≠ []) : Fills s [] (.ok ()) s
  /-- A read that fails for good changes nothing. -/
  | failed {interruptions : List (Except IoError Bytes)} {e : IoError} {stream : Stream}
      (hopen : s.ended = false) (hempty : s.buffer = [])
      (hreads : Stream.Reads s.chunk s.stream (interruptions ++ [.error e]) stream)
      (hall : ∀ a ∈ interruptions, Stream.Interrupted a) (hlast : e.kind ≠ .interrupted) :
      Fills s (interruptions ++ [.error e]) (.error e) { s with stream := stream }
  /-- A read that succeeds fills the buffer or is the end. -/
  | filled {interruptions : List (Except IoError Bytes)} {bytes : Bytes} {stream : Stream}
      (hopen : s.ended = false) (hempty : s.buffer = [])
      (hreads : Stream.Reads s.chunk s.stream (interruptions ++ [.ok bytes]) stream)
      (hall : ∀ a ∈ interruptions, Stream.Interrupted a) :
      Fills s (interruptions ++ [.ok bytes]) (.ok ())
        { s with stream := stream, buffer := bytes, ended := bytes.isEmpty }

theorem exists_fills (s : StreamSource) : ∃ log, Fills s log s.fill.1 s.fill.2 := by
  by_cases hfull : s.ended ∨ s.buffer ≠ []
  · rw [fill, if_pos hfull]
    exact ⟨[], .kept hfull⟩
  · obtain ⟨interruptions, hreads, hall, hlast⟩ :=
      Stream.exists_reads s.chunk s.stream.reads s.stream.answers
    rw [fill, if_neg hfull, Stream.read]
    simp only [not_or, ne_eq, Decidable.not_not, Bool.not_eq_true] at hfull
    generalize Stream.readAnswers s.chunk s.stream.reads s.stream.answers = read at hreads hlast
    obtain ⟨outcome, stream⟩ := read
    cases outcome with
    | error e => exact ⟨_, .failed hfull.1 hfull.2 hreads hall fun hkind => hlast ⟨e, rfl, hkind⟩⟩
    | ok bytes => exact ⟨_, .filled hfull.1 hfull.2 hreads hall⟩

/-- The answer of a call that finds the buffer as it should be. -/
def answer (s : StreamSource) : SourceCall → SourceAnswer
  | .available => .count s.buffer.length
  | .readByte => .byte s.buffer.head?
  | .readBytes n => .bytes (s.buffer.take n)
  | .eof => .atEnd s.ended

/-- The source without the first bytes that it holds. -/
def drop (n : Nat) (s : StreamSource) : StreamSource :=
  { s with buffer := s.buffer.drop n }

@[simp] theorem buffer_drop (n : Nat) (s : StreamSource) : (s.drop n).buffer = s.buffer.drop n := rfl

@[simp] theorem stream_drop (n : Nat) (s : StreamSource) : (s.drop n).stream = s.stream := rfl

@[simp] theorem ended_drop (n : Nat) (s : StreamSource) : (s.drop n).ended = s.ended := rfl

theorem handed_answer (s : StreamSource) (call : SourceCall) :
    (s.answer call).handed = s.buffer.take call.wanted := by
  cases call with
  | readByte =>
    cases hbuffer : s.buffer <;> simp [answer, SourceAnswer.handed, SourceCall.wanted, hbuffer]
  | _ => rfl

/-- Every call fills the buffer first and then takes what it asks for off its front. -/
theorem make_eq (call : SourceCall) (s : StreamSource) :
    call.make s = match s.fill with
      | (.error e, s') => (.error e, s')
      | (.ok (), s') => (.ok (s'.answer call), s'.drop call.wanted) := by
  cases call with
  | available =>
    change (s.available.1.map SourceAnswer.count, s.available.2) = _
    unfold StreamSource.available
    rcases s.fill with ⟨e | _, filled⟩ <;> rfl
  | readByte =>
    change (s.readByte.1.map SourceAnswer.byte, s.readByte.2) = _
    unfold StreamSource.readByte
    rcases s.fill with ⟨e | _, filled⟩
    · rfl
    · simp [answer, drop, SourceCall.wanted, Except.map]
  | readBytes n =>
    change ((s.readBytes n).1.map SourceAnswer.bytes, (s.readBytes n).2) = _
    unfold StreamSource.readBytes
    rcases s.fill with ⟨e | _, filled⟩ <;> rfl
  | eof =>
    change (s.eof.1.map SourceAnswer.atEnd, s.eof.2) = _
    unfold StreamSource.eof
    rcases s.fill with ⟨e | _, filled⟩ <;> rfl

/-! ## Many calls -/

/-- Calls lead from one state of a source to another and get these replies, and the reads that are made
for them come to this. -/
structure Balances (s : StreamSource) (log : List (Except IoError Bytes)) (replies : List Reply)
    (s' : StreamSource) : Prop where
  reads : Stream.Reads s.chunk s.stream log s'.stream
  chunk_eq : s'.chunk = s.chunk
  /-- No byte is lost, made up or out of order. -/
  bytes_eq : s.buffer ++ Stream.gave log = handedOut replies ++ s'.buffer
  /-- The failures of reads are what the calls report. -/
  failures_eq : reported replies = Stream.failed log
  /-- The end is seen where a read gives nothing, and nothing is read after it. -/
  ended_iff : s'.ended = true ↔ s.ended = true ∨ .ok [] ∈ log
  silent : s.ended = true → log = []
  last : .ok [] ∉ log.dropLast
  emptied : (s.ended = true → s.buffer = []) → s'.ended = true → s'.buffer = []

variable {s s' s'' : StreamSource} {log more : List (Except IoError Bytes)}

theorem Balances.refl (s : StreamSource) : Balances s [] [] s where
  reads := .nil _
  chunk_eq := rfl
  bytes_eq := List.append_nil _
  failures_eq := rfl
  ended_iff := by simp
  silent _ := rfl
  last := by simp
  emptied h := h

theorem Balances.trans {replies replies' : List Reply} (h : Balances s log replies s')
    (h' : Balances s' more replies' s'') : Balances s (log ++ more) (replies ++ replies') s'' where
  reads := h.reads.trans (h.chunk_eq ▸ h'.reads)
  chunk_eq := h'.chunk_eq.trans h.chunk_eq
  bytes_eq := by
    rw [Stream.gave_append, ← List.append_assoc, h.bytes_eq, List.append_assoc, h'.bytes_eq,
      handedOut, handedOut, handedOut, List.flatMap_append, List.append_assoc]
  failures_eq := by
    rw [Stream.failed_append, ← h.failures_eq, ← h'.failures_eq]
    exact List.filterMap_append
  ended_iff := by rw [h'.ended_iff, h.ended_iff, List.mem_append, or_assoc]
  silent hended := by
    rw [h.silent hended, List.nil_append]
    exact h'.silent (h.ended_iff.mpr (.inl hended))
  last := by
    by_cases hmore : more = []
    · rw [hmore, List.append_nil]
      exact h.last
    · -- Who reads again has not seen the end before.
      have hlog : .ok [] ∉ log := fun hmem => hmore (h'.silent (h.ended_iff.mpr (.inr hmem)))
      rw [List.dropLast_append_of_ne_nil hmore, List.mem_append]
      exact fun hmem => hmem.elim hlog h'.last
  emptied hs := h'.emptied (h.emptied hs)

/-- What the caller gets to see of filling alone. -/
def repliesOf : Except IoError Unit → List Reply
  | .ok _ => []
  | .error e => [.error e]

/-- Filling hands nothing out, and it reports the failure that it met. -/
theorem Fills.balances {outcome : Except IoError Unit} (h : Fills s log outcome s') :
    Balances s log (repliesOf outcome) s' := by
  -- Reads that were interrupted gave nothing and count for no failure, so only the last read
  -- counts.
  cases h with
  | kept h => exact .refl s
  | @failed interruptions e stream hopen hempty hreads hall hlast =>
    obtain ⟨hgave, hfailed, hend⟩ := Stream.nothing_of_interrupted hall
    exact {
      reads := hreads
      chunk_eq := rfl
      bytes_eq := by
        rw [Stream.gave_append, hgave]
        simp [Stream.gave, bytesOf, handedOut, repliesOf, Reply.handed]
      failures_eq := by
        rw [Stream.failed_append, hfailed]
        simp [Stream.failed, Stream.failure?, hlast, reported, repliesOf, Reply.failure?]
      ended_iff := by simp [hopen, hend]
      silent := by simp [hopen]
      last := by simpa using hend
      emptied := by simp [hopen] }
  | @filled interruptions bytes stream hopen hempty hreads hall =>
    obtain ⟨hgave, hfailed, hend⟩ := Stream.nothing_of_interrupted hall
    exact {
      reads := hreads
      chunk_eq := rfl
      bytes_eq := by
        rw [Stream.gave_append, hgave, hempty]
        simp [Stream.gave, bytesOf, handedOut, repliesOf]
      failures_eq := by
        rw [Stream.failed_append, hfailed]
        simp [Stream.failed, Stream.failure?, reported, repliesOf]
      ended_iff := by
        simp only [List.isEmpty_iff, hopen, Bool.false_eq_true, false_or, List.mem_append, hend,
          List.mem_singleton, Except.ok.injEq]
        exact eq_comm
      silent := by simp [hopen]
      last := by simpa using hend
      emptied := by simp }

/-- Bytes that are held are handed out from the front. -/
theorem balances_drop (s : StreamSource) (call : SourceCall) :
    Balances s [] [.ok (s.answer call)] (s.drop call.wanted) where
  reads := .nil _
  chunk_eq := rfl
  bytes_eq := by
    simp [Stream.gave, handedOut, Reply.handed, handed_answer]
  failures_eq := rfl
  ended_iff := by simp
  silent _ := rfl
  last := by simp
  emptied hs hended := by simp [hs hended]

/-- A call makes the reads of filling the buffer and balances with them. -/
theorem exists_make (call : SourceCall) (s : StreamSource) :
    ∃ log, Fills s log s.fill.1 s.fill.2 ∧ Balances s log [(call.make s).1] (call.make s).2 := by
  obtain ⟨log, hfills⟩ := s.exists_fills
  have hbalances := hfills.balances
  refine ⟨log, hfills, ?_⟩
  rw [make_eq]
  generalize s.fill = fill at hbalances
  obtain ⟨outcome, filled⟩ := fill
  cases outcome with
  | error e => exact hbalances
  | ok _ =>
    have hcall := hbalances.trans (balances_drop filled call)
    rwa [List.append_nil] at hcall

/-- Any calls balance with the reads that are made for them. -/
theorem exists_makeAll (calls : List SourceCall) (s : StreamSource) :
    ∃ log, Balances s log (SourceCall.makeAll calls s).1 (SourceCall.makeAll calls s).2 := by
  induction calls generalizing s with
  | nil => exact ⟨[], .refl s⟩
  | cons call calls ih =>
    obtain ⟨log, -, hcall⟩ := exists_make call s
    obtain ⟨more, hcalls⟩ := ih (call.make s).2
    exact ⟨log ++ more, hcall.trans hcalls⟩

end StreamSource

end Ebml
