import Ebml.Source

/-!
# Buffered streams

A source over a stream that is read a chunk at a time. The stream is laid out in advance: what each
read of it delivers or how it fails, and nothing once that is used up. The source reads only when it
holds no byte, repeats a read that was interrupted, and never reads again after a read gave nothing.
-/

namespace Ebml

/-- The answer of one read of a stream. -/
inductive StreamRead
  /-- These bytes, or as many of them as the reader has room for; the rest stays for the next
  read. -/
  | bytes (bytes : Bytes)
  | failure (e : IoError)
  deriving DecidableEq, Repr

/-- What a stream will answer, and how often it was read. -/
structure Stream where
  answers : List StreamRead
  reads : Nat := 0
  deriving DecidableEq, Repr

namespace Stream

/-- The stream that delivers `bytes` as fast as they are read. -/
def ofBytes (bytes : Bytes) : Stream :=
  ⟨[.bytes bytes], 0⟩

/-- What is left of an answer after `limit` bytes of it were read. -/
def leftOver (limit : Nat) (bytes : Bytes) (rest : List StreamRead) : List StreamRead :=
  if (bytes.drop limit).isEmpty then rest else .bytes (bytes.drop limit) :: rest

/-- Up to `limit` bytes from a stream with the given answers, by a read that is repeated while it is
interrupted. -/
def readAnswers (limit reads : Nat) : List StreamRead → Except IoError Bytes × Stream
  | [] => (.ok [], ⟨[], reads + 1⟩)
  | .bytes bytes :: rest => (.ok (bytes.take limit), ⟨leftOver limit bytes rest, reads + 1⟩)
  | .failure e :: rest =>
    if e.kind = .interrupted then readAnswers limit (reads + 1) rest
    else (.error e, ⟨rest, reads + 1⟩)

/-- Up to `limit` bytes. -/
def read (limit : Nat) (s : Stream) : Except IoError Bytes × Stream :=
  readAnswers limit s.reads s.answers

/-- Two for each byte still to come and one for each answer. -/
def weight : List StreamRead → Nat
  | [] => 0
  | .bytes bytes :: rest => 2 * bytes.length + 1 + weight rest
  | .failure _ :: rest => 1 + weight rest

theorem weight_leftOver (limit : Nat) (bytes : Bytes) (rest : List StreamRead) :
    weight (leftOver limit bytes rest) + 2 * (bytes.take limit).length ≤
      2 * bytes.length + 1 + weight rest := by
  unfold leftOver
  split
  · rename_i h
    have : (bytes.take limit).length ≤ bytes.length := by
      rw [List.length_take]; exact Nat.min_le_right _ _
    omega
  · simp only [weight, List.length_drop, List.length_take]
    omega

/-- A read that delivers bytes takes two for each from the weight, one that fails takes one. -/
theorem weight_readAnswers (limit reads : Nat) (answers : List StreamRead) :
    match readAnswers limit reads answers with
    | (.ok bytes, s) => weight s.answers + 2 * bytes.length ≤ weight answers
    | (.error _, s) => weight s.answers < weight answers := by
  induction answers generalizing reads with
  | nil => simp [readAnswers]
  | cons a rest ih =>
    cases a with
    | bytes bytes =>
      have := weight_leftOver limit bytes rest
      simpa [readAnswers, weight] using this
    | failure e =>
      unfold readAnswers
      by_cases h : e.kind = .interrupted
      · have ih := ih (reads + 1)
        have hw : weight (.failure e :: rest) = 1 + weight rest := by simp [weight]
        rw [if_pos h]
        generalize readAnswers limit (reads + 1) rest = r at ih
        obtain ⟨out, s⟩ := r
        cases out <;> simp only at ih ⊢ <;> omega
      · simp [h, weight]

end Stream

/-- A stream with the bytes read ahead of it. -/
structure StreamSource where
  stream : Stream
  buffer : Bytes := []
  /-- Bytes asked for by one read. -/
  chunk : Nat
  /-- Whether a read gave nothing. -/
  ended : Bool := false
  deriving DecidableEq, Repr

namespace StreamSource

/-- A source that reads `chunk` bytes at a time, one if that is zero. -/
def ofStream (stream : Stream) (chunk : Nat) : StreamSource :=
  { stream := stream, chunk := max chunk 1 }

/-- The largest buffer that there can be. -/
def largestBuffer : Nat := 9223372036854775807

/-- Whether the next call has to read with a buffer larger than any can be. Such a call does not
answer: the program ends there, and what the calls below answer then has no meaning. -/
def breaksOff (s : StreamSource) : Bool :=
  !s.ended && s.buffer.isEmpty && decide (largestBuffer < s.chunk)

theorem breaksOff_ofStream (stream : Stream) (chunk : Nat) :
    (ofStream stream chunk).breaksOff = decide (largestBuffer < chunk) := by
  have hmax : largestBuffer < max chunk 1 ↔ largestBuffer < chunk := by
    unfold largestBuffer
    omega
  simp [breaksOff, ofStream, hmax]

/-- Read the next chunk if no byte is held and the stream has not ended. -/
def fill (s : StreamSource) : Except IoError Unit × StreamSource :=
  if s.ended ∨ s.buffer ≠ [] then (.ok (), s)
  else
    match s.stream.read s.chunk with
    | (.error e, stream) => (.error e, { s with stream := stream })
    | (.ok bytes, stream) =>
      (.ok (), { s with stream := stream, buffer := bytes, ended := bytes.isEmpty })

/-- The number of bytes held, after reading more if there were none. -/
def available (s : StreamSource) : Except IoError Nat × StreamSource :=
  match s.fill with
  | (.error e, s') => (.error e, s')
  | (.ok (), s') => (.ok s'.buffer.length, s')

/-- The next byte. -/
def readByte (s : StreamSource) : Except IoError (Option UInt8) × StreamSource :=
  match s.fill with
  | (.error e, s') => (.error e, s')
  | (.ok (), s') => (.ok s'.buffer.head?, { s' with buffer := s'.buffer.tail })

/-- Up to `n` bytes of one chunk. -/
def readBytes (n : Nat) (s : StreamSource) : Except IoError Bytes × StreamSource :=
  match s.fill with
  | (.error e, s') => (.error e, s')
  | (.ok (), s') => (.ok (s'.buffer.take n), { s' with buffer := s'.buffer.drop n })

/-- Whether the stream has ended and all its bytes are read. -/
def eof (s : StreamSource) : Except IoError Bool × StreamSource :=
  match s.fill with
  | (.error e, s') => (.error e, s')
  | (.ok (), s') => (.ok s'.ended, s')

/-- The bytes held, and twice those to come with the reads that bring them. -/
def remaining (s : StreamSource) : Nat :=
  s.buffer.length + if s.ended then 0 else Stream.weight s.stream.answers + 1

/-- Reading ahead leaves the source as it is or lowers what remains. -/
theorem steady_fill (s : StreamSource) : s.fill.2 = s ∨ s.fill.2.remaining < s.remaining := by
  unfold fill
  split
  · exact .inl rfl
  · rename_i h
    simp only [not_or, ne_eq, Decidable.not_not, Bool.not_eq_true] at h
    -- A read uses up an answer, or a part of one, so the stream weighs less.
    have hw := Stream.weight_readAnswers s.chunk s.stream.reads s.stream.answers
    rw [← Stream.read] at hw
    refine .inr ?_
    split
    · rename_i e stream heq
      simp only [heq] at hw
      simp only [remaining, h]
      simpa using hw
    · rename_i bytes stream heq
      simp only [heq] at hw
      cases bytes with
      | nil => simp [remaining, h]
      | cons b rest =>
        simp only [remaining, h, List.isEmpty_cons, List.length_cons] at hw ⊢
        simp only [Bool.false_eq_true, ↓reduceIte, List.length_nil]
        omega

theorem remaining_fill (s : StreamSource) : s.fill.2.remaining ≤ s.remaining := by
  rcases s.steady_fill with h | h
  · exact Nat.le_of_eq (by rw [h])
  · exact Nat.le_of_lt h

theorem available_snd (s : StreamSource) : s.available.2 = s.fill.2 := by
  unfold available; split <;> simp_all

theorem eof_snd (s : StreamSource) : s.eof.2 = s.fill.2 := by
  unfold eof; split <;> simp_all

theorem remaining_drop (s : StreamSource) (n : Nat) :
    remaining { s with buffer := s.buffer.drop n } + (s.buffer.take n).length = s.remaining := by
  simp only [remaining, List.length_drop, List.length_take]
  omega

theorem remaining_readBytes (n : Nat) (s : StreamSource) :
    (s.readBytes n).2.remaining + handedBytes (s.readBytes n).1 ≤ s.remaining := by
  have hf := s.remaining_fill
  unfold readBytes
  split
  · rename_i heq; simpa [heq, handedBytes] using hf
  · rename_i s' heq
    simp only [heq] at hf
    have := remaining_drop s' n
    simp only [handedBytes]
    omega

theorem remaining_readByte (s : StreamSource) :
    s.readByte.2.remaining + handedByte s.readByte.1 ≤ s.remaining := by
  have hf := s.remaining_fill
  unfold readByte
  split
  · rename_i heq; simpa [heq, handedByte] using hf
  · rename_i s' heq
    simp only [heq] at hf
    have := remaining_drop s' 1
    cases hb : s'.buffer with
    | nil => simp_all [remaining, handedByte]
    | cons b rest => simp_all [remaining, handedByte]

theorem length_readBytes (n : Nat) (s : StreamSource) (bytes : Bytes)
    (h : (s.readBytes n).1 = .ok bytes) : bytes.length ≤ n := by
  unfold readBytes at h
  split at h
  · simp at h
  · simp only [Except.ok.injEq] at h
    rw [← h, List.length_take]
    omega

theorem steady_drop (s : StreamSource) (n : Nat) :
    ({ s with buffer := s.buffer.drop n } : StreamSource) = s ∨
      remaining { s with buffer := s.buffer.drop n } < s.remaining := by
  have := remaining_drop s n
  by_cases hn : n = 0
  · exact .inl (by simp [hn])
  · cases hb : s.buffer with
    | nil => exact .inl (by cases s; simp_all)
    | cons b rest =>
      refine .inr ?_
      rw [hb] at this
      cases n with
      | zero => exact absurd rfl hn
      | succ n => simp only [List.take_succ_cons, List.length_cons] at this; omega

theorem steady_readBytes (n : Nat) (s : StreamSource) :
    (s.readBytes n).2 = s ∨ (s.readBytes n).2.remaining < s.remaining := by
  have hf := s.steady_fill
  unfold readBytes
  split
  · rename_i heq; simpa [heq] using hf
  · rename_i s' heq
    simp only [heq] at hf
    have hd := steady_drop s' n
    rcases hf with hf | hf <;> rcases hd with hd | hd
    · exact .inl (hd.trans hf)
    · exact .inr (by rw [← hf]; exact hd)
    · exact .inr (by rw [hd]; exact hf)
    · exact .inr (Nat.lt_trans hd hf)

theorem readByte_snd (s : StreamSource) : s.readByte.2 = (s.readBytes 1).2 := by
  unfold readByte readBytes
  split <;> simp_all

end StreamSource

instance : SteadySource StreamSource where
  available := StreamSource.available
  readByte := StreamSource.readByte
  readBytes := StreamSource.readBytes
  eof := StreamSource.eof
  remaining := StreamSource.remaining
  length_readBytes := StreamSource.length_readBytes
  remaining_available s := by rw [s.available_snd]; exact s.remaining_fill
  remaining_readByte := StreamSource.remaining_readByte
  remaining_readBytes := StreamSource.remaining_readBytes
  remaining_eof s := by rw [s.eof_snd]; exact s.remaining_fill
  steady_available s := by rw [s.available_snd]; exact s.steady_fill
  steady_readByte s := by rw [s.readByte_snd]; exact s.steady_readBytes 1
  steady_readBytes := StreamSource.steady_readBytes
  steady_eof s := by rw [s.eof_snd]; exact s.steady_fill

end Ebml
