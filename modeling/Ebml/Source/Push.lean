import Ebml.Source

/-!
# Pushed bytes

A source that is fed by its owner, chunk by chunk, until the owner says that there is no more. An
empty source that was not finished answers that it would have to wait.
-/

namespace Ebml

/-- Bytes pushed and not yet read. -/
structure PushSource where
  buffer : Bytes := []
  finished : Bool := false
  deriving DecidableEq, Repr

namespace PushSource

/-- The finished source of the given bytes. -/
def ofBytes (bytes : Bytes) : PushSource :=
  ⟨bytes, true⟩

/-- One more chunk. What is pushed after the end is dropped. -/
def push (s : PushSource) (chunk : Bytes) : PushSource :=
  if s.finished then s else { s with buffer := s.buffer ++ chunk }

/-- No more bytes follow. -/
def finish (s : PushSource) : PushSource :=
  { s with finished := true }

def wouldBlock : IoError :=
  ⟨.wouldBlock, "no bytes buffered yet"⟩

/-- The next byte. -/
def readByte (s : PushSource) : Except IoError (Option UInt8) × PushSource :=
  match s.buffer with
  | b :: rest => (.ok (some b), { s with buffer := rest })
  | [] => (if s.finished then .ok none else .error wouldBlock, s)

/-- Up to `n` of the bytes held. -/
def readBytes (n : Nat) (s : PushSource) : Except IoError Bytes × PushSource :=
  if s.buffer = [] ∧ n ≠ 0 ∧ !s.finished then (.error wouldBlock, s)
  else (.ok (s.buffer.take n), { s with buffer := s.buffer.drop n })

theorem length_readBytes (n : Nat) (s : PushSource) (bytes : Bytes)
    (h : (s.readBytes n).1 = .ok bytes) : bytes.length ≤ n := by
  unfold readBytes at h
  split at h
  · simp at h
  · simp only [Except.ok.injEq] at h
    rw [← h, List.length_take]
    omega

theorem length_readByte (s : PushSource) :
    s.readByte.2.buffer.length + handedByte s.readByte.1 = s.buffer.length := by
  unfold readByte
  split
  · rename_i h; simp [h, handedByte]
  · rename_i h; split <;> simp [h, handedByte]

theorem length_readBytes_add (n : Nat) (s : PushSource) :
    (s.readBytes n).2.buffer.length + handedBytes (s.readBytes n).1 = s.buffer.length := by
  unfold readBytes
  split
  · simp [handedBytes]
  · simp only [handedBytes, List.length_drop, List.length_take]
    omega

theorem readByte_steady (s : PushSource) :
    s.readByte.2 = s ∨ s.readByte.2.buffer.length < s.buffer.length := by
  unfold readByte
  split
  · rename_i h; exact .inr (by simp [h])
  · exact .inl rfl

theorem readBytes_steady (n : Nat) (s : PushSource) :
    (s.readBytes n).2 = s ∨ (s.readBytes n).2.buffer.length < s.buffer.length := by
  unfold readBytes
  split
  · exact .inl rfl
  · by_cases hn : n = 0
    · exact .inl (by simp [hn])
    · cases hb : s.buffer with
      | nil => exact .inl (by cases s; simp_all)
      | cons b rest => exact .inr (by simp only [List.length_drop, List.length_cons]; omega)

end PushSource

instance : SteadySource PushSource where
  available s := (.ok s.buffer.length, s)
  readByte := PushSource.readByte
  readBytes := PushSource.readBytes
  eof s := (.ok s.finished, s)
  remaining s := s.buffer.length
  length_readBytes := PushSource.length_readBytes
  remaining_available _ := Nat.le_refl _
  remaining_readByte s := Nat.le_of_eq s.length_readByte
  remaining_readBytes n s := Nat.le_of_eq (s.length_readBytes_add n)
  remaining_eof _ := Nat.le_refl _
  steady_available _ := .inl rfl
  steady_readByte := PushSource.readByte_steady
  steady_readBytes := PushSource.readBytes_steady
  steady_eof _ := .inl rfl

end Ebml
