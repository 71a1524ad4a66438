import Ebml.HeaderWindow

/-!
# Header bytes in one buffer

A header window kept in a fixed array of cells, with offsets of 64 bits. Emptying the buffer leaves the
cells as they are, so behind the bytes that are held there may be bytes of earlier headers. A single
byte is looked up in the cells themselves, and whether it is held is decided by its offset alone.
-/

namespace Ebml

/-- Cells for the longest header, of which the first `length` are in use, from offset `start` on. -/
structure HeaderBuffer where
  start : UInt64 := 0
  cells : Vector UInt8 maxHeaderLength := .replicate maxHeaderLength 0
  length : Nat := 0
  length_le : length ≤ maxHeaderLength := by decide

namespace HeaderBuffer

/-- Empty the buffer. The next byte is at `offset`. -/
def reset (b : HeaderBuffer) (offset : UInt64) : HeaderBuffer :=
  { b with start := offset, length := 0, length_le := Nat.zero_le _ }

/-- One more byte, and whether there was room for it. -/
def push (b : HeaderBuffer) (byte : UInt8) : Bool × HeaderBuffer :=
  if h : b.length = maxHeaderLength then (false, b)
  else
    have hlt : b.length < maxHeaderLength := Nat.lt_of_le_of_ne b.length_le h
    (true, ⟨b.start, b.cells.set b.length byte hlt, b.length + 1, hlt⟩)

/-- The bytes held. -/
def held (b : HeaderBuffer) : Bytes :=
  b.cells.toList.take b.length

def isEmpty (b : HeaderBuffer) : Bool :=
  b.length == 0

/-- The offset after the last byte held. -/
def stop (b : HeaderBuffer) : UInt64 :=
  b.start + UInt64.ofNat b.length

/-- Whether the byte at `offset` is held. -/
def contains (b : HeaderBuffer) (offset : UInt64) : Bool :=
  b.start ≤ offset && offset < b.stop

/-- The byte at `offset`. -/
def get? (b : HeaderBuffer) (offset : UInt64) : Option UInt8 :=
  if b.contains offset then b.cells[(offset - b.start).toNat]? else none

/-- The bytes from `offset` on, none if it lies outside the buffer. -/
def sliceFrom (b : HeaderBuffer) (offset : UInt64) : Bytes :=
  if offset < b.start then [] else b.held.drop (offset - b.start).toNat

end HeaderBuffer

end Ebml
