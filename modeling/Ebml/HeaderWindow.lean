import Ebml.Vint

/-!
# The header window

The bytes of the header being read, with the offset in the stream at which they start. A header that
arrives in pieces is kept here, so its fields can be decoded again once more of it is there. Bytes
are addressed by their offset in the stream.
-/

namespace Ebml

/-- The bytes of a header from offset `start` on. -/
structure HeaderWindow where
  start : Nat := 0
  bytes : Bytes := []
  deriving DecidableEq, Repr, Inhabited

namespace HeaderWindow

/-- The empty window at an offset. -/
def openedAt (offset : Nat) : HeaderWindow :=
  ⟨offset, []⟩

/-- The offset after the last byte held. -/
def stop (w : HeaderWindow) : Nat :=
  w.start + w.bytes.length

def isEmpty (w : HeaderWindow) : Bool :=
  w.bytes.isEmpty

/-- One more byte, unless the window holds the longest header already. -/
def push? (w : HeaderWindow) (b : UInt8) : Option HeaderWindow :=
  if w.bytes.length < maxHeaderLength then some ⟨w.start, w.bytes ++ [b]⟩ else none

/-- Several more bytes, unless they are too many. -/
def append? (w : HeaderWindow) (bytes : Bytes) : Option HeaderWindow :=
  if w.bytes.length + bytes.length ≤ maxHeaderLength then some ⟨w.start, w.bytes ++ bytes⟩
  else none

/-- Whether the byte at `offset` is held. -/
def contains (w : HeaderWindow) (offset : Nat) : Bool :=
  w.start ≤ offset && offset < w.stop

/-- The byte at `offset`. -/
def get? (w : HeaderWindow) (offset : Nat) : Option UInt8 :=
  if w.contains offset then w.bytes[offset - w.start]? else none

/-- The bytes from `offset` on, none if it lies before the window. -/
def sliceFrom (w : HeaderWindow) (offset : Nat) : Bytes :=
  if offset < w.start then [] else w.bytes.drop (offset - w.start)

end HeaderWindow

end Ebml
