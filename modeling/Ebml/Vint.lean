import Ebml.Bytes

/-!
# Variable-length integers

An element starts with two fields of variable width, its id and its data size. The leading zero
bits of a field's first byte announce its width: a field of `w` bytes has `w - 1` leading zero
bits, then a marker bit, then `7 * w` data bits. An id keeps its marker bit in its value, a size
drops it. The size whose data bits are all one is reserved and means that the length is unknown.

Decoders look at the front of a byte string and answer `none` when it ends inside the field. They
have no state, so a caller that got `none` asks again with more bytes.
-/

namespace Ebml

/-- Why a field cannot be decoded or encoded. -/
inductive VintError
  /-- The first byte of an id announces more than 4 bytes. -/
  | idTooWide (width : Nat)
  /-- The first byte of a size announces more than 8 bytes. -/
  | sizeTooWide (width : Nat)
  /-- The id's first byte does not announce as many bytes as the id has. -/
  | invalidId (id : Nat)
  /-- The size needs more data bits than the field has, or would read as the unknown length. -/
  | sizeOutOfRange (value width : Nat)
  /-- A size field has 1 to 8 bytes. -/
  | invalidWidth (width : Nat)
  deriving DecidableEq, Repr

/-- The error as text. -/
def VintError.message : VintError → String
  | .idTooWide width => s!"element id is {width} bytes wide, maximum is 4"
  | .sizeTooWide width => s!"size field is {width} bytes wide, maximum is 8"
  | .invalidId id => s!"{hexId id} is not a valid element id"
  | .sizeOutOfRange value width => s!"size {value} does not fit in a {width}-byte field"
  | .invalidWidth width => s!"invalid size field width {width}"

/-- The declared length of an element's data. -/
inductive DataSize
  | known (length : Nat)
  /-- The element ends where the structure says so. -/
  | unknown
  deriving DecidableEq, Repr, Inhabited

namespace DataSize

/-- The declared number of bytes, if there is one. -/
def known? : DataSize → Option Nat
  | known length => some length
  | unknown => none

def isUnknown : DataSize → Bool
  | known _ => false
  | unknown => true

/-- The size as text. -/
def text : DataSize → String
  | known length => toString length
  | unknown => "unknown"

end DataSize

/-- Widest id field, in bytes. -/
def maxIdWidth : Nat := 4

/-- Widest size field, in bytes. -/
def maxSizeWidth : Nat := 8

/-- Longest header: the widest id and the widest size. -/
def maxHeaderLength : Nat := maxIdWidth + maxSizeWidth

/-- The width of the field that starts with `first`: one more than the number of its leading zero
bits. A zero byte has no marker bit and gives 9, wider than any field may be. -/
def vintWidth (first : UInt8) : Nat :=
  ((List.range' 1 8).find? fun w => 2 ^ (8 - w) ≤ first.toNat).getD 9

/-- The value that all data bits of a `width`-byte field being one stands for. -/
def unknownPattern (width : Nat) : Nat :=
  2 ^ (7 * width) - 1

/-! ## Decoding -/

/-- The bytes of the field at the front of `bytes`, whose width may be at most `limit`. -/
def splitField (limit : Nat) (tooWide : Nat → VintError) (bytes : Bytes) :
    Except VintError (Option Bytes) :=
  match bytes with
  | [] => .ok none
  | first :: _ =>
    let width := vintWidth first
    if limit < width then .error (tooWide width)
    else if bytes.length < width then .ok none
    else .ok (some (bytes.take width))

/-- The id at the front of `bytes` and its width. -/
def decodeId (bytes : Bytes) : Except VintError (Option (Nat × Nat)) :=
  match splitField maxIdWidth .idTooWide bytes with
  | .error e => .error e
  | .ok none => .ok none
  | .ok (some field) => .ok (some (beNat field, field.length))

/-- The size that a complete field stands for. -/
def DataSize.ofField (field : Bytes) : DataSize :=
  let value := beNat field % 2 ^ (7 * field.length)
  if value = unknownPattern field.length then .unknown else .known value

/-- The size at the front of `bytes` and its width. -/
def decodeSize (bytes : Bytes) : Except VintError (Option (DataSize × Nat)) :=
  match splitField maxSizeWidth .sizeTooWide bytes with
  | .error e => .error e
  | .ok none => .ok none
  | .ok (some field) => .ok (some (DataSize.ofField field, field.length))

/-! ## Encoding -/

/-- The bytes of an id, which holds its own marker bit. -/
def encodeId (id : Nat) : Except VintError Bytes :=
  match beBytes (byteLength id) id with
  | [] => .error (.invalidId id)
  | first :: rest =>
    if vintWidth first = rest.length + 1 ∧ rest.length + 1 ≤ maxIdWidth then .ok (first :: rest)
    else .error (.invalidId id)

/-- The least width whose field can hold `value` as a known size. -/
def sizeWidth (value : Nat) : Except VintError Nat :=
  match (List.range' 1 8).find? fun w => value < unknownPattern w with
  | some width => .ok width
  | none => .error (.sizeOutOfRange value maxSizeWidth)

/-- A size field of exactly `width` bytes. -/
def encodeSizeAt (width value : Nat) : Except VintError Bytes :=
  if width < 1 ∨ maxSizeWidth < width then .error (.invalidWidth width)
  else if unknownPattern width ≤ value then .error (.sizeOutOfRange value width)
  else .ok (beBytes width (2 ^ (7 * width) + value))

/-- A size field of the least width that can hold `value`. -/
def encodeSize (value : Nat) : Except VintError Bytes :=
  match sizeWidth value with
  | .error e => .error e
  | .ok width => encodeSizeAt width value

/-- A field of `width` bytes that stands for the unknown length. -/
def encodeUnknown (width : Nat) : Except VintError Bytes :=
  if width < 1 ∨ maxSizeWidth < width then .error (.invalidWidth width)
  else .ok (beBytes width (2 ^ (7 * width) + unknownPattern width))

end Ebml
