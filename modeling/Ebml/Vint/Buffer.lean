import Ebml.Header

/-!
# Encoding into a buffer

A caller with a buffer of its own has fields written to the front of it. Success gives the number
of bytes written and leaves the bytes after them alone; an error leaves the whole buffer alone,
except that a header writes its id before it looks at its size. Buffers of `maxIdWidth`,
`maxSizeWidth` and `maxHeaderLength` bytes are never too short.
-/

namespace Ebml

/-- Why nothing could be written to the front of a buffer. -/
inductive BufferError
  | vint (e : VintError)
  /-- The buffer is shorter than the encoding. -/
  | tooShort
  deriving DecidableEq, Repr

/-- What became of a buffer: the number of bytes written or an error, and the buffer. -/
structure Filled where
  outcome : Except BufferError Nat
  buffer : Bytes

/-- Put an encoding at the front of `buffer`. -/
def fillFront (encoding : Except VintError Bytes) (buffer : Bytes) : Filled :=
  match encoding with
  | .error e => ⟨.error (.vint e), buffer⟩
  | .ok bytes =>
    if bytes.length ≤ buffer.length then ⟨.ok bytes.length, bytes ++ buffer.drop bytes.length⟩
    else ⟨.error .tooShort, buffer⟩

def encodeIdInto (id : Nat) (buffer : Bytes) : Filled :=
  fillFront (encodeId id) buffer

def encodeSizeInto (value : Nat) (buffer : Bytes) : Filled :=
  fillFront (encodeSize value) buffer

def encodeSizeAtInto (width value : Nat) (buffer : Bytes) : Filled :=
  fillFront (encodeSizeAt width value) buffer

def encodeUnknownInto (width : Nat) (buffer : Bytes) : Filled :=
  fillFront (encodeUnknown width) buffer

/-- Write the id to the front of `buffer`, then the size right after it. -/
def Header.encodeInto (h : Header) (buffer : Bytes) : Filled :=
  match encodeIdInto h.id buffer with
  | ⟨.error e, buffer'⟩ => ⟨.error e, buffer'⟩
  | ⟨.ok n, buffer'⟩ =>
    match fillFront h.encodeSizeField (buffer'.drop n) with
    | ⟨.error e, rest⟩ => ⟨.error e, buffer'.take n ++ rest⟩
    | ⟨.ok m, rest⟩ => ⟨.ok (n + m), buffer'.take n ++ rest⟩

end Ebml
