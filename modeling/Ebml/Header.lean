import Ebml.IoError
import Ebml.Vint

/-!
# Element headers

The id and the size in front of every element's data. A header that was read remembers the width of
its size field, so writing it gives the same bytes again; one that was not read takes the least
width, and one byte for the unknown length.
-/

namespace Ebml

/-- An element header. -/
structure Header where
  id : Nat
  size : DataSize
  /-- Width of the size field; the least that will do if there is none. -/
  sizeWidth : Option Nat := none
  deriving DecidableEq, Repr

namespace Header

/-- The bytes of the size field. -/
def encodeSizeField (h : Header) : Except VintError Bytes :=
  match h.size, h.sizeWidth with
  | .known n, none => encodeSize n
  | .known n, some width => encodeSizeAt width n
  | .unknown, width => encodeUnknown (width.getD 1)

/-- The bytes of a header. The id is encoded first, so of two faults the id's is reported. -/
def encode (h : Header) : Except VintError Bytes :=
  match encodeId h.id with
  | .error e => .error e
  | .ok idField =>
    match h.encodeSizeField with
    | .error e => .error e
    | .ok sizeField => .ok (idField ++ sizeField)

/-- The header at the front of `bytes` and its length, or `none` if they end inside it. -/
def decode (bytes : Bytes) : Except VintError (Option (Header × Nat)) :=
  match decodeId bytes with
  | .error e => .error e
  | .ok none => .ok none
  | .ok (some (id, idWidth)) =>
    match decodeSize (bytes.drop idWidth) with
    | .error e => .error e
    | .ok none => .ok none
    | .ok (some (size, width)) => .ok (some (⟨id, size, some width⟩, idWidth + width))

end Header

/-! ## Writing to an output -/

/-- Why a header was not written. -/
inductive WriteError
  | vint (e : VintError)
  | io (e : IoError)
  deriving DecidableEq, Repr

def WriteError.message : WriteError → String
  | .vint e => e.message
  | .io e => e.message

/-- An output that collects bytes. It takes `room` more of them, or any number. -/
structure Sink where
  written : Bytes := []
  room : Option Nat := none
  deriving DecidableEq, Repr

/-- Write all of `bytes`. An output without room for them takes what fits and fails. -/
def Sink.write (out : Sink) (bytes : Bytes) : Except IoError Unit × Sink :=
  match out.room with
  | none => (.ok (), { out with written := out.written ++ bytes })
  | some room =>
    let out' : Sink := ⟨out.written ++ bytes.take room, some (room - bytes.length)⟩
    if bytes.length ≤ room then (.ok (), out')
    else (.error ⟨.writeZero, "failed to write whole buffer"⟩, out')

/-- Write a header and give its length. Nothing is written unless both fields encode. -/
def Header.write (h : Header) (out : Sink) : Except WriteError Nat × Sink :=
  match h.encode with
  | .error e => (.error (.vint e), out)
  | .ok bytes =>
    match out.write bytes with
    | (.ok (), out') => (.ok bytes.length, out')
    | (.error e, out') => (.error (.io e), out')

/-- `out` followed by an element with the given id and content, and the number of bytes added. -/
def appendElement (id : Nat) (content out : Bytes) : Except VintError (Nat × Bytes) :=
  match (Header.mk id (.known content.length) none).encode with
  | .error e => .error e
  | .ok header => .ok (header.length + content.length, out ++ header ++ content)

end Ebml
