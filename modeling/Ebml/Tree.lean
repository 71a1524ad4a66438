import Ebml.Header
import Ebml.Schema.Matroska

/-!
# Element trees

A document as a forest of elements, and its bytes. Masters are written with the length of their
children or, when they are live, with unknown length; every size field takes the fewest bytes that
will do.
-/

namespace Ebml

/-- An element with its children or its data. -/
inductive Tree
  | master (id : Nat) (live : Bool) (children : List Tree)
  | leaf (id : Nat) (content : Bytes)
  deriving Repr

namespace Tree

/-- An element that holds an unsigned integer in as few bytes as will do, at least one. -/
def unsigned (id value : Nat) : Tree :=
  leaf id (beBytes (max 1 (byteLength value)) value)

/-- An element that holds text. -/
def text (id : Nat) (s : String) : Tree :=
  leaf id s.toUTF8.data.toList

/-- A simple block. Its track number must fit one byte. -/
def simpleBlock? (track : Nat) (timecode : Int) (flags : UInt8) (payload : Bytes) : Option Tree :=
  if track < 127 then
    some <| leaf Matroska.simpleBlockId <|
      UInt8.ofNat (128 + track) :: (beBytesInt 2 timecode ++ flags :: payload)
  else none

mutual

/-- The bytes of an element. -/
def encode : Tree → Except VintError Bytes
  | leaf id content =>
    match (Header.mk id (.known content.length) none).encode with
    | .error e => .error e
    | .ok header => .ok (header ++ content)
  | master id true children =>
    match (Header.mk id .unknown none).encode with
    | .error e => .error e
    | .ok header =>
      match encodeForest children with
      | .error e => .error e
      | .ok content => .ok (header ++ content)
  | master id false children =>
    match encodeForest children with
    | .error e => .error e
    | .ok content =>
      match (Header.mk id (.known content.length) none).encode with
      | .error e => .error e
      | .ok header => .ok (header ++ content)

/-- The bytes of elements one after the other. -/
def encodeForest : List Tree → Except VintError Bytes
  | [] => .ok []
  | tree :: rest =>
    match encode tree with
    | .error e => .error e
    | .ok first =>
      match encodeForest rest with
      | .error e => .error e
      | .ok others => .ok (first ++ others)

end

end Tree

end Ebml
