import Ebml.Header
import Ebml.Schema

/-!
# Events

What a scan of a document reports, in document order: an element of the schema starts, a piece of the
data of an element without children, an element ends. Elements outside the schema cause no event.
-/

namespace Ebml

/-- An element of a document: its declaration and its number. Elements are numbered from zero in the
order of their headers, those outside the schema included. -/
structure Occurrence where
  decl : ElementDecl
  index : Nat
  deriving DecidableEq, Repr

/-- Name, id and number, as in `Cluster(0x1F43B675)#4`. -/
def Occurrence.text (o : Occurrence) : String :=
  o.decl.text ++ "#" ++ toString o.index

/-- An event of a scan. A path lists the open masters around an element, outermost first. -/
inductive Event
  | start (element : Occurrence) (size : DataSize) (header : Bytes) (path : List Occurrence)
  | content (element : Occurrence) (chunk : Bytes)
  | finish (element : Occurrence) (path : List Occurrence)
  deriving DecidableEq, Repr

/-- The element that an event is about. -/
def Event.element : Event → Occurrence
  | start element .. => element
  | content element _ => element
  | finish element _ => element

/-- Why a scan cannot go on. Offsets are those of the element's first byte. -/
inductive ScanError
  /-- A header field cannot be decoded. -/
  | header (offset : Nat) (e : VintError)
  /-- An element without children does not say how long it is. -/
  | unknownLengthLeaf (id : Nat) (name : String) (offset : Nat)
  /-- An element outside the schema does not say how long it is, so it cannot be skipped. -/
  | unknownLengthUnresolved (id offset : Nat)
  /-- The scan is in a state that no input leads to. -/
  | invalidState (detail : String) (offset : Nat)
  | io (e : IoError)
  deriving DecidableEq, Repr

def ScanError.message : ScanError → String
  | .header offset e => s!"malformed element header at offset {offset}: {e.message}"
  | .unknownLengthLeaf id name offset =>
    s!"{name} ({hexId id}) at offset {offset} is not a master but has unknown length"
  | .unknownLengthUnresolved id offset =>
    s!"unknown element {hexId id} at offset {offset} has unknown length and cannot be skipped"
  | .invalidState detail offset => s!"tokenizer invariant violated at offset {offset}: {detail}"
  | .io e => e.message

/-- The message, and after it once more that of the header field that caused it. -/
def ScanError.messageWithCause (e : ScanError) : String :=
  match e with
  | .header _ cause => e.message ++ ": " ++ cause.message
  | _ => e.message

end Ebml
