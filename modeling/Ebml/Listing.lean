import Ebml.Reader.Feed
import Ebml.Text

/-!
# Listings

Two ways to write a document down. A listing has an entry for each element with the bytes it stands
for, so the document can be put together again from it. An outline has a line for each element,
indented by its depth, with values shown.
-/

namespace Ebml

/-- An element of a listing. -/
inductive Entry
  | start (name : String) (index : Nat) (size : DataSize) (header : Bytes) (depth : Nat)
  | data (name : String) (index : Nat) (header content : Bytes) (depth : Nat)
  | finish (name : String) (index depth : Nat)
  deriving DecidableEq, Repr

namespace Entry

/-- The entry of an element. -/
def ofElement (e : Element) : Entry :=
  let name := e.occurrence.decl.name
  let index := e.occurrence.index
  match e with
  | .start _ _ size header => start name index size header e.depth
  | .leaf l => data name index l.header l.content e.depth
  | .finish .. => finish name index e.depth

/-- The number of masters around the element. -/
def depth : Entry → Nat
  | start _ _ _ _ depth => depth
  | data _ _ _ _ depth => depth
  | finish _ _ depth => depth

/-- The header of the element, if the entry has it. -/
def header? : Entry → Option Bytes
  | start _ _ _ header _ => some header
  | data _ _ header _ _ => some header
  | finish .. => none

/-- The bytes that the entry stands for. -/
def raw : Entry → Bytes
  | start _ _ _ header _ => header
  | data _ _ header content _ => header ++ content
  | finish .. => []

/-- The entry on one line. -/
def text : Entry → String
  | start name index size _ _ => s!"start {name}#{index} size={size.text}"
  | data name index _ content _ => s!"data {name}#{index} {hexBytes content}"
  | finish name index _ => s!"end {name}#{index}"

end Entry

namespace Listing

/-- The listing of a document that arrives in the given chunks. -/
def ofChunks (config : ReaderConfig) (chunks : List Bytes) : Except ScanError (List Entry) :=
  let taken := (Reader.ofSource config {}).feedAll chunks
  match taken.outcome with
  | .error e => .error e
  | .ok () => .ok (taken.elements.map Entry.ofElement)

/-- The listing of a document that is there at once. -/
def ofBytes (config : ReaderConfig) (bytes : Bytes) : Except ScanError (List Entry) :=
  ofChunks config (cut [bytes.length] bytes)

/-- The document of a listing. -/
def reconstruct (entries : List Entry) : Bytes :=
  entries.flatMap Entry.raw

end Listing

namespace Outline

/-- The line of an element. -/
def line (e : Element) : String :=
  let name := e.occurrence.decl.name
  let index := e.occurrence.index
  Text.blanks (2 * e.depth) ++
    match e with
    | .start _ _ size _ => s!"+ {name} #{index} size={size.text}"
    | .finish .. => s!"- {name} #{index}"
    | .leaf l =>
      match l.value with
      | .ok value => s!"{name} = {value.text}"
      | .error e => s!"{name} ! {e.message}"

/-- The outline of a document. -/
def ofBytes (bytes : Bytes) : Except ScanError String :=
  let drained := (Reader.ofSource {} (PushSource.ofBytes bytes)).drain
  match drained.stop.error? with
  | some e => .error e
  | none => .ok ("\n".intercalate (drained.elements.map line))

end Outline

end Ebml
