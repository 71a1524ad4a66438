import Ebml.Event
import Ebml.Value

/-!
# Elements

What a reader hands out: masters in two parts, their start and their end, and every other element at
once with all its data. Joined in order, the bytes of the elements give the document back, less what
is outside the schema.
-/

namespace Ebml

/-- An element without children. -/
structure Leaf where
  element : Occurrence
  /-- The masters around it, outermost first, if paths are kept. -/
  path : Option (List Occurrence)
  declaredSize : Nat
  header : Bytes
  content : Bytes
  policy : SignBitPolicy
  deriving DecidableEq, Repr

namespace Leaf

/-- Whether the document ended inside the data. -/
def isTruncated (l : Leaf) : Bool :=
  l.content.length < l.declaredSize

/-- The data as a value. -/
def value (l : Leaf) : Except ValueError Value :=
  Value.decode l.element.decl l.content l.policy

/-- The media frame of a simple block, nothing for other elements. -/
def frame? (l : Leaf) : Except FrameError (Option Frame) :=
  if l.element.decl.id = Matroska.simpleBlockId then (Frame.decode l.content).map some
  else .ok none

end Leaf

/-- A part of a document. -/
inductive Element
  | start (element : Occurrence) (path : Option (List Occurrence)) (size : DataSize)
    (header : Bytes)
  | finish (element : Occurrence) (path : Option (List Occurrence))
  | leaf (l : Leaf)
  deriving DecidableEq, Repr

namespace Element

/-- Which element it is. -/
def occurrence : Element → Occurrence
  | start element .. => element
  | finish element _ => element
  | leaf l => l.element

/-- The masters around it, outermost first, if paths are kept. -/
def path? : Element → Option (List Occurrence)
  | start _ path .. => path
  | finish _ path => path
  | leaf l => l.path

/-- The number of masters around it, zero if paths are not kept. -/
def depth (e : Element) : Nat :=
  match e.path? with
  | some path => path.length
  | none => 0

/-- The leaf that it is, if it is one. -/
def leaf? : Element → Option Leaf
  | leaf l => some l
  | _ => none

/-- Whether a master starts here. -/
def isStart : Element → Bool
  | start .. => true
  | _ => false

/-- Whether a master ends here. -/
def isFinish : Element → Bool
  | finish .. => true
  | _ => false

/-- Its bytes in the document. -/
def raw : Element → Bytes
  | start _ _ _ header => header
  | finish .. => []
  | leaf l => l.header ++ l.content

end Element

end Ebml
