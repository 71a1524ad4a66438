import Ebml.Element
import Ebml.Scanner.Run

/-!
# Collecting elements

A collector puts the events of a scan together to elements and queues those that are wanted. It asks
the scan to pause whenever one is waiting, so the queue stays short. Data is kept only for the leaf
being collected, and only events with that leaf's number add to it.
-/

namespace Ebml

/-- What a reader hands out, and how. -/
structure ReaderConfig where
  schema : Schema := Matroska.schema
  /-- Longest piece of data taken from the source at once. -/
  maxChunk : Nat := 8192
  /-- Whether elements carry the masters around them. -/
  capturePaths : Bool := true
  /-- The ids handed out, all if there is no such list. -/
  filter : Option (List Nat) := none
  policy : SignBitPolicy := .lenient

/-- The elements waiting and the leaf being collected. -/
structure Collector where
  capturePaths : Bool
  filter : Option (List Nat)
  policy : SignBitPolicy
  pending : List Element := []
  collecting : Option Leaf := none

namespace Collector

/-- A collector with nothing in it. -/
def ofConfig (c : ReaderConfig) : Collector :=
  { capturePaths := c.capturePaths, filter := c.filter, policy := c.policy }

/-- Whether elements of an id are wanted. -/
def wants (c : Collector) (id : Nat) : Bool :=
  match c.filter with
  | none => true
  | some ids => ids.contains id

/-- A path if paths are kept. -/
def capture (c : Collector) (path : List Occurrence) : Option (List Occurrence) :=
  if c.capturePaths then some path else none

/-- One more element at the end of the queue. -/
def enqueue (c : Collector) (e : Element) : Collector :=
  { c with pending := c.pending ++ [e] }

/-- Take in an event. -/
def handle (event : Event) (c : Collector) : Collector :=
  match event with
  | .start element size header path =>
    if !c.wants element.decl.id then c
    else if element.decl.isMaster then
      c.enqueue (.start element (c.capture path) size header)
    else
      let l : Leaf := ⟨element, c.capture path, size.known?.getD 0, header, [], c.policy⟩
      { c with collecting := some l }
  | .content element chunk =>
    match c.collecting with
    | some l =>
      if l.element.index = element.index then
        { c with collecting := some { l with content := l.content ++ chunk } }
      else c
    | none => c
  | .finish element path =>
    if !c.wants element.decl.id then c
    else if element.decl.isMaster then c.enqueue (.finish element (c.capture path))
    else
      match c.collecting with
      | some l =>
        if l.element.index = element.index then { c.enqueue (.leaf l) with collecting := none }
        else c
      | none => c

/-- Whether an element is waiting. -/
def hasPending (c : Collector) : Bool :=
  !c.pending.isEmpty

/-- The first element waiting. -/
def pop (c : Collector) : Option Element × Collector :=
  (c.pending.head?, { c with pending := c.pending.tail })

/-- A collector as the receiver of a scan: it pauses the scan while an element is waiting. -/
def receiver : Receiver Collector where
  poll c := (!c.hasPending, c)
  handle := handle

end Collector

end Ebml
