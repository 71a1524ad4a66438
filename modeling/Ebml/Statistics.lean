import Ebml.Element
import Ebml.Text

/-!
# Statistics

How many elements of each name a document has and how many bytes they take, and how many frames each
track has. A master counts with its header, a leaf with its header and its data, so what is outside
the schema counts nowhere. Ends of masters are not counted.
-/

namespace Ebml

/-- The elements of one name. -/
structure NameCount where
  name : String
  count : Nat
  bytes : Nat
  deriving DecidableEq, Repr

/-- The frames of one track. -/
structure TrackCount where
  track : Nat
  frames : Nat
  keyFrames : Nat
  deriving DecidableEq, Repr

/-- The numbers of a document, or of as much of it as was read. -/
structure Statistics where
  containers : Nat := 0
  leaves : Nat := 0
  unknownLength : Nat := 0
  maxDepth : Nat := 0
  /-- Simple blocks that are no frames. -/
  malformedFrames : Nat := 0
  /-- Each name that occurs. Their order is that of a map and means nothing. -/
  names : List NameCount := []
  /-- Each track that occurs, in ascending order. -/
  tracks : List TrackCount := []
  deriving DecidableEq, Repr

namespace NameCount

/-- One more element in the row of its name, which is new if the name is. -/
def tally (name : String) (bytes : Nat) : List NameCount → List NameCount
  | [] => [⟨name, 1, bytes⟩]
  | row :: rest =>
    if row.name = name then { row with count := row.count + 1, bytes := row.bytes + bytes } :: rest
    else row :: tally name bytes rest

/-- Two counts together, under the name of the first. -/
def add (a b : NameCount) : NameCount :=
  ⟨a.name, a.count + b.count, a.bytes + b.bytes⟩

/-- More bytes come first; of equally many, the smaller name does. -/
def before (a b : NameCount) : Bool :=
  decide (b.bytes < a.bytes ∨ a.bytes = b.bytes ∧ a.name ≤ b.name)

/-- The columns of the table. -/
def row (name count bytes : String) : String :=
  " ".intercalate [Text.alignLeft 20 name, Text.alignRight 7 count, Text.alignRight 11 bytes]

def line (n : NameCount) : String :=
  row n.name (toString n.count) (toString n.bytes)

end NameCount

namespace TrackCount

/-- One more frame in the row of its track, with the rows in ascending order. -/
def tally (f : Frame) : List TrackCount → List TrackCount
  | [] => [⟨f.track, 1, f.keyFrame.toNat⟩]
  | row :: rest =>
    if f.track < row.track then ⟨f.track, 1, f.keyFrame.toNat⟩ :: row :: rest
    else if f.track = row.track then
      { row with frames := row.frames + 1, keyFrames := row.keyFrames + f.keyFrame.toNat } :: rest
    else row :: tally f rest

def line (t : TrackCount) : String :=
  s!"  track {Text.alignLeft 4 (toString t.track)} {Text.alignRight 8 (toString t.frames)} frames " ++
    s!"{Text.alignRight 6 (toString t.keyFrames)} key"

end TrackCount

namespace Statistics

/-- What a leaf counts as a frame, a good one or a malformed one. -/
def seeFrame (s : Statistics) (l : Leaf) : Statistics :=
  match l.frame? with
  | .ok (some frame) => { s with tracks := TrackCount.tally frame s.tracks }
  | .ok none => s
  | .error _ => { s with malformedFrames := s.malformedFrames + 1 }

/-- What an element of so many bytes counts whatever it is. -/
def seePart (s : Statistics) (e : Element) (bytes : Nat) : Statistics :=
  { s with
    maxDepth := max s.maxDepth e.depth
    names := NameCount.tally e.occurrence.decl.name bytes s.names }

/-- The numbers with one more element. -/
def see (s : Statistics) (e : Element) : Statistics :=
  match e with
  | .start _ _ size header =>
    { s with
      containers := s.containers + 1
      unknownLength := s.unknownLength + size.isUnknown.toNat }.seePart e header.length
  | .finish .. => s
  | .leaf l =>
    ({ s with leaves := s.leaves + 1 }.seeFrame l).seePart e (l.header.length + l.content.length)

/-- The numbers of a document, element by element. -/
def ofElements (elements : List Element) : Statistics :=
  elements.foldl see {}

/-- The number of masters and leaves. -/
def elements (s : Statistics) : Nat :=
  s.containers + s.leaves

/-- The rows of the table of names. -/
def rows (s : Statistics) : List NameCount :=
  s.names.mergeSort NameCount.before

/-- All rows together. -/
def total (s : Statistics) : NameCount :=
  s.rows.foldl NameCount.add ⟨"Total", 0, 0⟩

/-! ## Showing -/

/-- The line between the parts of the table. -/
def rule : String :=
  String.ofList (List.replicate 42 '─')

/-- What stands above the table. -/
def summary (s : Statistics) (file : String) (bytesRead : Nat) : List String :=
  [s!"File:      {file}  ({bytesRead} bytes read)",
   s!"Elements:  {s.elements} total ({s.containers} containers, {s.leaves} leaves), " ++
     s!"max depth {s.maxDepth}",
   s!"Unknown-length containers: {s.unknownLength}"] ++
    if s.malformedFrames = 0 then [] else [s!"Malformed SimpleBlocks: {s.malformedFrames}"]

/-- The table of names. -/
def nameTable (s : Statistics) : List String :=
  [NameCount.row "Element" "Count" "Bytes", rule] ++ s.rows.map NameCount.line ++
    [rule, s.total.line]

/-- The table of tracks, if there are any. -/
def trackTable (s : Statistics) : List String :=
  if s.tracks.isEmpty then [] else ["", "Frames per track:"] ++ s.tracks.map TrackCount.line

/-- The numbers as lines. -/
def lines (s : Statistics) (file : String) (bytesRead : Nat) : List String :=
  s.summary file bytesRead ++ [""] ++ s.nameTable ++ s.trackTable

end Statistics

end Ebml
