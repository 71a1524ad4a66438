import Ebml.Text
import Ebml.Visitor.Frames

/-!
# Frame tables

The media frames of a document as a table, one line each. Only clusters, timecodes and simple blocks
are looked at. A limit ends the visit as soon as so many frames were found.
-/

namespace Ebml

/-- Which frames to list. -/
structure FrameTableOptions where
  /-- The track listed, all if there is none. -/
  track : Option Nat := none
  /-- Most frames listed. -/
  limit : Option Nat := none
  deriving DecidableEq, Repr

namespace FrameTable

/-- The ids of the elements that the table is made from. -/
def wantedIds : List Nat :=
  [Matroska.clusterId, Matroska.timecodeId, Matroska.simpleBlockId]

/-- The visitor that notes down frames, the latest first, up to a limit. -/
def visitor (limit : Option Nat) : Visitor (FrameVisit (List FrameEvent)) ValueError :=
  { FrameVisit.visitor (fun event found => (.ok (), event :: found)) id with
    isDone := fun s => limit.any (· ≤ s.frames) }

/-- A visit that has found nothing yet. -/
def start (o : FrameTableOptions) : FrameVisit (List FrameEvent) :=
  { track := o.track, inner := [] }

/-- Letters for what is set: key frame, invisible, discardable. -/
def flagLetters (f : Frame) : String :=
  let letters := (if f.keyFrame then "K" else "") ++ (if f.invisible then "I" else "") ++
    (if f.discardable then "D" else "")
  if letters.isEmpty then "-" else letters

/-- The titles of the columns. -/
def heading : String :=
  "track  timecode  flags  lacing     bytes"

/-- The line of a frame. A question mark stands for a timecode that is not known. -/
def line (event : FrameEvent) : String :=
  let frame := event.frame
  let timecode := match event.absoluteTimecode with
    | some timecode => toString timecode
    | none => "?"
  "  ".intercalate [
    Text.alignRight 5 (toString frame.track),
    Text.alignRight 8 timecode,
    Text.alignLeft 5 (flagLetters frame),
    Text.alignLeft 9 frame.lacing.label,
    Text.alignRight 6 (toString frame.data.length)]

/-- The heading and the frames found by a visit. -/
def lines (s : FrameVisit (List FrameEvent)) : List String :=
  heading :: s.inner.reverse.map line

/-- What stands below the table. -/
def summary (s : FrameVisit (List FrameEvent)) : List String :=
  ["---", s!"{s.frames} frame" ++ if s.frames = 1 then "" else "s"]

end FrameTable

end Ebml
