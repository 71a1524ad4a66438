import Ebml.Visitor

/-!
# Visiting frames

A visitor that reports the media frames of simple blocks, of one track or of all, each with the
timecode of the cluster it stands in. A cluster's timecode is that of its latest timecode element; it
is forgotten where a cluster starts or ends.
-/

namespace Ebml

/-- A frame and where it was found. -/
structure FrameEvent where
  frame : Frame
  clusterTimecode : Option Nat
  element : Occurrence
  deriving DecidableEq, Repr

/-- The cluster's timecode plus the frame's own. There is none without a cluster timecode, or if one
of the two is no signed number of 8 bytes. -/
def FrameEvent.absoluteTimecode (e : FrameEvent) : Option Int :=
  match e.clusterTimecode with
  | none => none
  | some cluster =>
    let sum := (cluster : Int) + e.frame.timecode
    if FitsSigned maxIntegerWidth cluster ∧ FitsSigned maxIntegerWidth sum then some sum else none

/-- What a visitor of frames remembers, `inner` being the state of what it reports to. -/
structure FrameVisit (α : Type) where
  /-- The track reported, all if there is none. -/
  track : Option Nat := none
  clusterTimecode : Option Nat := none
  /-- How many frames were reported. -/
  frames : Nat := 0
  inner : α

namespace FrameVisit

variable {α ε : Type}

/-- Forget the cluster's timecode if a cluster starts or ends. -/
def atBorder (element : Occurrence) (s : FrameVisit α) : FrameVisit α :=
  if element.decl.id = Matroska.clusterId then { s with clusterTimecode := none } else s

/-- See an element without children. -/
def visitLeaf (onFrame : FrameEvent → α → Except ε Unit × α) (ofError : ValueError → ε) (l : Leaf)
    (s : FrameVisit α) : Except ε Unit × FrameVisit α :=
  if l.element.decl.id = Matroska.timecodeId then
    match l.value with
    | .error e => (.error (ofError e), s)
    | .ok value => (.ok (), { s with clusterTimecode := value.toNat? })
  else
    match l.frame? with
    | .error e => (.error (ofError (.frame e)), s)
    | .ok none => (.ok (), s)
    | .ok (some frame) =>
      if s.track.any (· ≠ frame.track) then (.ok (), s)
      else
        let (result, inner) := onFrame ⟨frame, s.clusterTimecode, l.element⟩ s.inner
        (result, { s with frames := s.frames + 1, inner := inner })

/-- The visitor that calls `onFrame` for every frame of the selected track. Data that cannot be read
fails with `ofError`. -/
def visitor (onFrame : FrameEvent → α → Except ε Unit × α) (ofError : ValueError → ε) :
    Visitor (FrameVisit α) ε where
  visit e s :=
    match e with
    | .start element .. => (.ok (), s.atBorder element)
    | .finish element _ => (.ok (), s.atBorder element)
    | .leaf l => visitLeaf onFrame ofError l s
  isDone _ := false

end FrameVisit

end Ebml
