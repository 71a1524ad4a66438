import Ebml.Tree

/-!
# A live stream

A sample document such as a live encoder writes: segment and clusters have unknown length, and each
cluster holds its timecode and some frames of one track.
-/

namespace Ebml.Tree

/-- `length` bytes that differ from frame to frame. -/
def samplePayload (seed length : Nat) : Bytes :=
  (List.range length).map fun i => UInt8.ofNat (seed * 31 + i * 7)

/-- The EBML header of a WebM document. -/
def webmHeader : Tree :=
  master 0x1A45DFA3 false [
    unsigned 0x4286 1,
    unsigned 0x42F7 1,
    unsigned 0x42F2 4,
    unsigned 0x42F3 8,
    text 0x4282 "webm",
    unsigned 0x4287 4,
    unsigned 0x4285 2]

/-- Facts about the segment. -/
def liveInfo : Tree :=
  master 0x1549A966 false [unsigned 0x2AD7B1 1000000, text 0x4D80 "mkv-tests"]

/-- The one video track. -/
def liveTracks : Tree :=
  master 0x1654AE6B false [
    master 0xAE false [
      unsigned 0xD7 1,
      unsigned 0x83 1,
      text 0x86 "V_VP8",
      master 0xE0 false [unsigned 0xB0 320, unsigned 0xBA 240]]]

/-- The `number`-th cluster. Its frames are 33 units of time apart and the first is a key frame. -/
def liveCluster (frames frameLength number : Nat) : Tree :=
  let blocks := (List.range frames).filterMap fun (i : Nat) =>
    let timecode : Int := if i * 33 < 32768 then i * 33 else 32767
    simpleBlock? 1 timecode (if i = 0 then 0x80 else 0)
      (samplePayload (number * frames + i) frameLength)
  master Matroska.clusterId true (unsigned Matroska.timecodeId (number * 1000) :: blocks)

/-- A live stream of `clusters` clusters with `frames` frames of `frameLength` bytes each. -/
def liveStream (clusters frames frameLength : Nat) : List Tree :=
  let segment :=
    liveInfo :: liveTracks :: (List.range clusters).map (liveCluster frames frameLength)
  [webmHeader, master 0x18538067 true segment]

end Ebml.Tree
