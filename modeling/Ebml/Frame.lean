import Ebml.Vint

/-!
# Media frames

The data of a simple block is one media frame behind a small header: the track number as a
variable-length integer, the timecode relative to the cluster in two bytes, and a byte of flags.
-/

namespace Ebml

/-- How several frames share one block. -/
inductive Lacing
  | none
  | xiph
  | ebml
  | fixedSize
  deriving DecidableEq, Repr, Inhabited

namespace Lacing

/-- Bits 1 and 2 of the flags. -/
def ofFlags (flags : UInt8) : Lacing :=
  match flags.toNat / 2 % 4 with
  | 0 => .none
  | 1 => .xiph
  | 2 => .fixedSize
  | _ => .ebml

/-- The flag bits of a lacing. -/
def toFlags : Lacing → UInt8
  | .none => 0
  | .xiph => 2
  | .fixedSize => 4
  | .ebml => 6

def text : Lacing → String
  | .none => "None"
  | .xiph => "Xiph"
  | .ebml => "Ebml"
  | .fixedSize => "FixedSize"

/-- The name of a lacing in small letters. -/
def label : Lacing → String
  | .none => "none"
  | .xiph => "xiph"
  | .ebml => "ebml"
  | .fixedSize => "fixedsize"

end Lacing

/-- One media frame. -/
structure Frame where
  track : Nat
  /-- Relative to the cluster, between `-2 ^ 15` and `2 ^ 15 - 1`. -/
  timecode : Int
  keyFrame : Bool
  invisible : Bool
  discardable : Bool
  lacing : Lacing
  data : Bytes
  deriving DecidableEq, Repr

/-- Why a payload is no frame. -/
inductive FrameError
  /-- It ends inside the header. -/
  | truncated (length : Nat)
  /-- The track number is the pattern reserved for unknown lengths. -/
  | reservedTrack
  | vint (e : VintError)
  deriving DecidableEq, Repr

def FrameError.message : FrameError → String
  | .truncated length => s!"frame header truncated: {length} bytes available"
  | .reservedTrack => "frame track number uses the reserved unknown pattern"
  | .vint e => e.message

namespace Frame

/-- Whether bit `bit` of the flags is set. -/
def flag (flags : UInt8) (bit : Nat) : Bool :=
  flags.toNat / 2 ^ bit % 2 == 1

/-- The frame that a payload holds. -/
def decode (payload : Bytes) : Except FrameError Frame :=
  match decodeSize payload with
  | .error e => .error (.vint e)
  | .ok none => .error (.truncated payload.length)
  | .ok (some (.unknown, _)) => .error .reservedTrack
  | .ok (some (.known track, width)) =>
    match payload.drop width with
    | high :: low :: flags :: data =>
      .ok {
        track := track
        timecode := beInt [high, low]
        keyFrame := flag flags 7
        invisible := flag flags 3
        discardable := flag flags 0
        lacing := Lacing.ofFlags flags
        data := data }
    | _ => .error (.truncated payload.length)

/-- The frame's header and size on one line. -/
def text (f : Frame) : String :=
  s!"track={f.track} tc={f.timecode} key={f.keyFrame} lacing={f.lacing.text} " ++
    s!"<{f.data.length} bytes>"

end Frame

end Ebml
