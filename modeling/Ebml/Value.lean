import Ebml.Calendar
import Ebml.Decimal.Layout
import Ebml.Frame
import Ebml.Schema.Matroska
import Ebml.Text

/-!
# Values

The data of an element that holds no other elements, read as its declared type. Integers and dates
take up to 8 bytes, floating-point numbers 4 or 8, text may be filled up with zero bytes at its end,
and the data of a simple block is a media frame.
-/

namespace Ebml

/-- Widest integer, in bytes. -/
def maxIntegerWidth : Nat := 8

/-- What to do with an unsigned integer that would be negative as a signed one of 8 bytes. -/
inductive SignBitPolicy
  /-- Keep it. -/
  | lenient
  /-- Refuse it. -/
  | strict
  deriving DecidableEq, Repr, Inhabited

/-- A typed value. -/
inductive Value
  | integer (n : Int)
  | unsigned (n : Nat)
  | float (x : Binary64)
  | ascii (s : String)
  | utf8 (s : String)
  /-- Nanoseconds since the start of 2001. -/
  | date (nanoseconds : Int)
  | binary (bytes : Bytes)
  | frame (f : Frame)
  deriving DecidableEq, Repr

/-- Why an element has no value. -/
inductive ValueError
  | notALeaf (name : String)
  | integerTooWide (name : String) (length : Nat)
  | invalidFloatWidth (name : String) (length : Nat)
  | invalidUtf8 (name : String)
  | unsignedOverflow (name : String) (value : Nat)
  | frame (e : FrameError)
  deriving DecidableEq, Repr

def ValueError.message : ValueError → String
  | .notALeaf name => s!"{name} is a master element and has no value"
  | .integerTooWide name length => s!"{name}: integer content is {length} bytes, maximum is 8"
  | .invalidFloatWidth name length =>
    s!"{name}: float content is {length} bytes, expected 4 or 8"
  | .invalidUtf8 name => s!"invalid UTF-8 in {name}"
  | .unsignedOverflow name value =>
    s!"{name}: unsigned value {hexWord value} has its sign bit set"
  | .frame e => e.message

namespace Value

/-! ## Reading -/

/-- A signed integer of up to 8 bytes. -/
def readInteger (name : String) (content : Bytes) : Except ValueError Int :=
  if maxIntegerWidth < content.length then .error (.integerTooWide name content.length)
  else .ok (beInt content)

/-- An unsigned integer of up to 8 bytes. -/
def readUnsigned (name : String) (content : Bytes) (policy : SignBitPolicy) :
    Except ValueError Nat :=
  if maxIntegerWidth < content.length then .error (.integerTooWide name content.length)
  else if ¬ FitsSigned maxIntegerWidth (beNat content) ∧ policy = .strict then
    .error (.unsignedOverflow name (beNat content))
  else .ok (beNat content)

/-- A floating-point number of 4 or 8 bytes. -/
def readFloat (name : String) (content : Bytes) : Except ValueError Binary64 :=
  if content.length = 4 then .ok (Binary64.ofSingle (beNat content))
  else if content.length = 8 then .ok ⟨beNat content⟩
  else .error (.invalidFloatWidth name content.length)

/-- ASCII text. A byte that is not ASCII becomes the replacement character. -/
def readAscii (content : Bytes) : String :=
  String.ofList <| (trimZeros content).map fun b =>
    if b < 0x80 then Char.ofNat b.toNat else '\uFFFD'

/-- UTF-8 text. -/
def readUtf8 (name : String) (content : Bytes) : Except ValueError String :=
  match String.fromUTF8? (trimZeros content).toByteArray with
  | some s => .ok s
  | none => .error (.invalidUtf8 name)

/-- The value of an element with the given declaration and data. -/
def decode (decl : ElementDecl) (content : Bytes) (policy : SignBitPolicy) :
    Except ValueError Value :=
  match decl.type with
  | .master => .error (.notALeaf decl.name)
  | .integer => (readInteger decl.name content).map integer
  | .unsigned => (readUnsigned decl.name content policy).map unsigned
  | .float => (readFloat decl.name content).map float
  | .ascii => .ok (ascii (readAscii content))
  | .utf8 => (readUtf8 decl.name content).map utf8
  | .date => (readInteger decl.name content).map date
  | .binary =>
    if decl.id = Matroska.simpleBlockId then
      ((Frame.decode content).mapError ValueError.frame).map frame
    else .ok (binary content)

/-! ## Showing -/

/-- The value as an unsigned integer, if it is a non-negative integer. -/
def toNat? : Value → Option Nat
  | unsigned n => some n
  | integer n => if 0 ≤ n then some n.toNat else none
  | _ => none

/-- The value as text, if it is text. -/
def toText? : Value → Option String
  | ascii s => some s
  | utf8 s => some s
  | _ => none

/-- The value on one line. -/
def text : Value → String
  | integer n => toString n
  | unsigned n => toString n
  | float x => x.text
  | ascii s => Text.quoted s
  | utf8 s => Text.quoted s
  | date nanoseconds => Calendar.timestamp nanoseconds
  | binary bytes => s!"<{bytes.length} bytes>"
  | frame f => f.text

end Value

end Ebml
