import Ebml.Element
import Ebml.Text.Json

/-!
# Inspection

A document shown element by element, as an indented tree or as one JSON object a line. A value that
cannot be read is shown as what is wrong with it.
-/

namespace Ebml

/-- What to show of a document. -/
structure InspectionOptions where
  json : Bool := false
  /-- Whether to read the values of leaves. -/
  values : Bool := true
  /-- Deepest level shown, all levels if there is none. -/
  maxDepth : Option Nat := none
  deriving DecidableEq, Repr

namespace Inspection

/-! ## As a tree -/

/-- What stands after the name of a leaf. -/
def leafText (values : Bool) (l : Leaf) : String :=
  if values then
    match l.value with
    | .ok value => s!"= {value.text}"
    | .error e => s!"= !error: {e.message}"
  else s!"size={l.declaredSize}"

/-- The line of an element in the tree. The end of a master shows by the indentation. -/
def treeLine? (values : Bool) (e : Element) : Option String :=
  let decl := e.occurrence.decl
  let line (rest : String) : String :=
    Text.blanks (2 * e.depth) ++ s!"{decl.name} ({hexId decl.id}) {rest}"
  match e with
  | .start _ _ size _ => some (line s!"size={size.text}")
  | .finish .. => none
  | .leaf l => some (line (leafText values l))

/-! ## As JSON -/

/-- Longest binary value that is shown byte by byte. -/
def maxShownBytes : Nat := 32

/-- Binary data: its length and, if it is short, its bytes. -/
def binaryJson (bytes : Bytes) : Text.Json :=
  let length := ("bytes", .integer bytes.length)
  if maxShownBytes < bytes.length then .object [length]
  else .object [length, ("hex", .text (hexBytes bytes))]

def frameJson (f : Frame) : Text.Json :=
  .object [
    ("bytes", .integer f.data.length),
    ("discardable", .bool f.discardable),
    ("invisible", .bool f.invisible),
    ("key_frame", .bool f.keyFrame),
    ("lacing", .text f.lacing.label),
    ("timecode", .integer f.timecode),
    ("track", .integer f.track)]

def valueJson : Value → Text.Json
  | .integer n => .integer n
  | .unsigned n => .integer n
  | .float x => .float x
  | .ascii s => .text s
  | .utf8 s => .text s
  | .date nanoseconds => .text (Calendar.timestamp nanoseconds)
  | .binary bytes => binaryJson bytes
  | .frame f => frameJson f

/-- The members that only one kind of element has. -/
def ownMembers (values : Bool) : Element → List (String × Text.Json)
  | .start _ _ size _ => size.known?.toList.map fun (length : Nat) => ("size", .integer length)
  | .finish .. => []
  | .leaf l =>
    ("size", .integer l.declaredSize) ::
      if values then
        match l.value with
        | .ok value => [("value", valueJson value)]
        | .error e => [("error", .text e.message)]
      else []

/-- Which part of an element it is. -/
def eventName : Element → String
  | .start .. => "start"
  | .finish .. => "end"
  | .leaf _ => "data"

/-- An element as a JSON object. -/
def record (values : Bool) (e : Element) : Text.Json :=
  let element := e.occurrence
  .object <| [
    ("event", .text (eventName e)),
    ("name", .text element.decl.name),
    ("id", .text (hexId element.decl.id)),
    ("kind", .text element.decl.type.label),
    ("element_count", .integer element.index),
    ("depth", .integer e.depth)] ++ ownMembers values e

/-! ## Lines -/

/-- The line of an element, if it is shown. -/
def line? (o : InspectionOptions) (e : Element) : Option String :=
  if o.maxDepth.any (· < e.depth) then none
  else if o.json then some (record o.values e).render
  else treeLine? o.values e

/-- The lines of a document. -/
def lines (o : InspectionOptions) (elements : List Element) : List String :=
  elements.filterMap (line? o)

end Inspection

end Ebml
