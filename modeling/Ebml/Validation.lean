import Ebml.Element

/-!
# Validation

What a check of a document finds: how many elements there are, how many leaves were cut off by the
end of the document, and which of the others have no value. A leaf that was cut off is not read.
-/

namespace Ebml

/-- The findings of a check, or of as much of it as was done. -/
structure Validation where
  elements : Nat := 0
  containers : Nat := 0
  leaves : Nat := 0
  truncated : Nat := 0
  /-- The leaves without a value, in document order. -/
  faults : List (Occurrence × ValueError) := []
  deriving DecidableEq, Repr

namespace Validation

/-- The findings with one more leaf. One that was cut off is not read. -/
def seeLeaf (v : Validation) (l : Leaf) : Validation :=
  let seen := { v with elements := v.elements + 1, leaves := v.leaves + 1 }
  if l.isTruncated then { seen with truncated := v.truncated + 1 }
  else
    match l.value with
    | .ok _ => seen
    | .error e => { seen with faults := v.faults ++ [(l.element, e)] }

/-- The findings with one more element. -/
def see (v : Validation) : Element → Validation
  | .start .. => { v with elements := v.elements + 1, containers := v.containers + 1 }
  | .finish .. => v
  | .leaf l => v.seeLeaf l

/-- The findings about a document, element by element. -/
def ofElements (elements : List Element) : Validation :=
  elements.foldl see {}

/-- Whether nothing was found. -/
def isValid (v : Validation) : Bool :=
  v.truncated == 0 && v.faults.isEmpty

/-- Most faults that are listed one by one. -/
def maxListed : Nat := 10

/-- The line of a fault. -/
def faultLine : Occurrence × ValueError → String
  | (element, e) => s!"    {element.decl.text} #{element.index}: {e.message}"

/-- The lines about values. -/
def valueLines (v : Validation) : List String :=
  if v.faults.isEmpty then [s!"✓ Values: all {v.leaves} leaf values decode"]
  else
    s!"✗ Values: {v.faults.length} of {v.leaves} leaf values fail to decode" ::
      (v.faults.take maxListed).map faultLine

/-- The findings as lines. -/
def lines (v : Validation) (bytesRead : Nat) : List String :=
  [s!"✓ Structure: {v.elements} elements ({v.containers} containers)"] ++
    (if v.truncated = 0 then []
     else [s!"✗ Truncated: {v.truncated} leaf element(s) cut off by end of input"]) ++
    v.valueLines ++ [s!"✓ Length: {bytesRead} bytes read"]

end Validation

end Ebml
