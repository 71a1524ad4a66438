/-!
# Paths

A path names a place by the names on the way to it, with slashes between them. An empty segment and
a dot stay where they are, so that one place has many paths, and two dots lead back.
-/

namespace Ebml.Path

/-- The segments of a path in characters. There is always one, if only an empty one. -/
def split : List Char → List (List Char)
  | [] => [[]]
  | c :: rest =>
    if c = '/' then [] :: split rest
    else
      match split rest with
      | [] => [[c]]
      | segment :: segments => (c :: segment) :: segments

/-- What stands before, between and after the slashes of a path. -/
def segments (path : String) : List String :=
  (split path.toList).map String.ofList

/-- Whether a path begins at the root, and not where one happens to be. -/
def isAbsolute (path : String) : Bool :=
  path.toList.head? == some '/'

/-- Whether a segment leads nowhere else. -/
def stays (segment : String) : Bool :=
  segment == "" || segment == "."

/-- Whether a segment leads back to where the one before it came from. -/
def goesBack (segment : String) : Bool :=
  segment == ".."

/-- Whether a path is a name with nothing before it and nothing after it that leads elsewhere. -/
def isName (name path : String) : Bool :=
  match segments path with
  | [] => false
  | first :: rest => first == name && rest.all stays

end Ebml.Path
