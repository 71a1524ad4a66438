import Ebml.Path
import Ebml.Source.Stream

/-!
# File trees

The names under which a system keeps its files, and what opening a path finds among them. A path is
followed one segment at a time, so that the first segment that leads nowhere decides why the path
cannot be opened.
-/

namespace Ebml

/-- What a name in a file tree stands for. -/
inductive FileNode
  /-- A file, with what opening it gives. -/
  | file (opened : Except IoError Stream)
  | directory (entries : List (String × FileNode))

/-- A tree of files, seen from a place in it. -/
structure FileTree where
  root : FileNode
  /-- The names from the root down to where relative paths begin. -/
  working : List String := []

namespace FileNode

/-- Open what was found. A directory opens like a file, but the first read of it fails. -/
def openedStream : FileNode → Except IoError Stream
  | .file opened => opened
  | .directory _ => .ok ⟨[.failure .isADirectory], 0⟩

/-- The most bytes that a name can have. -/
def longestName : Nat := 255

/-- The node that a name stands for among the entries of a directory. -/
def entry (entries : List (String × FileNode)) (name : String) : Except IoError FileNode :=
  if longestName < name.utf8ByteSize then .error .nameTooLong
  else
    match entries.lookup name with
    | none => .error .notFound
    | some node => .ok node

/-- Follow segments from a node whose parents are `trail`, the nearest one first. Every step, also
one that stays, starts from a directory. The parent of the root is the root. -/
def follow (trail : List FileNode) (here : FileNode) : List String → Except IoError FileNode
  | [] => .ok here
  | segment :: rest =>
    match here with
    | .file _ => .error .notADirectory
    | .directory entries =>
      if Path.stays segment then follow trail here rest
      else if Path.goesBack segment then
        match trail with
        | [] => follow [] here rest
        | parent :: trail => follow trail parent rest
      else
        match entry entries segment with
        | .error e => .error e
        | .ok node => follow (here :: trail) node rest

end FileNode

namespace FileTree

/-- The number of bytes of the longest path. -/
def longestPath : Nat := 4095

/-- What a path leads to. An empty path leads nowhere. -/
def find (t : FileTree) (path : String) : Except IoError FileNode :=
  if path.isEmpty then .error .notFound
  else if longestPath < path.utf8ByteSize then .error .nameTooLong
  else
    let start := if Path.isAbsolute path then [] else t.working
    t.root.follow [] (start ++ Path.segments path)

/-- The stream of the file that a path leads to. -/
def openPath (t : FileTree) (path : String) : Except IoError Stream :=
  match t.find path with
  | .error e => .error e
  | .ok node => node.openedStream

end FileTree

end Ebml
