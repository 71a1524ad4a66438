/-!
# Input and output failures

The failures of the world outside: what an input or an output may answer instead of bytes. They
carry the kind that callers branch on and the text that people read.
-/

namespace Ebml

/-- What kind of failure an input or output reported. -/
inductive IoErrorKind
  /-- The call was broken off before it did anything and may simply be repeated. -/
  | interrupted
  /-- Nothing is there yet. -/
  | wouldBlock
  | connectionReset
  | timedOut
  /-- The output took fewer bytes than it was given. -/
  | writeZero
  | notFound
  | notADirectory
  | isADirectory
  | nameTooLong
  | other
  deriving DecidableEq, Repr, Inhabited

/-- A failure of an input or output. -/
structure IoError where
  kind : IoErrorKind
  message : String
  deriving DecidableEq, Repr, Inhabited

namespace IoError

/-- A failure that the operating system reports: its words for it, and its number. -/
def ofSystem (kind : IoErrorKind) (words : String) (number : Nat) : IoError :=
  ⟨kind, s!"{words} (os error {number})"⟩

/-- There is nothing of that name. -/
def notFound : IoError := ofSystem .notFound "No such file or directory" 2

/-- A path goes on below something that has nothing below it. -/
def notADirectory : IoError := ofSystem .notADirectory "Not a directory" 20

/-- The bytes of a directory are not to be had. -/
def isADirectory : IoError := ofSystem .isADirectory "Is a directory" 21

/-- A name, or a whole path, is longer than any can be. -/
def nameTooLong : IoError := ofSystem .nameTooLong "File name too long" 36

end IoError

end Ebml
