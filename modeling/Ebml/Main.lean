import Ebml.Command.Arguments

/-!
# The command line

Reads the input named by the arguments, or standard input for a hyphen, and writes what the command
answers. The exit code is one after a failure and two after arguments that say nothing.
-/

namespace Ebml.Main

/-- What to write after wrong arguments. -/
def usage : String :=
  "usage: inspect|validate|frames|stats [options] <file, or - for standard input>"

/-- A failure of the operating system in its own words. -/
def describe (e : IO.Error) : IoError :=
  match e with
  | .noFileOrDirectory _ code details => .ofSystem .notFound details code.toNat
  | .permissionDenied _ code details => .ofSystem .other details code.toNat
  | .inappropriateType _ code details => .ofSystem .other details code.toNat
  | .invalidArgument _ code details => .ofSystem .other details code.toNat
  | e => ⟨.other, toString e⟩

/-- Everything that a handle delivers, and the failure that ends it, if one does. -/
partial def readAll (input : IO.FS.Stream) (answers : List StreamRead) : IO (List StreamRead) := do
  match ← (input.read 65536).toBaseIO with
  | .error e => return (.failure (describe e) :: answers).reverse
  | .ok bytes =>
    if bytes.isEmpty then return answers.reverse
    readAll input (.bytes bytes.toList :: answers)

/-- The stream of an input. -/
def openInput (i : InputOptions) : IO (Except IoError Ebml.Stream) := do
  if i.isStandardInput then
    return .ok ⟨← readAll (← IO.getStdin) [], 0⟩
  match ← (IO.FS.Handle.mk i.file .read).toBaseIO with
  | .error e => return .error (describe e)
  | .ok handle => return .ok ⟨← readAll (.ofHandle handle) [], 0⟩

end Ebml.Main

def main (args : List String) : IO UInt32 := do
  match Ebml.Command.ofArguments args with
  | .error e =>
    IO.eprintln s!"error: {e.message}\n\n{Ebml.Main.usage}"
    return 2
  | .ok command =>
    let outcome := command.run (← Ebml.Main.openInput command.input)
    IO.print outcome.outputText
    if let some line := outcome.errorLine? then IO.eprintln line
    return outcome.exitCode.toUInt32
