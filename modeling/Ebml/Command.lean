import Ebml.FileTree
import Ebml.FrameTable
import Ebml.Inspection
import Ebml.Reader.Apply
import Ebml.Statistics
import Ebml.Validation

/-!
# Commands

The commands on documents: show the elements, check the values, list the frames, count. A command
reads its input through a buffered stream to the end and answers with lines of output, among them
those written before a failure, and with the failure, if there was one.
-/

namespace Ebml

/-- Where a document comes from and how it is read. -/
structure InputOptions where
  /-- The name of the input, as it appears in output and messages. -/
  file : String
  /-- Bytes asked for by one read of the input. -/
  chunkSize : Nat := 65536
  /-- Whether unsigned integers with their sign bit set are refused. -/
  strict : Bool := false
  deriving DecidableEq, Repr

/-- What to do with a document. -/
inductive Task
  | inspect (o : InspectionOptions)
  | validate
  | frames (o : FrameTableOptions)
  | stats
  deriving DecidableEq, Repr

/-- A task and its input. -/
structure Command where
  input : InputOptions
  task : Task
  deriving DecidableEq, Repr

/-- Why a command failed. -/
inductive Failure
  | cannotOpen (file : String) (e : IoError)
  /-- It could not be found out whether the input goes on. -/
  | unreadable (file : String) (e : ScanError)
  | malformed (file : String) (e : ScanError)
  /-- A check stopped at input that cannot be scanned. -/
  | invalid (file : String) (e : ScanError)
  /-- A check came to the end and found faults. -/
  | failedValidation (file : String)
  /-- Data that a table needs cannot be read. -/
  | badData (e : ValueError)
  /-- The buffer for a read would be larger than any can be. The program ends there. -/
  | bufferTooLarge
  deriving DecidableEq, Repr

def Failure.message : Failure → String
  | .cannotOpen file e => s!"cannot open {file}: {e.message}"
  | .unreadable file e => s!"failed to read {file}: {e.messageWithCause}"
  | .malformed file e => s!"failed to parse {file}: {e.messageWithCause}"
  | .invalid file e => s!"{file} is invalid: {e.messageWithCause}"
  | .failedValidation file => s!"{file} failed validation"
  | .badData e => e.message
  | .bufferTooLarge => "capacity overflow"

/-- Whether a command lives to report the failure. -/
def Failure.isReported : Failure → Bool
  | .bufferTooLarge => false
  | _ => true

/-- What a command leaves behind. -/
structure Outcome where
  /-- The lines of its output. -/
  output : List String
  failure : Option Failure := none
  deriving DecidableEq, Repr

namespace Outcome

/-- The output as one text. -/
def outputText (o : Outcome) : String :=
  String.join (o.output.map (· ++ "\n"))

/-- The line that reports the failure. -/
def errorLine? (o : Outcome) : Option String :=
  (o.failure.filter Failure.isReported).map fun f => s!"error: {f.message}"

/-- The exit code: one after a failure that is reported, 101 after one that is not. -/
def exitCode (o : Outcome) : Nat :=
  match o.failure with
  | none => 0
  | some f => if f.isReported then 1 else 101

/-- Only what did not fail has the exit code 0. -/
theorem exitCode_eq_zero_iff (o : Outcome) : o.exitCode = 0 ↔ o.failure = none := by
  unfold exitCode
  split
  · simp [*]
  · split <;> simp [*]

end Outcome

namespace InputOptions

/-- Whether the input is the standard input, which a hyphen stands for. -/
def isStandardInput (i : InputOptions) : Bool :=
  Path.isName "-" i.file

/-- The stream of the input: the standard input or a file of a tree. -/
def openIn (i : InputOptions) (tree : FileTree) (standardInput : Stream) : Except IoError Stream :=
  if i.isStandardInput then .ok standardInput else tree.openPath i.file

/-- Apply the input's policy to a configuration. -/
def configure (i : InputOptions) (c : ReaderConfig) : ReaderConfig :=
  { c with policy := if i.strict then .strict else .lenient }

/-- A reader at the start of the input. -/
def reader (i : InputOptions) (c : ReaderConfig) (stream : Stream) : Reader StreamSource :=
  .ofSource (i.configure c) (.ofStream stream i.chunkSize)

/-- All elements of the input. -/
def drain (i : InputOptions) (stream : Stream) : Reader.Drained StreamSource :=
  (i.reader {} stream).drain

/-- The failure of a drain that stopped before the end of the input. -/
def drainFailure? (i : InputOptions) : Reader.DrainEnd → Option Failure
  | .ended => none
  | .starved => none
  | .unreadable e => some (.unreadable i.file e)
  | .malformed e => some (.malformed i.file e)

end InputOptions

namespace Command

/-- Show the elements up to the end of the input or the first failure. -/
def inspect (i : InputOptions) (o : InspectionOptions) (stream : Stream) : Outcome :=
  let drained := i.drain stream
  ⟨Inspection.lines o drained.elements, i.drainFailure? drained.stop⟩

/-- Check the whole input. -/
def validate (i : InputOptions) (stream : Stream) : Outcome :=
  let drained := i.drain stream
  match drained.stop.error? with
  | some e => ⟨[s!"✗ Error: {e.message}"], some (.invalid i.file e)⟩
  | none =>
    let found := Validation.ofElements drained.elements
    ⟨found.lines drained.reader.bytesRead,
      if found.isValid then none else some (.failedValidation i.file)⟩

/-- The reader that a table of frames is made from. It hands out only what the table needs. -/
def frameReader (i : InputOptions) (stream : Stream) : Reader StreamSource :=
  i.reader { capturePaths := false, filter := some FrameTable.wantedIds } stream

/-- List the frames up to the end of the input, the limit or the first failure. -/
def frames (i : InputOptions) (o : FrameTableOptions) (stream : Stream) : Outcome :=
  let applied := (frameReader i stream).apply (FrameTable.visitor o.limit) (FrameTable.start o)
  let lines := FrameTable.lines applied.visitor
  match applied.outcome with
  | .ok () => ⟨lines ++ FrameTable.summary applied.visitor, none⟩
  | .error (.scan e) => ⟨lines, some (.malformed i.file e)⟩
  | .error (.visitor e) => ⟨lines, some (.badData e)⟩

/-- Count the elements of the whole input. -/
def stats (i : InputOptions) (stream : Stream) : Outcome :=
  let drained := i.drain stream
  match i.drainFailure? drained.stop with
  | some failure => ⟨[], some failure⟩
  | none =>
    ⟨(Statistics.ofElements drained.elements).lines i.file drained.reader.bytesRead, none⟩

/-- Whether a task reads its input. A table that is done before the first frame does not. -/
def readsInput : Task → Bool
  | .frames o => !(FrameTable.visitor o.limit).isDone (FrameTable.start o)
  | _ => true

/-- What is written before the first read. -/
def preamble : Task → List String
  | .frames _ => [FrameTable.heading]
  | _ => []

/-- Do what a task says on a stream. -/
def runTask (i : InputOptions) (stream : Stream) : Task → Outcome
  | .inspect o => inspect i o stream
  | .validate => validate i stream
  | .frames o => frames i o stream
  | .stats => stats i stream

/-- Do what a command says, on a stream or on an input that could not be opened. -/
def run (c : Command) (input : Except IoError Stream) : Outcome :=
  match input with
  | .error e => ⟨[], some (.cannotOpen c.input.file e)⟩
  | .ok stream =>
    if readsInput c.task && (StreamSource.ofStream stream c.input.chunkSize).breaksOff then
      ⟨preamble c.task, some .bufferTooLarge⟩
    else runTask c.input stream c.task

/-- Do what a command says on a system with these files and this standard input. -/
def runIn (c : Command) (tree : FileTree) (standardInput : Stream) : Outcome :=
  c.run (c.input.openIn tree standardInput)

/-- With a buffer that can be, a command does what its task says. -/
theorem run_of_le (c : Command) (stream : Stream)
    (h : c.input.chunkSize ≤ StreamSource.largestBuffer) :
    c.run (.ok stream) = runTask c.input stream c.task := by
  rw [run, StreamSource.breaksOff_ofStream, decide_eq_false (Nat.not_lt.mpr h), Bool.and_false]
  rfl

/-- With a buffer that cannot be, a command that reads its input breaks off at the first read. -/
theorem run_of_lt (c : Command) (stream : Stream) (hreads : readsInput c.task = true)
    (h : StreamSource.largestBuffer < c.input.chunkSize) :
    c.run (.ok stream) = ⟨preamble c.task, some .bufferTooLarge⟩ := by
  rw [run, StreamSource.breaksOff_ofStream, decide_eq_true h, hreads]
  rfl

/-- A command that does not read its input does what its task says. -/
theorem run_of_not_readsInput (c : Command) (stream : Stream) (h : readsInput c.task = false) :
    c.run (.ok stream) = runTask c.input stream c.task := by
  rw [run, h]
  rfl

/-- A command on the standard input answers the same whatever files there are. -/
theorem runIn_of_isStandardInput (c : Command) (tree : FileTree) (standardInput : Stream)
    (h : c.input.isStandardInput = true) :
    c.runIn tree standardInput = c.run (.ok standardInput) := by
  simp [runIn, InputOptions.openIn, h]

/-- A command on the standard input does what its task says, with a buffer that can be. -/
theorem runIn_eq_runTask (c : Command) (tree : FileTree) (standardInput : Stream)
    (hinput : c.input.isStandardInput = true)
    (h : c.input.chunkSize ≤ StreamSource.largestBuffer) :
    c.runIn tree standardInput = runTask c.input standardInput c.task :=
  (c.runIn_of_isStandardInput tree standardInput hinput).trans (c.run_of_le standardInput h)

end Command

end Ebml
