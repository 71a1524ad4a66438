import Ebml.Command

/-!
# Arguments

A command as a person writes it: the name of the task, then the name of the input and the settings
of the task, in any order and each at most once. A number follows its setting as the next argument
or after an equals sign. After two hyphens there are no more settings. How much is logged may be
said anywhere and changes nothing here, because nothing is logged.
-/

namespace Ebml

/-- What can be set on the command line. -/
inductive Setting
  | chunkSize
  | strict
  | json
  | noValues
  | maxDepth
  | track
  | limit
  deriving DecidableEq, Repr

namespace Setting

/-- How a setting is written. -/
def word : Setting → String
  | chunkSize => "--chunk-size"
  | strict => "--strict"
  | json => "--json"
  | noValues => "--no-values"
  | maxDepth => "--max-depth"
  | track => "--track"
  | limit => "--limit"

/-- Whether a number belongs to a setting; the others are switches. -/
def takesNumber : Setting → Bool
  | chunkSize => true
  | strict => false
  | json => false
  | noValues => false
  | maxDepth => true
  | track => true
  | limit => true

end Setting

/-- The tasks by name. -/
inductive TaskName
  | inspect
  | validate
  | frames
  | stats
  deriving DecidableEq, Repr

namespace TaskName

def word : TaskName → String
  | inspect => "inspect"
  | validate => "validate"
  | frames => "frames"
  | stats => "stats"

/-- The task of a name. -/
def ofWord? (s : String) : Option TaskName :=
  [inspect, validate, frames, stats].find? fun t => t.word = s

/-- The settings that a task takes. -/
def settings : TaskName → List Setting
  | inspect => [.chunkSize, .strict, .json, .noValues, .maxDepth]
  | validate => [.chunkSize, .strict]
  | frames => [.chunkSize, .strict, .track, .limit]
  | stats => [.chunkSize, .strict]

end TaskName

/-- Why arguments say nothing. -/
inductive UsageError
  | missingTask
  | unknownTask (word : String)
  | missingFile
  | unexpectedArgument (word : String)
  | unknownSetting (word : String)
  | repeatedSetting (s : Setting)
  | missingNumber (s : Setting)
  | notANumber (s : Setting) (word : String)
  | unexpectedValue (s : Setting)
  deriving DecidableEq, Repr

def UsageError.message : UsageError → String
  | .missingTask => "no command is given"
  | .unknownTask word => s!"there is no command '{word}'"
  | .missingFile => "no file is given"
  | .unexpectedArgument word => s!"unexpected argument '{word}'"
  | .unknownSetting word => s!"the command has no option '{word}'"
  | .repeatedSetting s => s!"{s.word} is given twice"
  | .missingNumber s => s!"{s.word} needs a number"
  | .notANumber s word => s!"{s.word} needs a number, not '{word}'"
  | .unexpectedValue s => s!"{s.word} takes no value"

/-- What the arguments after the task's name have said so far. A switch that is set counts one. -/
structure Given where
  file : Option String := none
  settings : List (Setting × Nat) := []
  /-- The setting whose number is the next argument. -/
  awaiting : Option Setting := none
  /-- Whether the settings are over. -/
  closed : Bool := false

namespace Given

/-- The number of a setting. -/
def number? (g : Given) (s : Setting) : Option Nat :=
  g.settings.lookup s

/-- Whether a setting was given. -/
def has (g : Given) (s : Setting) : Bool :=
  (g.number? s).isSome

/-- Take a setting with its number. -/
def set (g : Given) (s : Setting) (n : Nat) : Given :=
  { g with settings := (s, n) :: g.settings, awaiting := none }

/-- Take the name of the input. It is not empty, and there is one only. -/
def setFile (g : Given) (word : String) : Except UsageError Given :=
  if g.file.isSome then .error (.unexpectedArgument word)
  else if word.isEmpty then .error .missingFile
  else .ok { g with file := some word }

end Given

namespace Arguments

/-- An unsigned integer of 8 bytes: decimal digits, a plus sign may stand before them. -/
def number? (word : String) : Option Nat :=
  let digits := match word.toList with
    | '+' :: rest => rest
    | all => all
  if digits.isEmpty ∨ ¬ digits.all Char.isDigit then none
  else
    let n := digits.foldl (fun n c => 10 * n + (c.toNat - '0'.toNat)) 0
    if n < 256 ^ maxIntegerWidth then some n else none

/-- Whether an argument only says how much to log. -/
def isVerbosity (word : String) : Bool :=
  word == "--verbose" ||
    match word.toList with
    | '-' :: 'v' :: rest => rest.all (· == 'v')
    | _ => false

/-- Whether an argument is meant as a setting. A single hyphen is the name of an input. -/
def looksLikeSetting (word : String) : Bool :=
  match word.toList with
  | '-' :: _ :: _ => true
  | _ => false

/-- An argument divided at its first equals sign. -/
def splitValue (word : String) : String × Option String :=
  match word.toList.span (· ≠ '=') with
  | (name, _ :: value) => (String.ofList name, some (String.ofList value))
  | (_, []) => (word, none)

/-- Take the number of a setting. -/
def readNumber (g : Given) (s : Setting) (word : String) : Except UsageError Given :=
  match number? word with
  | some n => .ok (g.set s n)
  | none => .error (.notANumber s word)

/-- Take a setting, with its number if that stands behind an equals sign. -/
def readSetting (task : TaskName) (g : Given) (name : String) (value? : Option String) :
    Except UsageError Given :=
  match task.settings.find? (·.word = name) with
  | none => .error (.unknownSetting name)
  | some s =>
    if g.has s then .error (.repeatedSetting s)
    else
      match s.takesNumber, value? with
      | true, some value => readNumber g s value
      | true, none => .ok { g with awaiting := some s }
      | false, some _ => .error (.unexpectedValue s)
      | false, none => .ok (g.set s 1)

/-- Take the next argument of a task. -/
def readWord (task : TaskName) (g : Given) (word : String) : Except UsageError Given :=
  match g.awaiting with
  | some s => readNumber g s word
  | none =>
    if g.closed then g.setFile word
    else if word = "--" then .ok { g with closed := true }
    else if isVerbosity word then .ok g
    else if looksLikeSetting word then
      let (name, value?) := splitValue word
      readSetting task g name value?
    else g.setFile word

/-- The task with its settings. -/
def task (g : Given) : TaskName → Task
  | .inspect => .inspect {
      json := g.has .json
      values := !g.has .noValues
      maxDepth := g.number? .maxDepth }
  | .validate => .validate
  | .frames => .frames { track := g.number? .track, limit := g.number? .limit }
  | .stats => .stats

/-- The input with its settings. -/
def input (g : Given) (file : String) : InputOptions :=
  { file := file, chunkSize := (g.number? .chunkSize).getD 65536, strict := g.has .strict }

/-- The command that the arguments of a task describe. -/
def command (name : TaskName) (args : List String) : Except UsageError Command := do
  let g ← args.foldlM (readWord name) {}
  match g.awaiting, g.file with
  | some s, _ => .error (.missingNumber s)
  | none, none => .error .missingFile
  | none, some file => .ok ⟨input g file, task g name⟩

end Arguments

/-- The command that arguments describe. -/
def Command.ofArguments : List String → Except UsageError Command
  | [] => .error .missingTask
  | word :: rest =>
    if Arguments.isVerbosity word then ofArguments rest
    else
      match TaskName.ofWord? word with
      | some name => Arguments.command name rest
      | none => .error (.unknownTask word)

end Ebml
