import Ebml.Command.Arguments
import Ebml.Proofs.Reader.Unfailing

/-!
# How input arrives

What a command does with an input that never fails can be read off the bytes of the input, one lemma
for each command (`inspect_eq`, `validate_eq`, `frames_eq`, `stats_eq`). Neither the chunk size nor
the answers that the bytes come in occur there, so they do not show in what a command leaves behind
(`runIn_arrival`). That is so as long as a buffer can have that size: with a greater one a command
breaks off at its first read (`runIn_of_too_large`).
-/

namespace Ebml

open Reader (reading offered DrainEnd Succeeded)
open StreamSource (largestBuffer)

variable {stream : Stream}

/-- A drain of an input that never fails reads its bytes off. -/
theorem InputOptions.drain_spec (i : InputOptions)
    (h : Stream.failuresUntilEmpty stream.answers = []) :
    let bytes := Stream.untilEmpty stream.answers
    (i.drain stream).elements = (reading (i.configure {}) bytes).1 ∧
      (i.drain stream).stop = .ofEnding (reading (i.configure {}) bytes).2 ∧
        ((i.drain stream).stop = .ended → (i.drain stream).reader.bytesRead = bytes.length) := by
  obtain ⟨helements, hstop, hread⟩ :=
    (Reader.undisturbed_ofStream (i.configure {}) stream i.chunkSize h).drain_spec
  exact ⟨helements.symm, hstop, hread⟩

namespace Command

/-! ## Commands on bytes -/

theorem inspect_eq (i : InputOptions) (o : InspectionOptions)
    (h : Stream.failuresUntilEmpty stream.answers = []) :
    inspect i o stream =
      let (elements, ending) := reading (i.configure {}) (Stream.untilEmpty stream.answers)
      ⟨Inspection.lines o elements, i.drainFailure? (.ofEnding ending)⟩ := by
  obtain ⟨helements, hstop, -⟩ := i.drain_spec h
  rw [inspect, helements, hstop]

theorem validate_eq (i : InputOptions) (h : Stream.failuresUntilEmpty stream.answers = []) :
    validate i stream =
      match reading (i.configure {}) (Stream.untilEmpty stream.answers) with
      | (_, .error e) => ⟨[s!"✗ Error: {e.message}"], some (.invalid i.file e)⟩
      | (elements, .ok ()) =>
        let found := Validation.ofElements elements
        ⟨found.lines (Stream.untilEmpty stream.answers).length,
          if found.isValid then none else some (.failedValidation i.file)⟩ := by
  obtain ⟨helements, hstop, hread⟩ := i.drain_spec h
  rw [validate]
  dsimp only
  rw [helements, hstop] at *
  generalize reading (i.configure {}) (Stream.untilEmpty stream.answers) = told at hread
  obtain ⟨elements, outcome⟩ := told
  cases outcome with
  | error e => rfl
  | ok u => rw [hread rfl]; rfl

theorem stats_eq (i : InputOptions) (h : Stream.failuresUntilEmpty stream.answers = []) :
    stats i stream =
      match reading (i.configure {}) (Stream.untilEmpty stream.answers) with
      | (_, .error e) => ⟨[], some (.malformed i.file e)⟩
      | (elements, .ok ()) =>
        ⟨(Statistics.ofElements elements).lines i.file (Stream.untilEmpty stream.answers).length,
          none⟩ := by
  obtain ⟨helements, hstop, hread⟩ := i.drain_spec h
  rw [stats]
  rw [helements, hstop] at *
  generalize reading (i.configure {}) (Stream.untilEmpty stream.answers) = told at hread
  obtain ⟨elements, outcome⟩ := told
  cases outcome with
  | error e => rfl
  | ok u => rw [hread rfl]; rfl

/-- How a table of frames is read. -/
def frameConfig : ReaderConfig :=
  { capturePaths := false, filter := some FrameTable.wantedIds }

/-- What a visit that found the frames of a table leaves behind. -/
def frameOutcome (i : InputOptions) :
    Except (Reader.ApplyError ValueError) Unit × FrameVisit (List FrameEvent) → Outcome
  | (.ok (), visit) => ⟨FrameTable.lines visit ++ FrameTable.summary visit, none⟩
  | (.error (.scan e), visit) => ⟨FrameTable.lines visit, some (.malformed i.file e)⟩
  | (.error (.visitor e), visit) => ⟨FrameTable.lines visit, some (.badData e)⟩

/-- A table of frames is made from what its reader offers, also where the input fails. -/
theorem frames_eq_offered (i : InputOptions) (o : FrameTableOptions) (stream : Stream) :
    frames i o stream =
      let (elements, ending) := offered (frameReader i stream)
      frameOutcome i
        ((FrameTable.visitor o.limit).showAll elements ending (FrameTable.start o)) := by
  dsimp only
  rw [← Reader.apply_eq_showAll, frames]
  generalize Reader.apply (FrameTable.visitor o.limit) (frameReader i stream) (FrameTable.start o) =
    applied
  match applied.outcome with
  | .ok () => rfl
  | .error (.scan e) => rfl
  | .error (.visitor e) => rfl

theorem frames_eq (i : InputOptions) (o : FrameTableOptions)
    (h : Stream.failuresUntilEmpty stream.answers = []) :
    frames i o stream =
      let (elements, ending) := reading (i.configure frameConfig) (Stream.untilEmpty stream.answers)
      frameOutcome i
        ((FrameTable.visitor o.limit).showAll elements ending (FrameTable.start o)) := by
  rw [frames_eq_offered, ← Reader.offered_ofStream _ stream i.chunkSize h]
  rfl

/-! ## Any arrival -/

/-- The command with another chunk size. -/
def withChunkSize (c : Command) (k : Nat) : Command :=
  { c with input := { c.input with chunkSize := k } }

/-- A task reads any two inputs with the same bytes alike, however many it asks for at once. -/
theorem runTask_arrival (i : InputOptions) (task : Task) (k k' : Nat) {stream stream' : Stream}
    (h : Stream.failuresUntilEmpty stream.answers = [])
    (h' : Stream.failuresUntilEmpty stream'.answers = [])
    (hbytes : Stream.untilEmpty stream.answers = Stream.untilEmpty stream'.answers) :
    runTask { i with chunkSize := k } stream task =
      runTask { i with chunkSize := k' } stream' task := by
  cases task with
  | inspect o =>
    simp only [runTask]
    rw [inspect_eq _ o h, inspect_eq _ o h', hbytes]
    rfl
  | validate =>
    simp only [runTask]
    rw [validate_eq _ h, validate_eq _ h', hbytes]
    rfl
  | frames o =>
    simp only [runTask]
    rw [frames_eq _ o h, frames_eq _ o h', hbytes]
    rfl
  | stats =>
    simp only [runTask]
    rw [stats_eq _ h, stats_eq _ h', hbytes]
    rfl

/-- It can always be found out whether an input that never fails goes on. -/
theorem runTask_failure_ne (i : InputOptions) (task : Task)
    (h : Stream.failuresUntilEmpty stream.answers = []) (file : String) (e : ScanError) :
    (runTask i stream task).failure ≠ some (.unreadable file e) := by
  cases task with
  | inspect o =>
    simp only [runTask]
    rw [inspect_eq i o h]
    rcases reading (i.configure {}) (Stream.untilEmpty stream.answers) with ⟨elements, ending⟩
    cases ending <;> simp [DrainEnd.ofEnding, InputOptions.drainFailure?]
  | validate =>
    simp only [runTask]
    rw [validate_eq i h]
    split
    · simp
    · dsimp only
      split <;> simp
  | frames o =>
    simp only [runTask]
    rw [frames_eq i o h]
    dsimp only
    unfold frameOutcome
    split <;> simp
  | stats =>
    simp only [runTask]
    rw [stats_eq i h]
    split <;> simp

/-- The exit code of a check of the standard input can be read off its bytes. -/
theorem exitCode_validate (i : InputOptions) (tree : FileTree) (hinput : i.isStandardInput = true)
    (hchunk : i.chunkSize ≤ largestBuffer) (h : Stream.failuresUntilEmpty stream.answers = []) :
    ((⟨i, .validate⟩ : Command).runIn tree stream).exitCode =
      match reading (i.configure {}) (Stream.untilEmpty stream.answers) with
      | (_, .error _) => 1
      | (elements, .ok ()) => if (Validation.ofElements elements).isValid then 0 else 1 := by
  rw [runIn_eq_runTask _ tree stream hinput hchunk, runTask, validate_eq i h]
  split
  · rfl
  · dsimp only
    split <;> rfl

/-- What a command leaves behind, its output and its failure with the exit code and the message that
come of it, depends on the bytes of the standard input and neither on the chunk size, as long as a
buffer can have it, nor on how reads split the bytes. While the input is read, what cannot be parsed
is first reported by a call for the next element, and no command fails for not knowing whether the
input goes on. -/
theorem runIn_arrival (c : Command) (tree : FileTree) (k k' : Nat) (stream stream' : Stream)
    (hinput : c.input.isStandardInput = true) (hk : k ≤ largestBuffer) (hk' : k' ≤ largestBuffer)
    (h : Stream.failuresUntilEmpty stream.answers = [])
    (h' : Stream.failuresUntilEmpty stream'.answers = [])
    (hbytes : Stream.untilEmpty stream.answers = Stream.untilEmpty stream'.answers) :
    let outcome := (c.withChunkSize k).runIn tree stream
    outcome = (c.withChunkSize k').runIn tree stream' ∧
      (∀ file e, outcome.failure ≠ some (.unreadable file e)) ∧
        ∀ (config : ReaderConfig) {r : Reader StreamSource},
          Succeeded (.ofSource config (.ofStream stream k)) r → ∀ e, r.mayHaveNext.1 ≠ .error e := by
  intro outcome
  have hrun : outcome = runTask { c.input with chunkSize := k } stream c.task :=
    (c.withChunkSize k).runIn_eq_runTask tree stream hinput hk
  have hrun' : (c.withChunkSize k').runIn tree stream' =
      runTask { c.input with chunkSize := k' } stream' c.task :=
    (c.withChunkSize k').runIn_eq_runTask tree stream' hinput hk'
  rw [hrun, hrun']
  exact ⟨runTask_arrival c.input c.task k k' h h' hbytes, runTask_failure_ne _ _ h,
    fun config _ hcalls => Reader.mayHaveNext_ne_error config stream k h hcalls⟩

/-- A void element and a byte that begins no id arrive in pieces, with an interruption, and are asked
for one by one, or arrive at once in the largest buffer that there can be. -/
theorem runIn_arrival_of_spoilt_id :
    let tree : FileTree := ⟨.directory [], []⟩
    let c : Command := ⟨{ file := "-" }, .inspect {}⟩
    let pieces : Stream := ⟨[.bytes [0xEC, 0x82], .failure ⟨.interrupted, "signal"⟩, .bytes [7],
      .bytes [8, 0], .bytes [], .bytes [1]], 0⟩
    let whole := Stream.ofBytes [0xEC, 0x82, 7, 8, 0]
    (c.withChunkSize 0).runIn tree pieces = (c.withChunkSize (2 ^ 63 - 1)).runIn tree whole ∧
      ((c.withChunkSize (2 ^ 63 - 1)).runIn tree whole).failure =
        some (.malformed "-" (.header 4 (.idTooWide 9))) := by
  intro tree c pieces whole
  have hinput : c.input.isStandardInput = true := by cbv
  have hbytes : Stream.untilEmpty pieces.answers = Stream.untilEmpty whole.answers := rfl
  obtain ⟨hsame, -, -⟩ := runIn_arrival c tree 0 (2 ^ 63 - 1) pieces whole hinput (Nat.zero_le _)
    (Nat.le_refl _) rfl rfl hbytes
  have hrun : (c.withChunkSize (2 ^ 63 - 1)).runIn tree whole =
      inspect (c.withChunkSize (2 ^ 63 - 1)).input {} whole :=
    (c.withChunkSize (2 ^ 63 - 1)).runIn_eq_runTask tree whole hinput (Nat.le_refl _)
  have hends : (reading {} [0xEC, 0x82, 7, 8, 0]).2 = .error (.header 4 (.idTooWide 9)) := by cbv
  refine ⟨hsame, ?_⟩
  rw [hrun, inspect_eq _ _ rfl]
  change InputOptions.drainFailure? _ (.ofEnding (reading {} [0xEC, 0x82, 7, 8, 0]).2) = _
  rw [hends]
  rfl

/-- A void element is shown with the default size of a chunk. With the greatest size that can be asked
for nothing is, and the command breaks off without a line about it. -/
theorem runIn_of_too_large :
    let tree : FileTree := ⟨.directory [], []⟩
    let standardInput := Stream.ofBytes [0xEC, 0x81, 7]
    let c : Command := ⟨{ file := "-" }, .inspect {}⟩
    let outcome := c.runIn tree standardInput
    let outcome' := (c.withChunkSize (2 ^ 64 - 1)).runIn tree standardInput
    (ofArguments ["inspect", "-"]).toOption = some c ∧
      (ofArguments ["inspect", "--chunk-size", "18446744073709551615", "-"]).toOption =
        some (c.withChunkSize (2 ^ 64 - 1)) ∧
      outcome = ⟨["Void (0xEC) = <1 bytes>"], none⟩ ∧ outcome.exitCode = 0 ∧
        outcome'.output = [] ∧ outcome'.exitCode = 101 ∧ outcome'.errorLine? = none := by
  intro tree standardInput c outcome outcome'
  have hinput : c.input.isStandardInput = true := by cbv
  have houtcome : outcome = ⟨["Void (0xEC) = <1 bytes>"], none⟩ := by
    have hrun : outcome = inspect c.input {} standardInput :=
      c.runIn_eq_runTask tree standardInput hinput (by decide)
    rw [hrun, inspect_eq _ _ rfl]
    cbv
  have houtcome' : outcome' = ⟨[], some .bufferTooLarge⟩ :=
    (runIn_of_isStandardInput (c.withChunkSize (2 ^ 64 - 1)) tree standardInput hinput).trans
      (run_of_lt _ standardInput rfl (by decide))
  rw [houtcome, houtcome']
  exact ⟨by decide +kernel, by decide +kernel, rfl, rfl, rfl, rfl, rfl⟩

end Command

end Ebml
