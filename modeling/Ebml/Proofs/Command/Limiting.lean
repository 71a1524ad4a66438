import Mathlib
import Ebml.Proofs.Command.Arriving
import Ebml.Proofs.Visitor.Framing

/-!
# Limited tables of frames

A limit cuts a table of frames short and does nothing else. The table starts with the same lines; one
that has as many frames as the limit allows ends there, whatever comes of the input behind them, and
one that has fewer is not touched (`frames_limit`).
-/

namespace Ebml

namespace FrameTable

/-! ## Visits with a limit -/

/-- The number of frames is the number of those noted down. -/
def Counted (s : FrameVisit (List FrameEvent)) : Prop :=
  s.frames = s.inner.length

variable {s : FrameVisit (List FrameEvent)}

/-- An element adds one frame or none, and none if the visitor fails on it. -/
theorem visit_adds (limit : Option Nat) (e : Element) (h : Counted s) :
    let after := (visitor limit).visit e s
    Counted after.2 ∧
      (after.2.inner = s.inner ∨ after.1 = .ok () ∧ ∃ event, after.2.inner = event :: s.inner) := by
  intro after
  by_cases hlegible : ∀ l, e = .leaf l → l.Legible
  · have hafter : after = _ := FrameVisit.visit_legible _ id hlegible s
    cases hevent : FrameVisit.event? s.track s.clusterTimecode e with
    | none =>
      rw [hafter, hevent]
      exact ⟨h, .inl rfl⟩
    | some event =>
      rw [hafter, hevent]
      exact ⟨congrArg (· + 1) h, .inr ⟨rfl, event, rfl⟩⟩
  · obtain ⟨_, _, -, -, hafter⟩ := FrameVisit.visit_illegible (α := List FrameEvent)
      (fun event found => (.ok (), event :: found)) id hlegible s
    rw [show after = _ from hafter]
    exact ⟨h, .inl rfl⟩

/-- A visit keeps what was noted down before. -/
theorem showAll_adds (limit : Option Nat) (elements : List Element) (ending : Except ScanError Unit)
    (h : Counted s) :
    let shown := (visitor limit).showAll elements ending s
    Counted shown.2 ∧ s.inner <:+ shown.2.inner := by
  induction elements generalizing s with
  | nil =>
    rw [Visitor.showAll]
    split <;> exact ⟨h, List.suffix_rfl⟩
  | cons e rest ih =>
    obtain ⟨hcounted, hadds⟩ := visit_adds limit e h
    -- Frames are noted in front, so what was noted before is a rear part.
    have hsuffix : s.inner <:+ ((visitor limit).visit e s).2.inner := by
      obtain hsame | ⟨-, event, hevent⟩ := hadds
      · rw [hsame]
      · rw [hevent]
        exact List.suffix_cons event s.inner
    rw [Visitor.showAll]
    split
    · exact ⟨h, List.suffix_rfl⟩
    · split
      · rename_i hvisit
        rw [hvisit] at hcounted hsuffix
        exact ⟨hcounted, hsuffix⟩
      · rename_i hvisit
        rw [hvisit] at hcounted hsuffix
        obtain ⟨hcounted', hsuffix'⟩ := ih hcounted
        exact ⟨hcounted', hsuffix.trans hsuffix'⟩

/-- A visit with a limit that the frames do not reach is a visit without. One with a limit that they
reach ends well, with so many of them. -/
theorem showAll_limit {limit : Nat} (elements : List Element) (ending : Except ScanError Unit)
    (h : Counted s) (hroom : s.frames ≤ limit) :
    let whole := (visitor none).showAll elements ending s
    let part := (visitor (some limit)).showAll elements ending s
    (whole.2.frames < limit → part = whole) ∧
      (limit ≤ whole.2.frames → part.1 = .ok () ∧ part.2.frames = limit ∧ Counted part.2 ∧
        part.2.inner <:+ whole.2.inner) := by
  induction elements generalizing s with
  | nil =>
    have hwhole : (visitor none).showAll [] ending s = (ending.mapError .scan, s) := rfl
    rw [hwhole, Visitor.showAll]
    split
    · rename_i hdone
      exact ⟨fun hlt => absurd hlt (by simpa [visitor] using hdone), fun hle =>
        ⟨rfl, Nat.le_antisymm hroom hle, h, List.suffix_rfl⟩⟩
    · rename_i hdone
      exact ⟨fun _ => rfl, fun hle => absurd (by simpa [visitor] using hle) hdone⟩
  | cons e rest ih =>
    obtain ⟨hcounted, hadds⟩ := visit_adds none e h
    obtain ⟨hkeeps, hsuffix⟩ := showAll_adds none (e :: rest) ending h
    by_cases hdone : limit ≤ s.frames
    · -- There are enough frames: the part stops here, and the whole keeps those there are.
      have hpart : (visitor (some limit)).showAll (e :: rest) ending s = (.ok (), s) :=
        Visitor.showAll_of_isDone (by simpa [visitor] using hdone) _ _
      have hle : s.frames ≤ ((visitor none).showAll (e :: rest) ending s).2.frames := by
        rw [h, hkeeps]
        exact hsuffix.length_le
      rw [hpart]
      exact ⟨fun hlt => absurd hlt (by omega), fun _ =>
        ⟨rfl, Nat.le_antisymm hroom hdone, h, hsuffix⟩⟩
    · -- Until then both do the same with an element, and it adds one frame at most.
      have hopen : (visitor (some limit)).isDone s = false := by simpa [visitor] using hdone
      rcases hvisit : (visitor none).visit e s with ⟨failure | _, s'⟩ <;>
        rw [hvisit] at hcounted hadds
      · rw [Visitor.showAll_of_error hopen hvisit, Visitor.showAll_of_error rfl hvisit]
        obtain hsame | ⟨hok, -⟩ := hadds
        · have hframes : s'.frames = s.frames := by
            rw [hcounted, h]
            exact congrArg List.length hsame
          exact ⟨fun _ => rfl, fun hle => absurd (hframes ▸ hle) hdone⟩
        · simp at hok
      · rw [Visitor.showAll_of_ok hopen hvisit, Visitor.showAll_of_ok rfl hvisit]
        refine ih hcounted ?_
        have hframes : s'.frames ≤ s.frames + 1 := by
          rw [hcounted, h]
          obtain hsame | ⟨-, event, hevent⟩ := hadds
          · exact Nat.le_succ_of_le (congrArg List.length hsame).le
          · exact (congrArg List.length hevent).le
        omega

end FrameTable

namespace Command

open Reader (offered)

/-- What stands below a table, if the visit ended well. -/
def closing (n : Nat) : List String :=
  ["---", s!"{n} frame" ++ if n = 1 then "" else "s"]

theorem frameOutcome_output (i : InputOptions)
    (shown : Except (Reader.ApplyError ValueError) Unit × FrameVisit (List FrameEvent)) :
    (frameOutcome i shown).output =
      FrameTable.heading :: shown.2.inner.reverse.map FrameTable.line ++
        if (frameOutcome i shown).failure.isSome then [] else closing shown.2.frames := by
  match shown with
  | (.ok (), visit) => rfl
  | (.error (.scan e), visit) => exact (List.append_nil _).symm
  | (.error (.visitor e), visit) => exact (List.append_nil _).symm

/-- What a limit does to a table that its reader offers elements for. -/
theorem frames_limit_of_offered (i : InputOptions) (track : Option Nat) (limit : Nat)
    (stream : Stream) :
    let whole := frames i { track := track } stream
    let part := frames i { track := track, limit := some limit } stream
    ∃ events : List FrameEvent,
      let rows := events.map FrameTable.line
      whole.output = FrameTable.heading :: rows ++
          (if whole.failure.isSome then [] else closing rows.length) ∧
        (limit ≤ rows.length →
          part = ⟨FrameTable.heading :: rows.take limit ++ closing limit, none⟩) ∧
        (rows.length < limit → part = whole) := by
  intro whole part
  have hwhole : whole = frames i { track := track } stream := rfl
  have hpart : part = frames i { track := track, limit := some limit } stream := rfl
  rw [frames_eq_offered] at hwhole hpart
  dsimp only at hwhole hpart
  have hcounted : FrameTable.Counted (FrameTable.start { track := track }) := rfl
  obtain ⟨hsame, hfull⟩ := FrameTable.showAll_limit (offered (frameReader i stream)).1
    (offered (frameReader i stream)).2 hcounted (Nat.zero_le limit)
  obtain ⟨hall, -⟩ := FrameTable.showAll_adds none (offered (frameReader i stream)).1
    (offered (frameReader i stream)).2 hcounted
  -- Both visits are shown the same offer, so the reader does not matter any more.
  generalize (FrameTable.visitor none).showAll _ _ _ = shown at hwhole hsame hfull hall
  have hrows : (shown.2.inner.reverse.map FrameTable.line).length = shown.2.frames := by
    rw [List.length_map, List.length_reverse, hall]
  refine ⟨shown.2.inner.reverse, ?_⟩
  dsimp only
  rw [hrows]
  refine ⟨?_, fun hle => ?_, fun hlt => ?_⟩
  · rw [hwhole]
    exact frameOutcome_output i shown
  · obtain ⟨hok, hframes, hcounted', hsuffix⟩ := hfull hle
    change part = frameOutcome i ((FrameTable.visitor (some limit)).showAll _ _
      (FrameTable.start { track := track })) at hpart
    generalize (FrameTable.visitor (some limit)).showAll _ _ _ = shown' at *
    obtain ⟨_, visit⟩ := shown'
    obtain rfl := hok
    dsimp only at hframes hcounted' hsuffix
    -- The part noted down the frames that came first, and the last one noted stands in front.
    have hfirst : visit.inner.reverse = shown.2.inner.reverse.take limit := by
      have htake := List.prefix_iff_eq_take.mp (List.reverse_prefix.mpr hsuffix)
      rwa [List.length_reverse, ← hcounted', hframes] at htake
    calc part = ⟨FrameTable.heading :: visit.inner.reverse.map FrameTable.line ++
            closing visit.frames, none⟩ := hpart
      _ = ⟨FrameTable.heading :: (shown.2.inner.reverse.map FrameTable.line).take limit ++
            closing limit, none⟩ := by rw [hfirst, List.map_take, hframes]
  · exact hpart.trans ((congrArg (frameOutcome i) (hsame hlt)).trans hwhole.symm)

/-- A table that shall have no frames is the heading and what stands below it. -/
theorem frames_zero (i : InputOptions) (track : Option Nat) (stream : Stream) :
    frames i { track := track, limit := some 0 } stream =
      ⟨FrameTable.heading :: closing 0, none⟩ := by
  obtain ⟨events, -, hpart, -⟩ := frames_limit_of_offered i track 0 stream
  exact hpart (Nat.zero_le _)

/-- A table of frames with a limit shows the heading and the first frames of the table without. If
that has as many as the limit allows, the table ends well and tells their number, also where the input
fails behind them. If it has fewer, the two end alike, be it well or not. -/
theorem frames_limit (i : InputOptions) (track : Option Nat) (limit : Nat) (tree : FileTree)
    (stream : Stream) (hinput : i.isStandardInput = true) :
    let whole := (⟨i, .frames { track := track }⟩ : Command).runIn tree stream
    let part := (⟨i, .frames { track := track, limit := some limit }⟩ : Command).runIn tree stream
    ∃ events : List FrameEvent,
      let rows := events.map FrameTable.line
      whole.output = FrameTable.heading :: rows ++
          (if whole.failure.isSome then [] else closing rows.length) ∧
        (limit ≤ rows.length →
          part = ⟨FrameTable.heading :: rows.take limit ++ closing limit, none⟩) ∧
        (rows.length < limit → part = whole) := by
  intro whole part
  have hwhole : whole = (⟨i, .frames { track := track }⟩ : Command).run (.ok stream) :=
    runIn_of_isStandardInput _ tree stream hinput
  have hpart : part =
      (⟨i, .frames { track := track, limit := some limit }⟩ : Command).run (.ok stream) :=
    runIn_of_isStandardInput _ tree stream hinput
  by_cases hchunk : i.chunkSize ≤ StreamSource.largestBuffer
  · rw [run_of_le _ stream hchunk] at hwhole hpart
    rw [hwhole, hpart]
    exact frames_limit_of_offered i track limit stream
  · -- Both break off at the first read, which a table that shall have no frames does not come to.
    have hlarge : StreamSource.largestBuffer < i.chunkSize := Nat.lt_of_not_le hchunk
    rw [run_of_lt _ stream rfl hlarge] at hwhole
    refine ⟨[], ?_, fun hle => ?_, fun hlt => ?_⟩
    · rw [hwhole]
      rfl
    · obtain rfl : limit = 0 := Nat.le_zero.mp hle
      rw [hpart, run_of_not_readsInput _ stream rfl]
      exact frames_zero i track stream
    · have hreads : readsInput (.frames { track := track, limit := some limit }) = true := by
        simpa [readsInput, FrameTable.visitor, FrameTable.start] using Nat.ne_zero_of_lt hlt
      rw [hpart, run_of_lt _ stream hreads hlarge, hwhole]
      rfl

/-- Two frames and a byte that begins no id. -/
def spoiltFrames : Stream :=
  .ofBytes [0xA3, 0x84, 0x81, 0, 0, 0x80, 0xA3, 0x84, 0x81, 0, 5, 0, 0]

/-- The table fails without a limit and with one of 3, but not with one of 2. -/
theorem frames_limit_of_spoilt_id :
    let tree : FileTree := ⟨.directory [], []⟩
    let i : InputOptions := { file := "-" }
    let table (limit : Option Nat) :=
      (⟨i, .frames { limit := limit }⟩ : Command).runIn tree spoiltFrames
    (table none).failure = some (.malformed "-" (.header 12 (.idTooWide 9))) ∧
      (table (some 3)) = table none ∧
        (table (some 2)) = ⟨(table none).output ++ ["---", "2 frames"], none⟩ := by
  intro tree i table
  have hinput : i.isStandardInput = true := by cbv
  have hwhole : table none = frameOutcome i _ :=
    (runIn_eq_runTask _ tree spoiltFrames hinput (by decide)).trans (frames_eq i {} rfl)
  have hfailure : (table none).failure = some (.malformed "-" (.header 12 (.idTooWide 9))) := by
    rw [hwhole]
    cbv
  have hlength : (table none).output.length = 3 := by
    rw [hwhole]
    cbv
  obtain ⟨events, houtput, htwo, -⟩ := frames_limit i none 2 tree spoiltFrames hinput
  obtain ⟨events', houtput', -, hthree⟩ := frames_limit i none 3 tree spoiltFrames hinput
  change (table none).output = _ at houtput houtput'
  rw [hfailure] at houtput houtput'
  have hcount : (events.map FrameTable.line).length = 2 := by simpa [houtput] using hlength
  have hcount' : (events'.map FrameTable.line).length = 2 := by simpa [houtput'] using hlength
  refine ⟨hfailure, hthree (by omega), ?_⟩
  have hpart : table (some 2) = _ := htwo (by omega)
  have hclosing : closing 2 = ["---", "2 frames"] := by cbv
  rw [hpart, houtput, List.take_of_length_le (by omega), hclosing]
  simp

end Command

end Ebml
