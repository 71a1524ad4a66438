import Ebml.Proofs.Document.Transcript
import Ebml.Proofs.Scanner.Runs

/-!
# What is still to come

`t.forecast future` is what the scan `t` will report and how it will end if `future` are the bytes
still to come. A transition changes nothing about it: what the forecast was before, the transition
reports now or forecasts after (`Transition.forecast_eq`). How the bytes arrive, and in how many
pieces data is reported, does not show in a forecast.
-/

namespace Ebml.Scanner

/-- The place of the element whose header is being read. -/
def place (t : Scanner) (index : Nat) (future : Bytes) : Place :=
  ⟨t.stack, t.window.start, index, t.window.bytes ++ future⟩

/-- What an open scan will report of the bytes still to come, data byte by byte, and how it will
end. -/
def forecast (t : Scanner) (future : Bytes) : Transcript :=
  match t.phase with
  | .id => (t.place t.nextIndex future).transcript t.schema
  | .size _ _ number => (t.place (number.getD t.nextIndex) future).transcript t.schema
  | .resolve _ _ number => (t.place (number.getD t.nextIndex) future).transcript t.schema
  | .content leaf stop =>
    let missing := stop.getD t.consumed - t.consumed
    (Place.transcript t.schema ⟨t.stack, stop.getD t.consumed, t.nextIndex, future.drop missing⟩).after
      (restOfLeaf leaf t.path (future.take missing))
  | .finished leaf =>
    (Place.transcript t.schema ⟨t.stack, t.consumed, t.nextIndex, future⟩).after
      (restOfLeaf leaf t.path [])

variable {t t' : Scanner} {bytes future : Bytes} {outcome : Except ScanError Progress}

/-! ## Places of coherent scanners -/

theorem Covered.not_exhausted (h : t.Covered) (index : Nat) (future : Bytes) :
    (t.place index future).isExhausted = false := by
  rw [Place.isExhausted, List.any_eq_false]
  intro m hm
  cases hstop : m.stop? with
  | none => simp
  | some stop =>
    have hlt := h m hm stop hstop
    simp only [Option.any_some, decide_eq_true_eq, Nat.not_le]
    exact hlt

theorem place_absorb (t : Scanner) (index : Nat) (bytes future : Bytes) :
    (t.absorb bytes).place index future = t.place index (bytes ++ future) := by
  simp [place, absorb]

/-- The place behind the header in the window and `n` more bytes. -/
theorem place_skip (t : Scanner) (index n : Nat) (future : Bytes) :
    (t.place index future).skip (t.window.bytes.length + n) =
      ⟨t.stack, t.window.stop + n, index + 1, future.drop n⟩ := by
  simp [place, Place.skip, HeaderWindow.stop, Nat.add_assoc, List.drop_append]

/-- The place inside the master whose header is in the window. -/
theorem place_enter (t : Scanner) (index : Nat) (future : Bytes) (decl : ElementDecl)
    (size : DataSize) :
    (t.place index future).enter decl size t.window.bytes.length =
      ⟨⟨⟨decl, index⟩, t.window.stop, size⟩ :: t.stack, t.window.stop, index + 1, future⟩ := by
  simp [place, Place.enter, Place.skip, HeaderWindow.stop]

theorem take_place (t : Scanner) (index : Nat) (future : Bytes) :
    (t.place index future).rest.take t.window.bytes.length = t.window.bytes := by
  simp [place]

theorem drop_place (t : Scanner) (index : Nat) (future : Bytes) :
    (t.place index future).rest.drop t.window.bytes.length = future := by
  simp [place]

theorem forecast_atBoundary (t : Scanner) (future : Bytes) :
    t.atBoundary.forecast future =
      Place.transcript t.schema ⟨t.stack, t.consumed, t.given, future⟩ := rfl

theorem forecast_of_header {index : Nat} (h : t.headerIndex? = some index) (future : Bytes) :
    t.forecast future = (t.place index future).transcript t.schema := by
  unfold headerIndex? at h
  unfold forecast
  split at h
  · rename_i hphase
    obtain rfl := Option.some.inj h
    rw [hphase]
  · rename_i hphase
    rw [hphase, h]
    rfl
  · rename_i hphase
    rw [hphase, h]
    rfl
  · simp at h

theorem forecast_of_content {leaf : Option Occurrence} {stop : Nat}
    (hphase : t.phase = .content leaf (some stop)) (future : Bytes) :
    t.forecast future =
      (Place.transcript t.schema
          ⟨t.stack, stop, t.nextIndex, future.drop (stop - t.consumed)⟩).after
        (restOfLeaf leaf t.path (future.take (stop - t.consumed))) := by
  simp only [forecast, hphase, Option.getD_some]

theorem forecast_of_finished {leaf : Option Occurrence} (hphase : t.phase = .finished leaf)
    (future : Bytes) :
    t.forecast future =
      (Place.transcript t.schema ⟨t.stack, t.consumed, t.nextIndex, future⟩).after
        (restOfLeaf leaf t.path []) := by
  simp only [forecast, hphase]

/-- Whether a byte of a header was read or is to come makes no difference. -/
theorem ReadsOn.forecast_eq {index : Nat} (h : ReadsOn t index bytes t') (future : Bytes) :
    t.forecast (bytes ++ future) = t'.forecast future := by
  have hplace : t'.place index future = (t.absorb bytes).place index future := by
    rw [place, h.stack_eq, h.window_eq]
    rfl
  rw [forecast_of_header h.before, forecast_of_header h.behind, h.schema_eq, hplace, place_absorb]

/-- Before an element starts, the place has its header in front. -/
theorem Coherent.hasHeader {id index : Nat} {size : DataSize} (h : t.Coherent)
    (hphase : t.phase = .resolve id size (some index)) (future : Bytes) :
    ∃ header, (t.place index future).HasHeader header t.window.bytes.length ∧ header.id = id ∧
      header.size = size ∧ t.Numbered index ∧ t.window.stop = t.consumed := by
  simp only [Coherent, hphase] at h
  obtain ⟨hstop, hnumbered, hcovered, idField, sizeField, hwindow, hid, hsize, rfl, rfl⟩ := h
  have hdec := Header.decode_fields hid hsize future
  rw [← hwindow] at hdec
  exact ⟨_, ⟨hcovered.not_exhausted _ _, hdec⟩, rfl, rfl, hnumbered, hstop⟩

/-! ## Transitions -/

/-- The number of the element whose id is being read may be given or not. -/
theorem forecast_waiting (hphase : t.phase = .id) (outcome : Except ScanError Progress)
    (future : Bytes) : (t.waiting outcome).forecast future = t.forecast future := by
  have hphase' : (t.waiting outcome).phase = .id := hphase
  rw [forecast_of_header (headerIndex_of_id hphase'), forecast_of_header (headerIndex_of_id hphase),
    nextIndex_waiting]
  rfl

section

variable {id index : Nat} {size : DataSize} {decl : ElementDecl}

/-! What is forecast once the header is read: the place has that header in front, and a transcript
takes the turn that the scanner takes. -/

theorem Coherent.forecast_skip {n : Nat} (hco : t.Coherent)
    (hphase : t.phase = .resolve id (.known n) (some index)) (hnone : t.schema.get? id = none)
    (future : Bytes) :
    t.forecast future =
      forecast { t with phase := .content none (some (t.window.stop + n)) } future := by
  obtain ⟨header, hheader, rfl, hsize, hnumbered, hstop⟩ := hco.hasHeader hphase future
  rw [forecast_of_header (headerIndex_of_resolve hphase), hheader.transcript_skip hnone hsize,
    place_skip, forecast_of_content rfl]
  -- None of the data is read yet, so all `n` bytes of it are missing.
  dsimp only
  rw [hstop, Nat.add_sub_cancel_left, ← hnumbered.nextIndex_eq]
  rfl

theorem Coherent.forecast_closeLevel {m : OpenMaster} {rest : List OpenMaster} (hco : t.Coherent)
    (hphase : t.phase = .resolve id size (some index)) (hdecl : t.schema.get? id = some decl)
    (hknown : (size.isUnknown && !decl.isMaster) = false) (hstack : t.stack = m :: rest)
    (hlevel : t.closesByLevel decl m = true) (future : Bytes) :
    t.forecast future =
      (forecast { t with stack := rest } future).after [.finish m.element (pathOf rest)] := by
  obtain ⟨header, hheader, rfl, rfl, -, -⟩ := hco.hasHeader hphase future
  have hphase' : ({ t with stack := rest } : Scanner).phase =
    .resolve header.id header.size (some index) := hphase
  rw [forecast_of_header (headerIndex_of_resolve hphase),
    forecast_of_header (headerIndex_of_resolve hphase')]
  exact hheader.transcript_level hdecl hknown hstack hlevel

theorem Coherent.forecast_enterMaster (hco : t.Coherent)
    (hphase : t.phase = .resolve id size (some index)) (hdecl : t.schema.get? id = some decl)
    (hmaster : decl.isMaster = true) (hstay : ∀ m ∈ t.stack.head?, t.closesByLevel decl m = false)
    (future : Bytes) :
    t.forecast future =
      (forecast
          { t with stack := ⟨⟨decl, index⟩, t.window.stop, size⟩ :: t.stack }.atBoundary
          future).after
        [.start ⟨decl, index⟩ size t.window.bytes t.path] := by
  obtain ⟨header, hheader, rfl, rfl, hnumbered, hstop⟩ := hco.hasHeader hphase future
  rw [forecast_of_header (headerIndex_of_resolve hphase),
    hheader.transcript_master hdecl hmaster hstay, take_place, place_enter, forecast_atBoundary]
  dsimp only
  rw [hstop, ← hnumbered.2]
  rfl

theorem Coherent.forecast_enterLeaf {n : Nat} (hco : t.Coherent)
    (hphase : t.phase = .resolve id (.known n) (some index)) (hdecl : t.schema.get? id = some decl)
    (hleaf : decl.isMaster = false) (hstay : ∀ m ∈ t.stack.head?, t.closesByLevel decl m = false)
    (future : Bytes) :
    t.forecast future =
      (forecast
          { t with phase := .content (some ⟨decl, index⟩) (some (t.window.stop + n)) }
          future).after
        [.start ⟨decl, index⟩ (.known n) t.window.bytes t.path] := by
  obtain ⟨header, hheader, rfl, hsize, hnumbered, hstop⟩ := hco.hasHeader hphase future
  rw [forecast_of_header (headerIndex_of_resolve hphase),
    hheader.transcript_leaf hdecl hsize hleaf hstay, take_place, drop_place, place_skip,
    forecast_of_content rfl]
  -- The transcript tells the data at once, the scanner has all of it still to read.
  dsimp only
  rw [hstop, Nat.add_sub_cancel_left, ← hnumbered.nextIndex_eq]
  rfl

end

/-- A piece of data that is read is the front of what was forecast. -/
theorem forecast_contentRead {leaf : Option Occurrence} {stop : Nat}
    (hphase : t.phase = .content leaf (some stop)) (hle : t.consumed + bytes.length ≤ stop)
    (future : Bytes) :
    t.forecast (bytes ++ future) =
      (forecast
          { t with
            consumed := t.consumed + bytes.length
            phase := if stop ≤ t.consumed + bytes.length then .finished leaf
              else .content leaf (some stop) }
          future).after
        ((leaf.map (.content · bytes)).toList.flatMap Event.bytewise) := by
  have htake : (bytes ++ future).take (stop - t.consumed) =
      bytes ++ future.take (stop - (t.consumed + bytes.length)) := by
    rw [List.take_append, List.take_of_length_le (by omega), Nat.sub_sub]
  have hdrop : (bytes ++ future).drop (stop - t.consumed) =
      future.drop (stop - (t.consumed + bytes.length)) := by
    rw [List.drop_append, List.drop_of_length_le (by omega), Nat.sub_sub, List.nil_append]
  rw [forecast_of_content hphase, htake, hdrop, restOfLeaf_append, Transcript.after_append]
  congr 1
  -- Either nothing of the data is missing any more or the scan is still inside it.
  by_cases hover : stop ≤ t.consumed + bytes.length
  · obtain rfl := Nat.le_antisymm hle hover
    simp only [if_pos hover, Nat.sub_self, List.take_zero, List.drop_zero]
    rfl
  · simp only [if_neg hover]
    rfl

/-- What was forecast before a transition is what it reports and what is forecast after it. -/
theorem Transition.forecast_eq (h : Transition t bytes outcome t') (hco : t.Coherent)
    (future : Bytes) :
    t.forecast (bytes ++ future) =
      (t'.forecast future).after ((reported outcome).flatMap Event.bytewise) := by
  cases h with
  | closeExhausted hphase hempty hexhausted hstack =>
    simp only [Coherent, hphase] at hco
    -- No byte of a header was read, so the header would start where the masters end.
    have hstart : t.window.start = t.consumed := by
      simpa [HeaderWindow.stop, hempty] using hco.1
    simp only [forecast, hphase, List.nil_append]
    apply Place.transcript_of_exhausted hstack
    simpa [Place.isExhausted, place, isExhausted, hstart] using hexhausted
  | idLacking hphase _ _ hwaits =>
    have hphase' : (t.absorb bytes).phase = .id := hphase
    rw [reported_of_waits hwaits, forecast_waiting hphase']
    exact (readsOn_absorb (headerIndex_of_id hphase) bytes).forecast_eq future
  | idSpoilt hphase =>
    exact (readsOn_absorb (headerIndex_of_id hphase) bytes).forecast_eq future
  | idRead hphase =>
    rw [reported_moved, List.flatMap_nil, Transcript.after_nil]
    apply ReadsOn.forecast_eq
    exact ⟨headerIndex_of_id hphase, rfl, rfl, rfl, rfl⟩
  | sizeLacking hphase _ _ hwaits =>
    rw [reported_of_waits hwaits]
    exact (readsOn_absorb (headerIndex_of_size hphase) bytes).forecast_eq future
  | sizeSpoilt hphase =>
    exact (readsOn_absorb (headerIndex_of_size hphase) bytes).forecast_eq future
  | sizeRead hphase =>
    rw [reported_moved, List.flatMap_nil, Transcript.after_nil]
    apply ReadsOn.forecast_eq
    exact ⟨headerIndex_of_size hphase, rfl, rfl, rfl, rfl⟩
  | skip hphase hnone => exact hco.forecast_skip hphase hnone future
  | refuseUnresolved => rfl
  | refuseLeaf => rfl
  | closeLevel hphase hdecl hknown hstack hlevel =>
    exact hco.forecast_closeLevel hphase hdecl hknown hstack hlevel future
  | enterMaster hphase hdecl hmaster hstay =>
    exact hco.forecast_enterMaster hphase hdecl hmaster hstay future
  | enterLeaf hphase hdecl hleaf hstay =>
    exact hco.forecast_enterLeaf hphase hdecl hleaf hstay future
  | contentOver hphase hover =>
    simp only [Coherent, hphase] at hco
    obtain rfl := Nat.le_antisymm hco.2 hover
    rw [forecast_of_content hphase, Nat.sub_self]
    rfl
  | contentLacking _ _ hwaits =>
    rw [reported_of_waits hwaits]
    rfl
  | contentRead hphase _ hle => exact forecast_contentRead hphase hle future
  | finish hphase =>
    simp only [Coherent, hphase] at hco
    rw [forecast_atBoundary, forecast_of_finished hphase, restOfLeaf_nil, nextIndex_of_idNumber hco]
    rfl

theorem Trail.forecast_eq {events : List Event} (h : Trail t bytes events t') (hco : t.Coherent)
    (future : Bytes) :
    t.forecast (bytes ++ future) = (t'.forecast future).after (events.flatMap Event.bytewise) := by
  induction h with
  | refl => rfl
  | step hstep _ ih =>
    rw [List.append_assoc, hstep.forecast_eq hco, ih (hstep.coherent hco), List.flatMap_append,
      Transcript.after_append]

/-! ## Ends -/

/-- A scan that failed for what it read forecasts that failure and nothing else. -/
theorem Transition.forecast_of_error {e : ScanError} (h : Transition t bytes (.error e) t')
    (hco : t.Coherent) (hio : ∀ cause, e ≠ .io cause) (future : Bytes) :
    t'.forecast future = ⟨[], .error e⟩ := by
  -- What was wrong stays wrong with more bytes behind it, so the transcript stops there too.
  cases h with
  | idLacking _ _ _ hwaits =>
    cases hwaits
    exact absurd rfl (hio _)
  | idSpoilt hphase hfront herror =>
    have hcovered := hco.covered_of_id hphase hfront
    have hdec := Header.decode_of_id_error (splitField_append_error herror future)
    simp only [forecast, phase_absorb, hphase, place_absorb]
    apply Place.transcript_of_error (hcovered.not_exhausted _ _)
    rwa [List.append_assoc] at hdec
  | sizeLacking _ _ _ hwaits =>
    cases hwaits
    exact absurd rfl (hio _)
  | sizeSpoilt hphase hwindow herror =>
    obtain ⟨-, -, hcovered, hid, -⟩ := hco.of_size hphase hwindow
    have hsplit : splitSize (_ ++ bytes ++ future) = .error _ :=
      splitField_append_error herror future
    simp only [forecast, phase_absorb, hphase, place_absorb]
    apply Place.transcript_of_error (hcovered.not_exhausted _ _)
    show Header.decode (t.window.bytes ++ (bytes ++ future)) = _
    rw [hwindow, List.append_assoc, Header.decode_of_id hid, ← List.append_assoc, hsplit]
    rfl
  | refuseUnresolved hphase hnone =>
    obtain ⟨header, hheader, rfl, hsize, -, -⟩ := hco.hasHeader hphase future
    simp only [forecast, hphase]
    exact hheader.transcript_unresolved hnone hsize
  | refuseLeaf hphase hdecl hleaf =>
    obtain ⟨header, hheader, rfl, hsize, -, -⟩ := hco.hasHeader hphase future
    simp only [forecast, hphase]
    exact hheader.transcript_refuse hdecl hsize hleaf
  | contentLacking _ _ hwaits =>
    cases hwaits
    exact absurd rfl (hio _)

/-- If no bytes follow, a scan that lacks some is left with what closing reports. -/
theorem Lacking.forecast_nil (h : t.Lacking) (hco : t.Coherent) (hopen : t.closed = false) :
    t.forecast [] = ⟨t.close.1, .ok ()⟩ := by
  rw [close, if_neg (by simp [hopen])]
  unfold Lacking at h
  split at h
  · rename_i hphase
    have hfront : (t.place t.nextIndex []).isExhausted = false := by
      -- Before the first byte of a header the invariant says nothing about exhausted masters.
      by_cases hempty : t.window.bytes = []
      · have hnot := h.2.1 hempty
        simp only [Coherent, hphase, HeaderWindow.stop, hempty, List.length_nil] at hco
        simpa [Place.isExhausted, place, isExhausted, ← hco.1] using hnot
      · exact (hco.covered_of_id hphase h.2.1).not_exhausted _ _
    simp only [forecast, openLeaf?, hphase]
    apply Place.transcript_of_none hfront
    simpa [place] using h.1
  · rename_i hphase
    obtain ⟨index, rfl, -⟩ := hco.latest_of_size hphase
    simp only [Coherent, hphase] at hco
    simp only [forecast, openLeaf?, hphase]
    apply Place.transcript_of_none (hco.2.2.1.not_exhausted _ _)
    simpa [place] using h
  · rename_i leaf stop hphase
    simp only [forecast, openLeaf?, hphase, List.take_nil, List.drop_nil]
    rw [Place.transcript_nil rfl]
    cases leaf <;> rfl
  · exact h.elim

end Ebml.Scanner
