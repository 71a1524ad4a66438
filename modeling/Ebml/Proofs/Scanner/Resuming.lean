import Ebml.Proofs.Scanner.Judging
import Ebml.Proofs.Scanner.Runs

/-!
# Headers that arrive in pieces

The bytes of a header may arrive in any pieces, and whenever the scan asks how many there are it may
be told any number: fewer than are left, or more. Reading is resumed as often as it stalls, until the
header is read or refused or the bytes are used up (`Scanner.readHeader`). Each step keeps the header
window and the bytes to come together equal to the bytes at the boundary (`Reading.step`), so reading
comes to what decoding all of them at once comes to (`readHeader_eq_decode`).
-/

namespace Ebml

/-! ## Bytes by schedule -/

/-- Bytes that become available by a schedule: the source answers the next number of the schedule
whenever it is asked how many bytes it has, and how many are left once the schedule is used up. -/
structure ScheduledSource where
  bytes : Bytes
  schedule : List Nat
  deriving DecidableEq, Repr

namespace ScheduledSource

/-- The next number of the schedule, or how many bytes are left. -/
def available (s : ScheduledSource) : Except IoError Nat × ScheduledSource :=
  match s.schedule with
  | [] => (.ok s.bytes.length, s)
  | n :: rest => (.ok n, { s with schedule := rest })

/-- The next byte. -/
def readByte (s : ScheduledSource) : Except IoError (Option UInt8) × ScheduledSource :=
  (.ok s.bytes.head?, { s with bytes := s.bytes.tail })

/-- Up to `n` bytes. -/
def readBytes (n : Nat) (s : ScheduledSource) : Except IoError Bytes × ScheduledSource :=
  (.ok (s.bytes.take n), { s with bytes := s.bytes.drop n })

theorem bytes_available (s : ScheduledSource) : s.available.2.bytes = s.bytes := by
  unfold available
  split <;> rfl

theorem length_readByte (s : ScheduledSource) :
    s.readByte.2.bytes.length + handedByte s.readByte.1 = s.bytes.length := by
  obtain ⟨bytes, schedule⟩ := s
  cases bytes <;> rfl

theorem length_readBytes_add (n : Nat) (s : ScheduledSource) :
    (s.readBytes n).2.bytes.length + handedBytes (s.readBytes n).1 = s.bytes.length := by
  rw [readBytes, handedBytes, Nat.add_comm, ← List.length_append, List.take_append_drop]

theorem schedule_available (s : ScheduledSource) : s.available.2.schedule = s.schedule.tail := by
  obtain ⟨bytes, schedule⟩ := s
  cases schedule <;> rfl

end ScheduledSource

instance : FiniteSource ScheduledSource where
  available := ScheduledSource.available
  readByte := ScheduledSource.readByte
  readBytes := ScheduledSource.readBytes
  eof s := (.ok s.bytes.isEmpty, s)
  remaining s := s.bytes.length
  length_readBytes n s bytes h := by
    obtain rfl := Except.ok.inj h
    exact List.length_take_le n s.bytes
  remaining_available s := Nat.le_of_eq (congrArg List.length s.bytes_available)
  remaining_readByte s := Nat.le_of_eq s.length_readByte
  remaining_readBytes n s := Nat.le_of_eq (s.length_readBytes_add n)
  remaining_eof _ := Nat.le_refl _

namespace ScheduledSource

variable {s s' : ScheduledSource}

/-- What is handed out comes off the front, and the schedule is only used up. -/
theorem bytes_of_hands {bytes : Bytes} (h : Hands s bytes s') :
    s.bytes = bytes ++ s'.bytes ∧ s'.schedule.length ≤ s.schedule.length := by
  induction h with
  | refl => exact ⟨rfl, Nat.le_refl _⟩
  | @available s' bytes _ ih =>
    change s.bytes = bytes ++ s'.available.2.bytes ∧ s'.available.2.schedule.length ≤ _
    rw [bytes_available, schedule_available, List.length_tail]
    exact ⟨ih.1, Nat.le_trans (Nat.sub_le _ _) ih.2⟩
  | eof _ ih => exact ih
  | @readByte s' bytes _ ih =>
    refine ⟨ih.1.trans ?_, ih.2⟩
    change bytes ++ s'.bytes = bytes ++ byteOf (.ok s'.bytes.head?) ++ s'.bytes.tail
    cases s'.bytes <;> simp [byteOf]
  | @readBytes s' bytes n _ ih =>
    refine ⟨ih.1.trans ?_, ih.2⟩
    change bytes ++ s'.bytes = bytes ++ s'.bytes.take n ++ s'.bytes.drop n
    rw [List.append_assoc, List.take_append_drop]

end ScheduledSource

namespace Scanner

/-! ## A stall uses up the schedule or the bytes -/

theorem takeBytes_scheduled (n : Nat) (s : ScheduledSource) :
    takeBytes n s = ⟨s.bytes.take n, none, { s with bytes := s.bytes.drop n }⟩ := by
  induction n generalizing s with
  | zero => rfl
  | succ n ih =>
    obtain ⟨bytes, schedule⟩ := s
    cases bytes with
    | nil => rfl
    | cons b rest =>
      have hread : ByteSource.readByte (⟨b :: rest, schedule⟩ : ScheduledSource) =
          (.ok (some b), ⟨rest, schedule⟩) := rfl
      simp only [takeBytes, hread, ih, List.take_succ_cons, List.drop_succ_cons]

/-- A number of the schedule was used up, or all the bytes. -/
def UsedUp (s s' : ScheduledSource) : Prop :=
  s'.schedule.length < s.schedule.length ∨ s'.bytes = []

theorem UsedUp.after {s s' s'' : ScheduledSource} (hreaches : Reaches s s') (h : UsedUp s' s'') :
    UsedUp s s'' := by
  obtain ⟨_, hhands⟩ := hreaches
  exact h.imp_left fun hlt => Nat.lt_of_lt_of_le hlt (ScheduledSource.bytes_of_hands hhands).2

/-- What came of operations that lead from `s` to `s'`: they never fail, and if they say that bytes
are lacking then something was used up. -/
def Asked {β : Type} (lacking : β) (s : ScheduledSource) (outcome : Except ScanError β)
    (s' : ScheduledSource) : Prop :=
  Judged UsedUp (fun _ _ _ => False) lacking s outcome s'

variable (t : Scanner) (s : ScheduledSource)

/-- If fewer bytes come than wanted, either the schedule promised too many or too few, or there were
no more. -/
theorem pull_scheduled (n : Nat) :
    (pull n s).failure = none ∧
      ((pull n s).bytes.length ≠ n → UsedUp s (pull n s).source) := by
  obtain ⟨bytes, schedule⟩ := s
  cases schedule with
  | nil =>
    have havailable : ByteSource.available (⟨bytes, []⟩ : ScheduledSource) =
        (.ok bytes.length, ⟨bytes, []⟩) := rfl
    simp only [pull, havailable, takeBytes_scheduled, List.length_take, true_and]
    exact fun hne => .inr (List.drop_eq_nil_of_le (by omega))
  | cons m rest =>
    have havailable : ByteSource.available (⟨bytes, m :: rest⟩ : ScheduledSource) =
        (.ok m, ⟨bytes, rest⟩) := rfl
    simp only [pull, havailable, takeBytes_scheduled, true_and]
    exact fun _ => .inl (Nat.lt_succ_self _)

theorem asked_fetch (wanted : Nat) :
    Asked false s (fetch wanted t s).outcome (fetch wanted t s).source := by
  obtain ⟨hnone, hshort⟩ := pull_scheduled s wanted
  have hreaches : Reaches s (pull wanted s).source := ⟨_, Hands.pull wanted s⟩
  unfold fetch
  simp only [hnone]
  split
  · exact .of_error hreaches (by simp)
  · exact ⟨hreaches, fun heq => hshort (of_decide_eq_false (Except.ok.inj heq)), by simp⟩

/-! ## Reading a header -/

/-- Whether an id or a size is being read. -/
def inHeader (t : Scanner) : Bool :=
  match t.phase with
  | .id => true
  | .size .. => true
  | _ => false

variable {t s}

theorem asked_step (h : t.inHeader = true) :
    Asked .stalled s (step t s).outcome (step t s).source := by
  unfold inHeader at h
  unfold step
  split at h <;> rename_i hphase
  · simp only [hphase]
    exact judged_stepId asked_fetch t s .after fun _ _ => id
  · simp only [hphase]
    exact judged_stepSize asked_fetch t s .after (fun _ _ => id) _ _ _
  · simp at h

/-- A step that moves on in a header brings it nearer to its end. -/
theorem nearer_of_moved {events : List Event} {t' : Scanner} {s' : ScheduledSource}
    (h : t.inHeader = true) (hstep : step t s = ⟨.ok (.moved events), t', s'⟩) :
    Prod.Lex (· < ·) (Prod.Lex (· < ·) (· < ·))
      (s'.bytes.length, s'.schedule.length, t'.rank)
      (s.bytes.length, s.schedule.length, t.rank) := by
  have hdecreases := @step_decreases _ _ t s events (by rw [hstep])
  obtain ⟨_, hhands⟩ := (asked_step (s := s) h).reaches
  simp only [hstep] at hdecreases hhands
  have hschedule := (ScheduledSource.bytes_of_hands hhands).2
  unfold Decreases at hdecreases
  change s'.bytes.length < s.bytes.length ∨ s'.bytes.length ≤ s.bytes.length ∧ _ at hdecreases
  simp only [Prod.lex_def]
  omega

/-- So does one that stalls while bytes are left. -/
theorem nearer_of_stalled {t' : Scanner} {s' : ScheduledSource} (h : t.inHeader = true)
    (hstep : step t s = ⟨.ok .stalled, t', s'⟩) (hleft : s'.bytes ≠ []) :
    Prod.Lex (· < ·) (Prod.Lex (· < ·) (· < ·))
      (s'.bytes.length, s'.schedule.length, t'.rank)
      (s.bytes.length, s.schedule.length, t.rank) := by
  have hasked := asked_step (s := s) h
  simp only [hstep] at hasked
  obtain ⟨_, hhands⟩ := hasked.reaches
  have hbytes := congrArg List.length (ScheduledSource.bytes_of_hands hhands).1
  have hschedule := (hasked.lacks rfl).resolve_right hleft
  simp only [List.length_append] at hbytes
  simp only [Prod.lex_def]
  omega

/-- Take steps until the header at hand is read or refused, or lacks bytes and none are left. A stall
before that is waited out. -/
def readHeader (t : Scanner) (s : ScheduledSource) : Stepped ScheduledSource :=
  if _hin : t.inHeader then
    match _hstep : step t s with
    | ⟨.error e, t', s'⟩ => ⟨.error e, t', s'⟩
    | ⟨.ok .stalled, t', s'⟩ =>
      if _hleft : s'.bytes = [] then ⟨.ok .stalled, t', s'⟩ else readHeader t' s'
    | ⟨.ok (.moved _), t', s'⟩ => readHeader t' s'
  else ⟨.ok (.moved []), t, s⟩
termination_by (s.bytes.length, s.schedule.length, t.rank)
decreasing_by
  · exact nearer_of_stalled _hin _hstep _hleft
  · exact nearer_of_moved _hin _hstep

/-! ## What a step in a header does -/

section

variable {t' : Scanner} {bytes : Bytes} {outcome : Except ScanError Progress}

/-- In a header all bytes go to its window. -/
theorem Transition.window_of_header (h : Transition t bytes outcome t') (hin : t.inHeader = true) :
    t'.headerIndex?.isSome ∧ t'.window.start = t.window.start ∧
      t'.window.bytes = t.window.bytes ++ bytes := by
  unfold inHeader at hin
  cases h <;> simp_all [headerIndex?, absorb, waiting]

/-- A header is refused for a fault that all bytes from its start have, whatever follows. -/
theorem Transition.decode_of_error {e : ScanError} (h : Transition t bytes (.error e) t')
    (hco : t.Coherent) (hin : t.inHeader = true) (hio : ∀ cause, e ≠ .io cause) (rest : Bytes) :
    ∃ cause, e = .header t.window.start cause ∧
      Header.decode (t'.window.bytes ++ rest) = .error cause := by
  unfold inHeader at hin
  -- Only a field that is spoilt is an error of the bytes. The other errors are those of the source,
  -- or come when the header is complete.
  cases h with
  | idLacking _ _ _ hwaits =>
    cases hwaits with
    | failed cause => exact absurd rfl (hio cause)
  | idSpoilt _ _ herror =>
    exact ⟨_, rfl, Header.decode_of_id_error (splitField_append_error herror rest)⟩
  | sizeLacking _ _ _ hwaits =>
    cases hwaits with
    | failed cause => exact absurd rfl (hio cause)
  | @sizeSpoilt id index idField part _ e hphase hwindow herror =>
    obtain ⟨-, -, -, hid, -⟩ := hco.of_size hphase hwindow
    refine ⟨_, rfl, ?_⟩
    have hspoilt : splitSize (part ++ bytes ++ rest) = .error e :=
      splitField_append_error herror rest
    rw [absorb_front hwindow, List.append_assoc, Header.decode_of_id hid, hspoilt]
    rfl
  | refuseUnresolved hphase => simp [hphase] at hin
  | refuseLeaf hphase => simp [hphase] at hin
  | contentLacking hphase => simp [hphase] at hin

/-- What lacks bytes in a header has no header yet. -/
theorem Lacking.decode_eq (h : t.Lacking) (hbefore : t.headerIndex?.isSome) :
    Header.decode t.window.bytes = .ok none := by
  unfold headerIndex? at hbefore
  unfold Lacking at h
  split at h <;> simp_all

end

/-- A header of which some bytes were read: with those to come they are the bytes from its start. -/
structure Reading (b : Bytes) (start : Nat) (t : Scanner) (s : ScheduledSource) : Prop where
  coherent : t.Coherent
  before_start : t.headerIndex?.isSome
  start_eq : t.window.start = start
  joined : t.window.bytes ++ s.bytes = b

namespace Reading

variable {b : Bytes} {start : Nat}

theorem atBoundary (t : Scanner) (b : Bytes) (schedule : List Nat) :
    Reading b t.consumed t.atBoundary ⟨b, schedule⟩ :=
  ⟨coherent_atBoundary t, rfl, rfl, rfl⟩

theorem consumed_eq (h : Reading b start t s) : t.consumed = start + t.window.bytes.length := by
  have hco := h.coherent
  have hbefore := h.before_start
  rw [← h.start_eq]
  unfold Coherent at hco
  unfold headerIndex? at hbefore
  split at hco <;> simp_all [HeaderWindow.stop]

/-- One step: an error is that of decoding all the bytes, a stall lacks bytes for a header, and
otherwise reading goes on. -/
theorem step (h : Reading b start t s) (hin : t.inHeader = true) :
    match Scanner.step t s with
    | ⟨.error e, _, _⟩ => ∃ cause, e = .header start cause ∧ Header.decode b = .error cause
    | ⟨.ok .stalled, t', s'⟩ =>
      Reading b start t' s' ∧ Header.decode t'.window.bytes = .ok none
    | ⟨.ok (.moved _), t', s'⟩ => Reading b start t' s' := by
  obtain ⟨bytes, hhands, htransition⟩ := @step_transition _ _ t s h.coherent
  have hne := (asked_step (s := s) hin).fails
  generalize Scanner.step t s = stepped at hhands htransition hne ⊢
  obtain ⟨outcome, t', s'⟩ := stepped
  obtain ⟨hsource, -⟩ := ScheduledSource.bytes_of_hands hhands
  obtain ⟨hbefore, hstart, hwindow⟩ := htransition.window_of_header hin
  -- The bytes taken went from the schedule to the window, so together they are what they were.
  have hjoined : t'.window.bytes ++ s'.bytes = b := by
    rw [hwindow, List.append_assoc, ← hsource]
    exact h.joined
  have hreading : Reading b start t' s' :=
    ⟨htransition.coherent h.coherent, hbefore, hstart.trans h.start_eq, hjoined⟩
  match outcome with
  | .error e =>
    have hio (cause : IoError) (heq : e = .io cause) : False := hne cause (by rw [heq])
    obtain ⟨cause, rfl, hdec⟩ := htransition.decode_of_error h.coherent hin hio s'.bytes
    rw [hjoined] at hdec
    exact ⟨cause, by rw [h.start_eq], hdec⟩
  | .ok .stalled =>
    exact ⟨hreading, (htransition.lacking h.coherent).decode_eq hbefore⟩
  | .ok (.moved _) => exact hreading

end Reading

/-! ## What reading a header comes to -/

/-- The header `h` of `used` bytes at the front of `b` was read, and nothing behind it. -/
structure HasRead (b : Bytes) (start : Nat) (h : Header) (used : Nat) (t : Scanner)
    (s : ScheduledSource) : Prop where
  phase_eq : ∃ index, t.phase = .resolve h.id h.size (some index)
  width_eq : ∃ idWidth, decodeId t.window.bytes = .ok (some (h.id, idWidth)) ∧
    h.sizeWidth = some (used - idWidth)
  window_eq : t.window = ⟨start, b.take used⟩
  length_eq : t.window.bytes.length = used
  consumed_eq : t.consumed = start + used
  rest_eq : s.bytes = b.drop used

section

variable {b : Bytes} {start used used' : Nat} {h h' : Header}

/-- A header that was read is the one that the bytes from its start decode to. -/
theorem Reading.hasRead (hreading : Reading b start t s) (hout : t.inHeader = false) :
    ∃ h used, Header.decode b = .ok (some (h, used)) ∧ HasRead b start h used t s := by
  have hconsumed := hreading.consumed_eq
  obtain ⟨hco, hbefore, hstart, hjoined⟩ := hreading
  unfold inHeader at hout
  unfold headerIndex? at hbefore
  -- Of the phases in front of an element only the one that has both its fields is out of the
  -- header.
  split at hbefore <;> rename_i hphase
  · simp [hphase] at hout
  · simp [hphase] at hout
  · rename_i id size number
    obtain ⟨index, rfl, -⟩ := hco.latest_of_resolve hphase
    simp only [Coherent, hphase] at hco
    obtain ⟨-, -, -, idField, sizeField, hwindow, hid, hsize, rfl, rfl⟩ := hco
    rw [hwindow] at hjoined hconsumed
    have hused : (idField ++ sizeField).length = idField.length + sizeField.length :=
      List.length_append
    refine ⟨.ofFields idField sizeField, (idField ++ sizeField).length, ?_, ⟨index, hphase⟩,
      ⟨idField.length, ?_, ?_⟩, ?_, by rw [hwindow], hconsumed, ?_⟩
    · rw [← hjoined]
      exact Header.decode_fields hid hsize s.bytes
    · rw [hwindow, decodeId_eq, splitId_append hid]
      rfl
    · rw [hused, Nat.add_sub_cancel_left]
      rfl
    · rw [← hjoined, List.take_left, ← hstart, ← hwindow]
    · rw [← hjoined, List.drop_left]
  · simp at hbefore

/-- One scan has read one header. -/
theorem HasRead.unique (hread : HasRead b start h used t s) (hread' : HasRead b start h' used' t s) :
    h = h' ∧ used = used' := by
  obtain ⟨index, hphase⟩ := hread.phase_eq
  obtain ⟨index', hphase'⟩ := hread'.phase_eq
  obtain ⟨hid, hsize, -⟩ := Phase.resolve.inj (hphase.symm.trans hphase')
  obtain ⟨idWidth, hdec, hwidth⟩ := hread.width_eq
  obtain ⟨idWidth', hdec', hwidth'⟩ := hread'.width_eq
  obtain ⟨-, rfl⟩ := Prod.mk.inj (Option.some.inj (Except.ok.inj (hdec.symm.trans hdec')))
  have hused : used = used' := hread.length_eq.symm.trans hread'.length_eq
  have hsizeWidth : h.sizeWidth = h'.sizeWidth := by rw [hwidth, hwidth', hused]
  cases h
  cases h'
  simp_all

/-- How reading a header settles, by what the bytes from its start decode to. -/
inductive Settles (b : Bytes) (start : Nat) : Stepped ScheduledSource → Prop
  | read {h : Header} {used : Nat} {t : Scanner} {s : ScheduledSource} :
      Header.decode b = .ok (some (h, used)) → HasRead b start h used t s →
        Settles b start ⟨.ok (.moved []), t, s⟩
  | refused {e : VintError} {t : Scanner} {s : ScheduledSource} :
      Header.decode b = .error e → Settles b start ⟨.error (.header start e), t, s⟩
  | lacking {t : Scanner} {s : ScheduledSource} :
      Header.decode b = .ok none → Reading b start t s → s.bytes = [] →
        Settles b start ⟨.ok .stalled, t, s⟩

theorem Reading.settles (hreading : Reading b start t s) : Settles b start (t.readHeader s) := by
  -- Each round keeps the window and what is left of the schedule together as `b`.
  fun_induction readHeader t s with
  | case1 t s hin e t' s' hstep =>
    have hspec := hreading.step hin
    rw [hstep] at hspec
    obtain ⟨cause, rfl, hdec⟩ := hspec
    exact .refused hdec
  | case2 t s hin t' s' hstep hleft =>
    have hspec := hreading.step hin
    rw [hstep] at hspec
    obtain ⟨hreading', hdec⟩ := hspec
    have hall : t'.window.bytes = b := by
      rw [← hreading'.joined, hleft, List.append_nil]
    exact .lacking (hall ▸ hdec) hreading' hleft
  | case3 t s hin t' s' hstep hleft ih =>
    have hspec := hreading.step hin
    rw [hstep] at hspec
    exact ih hspec.1
  | case4 t s hin event t' s' hstep ih =>
    have hspec := hreading.step hin
    rw [hstep] at hspec
    exact ih hspec
  | case5 t s hin =>
    obtain ⟨h, used, hdec, hread⟩ := hreading.hasRead (by simpa using hin)
    exact .read hdec hread

/-- Where all bytes are in the window, they are what it holds. -/
theorem Reading.window_eq (hreading : Reading b start t s) (hnone : s.bytes = []) :
    t.window = ⟨start, b⟩ := by
  have hjoined := hreading.joined
  rw [hnone, List.append_nil] at hjoined
  rw [← hreading.start_eq, ← hjoined]

/-- A stall for want of bytes lasts until there are more, whatever the source announces. -/
theorem Reading.stays (hreading : Reading b start t s) (hnone : s.bytes = [])
    (hdec : Header.decode b = .ok none) (later : List Nat) :
    (t.readHeader ⟨[], later⟩).outcome = .ok .stalled ∧
      (t.readHeader ⟨[], later⟩).scanner.window = ⟨start, b⟩ := by
  have hagain : Reading b start t ⟨[], later⟩ :=
    ⟨hreading.coherent, hreading.before_start, hreading.start_eq, by
      rw [← hnone]; exact hreading.joined⟩
  have hsettles := hagain.settles
  generalize t.readHeader ⟨[], later⟩ = p at hsettles ⊢
  cases hsettles with
  | read hdec' => simp [hdec] at hdec'
  | refused hdec' => simp [hdec] at hdec'
  | lacking _ hreading' hnone' => exact ⟨rfl, hreading'.window_eq hnone'⟩

end

/-- However the bytes behind a boundary become available, reading them as a header comes to what
decoding all of them at once comes to: the same header with its bytes taken and no other, the same
fault, or, for want of bytes, a stall that lasts. -/
theorem readHeader_eq_decode (t : Scanner) (b : Bytes) (schedule : List Nat) :
    let p := t.atBoundary.readHeader ⟨b, schedule⟩
    (∀ h used, Header.decode b = .ok (some (h, used)) ↔
      p.outcome = .ok (.moved []) ∧ HasRead b t.consumed h used p.scanner p.source) ∧
    (∀ e, Header.decode b = .error e ↔ p.outcome = .error (.header t.consumed e)) ∧
    (Header.decode b = .ok none ↔
      p.outcome = .ok .stalled ∧ p.scanner.window = ⟨t.consumed, b⟩ ∧
        p.scanner.consumed = t.consumed + b.length ∧ p.source.bytes = [] ∧
        ∀ later, (p.scanner.readHeader ⟨[], later⟩).outcome = .ok .stalled ∧
          (p.scanner.readHeader ⟨[], later⟩).scanner.window = ⟨t.consumed, b⟩) := by
  intro p
  have hsettles : Settles b t.consumed p := (Reading.atBoundary t b schedule).settles
  generalize p = settled at hsettles ⊢
  cases hsettles with
  | @read h used t' s' hdec hread =>
    refine ⟨fun h' used' => ⟨fun hdec' => ?_, fun ⟨_, hread'⟩ => ?_⟩, by simp [hdec], by simp [hdec]⟩
    · obtain ⟨rfl, rfl⟩ : h = h' ∧ used = used' := by simpa [hdec] using hdec'
      exact ⟨rfl, hread⟩
    · obtain ⟨rfl, rfl⟩ := hread.unique hread'
      exact hdec
  | refused hdec => exact ⟨by simp [hdec], by simp [hdec], by simp [hdec]⟩
  | lacking hdec hreading hnone =>
    have hwindow := hreading.window_eq hnone
    refine ⟨by simp [hdec], by simp [hdec], fun _ => ⟨rfl, hwindow, ?_, hnone, ?_⟩, fun _ => hdec⟩
    · rw [hreading.consumed_eq, hwindow]
    · exact hreading.stays hnone hdec

end Scanner

end Ebml
