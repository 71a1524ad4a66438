import Ebml.Proofs.Scanner.Session

/-!
# Errors that last

What was read stays in the scanner. So a scanner that could not decode a header field decodes it again
in its next step, one that refused an element refuses it again, and neither needs the source for that.
A fatal error, that is one for which what was read is to blame, therefore leaves a scanner that gives
the same error whatever source it is shown (`Transition.refuses`), until it is closed
(`Session.eq_of_broken`).
-/

namespace Ebml

/-- What was read is to blame for the error: bytes that are no header field, or an element of unknown
length that must have a known one. -/
inductive ScanError.Fatal : ScanError → Prop
  | header (offset : Nat) (e : VintError) : Fatal (.header offset e)
  | unknownLengthLeaf (id : Nat) (name : String) (offset : Nat) :
      Fatal (.unknownLengthLeaf id name offset)
  | unknownLengthUnresolved (id offset : Nat) : Fatal (.unknownLengthUnresolved id offset)

theorem ScanError.Fatal.ne_io {e : ScanError} (h : e.Fatal) (cause : IoError) : e ≠ .io cause := by
  cases h <;> simp

namespace Scanner

/-- Whatever the source, the next step gives `e`, and neither scanner nor source changes. -/
def Refuses (t : Scanner) (e : ScanError) : Prop :=
  ∀ {σ : Type} [FiniteSource σ] (s : σ), step t s = ⟨.error e, t, s⟩

variable {t t' : Scanner} {bytes : Bytes} {e : ScanError}

/-! ## Header fields that are spoilt -/

/-- A field that the window holds spoilt is found spoilt without a look at the source. -/
theorem readField_of_spoilt {σ α : Type} [FiniteSource σ] {limit : Nat} {tooWide : Nat → VintError}
    {value : Bytes → α} {decode : Bytes → Except VintError (Option α)} {front sofar : Bytes}
    {cause : VintError}
    (hdecode : ∀ bytes, decode bytes = (splitField limit tooWide bytes).map (Option.map value))
    (hwindow : t.window.bytes = front ++ sofar)
    (hspoilt : splitField limit tooWide sofar = .error cause) (s : σ) :
    readField decode (t.window.start + front.length) t s =
      ⟨.error (.header t.window.start cause), t, s⟩ := by
  have hne : sofar ≠ [] := by
    rintro rfl
    simp [splitField_nil] at hspoilt
  have hdecoded : decode sofar = .error cause := by rw [hdecode, hspoilt]; rfl
  rw [readField, contains_front hwindow, if_pos (by simpa using hne), completeField,
    sliceFrom_front hwindow, hdecoded]

/-- A scanner whose window holds a spoilt id refuses to go on. -/
theorem refuses_of_spoilt_id {cause : VintError} (hphase : t.phase = .id)
    (hspoilt : splitId t.window.bytes = .error cause) :
    t.Refuses (.header t.window.start cause) := by
  intro σ _ s
  have hne : t.window.isEmpty = false := by
    cases hbytes : t.window.bytes with
    | nil => simp [hbytes, splitField_nil] at hspoilt
    | cons b rest => simp [HeaderWindow.isEmpty, hbytes]
  have hread := @readField_of_spoilt t σ _ _ _ _ _ decodeId [] _ cause decodeId_eq rfl hspoilt s
  rw [List.length_nil, Nat.add_zero] at hread
  simp only [step, hphase, stepId, hne, Bool.false_and, hread]

/-- A scanner whose window holds a spoilt size behind the id refuses to go on. -/
theorem refuses_of_spoilt_size {id index : Nat} {idField part : Bytes} {cause : VintError}
    (hphase : t.phase = .size id idField.length (some index))
    (hwindow : t.window.bytes = idField ++ part)
    (hspoilt : splitSize part = .error cause) : t.Refuses (.header t.window.start cause) := by
  intro σ _ s
  have hread := readField_of_spoilt decodeSize_eq hwindow hspoilt s
  simp only [step, hphase, stepSize, hread]

/-! ## What a fatal error leaves -/

/-- A step that fails, the source not being to blame, leaves a scanner that refuses to go on. -/
theorem Transition.refuses (h : Transition t bytes (.error e) t') (hio : ∀ cause, e ≠ .io cause) :
    t'.Refuses e := by
  cases h with
  | idLacking _ _ _ hwaits =>
    cases hwaits
    exact absurd rfl (hio _)
  | idSpoilt hphase _ hspoilt _ => exact @refuses_of_spoilt_id (t.absorb bytes) _ hphase hspoilt
  | sizeLacking _ _ _ hwaits =>
    cases hwaits
    exact absurd rfl (hio _)
  | sizeSpoilt hphase hwindow hspoilt _ =>
    exact @refuses_of_spoilt_size (t.absorb bytes) _ _ _ _ _ hphase (absorb_front hwindow _) hspoilt
  | refuseUnresolved hphase hnone =>
    intro σ _ s
    simp only [step, hphase, resolve, hnone]
    rfl
  | refuseLeaf hphase hdecl hleaf =>
    intro σ _ s
    simp [step, hphase, resolve, hdecl, hleaf, DataSize.isUnknown]
  | contentLacking _ _ hwaits =>
    cases hwaits
    exact absurd rfl (hio _)

/-- Inside data a step stalls or moves on over a source that holds nothing, so a scanner that refuses to
go on is in no leaf. -/
theorem Refuses.openLeaf?_eq (h : t.Refuses e) (hco : t.Coherent) : t.openLeaf? = none := by
  have hstep := congrArg Stepped.outcome (h ({} : PushSource))
  unfold openLeaf?
  split
  · rename_i leaf stop hphase
    obtain ⟨stop, rfl⟩ := hco.stop_of_content hphase
    have hready : (ByteSource.available ({} : PushSource)) = (.ok 0, {}) := rfl
    simp only [step, hphase, stepContent, readContent, hready, Nat.min_zero] at hstep
    split at hstep <;> simp at hstep
  · rename_i leaf hphase
    simp [step, hphase, finishLeaf] at hstep
  · rfl

/-- A scan that a fatal error ended and that was not closed. -/
structure Broken (t : Scanner) (e : ScanError) : Prop where
  coherent : t.Coherent
  refuses : t.Refuses e
  closed_eq : t.closed = false

/-- A run that ends in a fatal error leaves a broken scan, and the receiver was willing and had been
given all events when the error came. -/
theorem broken_run {σ κ : Type} [FiniteSource σ] {r : Receiver κ} {s : σ} {k : κ}
    (hco : t.Coherent) (hopen : t.closed = false) (h : (run r t s k).outcome = .error e)
    (hio : ∀ cause, e ≠ .io cause) :
    (run r t s k).scanner.Broken e ∧
      ∃ k', (r.poll k').1 = true ∧ (run r t s k).receiver = (r.poll k').2 := by
  obtain ⟨bytes, events, t', s', k', -, htrail, -, hend⟩ := run_spec r t s k hco
  generalize run r t s k = p at h hend
  cases hend with
  | paused => simp at h
  | stalled => simp at h
  | @failed e' hwilling houtcome =>
    obtain rfl : e' = e := Except.error.inj h
    have hco' := htrail.coherent hco
    obtain ⟨more, -, htransition⟩ := @step_transition σ _ t' s' hco'
    rw [houtcome] at htransition
    have hclosed := htransition.frame.closed_eq.trans (htrail.frame.closed_eq.trans hopen)
    exact ⟨⟨htransition.coherent hco', htransition.refuses hio, hclosed⟩, k', hwilling, rfl⟩

namespace Broken

/-- A willing receiver is told of the error at once and hears nothing else; no byte is taken. -/
theorem parse_eq {σ κ : Type} [FiniteSource σ] (h : t.Broken e) (r : Receiver κ) (s : σ) (k : κ) :
    parse r t s k = ⟨if (r.poll k).1 then .error e else .ok (), t, s, (r.poll k).2⟩ := by
  rw [parse, if_neg (by simp [h.closed_eq])]
  cases hpoll : r.poll k with
  | mk willing k' =>
    cases willing with
    | false => exact run_of_unwilling hpoll
    | true => rw [run_of_step hpoll, h.refuses s]; rfl

/-- Closing reports the ends of the open masters. -/
theorem close_eq (h : t.Broken e) : t.close.1 = finishAll t.stack := by
  simp [close, h.closed_eq, Refuses.openLeaf?_eq h.refuses h.coherent]

end Broken

/-- Nothing comes of a broken scan before it is closed. -/
theorem Session.eq_of_broken {start : Scanner} {log : List Event} (h : Session start log t)
    (hbroken : start.Broken e) (hopen : t.closed = false) : log = [] ∧ t = start := by
  induction h with
  | begin => exact ⟨rfl, rfl⟩
  | @parse σ κ _ r s k log t _ ih =>
    have hopen' : t.closed = false := by
      cases hclosed : t.closed with
      | false => rfl
      | true => rwa [parse_of_closed _ _ _ hclosed, hclosed] at hopen
    obtain ⟨rfl, rfl⟩ := ih hopen'
    rw [hbroken.parse_eq]
    exact ⟨callbacks_poll r _, rfl⟩
  | close _ _ => exact absurd ((closed_close _).symm.trans hopen) (by simp)

end Scanner

end Ebml
