import Ebml.Proofs.Scanner.Fetching

/-!
# What a step can do

`Transition t bytes outcome t'` lists everything that one step can make of a scanner, with the bytes
it takes. No source is mentioned: which bytes come, and whether a lack of bytes shows as a stall or
as a failure, is all that a source decides (`step_transition`). What is proved about transitions
therefore holds over every source and however it answers.

Between steps the header window and the phase tell the same story (`Coherent`): the window holds what
was read of the header, no more, and no open master ends before a header that was begun.
-/

namespace Ebml.Scanner

/-! ## The invariant -/

/-- No open master ends at or before the first byte of the current element. -/
def Covered (t : Scanner) : Prop :=
  ∀ m ∈ t.stack, ∀ stop, m.stop? = some stop → t.window.start < stop

/-- The element whose id is being read has the latest number or none. It has none before a byte of
the id is held, none if the id is spoilt, and perhaps none after a source failed. -/
structure NumberHeld (t : Scanner) : Prop where
  latest : ∀ n, t.idNumber = some n → t.window.bytes ≠ [] ∧ t.given = n + 1
  spoilt : ∀ e, splitId t.window.bytes = .error e → t.idNumber = none

/-- The element of the latest number has its id read. -/
def Numbered (t : Scanner) (index : Nat) : Prop :=
  t.idNumber = none ∧ t.given = index + 1

theorem nextIndex_of_idNumber {t : Scanner} (h : t.idNumber = none) : t.nextIndex = t.given := by
  rw [nextIndex, h]
  rfl

theorem Numbered.nextIndex_eq {t : Scanner} {index : Nat} (h : t.Numbered index) :
    t.nextIndex = index + 1 :=
  (nextIndex_of_idNumber h.1).trans h.2

/-- Without a byte of its id the element has no number. -/
theorem NumberHeld.idNumber_of_nil {t : Scanner} (h : t.NumberHeld) (hempty : t.window.bytes = []) :
    t.idNumber = none := by
  cases hnumber : t.idNumber with
  | none => rfl
  | some n => exact absurd hempty (h.latest n hnumber).1

/-- With a byte of its id held, the element has a number in the end. -/
theorem number_of_held {t : Scanner} (h : t.NumberHeld) (hne : t.window.bytes ≠ []) :
    t.number.idNumber = some t.nextIndex ∧ t.number.given = t.nextIndex + 1 := by
  have hheld : t.window.isEmpty = false := by simpa [HeaderWindow.isEmpty] using hne
  cases hnumber : t.idNumber with
  | none => simp [number, nextIndex, hnumber, hheld]
  | some n => simp [number, nextIndex, hnumber, (h.latest n hnumber).2]

theorem NumberHeld.absorb {t : Scanner} (h : t.NumberHeld) (bytes : Bytes) :
    (t.absorb bytes).NumberHeld where
  latest n hn := ⟨by simp [(h.latest n hn).1], (h.latest n hn).2⟩
  spoilt e he := by
    by_cases hempty : t.window.bytes = []
    · exact h.idNumber_of_nil hempty
    · exact h.spoilt e (splitField_front_of_error hempty he)

theorem NumberHeld.number {t : Scanner} (h : t.NumberHeld) (hnone : splitId t.window.bytes = .ok none) :
    t.number.NumberHeld where
  latest n hn := by
    by_cases hempty : t.window.bytes = []
    · simp [Scanner.number, HeaderWindow.isEmpty, hempty, h.idNumber_of_nil hempty] at hn
    · obtain ⟨hnumber, hgiven⟩ := number_of_held h hempty
      obtain rfl := Option.some.inj (hnumber.symm.trans hn)
      exact ⟨hempty, hgiven⟩
  spoilt e he := absurd (hnone.symm.trans he) (by simp)

/-- Phase, window and counts of an open scan fit together. Once its id is read an element has a
number, and its data has an end. -/
def Coherent (t : Scanner) : Prop :=
  match t.phase with
  | .id =>
    t.window.stop = t.consumed ∧ (∀ field, splitId t.window.bytes ≠ .ok (some field)) ∧
      (t.window.bytes ≠ [] → t.Covered) ∧ t.NumberHeld
  | .size id idWidth (some index) =>
    t.window.stop = t.consumed ∧ t.Numbered index ∧ t.Covered ∧
      ∃ idField part, t.window.bytes = idField ++ part ∧ IsIdField idField ∧ id = beNat idField ∧
        idWidth = idField.length ∧ ∀ field, splitSize part ≠ .ok (some field)
  | .resolve id size (some index) =>
    t.window.stop = t.consumed ∧ t.Numbered index ∧ t.Covered ∧
      ∃ idField sizeField, t.window.bytes = idField ++ sizeField ∧ IsIdField idField ∧
        IsSizeField sizeField ∧ id = beNat idField ∧ size = .ofField sizeField
  | .content _ (some stop) => t.idNumber = none ∧ t.consumed ≤ stop
  | .finished _ => t.idNumber = none
  | .size _ _ none => False
  | .resolve _ _ none => False
  | .content _ none => False

/-- What has its id read has the latest number. -/
theorem Coherent.latest_of_size {t : Scanner} {id idWidth : Nat} {number : Option Nat}
    (h : t.Coherent) (hphase : t.phase = .size id idWidth number) :
    ∃ index, number = some index ∧ t.given = index + 1 := by
  cases number with
  | none => simp [Coherent, hphase] at h
  | some index =>
    simp only [Coherent, hphase] at h
    exact ⟨index, rfl, h.2.1.2⟩

theorem Coherent.latest_of_resolve {t : Scanner} {id : Nat} {size : DataSize} {number : Option Nat}
    (h : t.Coherent) (hphase : t.phase = .resolve id size number) :
    ∃ index, number = some index ∧ t.given = index + 1 := by
  cases number with
  | none => simp [Coherent, hphase] at h
  | some index =>
    simp only [Coherent, hphase] at h
    exact ⟨index, rfl, h.2.1.2⟩

/-- Data that is read ends somewhere. -/
theorem Coherent.stop_of_content {t : Scanner} {leaf : Option Occurrence} {stop? : Option Nat}
    (h : t.Coherent) (hphase : t.phase = .content leaf stop?) : ∃ stop, stop? = some stop := by
  cases stop? with
  | none => simp [Coherent, hphase] at h
  | some stop => exact ⟨stop, rfl⟩

/-! ## Transitions -/

/-- A step that waits stalls or reports that the source failed. -/
inductive Waits : Except ScanError Progress → Prop
  | stalled : Waits (.ok .stalled)
  | failed (e : IoError) : Waits (.error (.io e))

/-- A scanner that waits for more of an id. Only a source that failed keeps it from numbering the
element. -/
def waiting (outcome : Except ScanError Progress) (t : Scanner) : Scanner :=
  { t with
    idNumber := if outcome.isOk then t.number.idNumber else t.idNumber
    given := if outcome.isOk then t.number.given else t.given }

theorem waiting_stalled (t : Scanner) : waiting (.ok .stalled) t = t.number := rfl

@[simp] theorem nextIndex_waiting (outcome : Except ScanError Progress) (t : Scanner) :
    (waiting outcome t).nextIndex = t.nextIndex := by
  cases outcome with
  | error => rfl
  | ok => exact nextIndex_number t

theorem NumberHeld.waiting {t : Scanner} (h : t.NumberHeld)
    (hnone : splitId t.window.bytes = .ok none) (outcome : Except ScanError Progress) :
    (waiting outcome t).NumberHeld := by
  cases outcome with
  | error => exact h
  | ok => exact h.number hnone

/-- What a step can do to a scanner: the bytes it takes, how it ends and what it leaves. -/
inductive Transition : Scanner → Bytes → Except ScanError Progress → Scanner → Prop
  /-- At a boundary an open master is exhausted: the innermost one ends. -/
  | closeExhausted {t : Scanner} {m : OpenMaster} {rest : List OpenMaster} :
      t.phase = .id → t.window.bytes = [] → t.isExhausted = true → t.stack = m :: rest →
        Transition t [] (.ok (.moved [.finish m.element (pathOf rest)])) { t with stack := rest }
  | idLacking {t : Scanner} {bytes : Bytes} {outcome : Except ScanError Progress} :
      t.phase = .id → (t.window.bytes = [] → t.isExhausted = false) →
        splitId (t.window.bytes ++ bytes) = .ok none → Waits outcome →
          Transition t bytes outcome ((t.absorb bytes).waiting outcome)
  | idSpoilt {t : Scanner} {bytes : Bytes} {e : VintError} :
      t.phase = .id → (t.window.bytes = [] → t.isExhausted = false) →
        splitId (t.window.bytes ++ bytes) = .error e →
          (bytes = [] ∨ t.window.bytes = [] ∧ bytes.length = 1) →
            Transition t bytes (.error (.header t.window.start e)) (t.absorb bytes)
  | idRead {t : Scanner} {bytes : Bytes} :
      t.phase = .id → (t.window.bytes = [] → t.isExhausted = false) →
        IsIdField (t.window.bytes ++ bytes) →
          Transition t bytes (.ok (.moved []))
            { t.absorb bytes with
              phase := .size (beNat (t.window.bytes ++ bytes)) (t.window.bytes ++ bytes).length
                (some t.nextIndex)
              idNumber := none
              given := t.nextIndex + 1 }
  | sizeLacking {t : Scanner} {id index : Nat} {idField part bytes : Bytes}
      {outcome : Except ScanError Progress} :
      t.phase = .size id idField.length (some index) → t.window.bytes = idField ++ part →
        splitSize (part ++ bytes) = .ok none → Waits outcome →
          Transition t bytes outcome (t.absorb bytes)
  | sizeSpoilt {t : Scanner} {id index : Nat} {idField part bytes : Bytes} {e : VintError} :
      t.phase = .size id idField.length (some index) → t.window.bytes = idField ++ part →
        splitSize (part ++ bytes) = .error e → (bytes = [] ∨ part = [] ∧ bytes.length = 1) →
          Transition t bytes (.error (.header t.window.start e)) (t.absorb bytes)
  | sizeRead {t : Scanner} {id index : Nat} {idField part bytes : Bytes} :
      t.phase = .size id idField.length (some index) → t.window.bytes = idField ++ part →
        IsSizeField (part ++ bytes) →
          Transition t bytes (.ok (.moved []))
            { t.absorb bytes with phase := .resolve id (.ofField (part ++ bytes)) (some index) }
  /-- An element outside the schema is skipped. -/
  | skip {t : Scanner} {id n index : Nat} :
      t.phase = .resolve id (.known n) (some index) → t.schema.get? id = none →
        Transition t [] (.ok (.moved []))
          { t with phase := .content none (some (t.window.stop + n)) }
  | refuseUnresolved {t : Scanner} {id index : Nat} :
      t.phase = .resolve id .unknown (some index) → t.schema.get? id = none →
        Transition t [] (.error (.unknownLengthUnresolved id t.window.start)) t
  | refuseLeaf {t : Scanner} {id index : Nat} {decl : ElementDecl} :
      t.phase = .resolve id .unknown (some index) → t.schema.get? id = some decl →
        decl.isMaster = false →
          Transition t [] (.error (.unknownLengthLeaf id decl.name t.window.start)) t
  /-- The element that is about to start ends the innermost master. -/
  | closeLevel {t : Scanner} {id index : Nat} {size : DataSize} {decl : ElementDecl}
      {m : OpenMaster} {rest : List OpenMaster} :
      t.phase = .resolve id size (some index) → t.schema.get? id = some decl →
        (size.isUnknown && !decl.isMaster) = false → t.stack = m :: rest →
          t.closesByLevel decl m = true →
            Transition t [] (.ok (.moved [.finish m.element (pathOf rest)]))
              { t with stack := rest }
  | enterMaster {t : Scanner} {id index : Nat} {size : DataSize} {decl : ElementDecl} :
      t.phase = .resolve id size (some index) → t.schema.get? id = some decl → decl.isMaster = true →
        (∀ m ∈ t.stack.head?, t.closesByLevel decl m = false) →
          Transition t [] (.ok (.moved [.start ⟨decl, index⟩ size t.window.bytes t.path]))
            { t with stack := ⟨⟨decl, index⟩, t.window.stop, size⟩ :: t.stack }.atBoundary
  | enterLeaf {t : Scanner} {id n index : Nat} {decl : ElementDecl} :
      t.phase = .resolve id (.known n) (some index) → t.schema.get? id = some decl →
        decl.isMaster = false → (∀ m ∈ t.stack.head?, t.closesByLevel decl m = false) →
          Transition t []
            (.ok (.moved [.start ⟨decl, index⟩ (.known n) t.window.bytes t.path]))
            { t with phase := .content (some ⟨decl, index⟩) (some (t.window.stop + n)) }
  | contentOver {t : Scanner} {leaf : Option Occurrence} {stop : Nat} :
      t.phase = .content leaf (some stop) → stop ≤ t.consumed →
        Transition t [] (.ok (.moved [])) { t with phase := .finished leaf }
  | contentLacking {t : Scanner} {leaf : Option Occurrence} {stop : Nat}
      {outcome : Except ScanError Progress} :
      t.phase = .content leaf (some stop) → t.consumed < stop → Waits outcome → Transition t [] outcome t
  | contentRead {t : Scanner} {leaf : Option Occurrence} {stop : Nat} {chunk : Bytes} :
      t.phase = .content leaf (some stop) → chunk ≠ [] → t.consumed + chunk.length ≤ stop →
        Transition t chunk (.ok (.moved (leaf.map (.content · chunk)).toList))
          { t with
            consumed := t.consumed + chunk.length
            phase := if stop ≤ t.consumed + chunk.length then .finished leaf
              else .content leaf (some stop) }
  | finish {t : Scanner} {leaf : Option Occurrence} :
      t.phase = .finished leaf →
        Transition t [] (.ok (.moved (leaf.map (.finish · t.path)).toList)) t.atBoundary

/-! ## Every step is a transition -/

section

variable {σ : Type} [ByteSource σ] {t : Scanner} {s : σ}

theorem stepId_transition (hphase : t.phase = .id) (h : t.Coherent) :
    ∃ bytes, Hands s bytes (stepId t s).source ∧
      Transition t bytes (stepId t s).outcome (stepId t s).scanner := by
  simp only [Coherent, hphase] at h
  obtain ⟨-, hopen, -, hheld⟩ := h
  unfold stepId
  split
  · rename_i m rest hcond hstack
    simp only [HeaderWindow.isEmpty, Bool.and_eq_true, List.isEmpty_iff] at hcond
    exact ⟨[], .refl s, .closeExhausted hphase hcond.1 hcond.2 hstack⟩
  · rename_i hnot
    -- The step looks for an exhausted master only where there is a master.
    have hfront : t.window.bytes = [] → t.isExhausted = false := by
      intro hempty
      cases hstack : t.stack with
      | nil => simp [isExhausted, hstack]
      | cons m rest =>
        cases hexhausted : t.isExhausted with
        | false => rfl
        | true => exact (hnot m rest (by simp [HeaderWindow.isEmpty, hempty, hexhausted]) hstack).elim
    obtain ⟨bytes, outcome, s', hhands, hread, hresult⟩ :=
      @readField_reads σ _ _ t s maxIdWidth .idTooWide (fun f => (beNat f, f.length)) decodeId []
        t.window.bytes decodeId_eq (by decide) (by decide) rfl hopen
    rw [List.length_nil, Nat.add_zero] at hread
    rw [hread]
    refine ⟨bytes, ?_⟩
    cases hresult with
    | spoilt he hfirst => exact ⟨hhands, .idSpoilt hphase hfront he hfirst⟩
    | lacking hnone => exact ⟨hhands, .idLacking hphase hfront hnone .stalled⟩
    | failing e hnone => exact ⟨hhands, .idLacking hphase hfront hnone (.failed e)⟩
    | complete hfield =>
      refine ⟨hhands, ?_⟩
      have hread := Transition.idRead hphase hfront hfield
      obtain ⟨hnumber, hgiven⟩ := number_of_held (NumberHeld.absorb hheld bytes) hfield.ne_nil
      change _ = t.nextIndex + 1 at hgiven
      change _ = some t.nextIndex at hnumber
      rwa [← hgiven, ← hnumber] at hread

theorem stepSize_transition {id idWidth index : Nat}
    (hphase : t.phase = .size id idWidth (some index)) (h : t.Coherent) :
    ∃ bytes, Hands s bytes (stepSize id idWidth (some index) t s).source ∧
      Transition t bytes (stepSize id idWidth (some index) t s).outcome
        (stepSize id idWidth (some index) t s).scanner := by
  simp only [Coherent, hphase] at h
  obtain ⟨-, -, -, idField, part, hwindow, hid, -, rfl, hopen⟩ := h
  have hroom : idField.length + maxSizeWidth ≤ maxHeaderLength := by
    have := hid.le_limit
    unfold maxHeaderLength
    omega
  unfold stepSize
  obtain ⟨bytes, outcome, s', hhands, hread, hresult⟩ :=
    @readField_reads σ _ _ t s maxSizeWidth .sizeTooWide (fun f => (DataSize.ofField f, f.length))
      decodeSize idField part decodeSize_eq (by decide) hroom hwindow hopen
  rw [hread]
  refine ⟨bytes, ?_⟩
  cases hresult with
  | spoilt he hfirst => exact ⟨hhands, .sizeSpoilt hphase hwindow he hfirst⟩
  | lacking hnone => exact ⟨hhands, .sizeLacking hphase hwindow hnone .stalled⟩
  | failing e hnone => exact ⟨hhands, .sizeLacking hphase hwindow hnone (.failed e)⟩
  | complete hfield => exact ⟨hhands, .sizeRead hphase hwindow hfield⟩

theorem start_transition {id index : Nat} {size : DataSize} {decl : ElementDecl}
    (hphase : t.phase = .resolve id size (some index)) (hdecl : t.schema.get? id = some decl)
    (hknown : (size.isUnknown && !decl.isMaster) = false)
    (hstay : ∀ m ∈ t.stack.head?, t.closesByLevel decl m = false) :
    Transition t [] (t.start decl size (some index)).1 (t.start decl size (some index)).2 := by
  simp only [start, enter]
  cases hmaster : decl.isMaster with
  | true => exact .enterMaster hphase hdecl hmaster hstay
  | false =>
    cases size with
    | unknown => simp [DataSize.isUnknown, hmaster] at hknown
    | known n => exact .enterLeaf hphase hdecl hmaster hstay

theorem resolve_transition {id index : Nat} {size : DataSize}
    (hphase : t.phase = .resolve id size (some index)) :
    Transition t [] (resolve id size (some index) t).1 (resolve id size (some index) t).2 := by
  -- The tests are made in this order: whether the element is declared, whether a leaf has a length,
  -- whether a master ends by its level.
  unfold resolve
  split
  · rename_i hnone
    cases size with
    | unknown => exact .refuseUnresolved hphase hnone
    | known n => exact .skip hphase hnone
  · rename_i decl hdecl
    split
    · rename_i hleaf
      cases size with
      | known n => simp [DataSize.isUnknown] at hleaf
      | unknown => exact .refuseLeaf hphase hdecl (by simpa [DataSize.isUnknown] using hleaf)
    · rename_i hknown
      rw [Bool.not_eq_true] at hknown
      split
      · rename_i hstack
        exact start_transition hphase hdecl hknown (by simp [hstack])
      · rename_i m rest hstack
        by_cases hlevel : t.closesByLevel decl m = true
        · rw [if_pos hlevel]
          exact .closeLevel hphase hdecl hknown hstack hlevel
        · rw [if_neg hlevel]
          exact start_transition hphase hdecl hknown (by simpa [hstack] using hlevel)

theorem readContent_transition {leaf : Option Occurrence} {stop : Nat}
    (hphase : t.phase = .content leaf (some stop)) :
    ∃ bytes, Hands s bytes (readContent leaf stop t s).source ∧
      Transition t bytes (readContent leaf stop t s).outcome
        (readContent leaf stop t s).scanner := by
  have havailable := (Hands.refl s).available
  unfold readContent
  -- Where no data is missing the leaf is over. Else some must be announced and then come, or the scan
  -- waits.
  split
  · rename_i hover
    exact ⟨[], .refl s, .contentOver hphase hover⟩
  · rename_i hover
    have hlt : t.consumed < stop := Nat.lt_of_not_le hover
    split
    · rename_i e s' heq
      simp only [heq] at havailable
      exact ⟨[], havailable, .contentLacking hphase hlt (.failed e)⟩
    · rename_i ready s' heq
      simp only [heq] at havailable
      dsimp only
      split
      · exact ⟨[], havailable, .contentLacking hphase hlt .stalled⟩
      · generalize hwanted : min (min (stop - t.consumed) t.maxChunk) ready = wanted
        have hread := havailable.readBytes wanted
        have hle := ByteSource.length_readBytes wanted s'
        split
        · rename_i e s'' heq'
          simp only [heq', bytesOf] at hread
          exact ⟨[], hread, .contentLacking hphase hlt (.failed e)⟩
        · rename_i chunk s'' heq'
          simp only [heq', bytesOf, List.nil_append] at hread
          split
          · rename_i hempty
            obtain rfl := List.isEmpty_iff.mp hempty
            exact ⟨[], hread, .contentLacking hphase hlt .stalled⟩
          · rename_i hne
            have hchunk := hle chunk (by rw [heq'])
            exact ⟨chunk, hread, .contentRead hphase (by simpa using hne) (by omega)⟩

/-- Every step of a coherent scanner is a transition on the bytes that the source handed out. -/
theorem step_transition (h : t.Coherent) :
    ∃ bytes, Hands s bytes (step t s).source ∧
      Transition t bytes (step t s).outcome (step t s).scanner := by
  unfold step
  split
  · rename_i hphase
    exact stepId_transition hphase h
  · rename_i hphase
    obtain ⟨index, rfl, -⟩ := h.latest_of_size hphase
    exact stepSize_transition hphase h
  · rename_i hphase
    obtain ⟨index, rfl, -⟩ := h.latest_of_resolve hphase
    exact ⟨[], .refl s, resolve_transition hphase⟩
  · rename_i hphase
    obtain ⟨stop, rfl⟩ := h.stop_of_content hphase
    exact readContent_transition hphase
  · rename_i hphase
    exact ⟨[], .refl s, .finish hphase⟩

end

end Ebml.Scanner
