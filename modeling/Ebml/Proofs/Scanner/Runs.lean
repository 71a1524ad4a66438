import Ebml.Proofs.Scanner.Transition
import Ebml.Scanner.Run

/-!
# What a run can do

A run is a trail of transitions that move on, and after them either a receiver that wants no more or
one last step that stalls or fails (`run_spec`). The receiver hears the events of that trail in order
and nothing else.
-/

namespace Ebml.Scanner

/-! ## Transitions keep a scanner coherent -/

theorem Covered.of_not_exhausted {t : Scanner} (hstart : t.window.start = t.consumed)
    (h : t.isExhausted = false) : t.Covered := by
  intro m hm stop hstop
  simp only [isExhausted, List.any_eq_false] at h
  have hnot := h m hm
  rw [hstop] at hnot
  rw [hstart]
  simpa using hnot

/-- At a boundary without an exhausted master, and after it, a header that begins is covered. -/
theorem Coherent.covered_of_id {t : Scanner} (h : t.Coherent) (hphase : t.phase = .id)
    (hfront : t.window.bytes = [] → t.isExhausted = false) : t.Covered := by
  simp only [Coherent, hphase] at h
  obtain ⟨hstop, -, hcovered, -⟩ := h
  by_cases hempty : t.window.bytes = []
  · apply Covered.of_not_exhausted _ (hfront hempty)
    simpa [HeaderWindow.stop, hempty] using hstop
  · exact hcovered hempty

/-- The scanner at a boundary is coherent whatever came before. -/
theorem coherent_atBoundary (t : Scanner) : t.atBoundary.Coherent := by
  simp only [Coherent, atBoundary, HeaderWindow.openedAt, HeaderWindow.stop]
  exact ⟨rfl, by simp [splitField_nil], fun hne => absurd rfl hne,
    ⟨fun n hn => by simp at hn, fun _ _ => rfl⟩⟩

theorem stop_absorb {t : Scanner} (h : t.window.stop = t.consumed) (bytes : Bytes) :
    (t.absorb bytes).window.stop = (t.absorb bytes).consumed := by
  simp only [absorb, HeaderWindow.stop, List.length_append] at h ⊢
  omega

/-- Inside a size the window holds the id and the part of the size that was read. -/
theorem Coherent.of_size {t : Scanner} {id index : Nat} {idField part : Bytes} (h : t.Coherent)
    (hphase : t.phase = .size id idField.length (some index))
    (hwindow : t.window.bytes = idField ++ part) :
    t.window.stop = t.consumed ∧ t.Numbered index ∧ t.Covered ∧ IsIdField idField ∧
      id = beNat idField := by
  simp only [Coherent, hphase] at h
  obtain ⟨hstop, hindex, hcovered, idField', part', hwindow', hid, hvalue, hwidth, -⟩ := h
  obtain ⟨rfl, rfl⟩ := List.append_inj (hwindow.symm.trans hwindow') hwidth
  exact ⟨hstop, hindex, hcovered, hid, hvalue⟩

/-- A size is not whole while it is read. -/
theorem Coherent.size_open {t : Scanner} {id index : Nat} {idField part : Bytes} (h : t.Coherent)
    (hphase : t.phase = .size id idField.length (some index))
    (hwindow : t.window.bytes = idField ++ part)
    (field : Bytes) : splitSize part ≠ .ok (some field) := by
  simp only [Coherent, hphase] at h
  obtain ⟨-, -, -, idField', part', hwindow', -, -, hwidth, hopen⟩ := h
  obtain ⟨rfl, rfl⟩ := List.append_inj (hwindow.symm.trans hwindow') hwidth
  exact hopen field

/-- An id that is still incomplete may get more bytes. -/
theorem Coherent.absorb_id {t : Scanner} {bytes : Bytes} (h : t.Coherent) (hphase : t.phase = .id)
    (hfront : t.window.bytes = [] → t.isExhausted = false)
    (hopen : ∀ field, splitId (t.window.bytes ++ bytes) ≠ .ok (some field)) :
    (t.absorb bytes).Coherent := by
  have hcovered := h.covered_of_id hphase hfront
  simp only [Coherent, hphase, phase_absorb] at h ⊢
  exact ⟨stop_absorb h.1 _, hopen, fun _ => hcovered, NumberHeld.absorb h.2.2.2 _⟩

/-- Waiting for more of an id changes no more than its number. -/
theorem Coherent.waiting {t : Scanner} (h : t.Coherent) (hphase : t.phase = .id)
    (hnone : splitId t.window.bytes = .ok none) (outcome : Except ScanError Progress) :
    (t.waiting outcome).Coherent := by
  have hphase' : (t.waiting outcome).phase = .id := hphase
  simp only [Coherent, hphase] at h
  simp only [Coherent, hphase']
  exact ⟨h.1, h.2.1, h.2.2.1, NumberHeld.waiting h.2.2.2 hnone outcome⟩

/-- A size that is still incomplete may get more bytes. -/
theorem Coherent.absorb_size {t : Scanner} {id index : Nat} {idField part bytes : Bytes}
    (h : t.Coherent) (hphase : t.phase = .size id idField.length (some index))
    (hwindow : t.window.bytes = idField ++ part)
    (hopen : ∀ field, splitSize (part ++ bytes) ≠ .ok (some field)) :
    (t.absorb bytes).Coherent := by
  obtain ⟨hstop, hindex, hcovered, hid, hvalue⟩ := h.of_size hphase hwindow
  simp only [Coherent, phase_absorb, hphase]
  exact ⟨stop_absorb hstop _, hindex, hcovered, _, _, absorb_front hwindow _, hid, hvalue, rfl, hopen⟩

namespace Transition

variable {t t' : Scanner} {bytes : Bytes} {outcome : Except ScanError Progress}

/-- Every transition leaves a coherent scanner. -/
theorem coherent (h : Transition t bytes outcome t') (hco : t.Coherent) : t'.Coherent := by
  -- What a phase says of the window is known from the fields that the transition read, and what is
  -- covered does not change until the next boundary.
  cases h with
  | closeExhausted hphase hempty _ _ =>
    simp only [Coherent, hphase, hempty] at hco ⊢
    exact ⟨hco.1, hco.2.1, fun h => absurd rfl h, hco.2.2.2.latest, hco.2.2.2.spoilt⟩
  | idLacking hphase hfront hnone _ =>
    exact (hco.absorb_id hphase hfront (by simp [hnone])).waiting hphase hnone _
  | idSpoilt hphase hfront herror => exact hco.absorb_id hphase hfront (by simp [herror])
  | idRead hphase hfront hfield =>
    have hcovered := hco.covered_of_id hphase hfront
    simp only [Coherent, hphase] at hco ⊢
    exact ⟨stop_absorb hco.1 _, ⟨rfl, rfl⟩, hcovered, _, [], (List.append_nil _).symm, hfield, rfl,
      rfl, by simp [splitField_nil]⟩
  | sizeLacking hphase hwindow hnone _ => exact hco.absorb_size hphase hwindow (by simp [hnone])
  | sizeSpoilt hphase hwindow herror => exact hco.absorb_size hphase hwindow (by simp [herror])
  | sizeRead hphase hwindow hfield =>
    obtain ⟨hstop, hindex, hcovered, hid, hvalue⟩ := hco.of_size hphase hwindow
    exact ⟨stop_absorb hstop _, hindex, hcovered, _, _, absorb_front hwindow _, hid, hfield, hvalue,
      rfl⟩
  | skip hphase _ =>
    simp only [Coherent, hphase] at hco ⊢
    exact ⟨hco.2.1.1, by omega⟩
  | refuseUnresolved => exact hco
  | refuseLeaf => exact hco
  | closeLevel hphase _ _ hstack _ =>
    simp only [Coherent, hphase] at hco ⊢
    obtain ⟨hstop, hindex, hcovered, hheader⟩ := hco
    exact ⟨hstop, hindex, fun m hm => hcovered m (by rw [hstack]; exact List.mem_cons_of_mem _ hm),
      hheader⟩
  | enterMaster => exact coherent_atBoundary _
  | enterLeaf hphase _ _ _ =>
    simp only [Coherent, hphase] at hco ⊢
    exact ⟨hco.2.1.1, by omega⟩
  | contentOver hphase =>
    simp only [Coherent, hphase] at hco ⊢
    exact hco.1
  | contentLacking => exact hco
  | @contentRead _ stop _ hphase _ hle =>
    simp only [Coherent, hphase] at hco
    by_cases hover : stop ≤ t.consumed + bytes.length
    · simpa [Coherent, hover] using hco.1
    · simpa [Coherent, hover] using ⟨hco.1, hle⟩
  | finish => exact coherent_atBoundary _

/-- What every transition leaves alone, and how the count of bytes goes on. -/
structure Frame (t : Scanner) (bytes : Bytes) (t' : Scanner) : Prop where
  schema_eq : t'.schema = t.schema
  maxChunk_eq : t'.maxChunk = t.maxChunk
  closed_eq : t'.closed = t.closed
  consumed_eq : t'.consumed = t.consumed + bytes.length

theorem frame (h : Transition t bytes outcome t') : Frame t bytes t' := by
  cases h <;> exact ⟨rfl, rfl, rfl, rfl⟩

end Transition

/-! ## Reading on in a header -/

/-- The number of the element whose header is being read. -/
def headerIndex? (t : Scanner) : Option Nat :=
  match t.phase with
  | .id => some t.nextIndex
  | .size _ _ number => number
  | .resolve _ _ number => number
  | _ => none

theorem headerIndex_of_id {t : Scanner} (h : t.phase = .id) : t.headerIndex? = some t.nextIndex := by
  rw [headerIndex?, h]

theorem headerIndex_of_size {t : Scanner} {id width index : Nat}
    (h : t.phase = .size id width (some index)) :
    t.headerIndex? = some index := by
  rw [headerIndex?, h]

theorem headerIndex_of_resolve {t : Scanner} {id index : Nat} {size : DataSize}
    (h : t.phase = .resolve id size (some index)) : t.headerIndex? = some index := by
  rw [headerIndex?, h]

/-- More was read of the header of element `index`, and nothing else happened. -/
structure ReadsOn (t : Scanner) (index : Nat) (bytes : Bytes) (t' : Scanner) : Prop where
  before : t.headerIndex? = some index
  behind : t'.headerIndex? = some index
  schema_eq : t'.schema = t.schema
  stack_eq : t'.stack = t.stack
  window_eq : t'.window = (t.absorb bytes).window

theorem readsOn_absorb {t : Scanner} {index : Nat} (h : t.headerIndex? = some index)
    (bytes : Bytes) : ReadsOn t index bytes (t.absorb bytes) :=
  ⟨h, h, rfl, rfl, rfl⟩

/-! ## Scanners that lack bytes -/

/-- Without more bytes the scan cannot go on. If a byte of an id is held, the element has its
number. -/
def Lacking (t : Scanner) : Prop :=
  match t.phase with
  | .id =>
    Header.decode t.window.bytes = .ok none ∧ (t.window.bytes = [] → t.isExhausted = false) ∧
      (t.window.bytes ≠ [] → t.idNumber.isSome)
  | .size .. => Header.decode t.window.bytes = .ok none
  | .content _ (some stop) => t.consumed < stop
  | _ => False

/-- A step that stalls leaves a scanner that lacks bytes. -/
theorem Transition.lacking {t t' : Scanner} {bytes : Bytes}
    (h : Transition t bytes (.ok .stalled) t') (hco : t.Coherent) : t'.Lacking := by
  -- What is lacking is told by the bytes that are there: a field that goes on, or data in front of
  -- its end.
  cases h with
  | idLacking hphase hfront hnone _ =>
    have hphase' : (t.absorb bytes).number.phase = .id := hphase
    simp only [Coherent, hphase] at hco
    rw [waiting_stalled]
    simp only [Lacking, hphase']
    refine ⟨Header.decode_of_id_none hnone, fun hempty => ?_, fun hne => ?_⟩
    · obtain ⟨hwindow, rfl⟩ := List.append_eq_nil_iff.mp hempty
      rw [absorb_nil]
      exact hfront hwindow
    · rw [(number_of_held (hco.2.2.2.absorb bytes) hne).1]
      rfl
  | sizeLacking hphase hwindow hnone _ =>
    obtain ⟨-, -, -, hid, -⟩ := hco.of_size hphase hwindow
    simp only [Lacking, phase_absorb, hphase, window_bytes_absorb]
    rw [hwindow, List.append_assoc, Header.decode_of_id hid, hnone]
    rfl
  | contentLacking hphase hlt _ =>
    simp only [Lacking, hphase]
    exact hlt

/-! ## What a step reports -/

/-- What a step reported. -/
def reported : Except ScanError Progress → List Event
  | .ok (.moved events) => events
  | _ => []

@[simp] theorem reported_moved (events : List Event) :
    reported (.ok (.moved events)) = events := rfl

@[simp] theorem reported_stalled : reported (.ok .stalled) = [] := rfl

@[simp] theorem reported_error (e : ScanError) : reported (.error e) = [] := rfl

theorem reported_of_waits {outcome : Except ScanError Progress} (h : Waits outcome) :
    reported outcome = [] := by
  cases h <;> rfl

section

variable {σ : Type} [ByteSource σ] (t : Scanner) (s : σ)

theorem length_reported_stepId_le : (reported (stepId t s).outcome).length ≤ 1 := by
  unfold stepId
  split
  · simp
  · split <;> simp

theorem length_reported_stepSize_le (id idWidth : Nat) (number : Option Nat) :
    (reported (stepSize id idWidth number t s).outcome).length ≤ 1 := by
  unfold stepSize
  split <;> simp

theorem length_reported_start_le (decl : ElementDecl) (size : DataSize) (number : Option Nat) :
    (reported (t.start decl size number).1).length ≤ 1 := by
  cases number <;> simp [start]

/-- An element that ends the innermost master does not start in the same step. -/
theorem length_reported_resolve_le (id : Nat) (size : DataSize) (number : Option Nat) :
    (reported (resolve id size number t).1).length ≤ 1 := by
  unfold resolve
  split
  · split <;> simp
  · split
    · simp
    · split
      · exact length_reported_start_le t _ _ _
      · split
        · simp
        · exact length_reported_start_le t _ _ _

/-- A step reads one piece of data. -/
theorem length_reported_readContent_le (leaf : Option Occurrence) (stop : Nat) :
    (reported (readContent leaf stop t s).outcome).length ≤ 1 := by
  unfold readContent
  split
  · simp
  · split
    · simp
    · dsimp only
      split
      · simp
      · split
        · simp
        · split
          · simp
          · cases leaf <;> simp

/-- A step reports at most one event. -/
theorem length_reported_step_le : (reported (step t s).outcome).length ≤ 1 := by
  unfold step
  split
  · exact length_reported_stepId_le t s
  · exact length_reported_stepSize_le t s _ _ _
  · exact length_reported_resolve_le t _ _ _
  · rename_i leaf stop _
    cases stop with
    | none => simp [stepContent]
    | some stop => exact length_reported_readContent_le t s leaf stop
  · rename_i leaf _
    cases leaf <;> simp [finishLeaf]

theorem reported_step_cases :
    reported (step t s).outcome = [] ∨ ∃ event, reported (step t s).outcome = [event] := by
  obtain hnone | hone := Nat.le_one_iff_eq_zero_or_eq_one.mp (length_reported_step_le t s)
  · exact .inl (List.length_eq_zero_iff.mp hnone)
  · exact .inr (List.length_eq_one_iff.mp hone)

end

/-! ## Trails -/

/-- Transitions one after the other, whatever their outcomes: the bytes that they take and the events
that they report. -/
inductive Trail : Scanner → Bytes → List Event → Scanner → Prop
  | refl (t : Scanner) : Trail t [] [] t
  | step {t t' t'' : Scanner} {bytes more : Bytes} {outcome : Except ScanError Progress}
      {events : List Event} :
      Transition t bytes outcome t' → Trail t' more events t'' →
        Trail t (bytes ++ more) (reported outcome ++ events) t''

namespace Trail

variable {t t' t'' : Scanner} {bytes more : Bytes} {events later : List Event}

theorem single {outcome : Except ScanError Progress} (h : Transition t bytes outcome t') :
    Trail t bytes (reported outcome) t' := by
  have htrail := Trail.step h (.refl t')
  rwa [List.append_nil, List.append_nil] at htrail

theorem trans (h : Trail t bytes events t') (h' : Trail t' more later t'') :
    Trail t (bytes ++ more) (events ++ later) t'' := by
  induction h with
  | refl => exact h'
  | step hstep _ ih =>
    rw [List.append_assoc, List.append_assoc]
    exact .step hstep (ih h')

theorem coherent (h : Trail t bytes events t') (hco : t.Coherent) : t'.Coherent := by
  induction h with
  | refl => exact hco
  | step hstep _ ih => exact ih (hstep.coherent hco)

theorem frame (h : Trail t bytes events t') : Transition.Frame t bytes t' := by
  induction h with
  | refl => exact ⟨rfl, rfl, rfl, rfl⟩
  | step hstep _ ih =>
    obtain ⟨hschema, hchunk, hclosed, hconsumed⟩ := hstep.frame
    refine ⟨ih.schema_eq.trans hschema, ih.maxChunk_eq.trans hchunk, ih.closed_eq.trans hclosed, ?_⟩
    rw [ih.consumed_eq, hconsumed, List.length_append, Nat.add_assoc]

end Trail

/-! ## What a receiver hears -/

/-- A receiver was given some events, in this order, and asked any number of times. -/
inductive Heard {κ : Type} (r : Receiver κ) : κ → List Event → κ → Prop
  | refl (k : κ) : Heard r k [] k
  | polled {k k' : κ} {events : List Event} : Heard r (r.poll k).2 events k' → Heard r k events k'
  | handled {k k' : κ} {event : Event} {events : List Event} :
      Heard r (r.handle event k) events k' → Heard r k (event :: events) k'

theorem Heard.delivered {κ : Type} {r : Receiver κ} {k k' : κ} {told events : List Event}
    (h : Heard r (r.deliverAll told k) events k') : Heard r k (told ++ events) k' := by
  induction told generalizing k with
  | nil => exact h
  | cons e rest ih => exact .handled (ih h)

theorem Heard.polled_after {κ : Type} {r : Receiver κ} {k k' : κ} {events : List Event}
    (h : Heard r k events k') : Heard r k events (r.poll k').2 := by
  induction h with
  | refl => exact .polled (.refl _)
  | polled _ ih => exact .polled ih
  | handled _ ih => exact .handled ih

/-- A receiver that does not change when asked is where the events alone bring it. -/
theorem Heard.eq_deliverAll {κ : Type} {r : Receiver κ} {k k' : κ} {events : List Event}
    (hpoll : ∀ k, (r.poll k).2 = k) (h : Heard r k events k') : k' = r.deliverAll events k := by
  induction h with
  | refl => rfl
  | polled _ ih => rw [ih, hpoll]
  | handled _ ih => exact ih

/-- How a run ends: the receiver wants no more, or the next step does not move on. -/
inductive RunEnd {σ κ : Type} [FiniteSource σ] (r : Receiver κ) (t : Scanner) (s : σ) (k : κ) :
    Parsed σ κ → Prop
  | paused : (r.poll k).1 = false → RunEnd r t s k ⟨.ok (), t, s, (r.poll k).2⟩
  | stalled : (r.poll k).1 = true → (step t s).outcome = .ok .stalled →
      RunEnd r t s k ⟨.ok (), (step t s).scanner, (step t s).source, (r.poll k).2⟩
  | failed {e : ScanError} : (r.poll k).1 = true → (step t s).outcome = .error e →
      RunEnd r t s k ⟨.error e, (step t s).scanner, (step t s).source, (r.poll k).2⟩

/-- Every run of a coherent scanner is a trail and an end. -/
theorem run_spec {σ κ : Type} [FiniteSource σ] (r : Receiver κ) (t : Scanner) (s : σ) (k : κ)
    (hco : t.Coherent) :
    ∃ bytes events t' s' k', Hands s bytes s' ∧ Trail t bytes events t' ∧ Heard r k events k' ∧
      RunEnd r t' s' k' (run r t s k) := by
  fun_induction run r t s k with
  | case1 t s k k' hpoll =>
    refine ⟨[], [], t, s, k, .refl s, .refl t, .refl k, ?_⟩
    have hend := RunEnd.paused (r := r) (t := t) (s := s) (k := k) (by rw [hpoll])
    rwa [hpoll] at hend
  | case2 t s k k' hpoll e t' s' hstep =>
    refine ⟨[], [], t, s, k, .refl s, .refl t, .refl k, ?_⟩
    have hend := RunEnd.failed (r := r) (t := t) (s := s) (k := k) (e := e) (by rw [hpoll])
      (by rw [hstep])
    rwa [hpoll, hstep] at hend
  | case3 t s k k' hpoll t' s' hstep =>
    refine ⟨[], [], t, s, k, .refl s, .refl t, .refl k, ?_⟩
    have hend := RunEnd.stalled (r := r) (t := t) (s := s) (k := k) (by rw [hpoll])
      (by rw [hstep])
    rwa [hpoll, hstep] at hend
  | case4 t s k k' hpoll told t' s' hstep ih =>
    obtain ⟨bytes, hhands, htransition⟩ := @step_transition σ _ t s hco
    rw [hstep] at hhands htransition
    obtain ⟨more, events, t₁, s₁, k₁, hhands', htrail, hheard, hend⟩ :=
      ih (htransition.coherent hco)
    refine ⟨bytes ++ more, told ++ events, t₁, s₁, k₁, hhands.trans hhands',
      .step htransition htrail, ?_, hend⟩
    -- The receiver was asked first, then it got what the step reported, then the rest.
    refine .polled ?_
    rw [hpoll]
    exact hheard.delivered

/-- Whatever a run comes to, its last step included, is a trail whose events the receiver heard. -/
theorem run_trail {σ κ : Type} [FiniteSource σ] (r : Receiver κ) (t : Scanner) (s : σ) (k : κ)
    (hco : t.Coherent) :
    ∃ bytes events, Hands s bytes (run r t s k).source ∧ Trail t bytes events (run r t s k).scanner ∧
      Heard r k events (run r t s k).receiver := by
  obtain ⟨bytes, events, t', s', k', hhands, htrail, hheard, hend⟩ := run_spec r t s k hco
  generalize run r t s k = p at hend ⊢
  have hpolled := hheard.polled_after
  -- A last step that stalls or fails may still take bytes, so it belongs to the trail.
  obtain ⟨more, hhands', htransition⟩ := @step_transition σ _ t' s' (htrail.coherent hco)
  cases hend with
  | paused => exact ⟨bytes, events, hhands, htrail, hpolled⟩
  | stalled _ houtcome =>
    rw [houtcome] at htransition
    have hlast := htrail.trans (.single htransition)
    rw [reported_stalled, List.append_nil] at hlast
    exact ⟨bytes ++ more, events, hhands.trans hhands', hlast, hpolled⟩
  | failed _ houtcome =>
    rw [houtcome] at htransition
    have hlast := htrail.trans (.single htransition)
    rw [reported_error, List.append_nil] at hlast
    exact ⟨bytes ++ more, events, hhands.trans hhands', hlast, hpolled⟩

/-! ## Runs over two sources -/

section

variable {σ σ' κ : Type} [FiniteSource σ] [FiniteSource σ'] {r : Receiver κ} {t : Scanner} {s : σ}
  {k k' : κ}

theorem run_of_unwilling (hpoll : r.poll k = (false, k')) : run r t s k = ⟨.ok (), t, s, k'⟩ := by
  unfold run
  split <;> simp_all

theorem run_of_step (hpoll : r.poll k = (true, k')) :
    run r t s k =
      match step t s with
      | ⟨.error e, t', s'⟩ => ⟨.error e, t', s', k'⟩
      | ⟨.ok .stalled, t', s'⟩ => ⟨.ok (), t', s', k'⟩
      | ⟨.ok (.moved events), t', s'⟩ => run r t' s' (r.deliverAll events k') := by
  rw [run]
  split
  · simp_all
  · rename_i heq
    obtain ⟨-, rfl⟩ := Prod.mk.inj (heq.symm.trans hpoll)
    split <;> rename_i hstep <;> rw [hstep]

/-- Two runs agree if their steps do. Where the first stalls the steps may differ in a way `E` that
ends the comparison. -/
theorem run_alike {R E : Scanner → σ → σ' → Prop}
    (hstep : ∀ t s s', R t s s' →
      (E t s s' ∧ (step t s).outcome = .ok .stalled) ∨
        ∃ s'', step t s' = ⟨(step t s).outcome, (step t s).scanner, s''⟩ ∧
          R (step t s).scanner (step t s).source s'')
    (r : Receiver κ) (t : Scanner) (s : σ) (s' : σ') (k : κ) (h : R t s s') :
    ((∃ t s s', E t s s') ∧ (run r t s k).outcome = .ok () ∧
        ∃ k', r.poll k' = (true, (run r t s k).receiver)) ∨
      ∃ s'', run r t s' k =
          ⟨(run r t s k).outcome, (run r t s k).scanner, s'', (run r t s k).receiver⟩ ∧
        R (run r t s k).scanner (run r t s k).source s'' := by
  -- The runs go step by step together. Only a stall may set them apart, and it ends the first run.
  fun_induction run r t s k generalizing s' with
  | case1 t s k k' hpoll => exact .inr ⟨s', run_of_unwilling hpoll, h⟩
  | case2 t s k k' hpoll e t₁ s₁ heq =>
    have hsteps := hstep t s s' h
    rw [heq] at hsteps
    obtain ⟨-, hstalled⟩ | ⟨s'', heq', h'⟩ := hsteps
    · simp at hstalled
    · exact .inr ⟨s'', by rw [run_of_step hpoll, heq'], h'⟩
  | case3 t s k k' hpoll t₁ s₁ heq =>
    have hsteps := hstep t s s' h
    rw [heq] at hsteps
    obtain ⟨hends, -⟩ | ⟨s'', heq', h'⟩ := hsteps
    · exact .inl ⟨⟨t, s, s', hends⟩, rfl, k, hpoll⟩
    · exact .inr ⟨s'', by rw [run_of_step hpoll, heq'], h'⟩
  | case4 t s k k' hpoll events t₁ s₁ heq ih =>
    have hsteps := hstep t s s' h
    rw [heq] at hsteps
    obtain ⟨-, hstalled⟩ | ⟨s'', heq', h'⟩ := hsteps
    · simp at hstalled
    · rw [run_of_step hpoll, heq']
      exact ih s'' h'

end

end Ebml.Scanner
