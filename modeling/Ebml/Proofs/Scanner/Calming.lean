import Ebml.Proofs.Scanner.Forecast

/-!
# Scans that could end here

A scan is calm if it would end well were the input to stop at once. A scan is calm at the start of a
document, wherever it lacks bytes, and right behind every event (`Transition.calm`): what it read of
the element whose turn it is was looked at before that event. So a scan that was left at an event and
finds no more bytes has no error to report.
-/

namespace Ebml

namespace Place.HasHeader

variable {schema : Schema} {p : Place} {header : Header} {used : Nat} {decl : ElementDecl}

/-- If the last of a document is the header of an element that ends no master, it ends well. -/
theorem ending_of_stay (h : p.HasHeader header used) (hdecl : schema.get? header.id = some decl)
    (hknown : (header.size.isUnknown && !decl.isMaster) = false) (hlast : p.rest.drop used = [])
    (hstay : ∀ m ∈ p.stack.head?, p.endsByLevel decl m = false) :
    (p.transcript schema).ending = .ok () := by
  cases hmaster : decl.isMaster with
  | true =>
    rw [h.transcript_master hdecl hmaster hstay]
    exact congrArg Transcript.ending (transcript_nil hlast)
  | false =>
    cases hsize : header.size with
    | unknown => simp [hsize, hmaster, DataSize.isUnknown] at hknown
    | known n =>
      rw [h.transcript_leaf hdecl hsize hmaster hstay]
      refine congrArg Transcript.ending (transcript_nil ?_)
      rw [skip, ← List.drop_drop, hlast, List.drop_nil]

/-- If the last of a document is the header of an element that may stand there, it ends well: some
masters end, and the element starts. -/
theorem ending_of_last (h : p.HasHeader header used) (hdecl : schema.get? header.id = some decl)
    (hknown : (header.size.isUnknown && !decl.isMaster) = false) (hlast : p.rest.drop used = []) :
    (p.transcript schema).ending = .ok () := by
  generalize hn : p.stack.length = n
  induction n generalizing p with
  | zero =>
    have hstack := List.eq_nil_of_length_eq_zero hn
    exact h.ending_of_stay hdecl hknown hlast (by simp [hstack])
  | succ n ih =>
    obtain ⟨m, outer, hstack⟩ := List.exists_cons_of_length_eq_add_one hn
    cases hlevel : p.endsByLevel decl m with
    | false => exact h.ending_of_stay hdecl hknown hlast (by simp [hstack, hlevel])
    | true =>
      have hleave : (p.leave outer).HasHeader header used := by
        refine ⟨?_, h.decode_eq⟩
        have hnot := h.not_exhausted
        rw [isExhausted, hstack, List.any_cons, Bool.or_eq_false_iff] at hnot
        exact hnot.2
      rw [h.transcript_level hdecl hknown hstack hlevel]
      exact ih hleave hlast (by simpa [hstack, leave] using hn)

end Place.HasHeader

namespace Scanner

/-- The scan would end well if no more bytes came. -/
def Calm (t : Scanner) : Prop :=
  (t.forecast []).ending = .ok ()

variable {t t' : Scanner} {bytes : Bytes} {event : Event}

/-- Where nothing of a header was read, the scan is calm. -/
theorem calm_of_header {index : Nat} (h : t.headerIndex? = some index) (hempty : t.window.bytes = []) :
    t.Calm := by
  rw [Calm, forecast_of_header h, place, hempty]
  exact congrArg Transcript.ending (Place.transcript_nil rfl)

theorem calm_atBoundary (t : Scanner) : t.atBoundary.Calm :=
  calm_of_header rfl rfl

theorem calm_of_content {leaf : Option Occurrence} {stop : Nat}
    (hphase : t.phase = .content leaf (some stop)) :
    t.Calm := by
  simp only [Calm, forecast, hphase]
  exact congrArg Transcript.ending (Place.transcript_nil List.drop_nil)

theorem calm_of_finished {leaf : Option Occurrence} (hphase : t.phase = .finished leaf) : t.Calm := by
  simp only [Calm, forecast, hphase]
  exact congrArg Transcript.ending (Place.transcript_nil rfl)

/-- A scan is calm right behind an event. -/
theorem Transition.calm (h : Transition t bytes (.ok (.moved [event])) t') (hco : t.Coherent) :
    t'.Calm := by
  have hco' := h.coherent hco
  generalize houtcome : (Except.ok (.moved [event]) : Except ScanError Progress) = outcome at h
  cases h with
  | closeExhausted hphase hempty => exact calm_of_header (headerIndex_of_id hphase) hempty
  | @closeLevel _ index _ _ _ outer hphase hdecl hknown hstack hlevel =>
    -- The element that ended a master was found to be one that may stand here.
    obtain ⟨header, hheader, rfl, rfl, -, -⟩ := hco'.hasHeader hphase []
    have hindex : headerIndex? { t with stack := outer } = some index := by
      rw [headerIndex?, hphase]
    rw [Calm, forecast_of_header hindex]
    exact hheader.ending_of_last hdecl hknown (drop_place _ _ _)
  | enterMaster => exact calm_atBoundary _
  | enterLeaf => exact calm_of_content rfl
  | @contentRead leaf stop _ hphase =>
    by_cases hover : stop ≤ t.consumed + bytes.length
    · exact calm_of_finished (if_pos hover)
    · exact calm_of_content (if_neg hover)
  | finish => exact calm_atBoundary _
  | idLacking _ _ _ hwaits => cases hwaits <;> simp at houtcome
  | sizeLacking _ _ _ hwaits => cases hwaits <;> simp at houtcome
  | contentLacking _ _ hwaits => cases hwaits <;> simp at houtcome
  | _ => simp at houtcome

/-- A scan that lacks bytes is calm. -/
theorem Lacking.calm (h : t.Lacking) (hco : t.Coherent) (hopen : t.closed = false) : t.Calm :=
  congrArg Transcript.ending (h.forecast_nil hco hopen)

end Scanner

end Ebml
