import Ebml.Proofs.Scanner.Bytewise
import Ebml.Proofs.Scanner.Stalling

/-!
# How a run halts

Over an announcing source a run halts in one of four ways: the receiver wanted no more, the bytes
held are used up, the source balked, or what was read is refused and nothing else can follow
(`run_halts`). In the last case the forecast of the scan is that refusal, whatever comes, and the scan
has come to rest. In the first case the last step was one with an event (`run_pauses`). Where a
source failed, the run took the bytes that it would have taken from one that has no more
(`run_starves`).
-/

namespace Ebml.Scanner

open AnnouncingSource (held)

/-- The last answer of the receiver, the scanner and the source after a run, and its outcome. -/
inductive Halt {σ : Type} [FiniteSource σ] [AnnouncingSource σ] (willing : Bool) (t : Scanner) (s : σ) :
    Except ScanError Unit → Prop
  | paused : willing = false → Halt willing t s (.ok ())
  | usedUp : willing = true → held s = [] → t.Lacking → Halt willing t s (.ok ())
  | balked (e : IoError) : willing = true → Halt willing t s (.error (.io e))
  | refused {e : ScanError} :
      willing = true → (∀ cause, e ≠ .io cause) → (∀ future, t.forecast future = ⟨[], .error e⟩) →
        (∀ rest, t.AtRest rest) → Halt willing t s (.error e)

variable {σ κ : Type} [FiniteSource σ]

/-- Whatever a run comes to is a trail through the bytes that the source handed out, with the events
that the receiver heard, and an end of one of the four kinds. -/
theorem run_halts [AnnouncingSource σ] (r : Receiver κ) {t : Scanner} (s : σ) (k : κ)
    (hco : t.Coherent) (hchunk : 0 < t.maxChunk) :
    ∃ bytes events k', Hands s bytes (run r t s k).source ∧
      Trail t bytes events (run r t s k).scanner ∧ Heard r k events k' ∧
      (run r t s k).receiver = (r.poll k').2 ∧
      Halt (r.poll k').1 (run r t s k).scanner (run r t s k).source (run r t s k).outcome := by
  obtain ⟨bytes, events, t', s', k', hhands, htrail, hheard, hend⟩ := run_spec r t s k hco
  generalize run r t s k = p at hend ⊢
  have hco' := htrail.coherent hco
  have hchunk' : 0 < t'.maxChunk := by rwa [htrail.frame.maxChunk_eq]
  -- A last step that stalls or fails may still take bytes, so it belongs to the trail.
  obtain ⟨more, hhands', htransition⟩ := @step_transition σ _ t' s' hco'
  have hlast := htrail.trans (.single htransition)
  have hexcused := excused_step t' s'
  cases hend with
  | paused hno => exact ⟨bytes, events, k', hhands, htrail, hheard, rfl, .paused hno⟩
  | stalled hyes houtcome =>
    rw [houtcome] at htransition hexcused hlast
    rw [reported_stalled, List.append_nil] at hlast
    exact ⟨bytes ++ more, events, k', hhands.trans hhands', hlast, hheard, rfl,
      .usedUp hyes (hexcused.held_eq hchunk' rfl) (htransition.lacking hco')⟩
  | @failed e hyes houtcome =>
    rw [houtcome] at htransition hlast
    rw [reported_error, List.append_nil] at hlast
    refine ⟨bytes ++ more, events, k', hhands.trans hhands', hlast, hheard, rfl, ?_⟩
    by_cases hio : ∃ cause, e = .io cause
    · obtain ⟨cause, rfl⟩ := hio
      exact .balked cause hyes
    · have hother : ∀ cause, e ≠ .io cause := fun cause heq => hio ⟨cause, heq⟩
      exact .refused hyes hother (htransition.forecast_of_error hco' hother)
        (htransition.atRest_of_error hother)

/-- A source that failed gave no more bytes than one that has too few. -/
theorem Transition.stalled_of_io {t t' : Scanner} {bytes : Bytes} {e : IoError}
    (h : Transition t bytes (.error (.io e)) t') :
    ∃ t'', Transition t bytes (.ok .stalled) t'' := by
  cases h with
  | idLacking hphase hfront hnone => exact ⟨_, .idLacking hphase hfront hnone .stalled⟩
  | sizeLacking hphase hwindow hnone => exact ⟨_, .sizeLacking hphase hwindow hnone .stalled⟩
  | contentLacking hphase hlt => exact ⟨_, .contentLacking hphase hlt .stalled⟩

/-- A run that the source failed took the bytes of a trail to a scanner that lacks more. -/
theorem run_starves {r : Receiver κ} {t : Scanner} {s : σ} {k : κ} {e : IoError} (hco : t.Coherent)
    (h : (run r t s k).outcome = .error (.io e)) :
    ∃ bytes events k' t', Hands s bytes (run r t s k).source ∧ Trail t bytes events t' ∧ t'.Lacking ∧
      Heard r k events k' ∧ (r.poll k').1 = true := by
  obtain ⟨bytes, events, t₀, s₀, k', hhands, htrail, hheard, hend⟩ := run_spec r t s k hco
  generalize run r t s k = p at h hend ⊢
  have hco' := htrail.coherent hco
  obtain ⟨more, hhands', htransition⟩ := @step_transition σ _ t₀ s₀ hco'
  cases hend with
  | paused => simp at h
  | stalled => simp at h
  | failed hyes houtcome =>
    rw [houtcome, Except.error.inj h] at htransition
    obtain ⟨t', hstalled⟩ := htransition.stalled_of_io
    have hlast := htrail.trans (.single hstalled)
    rw [reported_stalled, List.append_nil] at hlast
    exact ⟨_, events, k', t', hhands.trans hhands', hlast, hstalled.lacking hco', hheard, hyes⟩

/-- A run that the receiver ends, though it wanted the first step, takes last of all a step whose
event makes the receiver want no more. -/
theorem run_pauses {r : Receiver κ} (hpoll : ∀ k, (r.poll k).2 = k) {t : Scanner} (s : σ) {k : κ}
    (hco : t.Coherent) (hyes : (r.poll k).1 = true)
    (hno : (r.poll (run r t s k).receiver).1 = false) :
    ∃ bytes log t₀ s₀ more event, Hands s bytes s₀ ∧ Trail t bytes log t₀ ∧
      (r.poll (r.deliverAll log k)).1 = true ∧ Hands s₀ more (run r t s k).source ∧
      Transition t₀ more (.ok (.moved [event])) (run r t s k).scanner ∧
      (run r t s k).receiver = r.handle event (r.deliverAll log k) := by
  fun_induction run r t s k with
  | case1 t s k k' heq => simp [heq] at hyes
  | case2 t s k k' heq e t' s' hstep =>
    have hsame := hpoll k
    rw [heq] at hsame
    obtain rfl : k' = k := hsame
    simp [hyes] at hno
  | case3 t s k k' heq t' s' hstep =>
    have hsame := hpoll k
    rw [heq] at hsame
    obtain rfl : k' = k := hsame
    simp [hyes] at hno
  | case4 t s k k' heq events t' s' hstep ih =>
    have hsame := hpoll k
    rw [heq] at hsame
    obtain rfl : k' = k := hsame
    obtain ⟨bytes, hhands, htransition⟩ := @step_transition σ _ t s hco
    have hcases := reported_step_cases t s
    rw [hstep] at hhands htransition hcases
    cases hanswer : (r.poll (r.deliverAll events k')).1 with
    | true =>
      obtain ⟨more, log, t₀, s₀, last, event, hhands', htrail, hwilling, hlast, hstep', hheard⟩ :=
        ih (htransition.coherent hco) hanswer hno
      refine ⟨bytes ++ more, events ++ log, t₀, s₀, last, event, hhands.trans hhands',
        .step htransition htrail, ?_⟩
      rw [Receiver.deliverAll_append]
      exact ⟨hwilling, hlast, hstep', hheard⟩
    | false =>
      -- The run ends where it is: without an event the receiver would still want more.
      have hstop : run r t' s' (r.deliverAll events k') = ⟨.ok (), t', s', r.deliverAll events k'⟩ :=
        run_of_unwilling (Prod.ext hanswer (hpoll _))
      rw [hstop]
      obtain rfl | ⟨event, rfl⟩ : events = [] ∨ ∃ event, events = [event] := hcases
      · simp [Receiver.deliverAll, hyes] at hanswer
      · exact ⟨[], [], t, s, bytes, event, .refl s, .refl t, hyes, hhands, htransition, rfl⟩

end Ebml.Scanner
