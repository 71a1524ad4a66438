import Mathlib
import Ebml.Collector
import Ebml.Proofs.Scanner.Session

/-!
# Callbacks are well nested

`Nested path events` is the grammar of well-nested callbacks below the masters `path`: elements one
after the other, each with a start and an end of the same path, a leaf with nothing but its own data
in between and a master with well-nested callbacks one level down.

The proof goes backwards. `Completes t later` says that `later` ends everything that `t` has open,
and otherwise is well nested. If it completes the scanner after a transition, then the transition's
event followed by it completes the scanner before (`Transition.completes`).
-/

namespace Ebml

/-- Well-nested callbacks of elements whose open masters are `path`, outermost first. -/
inductive Nested : List Occurrence → List Event → Prop
  | nil {path : List Occurrence} : Nested path []
  | leaf {path : List Occurrence} {o : Occurrence} {size : DataSize} {header : Bytes}
      {chunks : List Bytes} {later : List Event} :
      o.decl.isMaster = false → Nested path later →
        Nested path
          (.start o size header path :: (chunks.map (.content o) ++ .finish o path :: later))
  | master {path : List Occurrence} {o : Occurrence} {size : DataSize} {header : Bytes}
      {inner later : List Event} :
      o.decl.isMaster = true → Nested (path ++ [o]) inner → Nested path later →
        Nested path (.start o size header path :: (inner ++ .finish o path :: later))

namespace Scanner

/-! ## What completes a scan -/

/-- The callbacks end all masters of a stack, innermost first, and are well nested between those
ends and after them. -/
def Closes : List OpenMaster → List Event → Prop
  | [], events => Nested [] events
  | m :: outer, events =>
    ∃ inner after, events = inner ++ .finish m.element (pathOf outer) :: after ∧
      Nested (pathOf (m :: outer)) inner ∧ Closes outer after

/-- The callbacks end a leaf, if one is open, after some data of it, and then close a stack. -/
def Ends : Option Occurrence → List OpenMaster → List Event → Prop
  | none, stack, events => Closes stack events
  | some o, stack, events =>
    ∃ chunks after, events = List.map (.content o) chunks ++ .finish o (pathOf stack) :: after ∧
      Closes stack after

/-- The callbacks end everything that a scanner has open and are well nested otherwise. -/
def Completes (t : Scanner) (events : List Event) : Prop :=
  Ends t.openLeaf? t.stack events

/-- Whole elements may come before the innermost end. -/
theorem Closes.prepend {stack : List OpenMaster} {block later : List Event}
    (hblock : ∀ after, Nested (pathOf stack) after → Nested (pathOf stack) (block ++ after))
    (h : Closes stack later) : Closes stack (block ++ later) := by
  cases stack with
  | nil => exact hblock later h
  | cons m outer =>
    obtain ⟨inner, after, rfl, hinner, hafter⟩ := h
    exact ⟨block ++ inner, after, (List.append_assoc _ _ _).symm, hblock inner hinner, hafter⟩

theorem Closes.finish {m : OpenMaster} {outer : List OpenMaster} {later : List Event}
    (h : Closes outer later) :
    Closes (m :: outer) (.finish m.element (pathOf outer) :: later) :=
  ⟨[], later, rfl, .nil, h⟩

/-- The start of a master goes before whatever ends it. -/
theorem Closes.start_master {m : OpenMaster} {outer : List OpenMaster} {header : Bytes}
    {later : List Event} (hmaster : m.element.decl.isMaster = true) (h : Closes (m :: outer) later) :
    Closes outer (.start m.element m.size header (pathOf outer) :: later) := by
  obtain ⟨inner, after, rfl, hinner, hafter⟩ := h
  rw [pathOf_cons] at hinner
  have hblock : Closes outer
      ((.start m.element m.size header (pathOf outer) ::
        (inner ++ [.finish m.element (pathOf outer)])) ++ after) := by
    apply hafter.prepend
    intro rest hrest
    simpa using Nested.master hmaster hinner hrest
  simpa using hblock

/-- The start of a leaf goes before its data and its end. -/
theorem Closes.start_leaf {stack : List OpenMaster} {o : Occurrence} {size : DataSize}
    {header : Bytes} {chunks : List Bytes} {later : List Event} (hleaf : o.decl.isMaster = false)
    (h : Closes stack later) :
    Closes stack (.start o size header (pathOf stack) ::
      (chunks.map (.content o) ++ .finish o (pathOf stack) :: later)) := by
  have hblock : Closes stack
      ((.start o size header (pathOf stack) ::
        (chunks.map (.content o) ++ [.finish o (pathOf stack)])) ++ later) := by
    apply h.prepend
    intro rest hrest
    simpa using Nested.leaf hleaf hrest
  simpa using hblock

/-- Ending all open masters closes them, and whole elements may follow. -/
theorem closes_finishAll (stack : List OpenMaster) {later : List Event} (h : Nested [] later) :
    Closes stack (finishAll stack ++ later) := by
  induction stack with
  | nil => exact h
  | cons m outer ih => exact ih.finish

/-! ## Transitions -/

theorem Ends.content {leaf : Option Occurrence} {stack : List OpenMaster} {chunk : Bytes}
    {later : List Event} (h : Ends leaf stack later) :
    Ends leaf stack ((leaf.map (.content · chunk)).toList ++ later) := by
  cases leaf with
  | none => exact h
  | some o =>
    obtain ⟨chunks, after, rfl, hafter⟩ := h
    exact ⟨chunk :: chunks, after, rfl, hafter⟩

theorem Ends.finish {leaf : Option Occurrence} {stack : List OpenMaster} {later : List Event}
    (h : Closes stack later) :
    Ends leaf stack ((leaf.map (.finish · (pathOf stack))).toList ++ later) := by
  cases leaf with
  | none => exact h
  | some o => exact ⟨[], later, rfl, h⟩

/-- What completes the scanner after a transition completes, behind the transition's event, the
scanner before it. -/
theorem Transition.completes {t t' : Scanner} {bytes : Bytes} {outcome : Except ScanError Progress}
    {later : List Event} (h : Transition t bytes outcome t') (hlater : Completes t' later) :
    Completes t (reported outcome ++ later) := by
  unfold Completes at hlater ⊢
  -- Only a start or an end needs an argument. Elsewhere the same leaf and masters stay open.
  cases h with
  | closeExhausted hphase _ _ hstack =>
    simp only [openLeaf?, hphase, hstack] at hlater ⊢
    exact Closes.finish hlater
  | idLacking _ _ _ hwaits => rw [reported_of_waits hwaits]; exact hlater
  | idSpoilt => exact hlater
  | idRead hphase =>
    simp only [openLeaf?, hphase] at hlater ⊢
    exact hlater
  | sizeLacking _ _ _ hwaits => rw [reported_of_waits hwaits]; exact hlater
  | sizeSpoilt => exact hlater
  | sizeRead hphase =>
    simp only [openLeaf?, hphase] at hlater ⊢
    exact hlater
  | skip hphase =>
    simp only [openLeaf?, hphase] at hlater ⊢
    exact hlater
  | refuseUnresolved => exact hlater
  | refuseLeaf => exact hlater
  | closeLevel hphase _ _ hstack =>
    simp only [openLeaf?, hphase, hstack] at hlater ⊢
    exact Closes.finish hlater
  | enterMaster hphase _ hmaster =>
    simp only [openLeaf?, hphase] at hlater ⊢
    exact Closes.start_master hmaster hlater
  | enterLeaf hphase _ hleaf =>
    simp only [openLeaf?, hphase] at hlater ⊢
    obtain ⟨chunks, after, rfl, hafter⟩ := hlater
    exact Closes.start_leaf hleaf hafter
  | contentOver hphase =>
    simp only [openLeaf?, hphase] at hlater ⊢
    exact hlater
  | contentLacking _ _ hwaits => rw [reported_of_waits hwaits]; exact hlater
  | @contentRead leaf stop _ hphase _ _ =>
    have hleaf : openLeaf? { t with
        consumed := t.consumed + bytes.length
        phase := if stop ≤ t.consumed + bytes.length then .finished leaf
          else .content leaf (some stop) } = leaf := by
      by_cases hover : stop ≤ t.consumed + bytes.length <;> simp [openLeaf?, hover]
    rw [hleaf] at hlater
    simp only [openLeaf?, hphase]
    exact hlater.content
  | finish hphase =>
    simp only [openLeaf?, hphase]
    exact Ends.finish hlater

theorem Trail.completes {t t' : Scanner} {bytes : Bytes} {events later : List Event}
    (h : Trail t bytes events t') (hlater : Completes t' later) : Completes t (events ++ later) := by
  induction h with
  | refl => exact hlater
  | step hstep _ ih =>
    rw [List.append_assoc]
    exact hstep.completes (ih hlater)

/-- The callbacks of closing complete the scan. -/
theorem completes_close {t : Scanner} {later : List Event} (hopen : t.closed = false)
    (h : Nested [] later) : Completes t (t.close.1 ++ later) := by
  rw [close, if_neg (by simp [hopen]), List.append_assoc]
  exact Ends.finish (closes_finishAll t.stack h)

/-- Closing makes the events of a trail well nested. -/
theorem Trail.nested_close {schema : Schema} {maxChunk : Nat} {bytes : Bytes} {events : List Event}
    {t : Scanner} (h : Trail (fresh schema maxChunk) bytes events t) :
    Nested [] (events ++ t.close.1) := by
  have hclose := completes_close h.frame.closed_eq Nested.nil
  rw [List.append_nil] at hclose
  exact h.completes hclose

/-! ## Sessions -/

/-- What completes a scanner at the end of a session completes, behind the session's callbacks, the
scanner at its start. -/
theorem Session.completes {start t : Scanner} {log later : List Event} (h : Session start log t)
    (hstart : start.Sound) (hlater : Completes t later) : Completes start (log ++ later) := by
  -- The last parse is completed first, and what it then told completes the session before it.
  induction h generalizing later with
  | begin => exact hlater
  | @parse σ κ _ r s k log t hsession ih =>
    rw [List.append_assoc]
    apply ih
    obtain ⟨_, _, -, htrail, hcallbacks⟩ := parse_watched r s ⟨k, [], true⟩ (hsession.sound hstart)
    rw [hcallbacks]
    exact htrail.completes hlater
  | @close log t hsession ih =>
    rw [List.append_assoc]
    apply ih
    cases hclosed : t.closed with
    | true =>
      rw [close_of_closed hclosed] at hlater ⊢
      exact hlater
    | false =>
      rw [Scanner.close, if_neg (by simp [hclosed])] at hlater
      exact completes_close hclosed hlater

/-- At every moment of every use of a scanner the callbacks so far can be continued to well-nested
ones, closing continues them so, and after closing there are no more. -/
theorem session_nested {schema : Schema} {maxChunk : Nat} {log : List Event} {t : Scanner}
    (h : Session (fresh schema maxChunk) log t) :
    (∀ sofar, sofar <+: log → ∃ later, Nested [] (sofar ++ later)) ∧
      Nested [] (log ++ t.close.1) ∧
      ∀ log' t', Session t.close.2 log' t' → log' = [] := by
  have hfresh := sound_fresh schema maxChunk
  have hnested : Nested [] (log ++ t.close.1) := by
    have hsound := h.close.sound hfresh
    rw [Sound, if_pos (closed_close t)] at hsound
    -- Nothing is open once the scan is closed, so no callbacks are needed to complete it.
    have hdone : Completes t.close.2 [] := by
      rw [Completes, openLeaf?, hsound.1, hsound.2]
      exact Nested.nil
    have hcompletes := h.close.completes hfresh hdone
    rw [List.append_nil] at hcompletes
    exact hcompletes
  refine ⟨?_, hnested, fun log' t' h' => (h'.eq_of_closed (closed_close t)).1⟩
  rintro sofar ⟨more, rfl⟩
  exact ⟨more ++ t.close.1, by rwa [← List.append_assoc]⟩

/-- A leaf of two bytes of which one came, and the scan closed. -/
theorem session_nested_of_short_leaf :
    let p := parse Collector.receiver.watched (fresh Matroska.schema 1)
      (⟨[0xEC, 0x82, 0x00], false⟩ : PushSource) { state := .ofConfig {} }
    p.receiver.callbacks.map (·.element.index) = [0, 0] ∧ p.scanner.close.1.length = 1 ∧
      Nested [] ([] ++ p.receiver.callbacks ++ p.scanner.close.1) :=
  ⟨by cbv, by cbv, (session_nested (.parse _ _ _ .begin)).2.1⟩

end Scanner

end Ebml
