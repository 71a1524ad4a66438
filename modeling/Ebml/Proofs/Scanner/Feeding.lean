import Ebml.Proofs.Scanner.Halting
import Ebml.Proofs.Scanner.Ledger
import Ebml.Proofs.Scanner.Session

/-!
# Feeding a scanner

Bytes are pushed and parsed in any order and any number of times, with any receivers. What was taken
and what still waits in the source are together what was pushed (`Feeding.halts`). After a parse that
came to an end by itself nothing waits, and the ledger of the scan is that of the whole input
(`Feeding.divides`).
-/

namespace Ebml.Scanner

/-- Pushes and parses in any order: all bytes pushed, all callbacks, the scanner and the source. -/
inductive Feeding (schema : Schema) (maxChunk : Nat) :
    Bytes → List Event → Scanner → PushSource → Prop
  | begin : Feeding schema maxChunk [] [] (fresh schema maxChunk) {}
  | push {input : Bytes} {log : List Event} {t : Scanner} {s : PushSource} (chunk : Bytes) :
      s.finished = false → Feeding schema maxChunk input log t s →
        Feeding schema maxChunk (input ++ chunk) log t (s.push chunk)
  | finish {input : Bytes} {log : List Event} {t : Scanner} {s : PushSource} :
      Feeding schema maxChunk input log t s → Feeding schema maxChunk input log t s.finish
  | parse {input : Bytes} {log : List Event} {t : Scanner} {s : PushSource} {κ : Type}
      (r : Receiver κ) (k : κ) :
      Feeding schema maxChunk input log t s →
        Feeding schema maxChunk input
          (log ++ (Scanner.parse r.watched t s { state := k }).receiver.callbacks)
          (Scanner.parse r.watched t s { state := k }).scanner
          (Scanner.parse r.watched t s { state := k }).source

namespace Feeding

variable {schema : Schema} {maxChunk : Nat} {input : Bytes} {log : List Event} {t : Scanner}
  {s : PushSource}

/-- The scanner is at the end of a trail through the bytes that the source handed out. -/
theorem trail (h : Feeding schema maxChunk input log t s) :
    ∃ bytes, Trail (fresh schema maxChunk) bytes log t ∧ input = bytes ++ s.buffer := by
  induction h with
  | begin => exact ⟨[], .refl _, rfl⟩
  | push chunk hopen _ ih =>
    obtain ⟨bytes, htrail, rfl⟩ := ih
    refine ⟨bytes, htrail, ?_⟩
    simp [PushSource.push, hopen]
  | finish _ ih => exact ih
  | @parse _ _ t s _ r k _ ih =>
    obtain ⟨bytes, htrail, rfl⟩ := ih
    have hsound : t.Sound :=
      (htrail.coherent (coherent_fresh _ _)).sound htrail.frame.closed_eq
    obtain ⟨more, events, hhands, htrail', hcallbacks⟩ := parse_watched r s ⟨k, [], true⟩ hsound
    rw [List.nil_append] at hcallbacks
    rw [hcallbacks, (PushSource.buffer_of_hands hhands).1, ← List.append_assoc]
    exact ⟨bytes ++ more, htrail.trans htrail', rfl⟩

/-- The scanner counts the bytes that the source handed out. -/
theorem consumed_eq (h : Feeding schema maxChunk input log t s) :
    t.consumed + s.buffer.length = input.length := by
  obtain ⟨bytes, htrail, rfl⟩ := h.trail
  rw [htrail.frame.consumed_eq, List.length_append]
  simp [fresh]

/-- The scanner is open and fit for use. -/
theorem coherent (h : Feeding schema maxChunk input log t s) : t.Coherent ∧ t.closed = false := by
  obtain ⟨bytes, htrail, -⟩ := h.trail
  exact ⟨htrail.coherent (coherent_fresh _ _), htrail.frame.closed_eq⟩

/-- Whatever one more parse comes to, with what came before it is a trail through the input up to
the bytes that still wait, and it halts like every run, though never for a failure of the source. -/
theorem halts {κ : Type} (h : Feeding schema maxChunk input log t s) (hchunk : 0 < maxChunk)
    (r : Receiver κ) (k : κ) {p : Parsed PushSource (Watch κ)}
    (hp : Scanner.parse r.watched t s { state := k } = p) :
    ∃ bytes, input = bytes ++ p.source.buffer ∧
      Trail (fresh schema maxChunk) bytes (log ++ p.receiver.callbacks) p.scanner ∧
      Halt p.receiver.willing p.scanner p.source p.outcome ∧ ∀ e, p.outcome ≠ .error (.io e) := by
  obtain ⟨before, hbefore, rfl⟩ := h.trail
  obtain ⟨hco, hopen⟩ := h.coherent
  rw [Scanner.parse, if_neg (by simp [hopen])] at hp
  have hchunk' : 0 < t.maxChunk := by rwa [hbefore.frame.maxChunk_eq]
  have hio := fun e => run_ne_io r.watched t s ⟨k, [], true⟩ e
  obtain ⟨bytes, events, w, hhands, htrail, hheard, hreceiver, hhalt⟩ :=
    run_halts r.watched s ⟨k, [], true⟩ hco hchunk'
  rw [hp] at hhands htrail hreceiver hhalt hio
  have hcallbacks : p.receiver.callbacks = events := by
    rw [hreceiver, callbacks_poll, hheard.callbacks_eq, List.nil_append]
  refine ⟨before ++ bytes, ?_, ?_, ?_, hio⟩
  · rw [List.append_assoc, ← (PushSource.buffer_of_hands hhands).1]
  · rw [hcallbacks]
    exact hbefore.trans htrail
  · rwa [hreceiver, willing_poll]

/-- After a parse that neither failed nor was paused, the input divides into pieces that the
callbacks tell. -/
theorem divides {κ : Type} (h : Feeding schema maxChunk input log t s) (hchunk : 0 < maxChunk)
    (r : Receiver κ) (k : κ) (hok : (Scanner.parse r.watched t s { state := k }).outcome = .ok ())
    (hwilling : (Scanner.parse r.watched t s { state := k }).receiver.willing = true) :
    ∃ pieces tail, Divides schema pieces tail input ∧
      Tells schema pieces
        (log ++ (Scanner.parse r.watched t s { state := k }).receiver.callbacks) := by
  obtain ⟨bytes, hinput, htrail, hhalt, -⟩ := h.halts hchunk r k rfl
  generalize Scanner.parse r.watched t s { state := k } = p at *
  rw [hok] at hhalt
  -- Of the ways for a run to halt only that of used up bytes fits what is known of this one.
  cases hhalt with
  | paused hno => simp [hno] at hwilling
  | usedUp _ hheld hlacking =>
    have hempty : p.source.buffer = [] := hheld
    have hledger := htrail.ledger (coherent_fresh _ _) (ledger_of_begun rfl rfl rfl rfl)
    obtain ⟨pieces, tail, hdivides, htells⟩ := hledger.divides hlacking
    rw [htrail.frame.schema_eq] at hdivides htells
    rw [hinput, hempty, List.append_nil]
    exact ⟨pieces, tail, hdivides, htells⟩

end Feeding

end Ebml.Scanner
