import Mathlib
import Ebml.Proofs.Scanner.Feeding
import Ebml.Schema.Matroska

/-!
# Pausing a scan

A receiver may say no before any step, and its caller parses again when it likes. A caller that goes
on until a parse was not paused comes to the same scanner, to the same callbacks but for how data is
cut, and to the same outcome as one whose receiver never says no (`pausing_changes_nothing`): both
come to rest on the same bytes, and there is only one way to do so.
-/

namespace Ebml

open Scanner (Heard)

namespace Receiver

/-- What may have become of a receiver in state `before` when it said no. -/
def SaidNo {κ : Type} (r : Receiver κ) (after before : κ) : Prop :=
  ∃ events k, Heard r before events k ∧ (r.poll k).1 = false ∧ after = (r.poll k).2

/-- Whatever it hears, the receiver says no only so many times. -/
def Relents {κ : Type} (r : Receiver κ) : Prop :=
  WellFounded r.SaidNo

/-- Answers from a list, and yes when that is used up. -/
def scripted : Receiver (List Bool) where
  poll
    | [] => (true, [])
    | answer :: rest => (answer, rest)
  handle _ answers := answers

/-- Each no of a script shortens it. -/
theorem relents_scripted : scripted.Relents := by
  have hheard : ∀ {events : List Event} {answers answers' : List Bool},
      Heard scripted answers events answers' → answers'.length ≤ answers.length := by
    intro events answers answers' h
    induction h with
    | refl => exact Nat.le_refl _
    | @polled answers _ _ _ ih =>
      refine Nat.le_trans ih ?_
      cases answers with
      | nil => exact Nat.le_refl _
      | cons answer rest => exact Nat.le_succ _
    | handled _ ih => exact ih
  refine Subrelation.wf ?_ (measure List.length).wf
  rintro after before ⟨events, answers, h, hno, rfl⟩
  refine Nat.lt_of_lt_of_le ?_ (hheard h)
  cases answers with
  | nil => simp [scripted] at hno
  | cons answer rest => exact Nat.lt_succ_self _

/-- Counts events, and says no from the `n`-th one on. -/
def upTo (n : Nat) : Receiver Nat where
  poll heard := (decide (heard < n), heard)
  handle _ heard := heard + 1

theorem heard_upTo {n heard heard' : Nat} {events : List Event}
    (h : Heard (upTo n) heard events heard') : heard' = heard + events.length := by
  induction h with
  | refl => rfl
  | polled _ ih => exact ih
  | handled _ ih => rw [ih, List.length_cons, upTo, Nat.add_assoc, Nat.add_comm 1]

end Receiver

namespace Event

/-- Whether an element starts or ends with the event. -/
def isBoundary : Event → Bool
  | content .. => false
  | _ => true

/-- How data is cut makes no difference to starts and ends. -/
theorem filter_isBoundary_bytewise (log : List Event) :
    (log.flatMap bytewise).filter isBoundary = log.filter isBoundary := by
  induction log with
  | nil => rfl
  | cons e log ih =>
    rw [List.flatMap_cons, List.filter_append, ih]
    cases e with
    | content o chunk =>
      have hnone : (dataEvents o chunk).filter isBoundary = [] := by simp [dataEvents, isBoundary]
      rw [bytewise, hnone, List.filter_cons_of_neg (by simp [isBoundary]), List.nil_append]
    | start => rfl
    | finish => rfl

/-- How data is cut makes no difference to what it is. -/
theorem dataOf_bytewise (log : List Event) (index : Nat) :
    (log.flatMap bytewise).flatMap (dataOf index) = log.flatMap (dataOf index) := by
  induction log with
  | nil => rfl
  | cons e log ih =>
    rw [List.flatMap_cons, List.flatMap_append, ih, List.flatMap_cons]
    cases e with
    | content o chunk =>
      by_cases hindex : o.index = index
      · simp [bytewise, dataEvents, List.flatMap_map, dataOf, hindex]
      · simp [bytewise, dataEvents, List.flatMap_map, dataOf, hindex]
    | start => simp [bytewise]
    | finish => simp [bytewise]

end Event

/-- Two logs tell the same: the same elements start and end in the same order, each start with the
same size, header and path, and the data of each element is the same. -/
structure TellAlike (log log' : List Event) : Prop where
  boundaries_eq : log.filter Event.isBoundary = log'.filter Event.isBoundary
  data_eq : ∀ index, log.flatMap (Event.dataOf index) = log'.flatMap (Event.dataOf index)

theorem tellAlike_of_bytewise {log log' : List Event}
    (h : log.flatMap Event.bytewise = log'.flatMap Event.bytewise) : TellAlike log log' where
  boundaries_eq := by
    rw [← Event.filter_isBoundary_bytewise log, h, Event.filter_isBoundary_bytewise]
  data_eq index := by rw [← Event.dataOf_bytewise log, h, Event.dataOf_bytewise]

namespace Scanner

variable {σ κ : Type} [FiniteSource σ]

/-! ## What a receiver is left with -/

/-- Behind its record a receiver hears the same. -/
theorem Heard.unwatched {r : Receiver κ} {w w' : Watch κ} {events : List Event}
    (h : Heard r.watched w events w') : Heard r w.state events w'.state := by
  induction h with
  | refl => exact .refl _
  | polled _ ih => exact .polled ih
  | handled _ ih => exact .handled ih

theorem Heard.delivered_after {r : Receiver κ} {k k' : κ} {events : List Event} (told : List Event)
    (h : Heard r k events k') : Heard r k (events ++ told) (r.deliverAll told k') := by
  induction h with
  | refl k =>
    have htold := @Heard.delivered κ r k _ told [] (.refl _)
    rwa [List.append_nil] at htold
  | polled _ ih => exact .polled ih
  | handled _ ih => exact .handled ih

/-- The last that happens to a receiver in a run is that it is asked. -/
theorem run_heard (r : Receiver κ) (t : Scanner) (s : σ) (k : κ) :
    ∃ events k', Heard r k events k' ∧ (run r t s k).receiver = (r.poll k').2 := by
  fun_induction run r t s k with
  | case1 t s k k' hpoll => exact ⟨[], k, .refl k, by rw [hpoll]⟩
  | case2 t s k k' hpoll => exact ⟨[], k, .refl k, by rw [hpoll]⟩
  | case3 t s k k' hpoll => exact ⟨[], k, .refl k, by rw [hpoll]⟩
  | case4 t s k k' hpoll told t' s' _ ih =>
    obtain ⟨events, k'', hheard, hreceiver⟩ := ih
    refine ⟨told ++ events, k'', .polled ?_, hreceiver⟩
    rw [hpoll]
    exact hheard.delivered

/-- A parse that was paused leaves a receiver that said no. -/
theorem saidNo_of_paused {r : Receiver κ} {t : Scanner} {s : σ} {k : κ}
    (h : (parse r.watched t s { state := k }).receiver.willing = false) :
    r.SaidNo (parse r.watched t s { state := k }).receiver.state k := by
  unfold parse at h ⊢
  split at h
  · simp at h
  · rename_i hopen
    rw [if_neg hopen]
    obtain ⟨events, w, hheard, hreceiver⟩ := run_heard r.watched t s { state := k }
    rw [hreceiver] at h ⊢
    exact ⟨events, w.state, hheard.unwatched, h, rfl⟩

/-! ## Parsing until nothing pauses -/

/-- Parse again and again until a parse is not paused. All callbacks are on record. -/
def exhaust (r : Receiver κ) (hr : r.Relents) (t : Scanner) (s : σ) (k : κ) : Parsed σ (Watch κ) :=
  let parsed := parse r.watched t s { state := k }
  if _hpaused : parsed.receiver.willing = false then
    let rest := exhaust r hr parsed.scanner parsed.source parsed.receiver.state
    { rest with
      receiver :=
        { rest.receiver with callbacks := parsed.receiver.callbacks ++ rest.receiver.callbacks } }
  else parsed
termination_by hr.wrap k
decreasing_by exact saidNo_of_paused _hpaused

/-- Parsing until nothing pauses is any number of parses and one more that is not paused. -/
theorem Feeding.exhaust {schema : Schema} {maxChunk : Nat} {input : Bytes} {log : List Event}
    {t : Scanner} {s : PushSource} (h : Feeding schema maxChunk input log t s) (r : Receiver κ)
    (hr : r.Relents) (k : κ) :
    ∃ log' t' s' k', Feeding schema maxChunk input log' t' s' ∧
      let last := Scanner.parse r.watched t' s' { state := k' }
      let all := Scanner.exhaust r hr t s k
      last.receiver.willing = true ∧ all.outcome = last.outcome ∧ all.scanner = last.scanner ∧
        all.source = last.source ∧
        log ++ all.receiver.callbacks = log' ++ last.receiver.callbacks := by
  fun_induction Scanner.exhaust r hr t s k generalizing log with
  | case1 t s k parsed =>
    rename_i _ rest ih
    obtain ⟨log', t', s', k', hfed, hwilling, houtcome, hscanner, hsource, hcallbacks⟩ :=
      ih (h.parse r k)
    refine ⟨log', t', s', k', hfed, hwilling, houtcome, hscanner, hsource, ?_⟩
    rw [← hcallbacks, List.append_assoc]
  | case2 t s k parsed =>
    rename_i hwilling
    exact ⟨log, t, s, k, h, by simpa using hwilling, rfl, rfl, rfl, rfl⟩

/-! ## Pauses change nothing -/

/-- After a parse that was not paused the scan rests on the bytes that wait, and its outcome can be
told from the scanner. -/
theorem Feeding.rests {schema : Schema} {maxChunk : Nat} {input : Bytes} {log : List Event}
    {t : Scanner} {s : PushSource} (h : Feeding schema maxChunk input log t s)
    (hchunk : 0 < maxChunk) (r : Receiver κ) (k : κ) {p : Parsed PushSource (Watch κ)}
    (hp : Scanner.parse r.watched t s { state := k } = p) (hwilling : p.receiver.willing = true) :
    ∃ bytes, input = bytes ++ p.source.buffer ∧
      Bytewise (fresh schema maxChunk).unnumbered bytes
        ((log ++ p.receiver.callbacks).flatMap Event.bytewise) p.scanner.unnumbered ∧
      p.scanner.Coherent ∧ p.scanner.AtRest p.source.buffer ∧
      p.outcome = (p.scanner.forecast []).ending := by
  obtain ⟨bytes, hinput, htrail, hhalt, hio⟩ := h.halts hchunk r k hp
  have hfresh := coherent_fresh schema maxChunk
  obtain ⟨outcome, t', s', w⟩ := p
  refine ⟨bytes, hinput, htrail.bytewise hfresh, htrail.coherent hfresh, ?_⟩
  dsimp only at hwilling hhalt htrail hio ⊢
  cases hhalt with
  | paused hno => simp [hno] at hwilling
  | usedUp _ hheld hlacking =>
    have hempty : s'.buffer = [] := hheld
    rw [hempty, hlacking.forecast_nil (htrail.coherent hfresh) htrail.frame.closed_eq]
    exact ⟨hlacking.atRest, rfl⟩
  | balked e => exact absurd rfl (hio e)
  | refused _ _ hends hrests => exact ⟨hrests _, by rw [hends]⟩

section

variable {r : Receiver κ} {k : κ} {n : Nat}
  (hturns : ∀ events k', Heard r k events k' → n ≤ events.length → (r.poll k').1 = false)

include hturns

/-- A run that begins with a record of what was heard since `k` does not make it longer than `n`. -/
theorem length_callbacks_run_le (t : Scanner) (s : σ) (w : Watch κ)
    (hheard : Heard r k w.callbacks w.state) (hle : w.callbacks.length ≤ n) :
    (run r.watched t s w).receiver.callbacks.length ≤ n := by
  fun_induction run r.watched t s w with
  | case1 t s w w' hpoll =>
    obtain rfl : _ = w' := congrArg Prod.snd hpoll
    exact hle
  | case2 t s w w' hpoll =>
    obtain rfl : _ = w' := congrArg Prod.snd hpoll
    exact hle
  | case3 t s w w' hpoll =>
    obtain rfl : _ = w' := congrArg Prod.snd hpoll
    exact hle
  | case4 t s w w' hpoll told t' s' hstep ih =>
    obtain rfl : _ = w' := congrArg Prod.snd hpoll
    have hcases := reported_step_cases t s
    rw [hstep] at hcases
    obtain rfl | ⟨event, rfl⟩ : told = [] ∨ ∃ event, told = [event] := hcases
    · exact ih hheard.polled_after hle
    · refine ih (hheard.polled_after.delivered_after [event]) ?_
      -- It said yes, so it had heard fewer than `n` events before this one.
      have hlt : w.callbacks.length < n := by
        refine Nat.lt_of_not_le fun hge => ?_
        have hno := hturns _ _ hheard hge
        simp [Receiver.watched, hno] at hpoll
      show (w.callbacks ++ [event]).length ≤ n
      rw [List.length_append, List.length_singleton]
      exact hlt

/-- A receiver that says no as soon as it heard `n` events of a parse hears no more of it. -/
theorem length_callbacks_le (t : Scanner) (s : σ) :
    (parse r.watched t s { state := k }).receiver.callbacks.length ≤ n := by
  unfold parse
  split
  · exact Nat.zero_le n
  · exact length_callbacks_run_le hturns t s { state := k } (.refl k) (Nat.zero_le n)

end

/-- A receiver that never says no pauses no parse. -/
theorem willing_of_never (r : Receiver κ) (hnever : ∀ k, (r.poll k).1 = true) (t : Scanner) (s : σ)
    (k : κ) : (parse r.watched t s { state := k }).receiver.willing = true := by
  unfold parse
  split
  · rfl
  · obtain ⟨_, w, -, hreceiver⟩ := run_heard r.watched t s { state := k }
    rw [hreceiver, willing_poll]
    exact hnever w.state

/-- Pauses change nothing. Bytes are pushed in any pieces and parsed with any receivers, and in the
end with one that says no where it likes, again and again until a parse is not paused. This comes to
the same scanner, outcome and callbacks as any way to feed the same bytes that ends with a receiver
which never says no. And a receiver that says no as soon as it heard `n` events of a parse hears no
more of that parse. -/
theorem pausing_changes_nothing (schema : Schema) (maxChunk : Nat) (hchunk : 0 < maxChunk) :
    (∀ input log t s log' t' s', Feeding schema maxChunk input log t s →
      Feeding schema maxChunk input log' t' s' →
        ∀ {κ κ' : Type} (r : Receiver κ) (hr : r.Relents) (k : κ) (r' : Receiver κ') (k' : κ'),
          (∀ k', (r'.poll k').1 = true) →
            let paused := exhaust r hr t s k
            let whole := parse r'.watched t' s' { state := k' }
            paused.outcome = whole.outcome ∧ paused.scanner = whole.scanner ∧
              paused.source.buffer = whole.source.buffer ∧
              TellAlike (log ++ paused.receiver.callbacks) (log' ++ whole.receiver.callbacks)) ∧
      ∀ {σ κ : Type} [FiniteSource σ] (r : Receiver κ) (t : Scanner) (s : σ) (k : κ) (n : Nat),
        (∀ events k', Heard r k events k' → n ≤ events.length → (r.poll k').1 = false) →
          (parse r.watched t s { state := k }).receiver.callbacks.length ≤ n := by
  refine ⟨fun input log t s log' t' s' h h' κ κ' r hr k r' k' hnever => ?_,
    fun r t s k n hturns => length_callbacks_le hturns t s⟩
  obtain ⟨log₁, t₁, s₁, k₁, hfed, hwilling, houtcome, hscanner, hsource, hcallbacks⟩ :=
    h.exhaust r hr k
  dsimp only
  rw [houtcome, hscanner, hsource, hcallbacks]
  -- Both ways end at rest on the same bytes, and only one way leads there.
  obtain ⟨bytes, hinput, hbytewise, hco, hrest, hending⟩ := hfed.rests hchunk r k₁ rfl hwilling
  obtain ⟨bytes', hinput', hbytewise', hco', hrest', hending'⟩ :=
    h'.rests hchunk r' k' rfl (willing_of_never r' hnever t' s' k')
  obtain ⟨hbytes, hevents, hunnumbered⟩ :=
    hbytewise.unique hbytewise' hrest.rests hrest'.rests (hinput.symm.trans hinput')
  have hsame := eq_of_atRest hco hco' hrest hrest' hunnumbered
  refine ⟨?_, hsame, ?_, tellAlike_of_bytewise hevents⟩
  · rw [hending, hending', hsame]
  · rw [hbytes, hinput'] at hinput
    exact (List.append_cancel_left hinput).symm

/-- A master that holds a leaf, its header in two pieces: once with pauses before the second step and
later on, once in one go; and a parse that wants two events. -/
theorem pausing_changes_nothing_of_script :
    let start := fresh Matroska.schema 1
    let eager : Receiver Unit := ⟨fun _ => (true, ()), fun _ _ => ()⟩
    let whole := parse eager.watched start
      (PushSource.push {} [0x1A, 0x45, 0xDF, 0xA3, 0x84, 0x42, 0x86, 0x81, 1]) { state := () }
    let part := parse Receiver.scripted.watched start (PushSource.push {} [0x1A, 0x45])
      { state := [true, false] }
    let paused := exhaust Receiver.scripted Receiver.relents_scripted part.scanner
      (part.source.push [0xDF, 0xA3, 0x84, 0x42, 0x86, 0x81, 1])
      [false, true, true, true, false, true, false]
    let limited := parse (Receiver.upTo 2).watched part.scanner
      (part.source.push [0xDF, 0xA3, 0x84, 0x42, 0x86, 0x81, 1]) { state := 0 }
    whole.receiver.callbacks.length = 5 ∧
      paused.outcome = whole.outcome ∧ paused.scanner = whole.scanner ∧
      paused.source.buffer = whole.source.buffer ∧
      TellAlike (part.receiver.callbacks ++ paused.receiver.callbacks) whole.receiver.callbacks ∧
      limited.receiver.callbacks.length ≤ 2 := by
  obtain ⟨halike, hlimited⟩ := pausing_changes_nothing Matroska.schema 1 (by decide)
  have hwhole : Feeding Matroska.schema 1 _ [] _ _ :=
    .push [0x1A, 0x45, 0xDF, 0xA3, 0x84, 0x42, 0x86, 0x81, 1] rfl .begin
  have hhead : Feeding Matroska.schema 1 _ [] _ _ := .push [0x1A, 0x45] rfl .begin
  have hpart := hhead.parse Receiver.scripted [true, false]
  have hpieces := Feeding.push [0xDF, 0xA3, 0x84, 0x42, 0x86, 0x81, 1] (by cbv) hpart
  obtain ⟨houtcome, hscanner, hbuffer, htell⟩ := halike _ _ _ _ _ _ _ hpieces hwhole
    Receiver.scripted Receiver.relents_scripted [false, true, true, true, false, true, false]
    ⟨fun _ => (true, ()), fun _ _ => ()⟩ () (fun _ => rfl)
  refine ⟨by cbv, houtcome, hscanner, hbuffer, htell, hlimited _ _ _ _ 2 ?_⟩
  intro events heard hheard hle
  rw [Receiver.heard_upTo hheard, Nat.zero_add]
  exact decide_eq_false (Nat.not_lt_of_le hle)

end Scanner

end Ebml
