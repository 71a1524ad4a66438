import Mathlib
import Ebml.Proofs.Reader.Collecting
import Ebml.Proofs.Scanner.Session

/-!
# How many elements wait

No step reports two events, though one that ends masters or a leaf may well have more to end: it comes
back for the next (`Scanner.length_reported_step_le`). A scan asks its receiver before every step, so
it hands over at most one event after each yes (`Paced`). A collector says no while an element waits
in it, so no more than one ever waits before the scan is
closed (`queue_bounded`). Closing asks nobody and hands over all ends at once, one for each open
master and one for the leaf that was open, if there was one.
-/

namespace Ebml

/-! ## What is said to a receiver -/

/-- What a scan says to its receiver. -/
inductive Message
  /-- It asked whether to go on and got this answer. -/
  | asked (willing : Bool)
  | told (event : Event)

/-- A receiver's state and everything that was said to it. -/
structure Recorded (κ : Type) where
  state : κ
  messages : List Message := []

/-- The receiver with a record of what is said to it. -/
def Receiver.recorded {κ : Type} (r : Receiver κ) : Receiver (Recorded κ) where
  poll w :=
    let (answer, state) := r.poll w.state
    (answer, ⟨state, w.messages ++ [.asked answer]⟩)
  handle event w := ⟨r.handle event w.state, w.messages ++ [.told event]⟩

/-- Every event comes right after a yes, and after a no there is nothing. -/
inductive Paced : List Message → Prop
  | nil : Paced []
  | no : Paced [.asked false]
  | yes {events : List Event} {later : List Message} :
      events.length ≤ 1 → Paced later → Paced (.asked true :: events.map .told ++ later)

theorem messages_deliverAll {κ : Type} (r : Receiver κ) (events : List Event) (w : Recorded κ) :
    (r.recorded.deliverAll events w).messages = w.messages ++ events.map .told := by
  induction events generalizing w with
  | nil => exact (List.append_nil _).symm
  | cons event rest ih =>
    refine (ih (r.recorded.handle event w)).trans ?_
    simp [Receiver.recorded]

namespace Scanner

/-- A step that moves on reports at most one event. -/
theorem length_le_of_step {σ : Type} [ByteSource σ] {t : Scanner} {s : σ} {events : List Event}
    (h : (step t s).outcome = .ok (.moved events)) : events.length ≤ 1 := by
  have hle := length_reported_step_le t s
  rwa [h] at hle

variable {σ κ : Type} [FiniteSource σ]

/-- A run adds to the record what is paced. -/
theorem paced_run (r : Receiver κ) (t : Scanner) (s : σ) (w : Recorded κ) :
    ∃ messages, (run r.recorded t s w).receiver.messages = w.messages ++ messages ∧
      Paced messages := by
  fun_induction run r.recorded t s w with
  | case1 t s w w' hpoll =>
    obtain ⟨hno, rfl⟩ := Prod.mk.inj hpoll
    exact ⟨[.asked false], by rw [hno], .no⟩
  | case2 t s w w' hpoll e t' s' _ =>
    obtain ⟨hyes, rfl⟩ := Prod.mk.inj hpoll
    exact ⟨[.asked true], by rw [hyes], @Paced.yes [] [] (Nat.zero_le 1) .nil⟩
  | case3 t s w w' hpoll t' s' _ =>
    obtain ⟨hyes, rfl⟩ := Prod.mk.inj hpoll
    exact ⟨[.asked true], by rw [hyes], @Paced.yes [] [] (Nat.zero_le 1) .nil⟩
  | case4 t s w w' hpoll events t' s' hstep ih =>
    obtain ⟨hyes, rfl⟩ := Prod.mk.inj hpoll
    obtain ⟨messages, hmessages, hpaced⟩ := ih
    have hone : events.length ≤ 1 := length_le_of_step (t := t) (s := s) (by rw [hstep])
    refine ⟨_, hmessages.trans ?_, .yes hone hpaced⟩
    rw [messages_deliverAll, hyes]
    simp

theorem paced_parse (r : Receiver κ) (t : Scanner) (s : σ) (k : κ) :
    Paced (parse r.recorded t s { state := k }).receiver.messages := by
  unfold parse
  split
  · exact .nil
  · obtain ⟨messages, hmessages, hpaced⟩ := paced_run r t s { state := k }
    rw [hmessages]
    exact hpaced

/-! ## How many events closing reports -/

theorem length_finishAll (stack : List OpenMaster) : (finishAll stack).length = stack.length := by
  induction stack with
  | nil => rfl
  | cons m outer ih => rw [finishAll, List.length_cons, ih, List.length_cons]

/-- Closing reports one end for each open master and at most one more. -/
theorem length_close_le (t : Scanner) : t.close.1.length ≤ t.depth + 1 := by
  unfold close
  split
  · exact Nat.zero_le _
  · have hleaf : (t.openLeaf?.map (Event.finish · t.path)).toList.length ≤ 1 := by
      cases t.openLeaf? <;> simp
    rw [List.length_append, length_finishAll, depth]
    omega

end Scanner

/-! ## The queue of a collector -/

namespace Collector

/-- An event adds at most one element. -/
theorem length_pending_handle_le (event : Event) (k : Collector) :
    (handle event k).pending.length ≤ k.pending.length + 1 := by
  have henqueue (e : Element) : (k.enqueue e).pending.length = k.pending.length + 1 :=
    List.length_append
  -- No branch enqueues twice.
  unfold handle
  split
  · split
    · exact Nat.le_succ _
    · split
      · exact Nat.le_of_eq (henqueue _)
      · exact Nat.le_succ _
  · split
    · split <;> exact Nat.le_succ _
    · exact Nat.le_succ _
  · split
    · exact Nat.le_succ _
    · split
      · exact Nat.le_of_eq (henqueue _)
      · split
        · split
          · exact Nat.le_of_eq (henqueue _)
          · exact Nat.le_succ _
        · exact Nat.le_succ _

theorem length_pending_deliverAll_le (events : List Event) (k : Collector) :
    (receiver.deliverAll events k).pending.length ≤ k.pending.length + events.length := by
  induction events generalizing k with
  | nil => exact Nat.le_refl _
  | cons event rest ih =>
    have hone := length_pending_handle_le event k
    have hrest := ih (handle event k)
    rw [deliverAll_cons, List.length_cons]
    omega

/-- A run leaves at most one element waiting: it goes on only while none is. -/
theorem length_pending_run_le {σ : Type} [FiniteSource σ] (t : Scanner) (s : σ) (k : Collector)
    (h : k.pending.length ≤ 1) : (Scanner.run receiver t s k).receiver.pending.length ≤ 1 := by
  fun_induction Scanner.run receiver t s k with
  | case1 t s k k' hpoll =>
    obtain ⟨-, rfl⟩ := Prod.mk.inj hpoll
    exact h
  | case2 t s k k' hpoll =>
    obtain ⟨-, rfl⟩ := Prod.mk.inj hpoll
    exact h
  | case3 t s k k' hpoll =>
    obtain ⟨-, rfl⟩ := Prod.mk.inj hpoll
    exact h
  | case4 t s k k' hpoll events t' s' hstep ih =>
    obtain ⟨hyes, rfl⟩ := Prod.mk.inj hpoll
    apply ih
    -- The collector was willing, so nothing waited before this step.
    have hempty : k.pending = [] := by simpa [hasPending] using hyes
    have hone : events.length ≤ 1 := Scanner.length_le_of_step (t := t) (s := s) (by rw [hstep])
    calc (receiver.deliverAll events k).pending.length
        ≤ k.pending.length + events.length := length_pending_deliverAll_le events k
      _ ≤ 1 := by rw [hempty, List.length_nil]; omega

/-- While an element waits, parsing does nothing but ask. -/
theorem parse_of_pending {σ : Type} [FiniteSource σ] {k : Collector} (h : k.hasPending = true)
    (t : Scanner) (s : σ) :
    Scanner.parse receiver.recorded t s { state := k } =
      ⟨.ok (), t, s, ⟨k, if t.closed then [] else [.asked false]⟩⟩ := by
  unfold Scanner.parse
  split
  · rfl
  · have hpoll : receiver.recorded.poll { state := k } = (false, ⟨k, [.asked false]⟩) := by
      simp [Receiver.recorded, receiver, h]
    rw [Scanner.run, hpoll]

end Collector

/-! ## A scan and the collector of its events -/

open Scanner (fresh)

/-- A scanner and the collector of its events after parses, over whatever sources and however they
ended, elements taken out and closings, in any order. -/
inductive Gathering (start : Scanner) (c : ReaderConfig) : Scanner → Collector → Prop
  | begin : Gathering start c start (.ofConfig c)
  | parse {σ : Type} [FiniteSource σ] (s : σ) {t : Scanner} {k : Collector} :
      Gathering start c t k →
        Gathering start c (Scanner.parse Collector.receiver t s k).scanner
          (Scanner.parse Collector.receiver t s k).receiver
  | pop {t : Scanner} {k : Collector} : Gathering start c t k → Gathering start c t k.pop.2
  | close {t : Scanner} {k : Collector} :
      Gathering start c t k →
        Gathering start c t.close.2 (Collector.receiver.deliverAll t.close.1 k)

namespace Gathering

variable {start t : Scanner} {c : ReaderConfig} {k : Collector}

/-- At most one element waits before the scan is closed. -/
theorem length_pending_le (h : Gathering start c t k) (hopen : t.closed = false) :
    k.pending.length ≤ 1 := by
  induction h with
  | begin => exact Nat.zero_le _
  | @parse σ _ s t k _ ih =>
    cases hclosed : t.closed with
    | true => simp [Scanner.parse_of_closed _ _ _ hclosed, hclosed] at hopen
    | false =>
      rw [Scanner.parse, if_neg (by simp [hclosed])]
      exact Collector.length_pending_run_le t s k (ih hclosed)
  | @pop t k _ ih =>
    have hle := ih hopen
    show k.pending.tail.length ≤ 1
    rw [List.length_tail]
    omega
  | @close t k _ _ => simp [Scanner.closed_close] at hopen

end Gathering

/-- No step reports more than one event, whatever the scanner and the source, so between one question
and the next a scan tells its collector at most one. At most one element waits before the scan is
closed; while one waits, parsing takes no byte, tells no event and leaves scan and collector as they
are; and closing adds at most one element for each open master and one more. -/
theorem queue_bounded (schema : Schema) (maxChunk : Nat) (c : ReaderConfig) {t : Scanner}
    {k : Collector} (h : Gathering (fresh schema maxChunk) c t k) :
    (∀ {σ : Type} [ByteSource σ] (u : Scanner) (s : σ) (events : List Event),
      (Scanner.step u s).outcome = .ok (.moved events) → events.length ≤ 1) ∧
      (t.closed = false → k.pending.length ≤ 1) ∧
      (∀ {σ : Type} [FiniteSource σ] (s : σ),
        let p := Scanner.parse Collector.receiver.recorded t s { state := k }
        Paced p.receiver.messages ∧
          (k.hasPending = true →
            p.outcome = .ok () ∧ p.scanner = t ∧ p.source = s ∧ p.receiver.state = k ∧
              ∀ event, .told event ∉ p.receiver.messages)) ∧
      (Collector.receiver.deliverAll t.close.1 k).pending.length ≤
        k.pending.length + t.depth + 1 := by
  refine ⟨fun u s events => Scanner.length_le_of_step, h.length_pending_le,
    fun s => ⟨Scanner.paced_parse _ t s k, fun hpending => ?_⟩, ?_⟩
  · rw [Collector.parse_of_pending hpending]
    refine ⟨rfl, rfl, rfl, rfl, fun event => ?_⟩
    split <;> simp
  · have hqueue := Collector.length_pending_deliverAll_le t.close.1 k
    have hclose := t.length_close_le
    omega

/-- The headers of a master of unknown length and of one inside it. -/
def liveHeaders : Bytes := [0x18, 0x53, 0x80, 0x67, 0xFF, 0x1F, 0x43, 0xB6, 0x75, 0xFF]

/-- The first parse of `liveHeaders`. -/
def firstLiveParse : Scanner.Parsed PushSource Collector :=
  Scanner.parse Collector.receiver (fresh Matroska.schema 1) (PushSource.ofBytes liveHeaders)
    (.ofConfig {})

/-- The parse after it, once the start of the outer master is taken out. -/
def secondLiveParse : Scanner.Parsed PushSource Collector :=
  Scanner.parse Collector.receiver firstLiveParse.scanner firstLiveParse.source
    firstLiveParse.receiver.pop.2

/-- Each parse leaves one start waiting, and closing then adds the two ends. -/
theorem queue_bounded_of_live_masters :
    (firstLiveParse.receiver.pending.length = 1 ∧ firstLiveParse.scanner.consumed = 5 ∧
        (Scanner.parse Collector.receiver.recorded firstLiveParse.scanner firstLiveParse.source
          { state := firstLiveParse.receiver }).scanner = firstLiveParse.scanner) ∧
      secondLiveParse.receiver.pending.length ≤ 1 ∧ secondLiveParse.scanner.depth = 2 ∧
      (Collector.receiver.deliverAll secondLiveParse.scanner.close.1
        secondLiveParse.receiver).pending.length = 3 ∧
      (Collector.receiver.deliverAll secondLiveParse.scanner.close.1
        secondLiveParse.receiver).pending.length ≤
        secondLiveParse.receiver.pending.length + secondLiveParse.scanner.depth + 1 := by
  have hfirst : Gathering (fresh Matroska.schema 1) {} firstLiveParse.scanner
      firstLiveParse.receiver := .parse _ .begin
  have hsecond : Gathering (fresh Matroska.schema 1) {} secondLiveParse.scanner
      secondLiveParse.receiver := .parse _ hfirst.pop
  have hwaiting := queue_bounded Matroska.schema 1 {} hfirst
  have hlive := queue_bounded Matroska.schema 1 {} hsecond
  have hpending : firstLiveParse.receiver.hasPending = true := by cbv
  exact ⟨⟨by cbv, by cbv, ((hwaiting.2.2.1 firstLiveParse.source).2 hpending).2.1⟩,
    hlive.2.1 (by cbv), by cbv, by cbv, hlive.2.2.2⟩

end Ebml
