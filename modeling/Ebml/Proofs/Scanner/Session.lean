import Ebml.Proofs.Scanner.Runs

/-!
# Sessions

A caller parses as often as it likes, each time with whatever source and receiver it has at hand, and
ends the scan when it likes. A session is any such use of a scanner, together with all callbacks that
it made.
-/

namespace Ebml

/-! ## Watching a receiver -/

/-- A receiver's state, the callbacks made so far, and what it said when it was last asked. -/
structure Watch (κ : Type) where
  state : κ
  callbacks : List Event := []
  willing : Bool := true

/-- The receiver with its callbacks on record. -/
def Receiver.watched {κ : Type} (r : Receiver κ) : Receiver (Watch κ) where
  poll w :=
    let (answer, state) := r.poll w.state
    (answer, { w with state := state, willing := answer })
  handle event w :=
    { w with state := r.handle event w.state, callbacks := w.callbacks ++ [event] }

namespace Scanner

/-- The record holds what was heard. -/
theorem Heard.callbacks_eq {κ : Type} {r : Receiver κ} {w w' : Watch κ} {events : List Event}
    (h : Heard r.watched w events w') : w'.callbacks = w.callbacks ++ events := by
  induction h with
  | refl => rw [List.append_nil]
  | polled _ ih => exact ih
  | handled _ ih => rw [ih]; exact List.append_assoc _ [_] _

/-- An answer is on record until the next one. -/
theorem willing_poll {κ : Type} (r : Receiver κ) (w : Watch κ) :
    (r.watched.poll w).2.willing = (r.watched.poll w).1 := rfl

theorem callbacks_poll {κ : Type} (r : Receiver κ) (w : Watch κ) :
    (r.watched.poll w).2.callbacks = w.callbacks := rfl

theorem callbacks_deliverAll {κ : Type} (r : Receiver κ) (events : List Event) (w : Watch κ) :
    (r.watched.deliverAll events w).callbacks = w.callbacks ++ events := by
  induction events generalizing w with
  | nil => exact (List.append_nil _).symm
  | cons e rest ih => exact (ih (r.watched.handle e w)).trans (List.append_assoc _ [e] rest)

theorem state_deliverAll {κ : Type} (r : Receiver κ) (events : List Event) (w : Watch κ) :
    (r.watched.deliverAll events w).state = r.deliverAll events w.state := by
  induction events generalizing w with
  | nil => rfl
  | cons e rest ih => exact ih (r.watched.handle e w)

/-! ## Fitness for use -/

/-- A scanner that is fit for use: it is coherent, or closed with nothing left open. -/
def Sound (t : Scanner) : Prop :=
  if t.closed then t.phase = .id ∧ t.stack = [] else t.Coherent

theorem Sound.coherent {t : Scanner} (h : t.Sound) (hopen : t.closed = false) : t.Coherent := by
  simpa [Sound, hopen] using h

theorem Coherent.sound {t : Scanner} (h : t.Coherent) (hopen : t.closed = false) : t.Sound := by
  simpa [Sound, hopen] using h

/-- A scanner before the first byte. -/
def fresh (schema : Schema) (maxChunk : Nat) : Scanner :=
  { schema := schema, maxChunk := maxChunk }

theorem coherent_fresh (schema : Schema) (maxChunk : Nat) : (fresh schema maxChunk).Coherent :=
  coherent_atBoundary (fresh schema maxChunk)

theorem sound_fresh (schema : Schema) (maxChunk : Nat) : (fresh schema maxChunk).Sound :=
  (coherent_fresh schema maxChunk).sound rfl

theorem sound_close {t : Scanner} (h : t.Sound) : t.close.2.Sound := by
  unfold close
  split
  · exact h
  · simp [Sound]

/-! ## Closed scanners -/

theorem parse_of_closed {σ κ : Type} [FiniteSource σ] (r : Receiver κ) {t : Scanner} (s : σ) (k : κ)
    (h : t.closed = true) : parse r t s k = ⟨.ok (), t, s, k⟩ := by
  rw [parse, if_pos h]

theorem close_of_closed {t : Scanner} (h : t.closed = true) : t.close = ([], t) := by
  rw [close, if_pos h]

theorem closed_close (t : Scanner) : t.close.2.closed = true := by
  unfold close
  split
  · assumption
  · rfl

theorem finish_of_mem_finishAll {stack : List OpenMaster} {e : Event} (h : e ∈ finishAll stack) :
    ∃ o path, e = .finish o path := by
  induction stack with
  | nil => simp [finishAll] at h
  | cons m outer ih =>
    rcases List.mem_cons.mp h with rfl | h
    · exact ⟨_, _, rfl⟩
    · exact ih h

/-- Closing reports nothing but ends. -/
theorem finish_of_mem_close {t : Scanner} {e : Event} (h : e ∈ t.close.1) :
    ∃ o path, e = .finish o path := by
  unfold close at h
  split at h
  · simp at h
  · rcases List.mem_append.mp h with h | h
    · cases hleaf : t.openLeaf? with
      | none => simp [hleaf] at h
      | some o => exact ⟨o, t.path, by simpa [hleaf] using h⟩
    · exact finish_of_mem_finishAll h

/-! ## What a parse comes to -/

/-- Every parse of a sound scanner is a trail whose events are the callbacks that it added to the
record. -/
theorem parse_watched {σ κ : Type} [FiniteSource σ] (r : Receiver κ) {t : Scanner} (s : σ)
    (w : Watch κ) (h : t.Sound) :
    ∃ bytes events, Hands s bytes (parse r.watched t s w).source ∧
      Trail t bytes events (parse r.watched t s w).scanner ∧
      (parse r.watched t s w).receiver.callbacks = w.callbacks ++ events := by
  cases hclosed : t.closed with
  | true =>
    rw [parse_of_closed _ _ _ hclosed]
    exact ⟨[], [], .refl s, .refl t, (List.append_nil _).symm⟩
  | false =>
    rw [parse, if_neg (by simp [hclosed])]
    obtain ⟨bytes, events, hhands, htrail, hheard⟩ :=
      run_trail r.watched t s w (h.coherent hclosed)
    exact ⟨bytes, events, hhands, htrail, hheard.callbacks_eq⟩

/-- Parsing keeps a scanner fit for use. -/
theorem sound_parse {σ κ : Type} [FiniteSource σ] (r : Receiver κ) {t : Scanner} (s : σ)
    (w : Watch κ) (h : t.Sound) : (parse r.watched t s w).scanner.Sound := by
  cases hclosed : t.closed with
  | true => rw [parse_of_closed _ _ _ hclosed]; exact h
  | false =>
    obtain ⟨_, _, -, htrail, -⟩ := parse_watched r s w h
    apply (htrail.coherent (h.coherent hclosed)).sound
    rw [htrail.frame.closed_eq, hclosed]

/-! ## Sessions -/

/-- Uses of a scanner one after the other, with all their callbacks. Source and receiver may be
others each time, so nothing is said about what was pushed meanwhile or how long the scan paused. -/
inductive Session (start : Scanner) : List Event → Scanner → Prop
  | begin : Session start [] start
  | parse {σ κ : Type} [FiniteSource σ] (r : Receiver κ) (s : σ) (k : κ) {log : List Event}
      {t : Scanner} :
      Session start log t →
        Session start (log ++ (Scanner.parse r.watched t s { state := k }).receiver.callbacks)
          (Scanner.parse r.watched t s { state := k }).scanner
  | close {log : List Event} {t : Scanner} :
      Session start log t → Session start (log ++ t.close.1) t.close.2

namespace Session

variable {start t : Scanner} {log : List Event}

theorem sound (h : Session start log t)
    (hstart : start.Sound) : t.Sound := by
  induction h with
  | begin => exact hstart
  | parse r s k _ ih => exact sound_parse r s _ ih
  | close _ ih => exact sound_close ih

/-- Nothing comes of a closed scanner. -/
theorem eq_of_closed (h : Session start log t)
    (hstart : start.closed = true) : log = [] ∧ t = start := by
  induction h with
  | begin => exact ⟨rfl, rfl⟩
  | parse r s k _ ih =>
    obtain ⟨rfl, rfl⟩ := ih
    rw [parse_of_closed _ _ _ hstart]
    exact ⟨rfl, rfl⟩
  | close _ ih =>
    obtain ⟨rfl, rfl⟩ := ih
    rw [close_of_closed hstart]
    exact ⟨rfl, rfl⟩

end Session

end Scanner

end Ebml
