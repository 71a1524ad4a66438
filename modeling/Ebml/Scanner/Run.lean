import Ebml.Scanner

/-!
# Running a scanner

A run takes steps until the source stalls, the scan fails, or the receiver of the events wants no
more; the receiver is asked before every step. Every run ends: a step that moves on either takes
bytes from the source, which has only so many, or lowers the scanner's rank, the number of open
masters plus a weight for the place in the current element (`step_decreases`).
-/

namespace Ebml

/-- What receives events, as a state with two operations. -/
structure Receiver (κ : Type) where
  /-- Asked before every step: whether to go on. -/
  poll : κ → Bool × κ
  handle : Event → κ → κ

namespace Receiver

/-- Hand over events, one after the other. -/
def deliverAll {κ : Type} (r : Receiver κ) (events : List Event) (k : κ) : κ :=
  events.foldl (fun k e => r.handle e k) k

theorem deliverAll_append {κ : Type} (r : Receiver κ) (events more : List Event) (k : κ) :
    r.deliverAll (events ++ more) k = r.deliverAll more (r.deliverAll events k) :=
  List.foldl_append

end Receiver

namespace Scanner

/-! ## Bytes are accounted for -/

theorem remaining_takeBytes {σ : Type} [FiniteSource σ] (n : Nat) (s : σ) :
    FiniteSource.remaining (takeBytes n s).source + (takeBytes n s).bytes.length ≤
      FiniteSource.remaining s := by
  induction n generalizing s with
  | zero => simp [takeBytes]
  | succ n ih =>
    have hb := FiniteSource.remaining_readByte s
    unfold takeBytes
    split
    · rename_i heq; simp only [heq, handedByte] at hb; simpa using hb
    · rename_i heq; simp only [heq, handedByte] at hb; simpa using hb
    · rename_i b s' heq
      simp only [heq, handedByte] at hb
      have := ih s'
      simp only [List.length_cons]
      omega

theorem remaining_pull {σ : Type} [FiniteSource σ] (n : Nat) (s : σ) :
    FiniteSource.remaining (pull n s).source + (pull n s).bytes.length ≤
      FiniteSource.remaining s := by
  have ha := FiniteSource.remaining_available s
  unfold pull
  split
  · rename_i heq; simp only [heq] at ha; simpa using ha
  · rename_i ready s' heq
    simp only [heq] at ha
    exact Nat.le_trans (remaining_takeBytes _ s') ha

/-- What reading header bytes may change: the window, and the byte count by as much as the source
gave up. -/
structure HeaderStep {σ : Type} [FiniteSource σ] (t : Scanner) (s : σ) (t' : Scanner) (s' : σ) :
    Prop where
  stack_eq : t'.stack = t.stack
  phase_eq : t'.phase = t.phase
  closed_eq : t'.closed = t.closed
  consumed_le : t.consumed ≤ t'.consumed
  window_eq : t'.consumed = t.consumed → t'.window = t.window
  remaining_add_le :
    FiniteSource.remaining s' + t'.consumed ≤ FiniteSource.remaining s + t.consumed

namespace HeaderStep

variable {σ : Type} [FiniteSource σ] {t t' t'' : Scanner} {s s' s'' : σ}

theorem refl (t : Scanner) (s : σ) : HeaderStep t s t s :=
  ⟨rfl, rfl, rfl, Nat.le_refl _, fun _ => rfl, Nat.le_refl _⟩

theorem trans (h : HeaderStep t s t' s') (h' : HeaderStep t' s' t'' s'') :
    HeaderStep t s t'' s'' where
  stack_eq := h'.stack_eq.trans h.stack_eq
  phase_eq := h'.phase_eq.trans h.phase_eq
  closed_eq := h'.closed_eq.trans h.closed_eq
  consumed_le := Nat.le_trans h.consumed_le h'.consumed_le
  window_eq heq := by
    have := h.consumed_le
    have := h'.consumed_le
    rw [h'.window_eq (by omega), h.window_eq (by omega)]
  remaining_add_le := Nat.le_trans h'.remaining_add_le h.remaining_add_le

theorem remaining_le (h : HeaderStep t s t' s') :
    FiniteSource.remaining s' ≤ FiniteSource.remaining s := by
  have := h.consumed_le
  have := h.remaining_add_le
  omega

theorem remaining_lt (h : HeaderStep t s t' s') (hlt : t.consumed < t'.consumed) :
    FiniteSource.remaining s' < FiniteSource.remaining s := by
  have := h.remaining_add_le
  omega

end HeaderStep

theorem headerStep_fetch {σ : Type} [FiniteSource σ] (wanted : Nat) (t : Scanner) (s : σ) :
    HeaderStep t s (fetch wanted t s).scanner (fetch wanted t s).source := by
  have hp := remaining_pull wanted s
  unfold fetch
  dsimp only
  split
  · exact ⟨rfl, rfl, rfl, Nat.le_refl _, fun _ => rfl, by dsimp only; omega⟩
  · rename_i window happend
    have hwindow : t.consumed + (pull wanted s).bytes.length = t.consumed → window = t.window := by
      intro heq
      have hnil : (pull wanted s).bytes = [] := List.eq_nil_of_length_eq_zero (by omega)
      simp only [HeaderWindow.append?, hnil, List.append_nil] at happend
      split at happend
      · simpa using happend.symm
      · simp at happend
    split <;> exact ⟨rfl, rfl, rfl, by dsimp only; omega, hwindow, by dsimp only; omega⟩

/-- When all wanted bytes came, the byte count grew by their number. -/
theorem consumed_fetch {σ : Type} [FiniteSource σ] {wanted : Nat} {t : Scanner} {s : σ}
    (h : (fetch wanted t s).outcome = .ok true) :
    (fetch wanted t s).scanner.consumed = t.consumed + wanted := by
  unfold fetch at h ⊢
  dsimp only at h ⊢
  split at h
  · simp at h
  · split at h
    · simp at h
    · simp only [Except.ok.injEq, decide_eq_true_eq] at h
      simp [h]

theorem headerStep_completeField {σ α : Type} [FiniteSource σ]
    (decode : Bytes → Except VintError (Option α)) (offset : Nat) (t : Scanner) (s : σ) :
    HeaderStep t s (completeField decode offset t s).scanner
      (completeField decode offset t s).source := by
  unfold completeField
  split
  · exact .refl t s
  · exact .refl t s
  · split
    · exact .refl t s
    · rename_i first _
      have hf := headerStep_fetch (vintWidth first - (t.window.sliceFrom offset).length) t s
      split <;> rename_i heq <;> simp only [heq] at hf
      · exact hf
      · exact hf
      · split <;> exact hf

theorem headerStep_readField {σ α : Type} [FiniteSource σ]
    (decode : Bytes → Except VintError (Option α)) (offset : Nat) (t : Scanner) (s : σ) :
    HeaderStep t s (readField decode offset t s).scanner (readField decode offset t s).source := by
  unfold readField
  split
  · exact headerStep_completeField decode offset t s
  · have hf := headerStep_fetch 1 t s
    split <;> rename_i heq <;> simp only [heq] at hf
    · exact hf
    · exact hf
    · exact hf.trans (headerStep_completeField decode offset _ _)

/-- A field of which no byte was in the window is not read without taking a byte. -/
theorem consumed_readField {σ α : Type} [FiniteSource σ]
    {decode : Bytes → Except VintError (Option α)} {offset : Nat} {t : Scanner} {s : σ} {r : α}
    (hfresh : t.window.contains offset = false)
    (h : (readField decode offset t s).outcome = .ok (some r)) :
    t.consumed < (readField decode offset t s).scanner.consumed := by
  unfold readField at h ⊢
  rw [if_neg (by simp [hfresh])] at h ⊢
  have hc := @consumed_fetch σ _ 1 t s
  split at h <;> rename_i heq <;> simp only [heq] at hc
  · simp at h
  · simp at h
  · rename_i t' s'
    have := (headerStep_completeField decode offset t' s').consumed_le
    have := hc trivial
    omega

/-! ## The rank -/

/-- The number of open masters, and how far the current element is from the next boundary. -/
def rank (t : Scanner) : Nat :=
  t.stack.length +
    match t.phase with
    | .id => if t.window.isEmpty then 0 else 5
    | .size .. => 4
    | .resolve .. => 3
    | .content .. => 2
    | .finished .. => 1

/-- Source and scanner came nearer to their end. -/
def Decreases {σ : Type} [FiniteSource σ] (t : Scanner) (s : σ) (t' : Scanner) (s' : σ) : Prop :=
  FiniteSource.remaining s' < FiniteSource.remaining s ∨
    (FiniteSource.remaining s' ≤ FiniteSource.remaining s ∧ t'.rank < t.rank)

theorem contains_start_of_isEmpty {w : HeaderWindow} (h : w.isEmpty = true) :
    w.contains w.start = false := by
  simp only [HeaderWindow.isEmpty, List.isEmpty_iff] at h
  simp [HeaderWindow.contains, HeaderWindow.stop, h]

theorem rank_enter_lt (decl : ElementDecl) (size : DataSize) (index : Nat) {t : Scanner} {id : Nat}
    {size' : DataSize} {number : Option Nat} (h : t.phase = .resolve id size' number) :
    (t.enter decl size index).rank < t.rank := by
  unfold enter rank
  dsimp only
  split
  · simp [atBoundary, HeaderWindow.openedAt, HeaderWindow.isEmpty, h]
  · simp [h]

theorem rank_start_lt {decl : ElementDecl} {size size' : DataSize} {id : Nat}
    {number number' : Option Nat} {t : Scanner} {events : List Event}
    (hphase : t.phase = .resolve id size' number')
    (h : (t.start decl size number).1 = .ok (.moved events)) :
    (t.start decl size number).2.rank < t.rank := by
  unfold start at h ⊢
  cases number with
  | none => simp at h
  | some index => exact rank_enter_lt decl size index hphase

theorem rank_resolve_lt {id : Nat} {size : DataSize} {number : Option Nat} {t : Scanner}
    {events : List Event} (hphase : t.phase = .resolve id size number)
    (h : (resolve id size number t).1 = .ok (.moved events)) :
    (resolve id size number t).2.rank < t.rank := by
  unfold resolve at h ⊢
  split at h
  · split at h
    · simp at h
    · rename_i hknown
      rw [if_neg hknown]
      simp [rank, hphase]
  · rename_i decl _
    split at h
    · simp at h
    · rename_i hleaf
      rw [if_neg hleaf] at *
      split at h
      · exact rank_start_lt hphase h
      · rename_i m rest hstack
        split at h
        · rename_i hlevel
          simp [hlevel, rank, hstack, hphase]
        · rename_i hlevel
          rw [if_neg hlevel]
          exact rank_start_lt hphase h

theorem stepId_decreases {σ : Type} [FiniteSource σ] {t : Scanner} {s : σ} {events : List Event}
    (hphase : t.phase = .id) (h : (stepId t s).outcome = .ok (.moved events)) :
    Decreases t s (stepId t s).scanner (stepId t s).source := by
  unfold stepId at h ⊢
  split at h
  · rename_i m rest _ hstack
    exact .inr ⟨Nat.le_refl _, by simp [rank, hphase, hstack]⟩
  · have hf := headerStep_readField decodeId t.window.start t s
    have hc := @consumed_readField σ _ _ decodeId t.window.start t s
    split at h
    · simp at h
    · simp at h
    · rename_i hcond _ id width t' s' heq
      simp only [heq] at hf hc ⊢
      by_cases hempty : t.window.isEmpty = true
      · exact .inl (hf.remaining_lt (hc (contains_start_of_isEmpty hempty) rfl))
      · exact .inr ⟨hf.remaining_le, by simp [rank, number, hphase, hf.stack_eq, hempty]⟩

theorem stepSize_decreases {σ : Type} [FiniteSource σ] {id idWidth : Nat} {number : Option Nat}
    {t : Scanner} {s : σ} {events : List Event} (hphase : t.phase = .size id idWidth number)
    (h : (stepSize id idWidth number t s).outcome = .ok (.moved events)) :
    Decreases t s (stepSize id idWidth number t s).scanner
      (stepSize id idWidth number t s).source := by
  unfold stepSize at h ⊢
  have hf := headerStep_readField decodeSize (t.window.start + idWidth) t s
  split at h
  · simp at h
  · simp at h
  · rename_i t' s' heq
    simp only [heq] at hf ⊢
    exact .inr ⟨hf.remaining_le, by simp [rank, hphase, hf.stack_eq]⟩

theorem readContent_decreases {σ : Type} [FiniteSource σ] {leaf : Option Occurrence}
    {stop : Nat} {t : Scanner} {s : σ} {events : List Event}
    (hphase : t.phase = .content leaf (some stop))
    (h : (readContent leaf stop t s).outcome = .ok (.moved events)) :
    Decreases t s (readContent leaf stop t s).scanner (readContent leaf stop t s).source := by
  have ha := FiniteSource.remaining_available s
  unfold readContent at h ⊢
  split at h
  · rename_i hstop
    rw [if_pos hstop]
    exact .inr ⟨Nat.le_refl _, by simp [rank, hphase]⟩
  · rename_i hstop
    rw [if_neg hstop]
    split at h
    · simp at h
    · rename_i ready s' heq
      simp only [heq] at ha ⊢
      dsimp only at h
      split at h
      · simp at h
      · rename_i hwant
        rw [if_neg hwant]
        have hr := FiniteSource.remaining_readBytes
          (min (min (stop - t.consumed) t.maxChunk) ready) s'
        split at h
        · simp at h
        · rename_i chunk s'' heq'
          simp only [heq', handedBytes] at hr ⊢
          split at h
          · simp at h
          · rename_i hchunk
            rw [if_neg hchunk]
            -- A piece that was reported has some byte, so the source has less to hand out.
            have : chunk.length ≠ 0 := by simpa using hchunk
            exact .inl (by dsimp only; omega)

theorem stepContent_decreases {σ : Type} [FiniteSource σ] {leaf : Option Occurrence}
    {stop : Option Nat} {t : Scanner} {s : σ} {events : List Event}
    (hphase : t.phase = .content leaf stop)
    (h : (stepContent leaf stop t s).outcome = .ok (.moved events)) :
    Decreases t s (stepContent leaf stop t s).scanner (stepContent leaf stop t s).source := by
  cases stop with
  | none => simp [stepContent] at h
  | some stop => exact readContent_decreases hphase h

/-- A step that moves on brings source and scanner nearer to their end. -/
theorem step_decreases {σ : Type} [FiniteSource σ] {t : Scanner} {s : σ} {events : List Event}
    (h : (step t s).outcome = .ok (.moved events)) :
    Decreases t s (step t s).scanner (step t s).source := by
  unfold step at h ⊢
  split at h
  · rename_i hphase
    exact stepId_decreases hphase h
  · rename_i hphase
    exact stepSize_decreases hphase h
  · rename_i hphase
    exact .inr ⟨Nat.le_refl _, rank_resolve_lt hphase h⟩
  · rename_i hphase
    exact stepContent_decreases hphase h
  · rename_i hphase
    refine .inr ⟨Nat.le_refl _, ?_⟩
    simp [finishLeaf, atBoundary, rank, hphase, HeaderWindow.openedAt, HeaderWindow.isEmpty]

theorem Decreases.lex {σ : Type} [FiniteSource σ] {t t' : Scanner} {s s' : σ}
    (h : Decreases t s t' s') :
    Prod.Lex (· < ·) (· < ·) (FiniteSource.remaining s', t'.rank)
      (FiniteSource.remaining s, t.rank) := by
  rcases h with h | ⟨hle, hlt⟩
  · exact .left _ _ h
  · rcases Nat.lt_or_eq_of_le hle with h | h
    · exact .left _ _ h
    · rw [h]; exact .right _ hlt

/-! ## Runs -/

/-- How a run ended, and scanner, source and receiver after it. -/
structure Parsed (σ κ : Type) where
  outcome : Except ScanError Unit
  scanner : Scanner
  source : σ
  receiver : κ

/-- Take steps for as long as the receiver wants them. -/
def run {σ κ : Type} [FiniteSource σ] (r : Receiver κ) (t : Scanner) (s : σ) (k : κ) : Parsed σ κ :=
  match r.poll k with
  | (false, k') => ⟨.ok (), t, s, k'⟩
  | (true, k') =>
    match _hstep : step t s with
    | ⟨.error e, t', s'⟩ => ⟨.error e, t', s', k'⟩
    | ⟨.ok .stalled, t', s'⟩ => ⟨.ok (), t', s', k'⟩
    | ⟨.ok (.moved events), t', s'⟩ => run r t' s' (r.deliverAll events k')
termination_by (FiniteSource.remaining s, t.rank)
decreasing_by
  have hd := @step_decreases σ _ t s events (by rw [_hstep])
  rw [_hstep] at hd
  exact hd.lex

/-- Take as much of a source as it will give and the receiver wants. Nothing happens once the scan is
closed. -/
def parse {σ κ : Type} [FiniteSource σ] (r : Receiver κ) (t : Scanner) (s : σ) (k : κ) :
    Parsed σ κ :=
  if t.closed then ⟨.ok (), t, s, k⟩ else run r t s k

end Scanner

end Ebml
