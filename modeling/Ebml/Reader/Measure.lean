import Ebml.Reader
import Ebml.Scanner.Progress

/-!
# How far a reader is from its end

Loops over a reader end because each round brings it nearer to its end, in one of three ways: the
source has less to hand out, or it has no more and the scan comes nearer to the end of its element or
closes, or neither changes and an element that was waiting is handed out.
-/

namespace Ebml.Reader

/-! ## Without reading -/

theorem closed_close {σ : Type} (r : Reader σ) : r.close.scanner.closed = true := by
  unfold close Scanner.close
  split
  · assumption
  · rfl

theorem pop_none {σ : Type} {r r' : Reader σ} (h : r.pop = (none, r')) :
    r.collector.pending = [] ∧ r' = r := by
  unfold pop Collector.pop at h
  simp only [Prod.mk.injEq, List.head?_eq_none_iff] at h
  refine ⟨h.1, ?_⟩
  rw [← h.2]
  obtain ⟨source, scanner, collector⟩ := r
  cases collector
  simp_all

/-! ## The measure -/

variable {σ : Type} [FiniteSource σ]

/-- The rank of the scan while it is open; zero once it is closed. -/
def rank (r : Reader σ) : Nat :=
  if r.scanner.closed then 0 else r.scanner.rank + 1

/-- What lowers from round to round, the first component first. -/
def measure (r : Reader σ) : Nat × Nat × Nat :=
  (FiniteSource.remaining r.source, r.rank, r.collector.pending.length)

/-- The order of measures. -/
abbrev Nearer (r' r : Reader σ) : Prop :=
  Prod.Lex (· < ·) (Prod.Lex (· < ·) (· < ·)) r'.measure r.measure

/-- Source or scan came nearer to the end, whatever is waiting. -/
def Advances (r r' : Reader σ) : Prop :=
  FiniteSource.remaining r'.source < FiniteSource.remaining r.source ∨
    (FiniteSource.remaining r'.source ≤ FiniteSource.remaining r.source ∧ r'.rank < r.rank)

/-- Neither source nor scan moved away from the end. -/
def Stays (r r' : Reader σ) : Prop :=
  FiniteSource.remaining r'.source < FiniteSource.remaining r.source ∨
    (FiniteSource.remaining r'.source ≤ FiniteSource.remaining r.source ∧ r'.rank ≤ r.rank)

theorem Advances.nearer {r r' : Reader σ} (h : Advances r r') : Nearer r' r := by
  rcases h with h | ⟨hle, hlt⟩
  · exact .left _ _ h
  · rcases Nat.lt_or_eq_of_le hle with h | h
    · exact .left _ _ h
    · rw [Nearer, measure, measure, h]
      exact .right _ (.left _ _ hlt)

theorem Nearer.remaining_le {r r' : Reader σ} (h : Nearer r' r) :
    FiniteSource.remaining r'.source ≤ FiniteSource.remaining r.source := by
  simp only [Nearer, measure, Prod.lex_def] at h
  rcases h with h | ⟨h, -⟩
  · exact Nat.le_of_lt h
  · exact Nat.le_of_eq h

theorem Stays.refl (r : Reader σ) : Stays r r :=
  .inr ⟨Nat.le_refl _, Nat.le_refl _⟩

theorem Stays.trans {r r' r'' : Reader σ} (h : Stays r r') (h' : Stays r' r'') : Stays r r'' := by
  unfold Stays at *
  omega

theorem Advances.trans_stays {r r' r'' : Reader σ} (h : Advances r r') (h' : Stays r' r'') :
    Advances r r'' := by
  unfold Stays at h'
  unfold Advances at *
  omega

theorem Stays.trans_advances {r r' r'' : Reader σ} (h : Stays r r') (h' : Advances r' r'') :
    Advances r r'' := by
  unfold Stays at h
  unfold Advances at *
  omega

theorem Advances.stays {r r' : Reader σ} (h : Advances r r') : Stays r r' := by
  unfold Advances at h
  unfold Stays
  omega

/-! ## Scanning -/

/-- Scanning while the scan is open is a run of the scanner. -/
theorem scan_eq_run {r : Reader σ} (h : r.scanner.closed = false) :
    r.scan =
      ((Scanner.run Collector.receiver r.scanner r.source r.collector).outcome,
        ⟨(Scanner.run Collector.receiver r.scanner r.source r.collector).source,
          (Scanner.run Collector.receiver r.scanner r.source r.collector).scanner,
          (Scanner.run Collector.receiver r.scanner r.source r.collector).receiver⟩) := by
  simp [scan, Scanner.parse, h]

/-- Scanning after the scan is closed changes nothing. -/
theorem scan_eq_self {r : Reader σ} (h : r.scanner.closed = true) : r.scan = (.ok (), r) := by
  simp [scan, Scanner.parse, h]

theorem scan_stays (r : Reader σ) : Stays r r.scan.2 := by
  cases hc : r.scanner.closed with
  | true => rw [scan_eq_self hc]; exact .refl r
  | false =>
    have ha := Scanner.run_accounts Collector.receiver r.scanner r.source r.collector
    have hn := Scanner.run_notFarther Collector.receiver r.scanner r.source r.collector
    rw [scan_eq_run hc]
    unfold Scanner.NotFarther at hn
    simpa [Stays, rank, ha.closed_eq, hc] using hn

/-- Scanning that changes what is waiting advances the reader. -/
theorem scan_advances_or (r : Reader σ) :
    Advances r r.scan.2 ∨ r.scan.2.collector = r.collector := by
  cases hc : r.scanner.closed with
  | true => rw [scan_eq_self hc]; exact .inr rfl
  | false =>
    have ha := Scanner.run_accounts Collector.receiver r.scanner r.source r.collector
    have hd := Scanner.run_decreases_or Collector.receiver (fun _ => rfl) r.scanner r.source
      r.collector
    rw [scan_eq_run hc]
    refine hd.imp (fun hd => ?_) id
    unfold Scanner.Decreases at hd
    simpa [Advances, rank, ha.closed_eq, hc] using hd

/-- The bytes counted as read are gone from the source, and scanning neither opens nor closes. -/
theorem scan_accounts (r : Reader σ) :
    Scanner.Accounts r.scanner r.source r.scan.2.scanner r.scan.2.source := by
  cases hc : r.scanner.closed with
  | true => rw [scan_eq_self hc]; exact .refl _ _
  | false => rw [scan_eq_run hc]; exact Scanner.run_accounts _ _ _ _

/-! ## Asking for more -/

theorem close_advances {r : Reader σ} (h : r.scanner.closed = false) : Advances r r.close :=
  .inr ⟨Nat.le_refl _, by simp [rank, closed_close, h]⟩

/-- A reader that may have more has an element waiting and is as it was, or has a source that is not
at its end and nothing else changed, or came nearer to its end. -/
theorem mayHaveNext_cases {r r' : Reader σ} (h : r.mayHaveNext = (.ok true, r')) :
    (r.collector.hasPending = true ∧ r' = r) ∨
      (r.collector.hasPending = false ∧ r.scanner.closed = false ∧
        (ByteSource.eof r.source).1 = .ok false ∧
        r' = { r with source := (ByteSource.eof r.source).2 }) ∨
      (r.scanner.closed = false ∧ Advances r r') := by
  unfold mayHaveNext at h
  split at h
  · rename_i hp
    exact .inl ⟨hp, by simpa using h.symm⟩
  · rename_i hp
    have hp : r.collector.hasPending = false := by simpa using hp
    split at h
    · simp at h
    · rename_i hc
      have hc : r.scanner.closed = false := by simpa using hc
      have he := FiniteSource.remaining_eof r.source
      split at h
      · simp at h
      · rename_i source heq
        simp only [Prod.mk.injEq, true_and] at h
        exact .inr (.inl ⟨hp, hc, by rw [heq], by rw [heq, h]⟩)
      · rename_i source heq
        simp only [heq] at he
        have hs : Stays r { r with source := source } := .inr ⟨he, Nat.le_refl _⟩
        have hstays := scan_stays { r with source := source }
        have hadv := scan_advances_or { r with source := source }
        have hacc := scan_accounts { r with source := source }
        -- A scan that stopped for an element advanced, and one that found none is closed, which is
        -- an advance.
        split at h
        · simp at h
        · rename_i r'' hscan
          simp only [hscan] at hstays hadv hacc
          simp only [Prod.mk.injEq, true_and] at h
          refine .inr (.inr ⟨hc, ?_⟩)
          split at h
          · rename_i hpending
            rcases hadv with hadv | heqc
            · exact h ▸ hs.trans_advances hadv
            · rw [heqc] at hpending
              exact absurd hpending (by simp [hp])
          · have hc'' : r''.scanner.closed = false := by rw [hacc.closed_eq]; exact hc
            exact h ▸ (hs.trans hstays).trans_advances (close_advances hc'')

/-! ## Handing out -/

theorem pop_nearer {r r' : Reader σ} {e : Element} (h : r.pop = (some e, r')) : Nearer r' r := by
  unfold pop Collector.pop at h
  simp only [Prod.mk.injEq] at h
  obtain ⟨hhead, rfl⟩ := h
  refine .right _ (.right _ ?_)
  cases hp : r.collector.pending with
  | nil => simp [hp] at hhead
  | cons a rest => simp

theorem pop_stays (r : Reader σ) : Stays r r.pop.2 := .refl r

/-- Handing out an element brings a reader nearer to its end. -/
theorem next?_some_nearer {r r' : Reader σ} {e : Element} (h : r.next? = (.ok (some e), r')) :
    Nearer r' r := by
  unfold next? at h
  split at h
  · simp only [Prod.mk.injEq, Except.ok.injEq] at h
    exact pop_nearer (Prod.ext h.1 h.2)
  · rename_i hp
    have hadv := scan_advances_or r
    split at h
    · simp at h
    · rename_i r'' hscan
      simp only [hscan] at hadv
      simp only [Prod.mk.injEq, Except.ok.injEq] at h
      rcases hadv with hadv | heq
      · rw [← h.2]
        exact (hadv.trans_stays (pop_stays r'')).nearer
      · have : r''.collector.pending = [] := by
          rw [heq]; simpa [Collector.hasPending] using hp
        simp [pop, Collector.pop, this] at h

/-- A reader that hands out nothing had nothing waiting and scanned in vain. -/
theorem next?_none {r r' : Reader σ} (h : r.next? = (.ok none, r')) :
    r.collector.hasPending = false ∧ r' = r.scan.2 := by
  unfold next? at h
  split at h
  · rename_i hp
    simp only [Prod.mk.injEq, Except.ok.injEq] at h
    have := (pop_none (Prod.ext h.1 rfl)).1
    simp [Collector.hasPending, this] at hp
  · rename_i hp
    split at h
    · simp at h
    · rename_i r'' hscan
      simp only [Prod.mk.injEq, Except.ok.injEq] at h
      have := (pop_none (Prod.ext h.1 rfl)).2
      exact ⟨by simpa using hp, by rw [hscan, ← h.2]; exact this⟩

end Ebml.Reader
