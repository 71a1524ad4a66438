import Ebml.Proofs.Scanner.Stalling
import Ebml.Proofs.Source.Streaming
import Ebml.Reader.Drain

/-!
# Repeating what failed

A stream may fail at any time and be read again. A caller can repeat a call that failed for the
stream's sake until it is answered (`Call.persist`), and drain a reader that way
(`drainPersistently`). Both end because the stream has only so many failures, and each that is met is
gone from it.
-/

namespace Ebml.Reader

/-! ## Calls that can be repeated -/

/-- A scan that reports a failure of an announcing source ended where the source balked. -/
theorem scan_balks {σ : Type} [FiniteSource σ] [AnnouncingSource σ] {r r' : Reader σ} {e : IoError}
    (h : r.scan = (.error (.io e), r')) : Balks r.source e r'.source := by
  cases hclosed : r.scanner.closed with
  | true => simp [scan_eq_self hclosed] at h
  | false =>
    rw [scan_eq_run hclosed] at h
    obtain ⟨houtcome, rfl⟩ := Prod.mk.inj h
    exact Scanner.run_balks _ _ houtcome

theorem scan_reaches {σ : Type} [FiniteSource σ] [AnnouncingSource σ] (r : Reader σ) :
    Reaches r.source r.scan.2.source := by
  cases hclosed : r.scanner.closed with
  | true => rw [scan_eq_self hclosed]; exact .refl _
  | false => rw [scan_eq_run hclosed]; exact Scanner.run_reaches _ _ _ _

theorem eof_balks {s s' : StreamSource} {e : IoError} (h : ByteSource.eof s = (.error e, s')) :
    Balks s e s' := by
  refine ⟨s, .refl s, ?_⟩
  change s.available = _
  change s.eof = _ at h
  unfold StreamSource.eof at h
  unfold StreamSource.available
  split at h <;> simp_all

theorem mayHaveNext_balks {r r' : Reader StreamSource} {e : IoError}
    (h : r.mayHaveNext = (.error (.io e), r')) : Balks r.source e r'.source := by
  unfold mayHaveNext at h
  split at h
  · simp at h
  · split at h
    · simp at h
    · split at h <;> rename_i heof
      · simp only [Prod.mk.injEq, Except.error.injEq, ScanError.io.injEq] at h
        obtain ⟨rfl, rfl⟩ := h
        exact eof_balks heof
      · simp at h
      · have hreaches : Reaches r.source (ByteSource.eof r.source).2 := ⟨[], (Hands.refl _).eof⟩
        rw [heof] at hreaches
        split at h <;> rename_i hscan
        · simp only [Prod.mk.injEq, Except.error.injEq] at h
          obtain ⟨rfl, rfl⟩ := h
          exact hreaches.balks (scan_balks hscan)
        · simp at h

theorem next?_balks {r r' : Reader StreamSource} {e : IoError}
    (h : r.next? = (.error (.io e), r')) : Balks r.source e r'.source := by
  unfold next? at h
  split at h
  · simp at h
  · split at h <;> rename_i hscan
    · simp only [Prod.mk.injEq, Except.error.injEq] at h
      obtain ⟨rfl, rfl⟩ := h
      exact scan_balks hscan
    · simp at h

/-- A call to a reader of a stream that reports failures of the stream where the source balks. -/
structure Call (α : Type) where
  ask : Reader StreamSource → Except ScanError α × Reader StreamSource
  balks : ∀ {r r' : Reader StreamSource} {e : IoError},
    ask r = (.error (.io e), r') → Balks r.source e r'.source

namespace Call

def mayHaveNext : Call Bool :=
  ⟨Reader.mayHaveNext, mayHaveNext_balks⟩

def next? : Call (Option Element) :=
  ⟨Reader.next?, next?_balks⟩

/-- The failures of the stream that were met, the answer after them, and the reader. -/
structure Persisted (α : Type) where
  failures : List IoError
  outcome : Except ScanError α
  reader : Reader StreamSource

/-- Repeat a call for as long as it reports a failure of the stream. -/
def persist {α : Type} (call : Call α) (r : Reader StreamSource) : Persisted α :=
  match _h : call.ask r with
  | (.error (.io e), r') =>
    let rest := persist call r'
    ⟨e :: rest.failures, rest.outcome, rest.reader⟩
  | (outcome, r') => ⟨[], outcome, r'⟩
termination_by r.source.remaining
decreasing_by exact (call.balks _h).remaining_lt

variable {α : Type} {call : Call α}

/-- What a reader keeps while its call is repeated still holds when the call is answered. -/
theorem persist_induction {P : List IoError → Reader StreamSource → Prop}
    (hkeeps : ∀ failures r e r', P failures r → call.ask r = (.error (.io e), r') →
      P (failures ++ [e]) r')
    {failures : List IoError} {r : Reader StreamSource} (h : P failures r) :
    ∃ r₀, P (failures ++ (call.persist r).failures) r₀ ∧
      call.ask r₀ = ((call.persist r).outcome, (call.persist r).reader) ∧
      ∀ e, (call.persist r).outcome ≠ .error (.io e) := by
  fun_induction persist call r generalizing failures with
  | case1 =>
    rename_i r e r' hask rest ih
    obtain ⟨r₀, hr₀, hask₀, hio⟩ := ih (hkeeps failures r e r' h hask)
    rw [List.append_assoc] at hr₀
    exact ⟨r₀, hr₀, hask₀, hio⟩
  | case2 r outcome r' hother hask =>
    rw [List.append_nil]
    exact ⟨r, h, hask, hother⟩

/-- The reader that answers in the end is the one that was asked, or has less left. -/
theorem persist_asked {r r' : Reader StreamSource} {failures : List IoError}
    {outcome : Except ScanError α} (h : call.persist r = ⟨failures, outcome, r'⟩) :
    ∃ r₀, call.ask r₀ = (outcome, r') ∧
      (r₀ = r ∨ r₀.source.remaining < r.source.remaining) := by
  have hlower : ∀ (failures : List IoError) (r₁ : Reader StreamSource) (e : IoError)
      (r' : Reader StreamSource), (r₁ = r ∨ r₁.source.remaining < r.source.remaining) →
        call.ask r₁ = (.error (.io e), r') →
          (r' = r ∨ r'.source.remaining < r.source.remaining) := by
    intro failures r₁ e r' hr₁ hask
    have hlt := (call.balks hask).remaining_lt
    rcases hr₁ with rfl | hr₁
    · exact .inr hlt
    · exact .inr (Nat.lt_trans hlt hr₁)
  obtain ⟨r₀, hr₀, hask, -⟩ := @persist_induction _ _ _ hlower [] _ (.inl rfl)
  rw [h] at hask
  exact ⟨r₀, hask, hr₀⟩

end Call

/-! ## Draining a stream -/

/-- Elements handed out, the failures of the stream met on the way, where that stopped, and the
reader afterwards. -/
structure Persevered where
  elements : List Element
  failures : List IoError
  stop : DrainEnd
  reader : Reader StreamSource

section

variable {r r' r'' : Reader StreamSource}

theorem remaining_mayHaveNext (h : r.mayHaveNext = (.ok true, r')) :
    r'.source.remaining ≤ r.source.remaining := by
  rcases mayHaveNext_cases h with ⟨-, rfl⟩ | ⟨-, -, -, rfl⟩ | ⟨-, hadvances⟩
  · exact Nat.le_refl _
  · exact FiniteSource.remaining_eof r.source
  · exact hadvances.nearer.remaining_le

/-- A round that would bring a reader nearer to its end if no call failed does so anyway, since every
failure leaves less of the stream. -/
theorem nearer_of_persisted {failures : List IoError} {r₁ : Reader StreamSource}
    (hmay : Call.mayHaveNext.persist r = ⟨failures, .ok true, r'⟩)
    (hasked : r₁ = r' ∨ r₁.source.remaining < r'.source.remaining)
    (hle : r''.source.remaining ≤ r₁.source.remaining)
    (hround : ∀ r₀, r₀.mayHaveNext = (.ok true, r') → r₁ = r' → Nearer r'' r₀) : Nearer r'' r := by
  obtain ⟨r₀, hr₀, hasked₀⟩ := Call.persist_asked hmay
  have hle₀ := remaining_mayHaveNext hr₀
  rcases hasked₀ with rfl | hlower
  · rcases hasked with hsame | hlower
    · exact hround r₀ hr₀ hsame
    · exact .left _ _ (Nat.lt_of_le_of_lt hle (Nat.lt_of_lt_of_le hlower hle₀))
  · have hle₁ : r₁.source.remaining ≤ r'.source.remaining := by
      rcases hasked with rfl | hlower
      · exact Nat.le_refl _
      · exact Nat.le_of_lt hlower
    exact .left _ _ (Nat.lt_of_le_of_lt (Nat.le_trans hle (Nat.le_trans hle₁ hle₀)) hlower)

theorem nearer_of_persisted_some {failures more : List IoError} {e : Element}
    (hmay : Call.mayHaveNext.persist r = ⟨failures, .ok true, r'⟩)
    (hnext : Call.next?.persist r' = ⟨more, .ok (some e), r''⟩) : Nearer r'' r := by
  obtain ⟨r₁, hr₁, hasked⟩ := Call.persist_asked hnext
  refine nearer_of_persisted hmay hasked (next?_some_nearer hr₁).remaining_le ?_
  rintro r₀ hr₀ rfl
  exact nearer_of_some hr₀ hr₁

theorem nearer_of_persisted_none {failures more : List IoError}
    (hmay : Call.mayHaveNext.persist r = ⟨failures, .ok true, r'⟩)
    (hnext : Call.next?.persist r' = ⟨more, .ok none, r''⟩)
    (hprogress : r'.bytesRead < r''.bytesRead ∨ r''.scanner.closed = true) : Nearer r'' r := by
  obtain ⟨r₁, hr₁, hasked⟩ := Call.persist_asked hnext
  have hle : r''.source.remaining ≤ r₁.source.remaining := by
    obtain ⟨-, rfl⟩ := next?_none hr₁
    rcases scan_stays r₁ with hlt | ⟨hle, -⟩
    · exact Nat.le_of_lt hlt
    · exact hle
  refine nearer_of_persisted hmay hasked hle ?_
  rintro r₀ hr₀ rfl
  exact nearer_of_none hr₀ hr₁ hprogress

end

/-- Hand out everything to the end of a stream, repeating every call that fails for its sake. -/
def drainPersistently (r : Reader StreamSource) : Persevered :=
  match _hm : Call.mayHaveNext.persist r with
  | ⟨failures, .error e, r'⟩ => ⟨[], failures, .unreadable e, r'⟩
  | ⟨failures, .ok false, r'⟩ => ⟨[], failures, .ended, r'⟩
  | ⟨failures, .ok true, r'⟩ =>
    match _hn : Call.next?.persist r' with
    | ⟨more, .error e, r''⟩ => ⟨[], failures ++ more, .malformed e, r''⟩
    | ⟨more, .ok (some element), r''⟩ =>
      let rest := drainPersistently r''
      ⟨element :: rest.elements, failures ++ more ++ rest.failures, rest.stop, rest.reader⟩
    | ⟨more, .ok none, r''⟩ =>
      if _hprogress : r'.bytesRead < r''.bytesRead ∨ r''.scanner.closed = true then
        let rest := drainPersistently r''
        ⟨rest.elements, failures ++ more ++ rest.failures, rest.stop, rest.reader⟩
      else ⟨[], failures ++ more, .starved, r''⟩
termination_by r.measure
decreasing_by
  · exact nearer_of_persisted_some _hm _hn
  · exact nearer_of_persisted_none _hm _hn _hprogress

end Ebml.Reader
