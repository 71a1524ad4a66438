import Ebml.Reader.Drain
import Ebml.Visitor

/-!
# Showing a document to a visitor

A reader shows its elements to a visitor until the visitor is done or fails, there are no more, or a
source that is not at its end has no more for now. The last is noticed by a round that handed out no
element although neither the bytes read nor the bytes that are there have changed; over a steady
source every other round brings the reader nearer to its end.
-/

namespace Ebml.Reader

/-- Why a visit was broken off. -/
inductive ApplyError (ε : Type)
  | scan (e : ScanError)
  | visitor (e : ε)

/-- How a visit ended, and reader and visitor afterwards. -/
structure Applied (σ ν ε : Type) where
  outcome : Except (ApplyError ε) Unit
  reader : Reader σ
  visitor : ν

section

variable {σ : Type} [SteadySource σ]

theorem scan_steady (r : Reader σ) : Scanner.Steady r.source r.scan.2.source := by
  cases hc : r.scanner.closed with
  | true => rw [scan_eq_self hc]; exact .refl _
  | false => rw [scan_eq_run hc]; exact Scanner.run_steady _ _ _ _

/-- Asking for the progress changes only the source. -/
theorem progress_eq {r r' : Reader σ} {p : Nat × Nat} (h : r.progress = (.ok p, r')) :
    r' = { r with source := (ByteSource.available r.source).2 } ∧
      (ByteSource.available r.source).1 = .ok p.2 ∧ p.1 = r.bytesRead := by
  unfold progress at h
  split at h
  · simp at h
  · rename_i heq
    simp only [Prod.mk.injEq, Except.ok.injEq] at h
    obtain ⟨rfl, rfl⟩ := h
    exact ⟨by rw [heq], by rw [heq], rfl⟩

theorem progress_stays {r r' : Reader σ} {p : Nat × Nat} (h : r.progress = (.ok p, r')) :
    Stays r r' := by
  rw [(progress_eq h).1]
  exact .inr ⟨FiniteSource.remaining_available r.source, Nat.le_refl _⟩

/-- Of a round without an element: either the reader came nearer to its end, or it is unchanged but
for the scan, the source was not at its end, and progress was the same before and after. -/
theorem round_none_cases {r r₁ r₂ r₃ r₄ : Reader σ} {before after : Nat × Nat}
    (hm : r.mayHaveNext = (.ok true, r₁)) (hb : r₁.progress = (.ok before, r₂))
    (hn : r₂.next? = (.ok none, r₃)) (ha : r₃.progress = (.ok after, r₄)) :
    Advances r r₄ ∨
      (after = before ∧ r₄.source = r.source ∧ (ByteSource.eof r.source).1 = .ok false) := by
  obtain ⟨hp, rfl⟩ := next?_none hn
  have hstay : Stays r₁ r₄ :=
    ((progress_stays hb).trans (scan_stays r₂)).trans (progress_stays ha)
  obtain ⟨rfl, hb₁, hb₂⟩ := progress_eq hb
  rcases mayHaveNext_cases hm with ⟨hp', rfl⟩ | ⟨_, _, heof, rfl⟩ | ⟨_, hadv⟩
  · exact absurd hp (by simp [hp'])
  · obtain ⟨rfl, ha₁, ha₂⟩ := progress_eq ha
    have h₁ : Scanner.Steady r.source (ByteSource.eof r.source).2 :=
      SteadySource.steady_eof r.source
    generalize hs₁ : (ByteSource.eof r.source).2 = s₁ at *
    have h₂ : Scanner.Steady s₁ (ByteSource.available s₁).2 := SteadySource.steady_available s₁
    generalize hs₂ : (ByteSource.available s₁).2 = s₂ at *
    have h₃ := scan_steady { r with source := s₂ }
    have hacc := scan_accounts { r with source := s₂ }
    generalize hr₃ : scan { r with source := s₂ } = scanned at *
    have h₄ : Scanner.Steady scanned.2.source (ByteSource.available scanned.2.source).2 :=
      SteadySource.steady_available _
    have hc := hacc.consumed_le
    have hr := hacc.remaining_add_le
    -- A source that changes has less to hand out. So either one of the four operations lowered
    -- that, or none of them changed anything.
    rcases h₁ with rfl | h₁
    · rcases h₂ with rfl | h₂
      · rcases h₃ with h₃ | h₃
        · rcases h₄ with h₄ | h₄
          · refine .inr ⟨?_, h₄.trans h₃, heof⟩
            rw [h₃] at ha₁ hr
            have hcount : after.1 = before.1 := by
              rw [ha₂, hb₂]
              unfold bytesRead
              dsimp only at *
              omega
            have hready : after.2 = before.2 := by
              have := ha₁.symm.trans hb₁
              simpa using this
            exact Prod.ext hcount hready
          · exact .inl (.inl (by rw [h₃] at h₄ ⊢; exact h₄))
        · refine .inl (.inl ?_)
          have := FiniteSource.remaining_available scanned.2.source
          dsimp only at *
          omega
      · refine .inl (.inl ?_)
        have := FiniteSource.remaining_available scanned.2.source
        dsimp only at *
        omega
    · refine .inl (.inl ?_)
      have := FiniteSource.remaining_available scanned.2.source
      have := FiniteSource.remaining_available s₁
      rw [hs₂] at this
      dsimp only at *
      omega
  · exact .inl (hadv.trans_stays hstay)

/-- A round that made progress brings the reader nearer to its end. -/
theorem nearer_of_changed {r r₁ r₂ r₃ r₄ : Reader σ} {before after : Nat × Nat}
    (hm : r.mayHaveNext = (.ok true, r₁)) (hb : r₁.progress = (.ok before, r₂))
    (hn : r₂.next? = (.ok none, r₃)) (ha : r₃.progress = (.ok after, r₄))
    (hne : after ≠ before) : Nearer r₄ r := by
  rcases round_none_cases hm hb hn ha with h | ⟨h, _⟩
  · exact h.nearer
  · exact absurd h hne

/-- A round after which the source is at its end brings the reader nearer to its end. -/
theorem nearer_of_eof {r r₁ r₂ r₃ r₄ : Reader σ} {before after : Nat × Nat} {source : σ}
    (hm : r.mayHaveNext = (.ok true, r₁)) (hb : r₁.progress = (.ok before, r₂))
    (hn : r₂.next? = (.ok none, r₃)) (ha : r₃.progress = (.ok after, r₄))
    (he : ByteSource.eof r₄.source = (.ok true, source)) :
    Nearer { r₄ with source := source } r := by
  rcases round_none_cases hm hb hn ha with h | ⟨_, hsource, heof⟩
  · have hle := FiniteSource.remaining_eof r₄.source
    rw [he] at hle
    have hstay : Stays r₄ { r₄ with source := source } := .inr ⟨hle, Nat.le_refl _⟩
    exact (h.trans_stays hstay).nearer
  · rw [hsource] at he
    rw [he] at heof
    simp at heof

/-- A round that hands out an element brings the reader nearer to its end. -/
theorem nearer_of_element {r r₁ r₂ r₃ : Reader σ} {before : Nat × Nat} {e : Element}
    (hm : r.mayHaveNext = (.ok true, r₁)) (hb : r₁.progress = (.ok before, r₂))
    (hn : r₂.next? = (.ok (some e), r₃)) : Nearer r₃ r := by
  have hn' := next?_some_nearer hn
  have hstay := progress_stays hb
  have hcollector : r₂.collector = r₁.collector := by rw [(progress_eq hb).1]
  have hpending : r₁.measure.2.2 = r₂.measure.2.2 := by simp [measure, hcollector]
  have hcases := mayHaveNext_cases hm
  have heof := FiniteSource.remaining_eof r.source
  unfold Stays at hstay
  simp only [Nearer, measure, Prod.lex_def] at hn' hpending ⊢
  rcases hcases with ⟨_, rfl⟩ | ⟨_, _, _, rfl⟩ | ⟨_, hadv⟩
  · omega
  · simp only [rank] at *
    omega
  · unfold Advances at hadv
    omega

end

/-- Show the elements of a reader to a visitor. -/
def apply {σ ν ε : Type} [SteadySource σ] (v : Visitor ν ε) (r : Reader σ) (state : ν) :
    Applied σ ν ε :=
  if v.isDone state then ⟨.ok (), r, state⟩
  else
    match _hm : r.mayHaveNext with
    | (.error e, r₁) => ⟨.error (.scan e), r₁, state⟩
    | (.ok false, r₁) => ⟨.ok (), r₁, state⟩
    | (.ok true, r₁) =>
      match _hb : r₁.progress with
      | (.error e, r₂) => ⟨.error (.scan e), r₂, state⟩
      | (.ok before, r₂) =>
        match _hn : r₂.next? with
        | (.error e, r₃) => ⟨.error (.scan e), r₃, state⟩
        | (.ok (some element), r₃) =>
          match v.visit element state with
          | (.error e, state') => ⟨.error (.visitor e), r₃, state'⟩
          | (.ok (), state') => apply v r₃ state'
        | (.ok none, r₃) =>
          match _ha : r₃.progress with
          | (.error e, r₄) => ⟨.error (.scan e), r₄, state⟩
          | (.ok after, r₄) =>
            if _hne : after ≠ before then apply v r₄ state
            else
              match _he : ByteSource.eof r₄.source with
              | (.error e, source) =>
                ⟨.error (.scan (.io e)), { r₄ with source := source }, state⟩
              | (.ok false, source) => ⟨.ok (), { r₄ with source := source }, state⟩
              | (.ok true, source) => apply v { r₄ with source := source } state
termination_by r.measure
decreasing_by
  · exact nearer_of_element _hm _hb _hn
  · exact nearer_of_changed _hm _hb _hn _ha _hne
  · exact nearer_of_eof _hm _hb _hn _ha _he

end Ebml.Reader
