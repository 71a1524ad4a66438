import Ebml.Scanner.Run

/-!
# What a run cannot do

Whatever a scan does and however it ends, it does not move away from its end: no step, not even one
that stalls or fails, raises the scanner's rank unless it takes bytes (`step_notFarther`). A run of a
receiver that saw an event came strictly nearer (`run_decreases_or`). Every byte that the scanner
counts is gone from the source (`run_accounts`), and a steady source of which nothing was taken is
the source from before (`run_steady`).
-/

namespace Ebml.Scanner

/-! ## Properties of runs from properties of steps -/

/-- What holds of every step and carries over from step to step holds of every run. -/
theorem run_induction {σ κ : Type} [FiniteSource σ] {R : Scanner → σ → Scanner → σ → Prop}
    (refl : ∀ t s, R t s t s)
    (trans : ∀ t s t' s' t'' s'', R t s t' s' → R t' s' t'' s'' → R t s t'' s'')
    (step : ∀ t s, R t s (step t s).scanner (step t s).source)
    (r : Receiver κ) (t : Scanner) (s : σ) (k : κ) :
    R t s (run r t s k).scanner (run r t s k).source := by
  fun_induction run r t s k with
  | case1 t s k => exact refl t s
  | case2 t s k k' _ e t' s' hstep => simpa [hstep] using step t s
  | case3 t s k k' _ t' s' hstep => simpa [hstep] using step t s
  | case4 t s k k' _ events t' s' hstep ih =>
    exact trans _ _ _ _ _ _ (by simpa [hstep] using step t s) ih

/-! ## Bytes and rank -/

/-- The byte count grows by no more than the source gave up, and the scan stays open or closed. -/
structure Accounts {σ : Type} [FiniteSource σ] (t : Scanner) (s : σ) (t' : Scanner) (s' : σ) :
    Prop where
  closed_eq : t'.closed = t.closed
  consumed_le : t.consumed ≤ t'.consumed
  remaining_add_le :
    FiniteSource.remaining s' + t'.consumed ≤ FiniteSource.remaining s + t.consumed

/-- Source and scanner are no farther from their end. -/
def NotFarther {σ : Type} [FiniteSource σ] (t : Scanner) (s : σ) (t' : Scanner) (s' : σ) : Prop :=
  FiniteSource.remaining s' < FiniteSource.remaining s ∨
    (FiniteSource.remaining s' ≤ FiniteSource.remaining s ∧ t'.rank ≤ t.rank)

section

variable {σ : Type} [FiniteSource σ] {t t' t'' : Scanner} {s s' s'' : σ}

theorem Accounts.refl (t : Scanner) (s : σ) : Accounts t s t s :=
  ⟨rfl, Nat.le_refl _, Nat.le_refl _⟩

theorem Accounts.trans (h : Accounts t s t' s') (h' : Accounts t' s' t'' s'') :
    Accounts t s t'' s'' :=
  ⟨h'.closed_eq.trans h.closed_eq, Nat.le_trans h.consumed_le h'.consumed_le,
    Nat.le_trans h'.remaining_add_le h.remaining_add_le⟩

theorem HeaderStep.accounts (h : HeaderStep t s t' s') : Accounts t s t' s' :=
  ⟨h.closed_eq, h.consumed_le, h.remaining_add_le⟩

theorem HeaderStep.notFarther (h : HeaderStep t s t' s') : NotFarther t s t' s' := by
  by_cases heq : t'.consumed = t.consumed
  · refine .inr ⟨h.remaining_le, Nat.le_of_eq ?_⟩
    simp only [rank, h.stack_eq, h.phase_eq, h.window_eq heq]
  · have := h.consumed_le
    exact .inl (h.remaining_lt (by omega))

theorem Decreases.notFarther (h : Decreases t s t' s') : NotFarther t s t' s' :=
  h.imp id fun ⟨hle, hlt⟩ => ⟨hle, Nat.le_of_lt hlt⟩

theorem NotFarther.refl (t : Scanner) (s : σ) : NotFarther t s t s :=
  .inr ⟨Nat.le_refl _, Nat.le_refl _⟩

theorem NotFarther.trans (h : NotFarther t s t' s') (h' : NotFarther t' s' t'' s'') :
    NotFarther t s t'' s'' := by
  unfold NotFarther at *
  omega

theorem Decreases.trans_notFarther (h : Decreases t s t' s') (h' : NotFarther t' s' t'' s'') :
    Decreases t s t'' s'' := by
  unfold NotFarther at h'
  unfold Decreases at *
  omega

end

theorem start_accounts (decl : ElementDecl) (size : DataSize) (number : Option Nat) (t : Scanner) :
    (t.start decl size number).2.closed = t.closed ∧
      (t.start decl size number).2.consumed = t.consumed := by
  unfold start
  split
  · exact ⟨rfl, rfl⟩
  · dsimp only [enter]
    split <;> exact ⟨rfl, rfl⟩

theorem resolve_accounts (id : Nat) (size : DataSize) (number : Option Nat) (t : Scanner) :
    (resolve id size number t).2.closed = t.closed ∧
      (resolve id size number t).2.consumed = t.consumed := by
  unfold resolve
  split
  · split <;> exact ⟨rfl, rfl⟩
  · split
    · exact ⟨rfl, rfl⟩
    · split
      · exact start_accounts ..
      · split
        · exact ⟨rfl, rfl⟩
        · exact start_accounts ..

theorem readContent_accounts {σ : Type} [FiniteSource σ] (leaf : Option Occurrence) (stop : Nat)
    (t : Scanner) (s : σ) :
    Accounts t s (readContent leaf stop t s).scanner (readContent leaf stop t s).source := by
  unfold readContent
  have ha := FiniteSource.remaining_available s
  split
  · exact ⟨rfl, Nat.le_refl _, Nat.le_refl _⟩
  · split
    · rename_i heq
      simp only [heq] at ha
      exact ⟨rfl, Nat.le_refl _, by dsimp only; omega⟩
    · rename_i ready s' heq
      simp only [heq] at ha
      dsimp only
      split
      · exact ⟨rfl, Nat.le_refl _, by dsimp only; omega⟩
      · have hr := FiniteSource.remaining_readBytes
          (min (min (stop - t.consumed) t.maxChunk) ready) s'
        split
        · rename_i heq'
          simp only [heq', handedBytes] at hr
          exact ⟨rfl, Nat.le_refl _, by dsimp only; omega⟩
        · rename_i chunk s'' heq'
          simp only [heq', handedBytes] at hr
          split
          · exact ⟨rfl, Nat.le_refl _, by dsimp only; omega⟩
          · exact ⟨rfl, by dsimp only; omega, by dsimp only; omega⟩

theorem stepContent_accounts {σ : Type} [FiniteSource σ] (leaf : Option Occurrence)
    (stop : Option Nat) (t : Scanner) (s : σ) :
    Accounts t s (stepContent leaf stop t s).scanner (stepContent leaf stop t s).source := by
  cases stop with
  | none => exact .refl t s
  | some stop => exact readContent_accounts leaf stop t s

theorem step_accounts {σ : Type} [FiniteSource σ] (t : Scanner) (s : σ) :
    Accounts t s (step t s).scanner (step t s).source := by
  -- Only reading a field and reading data take bytes, and they count what they take.
  unfold step
  split
  · unfold stepId
    split
    · exact ⟨rfl, Nat.le_refl _, Nat.le_refl _⟩
    · have hf := (headerStep_readField decodeId t.window.start t s).accounts
      split <;> rename_i heq <;> simp only [heq] at hf
      · exact hf
      · exact ⟨hf.closed_eq, hf.consumed_le, hf.remaining_add_le⟩
      · exact ⟨hf.closed_eq, hf.consumed_le, hf.remaining_add_le⟩
  · rename_i id idWidth number _
    unfold stepSize
    have hf := (headerStep_readField decodeSize (t.window.start + idWidth) t s).accounts
    split <;> rename_i heq <;> simp only [heq] at hf
    · exact hf
    · exact hf
    · exact ⟨hf.closed_eq, hf.consumed_le, hf.remaining_add_le⟩
  · rename_i id size number _
    obtain ⟨hclosed, hconsumed⟩ := resolve_accounts id size number t
    exact ⟨hclosed, Nat.le_of_eq hconsumed.symm, by dsimp only; omega⟩
  · exact stepContent_accounts _ _ t s
  · exact ⟨rfl, Nat.le_refl _, Nat.le_refl _⟩

theorem run_accounts {σ κ : Type} [FiniteSource σ] (r : Receiver κ) (t : Scanner) (s : σ) (k : κ) :
    Accounts t s (run r t s k).scanner (run r t s k).source :=
  run_induction Accounts.refl (fun _ _ _ _ _ _ => Accounts.trans) step_accounts r t s k

theorem remaining_stepContent_le {σ : Type} [FiniteSource σ] (leaf : Option Occurrence)
    (stop : Option Nat) (t : Scanner) (s : σ) :
    FiniteSource.remaining (stepContent leaf stop t s).source ≤ FiniteSource.remaining s := by
  have hle := (stepContent_accounts leaf stop t s).consumed_le
  have hgone := (stepContent_accounts leaf stop t s).remaining_add_le
  omega

/-- Without moving on, a step inside data leaves the scanner as it is. -/
theorem stepContent_moved_or {σ : Type} [ByteSource σ] (leaf : Option Occurrence) (stop : Option Nat)
    (t : Scanner) (s : σ) :
    (∃ events, (stepContent leaf stop t s).outcome = .ok (.moved events)) ∨
      (stepContent leaf stop t s).scanner = t := by
  cases stop with
  | none => exact .inr rfl
  | some stop =>
    simp only [stepContent]
    unfold readContent
    split
    · exact .inl ⟨_, rfl⟩
    · split
      · exact .inr rfl
      · dsimp only
        split
        · exact .inr rfl
        · split
          · exact .inr rfl
          · split
            · exact .inr rfl
            · exact .inl ⟨_, rfl⟩

theorem start_error {decl : ElementDecl} {size : DataSize} {number : Option Nat} {t : Scanner}
    {e : ScanError} (h : (t.start decl size number).1 = .error e) :
    (t.start decl size number).2 = t := by
  cases number with
  | none => rfl
  | some index => simp [start] at h

theorem resolve_error {id : Nat} {size : DataSize} {number : Option Nat} {t : Scanner} {e : ScanError}
    (h : (resolve id size number t).1 = .error e) : (resolve id size number t).2 = t := by
  unfold resolve at h ⊢
  split at h
  · split at h
    · rename_i hunknown; rw [if_pos hunknown]
    · simp at h
  · split at h
    · rename_i hleaf; rw [if_pos hleaf]
    · rename_i hleaf
      rw [if_neg hleaf]
      split at h
      · exact start_error h
      · split at h
        · simp at h
        · rename_i hlevel
          rw [if_neg hlevel]
          exact start_error h

theorem start_ne_stalled (decl : ElementDecl) (size : DataSize) (number : Option Nat) (t : Scanner) :
    (t.start decl size number).1 ≠ .ok .stalled := by
  cases number <;> simp [start]

theorem resolve_ne_stalled (id : Nat) (size : DataSize) (number : Option Nat) (t : Scanner) :
    (resolve id size number t).1 ≠ .ok .stalled := by
  unfold resolve
  split
  · split <;> simp
  · split
    · simp
    · split
      · exact start_ne_stalled _ _ _ _
      · split
        · simp
        · exact start_ne_stalled _ _ _ _

theorem step_notFarther {σ : Type} [FiniteSource σ] (t : Scanner) (s : σ) :
    NotFarther t s (step t s).scanner (step t s).source := by
  -- A step that moved is known to decrease. Of the others it is left that they take no bytes back.
  by_cases hmoved : ∃ events, (step t s).outcome = .ok (.moved events)
  · obtain ⟨events, h⟩ := hmoved
    exact (step_decreases h).notFarther
  · unfold step at hmoved ⊢
    split at hmoved
    · unfold stepId at hmoved ⊢
      split at hmoved
      · exact absurd ⟨_, rfl⟩ hmoved
      · have hf := (headerStep_readField decodeId t.window.start t s).notFarther
        split at hmoved <;> rename_i heq <;> simp only [heq] at hf
        · exact hf
        · exact hf
        · exact absurd ⟨_, rfl⟩ hmoved
    · rename_i id idWidth index _
      unfold stepSize at hmoved ⊢
      have hf := (headerStep_readField decodeSize (t.window.start + idWidth) t s).notFarther
      split at hmoved <;> rename_i heq <;> simp only [heq] at hf
      · exact hf
      · exact hf
      · exact absurd ⟨_, rfl⟩ hmoved
    · rename_i id size number _
      dsimp only at hmoved ⊢
      cases hr : (resolve id size number t).1 with
      | error e => rw [resolve_error hr]; exact NotFarther.refl t s
      | ok p =>
        cases p with
        | stalled => exact absurd hr (resolve_ne_stalled id size number t)
        | moved events => exact absurd ⟨events, hr⟩ hmoved
    · rename_i leaf stop hphase
      refine .inr ⟨remaining_stepContent_le leaf stop t s, ?_⟩
      rcases stepContent_moved_or leaf stop t s with h | h
      · exact absurd h hmoved
      · exact Nat.le_of_eq (by rw [h])
    · exact absurd ⟨_, rfl⟩ hmoved

theorem run_notFarther {σ κ : Type} [FiniteSource σ] (r : Receiver κ) (t : Scanner) (s : σ) (k : κ) :
    NotFarther t s (run r t s k).scanner (run r t s k).source :=
  run_induction NotFarther.refl (fun _ _ _ _ _ _ => NotFarther.trans) step_notFarther r t s k

/-- A run whose receiver is not as before brought source and scanner nearer to their end. -/
theorem run_decreases_or {σ κ : Type} [FiniteSource σ] (r : Receiver κ)
    (hpoll : ∀ k, (r.poll k).2 = k) (t : Scanner) (s : σ) (k : κ) :
    Decreases t s (run r t s k).scanner (run r t s k).source ∨ (run r t s k).receiver = k := by
  have hk := hpoll k
  have hd := fun events => @step_decreases σ _ t s events
  unfold run
  split
  · rename_i heq; exact .inr (by simpa [heq] using hk)
  · rename_i k' heq
    simp only [heq] at hk
    split
    · exact .inr hk
    · exact .inr hk
    · rename_i events t' s' hstep
      simp only [hstep] at hd
      exact .inl ((hd events rfl).trans_notFarther (run_notFarther r t' s' _))

/-! ## Steady sources -/

/-- The source is as before, or it has less to hand out. -/
def Steady {σ : Type} [FiniteSource σ] (s s' : σ) : Prop :=
  s' = s ∨ FiniteSource.remaining s' < FiniteSource.remaining s

section

variable {σ : Type} [SteadySource σ]

theorem Steady.refl (s : σ) : Steady s s := .inl rfl

theorem Steady.trans {s s' s'' : σ} (h : Steady s s') (h' : Steady s' s'') : Steady s s'' := by
  rcases h with rfl | h
  · exact h'
  · rcases h' with rfl | h'
    · exact .inr h
    · exact .inr (Nat.lt_trans h' h)

theorem steady_takeBytes (n : Nat) (s : σ) : Steady s (takeBytes n s).source := by
  induction n generalizing s with
  | zero => exact .refl s
  | succ n ih =>
    have hb : Steady s (ByteSource.readByte s).2 := SteadySource.steady_readByte s
    unfold takeBytes
    split <;> rename_i heq <;> simp only [heq] at hb
    · exact hb
    · exact hb
    · exact hb.trans (ih _)

theorem steady_pull (n : Nat) (s : σ) : Steady s (pull n s).source := by
  have ha : Steady s (ByteSource.available s).2 := SteadySource.steady_available s
  unfold pull
  split <;> rename_i heq <;> simp only [heq] at ha
  · exact ha
  · exact ha.trans (steady_takeBytes _ _)

theorem steady_fetch (wanted : Nat) (t : Scanner) (s : σ) :
    Steady s (fetch wanted t s).source := by
  have hp := steady_pull wanted s
  unfold fetch
  dsimp only
  split
  · exact hp
  · split <;> exact hp

theorem steady_completeField {α : Type} (decode : Bytes → Except VintError (Option α))
    (offset : Nat) (t : Scanner) (s : σ) :
    Steady s (completeField decode offset t s).source := by
  unfold completeField
  split
  · exact .refl s
  · exact .refl s
  · split
    · exact .refl s
    · rename_i first _
      have hf := steady_fetch (vintWidth first - (t.window.sliceFrom offset).length) t s
      split <;> rename_i heq <;> simp only [heq] at hf
      · exact hf
      · exact hf
      · split <;> exact hf

theorem steady_readField {α : Type} (decode : Bytes → Except VintError (Option α))
    (offset : Nat) (t : Scanner) (s : σ) : Steady s (readField decode offset t s).source := by
  unfold readField
  split
  · exact steady_completeField decode offset t s
  · have hf := steady_fetch 1 t s
    split <;> rename_i heq <;> simp only [heq] at hf
    · exact hf
    · exact hf
    · exact hf.trans (steady_completeField decode offset _ _)

theorem steady_readContent (leaf : Option Occurrence) (stop : Nat) (t : Scanner) (s : σ) :
    Steady s (readContent leaf stop t s).source := by
  have ha : Steady s (ByteSource.available s).2 := SteadySource.steady_available s
  unfold readContent
  split
  · exact .refl s
  · split
    · rename_i heq; simpa [heq] using ha
    · rename_i ready s' heq
      simp only [heq] at ha
      dsimp only
      split
      · exact ha
      · have hr : Steady s' (ByteSource.readBytes _ s').2 :=
          SteadySource.steady_readBytes (min (min (stop - t.consumed) t.maxChunk) ready) s'
        split <;> rename_i heq' <;> simp only [heq'] at hr
        · exact ha.trans hr
        · split <;> exact ha.trans hr

theorem steady_stepContent (leaf : Option Occurrence) (stop : Option Nat) (t : Scanner) (s : σ) :
    Steady s (stepContent leaf stop t s).source := by
  cases stop with
  | none => exact .refl s
  | some stop => exact steady_readContent leaf stop t s

theorem step_steady (t : Scanner) (s : σ) : Steady s (step t s).source := by
  unfold step
  split
  · unfold stepId
    split
    · exact .refl s
    · have hf := steady_readField decodeId t.window.start t s
      split <;> rename_i heq <;> simp only [heq] at hf <;> exact hf
  · rename_i id idWidth index _
    unfold stepSize
    have hf := steady_readField decodeSize (t.window.start + idWidth) t s
    split <;> rename_i heq <;> simp only [heq] at hf <;> exact hf
  · exact .refl s
  · exact steady_stepContent _ _ t s
  · exact .refl s

theorem run_steady {κ : Type} (r : Receiver κ) (t : Scanner) (s : σ) (k : κ) :
    Steady s (run r t s k).source :=
  run_induction (R := fun _ s _ s' => Steady s s') (fun _ s => .refl s)
    (fun _ _ _ _ _ _ => Steady.trans) step_steady r t s k

end

end Ebml.Scanner
