import Ebml.Proofs.Scanner.Stalling

/-!
# Scans that met no failure

A scan ends at the first failure of its source. So where no failure of the source is reported the
source answered whatever it was asked (`Serves`), and where one is, it was the first (`served_run`).
-/

namespace Ebml

namespace Scanner

variable {σ α β : Type} [FiniteSource σ]

/-- If the outcome is a failure of the source, it is the first one that the source met, and else the
source answered all that it was asked. Nothing is said if the scan lost track of its own state. -/
structure Served (s : σ) (outcome : Except ScanError β) (s' : σ) : Prop where
  serves : (∀ e, outcome ≠ .error (.io e)) →
    (∀ detail offset, outcome ≠ .error (.invalidState detail offset)) → Serves s s'
  fails : ∀ e, outcome = .error (.io e) → ∃ s₁, Serves s s₁ ∧ Fails s₁ e s'

namespace Served

variable {s s' s'' : σ} {outcome : Except ScanError β}

theorem of_serves (h : Serves s s') (hio : ∀ e, outcome ≠ .error (.io e)) : Served s outcome s' :=
  ⟨fun _ _ => h, fun e heq => absurd heq (hio e)⟩

theorem of_fails {e : IoError} (h : Serves s s') (hfails : Fails s' e s'') :
    Served s (.error (.io e) : Except ScanError β) s'' :=
  ⟨fun hio _ => absurd rfl (hio e), fun _ heq => by
    obtain rfl := ScanError.io.inj (Except.error.inj heq)
    exact ⟨s', h, hfails⟩⟩

theorem of_invalidState (detail : String) (offset : Nat) :
    Served s (.error (.invalidState detail offset) : Except ScanError β) s' :=
  ⟨fun _ hvalid => absurd rfl (hvalid detail offset), fun _ heq => by simp at heq⟩

theorem serves_of_ok {b : β} (h : Served s (.ok b) s') : Serves s s' :=
  h.serves (by simp) (by simp)

/-- An error that is passed on says the same. -/
theorem pass_error {e : ScanError} (h : Served s (.error e : Except ScanError β) s') :
    Served s (.error e : Except ScanError α) s' :=
  ⟨fun hio hvalid => h.serves (fun cause heq => hio cause (by rw [Except.error.inj heq]))
    fun detail offset heq => hvalid detail offset (by rw [Except.error.inj heq]),
    fun cause heq => h.fails cause (by rw [Except.error.inj heq])⟩

theorem after (h : Served s' outcome s'') (hs : Serves s s') : Served s outcome s'' :=
  ⟨fun hio hvalid => hs.trans (h.serves hio hvalid), fun e heq => by
    obtain ⟨s₁, hserves, hfails⟩ := h.fails e heq
    exact ⟨s₁, hs.trans hserves, hfails⟩⟩

end Served

/-! ## Header fields -/

/-- If taking bytes was cut short by a failure, it is the first one that the source met, and else the
source answered all that it was asked. -/
structure Drawn (s : σ) (p : Pulled σ) : Prop where
  serves : p.failure = none → Serves s p.source
  fails : ∀ e, p.failure = some e → ∃ s₁, Serves s s₁ ∧ Fails s₁ e p.source

namespace Drawn

variable {s s' : σ} {p : Pulled σ}

theorem of_serves {bytes : Bytes} (h : Serves s s') : Drawn s ⟨bytes, none, s'⟩ :=
  ⟨fun _ => h, by simp⟩

theorem of_fails {bytes : Bytes} {e : IoError} (h : Fails s e s') : Drawn s ⟨bytes, some e, s'⟩ :=
  ⟨by simp, fun _ heq => ⟨s, .refl, Option.some.inj heq ▸ h⟩⟩

theorem after (h : Drawn s' p) (hs : Serves s s') : Drawn s p :=
  ⟨fun hnone => hs.trans (h.serves hnone), fun e he => by
    obtain ⟨s₁, hserves, hfails⟩ := h.fails e he
    exact ⟨s₁, hs.trans hserves, hfails⟩⟩

end Drawn

theorem takeBytes_drawn (n : Nat) (s : σ) : Drawn s (takeBytes n s) := by
  induction n generalizing s with
  | zero => exact .of_serves .refl
  | succ n ih =>
    have hread {b : Option UInt8} := @Serves.readByte σ _ s s b .refl
    unfold takeBytes
    split <;> rename_i heq <;> simp only [heq] at hread
    · exact .of_fails (.inr (.inl heq))
    · exact .of_serves (hread rfl)
    · obtain ⟨hserves, hfails⟩ := (ih _).after (hread rfl)
      exact ⟨hserves, hfails⟩

theorem pull_drawn (n : Nat) (s : σ) : Drawn s (pull n s) := by
  have havailable {ready : Nat} := @Serves.available σ _ s s ready .refl
  unfold pull
  split <;> rename_i heq <;> simp only [heq] at havailable
  · exact .of_fails (.inl heq)
  · exact (takeBytes_drawn _ _).after (havailable rfl)

variable (t : Scanner) (s : σ)

theorem served_fetch (wanted : Nat) :
    Served s (fetch wanted t s).outcome (fetch wanted t s).source := by
  have hpull := pull_drawn wanted s
  unfold fetch
  dsimp only
  split
  · exact .of_invalidState _ _
  · split <;> rename_i hfailure
    · obtain ⟨s₁, hserves, hfails⟩ := hpull.fails _ hfailure
      exact .of_fails hserves hfails
    · exact .of_serves (hpull.serves hfailure) (by simp)

variable (decode : Bytes → Except VintError (Option α)) (offset : Nat)

theorem served_completeField :
    Served s (completeField decode offset t s).outcome (completeField decode offset t s).source := by
  unfold completeField
  split
  · exact .of_serves .refl (by simp)
  · exact .of_serves .refl (by simp)
  · split
    · exact .of_invalidState _ _
    · rename_i first _
      have hfetch := served_fetch t s (vintWidth first - (t.window.sliceFrom offset).length)
      split <;> rename_i heq <;> simp only [heq] at hfetch
      · exact hfetch.pass_error
      · exact .of_serves hfetch.serves_of_ok (by simp)
      · split
        · exact .of_serves hfetch.serves_of_ok (by simp)
        · exact .of_serves hfetch.serves_of_ok (by simp)
        · exact .of_invalidState _ _

theorem served_readField :
    Served s (readField decode offset t s).outcome (readField decode offset t s).source := by
  unfold readField
  split
  · exact served_completeField t s decode offset
  · have hfetch := served_fetch t s 1
    split <;> rename_i heq <;> simp only [heq] at hfetch
    · exact hfetch.pass_error
    · exact .of_serves hfetch.serves_of_ok (by simp)
    · exact (served_completeField _ _ decode offset).after hfetch.serves_of_ok

/-! ## Data -/

theorem served_readContent (leaf : Option Occurrence) (stop : Nat) :
    Served s (readContent leaf stop t s).outcome (readContent leaf stop t s).source := by
  have havailable {ready : Nat} := @Serves.available σ _ s s ready .refl
  unfold readContent
  split
  · exact .of_serves .refl (by simp)
  · split <;> rename_i heq <;> simp only [heq] at havailable
    · exact .of_fails .refl (.inl heq)
    · rename_i ready s'
      dsimp only
      split
      · exact .of_serves (havailable rfl) (by simp)
      · generalize min (min (stop - t.consumed) t.maxChunk) ready = wanted
        have hread {bytes : Bytes} := @Serves.readBytes σ _ s s' bytes wanted (havailable rfl)
        split <;> rename_i heq' <;> simp only [heq'] at hread
        · exact .of_fails (havailable rfl) (.inr (.inr ⟨wanted, heq'⟩))
        · split
          · exact .of_serves (hread rfl) (by simp)
          · exact .of_serves (hread rfl) (by simp)

theorem served_stepContent (leaf : Option Occurrence) (stop : Option Nat) :
    Served s (stepContent leaf stop t s).outcome (stepContent leaf stop t s).source := by
  cases stop with
  | none => exact .of_invalidState _ _
  | some stop => exact served_readContent t s leaf stop

/-! ## Steps and runs -/

theorem served_step : Served s (step t s).outcome (step t s).source := by
  -- A failure can only come out of reading a field or data, and both pass it on.
  unfold step
  split
  · have hread := served_readField t s decodeId t.window.start
    unfold stepId
    split
    · exact .of_serves .refl (by simp)
    · split <;> rename_i heq <;> simp only [heq] at hread
      · exact hread.pass_error
      · exact .of_serves hread.serves_of_ok (by simp)
      · exact .of_serves hread.serves_of_ok (by simp)
  · rename_i id idWidth number _
    have hread := served_readField t s decodeSize (t.window.start + idWidth)
    unfold stepSize
    split <;> rename_i heq <;> simp only [heq] at hread
    · exact hread.pass_error
    · exact .of_serves hread.serves_of_ok (by simp)
    · exact .of_serves hread.serves_of_ok (by simp)
  · exact .of_serves .refl (resolve_ne_io t _ _ _)
  · exact served_stepContent t s _ _
  · exact .of_serves .refl (by simp [finishLeaf])

/-- A run meets no failure of the source but the one that it reports. -/
theorem served_run {κ : Type} (r : Receiver κ) (k : κ) :
    Served s (run r t s k).outcome (run r t s k).source := by
  fun_induction run r t s k with
  | case1 => exact .of_serves .refl (by simp)
  | case2 t s k k' _ e t' s' hstep =>
    have hserved := served_step t s
    rw [hstep] at hserved
    exact hserved.pass_error
  | case3 t s k k' _ t' s' hstep =>
    have hserved := served_step t s
    rw [hstep] at hserved
    exact .of_serves hserved.serves_of_ok (by simp)
  | case4 t s k k' _ event t' s' hstep ih =>
    have hserved := served_step t s
    rw [hstep] at hserved
    exact ih.after hserved.serves_of_ok

end Scanner

end Ebml
