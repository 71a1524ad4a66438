import Ebml.Proofs.Scanner.Judging
import Ebml.Scanner.Progress

/-!
# When a scan stalls

Over an announcing source a scan stalls only when there is nothing left to take, and the failures of
the source that it reports are failures to announce. So over a buffered source what was pushed is
used up whenever a parse comes to an end by itself, and the source is never the reason for a failure.
-/

namespace Ebml.Scanner

open AnnouncingSource (held)

variable {σ α β : Type} [FiniteSource σ] [AnnouncingSource σ]

/-- What came of operations that lead from `s` to `s'`: if it says that bytes are lacking, none is
held unless pieces of none were asked for, and if it is a failure of the source, the source balked. -/
structure Excused (maxChunk : Nat) (lacking : β) (s : σ) (outcome : Except ScanError β) (s' : σ) :
    Prop where
  reaches : Reaches s s'
  held_eq : 0 < maxChunk → outcome = .ok lacking → held s' = []
  balks : ∀ e, outcome = .error (.io e) → Balks s e s'

section

variable {maxChunk : Nat} {lacking b : β} {s s' s'' : σ}

theorem Excused.of_ok (hreaches : Reaches s s') (h : b ≠ lacking) :
    Excused maxChunk lacking s (.ok b) s' :=
  ⟨hreaches, fun _ heq => absurd (Except.ok.inj heq) h, by simp⟩

theorem Excused.of_error {e : ScanError} (hreaches : Reaches s s') (h : ∀ cause, e ≠ .io cause) :
    Excused maxChunk lacking s (.error e) s' :=
  ⟨hreaches, by simp, fun cause heq => absurd (Except.error.inj heq) (h cause)⟩

/-- What is judged this way is excused. -/
theorem Judged.excused {outcome : Except ScanError β}
    (h : Judged (fun _ s' => 0 < maxChunk → held s' = []) Balks lacking s outcome s') :
    Excused maxChunk lacking s outcome s' :=
  ⟨h.reaches, fun hchunk heq => h.lacks heq hchunk, h.fails⟩

end

variable (maxChunk : Nat) (t : Scanner) (s : σ)

/-! ## Header fields -/

theorem judged_fetch (wanted : Nat) :
    Judged (fun _ s' => 0 < maxChunk → held s' = []) Balks false s (fetch wanted t s).outcome
      (fetch wanted t s).source := by
  have hreaches : Reaches s (pull wanted s).source := ⟨_, Hands.pull wanted s⟩
  obtain ⟨hfailure, hheld⟩ := pull_held wanted s
  unfold fetch
  dsimp only
  split
  · exact .of_error hreaches (by simp)
  · split
    · rename_i e he
      refine ⟨hreaches, by simp, fun cause heq => ?_⟩
      obtain rfl := ScanError.io.inj (Except.error.inj heq)
      exact ⟨s, .refl s, hfailure _ he⟩
    · rename_i hnone
      refine ⟨hreaches, fun heq _ => hheld hnone ?_, by simp⟩
      simpa using heq

theorem excused_stepId : Excused maxChunk .stalled s (stepId t s).outcome (stepId t s).source :=
  (judged_stepId (judged_fetch maxChunk) t s (fun _ => id) fun _ => Reaches.balks).excused

theorem excused_stepSize (id idWidth : Nat) (number : Option Nat) :
    Excused maxChunk .stalled s (stepSize id idWidth number t s).outcome
      (stepSize id idWidth number t s).source :=
  (judged_stepSize (judged_fetch maxChunk) t s (fun _ h => h) (fun _ => Reaches.balks)
    id idWidth number).excused

/-! ## Data -/

theorem excused_readContent (leaf : Option Occurrence) (stop : Nat) :
    Excused t.maxChunk .stalled s (readContent leaf stop t s).outcome
      (readContent leaf stop t s).source := by
  have havailable := AnnouncingSource.available_held s
  have hreaches : Reaches s (ByteSource.available s).2 := ⟨[], (Hands.refl s).available⟩
  unfold readContent
  split
  · exact .of_ok (.refl s) (by simp)
  · rename_i hover
    split <;> rename_i heq <;> simp only [heq] at havailable hreaches
    · refine ⟨hreaches, by simp, fun cause hcause => ?_⟩
      obtain rfl := ScanError.io.inj (Except.error.inj hcause)
      exact ⟨s, .refl s, heq⟩
    · rename_i ready s'
      obtain rfl := havailable ready rfl
      dsimp only
      split
      · rename_i hwanted
        refine ⟨hreaches, fun hchunk _ => ?_, by simp⟩
        have hlength : (held s').length = 0 := by omega
        exact List.eq_nil_of_length_eq_zero hlength
      · -- Some of the bytes held are asked for, so a piece of data comes.
        rename_i hwanted
        have hheld : held s' ≠ [] := by
          intro hnil
          rw [hnil, List.length_nil] at hwanted
          omega
        obtain ⟨hread, -⟩ := AnnouncingSource.readBytes_held
          (min (min (stop - t.consumed) t.maxChunk) (held s').length) s' hheld
        have hreaches' := hreaches.trans ⟨_, (Hands.refl s').readBytes
          (min (min (stop - t.consumed) t.maxChunk) (held s').length)⟩
        split <;> rename_i heq' <;> simp only [heq'] at hread hreaches'
        · simp at hread
        · rename_i chunk _
          rw [Except.ok.injEq] at hread
          split
          · rename_i hempty
            rw [List.isEmpty_iff] at hempty
            rw [hempty, eq_comm, List.take_eq_nil_iff] at hread
            exact absurd hread (not_or.mpr ⟨hwanted, hheld⟩)
          · exact .of_ok hreaches' (by simp)

theorem excused_stepContent (leaf : Option Occurrence) (stop : Option Nat) :
    Excused t.maxChunk .stalled s (stepContent leaf stop t s).outcome
      (stepContent leaf stop t s).source := by
  cases stop with
  | none => exact .of_error (.refl s) (by simp)
  | some stop => exact excused_readContent t s leaf stop

/-! ## Steps -/

theorem start_ne_io (decl : ElementDecl) (size : DataSize) (number : Option Nat) (e : IoError) :
    (t.start decl size number).1 ≠ .error (.io e) := by
  cases number <;> simp [start]

theorem resolve_ne_io (id : Nat) (size : DataSize) (number : Option Nat) (e : IoError) :
    (resolve id size number t).1 ≠ .error (.io e) := by
  unfold resolve
  split
  · split <;> simp
  · split
    · simp
    · split
      · exact start_ne_io t _ _ _ e
      · split
        · simp
        · exact start_ne_io t _ _ _ e

theorem excused_resolve (id : Nat) (size : DataSize) (number : Option Nat) :
    Excused maxChunk .stalled s (resolve id size number t).1 s :=
  ⟨.refl s, fun _ heq => absurd heq (resolve_ne_stalled id size number t),
    fun e heq => absurd heq (resolve_ne_io t id size number e)⟩

/-- Every step over an announcing source is excused. -/
theorem excused_step : Excused t.maxChunk .stalled s (step t s).outcome (step t s).source := by
  unfold step
  split
  · exact excused_stepId t.maxChunk t s
  · exact excused_stepSize t.maxChunk t s _ _ _
  · exact excused_resolve t.maxChunk t s _ _ _
  · exact excused_stepContent t s _ _
  · exact .of_ok (.refl s) (by simp [finishLeaf])

/-! ## Runs -/

theorem run_reaches {κ : Type} (r : Receiver κ) (k : κ) : Reaches s (run r t s k).source :=
  run_induction (R := fun _ s _ s' => Reaches s s') (fun _ s => .refl s)
    (fun _ _ _ _ _ _ h h' => h.trans h') (fun t s => (excused_step t s).reaches) r t s k

/-- A run that ends with a failure of the source ended where the source balked. -/
theorem run_balks {κ : Type} {r : Receiver κ} {k : κ} {e : IoError}
    (h : (run r t s k).outcome = .error (.io e)) : Balks s e (run r t s k).source := by
  fun_induction run r t s k with
  | case1 => simp at h
  | case2 t s k k' _ e' t' s' hstep =>
    have hexcused := excused_step t s
    rw [hstep] at hexcused
    exact hexcused.balks e (by simpa using h)
  | case3 => simp at h
  | case4 t s k k' _ event t' s' hstep ih =>
    have hexcused := excused_step t s
    rw [hstep] at hexcused
    exact hexcused.reaches.balks (ih h)

/-- A buffered source is never the reason for a failure. -/
theorem run_ne_io {σ κ : Type} [FiniteSource σ] [BufferedSource σ] (r : Receiver κ) (t : Scanner)
    (s : σ) (k : κ) (e : IoError) : (run r t s k).outcome ≠ .error (.io e) :=
  fun h => not_balks (run_balks t s h)

end Ebml.Scanner
