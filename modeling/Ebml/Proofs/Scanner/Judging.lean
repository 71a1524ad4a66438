import Ebml.Proofs.Source.Handing
import Ebml.Scanner.Run

/-!
# What a header field says of its source

Reading a header field is fetching, and only what is fetched can be lacking or fail. So what a lack of
bytes says of the source after every fetch it says after the field as well, and so does a failure
(`judged_readField`). The same goes for the steps that read a field (`judged_stepId`,
`judged_stepSize`).
-/

namespace Ebml.Scanner

/-- What came of operations that lead from `s` to `s'`: if it says that bytes are lacking then
`L s s'`, and if it is a failure of the source then `F s e s'`. -/
structure Judged {σ β : Type} [FiniteSource σ] (L : σ → σ → Prop) (F : σ → IoError → σ → Prop)
    (lacking : β) (s : σ) (outcome : Except ScanError β) (s' : σ) : Prop where
  reaches : Reaches s s'
  lacks : outcome = .ok lacking → L s s'
  fails : ∀ e, outcome = .error (.io e) → F s e s'

variable {σ α β : Type} [FiniteSource σ] {L : σ → σ → Prop} {F : σ → IoError → σ → Prop}

namespace Judged

variable {lacking b : β} {s s' s'' : σ}

theorem of_ok (hreaches : Reaches s s') (h : b ≠ lacking) : Judged L F lacking s (.ok b) s' :=
  ⟨hreaches, fun heq => absurd (Except.ok.inj heq) h, by simp⟩

theorem of_error {e : ScanError} (hreaches : Reaches s s') (h : ∀ cause, e ≠ .io cause) :
    Judged L F lacking s (.error e) s' :=
  ⟨hreaches, by simp, fun cause heq => absurd (Except.error.inj heq) (h cause)⟩

/-- An error that is passed on says the same. -/
theorem pass_error {lacking' : α} {e : ScanError} (h : Judged L F lacking s (.error e) s') :
    Judged L F lacking' s (.error e) s' :=
  ⟨h.reaches, by simp, fun cause heq => h.fails cause (by rw [Except.error.inj heq])⟩

/-- Where bytes are lacking for a part they are lacking for the whole. -/
theorem pass_lacking {lacking' : α} (h : Judged L F lacking s (.ok lacking) s') :
    Judged L F lacking' s (.ok lacking') s' :=
  ⟨h.reaches, fun _ => h.lacks rfl, by simp⟩

/-- What came of later operations, if lacks and failures may be seen from further back. -/
theorem after {outcome : Except ScanError β} (h : Judged L F lacking s' outcome s'')
    (hreaches : Reaches s s') (hL : L s' s'' → L s s'') (hF : ∀ e, F s' e s'' → F s e s'') :
    Judged L F lacking s outcome s'' :=
  ⟨hreaches.trans h.reaches, fun heq => hL (h.lacks heq), fun e heq => hF e (h.fails e heq)⟩

end Judged

section

variable (hfetch : ∀ (t : Scanner) (s : σ) (wanted : Nat),
  Judged L F false s (fetch wanted t s).outcome (fetch wanted t s).source)
  (t : Scanner) (s : σ) (decode : Bytes → Except VintError (Option α)) (offset : Nat)

include hfetch

theorem judged_completeField :
    Judged L F none s (completeField decode offset t s).outcome
      (completeField decode offset t s).source := by
  unfold completeField
  split
  · exact .of_error (.refl s) (by simp)
  · exact .of_ok (.refl s) (by simp)
  · split
    · exact .of_error (.refl s) (by simp)
    · rename_i first _
      have hmore := hfetch t s (vintWidth first - (t.window.sliceFrom offset).length)
      split <;> rename_i heq <;> simp only [heq] at hmore
      · exact hmore.pass_error
      · exact hmore.pass_lacking
      · split
        · exact .of_error hmore.reaches (by simp)
        · exact .of_ok hmore.reaches (by simp)
        · exact .of_error hmore.reaches (by simp)

variable (hL : ∀ {s s' s'' : σ}, Reaches s s' → L s' s'' → L s s'')
  (hF : ∀ {s s' s'' : σ} (e : IoError), Reaches s s' → F s' e s'' → F s e s'')

include hL hF

theorem judged_readField :
    Judged L F none s (readField decode offset t s).outcome
      (readField decode offset t s).source := by
  unfold readField
  split
  · exact judged_completeField hfetch t s decode offset
  · have hfirst := hfetch t s 1
    split <;> rename_i heq <;> simp only [heq] at hfirst
    · exact hfirst.pass_error
    · exact hfirst.pass_lacking
    · exact (judged_completeField hfetch _ _ decode offset).after hfirst.reaches
        (hL hfirst.reaches) fun e => hF e hfirst.reaches

theorem judged_stepId : Judged L F .stalled s (stepId t s).outcome (stepId t s).source := by
  have hread := judged_readField hfetch t s decodeId t.window.start hL hF
  unfold stepId
  split
  · exact .of_ok (.refl s) (by simp)
  · split <;> rename_i heq <;> simp only [heq] at hread
    · exact hread.pass_error
    · exact hread.pass_lacking
    · exact .of_ok hread.reaches (by simp)

theorem judged_stepSize (id idWidth : Nat) (number : Option Nat) :
    Judged L F .stalled s (stepSize id idWidth number t s).outcome
      (stepSize id idWidth number t s).source := by
  have hread := judged_readField hfetch t s decodeSize (t.window.start + idWidth) hL hF
  unfold stepSize
  split <;> rename_i heq <;> simp only [heq] at hread
  · exact hread.pass_error
  · exact hread.pass_lacking
  · exact .of_ok hread.reaches (by simp)

end

end Ebml.Scanner
