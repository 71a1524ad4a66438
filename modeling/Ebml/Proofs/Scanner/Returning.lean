import Ebml.Proofs.Scanner.Pausing
import Ebml.Proofs.Scanner.Ending
import Ebml.Proofs.Source.Bounding

/-!
# Parsing returns

A round of the loop that goes on uses up some of a budget: five for each byte that the source may still
hand out, and the scanner's rank. A byte may bring the scanner into a header, which raises the rank by
four at most, and whatever takes no byte lowers the rank (`Transition.rank_lt`). So the loop is over
within that many rounds and one more, over every source of which only finitely many bytes can come
(`runWithin_eq`).

It then left no work undone: unless the receiver said no, the scan is not about to start or to end an
element, and no open master is exhausted between two elements (`parse_returns`).
-/

namespace Ebml.Scanner

/-! ## The budget -/

/-- A step that goes on lowers the rank, or takes bytes and raises it by less than five for each. -/
theorem Transition.rank_lt {t t' : Scanner} {bytes : Bytes} {events : List Event}
    (h : Transition t bytes (.ok (.moved events)) t') : t'.rank < t.rank + 5 * bytes.length := by
  generalize houtcome : (Except.ok (.moved events) : Except ScanError Progress) = outcome at h
  cases h with
  | closeExhausted hphase _ _ hstack => simp [rank, hphase, hstack]
  | idRead hphase _ hfield =>
    have hpos := hfield.length_pos
    cases hempty : t.window.isEmpty with
    | true =>
      -- No byte of the id was there, so all of it is taken now.
      rw [List.isEmpty_iff.mp hempty, List.nil_append] at hpos
      simp only [rank, absorb, hphase, hempty, if_true]
      omega
    | false =>
      simp only [rank, absorb, hphase, hempty, Bool.false_eq_true, if_false]
      omega
  | sizeRead hphase =>
    simp only [rank, absorb, hphase]
    omega
  | skip hphase => simp [rank, hphase]
  | closeLevel hphase _ _ hstack => simp [rank, hphase, hstack]
  | enterMaster hphase =>
    simp [rank, atBoundary, HeaderWindow.openedAt, HeaderWindow.isEmpty, hphase]
  | enterLeaf hphase => simp [rank, hphase]
  | contentOver hphase => simp [rank, hphase]
  | @contentRead leaf stop _ hphase hne =>
    have hpos := List.length_pos_of_ne_nil hne
    by_cases hover : stop ≤ t.consumed + bytes.length
    · simp only [rank, hphase, if_pos hover]
      omega
    · simp only [rank, hphase, if_neg hover]
      omega
  | finish hphase => simp [rank, atBoundary, HeaderWindow.openedAt, HeaderWindow.isEmpty, hphase]
  | idLacking _ _ _ hwaits => cases hwaits <;> simp at houtcome
  | sizeLacking _ _ _ hwaits => cases hwaits <;> simp at houtcome
  | contentLacking _ _ hwaits => cases hwaits <;> simp at houtcome
  | _ => simp at houtcome

variable {σ κ : Type} [FiniteSource σ]

/-- How many more rounds can go on. -/
def budget (t : Scanner) (s : σ) : Nat :=
  5 * FiniteSource.remaining s + t.rank

/-- A step that goes on uses up some of the budget. -/
theorem budget_step_lt {t : Scanner} {s : σ} {events : List Event} (hco : t.Coherent)
    (h : (step t s).outcome = .ok (.moved events)) :
    budget (step t s).scanner (step t s).source < budget t s := by
  obtain ⟨bytes, -, htransition⟩ := @step_transition σ _ t s hco
  have hconsumed := htransition.frame.consumed_eq
  have hremaining := (step_accounts t s).remaining_add_le
  rw [h] at htransition
  have hrank := htransition.rank_lt
  unfold budget
  omega

/-! ## Rounds -/

/-- At most `n` rounds of a run. There is no result if it is not over by then. -/
def runWithin (r : Receiver κ) : Nat → Scanner → σ → κ → Option (Parsed σ κ)
  | 0, _, _, _ => none
  | n + 1, t, s, k =>
    match r.poll k with
    | (false, k') => some ⟨.ok (), t, s, k'⟩
    | (true, k') =>
      match step t s with
      | ⟨.error e, t', s'⟩ => some ⟨.error e, t', s', k'⟩
      | ⟨.ok .stalled, t', s'⟩ => some ⟨.ok (), t', s', k'⟩
      | ⟨.ok (.moved events), t', s'⟩ => runWithin r n t' s' (r.deliverAll events k')

/-- At most `n` rounds of a parse. -/
def parseWithin (r : Receiver κ) (n : Nat) (t : Scanner) (s : σ) (k : κ) : Option (Parsed σ κ) :=
  if t.closed then some ⟨.ok (), t, s, k⟩ else runWithin r n t s k

/-- With more rounds than the budget a run is over. -/
theorem runWithin_eq (r : Receiver κ) {n : Nat} {t : Scanner} {s : σ} (k : κ) (hco : t.Coherent)
    (hn : budget t s < n) : runWithin r n t s k = some (run r t s k) := by
  induction n generalizing t s k with
  | zero => exact absurd hn (Nat.not_lt_zero _)
  | succ n ih =>
    unfold runWithin
    cases hpoll : r.poll k with
    | mk willing k' =>
      cases willing with
      | false => rw [run_of_unwilling hpoll]
      | true =>
        rw [run_of_step hpoll]
        obtain ⟨bytes, -, htransition⟩ := @step_transition σ _ t s hco
        have hlt := fun events => @budget_step_lt σ _ t s events hco
        cases hstep : step t s with
        | mk outcome t' s' =>
          rw [hstep] at htransition hlt
          match outcome with
          | .error e => rfl
          | .ok .stalled => rfl
          | .ok (.moved events) =>
            -- The step cost at least one, so what is left of the budget does for the rest.
            have hless : budget t' s' < budget t s := hlt events rfl
            exact ih _ (htransition.coherent hco) (by omega)

/-! ## Where a run leaves a scan -/

theorem poll_of_watched {r : Receiver κ} {w w' : Watch κ} {answer : Bool}
    (h : r.watched.poll w = (answer, w')) : r.poll w.state = (answer, w'.state) := by
  obtain ⟨rfl, rfl⟩ := Prod.mk.inj h
  rfl

/-- Watching the receiver makes no difference to a run. -/
theorem run_watched (r : Receiver κ) (t : Scanner) (s : σ) (w : Watch κ) :
    (run r.watched t s w).outcome = (run r t s w.state).outcome ∧
      (run r.watched t s w).scanner = (run r t s w.state).scanner := by
  fun_induction run r.watched t s w with
  | case1 t s w w' hpoll =>
    rw [run_of_unwilling (poll_of_watched hpoll)]
    exact ⟨rfl, rfl⟩
  | case2 t s w w' hpoll e t' s' hstep =>
    rw [run_of_step (poll_of_watched hpoll), hstep]
    exact ⟨rfl, rfl⟩
  | case3 t s w w' hpoll t' s' hstep =>
    rw [run_of_step (poll_of_watched hpoll), hstep]
    exact ⟨rfl, rfl⟩
  | case4 t s w w' hpoll event t' s' hstep ih =>
    rw [run_of_step (poll_of_watched hpoll), hstep]
    rwa [state_deliverAll] at ih

/-- A run that ends well though the receiver never said no leaves a scanner that lacks bytes. -/
theorem lacking_run {r : Receiver κ} {t : Scanner} {s : σ} {k : κ} (hco : t.Coherent)
    (hok : (run r t s k).outcome = .ok ())
    (hwilling : (run r.watched t s { state := k }).receiver.willing = true) :
    (run r t s k).scanner.Lacking := by
  obtain ⟨houtcome, hscanner⟩ := run_watched r t s { state := k }
  rw [← houtcome] at hok
  rw [← hscanner]
  obtain ⟨_, _, t', s', w', -, htrail, -, hend⟩ := run_spec r.watched t s { state := k } hco
  generalize run r.watched t s { state := k } = p at hend hok hwilling
  cases hend with
  | paused hno => exact absurd (hno.symm.trans hwilling) (by simp)
  | failed _ _ => simp at hok
  | stalled _ hstalled =>
    have hco' := htrail.coherent hco
    obtain ⟨_, -, htransition⟩ := @step_transition σ _ t' s' hco'
    rw [hstalled] at htransition
    exact htransition.lacking hco'

/-- Nothing is left to do: no element is about to start or to end, and between two elements no open
master is exhausted. -/
structure WorkDone (t : Scanner) : Prop where
  not_resolve : ∀ id size number, t.phase ≠ .resolve id size number
  not_finished : ∀ leaf, t.phase ≠ .finished leaf
  not_exhausted : t.BetweenElements → ∀ m ∈ t.stack, ¬t.Exhausted m

theorem Lacking.workDone {t : Scanner} (h : t.Lacking) : t.WorkDone where
  not_resolve id size number hphase := by simp [Lacking, hphase] at h
  not_finished leaf hphase := by simp [Lacking, hphase] at h
  not_exhausted hbetween m hm hexhausted := by
    simp only [Lacking, hbetween.1] at h
    obtain ⟨innermost, outer, hstack⟩ := List.exists_cons_of_ne_nil (List.ne_nil_of_mem hm)
    have hany := (isExhausted_iff hstack).mpr ⟨m, hstack ▸ hm, hexhausted⟩
    simp [h.2.1 hbetween.2] at hany

/-! ## Parsing -/

/-- Every parse is over within as many rounds as the budget and one more, from every state that use can
bring a scanner to, over every source of which only finitely many bytes can come, whatever else the
source answers (`LimitedSource`), with every receiver and every longest piece of data, none at all
included. If it ends well and the receiver's last answer was not no, it left nothing to do. -/
theorem parse_returns (schema : Schema) (maxChunk : Nat) {log : List Event} {t : Scanner}
    (h : Session (fresh schema maxChunk) log t) {σ κ : Type} [FiniteSource σ] (r : Receiver κ) (s : σ)
    (k : κ) :
    (∀ n, 5 * FiniteSource.remaining s + t.rank < n →
      parseWithin r n t s k = some (parse r t s k)) ∧
    ((parse r t s k).outcome = .ok () →
      (parse r.watched t s { state := k }).receiver.willing = true →
        (parse r t s k).scanner.WorkDone) := by
  have hsound := h.sound (sound_fresh schema maxChunk)
  cases hclosed : t.closed with
  | true =>
    simp only [Sound, hclosed, if_true] at hsound
    obtain ⟨hphase, hstack⟩ := hsound
    rw [parse_of_closed r s k hclosed]
    refine ⟨fun n _ => by rw [parseWithin, if_pos hclosed], fun _ _ => ⟨?_, ?_, ?_⟩⟩
    · simp [hphase]
    · simp [hphase]
    · simp [hstack]
  | false =>
    have hco := hsound.coherent hclosed
    have hopen : ¬t.closed = true := by simp [hclosed]
    refine ⟨fun n hn => ?_, fun hok hwilling => ?_⟩
    · rw [parseWithin, if_neg hopen, parse, if_neg hopen]
      exact runWithin_eq r k hco hn
    · rw [parse, if_neg hopen] at hok hwilling ⊢
      exact (lacking_run hco hok hwilling).workDone

/-- A source that announces seven bytes more than it has, gives one byte at a time, and nothing every
other time. -/
def grudging : Operations (Bytes × Bool) where
  available s := (.ok (s.1.length + 7), s)
  readByte s := if s.2 then (.ok s.1.head?, (s.1.tail, false)) else (.ok none, (s.1, true))
  readBytes n s :=
    if s.2 then (.ok (s.1.take (min n 1)), (s.1.drop (min n 1), false)) else (.ok [], (s.1, true))
  eof s := (.ok s.1.isEmpty, s)
  length_readBytes n s bytes h := by
    split at h
    · rw [← Except.ok.inj h, List.length_take]
      omega
    · rw [← Except.ok.inj h]
      exact Nat.zero_le n

theorem atMost_grudging (s : Bytes × Bool) : grudging.AtMost s.1.length s := by
  intro count s' h
  induction h with
  | refl => exact Nat.zero_le _
  | available _ ih => exact ih
  | eof _ ih => exact ih
  | @readByte s _ _ _ ih =>
    obtain ⟨bytes, ready⟩ := s
    cases ready with
    | false => simpa [grudging, handedByte] using ih
    | true =>
      cases bytes with
      | nil => simpa [grudging, handedByte] using ih
      | cons b rest =>
        simp only [grudging, if_true, List.head?_cons, List.tail_cons, handedByte,
          List.length_cons] at ih ⊢
        omega
  | @readBytes s _ _ n _ ih =>
    obtain ⟨bytes, ready⟩ := s
    cases ready with
    | false => simpa [grudging, handedBytes] using ih
    | true =>
      simp only [grudging, if_true, handedBytes, List.length_drop, List.length_take] at ih ⊢
      omega

/-- A parse that is paused with an exhausted master open. -/
def pausedAtEnd : Parsed PushSource (Watch Nat) :=
  parse (Receiver.upTo 1).watched (fresh Matroska.schema 0)
    (PushSource.ofBytes [0x1A, 0x45, 0xDF, 0xA3, 0x80]) { state := 0 }

/-- The next parse is over a source that gives the first byte of an id and then nothing, although it
announces more and has it. -/
noncomputable def grudged : Parsed (LimitedSource grudging) Nat :=
  parse (Receiver.upTo 9) pausedAtEnd.scanner ⟨([0x42, 0x86, 0x81], true), 3, atMost_grudging _⟩ 0

/-- Both parses return, the second within seventeen rounds. -/
theorem parse_returns_over_grudging :
    pausedAtEnd.scanner.isExhausted = true ∧
      parseWithin (Receiver.upTo 9) 17 pausedAtEnd.scanner
        (⟨([0x42, 0x86, 0x81], true), 3, atMost_grudging _⟩ : LimitedSource grudging) 0 =
        some grudged ∧
      grudged.outcome = .ok () ∧ grudged.scanner.window.bytes = [0x42] ∧ grudged.scanner.WorkDone := by
  have hsession : Session (fresh Matroska.schema 0) _ pausedAtEnd.scanner :=
    .parse (Receiver.upTo 1) (PushSource.ofBytes [0x1A, 0x45, 0xDF, 0xA3, 0x80]) 0 .begin
  let source : LimitedSource grudging := ⟨([0x42, 0x86, 0x81], true), 3, atMost_grudging _⟩
  obtain ⟨hreturns, hdone⟩ := parse_returns Matroska.schema 0 hsession (Receiver.upTo 9) source 0
  have hmost : FiniteSource.remaining source ≤ 3 := LimitedSource.most_le (atMost_grudging _)
  have hrank : pausedAtEnd.scanner.rank = 1 := by cbv
  have hok : grudged.outcome = .ok () := by cbv
  refine ⟨by cbv, hreturns 17 ?_, hok, by cbv, hdone hok (by cbv)⟩
  omega

end Ebml.Scanner
