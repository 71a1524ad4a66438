import Ebml.Proofs.Reader.Waiting
import Ebml.Proofs.Scanner.Refusing

/-!
# Readers after a fatal error

A reader scans only while nothing waits to be handed out, so nothing waits when a scan fails. From
then on every call for an element scans again and meets the same error, and so does every question
once the source is at its end; no use of the reader closes the broken scan, and none of its answers
looks like the end of the document (`fatal_errors_last`).
-/

namespace Ebml.Reader

open Scanner (Session fresh parse finishAll)

/-! ## Uses of a reader -/

section

variable {σ : Type} [FiniteSource σ]

/-- The readers that come of questions and of calls for elements, whatever these answered. The owner
may also put another source in the place of the one that is read, for instance the same with more
bytes. -/
inductive Used (r : Reader σ) : Reader σ → Prop
  | begin : Used r r
  | mayHaveNext {r' : Reader σ} : Used r r' → Used r r'.mayHaveNext.2
  | next? {r' : Reader σ} : Used r r' → Used r r'.next?.2
  | replace {r' : Reader σ} (s : σ) : Used r r' → Used r { r' with source := s }

/-- A call on the reader `r` fails with `e` and leaves the last reader. -/
inductive Fails (r : Reader σ) (e : ScanError) : Reader σ → Prop
  | mayHaveNext : r.mayHaveNext.1 = .error e → Fails r e r.mayHaveNext.2
  | next? : r.next?.1 = .error e → Fails r e r.next?.2

/-- A call for an element gives `e`, and so does a question if the source is at its end. It is never
answered with no. -/
structure Repeats (r : Reader σ) (e : ScanError) : Prop where
  next?_eq : r.next? = (.error e, r)
  mayHaveNext_eq :
    ∀ s, ByteSource.eof r.source = (.ok true, s) → r.mayHaveNext = (.error e, { r with source := s })
  mayHaveNext_ne : r.mayHaveNext.1 ≠ .ok false

variable {r r' : Reader σ} {e : ScanError}

theorem Used.progress (h : Used r r') : Used r r'.progress.2 := by
  unfold Reader.progress
  split <;> exact h.replace _

theorem Used.sound (h : Used r r') (hsound : r.scanner.Sound) : r'.scanner.Sound := by
  induction h with
  | begin => exact hsound
  | mayHaveNext _ ih => exact sound_mayHaveNext ih
  | next? _ ih => exact sound_next? ih
  | replace s _ ih => exact ih

/-! ## Broken readers -/

/-- A reader whose scan a fatal error ended, with nothing to hand out. -/
structure Broken (r : Reader σ) (e : ScanError) : Prop where
  scan : r.scanner.Broken e
  idle : r.collector.hasPending = false

namespace Broken

theorem scan_eq (h : r.Broken e) : r.scan = (.error e, r) := by
  rw [Reader.scan, h.scan.parse_eq]
  simp [Collector.receiver, h.idle]

omit [FiniteSource σ] in
theorem replace (h : r.Broken e) (s : σ) : Broken { r with source := s } e :=
  ⟨h.scan, h.idle⟩

theorem next?_eq (h : r.Broken e) : r.next? = (.error e, r) := by
  rw [Reader.next?, if_neg (by simp [h.idle]), h.scan_eq]

/-- What a question is answered depends only on whether the source is at its end. -/
theorem mayHaveNext_eq (h : r.Broken e) :
    r.mayHaveNext =
      (match (ByteSource.eof r.source).1 with
        | .error cause => .error (.io cause)
        | .ok false => .ok true
        | .ok true => .error e,
      { r with source := (ByteSource.eof r.source).2 }) := by
  rw [Reader.mayHaveNext, if_neg (by simp [h.idle]), if_neg (by simp [h.scan.closed_eq])]
  split <;> rename_i source heof <;> rw [heof]
  rw [(h.replace source).scan_eq]

theorem repeats (h : r.Broken e) : r.Repeats e where
  next?_eq := h.next?_eq
  mayHaveNext_eq s heof := by rw [h.mayHaveNext_eq, heof]
  mayHaveNext_ne := by
    rw [h.mayHaveNext_eq]
    dsimp only
    split <;> simp

theorem used (h : r.Broken e) (hused : Used r r') : r'.Broken e := by
  induction hused with
  | begin => exact h
  | mayHaveNext _ ih =>
    rw [ih.mayHaveNext_eq]
    exact ih.replace _
  | next? _ ih =>
    rw [ih.next?_eq]
    exact ih
  | replace s _ ih => exact ih.replace s

end Broken

/-! ## Calls that fail -/

section

variable (hsound : r.scanner.Sound) (hfatal : e.Fatal)

include hsound hfatal

theorem broken_scan (h : r.scan.1 = .error e) : r.scan.2.Broken e := by
  cases hclosed : r.scanner.closed with
  | true => simp [scan_eq_self hclosed] at h
  | false =>
    rw [scan_eq_run hclosed] at h ⊢
    obtain ⟨hbroken, k, hwilling, hreceiver⟩ :=
      Scanner.broken_run (hsound.coherent hclosed) hclosed h hfatal.ne_io
    refine ⟨hbroken, ?_⟩
    -- The collector does not change when it is asked, and it was willing.
    dsimp only
    rw [hreceiver]
    simpa [Collector.receiver] using hwilling

theorem broken_next? (h : r.next?.1 = .error e) : r.next?.2.Broken e := by
  have hscan := broken_scan hsound hfatal
  unfold Reader.next? at h ⊢
  split at h
  · simp at h
  · rename_i hidle
    rw [if_neg hidle]
    split at h <;> rename_i heq <;> simp only [heq] at hscan ⊢
    · exact hscan (congrArg Except.error (Except.error.inj h))
    · simp at h

theorem broken_mayHaveNext (h : r.mayHaveNext.1 = .error e) : r.mayHaveNext.2.Broken e := by
  unfold Reader.mayHaveNext at h ⊢
  split at h
  · simp at h
  rename_i hidle
  rw [if_neg hidle]
  split at h
  · simp at h
  rename_i hopen
  rw [if_neg hopen]
  split at h
  · exact absurd (Except.error.inj h).symm (hfatal.ne_io _)
  · simp at h
  · rename_i source heof
    have hscan := @broken_scan _ _ { r with source := source } e hsound hfatal
    split at h <;> rename_i heq <;> simp only [heq] at hscan ⊢
    · exact hscan (congrArg Except.error (Except.error.inj h))
    · simp at h

theorem Fails.broken (h : Fails r e r') : r'.Broken e := by
  cases h with
  | mayHaveNext h => exact broken_mayHaveNext hsound hfatal h
  | next? h => exact broken_next? hsound hfatal h

end

end

/-! ## Visitors -/

section

variable {σ ν ε : Type} [SteadySource σ] {r r' : Reader σ} {e : ScanError}

/-- Showing elements to a visitor is a use of the reader like any other. -/
theorem Used.apply (h : Used r r') (v : Visitor ν ε) (state : ν) :
    Used r (apply v r' state).reader :=
  apply_induction (P := Used r) (fun _ => .mayHaveNext) (fun _ => .progress) (fun _ => .next?)
    (fun _ => .replace _) v r' state h

theorem progress_ne_fatal (hfatal : e.Fatal) : r.progress.1 ≠ .error e := by
  unfold Reader.progress
  split
  · exact fun h => hfatal.ne_io _ (Except.error.inj h).symm
  · simp

/-- A fatal error that ends a visit is that of the last question or of the last call for an element. -/
theorem fails_of_apply (hused : Used r r') (v : Visitor ν ε) (state : ν) (hfatal : e.Fatal)
    (h : (apply v r' state).outcome = .error (.scan e)) :
    ∃ last, Used r last ∧ Fails last e (apply v r' state).reader := by
  -- Every reader on the way is one that was used.
  have hmay {r₀ r₁ : Reader σ} {answer} (hr : Used r r₀)
      (heq : r₀.mayHaveNext = (answer, r₁)) : Used r r₁ := by
    simpa [heq] using hr.mayHaveNext
  have hprogress {r₀ r₁ : Reader σ} {answer} (hr : Used r r₀)
      (heq : r₀.progress = (answer, r₁)) : Used r r₁ := by
    simpa [heq] using hr.progress
  have hnext {r₀ r₁ : Reader σ} {answer} (hr : Used r r₀)
      (heq : r₀.next? = (answer, r₁)) : Used r r₁ := by
    simpa [heq] using hr.next?
  -- Only the two calls that parse can bring a fatal error. The questions for the progress and the
  -- end can only fail as the source does.
  fun_induction apply v r' state with
  | case1 => simp at h
  | case2 r' state _ e' r₁ hm =>
    obtain rfl : e' = e := by simpa using h
    have hfails : Fails r' e' r'.mayHaveNext.2 := .mayHaveNext (by rw [hm])
    rw [hm] at hfails
    exact ⟨r', hused, hfails⟩
  | case3 => simp at h
  | case4 r' state _ r₁ hm e' r₂ hb =>
    obtain rfl : e' = e := by simpa using h
    exact absurd (by rw [hb]) (progress_ne_fatal (r := r₁) hfatal)
  | case5 r' state _ r₁ hm before r₂ hb e' r₃ hn =>
    obtain rfl : e' = e := by simpa using h
    have hfails : Fails r₂ e' r₂.next?.2 := .next? (by rw [hn])
    rw [hn] at hfails
    exact ⟨r₂, hprogress (hmay hused hm) hb, hfails⟩
  | case6 => simp at h
  | case7 r' state _ r₁ hm before r₂ hb element r₃ hn state' hv ih =>
    exact ih (hnext (hprogress (hmay hused hm) hb) hn) h
  | case8 r' state _ r₁ hm before r₂ hb r₃ hn e' r₄ ha =>
    obtain rfl : e' = e := by simpa using h
    exact absurd (by rw [ha]) (progress_ne_fatal (r := r₃) hfatal)
  | case9 r' state _ r₁ hm before r₂ hb r₃ hn after r₄ ha _ ih =>
    exact ih (hprogress (hnext (hprogress (hmay hused hm) hb) hn) ha) h
  | case10 =>
    obtain rfl : ScanError.io _ = e := by simpa using h
    exact absurd rfl (hfatal.ne_io _)
  | case11 => simp at h
  | case12 r' state _ r₁ hm before r₂ hb r₃ hn after r₄ ha _ source he ih =>
    exact ih ((hprogress (hnext (hprogress (hmay hused hm) hb) hn) ha).replace source) h

end

/-! ## Fatal errors last -/

/-- However a scan went that fails with a fatal error, its failure is for good. Until it is closed,
every later parse whose receiver is willing gives the same error, without a callback and without
taking a byte, whatever source it is given, and closing reports just the ends of the open masters. A
reader whose call failed with such an error repeats it however it is used afterwards, and showing
elements to a visitor is such a call and such a use. -/
theorem fatal_errors_last {e : ScanError} (hfatal : e.Fatal) :
    (∀ {schema : Schema} {maxChunk : Nat} {log : List Event} {t : Scanner},
      Session (fresh schema maxChunk) log t →
      ∀ {σ κ : Type} [FiniteSource σ] (r : Receiver κ) (s : σ) (k : κ),
      (parse r t s k).outcome = .error e →
      let failed := (parse r t s k).scanner
      failed.closed = false ∧ failed.close.1 = finishAll failed.stack ∧
        ∀ {more : List Event} {later : Scanner}, Session failed more later → later.closed = false →
        more = [] ∧ later = failed ∧
          ∀ {σ' κ' : Type} [FiniteSource σ'] (r' : Receiver κ') (s' : σ') (k' : κ'),
          parse r' later s' k' =
            ⟨if (r'.poll k').1 then .error e else .ok (), later, s', (r'.poll k').2⟩) ∧
      (∀ (c : ReaderConfig) {σ : Type} [FiniteSource σ] (s : σ) {r failed later : Reader σ},
        Used (ofSource c s) r → Fails r e failed → Used failed later → later.Repeats e) ∧
      ∀ (c : ReaderConfig) {σ ν ε : Type} [SteadySource σ] (s : σ) {r later : Reader σ}
        (v : Visitor ν ε) (state : ν),
        Used (ofSource c s) r →
        let shown := apply v r state
        Used (ofSource c s) shown.reader ∧
          (shown.outcome = .error (.scan e) → Used shown.reader later → later.Repeats e) := by
  -- All is said of what a fatal error leaves behind: a scanner, or a reader, that is broken.
  have hreader {c : ReaderConfig} {σ : Type} [FiniteSource σ] {s : σ} {r failed : Reader σ}
      (hused : Used (ofSource c s) r) (hfails : Fails r e failed) : failed.Broken e :=
    hfails.broken (hused.sound (Scanner.sound_fresh c.schema (max c.maxChunk 1))) hfatal
  refine ⟨?_, ?_, ?_⟩
  · intro schema maxChunk log t hsession σ κ _ r s k houtcome
    have hsound := hsession.sound (Scanner.sound_fresh schema maxChunk)
    cases hclosed : t.closed with
    | true => simp [Scanner.parse_of_closed _ _ _ hclosed] at houtcome
    | false =>
      rw [parse, if_neg (by simp [hclosed])] at houtcome ⊢
      obtain ⟨hbroken, -⟩ :=
        Scanner.broken_run (hsound.coherent hclosed) hclosed houtcome hfatal.ne_io
      refine ⟨hbroken.closed_eq, hbroken.close_eq, fun hlater hopen => ?_⟩
      obtain ⟨rfl, rfl⟩ := hlater.eq_of_broken hbroken hopen
      exact ⟨rfl, rfl, fun r' s' k' => hbroken.parse_eq r' s' k'⟩
  · exact fun c σ _ s r failed later hused hfails hlater =>
      ((hreader hused hfails).used hlater).repeats
  · intro c σ ν ε _ s r later v state hused
    refine ⟨hused.apply v state, fun houtcome hlater => ?_⟩
    obtain ⟨last, hlast, hfails⟩ := fails_of_apply hused v state hfatal houtcome
    exact ((hreader hlast hfails).used hlater).repeats

/-- A zero byte inside a master cannot start an element. A well-formed element that is pushed
afterwards is not looked at by the scan nor handed out by the reader. -/
theorem fatal_errors_last_after_zero_byte :
    let e : ScanError := .header 5 (.idTooWide 9)
    let willing : Receiver Unit := ⟨fun k => (true, k), fun _ k => k⟩
    let bytes : Bytes := [0x1A, 0x45, 0xDF, 0xA3, 0x85, 0]
    let void : PushSource := ⟨[0xEC, 0x81, 7], true⟩
    let failed := (parse willing (fresh Matroska.schema 8192) (PushSource.mk bytes false) ()).scanner
    let r := (ofSource {} (PushSource.mk bytes false)).next?.2
    e.Fatal ∧ parse willing failed void () = ⟨.error e, failed, void, ()⟩ ∧
      failed.close.1 = [.finish ⟨⟨0x1A45DFA3, "EBML", 0, .master, false⟩, 0⟩ []] ∧
      r.next?.1 = .error e ∧ { r.next?.2 with source := void }.next?.1 = .error e ∧
      { r.next?.2 with source := void }.mayHaveNext.1 = .error e := by
  intro e willing bytes void failed r
  have hfatal : e.Fatal := .header 5 (.idTooWide 9)
  obtain ⟨hsessions, hreaders, -⟩ := fatal_errors_last hfatal
  have hparse : (parse willing (fresh Matroska.schema 8192) (PushSource.mk bytes false) ()).outcome =
      .error e := by cbv
  have hnext : (ofSource {} (PushSource.mk bytes false)).next?.2.next?.1 = .error e := by cbv
  have hfails : Fails r e r.next?.2 := .next? hnext
  obtain ⟨hopen, hclose, hlater⟩ := hsessions .begin willing (PushSource.mk bytes false) () hparse
  have hrepeats := hreaders {} (PushSource.mk bytes false) (.next? .begin) hfails (.replace void .begin)
  refine ⟨hfatal, (hlater .begin hopen).2.2 willing void (), hclose.trans (by cbv), hnext,
    congrArg Prod.fst hrepeats.next?_eq, ?_⟩
  exact congrArg Prod.fst (hrepeats.mayHaveNext_eq void rfl)

end Ebml.Reader
