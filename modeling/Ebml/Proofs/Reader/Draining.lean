import Ebml.Proofs.Reader.History
import Ebml.Proofs.Reader.Persisting
import Ebml.Proofs.Source.Yielding

/-!
# Reading to the end

A reader whose source yields all that is left of the input (`Assured`) comes to the end of it. No
failure of the source stops it, and when it says that there may be another element then one waits,
or the scan is closed, or the source holds bytes, so it never goes on without reading. Draining such
a reader hands out everything or comes upon what cannot be read (`Assured.drain_spec`). A reader of
finished pushed bytes is assured, and so is one of a stream that never fails.
-/

namespace Ebml.Reader

/-! ## Spent readers -/

section

variable {σ : Type} [FiniteSource σ]

/-- Nothing waits and the scan is closed. -/
structure Spent (r : Reader σ) : Prop where
  hasPending_eq : r.collector.hasPending = false
  closed_eq : r.scanner.closed = true

namespace Spent

variable {r r' : Reader σ}

theorem mayHaveNext (h : Spent r) : r.mayHaveNext = (.ok false, r) := by
  rw [Reader.mayHaveNext, if_neg (by simp [h.hasPending_eq]), if_pos h.closed_eq]

theorem next? (h : Spent r) : r.next? = (.ok none, r) := by
  rw [Reader.next?, if_neg (by simp [h.hasPending_eq]), scan_eq_self h.closed_eq]
  dsimp only
  rw [pop_of_not_pending h.hasPending_eq]

end Spent

end

/-! ## Readers of sources that yield -/

section

open AnnouncingSource (held)

variable {σ : Type} [FiniteSource σ] [AnnouncingSource σ] [YieldingSource σ]

/-- The reader with the rest of its bytes pushed in advance. -/
def stocked (r : Reader σ) (rest : Bytes) : Reader PushSource :=
  ⟨.ofBytes rest, r.scanner, r.collector⟩

/-- The source yields all that is left of the input, and with it pushed in advance the reader is under
way or through. -/
def Assured (c : ReaderConfig) (input : Bytes) (taken : List Element) (r : Reader σ) : Prop :=
  ∃ rest, Yields r.source rest ∧ Stands c input taken (r.stocked rest)

/-- The reader has something to go on with. -/
def Supplied (r : Reader σ) : Prop :=
  r.collector.hasPending = true ∨ r.scanner.closed = true ∨ held r.source ≠ []

variable {c : ReaderConfig} {input rest : Bytes} {taken : List Element} {r : Reader σ}

/-- A scan takes a front of what is left. It pauses for an element, uses up what is held or comes upon
what it cannot read. -/
theorem scan_of_yields (hyields : Yields r.source rest) (h : UnderWay c input taken (r.stocked rest)) :
    ∃ bytes rest', Hands r.source bytes r.scan.2.source ∧ rest = bytes ++ rest' ∧
      r.scan.2.bytesRead = r.bytesRead + bytes.length ∧ Yields r.scan.2.source rest' ∧
      UnderWay c input taken (r.scan.2.stocked rest') ∧
      match r.scan.1 with
      | .ok () =>
        r.scan.2.collector.hasPending = true ∨
          held r.scan.2.source = [] ∧ r.scan.2.scanner.Lacking
      | .error e => (∀ cause, e ≠ .io cause) ∧ Failed c input taken e := by
  have hopen : r.scanner.closed = false := h.closed_eq
  have hco : r.scanner.Coherent := h.coherent
  have hchunk : 0 < r.scanner.maxChunk := h.maxChunk_pos
  have hbalks := @scan_balks _ _ _ r
  rw [scan_eq_run hopen] at hbalks ⊢
  -- A scan stops for one of four reasons, and that its source balked is not among them here.
  obtain ⟨bytes, events, k, hhands, htrail, hheard, hreceiver, hhalt⟩ :=
    Scanner.run_halts Collector.receiver r.source r.collector hco hchunk
  obtain rfl := hheard.eq_deliverAll fun _ => rfl
  generalize Scanner.run Collector.receiver r.scanner r.source r.collector = p at *
  obtain ⟨outcome, t, s, k⟩ := p
  obtain rfl : k = _ := hreceiver
  obtain ⟨⟨rest', rfl, hyields'⟩, -⟩ := YieldingSource.hands hyields hhands
  have hunder := (h.extend (PushSource.hands_ofBytes bytes rest') htrail).1
  refine ⟨bytes, rest', hhands, rfl, htrail.frame.consumed_eq, hyields', hunder, ?_⟩
  cases hhalt with
  | paused hno => exact .inl (by simpa [Collector.receiver] using hno)
  | usedUp _ hheld hlacking => exact .inr ⟨hheld, hlacking⟩
  | balked e => exact absurd (hbalks rfl) (not_balks_of_yields hyields)
  | refused hyes hother hends _ =>
    have hnone : (Collector.receiver.deliverAll events r.collector).hasPending = false := by
      simpa [Collector.receiver] using hyes
    exact ⟨hother, hunder.failed hnone hends⟩

/-- What comes of asking whether there may be another element. -/
theorem Assured.mayHaveNext (h : Assured c input taken r) :
    match r.mayHaveNext with
    | (.ok true, r') => Assured c input taken r' ∧ Supplied r'
    | (.ok false, r') => Spent r' ∧ ∃ rest, Through c input taken (r'.stocked rest)
    | (.error e, r') =>
      Assured c input taken r' ∧ (∀ cause, e ≠ .io cause) ∧ Failed c input taken e := by
  obtain ⟨rest, hyields, hstands⟩ := h
  generalize hanswer : r.mayHaveNext = answer
  unfold Reader.mayHaveNext at hanswer
  split at hanswer
  · rename_i hpending
    subst hanswer
    exact ⟨⟨rest, hyields, hstands⟩, .inl hpending⟩
  rename_i hpending
  rw [Bool.not_eq_true] at hpending
  split at hanswer
  · rename_i hclosed
    subst hanswer
    exact ⟨⟨hpending, hclosed⟩, rest, hstands.through hclosed⟩
  rename_i hopen
  rw [Bool.not_eq_true] at hopen
  have heof := YieldingSource.eof_spec hyields
  obtain ⟨⟨rest', hrest, hyields'⟩, -⟩ := YieldingSource.hands hyields (Hands.refl r.source).eof
  obtain rfl : rest = rest' := hrest
  split at hanswer <;> rename_i source hsource <;> rw [hsource] at heof hyields'
  · exact heof.elim
  · subst hanswer
    exact ⟨⟨rest, hyields', hstands⟩, .inr (.inr heof)⟩
  · -- The source is at its end: what is left is scanned, and then the scan closes.
    obtain ⟨bytes, rest', hhands, hrest, -, hyields'', hunder, hend⟩ :=
      @scan_of_yields _ _ _ _ c input rest taken { r with source := source } hyields'
        (hstands.underWay hopen)
    generalize Reader.scan { r with source := source } = scanned at *
    obtain ⟨outcome, r'⟩ := scanned
    cases outcome with
    | error e =>
      subst hanswer
      exact ⟨⟨rest', hyields'', .inl hunder⟩, hend⟩
    | ok u =>
      dsimp only at hend hanswer
      subst hanswer
      cases hpending' : r'.collector.hasPending with
      | true => exact ⟨⟨rest', hyields'', .inl hunder⟩, .inl hpending'⟩
      | false =>
        obtain ⟨hheld, hlacking⟩ := hend.resolve_left (by simp [hpending'])
        have hnil : rest' = [] := by
          rw [heof bytes r'.source hhands hheld] at hrest
          simpa using hrest
        subst hnil
        exact ⟨⟨[], hyields'', .inr (hunder.close rfl hlacking)⟩, .inr (.inl (closed_close r'))⟩

/-- What comes of asking for an element. Without one the reader read on or is closed. -/
theorem Assured.next? (h : Assured c input taken r) (hsupplied : Supplied r) :
    match r.next? with
    | (.ok (some e), r') => Assured c input (taken ++ [e]) r'
    | (.ok none, r') =>
      Assured c input taken r' ∧ (r.bytesRead < r'.bytesRead ∨ r'.scanner.closed = true)
    | (.error e, r') =>
      Assured c input taken r' ∧ (∀ cause, e ≠ .io cause) ∧ Failed c input taken e := by
  obtain ⟨rest, hyields, hstands⟩ := h
  cases hp : r.collector.hasPending with
  | true =>
    obtain ⟨e, waiting, hpending⟩ := exists_pending hp
    rw [next?_of_pending hpending]
    exact ⟨rest, hyields, hstands.pop hpending⟩
  | false =>
    cases hclosed : r.scanner.closed with
    | true =>
      rw [Spent.next? ⟨hp, hclosed⟩]
      exact ⟨⟨rest, hyields, hstands⟩, .inr hclosed⟩
    | false =>
      -- The scan goes on. Since bytes are held it shows an element, fails or takes some of them.
      have hheld := (hsupplied.resolve_left (by simp [hp])).resolve_left (by simp [hclosed])
      obtain ⟨bytes, rest', hhands, -, hread, hyields', hunder, hend⟩ :=
        scan_of_yields hyields (hstands.underWay hclosed)
      have hmoves := (YieldingSource.hands hyields hhands).2 hheld
      rw [Reader.next?, if_neg (by simp [hp])]
      generalize r.scan = scanned at *
      obtain ⟨outcome, r'⟩ := scanned
      cases outcome with
      | error e => exact ⟨⟨rest', hyields', .inl hunder⟩, hend⟩
      | ok u =>
        cases hp' : r'.collector.hasPending with
        | true =>
          obtain ⟨e, waiting, hpending⟩ := exists_pending hp'
          dsimp only
          rw [pop_fst hpending]
          exact ⟨rest', hyields', .inl (hunder.pop hpending)⟩
        | false =>
          -- Nothing is shown, so the scan took all that was held.
          obtain ⟨hempty, -⟩ := hend.resolve_left (by simp [hp'])
          have hlength := List.length_pos_iff.mpr (hmoves hempty)
          dsimp only at hread ⊢
          rw [pop_of_not_pending hp']
          exact ⟨⟨rest', hyields', .inl hunder⟩, .inl (by dsimp only; omega)⟩

/-- What comes of asking for an element after the reader said that there may be one. -/
theorem Assured.round {r' : Reader σ} (h : Assured c input taken r)
    (hmay : r.mayHaveNext = (.ok true, r')) :
    match r'.next? with
    | (.ok (some e), r'') => Assured c input (taken ++ [e]) r''
    | (.ok none, r'') =>
      Assured c input taken r'' ∧ (r'.bytesRead < r''.bytesRead ∨ r''.scanner.closed = true)
    | (.error e, r'') =>
      Assured c input taken r'' ∧ (∀ cause, e ≠ .io cause) ∧ Failed c input taken e := by
  have hspec := h.mayHaveNext
  rw [hmay] at hspec
  exact hspec.1.next? hspec.2

/-- Draining an assured reader hands out everything or comes upon what cannot be read. It never
starves, and no failure of the source ends it. -/
theorem Assured.drain_spec (h : Assured c input taken r) :
    (∀ cause, r.drain.stop.error? ≠ some (.io cause)) ∧
      match r.drain.stop with
      | .ended =>
        Spent r.drain.reader ∧
          ∃ rest, Through c input (taken ++ r.drain.elements) (r.drain.reader.stocked rest)
      | .starved => False
      | .unreadable e => Failed c input (taken ++ r.drain.elements) e
      | .malformed e => Failed c input (taken ++ r.drain.elements) e := by
  -- The rounds of the loop each keep the reader assured, with one more element taken or none.
  fun_induction drain r generalizing taken with
  | case1 r e r' hmay =>
    have hspec := h.mayHaveNext
    rw [hmay] at hspec
    obtain ⟨-, hother, hfailed⟩ := hspec
    exact ⟨by simpa [DrainEnd.error?] using hother, by simpa using hfailed⟩
  | case2 r r' hmay =>
    have hspec := h.mayHaveNext
    rw [hmay] at hspec
    exact ⟨by simp [DrainEnd.error?], by simpa using hspec⟩
  | case3 r r' hmay e r'' hnext =>
    have hspec := h.round hmay
    rw [hnext] at hspec
    obtain ⟨-, hother, hfailed⟩ := hspec
    exact ⟨by simpa [DrainEnd.error?] using hother, by simpa using hfailed⟩
  | case4 =>
    rename_i r r' hmay element r'' hnext rest ih
    have hspec := h.round hmay
    rw [hnext] at hspec
    have hrest := ih hspec
    rw [List.append_assoc] at hrest
    exact hrest
  | case5 r r' hmay r'' hnext hprogress ih =>
    have hspec := h.round hmay
    rw [hnext] at hspec
    exact ih hspec.1
  | case6 r r' hmay r'' hnext hstuck =>
    have hspec := h.round hmay
    rw [hnext] at hspec
    -- A round that hands out nothing makes progress, so the loop does not give up.
    exact absurd hspec.2 hstuck

end

/-! ## Pushed bytes -/

variable {c : ReaderConfig} {input : Bytes} {taken : List Element} {r : Reader PushSource}

/-- A reader of finished pushed bytes is assured if it is under way or through. -/
theorem assured_iff :
    Assured c input taken r ↔ r.source.finished = true ∧ Stands c input taken r := by
  have hstocked (hfinished : r.source.finished = true) : r.stocked r.source.buffer = r := by
    calc r.stocked r.source.buffer = ⟨⟨r.source.buffer, true⟩, r.scanner, r.collector⟩ := rfl
      _ = ⟨⟨r.source.buffer, r.source.finished⟩, r.scanner, r.collector⟩ := by rw [hfinished]
      _ = r := rfl
  constructor
  · rintro ⟨rest, ⟨hfinished, rfl⟩, hstands⟩
    exact ⟨hfinished, by rwa [hstocked hfinished] at hstands⟩
  · rintro ⟨hfinished, hstands⟩
    exact ⟨r.source.buffer, ⟨hfinished, rfl⟩, by rwa [hstocked hfinished]⟩

/-- Draining a reader whose input is complete hands out everything or fails. It never starves. -/
theorem drain_spec (h : Stands c input taken r) (hfinished : r.source.finished = true) :
    match r.drain.stop with
    | .ended =>
      Through c input (taken ++ r.drain.elements) r.drain.reader ∧
        r.drain.reader.collector.hasPending = false
    | .starved => False
    | .unreadable e => Failed c input (taken ++ r.drain.elements) e
    | .malformed e => Failed c input (taken ++ r.drain.elements) e := by
  have hspec := (assured_iff.mpr ⟨hfinished, h⟩).drain_spec.2
  generalize r.drain = drained at hspec ⊢
  obtain ⟨elements, stop, r'⟩ := drained
  cases stop with
  | ended =>
    -- Neither scan nor collector depends on what the source is stocked with.
    obtain ⟨hspent, _, hthrough⟩ := hspec
    exact ⟨hthrough, hspent.hasPending_eq⟩
  | starved => exact hspec
  | unreadable e => exact hspec
  | malformed e => exact hspec

/-- A document that is pushed in any chunks and then drained is read through or fails. -/
theorem feedAll_spec (c : ReaderConfig) (chunks : List Bytes) :
    match ((ofSource c {}).feedAll chunks).outcome with
    | .ok () =>
      Through c chunks.flatten ((ofSource c {}).feedAll chunks).elements
          ((ofSource c {}).feedAll chunks).reader ∧
        ((ofSource c {}).feedAll chunks).reader.collector.hasPending = false
    | .error e => Failed c chunks.flatten ((ofSource c {}).feedAll chunks).elements e := by
  have hfed := feed_ofSource c chunks
  rw [feedAll]
  dsimp only
  generalize (ofSource c {}).feed chunks = fed at hfed ⊢
  obtain ⟨elements, outcome, r⟩ := fed
  cases outcome with
  | error e => exact hfed
  | ok u =>
    have hdrained := drain_spec (.inl hfed.underWay.finish) rfl
    dsimp only at hdrained ⊢
    generalize r.finish.drain = drained at hdrained ⊢
    obtain ⟨more, stop, r'⟩ := drained
    cases stop with
    | ended => exact hdrained
    | starved => exact hdrained.elim
    | unreadable e => exact hdrained
    | malformed e => exact hdrained

end Ebml.Reader
