import Mathlib
import Ebml.Proofs.Reader.Chunking
import Ebml.Proofs.Reader.Persisting

/-!
# Failures of a stream do not matter

What a reader gets out of a stream by repeating every call that failed for the stream's sake is what
it would have got from all the bytes in one piece (`drainPersistently_eq_drain`). What is carried from
call to call is that the reader, with all bytes to come pushed in advance, is under way or through,
and that no failure was met twice (`Upheld`).
-/

namespace Ebml.Reader

/-! ## All bytes in one piece -/

/-- The reader of a source that was given all the bytes to come in advance. -/
def whole (r : Reader StreamSource) : Reader PushSource :=
  ⟨r.source.whole, r.scanner, r.collector⟩

/-- With all bytes to come pushed in advance the reader is under way or through, and the failures met
so far and those to come are among all failures of the stream, in their order. -/
structure Upheld (c : ReaderConfig) (input : Bytes) (all : List IoError) (taken : List Element)
    (failures : List IoError) (r : Reader StreamSource) : Prop where
  stands : Stands c input taken r.whole
  proper : r.source.Proper
  sublist : (failures ++ r.source.toFail).Sublist all

/-- The reader has something to go on with, or went on already since it had read `base` bytes. -/
def Ready (base : Nat) (r : Reader StreamSource) : Prop :=
  r.collector.hasPending = true ∨ r.scanner.closed = true ∨
    (base ≤ r.bytesRead ∧ (r.source.buffer = [] → base < r.bytesRead))

variable {c : ReaderConfig} {input : Bytes} {all failures : List IoError} {taken : List Element}
  {base : Nat} {r : Reader StreamSource}

/-- Bytes that the source handed out, in whatever operations, leave the failures in order. -/
theorem Upheld.sublist_of_brings (h : Upheld c input all taken failures r) {s : StreamSource}
    {bytes : Bytes} (hbrings : StreamSource.Brings r.source bytes s) :
    (failures ++ s.toFail).Sublist all :=
  ((List.Sublist.refl failures).append hbrings.toFail_suffix.sublist).trans h.sublist

/-- A failure that was met stands behind those met before. -/
theorem Upheld.sublist_of_balks (h : Upheld c input all taken failures r) {s : StreamSource}
    {e : IoError} (hbalks : Balks r.source e s) : (failures ++ [e] ++ s.toFail).Sublist all := by
  rw [List.append_assoc, List.singleton_append]
  exact ((List.Sublist.refl failures).append (hbalks.used h.proper).1.sublist).trans h.sublist

theorem Upheld.failures_sublist (h : Upheld c input all taken failures r) : failures.Sublist all :=
  (List.sublist_append_left failures _).trans h.sublist

theorem Upheld.underWay (h : Upheld c input all taken failures r)
    (hopen : r.scanner.closed = false) : UnderWay c input taken r.whole :=
  h.stands.underWay hopen

theorem Upheld.through (h : Upheld c input all taken failures r)
    (hclosed : r.scanner.closed = true) : Through c input taken r.whole :=
  h.stands.through hclosed

/-- An operation that hands out nothing leaves the reader upheld. -/
theorem Upheld.moved (h : Upheld c input all taken failures r) {s : StreamSource}
    (hhands : Hands r.source [] s) : Upheld c input all taken failures { r with source := s } := by
  have hbrings := hhands.brings h.proper
  have hwhole : s.whole = r.source.whole := by
    rw [StreamSource.whole, StreamSource.whole, hbrings.toCome_eq, List.nil_append]
  refine ⟨?_, hbrings.proper, h.sublist_of_brings hbrings⟩
  have hstands := h.stands
  rwa [whole, ← hwhole] at hstands

/-- What a scan of an upheld reader comes to. -/
theorem Upheld.scan (h : Upheld c input all taken failures r) (hopen : r.scanner.closed = false) :
    (∀ base, base ≤ r.bytesRead → (r.source.buffer = [] → base < r.bytesRead) →
        r.scan.2.source.buffer = [] → base < r.scan.2.bytesRead) ∧
      match r.scan with
      | (.ok (), r') =>
        Upheld c input all taken failures r' ∧
          (r'.collector.hasPending = true ∨ r'.source.buffer = [] ∧ r'.scanner.Lacking)
      | (.error (.io e), r') =>
        Upheld c input all taken (failures ++ [e]) r' ∧ r'.source.buffer = []
      | (.error e, _) => Failed c input taken e := by
  have hunder := h.underWay hopen
  have hco : r.scanner.Coherent := hunder.coherent
  have hchunk : 0 < r.scanner.maxChunk := hunder.maxChunk_pos
  have hbalks := @scan_balks _ _ _ r
  rw [scan_eq_run hopen] at hbalks ⊢
  obtain ⟨bytes, events, k, hhands, htrail, hheard, hreceiver, hhalt⟩ :=
    Scanner.run_halts Collector.receiver r.source r.collector hco hchunk
  obtain rfl := hheard.eq_deliverAll fun _ => rfl
  generalize Scanner.run Collector.receiver r.scanner r.source r.collector = p at *
  obtain ⟨outcome, t, s, k⟩ := p
  obtain rfl : k = _ := hreceiver
  have hbrings := hhands.brings h.proper
  have hunder' := (hunder.extend (hhands.whole h.proper) htrail).1
  refine ⟨fun base hle hfresh hempty => ?_, ?_⟩
  · -- A source that held bytes and holds none handed some out.
    have hconsumed : t.consumed = r.bytesRead + bytes.length := htrail.frame.consumed_eq
    show base < t.consumed
    by_cases hheld : r.source.buffer = []
    · have := hfresh hheld
      omega
    · have := List.length_pos_iff.mpr (hbrings.moves hheld hempty)
      omega
  · cases hhalt with
    | paused hno =>
      exact ⟨⟨.inl hunder', hbrings.proper, h.sublist_of_brings hbrings⟩,
        .inl (by simpa [Collector.receiver] using hno)⟩
    | usedUp _ hheld hlacking =>
      exact ⟨⟨.inl hunder', hbrings.proper, h.sublist_of_brings hbrings⟩, .inr ⟨hheld, hlacking⟩⟩
    | balked e =>
      have hbalked := hbalks rfl
      exact ⟨⟨.inl hunder', hbrings.proper, h.sublist_of_balks hbalked⟩,
        (hbalked.used h.proper).2⟩
    | @refused e hyes hother hends _ =>
      have hnone : (Collector.receiver.deliverAll events r.collector).hasPending = false := by
        simpa [Collector.receiver] using hyes
      have hfailed : Failed c input taken e := hunder'.failed hnone hends
      cases e with
      | io cause => exact absurd rfl (hother cause)
      | _ => exact hfailed

theorem Upheld.mayHaveNext (h : Upheld c input all taken failures r) :
    match r.mayHaveNext with
    | (.ok true, r') => Upheld c input all taken failures r' ∧ Ready r'.bytesRead r'
    | (.ok false, r') =>
      Upheld c input all taken failures r' ∧ Through c input taken r'.whole ∧
        r'.collector.hasPending = false
    | (.error (.io e), r') => Upheld c input all taken (failures ++ [e]) r'
    | (.error e, _) => Failed c input taken e := by
  generalize hanswer : r.mayHaveNext = answer
  unfold Reader.mayHaveNext at hanswer
  split at hanswer
  · rename_i hpending
    subst hanswer
    exact ⟨h, .inl hpending⟩
  rename_i hpending
  rw [Bool.not_eq_true] at hpending
  split at hanswer
  · rename_i hclosed
    subst hanswer
    exact ⟨h, h.through hclosed, hpending⟩
  rename_i hopen
  rw [Bool.not_eq_true] at hopen
  have hhands := (Hands.refl r.source).eof
  have heof := eof_spec h.proper
  split at hanswer <;> rename_i source hsource <;> rw [hsource] at hhands heof <;>
    have hmoved := h.moved hhands
  · subst hanswer
    exact ⟨hmoved.stands, hmoved.proper, h.sublist_of_balks (eof_balks hsource)⟩
  · subst hanswer
    exact ⟨hmoved, .inr (.inr ⟨Nat.le_refl _, fun hnil => absurd hnil heof⟩)⟩
  · -- The stream is at its end: what is left is scanned, and then the scan closes.
    have hscan := (hmoved.scan hopen).2
    have hreaches := scan_reaches { r with source := source }
    have hclosed := (scan_accounts { r with source := source }).closed_eq.trans hopen
    generalize Reader.scan { r with source := source } = scanned at *
    obtain ⟨outcome, r'⟩ := scanned
    cases outcome with
    | error e =>
      subst hanswer
      cases e with
      | io cause => exact hscan.1
      | _ => exact hscan
    | ok u =>
      obtain ⟨hupheld, hend⟩ := hscan
      dsimp only at hanswer
      subst hanswer
      cases hpending' : r'.collector.hasPending with
      | true => exact ⟨hupheld, .inl hpending'⟩
      | false =>
        obtain ⟨-, hlacking⟩ := hend.resolve_left (by simp [hpending'])
        have hnil : r'.whole.source.buffer = [] := hreaches.toCome_eq_nil hmoved.proper heof
        have hthrough := (hupheld.underWay hclosed).close hnil hlacking
        exact ⟨⟨.inr hthrough, hupheld.proper, hupheld.sublist⟩, .inr (.inl (closed_close r'))⟩

theorem Upheld.pop {e : Element} {rest : List Element} (h : Upheld c input all taken failures r)
    (hpending : r.collector.pending = e :: rest) :
    Upheld c input all (taken ++ [e]) failures r.pop.2 :=
  ⟨h.stands.pop hpending, h.proper, h.sublist⟩

/-- What comes of asking an upheld reader once for the next element. -/
theorem Upheld.next? (h : Upheld c input all taken failures r) :
    match r.next? with
    | (.ok (some e), r') => Upheld c input all (taken ++ [e]) failures r'
    | (.ok none, r') =>
      Upheld c input all taken failures r' ∧
        (Ready base r → base < r'.bytesRead ∨ r'.scanner.closed = true)
    | (.error (.io e), r') =>
      Upheld c input all taken (failures ++ [e]) r' ∧ (Ready base r → Ready base r')
    | (.error e, _) => Failed c input taken e := by
  cases hp : r.collector.hasPending with
  | true =>
    obtain ⟨e, rest, hpending⟩ := exists_pending hp
    rw [next?_of_pending hpending]
    exact h.pop hpending
  | false =>
    rw [Reader.next?, if_neg (by simp [hp])]
    cases hclosed : r.scanner.closed with
    | true =>
      rw [scan_eq_self hclosed]
      dsimp only
      rw [pop_of_not_pending hp]
      exact ⟨h, fun _ => .inr hclosed⟩
    | false =>
      obtain ⟨hmoves, hscan⟩ := h.scan hclosed
      -- A scan that leaves the source empty read on.
      have hready (hempty : r.scan.2.source.buffer = []) (hready : Ready base r) :
          base < r.scan.2.bytesRead := by
        obtain ⟨hle, hfresh⟩ := (hready.resolve_left (by simp [hp])).resolve_left (by simp [hclosed])
        exact hmoves base hle hfresh hempty
      generalize r.scan = scanned at *
      obtain ⟨outcome, r'⟩ := scanned
      cases outcome with
      | error e =>
        cases e with
        | io cause =>
          obtain ⟨hupheld, hempty⟩ := hscan
          refine ⟨hupheld, fun h => ?_⟩
          have hlt := hready hempty h
          exact .inr (.inr ⟨Nat.le_of_lt hlt, fun _ => hlt⟩)
        | _ => exact hscan
      | ok u =>
        obtain ⟨hupheld, hend⟩ := hscan
        cases hp' : r'.collector.hasPending with
        | true =>
          obtain ⟨e, rest, hpending⟩ := exists_pending hp'
          dsimp only
          rw [pop_fst hpending]
          exact hupheld.pop hpending
        | false =>
          obtain ⟨hempty, -⟩ := hend.resolve_left (by simp [hp'])
          dsimp only
          rw [pop_of_not_pending hp']
          exact ⟨hupheld, fun h => .inl (hready hempty h)⟩

/-! ## Repeating calls -/

theorem Upheld.persist_mayHaveNext (h : Upheld c input all taken failures r) :
    match Call.mayHaveNext.persist r with
    | ⟨more, .ok true, r'⟩ =>
      Upheld c input all taken (failures ++ more) r' ∧ Ready r'.bytesRead r'
    | ⟨more, .ok false, r'⟩ =>
      Upheld c input all taken (failures ++ more) r' ∧ Through c input taken r'.whole ∧
        r'.collector.hasPending = false
    | ⟨more, .error e, _⟩ =>
      (failures ++ more).Sublist all ∧ (∀ cause, e ≠ .io cause) ∧ Failed c input taken e := by
  have hkeeps : ∀ failures r e r', Upheld c input all taken failures r →
      Call.mayHaveNext.ask r = (.error (.io e), r') →
        Upheld c input all taken (failures ++ [e]) r' := by
    intro failures r e r' hr hask
    have hspec := hr.mayHaveNext
    rwa [show r.mayHaveNext = _ from hask] at hspec
  -- The last of the repeated calls is made by a reader that is upheld, and it did not fail as the
  -- stream does.
  obtain ⟨r₀, hr₀, hask, hio⟩ := Call.persist_induction hkeeps h
  have hspec := hr₀.mayHaveNext
  rw [show r₀.mayHaveNext = _ from hask] at hspec
  generalize Call.mayHaveNext.persist r = p at *
  obtain ⟨more, outcome, r'⟩ := p
  match outcome with
  | .ok true => exact hspec
  | .ok false => exact hspec
  | .error e =>
    have hother : ∀ cause, e ≠ .io cause := fun cause heq => hio cause (by rw [heq])
    refine ⟨hr₀.failures_sublist, hother, ?_⟩
    cases e with
    | io cause => exact absurd rfl (hother cause)
    | _ => exact hspec

theorem Upheld.persist_next? (h : Upheld c input all taken failures r) (hready : Ready base r) :
    match Call.next?.persist r with
    | ⟨more, .ok (some e), r'⟩ => Upheld c input all (taken ++ [e]) (failures ++ more) r'
    | ⟨more, .ok none, r'⟩ =>
      Upheld c input all taken (failures ++ more) r' ∧
        (base < r'.bytesRead ∨ r'.scanner.closed = true)
    | ⟨more, .error e, _⟩ =>
      (failures ++ more).Sublist all ∧ (∀ cause, e ≠ .io cause) ∧ Failed c input taken e := by
  have hkeeps : ∀ failures r e r', Upheld c input all taken failures r ∧ Ready base r →
      Call.next?.ask r = (.error (.io e), r') →
        Upheld c input all taken (failures ++ [e]) r' ∧ Ready base r' := by
    intro failures r e r' ⟨hr, hready⟩ hask
    have hspec := @Upheld.next? _ _ _ _ _ base _ hr
    rw [show r.next? = _ from hask] at hspec
    exact ⟨hspec.1, hspec.2 hready⟩
  obtain ⟨r₀, ⟨hr₀, hready₀⟩, hask, hio⟩ := Call.persist_induction hkeeps ⟨h, hready⟩
  have hspec := @Upheld.next? _ _ _ _ _ base _ hr₀
  rw [show r₀.next? = _ from hask] at hspec
  generalize Call.next?.persist r = p at *
  obtain ⟨more, outcome, r'⟩ := p
  match outcome with
  | .ok (some e) => exact hspec
  | .ok none => exact ⟨hspec.1, hspec.2 hready₀⟩
  | .error e =>
    have hother : ∀ cause, e ≠ .io cause := fun cause heq => hio cause (by rw [heq])
    refine ⟨hr₀.failures_sublist, hother, ?_⟩
    cases e with
    | io cause => exact absurd rfl (hother cause)
    | _ => exact hspec

/-- What comes of asking for an element, however often, after the reader said that there may be
one. -/
theorem Upheld.round {met : List IoError} {r' : Reader StreamSource}
    (h : Upheld c input all taken failures r)
    (hmay : Call.mayHaveNext.persist r = ⟨met, .ok true, r'⟩) :
    match Call.next?.persist r' with
    | ⟨more, .ok (some e), r''⟩ => Upheld c input all (taken ++ [e]) (failures ++ (met ++ more)) r''
    | ⟨more, .ok none, r''⟩ =>
      Upheld c input all taken (failures ++ (met ++ more)) r'' ∧
        (r'.bytesRead < r''.bytesRead ∨ r''.scanner.closed = true)
    | ⟨more, .error e, _⟩ =>
      (failures ++ (met ++ more)).Sublist all ∧ (∀ cause, e ≠ .io cause) ∧
        Failed c input taken e := by
  have hasked := h.persist_mayHaveNext
  rw [hmay] at hasked
  have hspec := hasked.1.persist_next? hasked.2
  simpa only [List.append_assoc] using hspec

/-- Draining an upheld reader hands out everything or comes upon what it cannot read. It never
starves, and no failure of the stream ends it. -/
theorem drainPersistently_spec (h : Upheld c input all taken failures r) :
    (failures ++ r.drainPersistently.failures).Sublist all ∧
      (∀ cause, r.drainPersistently.stop.error? ≠ some (.io cause)) ∧
      match r.drainPersistently.stop with
      | .ended =>
        Through c input (taken ++ r.drainPersistently.elements) r.drainPersistently.reader.whole ∧
          r.drainPersistently.reader.collector.hasPending = false
      | .starved => False
      | .unreadable e => Failed c input (taken ++ r.drainPersistently.elements) e
      | .malformed e => Failed c input (taken ++ r.drainPersistently.elements) e := by
  -- Each round keeps the reader upheld, with the failures met so far and one more element or none.
  fun_induction drainPersistently r generalizing taken failures with
  | case1 r met e r' hmay =>
    have hspec := h.persist_mayHaveNext
    rw [hmay] at hspec
    obtain ⟨hsublist, hother, hfailed⟩ := hspec
    exact ⟨hsublist, by simpa [DrainEnd.error?] using hother, by simpa using hfailed⟩
  | case2 r met r' hmay =>
    have hspec := h.persist_mayHaveNext
    rw [hmay] at hspec
    obtain ⟨hupheld, hthrough, hpending⟩ := hspec
    exact ⟨hupheld.failures_sublist, by simp [DrainEnd.error?], by simpa using ⟨hthrough, hpending⟩⟩
  | case3 r met r' hmay more e r'' hnext =>
    have hspec := h.round hmay
    rw [hnext] at hspec
    obtain ⟨hsublist, hother, hfailed⟩ := hspec
    exact ⟨hsublist, by simpa [DrainEnd.error?] using hother, by simpa using hfailed⟩
  | case4 =>
    rename_i r met r' hmay more element r'' hnext rest ih
    have hspec := h.round hmay
    rw [hnext] at hspec
    have hrest := ih hspec
    simp only [List.append_assoc, List.singleton_append] at hrest ⊢
    exact hrest
  | case5 =>
    rename_i r met r' hmay more r'' hnext hprogress rest ih
    have hspec := h.round hmay
    rw [hnext] at hspec
    have hrest := ih hspec.1
    simp only [List.append_assoc] at hrest ⊢
    exact hrest
  | case6 r met r' hmay more r'' hnext hstuck =>
    have hspec := h.round hmay
    rw [hnext] at hspec
    -- A round that hands out nothing makes progress, so the loop does not give up.
    exact absurd hspec.2 hstuck

/-! ## The same elements and the same end -/

/-- Reading a stream to its end, in chunks of any size and with every call repeated that fails for
the stream's sake, gives the elements of its bytes in one piece and the same end. No failure of the
stream is that end, all bytes are read unless what they say is refused, and each failure that was
met is one of the stream's, in their order and never that a read was interrupted. -/
theorem drainPersistently_eq_drain (c : ReaderConfig) (chunk : Nat) (answers : List StreamRead)
    (h : Stream.Flowing answers) :
    let persevered := (ofSource c (StreamSource.ofStream ⟨answers, 0⟩ chunk)).drainPersistently
    let drained := (ofSource c (PushSource.ofBytes (Stream.delivered answers))).drain
    persevered.elements = drained.elements ∧ persevered.stop.error? = drained.stop.error? ∧
      persevered.stop ≠ .starved ∧ drained.stop ≠ .starved ∧
      (∀ cause, persevered.stop.error? ≠ some (.io cause)) ∧
      (persevered.stop = .ended →
        persevered.reader.bytesRead = (Stream.delivered answers).length) ∧
      persevered.failures.Sublist (Stream.failures answers) ∧
      ∀ e ∈ persevered.failures, e.kind ≠ .interrupted := by
  have hupheld : Upheld c (Stream.delivered answers) (Stream.failures answers) [] []
      (ofSource c (StreamSource.ofStream ⟨answers, 0⟩ chunk)) :=
    ⟨.inl ⟨[], [], .refl _, rfl, rfl⟩, StreamSource.proper_ofStream chunk h, List.Sublist.refl _⟩
  obtain ⟨hsublist, hio, hstop⟩ := drainPersistently_spec hupheld
  obtain ⟨hreading, hstarved'⟩ := drain_ofBytes c (Stream.delivered answers)
  dsimp only
  generalize (ofSource c (StreamSource.ofStream ⟨answers, 0⟩ chunk)).drainPersistently =
    persevered at *
  generalize (ofSource c (PushSource.ofBytes (Stream.delivered answers))).drain = drained at *
  rw [List.nil_append] at hstop hsublist
  -- Both are read off the bytes that the stream delivers.
  obtain ⟨helements, hends⟩ := Prod.mk.inj ((reading_of_stop hstop).symm.trans hreading)
  refine ⟨helements, ?_, ?_, hstarved', hio, ?_, hsublist, ?_⟩
  · cases hone : persevered.stop.error? <;> cases hother : drained.stop.error? <;>
      simp_all
  · intro hstarved
    rwa [hstarved] at hstop
  · intro hended
    rw [hended] at hstop
    exact hstop.1.bytesRead_eq
  · intro e he
    exact Stream.not_interrupted_of_mem (hsublist.subset he)

/-- A void element read byte by byte from a stream that fails before, inside and after its header. -/
theorem drainPersistently_eq_drain_of_interruptions :
    let reset : IoError := ⟨.connectionReset, "reset by peer"⟩
    let answers : List StreamRead := [.failure ⟨.interrupted, "signal"⟩, .bytes [0xEC],
      .failure PushSource.wouldBlock, .bytes [0x82, 7], .failure reset, .bytes [8]]
    let persevered := (ofSource {} (StreamSource.ofStream ⟨answers, 0⟩ 1)).drainPersistently
    persevered.elements.length = 1 ∧ persevered.stop.error? = none ∧
      persevered.failures.Sublist [PushSource.wouldBlock, reset] := by
  have hflowing : Stream.Flowing [.failure ⟨.interrupted, "signal"⟩, .bytes [0xEC],
      .failure PushSource.wouldBlock, .bytes [0x82, 7],
      .failure ⟨.connectionReset, "reset by peer"⟩, .bytes [8]] := by simp [Stream.Flowing]
  obtain ⟨helements, hstop, -, -, -, -, hsublist, -⟩ :=
    drainPersistently_eq_drain {} 1 _ hflowing
  obtain ⟨hreading, -⟩ := drain_ofBytes {} [0xEC, 0x82, 7, 8]
  have hlength : (reading {} [0xEC, 0x82, 7, 8]).1.length = 1 := by cbv
  have hends : (reading {} [0xEC, 0x82, 7, 8]).2 = .ok () := by cbv
  rw [hreading] at hlength hends
  have hnone : (ofSource {} (PushSource.ofBytes [0xEC, 0x82, 7, 8])).drain.stop.error? = none := by
    cases herror : (ofSource {} (PushSource.ofBytes [0xEC, 0x82, 7, 8])).drain.stop.error? with
    | none => rfl
    | some e => simp [herror] at hends
  exact ⟨(congrArg List.length helements).trans hlength, hstop.trans hnone, hsublist⟩

end Ebml.Reader
