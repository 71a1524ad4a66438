import Ebml.Proofs.Reader.Collecting
import Ebml.Proofs.Scanner.Halting
import Ebml.Proofs.Scanner.Session
import Ebml.Reader.Feed

/-!
# What a reader went through

A reader of pushed bytes is under way (`UnderWay`) while a trail leads its scan through the bytes
taken, and the events of that trail, put together, are the elements handed out and those waiting. It
is through (`Through`) when a trail led to the end of the input and what was open then has ended.
Reading fails (`Failed`) where nothing can follow but the same failure. Every operation keeps a
reader in one of these standings, and feeding leaves it settled (`Settled`), with nothing that it
could still hand out.
-/

namespace Ebml.Reader

open Scanner (Trail fresh)

/-- The scan with which a reader begins. -/
def beginning (c : ReaderConfig) : Scanner :=
  fresh c.schema (max c.maxChunk 1)

/-- The reader took a part of the input, and the elements of that part were handed out or wait. -/
def UnderWay (c : ReaderConfig) (input : Bytes) (taken : List Element) (r : Reader PushSource) :
    Prop :=
  ∃ bytes log, Trail (beginning c) bytes log r.scanner ∧ input = bytes ++ r.source.buffer ∧
    Collector.receiver.deliverAll log (.ofConfig c) = r.collector.behind taken

/-- The reader took all of the input and ended what was open then. -/
def Through (c : ReaderConfig) (input : Bytes) (taken : List Element) (r : Reader PushSource) :
    Prop :=
  ∃ log t, Trail (beginning c) input log t ∧ t.Lacking ∧ r.scanner = t.close.2 ∧
    Collector.receiver.deliverAll (log ++ t.close.1) (.ofConfig c) = r.collector.behind taken

/-- The input cannot be read beyond some point, and the elements before it were handed out. -/
def Failed (c : ReaderConfig) (input : Bytes) (taken : List Element) (e : ScanError) : Prop :=
  ∃ bytes rest log t, Trail (beginning c) bytes log t ∧ input = bytes ++ rest ∧
    (∀ future, t.forecast future = ⟨[], .error e⟩) ∧
    (Collector.receiver.deliverAll log (.ofConfig c)).pending = taken

variable {c : ReaderConfig} {input : Bytes} {taken : List Element} {r : Reader PushSource}

theorem Failed.append {e : ScanError} (h : Failed c input taken e) (more : Bytes) :
    Failed c (input ++ more) taken e := by
  obtain ⟨bytes, rest, log, t, htrail, rfl, hends, hpending⟩ := h
  exact ⟨bytes, rest ++ more, log, t, htrail, List.append_assoc .., hends, hpending⟩

theorem underWay_ofSource (c : ReaderConfig) : UnderWay c [] [] (ofSource c {}) :=
  ⟨[], [], .refl _, rfl, rfl⟩

namespace UnderWay

theorem coherent (h : UnderWay c input taken r) : r.scanner.Coherent := by
  obtain ⟨_, _, htrail, -, -⟩ := h
  exact htrail.coherent (Scanner.coherent_fresh _ _)

theorem closed_eq (h : UnderWay c input taken r) : r.scanner.closed = false := by
  obtain ⟨_, _, htrail, -, -⟩ := h
  exact htrail.frame.closed_eq

theorem maxChunk_pos (h : UnderWay c input taken r) : 0 < r.scanner.maxChunk := by
  obtain ⟨_, _, htrail, -, -⟩ := h
  rw [htrail.frame.maxChunk_eq]
  exact Nat.lt_of_lt_of_le Nat.one_pos (Nat.le_max_right c.maxChunk 1)

theorem push (h : UnderWay c input taken r) (hopen : r.source.finished = false) (chunk : Bytes) :
    UnderWay c (input ++ chunk) taken (r.push chunk) := by
  obtain ⟨bytes, log, htrail, rfl, hcollected⟩ := h
  refine ⟨bytes, log, htrail, ?_, hcollected⟩
  simp [Reader.push, PushSource.push, hopen]

theorem finish (h : UnderWay c input taken r) : UnderWay c input taken r.finish := h

/-- A trail that the source's bytes allow leads on. -/
theorem extend {bytes : Bytes} {events : List Event} {t : Scanner} {s : PushSource}
    (h : UnderWay c input taken r) (hhands : Hands r.source bytes s)
    (htrail : Trail r.scanner bytes events t) :
    UnderWay c input taken ⟨s, t, Collector.receiver.deliverAll events r.collector⟩ ∧
      s.finished = r.source.finished := by
  obtain ⟨before, log, hbefore, rfl, hcollected⟩ := h
  obtain ⟨hbuffer, hfinished⟩ := PushSource.buffer_of_hands hhands
  refine ⟨⟨before ++ bytes, log ++ events, hbefore.trans htrail, ?_, ?_⟩, hfinished⟩
  · rw [hbuffer, List.append_assoc]
  · rw [Receiver.deliverAll_append, hcollected, Collector.deliverAll_behind]

/-- Scanning keeps a reader under way. It pauses for an element, uses up what was pushed or comes
upon what it cannot read. -/
theorem scan (h : UnderWay c input taken r) :
    UnderWay c input taken r.scan.2 ∧ r.scan.2.source.finished = r.source.finished ∧
      match r.scan.1 with
      | .ok () =>
        r.scan.2.collector.hasPending = true ∨
          r.scan.2.source.buffer = [] ∧ r.scan.2.scanner.Lacking
      | .error e =>
        r.scan.2.collector.hasPending = false ∧
          ∀ future, r.scan.2.scanner.forecast future = ⟨[], .error e⟩ := by
  rw [scan_eq_run h.closed_eq]
  have hio := Scanner.run_ne_io Collector.receiver r.scanner r.source r.collector
  obtain ⟨bytes, events, k, hhands, htrail, hheard, hreceiver, hhalt⟩ :=
    Scanner.run_halts Collector.receiver r.source r.collector h.coherent h.maxChunk_pos
  obtain rfl := hheard.eq_deliverAll fun _ => rfl
  generalize Scanner.run Collector.receiver r.scanner r.source r.collector = p at *
  obtain ⟨hunder, hfinished⟩ := h.extend hhands htrail
  obtain ⟨outcome, t, s, k⟩ := p
  obtain rfl : k = _ := hreceiver
  refine ⟨hunder, hfinished, ?_⟩
  cases hhalt with
  | paused hno => exact .inl (by simpa [Collector.receiver] using hno)
  | usedUp _ hheld hlacking => exact .inr ⟨hheld, hlacking⟩
  | balked e => exact absurd rfl (hio e)
  | refused hyes _ hends _ => exact ⟨by simpa [Collector.receiver] using hyes, hends⟩

/-- An error that leaves nothing waiting fails the reader. -/
theorem failed {e : ScanError} (h : UnderWay c input taken r)
    (hpending : r.collector.hasPending = false)
    (hends : ∀ future, r.scanner.forecast future = ⟨[], .error e⟩) : Failed c input taken e := by
  obtain ⟨bytes, log, htrail, rfl, hcollected⟩ := h
  refine ⟨bytes, r.source.buffer, log, r.scanner, htrail, rfl, hends, ?_⟩
  rw [hcollected]
  simpa [Collector.behind, Collector.hasPending] using hpending

/-- A reader that used up its input and lacks more is through once it is closed. -/
theorem close (h : UnderWay c input taken r) (hbuffer : r.source.buffer = [])
    (hlacking : r.scanner.Lacking) : Through c input taken r.close := by
  obtain ⟨bytes, log, htrail, rfl, hcollected⟩ := h
  rw [hbuffer, List.append_nil]
  refine ⟨log, r.scanner, htrail, hlacking, rfl, ?_⟩
  rw [Receiver.deliverAll_append, hcollected, Collector.deliverAll_behind]
  rfl

end UnderWay

/-! ## Handing out -/

section

variable {σ : Type} {r : Reader σ}

theorem pop_fst {e : Element} {rest : List Element} (h : r.collector.pending = e :: rest) :
    r.pop.1 = some e := by
  simp [Reader.pop, Collector.pop, h]

/-- What is handed out was waiting first. -/
theorem behind_pop {e : Element} {rest : List Element} (h : r.collector.pending = e :: rest)
    (taken : List Element) :
    r.collector.behind taken = r.pop.2.collector.behind (taken ++ [e]) := by
  simp [Reader.pop, Collector.pop, Collector.behind, h]

/-- A waiting element is handed out as it is. -/
theorem next?_of_pending [FiniteSource σ] {e : Element} {rest : List Element}
    (h : r.collector.pending = e :: rest) : r.next? = (.ok (some e), r.pop.2) := by
  rw [next?, if_pos (by simp [Collector.hasPending, h]), pop_fst h]

theorem exists_pending (h : r.collector.hasPending = true) :
    ∃ e rest, r.collector.pending = e :: rest := by
  apply List.exists_cons_of_ne_nil
  simpa [Collector.hasPending] using h

theorem pop_of_not_pending (h : r.collector.hasPending = false) : r.pop = (none, r) := by
  obtain ⟨source, scanner, collector⟩ := r
  cases collector
  simp_all [Reader.pop, Collector.pop, Collector.hasPending]

end

theorem UnderWay.pop {e : Element} {rest : List Element} (h : UnderWay c input taken r)
    (hpending : r.collector.pending = e :: rest) : UnderWay c input (taken ++ [e]) r.pop.2 := by
  obtain ⟨bytes, log, htrail, rfl, hcollected⟩ := h
  exact ⟨bytes, log, htrail, rfl, hcollected.trans (behind_pop hpending taken)⟩

theorem Through.pop {e : Element} {rest : List Element} (h : Through c input taken r)
    (hpending : r.collector.pending = e :: rest) : Through c input (taken ++ [e]) r.pop.2 := by
  obtain ⟨log, t, htrail, hlacking, hscanner, hcollected⟩ := h
  exact ⟨log, t, htrail, hlacking, hscanner, hcollected.trans (behind_pop hpending taken)⟩

theorem Through.closed_eq (h : Through c input taken r) : r.scanner.closed = true := by
  obtain ⟨_, t, -, -, hscanner, -⟩ := h
  rw [hscanner]
  exact Scanner.closed_close t

/-- All bytes are taken, since closing takes none. -/
theorem Through.bytesRead_eq (h : Through c input taken r) : r.bytesRead = input.length := by
  obtain ⟨log, t, htrail, -, hscanner, -⟩ := h
  have hconsumed : t.close.2.consumed = t.consumed := by
    unfold Scanner.close
    split <;> rfl
  rw [bytesRead, hscanner, hconsumed, htrail.frame.consumed_eq]
  exact Nat.zero_add _

/-- Nothing waits, and nothing can be made of the bytes that were pushed. -/
structure Dry (r : Reader PushSource) : Prop where
  hasPending_eq : r.collector.hasPending = false
  buffer_eq : r.source.buffer = []
  lacking : r.scanner.Lacking

/-- Asked for an element, a reader under way hands it out, runs dry or fails. -/
theorem UnderWay.next? (h : UnderWay c input taken r) :
    match r.next? with
    | (.ok (some e), r') =>
      UnderWay c input (taken ++ [e]) r' ∧ r'.source.finished = r.source.finished
    | (.ok none, r') =>
      UnderWay c input taken r' ∧ r'.source.finished = r.source.finished ∧ Dry r'
    | (.error e, r') =>
      UnderWay c input taken r' ∧ r'.source.finished = r.source.finished ∧ Failed c input taken e := by
  cases hp : r.collector.hasPending with
  | true =>
    obtain ⟨e, rest, hpending⟩ := exists_pending hp
    rw [next?_of_pending hpending]
    exact ⟨h.pop hpending, rfl⟩
  | false =>
    obtain ⟨hunder, hfinished, hend⟩ := h.scan
    rw [Reader.next?, if_neg (by simp [hp])]
    generalize r.scan = scanned at *
    obtain ⟨outcome, r'⟩ := scanned
    cases outcome with
    | error e => exact ⟨hunder, hfinished, hunder.failed hend.1 hend.2⟩
    | ok u =>
      cases hp' : r'.collector.hasPending with
      | true =>
        obtain ⟨e, rest, hpending⟩ := exists_pending hp'
        dsimp only
        rw [pop_fst hpending]
        exact ⟨hunder.pop hpending, hfinished⟩
      | false =>
        dsimp only at hend ⊢
        rw [pop_of_not_pending hp']
        rw [hp'] at hend
        -- Without an element the scan came to the end of what the source holds.
        obtain ⟨hbuffer, hlacking⟩ := hend.resolve_left (by simp)
        exact ⟨hunder, hfinished, hp', hbuffer, hlacking⟩

/-! ## Feeding -/

/-- The reader took all of the input, handed out all elements that are whole, and can make nothing of
what is left. -/
structure Settled (c : ReaderConfig) (input : Bytes) (taken : List Element)
    (r : Reader PushSource) : Prop where
  underWay : UnderWay c input taken r
  dry : Dry r

theorem settled_ofSource (c : ReaderConfig) : Settled c [] [] (ofSource c {}) where
  underWay := underWay_ofSource c
  dry := ⟨rfl, rfl, rfl, fun _ => rfl, fun hne => absurd rfl hne⟩

/-- Taking every element settles a reader under way or comes upon what cannot be read. -/
theorem takeAvailable_settles (h : UnderWay c input taken r) :
    match r.takeAvailable.outcome with
    | .ok () =>
      Settled c input (taken ++ r.takeAvailable.elements) r.takeAvailable.reader ∧
        r.takeAvailable.reader.source.finished = r.source.finished
    | .error e => Failed c input (taken ++ r.takeAvailable.elements) e := by
  -- Each call keeps the reader under way, with one more element taken, until it has none to give.
  fun_induction takeAvailable r generalizing taken with
  | case1 r e r' hnext =>
    have hspec := h.next?
    rw [hnext] at hspec
    simpa using hspec.2.2
  | case2 r r' hnext =>
    have hspec := h.next?
    rw [hnext] at hspec
    obtain ⟨hunder, hfinished, hdry⟩ := hspec
    rw [List.append_nil]
    exact ⟨⟨hunder, hdry⟩, hfinished⟩
  | case3 =>
    rename_i r element r' hnext rest ih
    have hspec := h.next?
    rw [hnext] at hspec
    obtain ⟨hunder, hfinished⟩ := hspec
    have hrest := ih hunder
    rw [hfinished, List.append_assoc] at hrest
    exact hrest

/-- Feeding settles a reader or comes upon what cannot be read. -/
theorem feed_settles (chunks : List Bytes) (h : Settled c input taken r)
    (hopen : r.source.finished = false) :
    match (r.feed chunks).outcome with
    | .ok () =>
      Settled c (input ++ chunks.flatten) (taken ++ (r.feed chunks).elements) (r.feed chunks).reader
    | .error e => Failed c (input ++ chunks.flatten) (taken ++ (r.feed chunks).elements) e := by
  induction chunks generalizing r input taken with
  | nil => simpa [feed] using h
  | cons chunk rest ih =>
    have hnow := takeAvailable_settles (h.underWay.push hopen chunk)
    have hfinished : (r.push chunk).source.finished = false := by
      simp [Reader.push, PushSource.push, hopen]
    rw [feed, List.flatten_cons, ← List.append_assoc]
    dsimp only
    generalize (r.push chunk).takeAvailable = now at hnow ⊢
    obtain ⟨elements, outcome, r'⟩ := now
    cases outcome with
    | error e => exact hnow.append _
    | ok u =>
      obtain ⟨hsettled, hfinished'⟩ := hnow
      have hrest := ih hsettled (hfinished'.trans hfinished)
      dsimp only at hrest ⊢
      rwa [List.append_assoc taken] at hrest

theorem feed_ofSource (c : ReaderConfig) (chunks : List Bytes) :
    match ((ofSource c {}).feed chunks).outcome with
    | .ok () =>
      Settled c chunks.flatten ((ofSource c {}).feed chunks).elements
        ((ofSource c {}).feed chunks).reader
    | .error e => Failed c chunks.flatten ((ofSource c {}).feed chunks).elements e := by
  have hspec := feed_settles chunks (settled_ofSource c) rfl
  rwa [List.nil_append, List.nil_append] at hspec

/-! ## Standings -/

/-- A reader that is under way or through. -/
def Stands (c : ReaderConfig) (input : Bytes) (taken : List Element) (r : Reader PushSource) : Prop :=
  UnderWay c input taken r ∨ Through c input taken r

theorem Stands.underWay (h : Stands c input taken r) (hopen : r.scanner.closed = false) :
    UnderWay c input taken r := by
  refine h.resolve_right fun hthrough => ?_
  rw [hthrough.closed_eq] at hopen
  simp at hopen

theorem Stands.through (h : Stands c input taken r) (hclosed : r.scanner.closed = true) :
    Through c input taken r := by
  refine h.resolve_left fun hunder => ?_
  rw [hunder.closed_eq] at hclosed
  simp at hclosed

theorem Stands.pop {e : Element} {rest : List Element} (h : Stands c input taken r)
    (hpending : r.collector.pending = e :: rest) : Stands c input (taken ++ [e]) r.pop.2 :=
  h.imp (·.pop hpending) (·.pop hpending)

end Ebml.Reader
