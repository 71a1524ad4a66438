import Mathlib
import Ebml.Proofs.Reader.Chunking
import Ebml.Reader.Apply

/-!
# Mixed use of a reader

Bytes are pushed, elements are asked for, taken one by one and shown to visitors, in any order and
also after failures (`Usage`). Each of these keeps the reader in one standing (`Kept`), and a reader
that stands so has handed out a front of what there is in all bytes pushed, no element left out and
none twice (`handed_out_in_order`).
-/

namespace Ebml

/-! ## Watching a visitor -/

/-- A visitor's state and the elements that it was shown, also one on which it failed. -/
structure Shown (ν : Type) where
  state : ν
  elements : List Element := []

/-- The visitor with a record of what it was shown. -/
def Visitor.watched {ν ε : Type} (v : Visitor ν ε) : Visitor (Shown ν) ε where
  visit e w :=
    let (outcome, state) := v.visit e w.state
    (outcome, ⟨state, w.elements ++ [e]⟩)
  isDone w := v.isDone w.state

namespace Reader

variable {ν ε : Type}

/-! ## How a visit goes -/

/-- What progress over pushed bytes is measured by. -/
def standing (r : Reader PushSource) : Nat × Nat :=
  (r.bytesRead, r.source.buffer.length)

theorem progress_pushed (r : Reader PushSource) : r.progress = (.ok r.standing, r) := rfl

theorem eof_pushed (s : PushSource) : ByteSource.eof s = (.ok s.finished, s) := rfl

/-- A visit over pushed bytes, round by round: the elements shown and what it comes to. -/
inductive Visits (v : Visitor ν ε) :
    Reader PushSource → ν → List Element → Applied PushSource ν ε → Prop
  | done {r : Reader PushSource} {state : ν} :
      v.isDone state = true → Visits v r state [] ⟨.ok (), r, state⟩
  | unanswered {r r' : Reader PushSource} {state : ν} {e : ScanError} :
      v.isDone state = false → r.mayHaveNext = (.error e, r') →
        Visits v r state [] ⟨.error (.scan e), r', state⟩
  | ended {r r' : Reader PushSource} {state : ν} :
      v.isDone state = false → r.mayHaveNext = (.ok false, r') →
        Visits v r state [] ⟨.ok (), r', state⟩
  | unread {r r' r'' : Reader PushSource} {state : ν} {e : ScanError} :
      v.isDone state = false → r.mayHaveNext = (.ok true, r') → r'.next? = (.error e, r'') →
        Visits v r state [] ⟨.error (.scan e), r'', state⟩
  | refused {r r' r'' : Reader PushSource} {state state' : ν} {element : Element} {e : ε} :
      v.isDone state = false → r.mayHaveNext = (.ok true, r') →
        r'.next? = (.ok (some element), r'') → v.visit element state = (.error e, state') →
          Visits v r state [element] ⟨.error (.visitor e), r'', state'⟩
  | shown {r r' r'' : Reader PushSource} {state state' : ν} {element : Element}
      {elements : List Element} {a : Applied PushSource ν ε} :
      v.isDone state = false → r.mayHaveNext = (.ok true, r') →
        r'.next? = (.ok (some element), r'') → v.visit element state = (.ok (), state') →
          Visits v r'' state' elements a → Visits v r state (element :: elements) a
  | dry {r r' r'' : Reader PushSource} {state : ν} :
      v.isDone state = false → r.mayHaveNext = (.ok true, r') → r'.next? = (.ok none, r'') →
        r''.standing = r'.standing → r''.source.finished = false →
          Visits v r state [] ⟨.ok (), r'', state⟩
  | again {r r' r'' : Reader PushSource} {state : ν} {elements : List Element}
      {a : Applied PushSource ν ε} :
      v.isDone state = false → r.mayHaveNext = (.ok true, r') → r'.next? = (.ok none, r'') →
        (r''.standing = r'.standing → r''.source.finished = true) →
          Visits v r'' state elements a → Visits v r state elements a

/-- Every visit goes so; over pushed bytes neither the progress nor the end can fail to be told. -/
theorem visits_apply (v : Visitor ν ε) (r : Reader PushSource) (state : ν) :
    ∃ elements, Visits v r state elements (apply v r state) := by
  -- Over pushed bytes a question for the progress or the end changes nothing, so after it the
  -- reader is the one before.
  fun_induction apply v r state with
  | case1 r state hdone => exact ⟨[], .done hdone⟩
  | case2 r state hdone e r' hm => exact ⟨[], .unanswered (by simpa using hdone) hm⟩
  | case3 r state hdone r' hm => exact ⟨[], .ended (by simpa using hdone) hm⟩
  | case4 r state hdone r' hm e r₂ hb => simp [progress_pushed] at hb
  | case5 r state hdone r' hm before r₂ hb e r'' hn =>
    obtain ⟨rfl, rfl⟩ : _ ∧ _ := by simpa [progress_pushed] using hb
    exact ⟨[], .unread (by simpa using hdone) hm hn⟩
  | case6 r state hdone r' hm before r₂ hb element r'' hn e state' hv =>
    obtain ⟨rfl, rfl⟩ : _ ∧ _ := by simpa [progress_pushed] using hb
    exact ⟨[element], .refused (by simpa using hdone) hm hn hv⟩
  | case7 r state hdone r' hm before r₂ hb element r'' hn state' hv ih =>
    obtain ⟨rfl, rfl⟩ : _ ∧ _ := by simpa [progress_pushed] using hb
    obtain ⟨elements, hvisits⟩ := ih
    exact ⟨element :: elements, .shown (by simpa using hdone) hm hn hv hvisits⟩
  | case8 r state hdone r' hm before r₂ hb r'' hn e r₄ ha => simp [progress_pushed] at ha
  | case9 r state hdone r' hm before r₂ hb r'' hn after r₄ ha hne ih =>
    obtain ⟨rfl, rfl⟩ : _ ∧ _ := by simpa [progress_pushed] using hb
    obtain ⟨rfl, rfl⟩ : _ ∧ _ := by simpa [progress_pushed] using ha
    obtain ⟨elements, hvisits⟩ := ih
    exact ⟨elements, .again (by simpa using hdone) hm hn (fun h => absurd h hne) hvisits⟩
  | case10 r state hdone r' hm before r₂ hb r'' hn after r₄ ha hsame e source he =>
    simp [eof_pushed] at he
  | case11 r state hdone r' hm before r₂ hb r'' hn after r₄ ha hsame source he =>
    obtain ⟨rfl, rfl⟩ : _ ∧ _ := by simpa [progress_pushed] using hb
    obtain ⟨rfl, rfl⟩ : _ ∧ _ := by simpa [progress_pushed] using ha
    obtain ⟨hopen, rfl⟩ : _ ∧ _ := by simpa [eof_pushed] using he
    exact ⟨[], .dry (by simpa using hdone) hm hn (Decidable.not_not.mp hsame) hopen⟩
  | case12 r state hdone r' hm before r₂ hb r'' hn after r₄ ha hsame source he ih =>
    obtain ⟨rfl, rfl⟩ : _ ∧ _ := by simpa [progress_pushed] using hb
    obtain ⟨rfl, rfl⟩ : _ ∧ _ := by simpa [progress_pushed] using ha
    obtain ⟨hfinished, rfl⟩ : _ ∧ _ := by simpa [eof_pushed] using he
    obtain ⟨elements, hvisits⟩ := ih
    exact ⟨elements, .again (by simpa using hdone) hm hn (fun _ => hfinished) hvisits⟩

/-- A visit can go in only one way. -/
theorem Visits.unique {v : Visitor ν ε} {r : Reader PushSource} {state : ν}
    {elements elements' : List Element} {a a' : Applied PushSource ν ε}
    (h : Visits v r state elements a) (h' : Visits v r state elements' a') :
    elements = elements' ∧ a = a' := by
  -- What a round does is told by the answers of its calls, and a call has one answer.
  induction h generalizing elements' a' with
  | done hdone => cases h' <;> simp_all
  | unanswered hdone hm => cases h' <;> simp_all
  | ended hdone hm => cases h' <;> simp_all
  | unread hdone hm hn => cases h' <;> simp_all
  | refused hdone hm hn hv => cases h' <;> simp_all
  | shown hdone hm hn hv _ ih =>
    cases h' with
    | shown _ hm' hn' hv' h' =>
      obtain ⟨-, rfl⟩ := Prod.mk.inj (hm.symm.trans hm')
      obtain ⟨hsome, rfl⟩ := Prod.mk.inj (hn.symm.trans hn')
      obtain rfl := Option.some.inj (Except.ok.inj hsome)
      obtain ⟨-, rfl⟩ := Prod.mk.inj (hv.symm.trans hv')
      obtain ⟨rfl, rfl⟩ := ih h'
      exact ⟨rfl, rfl⟩
    | _ => simp_all
  | dry hdone hm hn hsame hopen => cases h' <;> simp_all
  | again hdone hm hn hgo _ ih =>
    cases h' with
    | again _ hm' hn' _ h' =>
      obtain ⟨-, rfl⟩ := Prod.mk.inj (hm.symm.trans hm')
      obtain ⟨-, rfl⟩ := Prod.mk.inj (hn.symm.trans hn')
      exact ih h'
    | _ => simp_all

/-! ## Watching a visitor -/

/-- Watched, a visit goes the same way, and what is shown is on record. -/
theorem Visits.watched {v : Visitor ν ε} {r : Reader PushSource} {state : ν}
    {elements : List Element} {a : Applied PushSource ν ε} (h : Visits v r state elements a)
    (earlier : List Element) :
    Visits v.watched r ⟨state, earlier⟩ elements
      ⟨a.outcome, a.reader, ⟨a.visitor, earlier ++ elements⟩⟩ := by
  induction h generalizing earlier with
  | done hdone =>
    rw [List.append_nil]
    exact .done hdone
  | unanswered hdone hm =>
    rw [List.append_nil]
    exact .unanswered hdone hm
  | ended hdone hm =>
    rw [List.append_nil]
    exact .ended hdone hm
  | unread hdone hm hn =>
    rw [List.append_nil]
    exact .unread hdone hm hn
  | refused hdone hm hn hv => exact .refused hdone hm hn (by simp [Visitor.watched, hv])
  | @shown _ _ _ _ _ element elements _ hdone hm hn hv _ ih =>
    have hmore := ih (earlier ++ [element])
    rw [List.append_assoc, List.singleton_append] at hmore
    exact .shown hdone hm hn (by simp [Visitor.watched, hv]) hmore
  | dry hdone hm hn hsame hopen =>
    rw [List.append_nil]
    exact .dry hdone hm hn hsame hopen
  | again hdone hm hn hgo _ ih => exact .again hdone hm hn hgo (ih earlier)

/-- The elements that a visit shows. -/
def shown (v : Visitor ν ε) (r : Reader PushSource) (state : ν) : List Element :=
  (apply v.watched r { state := state }).visitor.elements

/-- What is shown in a visit does not depend on whether there is a record of it. -/
theorem visits_shown (v : Visitor ν ε) (r : Reader PushSource) (state : ν) :
    Visits v r state (shown v r state) (apply v r state) := by
  obtain ⟨elements, hvisits⟩ := visits_apply v r state
  obtain ⟨_, hwatched⟩ := visits_apply v.watched r { state := state }
  have hsame := ((hvisits.watched []).unique hwatched).2
  rwa [shown, ← hsame]

/-! ## Readers that ran dry -/

section

variable {c : ReaderConfig} {input : Bytes} {taken : List Element} {r : Reader PushSource}

/-- Scanning a dry reader changes nothing. -/
theorem UnderWay.scan_of_dry (h : UnderWay c input taken r) (hdry : Dry r) :
    r.scan = (.ok (), r) := by
  rw [scan_eq_run h.closed_eq]
  have hio := Scanner.run_ne_io Collector.receiver r.scanner r.source r.collector
  obtain ⟨bytes, events, k, hhands, htrail, hheard, hreceiver, hhalt⟩ :=
    Scanner.run_halts Collector.receiver r.source r.collector h.coherent h.maxChunk_pos
  obtain rfl := hheard.eq_deliverAll fun _ => rfl
  generalize Scanner.run Collector.receiver r.scanner r.source r.collector = p at *
  obtain ⟨outcome, t, s, k⟩ := p
  obtain rfl : k = _ := hreceiver
  -- Without bytes the source stays as it is, and a scan that lacks some does not move.
  obtain ⟨hbuffer, hfinished⟩ := PushSource.buffer_of_hands hhands
  rw [hdry.buffer_eq] at hbuffer
  obtain ⟨rfl, hempty⟩ := List.append_eq_nil_iff.mp hbuffer.symm
  have hrest := Scanner.Lacking.atRest hdry.lacking
  obtain ⟨hevents, hunnumbered⟩ := (htrail.bytewise h.coherent).eq_of_rests hrest.rests
  have hforecast : t.forecast [] = ⟨r.scanner.close.1, .ok ()⟩ := by
    have heq := htrail.forecast_eq h.coherent []
    rw [hevents, List.append_nil, Transcript.after_nil] at heq
    rw [← heq, Scanner.Lacking.forecast_nil hdry.lacking h.coherent h.closed_eq]
  have hsource : s = r.source := by
    calc s = ⟨s.buffer, s.finished⟩ := rfl
      _ = ⟨r.source.buffer, r.source.finished⟩ := by rw [hempty, hfinished, hdry.buffer_eq]
      _ = r.source := rfl
  have hcollector : Collector.receiver.deliverAll events r.collector = r.collector := by
    rw [← Collector.deliverAll_bytewise, hevents]
    rfl
  dsimp only at hio hhalt ⊢
  rw [hsource, hcollector]
  rw [hcollector] at hhalt
  cases hhalt with
  | paused hno => simp [Collector.receiver, hdry.hasPending_eq] at hno
  | usedUp _ _ hlacking =>
    -- Both scans lack bytes, so each has given the element at hand its number.
    obtain rfl := Scanner.eq_of_atRest (htrail.coherent h.coherent) h.coherent hlacking.atRest hrest
      hunnumbered
    rfl
  | balked e => exact absurd rfl (hio e)
  | refused _ _ hends _ =>
    -- Where bytes are lacking nothing was refused.
    rw [hends] at hforecast
    simp at hforecast

/-- Asking a dry reader again changes nothing. -/
theorem UnderWay.next?_of_dry (h : UnderWay c input taken r) (hdry : Dry r) :
    r.next? = (.ok none, r) := by
  rw [Reader.next?, if_neg (by simp [hdry.hasPending_eq]), h.scan_of_dry hdry]
  dsimp only
  rw [pop_of_not_pending hdry.hasPending_eq]

/-! ## The standing of a reader in use -/

/-- A reader that says that there are no more elements is left as it was. -/
theorem eq_of_mayHaveNext_false {σ : Type} [FiniteSource σ] {r r' : Reader σ}
    (h : r.mayHaveNext = (.ok false, r')) :
    r' = r ∧ r.collector.hasPending = false ∧ r.scanner.closed = true := by
  unfold Reader.mayHaveNext at h
  split at h
  · simp at h
  · rename_i hpending
    split at h
    · rename_i hclosed
      exact ⟨(Prod.mk.inj h).2.symm, by simpa using hpending, hclosed⟩
    · split at h
      · simp at h
      · simp at h
      · split at h <;> simp at h

/-- Before the end of its source a reader always says that there may be more. -/
theorem mayHaveNext_of_unfinished (hopen : r.scanner.closed = false)
    (hfinished : r.source.finished = false) : r.mayHaveNext = (.ok true, r) := by
  unfold Reader.mayHaveNext
  split
  · rfl
  · rw [if_neg (by simp [hopen]), eof_pushed, hfinished]

/-- A reader that is under way or through, and through only at the end of its source. -/
structure Kept (c : ReaderConfig) (input : Bytes) (taken : List Element) (r : Reader PushSource) :
    Prop where
  stands : Stands c input taken r
  finished_of_closed : r.scanner.closed = true → r.source.finished = true

theorem UnderWay.kept (h : UnderWay c input taken r) : Kept c input taken r :=
  ⟨.inl h, fun hclosed => by simp [h.closed_eq] at hclosed⟩

namespace Kept

theorem push (h : Kept c input taken r) (chunk : Bytes) :
    Kept c (input ++ if r.source.finished then [] else chunk) taken (r.push chunk) := by
  cases hfinished : r.source.finished with
  | true =>
    have hsame : r.push chunk = r := by simp [Reader.push, PushSource.push, hfinished]
    rw [hsame, if_pos rfl, List.append_nil]
    exact h
  | false =>
    rcases h.stands with hunder | hthrough
    · exact (hunder.push hfinished chunk).kept
    · simp [h.finished_of_closed hthrough.closed_eq] at hfinished

theorem finish (h : Kept c input taken r) : Kept c input taken r.finish :=
  ⟨h.stands, fun _ => rfl⟩

theorem closed_eq (h : Kept c input taken r) (hfinished : r.source.finished = false) :
    r.scanner.closed = false := by
  cases hclosed : r.scanner.closed with
  | true => simp [h.finished_of_closed hclosed] at hfinished
  | false => rfl

theorem assured (h : Kept c input taken r) (hfinished : r.source.finished = true) :
    Assured c input taken r :=
  assured_iff.mpr ⟨hfinished, h.stands⟩

theorem of_assured (h : Assured c input taken r) : Kept c input taken r :=
  ⟨(assured_iff.mp h).2, fun _ => (assured_iff.mp h).1⟩

/-- Asking whether there may be more keeps a reader, also if the answer is an error. -/
theorem mayHaveNext (h : Kept c input taken r) : Kept c input taken r.mayHaveNext.2 := by
  cases hfinished : r.source.finished with
  | false =>
    rw [mayHaveNext_of_unfinished (h.closed_eq hfinished) hfinished]
    exact h
  | true =>
    have hspec := (h.assured hfinished).mayHaveNext
    generalize hanswer : r.mayHaveNext = answer at hspec ⊢
    obtain ⟨outcome, r'⟩ := answer
    match outcome with
    | .ok true => exact of_assured hspec.1
    | .ok false =>
      obtain ⟨rfl, -, -⟩ := eq_of_mayHaveNext_false hanswer
      exact h
    | .error e => exact of_assured hspec.1

/-- Asking for an element keeps a reader. If none comes, it has reached its end or ran dry. -/
theorem next? (h : Kept c input taken r) :
    match r.next? with
    | (.ok (some e), r') => Kept c input (taken ++ [e]) r'
    | (.ok none, r') =>
      Kept c input taken r' ∧
        (r'.source.finished = false → r'.source.buffer = [] ∧ r'.next? = (.ok none, r'))
    | (.error _, r') => Kept c input taken r' := by
  rcases h.stands with hunder | hthrough
  · have hspec := hunder.next?
    generalize r.next? = answer at hspec ⊢
    obtain ⟨outcome, r'⟩ := answer
    match outcome with
    | .ok (some e) => exact hspec.1.kept
    | .ok none =>
      obtain ⟨hunder', -, hdry⟩ := hspec
      exact ⟨hunder'.kept, fun _ => ⟨hdry.buffer_eq, hunder'.next?_of_dry hdry⟩⟩
    | .error e => exact hspec.1.kept
  · have hclosed := hthrough.closed_eq
    have hspec := (h.assured (h.finished_of_closed hclosed)).next? (.inr (.inl hclosed))
    generalize r.next? = answer at hspec ⊢
    obtain ⟨outcome, r'⟩ := answer
    match outcome with
    | .ok (some e) => exact of_assured hspec
    | .ok none =>
      refine ⟨of_assured hspec.1, fun hopen => ?_⟩
      simp [(assured_iff.mp hspec.1).1] at hopen
    | .error e => exact of_assured hspec.1

section

variable {r' r'' : Reader PushSource}

theorem of_mayHaveNext {answer : Except ScanError Bool} (h : Kept c input taken r)
    (hm : r.mayHaveNext = (answer, r')) : Kept c input taken r' := by
  have hkept := h.mayHaveNext
  rwa [hm] at hkept

theorem of_some {e : Element} (h : Kept c input taken r) (hn : r.next? = (.ok (some e), r')) :
    Kept c input (taken ++ [e]) r' := by
  have hspec := h.next?
  rwa [hn] at hspec

theorem of_none (h : Kept c input taken r) (hn : r.next? = (.ok none, r')) :
    Kept c input taken r' ∧
      (r'.source.finished = false → r'.source.buffer = [] ∧ r'.next? = (.ok none, r')) := by
  have hspec := h.next?
  rwa [hn] at hspec

theorem of_error {e : ScanError} (h : Kept c input taken r) (hn : r.next? = (.error e, r')) :
    Kept c input taken r' := by
  have hspec := h.next?
  rwa [hn] at hspec

end

/-- A visit keeps a reader. If it ends well, then for one of three reasons. -/
theorem visits {v : Visitor ν ε} {state : ν} {elements : List Element}
    {a : Applied PushSource ν ε} (hvisits : Visits v r state elements a)
    (h : Kept c input taken r) :
    Kept c input (taken ++ elements) a.reader ∧
      (a.outcome = .ok () →
        v.isDone a.visitor = true ∨ a.reader.mayHaveNext.1 = .ok false ∨
          a.reader.source.finished = false ∧ a.reader.source.buffer = [] ∧
            a.reader.next? = (.ok none, a.reader)) := by
  -- The reader of the last round is the one that is left, and of the ways to end only three go
  -- well.
  induction hvisits generalizing taken with
  | done hdone =>
    rw [List.append_nil]
    exact ⟨h, fun _ => .inl hdone⟩
  | unanswered _ hm =>
    rw [List.append_nil]
    exact ⟨h.of_mayHaveNext hm, by simp⟩
  | ended _ hm =>
    rw [List.append_nil]
    obtain ⟨rfl, -, -⟩ := eq_of_mayHaveNext_false hm
    exact ⟨h, fun _ => .inr (.inl (by rw [hm]))⟩
  | unread _ hm hn =>
    rw [List.append_nil]
    exact ⟨(h.of_mayHaveNext hm).of_error hn, by simp⟩
  | refused _ hm hn _ => exact ⟨(h.of_mayHaveNext hm).of_some hn, by simp⟩
  | shown _ hm hn _ _ ih =>
    have hmore := ih ((h.of_mayHaveNext hm).of_some hn)
    rwa [List.append_assoc, List.singleton_append] at hmore
  | dry _ hm hn _ hopen =>
    rw [List.append_nil]
    obtain ⟨hkept, hdry⟩ := (h.of_mayHaveNext hm).of_none hn
    exact ⟨hkept, fun _ => .inr (.inr ⟨hopen, hdry hopen⟩)⟩
  | again _ hm hn _ _ ih => exact ih ((h.of_mayHaveNext hm).of_none hn).1

end Kept

/-! ## Any use -/

/-- The element that an answer hands out. -/
def handed : Except ScanError (Option Element) → List Element
  | .ok (some e) => [e]
  | _ => []

/-- Uses of a reader one after the other: all bytes that its source accepted, all elements handed out
or shown, and the reader. -/
inductive Usage (c : ReaderConfig) : Bytes → List Element → Reader PushSource → Prop
  | begin : Usage c [] [] (ofSource c {})
  | push {input : Bytes} {taken : List Element} {r : Reader PushSource} (chunk : Bytes) :
      Usage c input taken r →
        Usage c (input ++ if r.source.finished then [] else chunk) taken (r.push chunk)
  | finish {input : Bytes} {taken : List Element} {r : Reader PushSource} :
      Usage c input taken r → Usage c input taken r.finish
  | mayHaveNext {input : Bytes} {taken : List Element} {r : Reader PushSource} :
      Usage c input taken r → Usage c input taken r.mayHaveNext.2
  | next? {input : Bytes} {taken : List Element} {r : Reader PushSource} :
      Usage c input taken r → Usage c input (taken ++ handed r.next?.1) r.next?.2
  | apply {input : Bytes} {taken : List Element} {r : Reader PushSource} {ν ε : Type}
      (v : Visitor ν ε) (state : ν) :
      Usage c input taken r →
        Usage c input (taken ++ shown v r state) (Reader.apply v r state).reader

/-- No use of a reader spoils it. -/
theorem Usage.kept (h : Usage c input taken r) : Kept c input taken r := by
  induction h with
  | begin => exact (underWay_ofSource c).kept
  | push chunk _ ih => exact ih.push chunk
  | finish _ ih => exact ih.finish
  | mayHaveNext _ ih => exact ih.mayHaveNext
  | @next? _ _ r _ ih =>
    generalize hanswer : r.next? = answer
    obtain ⟨outcome, r'⟩ := answer
    match outcome with
    | .ok (some e) => exact ih.of_some hanswer
    | .ok none => simpa [handed] using (ih.of_none hanswer).1
    | .error e => simpa [handed] using ih.of_error hanswer
  | @apply _ _ r _ _ v state _ ih => exact (Kept.visits (visits_shown v r state) ih).1

/-! ## What was handed out -/

/-- What a reader under way handed out is a front of what there is. -/
theorem UnderWay.front (h : UnderWay c input taken r) : taken <+: (reading c input).1 := by
  obtain ⟨bytes, log, htrail, rfl, hcollected⟩ := h
  rw [reading_of_trail htrail, hcollected, Collector.deliverAll_behind]
  exact ⟨_, rfl⟩

theorem Kept.front (h : Kept c input taken r) : taken <+: (reading c input).1 := by
  rcases h.stands with hunder | hthrough
  · exact hunder.front
  · rw [hthrough.reading_eq]
    exact ⟨_, rfl⟩

/-- A reader that says that there are no more elements handed out all there are. -/
theorem Kept.all_of_mayHaveNext_false (h : Kept c input taken r)
    (hm : r.mayHaveNext.1 = .ok false) : taken = (reading c input).1 := by
  have hanswer : r.mayHaveNext = (.ok false, r.mayHaveNext.2) := Prod.ext hm rfl
  obtain ⟨-, hpending, hclosed⟩ := eq_of_mayHaveNext_false hanswer
  rcases h.stands with hunder | hthrough
  · simp [hunder.closed_eq] at hclosed
  · rw [reading_of_through hthrough hpending]

/-- However a reader is used, the elements handed out and shown to visitors, those included on which
a visitor failed, are in order a front of those that draining all bytes accepted gives, and all of
them once the reader says that there are no more. Every visit ends; if it ends well, the visitor is
done, there are no more elements, or all that was pushed so far is used up and gives no element. -/
theorem handed_out_in_order (c : ReaderConfig) {input : Bytes} {taken : List Element}
    {r : Reader PushSource} (h : Usage c input taken r) :
    let all := (ofSource c (PushSource.ofBytes input)).drain.elements
    taken <+: all ∧ (r.mayHaveNext.1 = .ok false → taken = all) ∧
      ∀ {ν ε : Type} (v : Visitor ν ε) (state : ν),
        let a := apply v r state
        a.outcome = .ok () →
          v.isDone a.visitor = true ∨ a.reader.mayHaveNext.1 = .ok false ∨
            a.reader.source.finished = false ∧ a.reader.source.buffer = [] ∧
              a.reader.next? = (.ok none, a.reader) := by
  intro all
  have hall : (reading c input).1 = all := congrArg Prod.fst (drain_ofBytes c input).1
  rw [← hall]
  refine ⟨h.kept.front, h.kept.all_of_mayHaveNext_false, fun v state => ?_⟩
  exact (Kept.visits (visits_shown v r state) h.kept).2

end

/-- The header of a master is pushed and its start taken; a visitor that fails on the second element
finds nothing, then it is shown the rest of the document until it fails. -/
theorem handed_out_in_order_of_failing_visitor :
    let picky : Visitor Nat String :=
      ⟨fun _ n => (if n = 0 then .ok () else .error "enough", n + 1), fun _ => false⟩
    let r := (ofSource {} {}).push [0x1A, 0x45, 0xDF, 0xA3, 0x84]
    let before := apply picky r.next?.2 0
    let r' := before.reader.push [0x42, 0x86, 0x81, 1]
    let all := ofSource {} (PushSource.ofBytes [0x1A, 0x45, 0xDF, 0xA3, 0x84, 0x42, 0x86, 0x81, 1])
    (handed r.next?.1).length = 1 ∧ before.outcome = .ok () ∧ before.reader.source.buffer = [] ∧
      before.reader.next? = (.ok none, before.reader) ∧
      handed r.next?.1 ++ shown picky r.next?.2 0 ++ shown picky r' 0 <+: all.drain.elements := by
  intro picky r before r' all
  have htaken : Usage {} [0x1A, 0x45, 0xDF, 0xA3, 0x84] (handed r.next?.1) r.next?.2 :=
    (Usage.begin.push [0x1A, 0x45, 0xDF, 0xA3, 0x84]).next?
  -- Nothing waits, so the first visit ends in its first round.
  have hm : r.next?.2.mayHaveNext = (.ok true, r.next?.2) :=
    mayHaveNext_of_unfinished (by cbv) (by cbv)
  have hn : r.next?.2.next? = (.ok none, r.next?.2.next?.2) := Prod.ext (by cbv) rfl
  have hdry : apply picky r.next?.2 0 = ⟨.ok (), r.next?.2.next?.2, 0⟩ :=
    ((visits_shown picky r.next?.2 0).unique (.dry rfl hm hn (by cbv) (by cbv))).2
  have hopen : (apply picky r.next?.2 0).reader.source.finished = false := by
    rw [hdry]
    cbv
  have hmay : (apply picky r.next?.2 0).reader.mayHaveNext.1 = .ok true := by
    rw [hdry]
    cbv
  have hok : (apply picky r.next?.2 0).outcome = .ok () := by rw [hdry]
  obtain hdone | hover | ⟨-, hbuffer, hnext⟩ := (handed_out_in_order {} htaken).2.2 picky 0 hok
  · simp [picky] at hdone
  · simp [hmay] at hover
  · -- The second visit goes on with what was pushed since.
    have hpushed := (htaken.apply picky 0).push [0x42, 0x86, 0x81, 1]
    rw [if_neg (by simp [hopen])] at hpushed
    have hfront := (handed_out_in_order {} (hpushed.apply picky 0)).1
    exact ⟨by cbv, hok, hbuffer, hnext, hfront⟩

end Reader

end Ebml
